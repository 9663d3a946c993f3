import Mathlib.Data.List.Nodup
import DeskScript.Proofs.Machine.Farewells

set_option autoImplicit false

/-!
# The table of running scripts

A started program is entered in the table under its name, and leaves it after it has ended. The table never lists a run that
has ended and left, whatever names the host gives: `Moment.Possible.listed`. It lists every program that has not ended,
and all of them are stopped together, if no script is started under a name that is in the table: `running_lists_unfinished`.
Two scripts of one name share one entry, and the table loses the one that goes on: `shared_name_is_lost`.
-/

namespace DeskScript

namespace Dict

variable {α : Type}

theorem mem_insert {d : Dict α} {key : String} {value : α} {entry : String × α} (h : entry ∈ d.insert key value) :
    entry = (key, value) ∨ entry ∈ d := by
  induction d with
  | nil => exact .inl (List.mem_singleton.1 h)
  | cons first d ih =>
    obtain ⟨k, v⟩ := first
    simp only [insert] at h
    split at h
    · rename_i hk
      subst hk
      exact (List.mem_cons.1 h).imp_right (List.mem_cons_of_mem _)
    · rcases List.mem_cons.1 h with hfirst | hrest
      · exact .inr (hfirst ▸ List.mem_cons_self)
      · exact (ih hrest).imp_right (List.mem_cons_of_mem _)

theorem mem_erase {d : Dict α} {key : String} {entry : String × α} (h : entry ∈ d.erase key) : entry ∈ d := by
  induction d with
  | nil => cases h
  | cons first d ih =>
    obtain ⟨k, v⟩ := first
    simp only [erase] at h
    split at h
    · exact List.mem_cons_of_mem _ h
    · rcases List.mem_cons.1 h with hfirst | hrest
      · exact hfirst ▸ List.mem_cons_self
      · exact List.mem_cons_of_mem _ (ih hrest)

theorem key_mem {d : Dict α} {entry : String × α} (h : entry ∈ d) : entry.1 ∈ d.keys := List.mem_map_of_mem h

theorem nodup_insert {d : Dict α} (h : d.keys.Nodup) (key : String) (value : α) : (d.insert key value).keys.Nodup := by
  rw [keys_insert]
  split
  · exact h
  · rename_i hnew
    apply List.Nodup.append h (List.nodup_singleton key)
    rw [List.disjoint_singleton]
    exact hnew

end Dict

theorem Control.isSettling_cases (control : Control) :
    (∃ ending, control = .settle ending) ∨ control.isSettling = false := by
  cases control with
  | settle ending => exact .inl ⟨ending, rfl⟩
  | _ => exact .inr rfl

namespace Moment

variable {m n : Moment} {id other : RunId}

def running : Moment → Dict RunId
  | resting w | within w _ _ _ => w.running

def Present (id : RunId) (m : Moment) : Prop := (m.thread id .main).control.hasFinished = false ∨ 0 < m.leaving id

theorem Move.present_iff (hn : Move m n) (hm : Possible m) (hid : id < m.size) :
    Present id n ↔ Present id m ∧ ¬Forgets id m n := by
  by_cases hmain : Acts id .main m n
  · have hgoing := hmain.going hm
    have hforgets : ¬Forgets id m n := by
      rintro ⟨-⟩
      cases hmain
    refine ⟨fun _ => ⟨.inl hgoing, hforgets⟩, fun _ => ?_⟩
    cases hafter : (n.thread id .main).control.hasFinished with
    | false => exact .inl hafter
    | true =>
      right
      rw [hmain.leaving_main hm, hafter, if_pos rfl]
      exact Nat.succ_pos _
  · obtain ⟨hthread, -⟩ := (hn.main_cases hm hid).resolve_left hmain
    unfold Present
    rw [hthread]
    by_cases hforgets : Forgets id m n
    · have hleaving := hforgets.leaving
      have hle := hm.leaving_le id
      cases hfinished : (m.thread id .main).control.hasFinished with
      | false =>
        rw [hfinished] at hle
        exact absurd (hleaving ▸ hle) (Nat.not_succ_le_zero _)
      | true =>
        rw [hfinished, if_pos rfl] at hle
        have hnone : n.leaving id = 0 := by omega
        rw [hnone]
        exact ⟨fun h => h.elim nofun (absurd · (Nat.lt_irrefl 0)), fun h => absurd hforgets h.2⟩
    · rw [(hn.leaving_cases hm hmain).resolve_right hforgets]
      exact ⟨fun h => ⟨h, hforgets⟩, And.left⟩

inductive Registers (m n : Moment) : Prop
  | same (hrunning : n.running = m.running)
      (hnew : ∀ id, m.size ≤ id → id < n.size → (n.run id).program = none)
  | entered (hrunning : n.running = m.running.insert (n.run m.size).name m.size) (hsize : n.size = m.size + 1)
      (hprogram : (n.run m.size).program.isSome = true)
  | left (id : RunId) (hforgets : Forgets id m n)

theorem Forgets.table (h : Forgets id m n) : n.running = m.running.erase (m.run id).name ∧ n.size = m.size := by
  cases h with
  | intro hpop => exact ⟨rfl, rfl⟩

theorem running_rest (w : World) (id : RunId) (side : Side) (s : Step) : (w.rest id side s).running = w.running := by
  unfold World.rest
  dsimp only
  split
  · unfold World.concluded
    dsimp only
    split <;> rfl
  · rfl

theorem Move.registers (hn : Move m n) : Registers m n := by
  have hsame (hrunning : n.running = m.running) (hsize : n.size = m.size) : Registers m n :=
    .same hrunning fun id hold hnew => absurd (hsize ▸ hnew) (Nat.not_lt.2 hold)
  cases hn with
  | reorder hperm => exact hsame rfl rfl
  | next hn =>
    cases hn with
    | @driven w w' hdriven =>
      have hpushed {r : Run} (hruns : w'.runs = w.runs.push r) :
          w'.runs.size = w.runs.size + 1 ∧ w'.run w.runs.size = r := by
        rw [World.run, hruns, Array.size_push]
        exact ⟨rfl, by simp⟩
      cases hdriven.entered with
      | same hsize heven hrunning => exact hsame hrunning hsize
      | refused r hruns hwaits hprogram heven hrunning =>
        obtain ⟨hsize, hrun⟩ := hpushed hruns
        refine .same hrunning fun id hold hnew => ?_
        have hnew : id < w'.runs.size := hnew
        rw [hsize] at hnew
        obtain rfl : id = w.runs.size := Nat.le_antisymm (Nat.le_of_lt_succ hnew) hold
        exact (congrArg Run.program hrun).trans hprogram
      | begun r hruns hwaits hprogram hrings hrunning =>
        obtain ⟨hsize, hrun⟩ := hpushed hruns
        rw [← hrun] at hrunning hprogram
        exact .entered hrunning hsize hprogram
    | waited _ _ => exact hsame rfl rfl
    | @entry w entry ready hpop hentry =>
      cases entry with
      | thread other side => exact absurd rfl (hentry other side)
      | forget other => exact .left other (.intro hpop)
      | service service => exact hsame rfl (World.size_advance (w.dequeued ready) hentry)
      | gathered | controller => exact hsame rfl rfl
    | thread _ => exact hsame rfl (World.size_setRun _ _ _)
    | step _ => exact hsame rfl rfl
    | rest _ =>
      apply hsame (running_rest _ _ _ _)
      exact (congrArg Array.size (World.runs_rest _ _ _ _)).trans (World.size_setRun _ _ _)

/-- Every entry is of a program that is present, under its name. -/
structure Listed (m : Moment) : Prop where
  nodup : m.running.keys.Nodup
  entries : ∀ entry ∈ m.running, entry.2 < m.size ∧ (m.run entry.2).program.isSome = true ∧
    (m.run entry.2).name = entry.1 ∧ Present entry.2 m

theorem Listed.move (h : Listed m) (hm : Possible m) (hn : Move m n) : Listed n := by
  -- An entry that stays is of a run that stays.
  have hkept {entry : String × RunId} (hbefore : entry ∈ m.running) (hforgets : ¬Forgets entry.2 m n) :
      entry.2 < n.size ∧ (n.run entry.2).program.isSome = true ∧ (n.run entry.2).name = entry.1 ∧ Present entry.2 n := by
    obtain ⟨hid, hprogram, hname, hpresent⟩ := h.entries entry hbefore
    obtain ⟨hsameName, hsameProgram, -, -⟩ := hn.terms hm hid
    rw [hsameName, hsameProgram]
    exact ⟨Nat.lt_of_lt_of_le hid hn.size, hprogram, hname, (hn.present_iff hm hid).2 ⟨hpresent, hforgets⟩⟩
  have hstays {entry : String × RunId} (hbefore : entry ∈ m.running) (hafter : entry ∈ n.running) :
      ¬Forgets entry.2 m n := by
    intro hforgets
    have hname := (h.entries entry hbefore).2.2.1
    have hkey := Dict.key_mem hafter
    rw [hforgets.table.1, hname, Dict.keys_erase, h.nodup.mem_erase_iff] at hkey
    exact hkey.1 rfl
  cases hn.registers with
  | same hrunning hnew =>
    refine ⟨hrunning ▸ h.nodup, fun entry hentry => ?_⟩
    have hbefore : entry ∈ m.running := hrunning ▸ hentry
    exact hkept hbefore (hstays hbefore hentry)
  | entered hrunning hsize hprogram =>
    refine ⟨hrunning ▸ Dict.nodup_insert h.nodup _ _, fun entry hentry => ?_⟩
    have hcases := hentry
    rw [hrunning] at hcases
    rcases Dict.mem_insert hcases with hfresh | hbefore
    · subst hfresh
      have hthread := (hn.unbegun (Nat.le_refl _) (hsize ▸ Nat.lt_succ_self _)).2 .main
      refine ⟨hsize ▸ Nat.lt_succ_self _, hprogram, rfl, .inl ?_⟩
      rw [hthread]
      rfl
    · exact hkept hbefore (hstays hbefore hentry)
  | left id hforgets =>
    obtain ⟨hrunning, -⟩ := hforgets.table
    refine ⟨?_, fun entry hentry => ?_⟩
    · rw [hrunning, Dict.keys_erase]
      exact h.nodup.erase _
    · have hbefore : entry ∈ m.running := by
        rw [hrunning] at hentry
        exact Dict.mem_erase hentry
      exact hkept hbefore (hstays hbefore hentry)

theorem Possible.listed (hm : Possible m) : Listed m := by
  induction hm with
  | fresh host config holds hbus => exact ⟨List.nodup_nil, nofun⟩
  | move hm hn ih => exact ih.move hm hn

theorem Possible.program_of_leaving (hm : Possible m) (h : 0 < m.leaving id) : (m.run id).program.isSome = true := by
  have hle := hm.leaving_le id
  have hfinished : (m.thread id .main).control.hasFinished = true := by
    cases hfinished : (m.thread id .main).control.hasFinished with
    | true => rfl
    | false =>
      rw [hfinished] at hle
      exact absurd h (Nat.not_lt.2 hle)
  have hid : id < m.size := by
    rcases Nat.lt_or_ge id m.size with hid | hid
    · exact hid
    · rw [hm.thread_absent hid] at hfinished
      cases hfinished
  have hload := (hm.rightful hid).load
  cases hprogram : (m.run id).program.isSome with
  | true => rfl
  | false =>
    rw [load, hfinished, hprogram] at hload
    exact absurd hload (Nat.not_succ_le_zero _)

/-- A program has its ending when its main thread has finished, and not before. -/
theorem Possible.ended_iff (hm : Possible m) (hid : id < m.size) : (m.run id).program.isSome = true →
    ((m.run id).ending.isSome = true ↔ (m.thread id .main).control.hasFinished = true) := by
  refine hm.run_induction (P := fun id m => (m.run id).program.isSome = true →
    ((m.run id).ending.isSome = true ↔ (m.thread id .main).control.hasFinished = true)) hid ?_ ?_
  · intro n id hunbegun hthreads hprogram
    rw [hunbegun.unended hprogram, hthreads]
    exact ⟨nofun, nofun⟩
  · intro m n id hm hid hn ih hprogram
    rw [(hn.terms hm hid).program] at hprogram
    rcases hn.main_cases hm hid with hacts | ⟨hthread, hsame⟩
    · rcases Control.isSettling_cases (m.thread id .main).control with ⟨ending, hsettle⟩ | hgoes
      · obtain ⟨hfinished, hended, -⟩ := hacts.settles hm.sound hsettle
        rw [hfinished, hended]
        exact ⟨fun _ => rfl, fun _ => rfl⟩
      · have hgoing := hacts.going hm
        have hbefore : (m.run id).ending.isSome = false := by
          rw [Bool.eq_false_iff, ne_eq, ih hprogram, hgoing]
          nofun
        have hkept : (n.run id).ending = (m.run id).ending := by
          refine (hacts.ending hm hid).resolve_right ?_
          rintro ⟨-, ending, hsettle, -⟩
          rw [hsettle] at hgoes
          cases hgoes
        have hafter : (n.thread id .main).control.hasFinished = false := by
          rw [Bool.eq_false_iff, ne_eq, Control.hasFinished_iff]
          intro hfinished
          rcases hacts.settling hm hid hfinished with hsettles | hover
          · rw [hgoes] at hsettles
            cases hsettles
          · rw [hover] at hgoing
            cases hgoing
        rw [hkept, hbefore, hafter]
    · rw [hthread, hsame]
      exact ih hprogram

/-- Interleavings in which no script is started under a name that is in the table. -/
inductive Clear : Moment → Prop
  | fresh (host : Host) (config : Config) (holds : List Frame → Bool)
      (h : ∀ s ∈ host.bus.subscriptions, ∀ run body scope, s.listener ≠ .handler run body scope) :
      Clear (resting { desk := { host }, config, holds })
  | move {m n : Moment} (h : Clear m) (hn : Move m n)
      (hfree : ∀ id, m.size ≤ id → id < n.size → (n.run id).program.isSome = true →
        m.running.get? (n.run id).name = none) : Clear n

theorem Clear.possible (h : Clear m) : Possible m := by
  induction h with
  | fresh host config holds hbus => exact .fresh host config holds hbus
  | move _ hn _ ih => exact ih.move hn

/-- Every program that is present has the entry of its name. -/
theorem Clear.complete (h : Clear m) : ∀ id, (m.run id).program.isSome = true → Present id m →
    m.running.get? (m.run id).name = some id := by
  induction h with
  | fresh host config holds hbus =>
    intro id hprogram
    cases hprogram
  | @move m n h hn hfree ih =>
    intro id hprogram hpresent
    have hm := h.possible
    have hid : id < n.size := (hm.move hn).lt_size_of_program hprogram
    rcases Nat.lt_or_ge id m.size with hold | hnew
    · obtain ⟨hname, hsame, -, -⟩ := hn.terms hm hold
      rw [hsame] at hprogram
      obtain ⟨hbefore, hforgets⟩ := (hn.present_iff hm hold).1 hpresent
      have hentry := ih id hprogram hbefore
      rw [hname]
      cases hn.registers with
      | same hrunning => rw [hrunning, hentry]
      | entered hrunning hsize hadded =>
        have hnone := hfree m.size (Nat.le_refl _) (hsize ▸ Nat.lt_succ_self _) hadded
        have hne : (m.run id).name ≠ (n.run m.size).name := by
          intro hshared
          rw [hshared, hnone] at hentry
          cases hentry
        rw [hrunning, Dict.get?_insert_of_ne _ _ _ _ hne, hentry]
      | left other hleft =>
        have hleaving : 0 < m.leaving other := hleft.leaving ▸ Nat.succ_pos _
        have hother := ih other (hm.program_of_leaving hleaving) (.inr hleaving)
        have hne : (m.run id).name ≠ (m.run other).name := by
          intro hshared
          rw [← hshared, hentry] at hother
          obtain rfl := Option.some.inj hother
          exact hforgets hleft
        rw [hleft.table.1, Dict.get?_erase_of_ne _ hne, hentry]
    · cases hn.registers with
      | same hrunning hnone =>
        rw [hnone id hnew hid] at hprogram
        cases hprogram
      | entered hrunning hsize hadded =>
        have hlt : id < m.size + 1 := hsize ▸ hid
        obtain rfl : id = m.size := Nat.le_antisymm (Nat.le_of_lt_succ hlt) hnew
        rw [hrunning, Dict.get?_insert_self]
      | left other hleft => exact absurd (hleft.table.2 ▸ hid) (Nat.not_lt.2 hnew)

end Moment

def Run.stopped (r : Run) : Run := { r with governor := { r.governor with cancelled := true }, subscriptions := [] }

namespace World

variable {w : World} {id : RunId}

def unfinished (w : World) : List RunId :=
  (List.range w.runs.size).filter fun id => (w.run id).program.isSome && (w.run id).ending.isNone

theorem mem_unfinished : id ∈ w.unfinished ↔
    id < w.runs.size ∧ (w.run id).program.isSome = true ∧ (w.run id).ending = none := by
  rw [unfinished, List.mem_filter, List.mem_range, Bool.and_eq_true, Option.isNone_iff_eq_none]

/-- A run is stopped by its cancellation if it has not ended; the other runs go on. -/
theorem run_cancel_eq (w : World) (other : RunId) (hid : id < w.runs.size) :
    (w.cancel other).run id = if id = other ∧ id ∈ w.unfinished then (w.run id).stopped else w.run id := by
  by_cases hopen : ((w.run other).program.isNone || (w.run other).ending.isSome) = true
  · have hsame : w.cancel other = w := by
      unfold cancel
      exact if_pos hopen
    have hended : ¬(id = other ∧ id ∈ w.unfinished) := by
      rintro ⟨rfl, hmem⟩
      obtain ⟨-, hprogram, hending⟩ := mem_unfinished.1 hmem
      rw [hending, Option.isSome_none, Bool.or_false, Option.isNone_iff_eq_none] at hopen
      rw [hopen] at hprogram
      cases hprogram
    rw [hsame, if_neg hended]
  · rw [w.cancel_of_open hopen]
    by_cases hsame : id = other
    · subst hsame
      have hmem : id ∈ w.unfinished := by
        rw [mem_unfinished]
        refine ⟨hid, ?_, ?_⟩
        · cases hprogram : (w.run id).program with
          | none => simp [hprogram] at hopen
          | some program => rfl
        · cases hending : (w.run id).ending with
          | none => rfl
          | some ending => simp [hending] at hopen
      rw [if_pos ⟨rfl, hmem⟩]
      exact run_setRun_self { w with desk := _ } hid _
    · rw [if_neg fun h => hsame h.1]
      exact run_setRun_ne { w with desk := _ } hsame _

theorem unfinished_cancel (w : World) (other : RunId) : (w.cancel other).unfinished = w.unfinished := by
  rw [unfinished, unfinished, w.size_cancel other]
  apply List.filter_congr
  intro id hid
  rw [w.run_cancel_eq other (List.mem_range.1 hid)]
  split <;> rfl

theorem size_cancelAll (w : World) (ids : List RunId) : (ids.foldl cancel w).runs.size = w.runs.size := by
  induction ids generalizing w with
  | nil => rfl
  | cons other ids ih => rw [List.foldl_cons, ih, size_cancel]

theorem run_cancelAll (w : World) (ids : List RunId) (hid : id < w.runs.size) :
    (ids.foldl cancel w).run id = if id ∈ ids ∧ id ∈ w.unfinished then (w.run id).stopped else w.run id := by
  induction ids generalizing w with
  | nil => rw [if_neg (by simp)]; rfl
  | cons other ids ih =>
    have hsize : id < (w.cancel other).runs.size := by rwa [size_cancel]
    rw [List.foldl_cons, ih (w.cancel other) hsize, unfinished_cancel, w.run_cancel_eq other hid]
    by_cases hopen : id ∈ w.unfinished
    · by_cases hself : id = other
      · have hfirst : (if id = other ∧ id ∈ w.unfinished then (w.run id).stopped else w.run id) = (w.run id).stopped :=
          if_pos ⟨hself, hopen⟩
        have htwice : (w.run id).stopped.stopped = (w.run id).stopped := rfl
        rw [hfirst, htwice, ite_self, if_pos ⟨List.mem_cons.2 (.inl hself), hopen⟩]
      · simp only [List.mem_cons, hself, hopen, false_or, and_true, if_false]
    · simp only [hopen, and_false, if_false]

theorem cancelAll_moves (w : World) (ids : List RunId) :
    Moment.Moves (.resting w) (.resting (ids.foldl cancel w)) := by
  induction ids generalizing w with
  | nil => exact .refl _
  | cons other ids ih =>
    have hfirst : Moment.Moves (.resting w) (.resting (w.cancel other)) :=
      (Moment.Moves.refl _).move (.next (.driven (.cancel w other)))
    exact hfirst.trans (ih (w.cancel other))

end World

namespace Moment

variable {m n : Moment} {w : World} {id : RunId}

theorem present_iff_of_calm (hm : Possible (resting w)) (hcalm : ∀ id, .forget id ∉ w.desk.ready.toList)
    (hid : id < w.runs.size) (hprogram : (w.run id).program.isSome = true) :
    Present id (resting w) ↔ (w.run id).ending = none := by
  have hleaving : (resting w).leaving id = 0 := by
    change w.desk.ready.toList.countP (·.forgets id) = 0
    rw [List.countP_eq_zero]
    intro entry hentry hforgets
    cases entry with
    | forget other =>
      obtain rfl : other = id := of_decide_eq_true hforgets
      exact hcalm other hentry
    | _ => cases hforgets
  have hended := hm.ended_iff hid hprogram
  rw [Present, hleaving, ← Bool.not_eq_true, ← hended]
  change (¬(w.run id).ending.isSome = true ∨ 0 < 0) ↔ _
  simp

/-- While nobody is about to leave, the table lists programs that have not ended. -/
theorem Possible.listed_unfinished (hm : Possible (resting w)) (hcalm : ∀ id, .forget id ∉ w.desk.ready.toList)
    {entry : String × RunId} (hentry : entry ∈ w.running) : entry.2 ∈ w.unfinished ∧ (w.run entry.2).name = entry.1 := by
  obtain ⟨hid, hprogram, hname, hpresent⟩ := hm.listed.entries entry hentry
  rw [World.mem_unfinished]
  exact ⟨⟨hid, hprogram, (present_iff_of_calm hm hcalm hid hprogram).1 hpresent⟩, hname⟩

theorem Clear.moves (h : Clear m) (hn : Moves m n) (hsize : n.size = m.size) : Clear n := by
  induction hn with
  | refl => exact h
  | @move n o hmoves hn ih =>
    have hfirst := hmoves.size
    have hlast := hn.size
    apply (ih (by omega)).move hn
    intro id hold hnew
    omega

end Moment

/-- In every interleaving in which no script is started under a name that is in the table: while nobody is about to leave
it, the table of running scripts has one entry for each program that has been started and has not ended, under its name;
and stopping all stops these, and no other run. -/
theorem running_lists_unfinished {w : World} (hw : (Moment.resting w).Clear)
    (hcalm : ∀ id, .forget id ∉ w.desk.ready.toList) :
    w.running.Perm (w.unfinished.map fun id => ((w.run id).name, id)) ∧
    w.stopAll.1 = w.unfinished.length ∧
    (∀ id, id < w.runs.size →
      w.stopAll.2.run id = if id ∈ w.unfinished then (w.run id).stopped else w.run id) ∧
    ∀ id ∈ w.unfinished, ∀ side service releases, ((w.run id).thread side).control = .resume service releases →
      (w.stopAll.2.desk.service service).IsSpent := by
  have hm := hw.possible
  have hmem (entry : String × RunId) :
      entry ∈ w.running ↔ entry ∈ w.unfinished.map fun id => ((w.run id).name, id) := by
    rw [List.mem_map]
    constructor
    · intro hentry
      obtain ⟨hopen, hname⟩ := hm.listed_unfinished hcalm hentry
      exact ⟨entry.2, hopen, Prod.ext hname rfl⟩
    · rintro ⟨id, hopen, rfl⟩
      obtain ⟨hid, hprogram, hending⟩ := World.mem_unfinished.1 hopen
      have hpresent := (Moment.present_iff_of_calm hm hcalm hid hprogram).2 hending
      exact Dict.mem_of_get? (hw.complete id hprogram hpresent)
  have hperm : w.running.Perm (w.unfinished.map fun id => ((w.run id).name, id)) := by
    rw [List.perm_ext_iff_of_nodup]
    · exact hmem
    · exact List.Nodup.of_map _ hm.listed.nodup
    · apply List.Nodup.map
      · intro id other heq
        exact (Prod.mk.inj heq).2
      · exact List.nodup_range.filter _
  have hvalues (id : RunId) : id ∈ w.running.values ↔ id ∈ w.unfinished := by
    have hids := (hperm.map Prod.snd).mem_iff (a := id)
    rwa [List.map_map, List.map_id'' (by intro id; rfl)] at hids
  refine ⟨hperm, ?_, fun id hid => ?_, fun id hopen side service releases hwaits => ?_⟩
  · change w.running.length = _
    rw [hperm.length_eq, List.length_map]
  · change (w.running.values.foldl World.cancel w).run id = _
    rw [w.run_cancelAll _ hid]
    by_cases hopen : id ∈ w.unfinished
    · rw [if_pos ⟨(hvalues id).2 hopen, hopen⟩, if_pos hopen]
    · rw [if_neg fun h => hopen h.2, if_neg hopen]
  · have hid := (World.mem_unfinished.1 hopen).1
    have hstopped : w.stopAll.2.run id = (w.run id).stopped := by
      change (w.running.values.foldl World.cancel w).run id = _
      rw [w.run_cancelAll _ hid, if_pos ⟨(hvalues id).2 hopen, hopen⟩]
    have hafter : (Moment.resting w.stopAll.2).Possible := hm.moves (w.cancelAll_moves _)
    have hsize : id < w.stopAll.2.runs.size := by
      change id < (w.running.values.foldl World.cancel w).runs.size
      rwa [w.size_cancelAll]
    apply (hafter.heeding hsize).spent _ side service releases
    · change ((w.stopAll.2.run id).thread side).control = _
      rw [hstopped]
      cases side <;> exact hwaits
    · change (w.stopAll.2.run id).governor.isStopped = true
      rw [hstopped]
      rfl

namespace Namesake

def launch : Launch := { source := "close", name := some "job" }

def first : World := (({} : World).start launch).2

def worldOf : Moment → World
  | .resting w | .within w _ _ _ => w

def isResting : Moment → Bool
  | .resting _ => true
  | .within .. => false

theorem resting_of_isResting {m : Moment} (h : isResting m = true) : m = .resting (worldOf m) := by
  cases m with
  | resting w => rfl
  | within w id side s => cases h

def rested : World := worldOf ((Moment.resting first).after 25)

def again : World := (rested.start launch).2

def twice : World := (first.start launch).2

theorem no_farewell {ready : List Ready} (h : (ready.all fun entry => entry matches .thread ..) = true) (id : RunId) :
    .forget id ∉ ready := by
  intro hmem
  have hthread := List.all_eq_true.1 h _ hmem
  cases hthread

theorem first_clear : (Moment.resting first).Clear := by
  have hfresh : (Moment.resting {}).Clear := .fresh {} {} (fun _ => true) (by simp)
  exact hfresh.move (.next (.driven (.start _ _))) fun _ _ _ _ => rfl

theorem rested_running : rested.running = [] := by decide +kernel

theorem again_clear : (Moment.resting again).Clear := by
  have hrests : (Moment.resting first).after 25 = .resting rested := resting_of_isResting (by decide +kernel)
  have hclear := first_clear.moves (Moment.moves_after _ 25) (by decide +kernel)
  rw [hrests] at hclear
  apply hclear.move (.next (.driven (.start _ _)))
  intro id _ _ _
  change rested.running.get? _ = none
  rw [rested_running]
  rfl

theorem again_calm (id : RunId) : .forget id ∉ again.desk.ready.toList := no_farewell (by decide +kernel) id

theorem again_unfinished : again.unfinished = [1] := by decide +kernel

end Namesake

/-- When the first script of that name has left the table, the second is the one that the table has, and is stopped. -/
theorem running_lists_unfinished_again : (Moment.resting Namesake.again).Clear ∧
    (∀ id, .forget id ∉ Namesake.again.desk.ready.toList) ∧
    Namesake.again.running.Perm [((Namesake.again.run 1).name, 1)] ∧ Namesake.again.stopAll.1 = 1 ∧
    Namesake.again.stopAll.2.run 0 = Namesake.again.run 0 ∧
    (Namesake.again.stopAll.2.run 1).governor.cancelled = true := by
  obtain ⟨hperm, hnumber, hstopped, -⟩ := running_lists_unfinished Namesake.again_clear Namesake.again_calm
  rw [Namesake.again_unfinished] at hperm hnumber hstopped
  refine ⟨Namesake.again_clear, Namesake.again_calm, hperm, hnumber, ?_, ?_⟩
  · exact hstopped 0 (by decide +kernel)
  · rw [hstopped 1 (by decide +kernel)]
    rfl

/-- Two scripts that go on under one name: the table has one of them, and only that one is stopped. -/
theorem shared_name_is_lost : (Moment.resting Namesake.twice).Possible ∧
    (∀ id, .forget id ∉ Namesake.twice.desk.ready.toList) ∧
    Namesake.twice.unfinished = [0, 1] ∧ Namesake.twice.running = [("job", 1)] ∧ Namesake.twice.stopAll.1 = 1 ∧
    (Namesake.twice.stopAll.2.run 0).governor.cancelled = false := by
  refine ⟨?_, Namesake.no_farewell (by decide +kernel), ?_, ?_, ?_, ?_⟩
  · exact Namesake.first_clear.possible.move (.next (.driven (.start _ _)))
  all_goals decide +kernel

end DeskScript
