import DeskScript.Proofs.Machine.Delivery
import DeskScript.Proofs.Machine.Dormant

set_option autoImplicit false

/-!
# How a run is reported

The start of a script is announced, and so is its end, once, in the name of the script: `runs_report_once`. The one ending
that is not reported is a fault: it leaves the run without a result, see `faulty_run_is_not_reported`.
-/

namespace DeskScript

def Event.headline (e : Event) : String × Option Plain :=
  match e.payload with
  | .dict entries => (e.name, Dict.get? entries "scriptId")
  | _ => (e.name, none)

def Ending.verdict? : Ending → Option String
  | .completed _ => some "script:complete"
  | .failed _ | .cancelled _ => some "script:error"
  | .broken _ => none

theorem Run.headline_report (r : Run) (ending : Ending) : (r.report? ending).toList.map Event.headline =
    ending.verdict?.toList.map fun verdict => (verdict, some (.str r.name)) := by
  cases ending <;> rfl

def Control.isSettling : Control → Bool
  | .settle _ => true
  | _ => false

namespace Moment

variable {m n : Moment} {id : RunId} {events : List Event}

def reported (id : RunId) (m n : Moment) : List Event :=
  if (m.thread id .main).control.isSettling && !(n.thread id .main).control.isSettling then published m n else []

inductive Reports (id : RunId) (m : Moment) : List Event → Moment → Prop
  | refl : Reports id m [] m
  | move {n o : Moment} {events : List Event} (h : Reports id m events n) (hn : Move n o) :
      Reports id m (events ++ reported id n o) o

theorem Reports.moves (h : Reports id m events n) : Moves m n := by
  induction h with
  | refl => exact .refl m
  | move _ hn ih => exact ih.move hn

theorem reported_of_same (h : (n.thread id .main).control.isSettling = (m.thread id .main).control.isSettling) :
    reported id m n = [] := by
  rw [reported, h, Bool.and_not_self]
  rfl

theorem reported_of_not (h : (m.thread id .main).control.isSettling = false) : reported id m n = [] := by
  rw [reported, h]
  rfl

/-- What has been reported of the run of a program: nothing while it goes on, and then its ending. -/
inductive Reported (id : RunId) (events : List Event) (m : Moment) : Prop
  | running (hthread : (m.thread id .main).control ≠ .finished) (hending : (m.run id).ending = none) (hevents : events = [])
  | ended (ending : Ending) (hthread : (m.thread id .main).control = .finished)
      (hending : (m.run id).ending = some ending)
      (hevents : events.map Event.headline =
        ending.verdict?.toList.map fun verdict => (verdict, some (.str (m.run id).name)))

theorem Acts.settles (hacts : Acts id .main m n) (hm : m.Sound) {ending : Ending}
    (hsettle : (m.thread id .main).control = .settle ending) : (n.thread id .main).control = .finished ∧
      (n.run id).ending = some ending ∧ published m n = ((m.run id).report? ending).toList := by
  obtain ⟨ready, hat, -⟩ := hacts.main_step hm
  have ht : m.thread id .main = ⟨.settle ending, (m.thread id .main).stack⟩ := by rw [← hsettle]
  rw [ht] at hat
  have hsame : (n.thread id .main).control = .finished ∧ (n.run id).ending = some ending := by
    rw [hat.thread, hat.run]
    exact ⟨rfl, rfl⟩
  refine ⟨hsame.1, hsame.2, published_of_append ?_⟩
  rw [hat.desk]
  simp only [Run.step, Run.settle]
  cases (m.run id).report? ending with
  | none => exact (List.append_nil _).symm
  | some event => rw [Desk.publish_published, Array.toList_push]; rfl

/-- Only a thread that has settled how its run ended finishes. -/
theorem Acts.settling (hacts : Acts id .main m n) (hm : Possible m) (hid : id < m.size)
    (hfinished : (n.thread id .main).control = .finished) :
    (m.thread id .main).control.isSettling = true ∨ (m.thread id .main).control = .finished := by
  have hover : (n.thread id .main).control.isOver = true := by
    rw [hfinished]
    rfl
  rcases hacts.over_cases hm hid hover with hbefore | ⟨ready, ending, -, hat, -⟩
  · generalize (m.thread id .main).control = control at hbefore
    cases control with
    | settle => exact .inl rfl
    | finished => exact .inr rfl
    | _ => cases hbefore
  · rw [hat.thread] at hfinished
    cases hfinished

theorem Reported.move (h : Reported id events m) (hm : Possible m) (hid : id < m.size) (hn : Move m n) :
    Reported id (events ++ reported id m n) n := by
  have hname := (hn.terms hm hid).name
  cases h with
  | running hthread hending hevents =>
    subst hevents
    rcases hn.main_cases hm hid with hacts | ⟨hsame, hkept⟩
    · cases hsettling : (m.thread id .main).control.isSettling with
      | true =>
        obtain ⟨ending, hsettle⟩ : ∃ ending, (m.thread id .main).control = .settle ending := by
          generalize (m.thread id .main).control = control at hsettling
          cases control with
          | settle ending => exact ⟨ending, rfl⟩
          | _ => cases hsettling
        obtain ⟨hfinished, hended, hpublished⟩ := hacts.settles hm.sound hsettle
        refine .ended ending hfinished hended ?_
        rw [List.nil_append, reported, hsettling, hfinished, hname]
        exact (congrArg (List.map Event.headline) hpublished).trans ((m.run id).headline_report ending)
      | false =>
        refine .running (fun hfinished => ?_) ?_ (reported_of_not hsettling)
        · rcases hacts.settling hm hid hfinished with hsettles | hfinished
          · cases hsettling.symm.trans hsettles
          · exact hthread hfinished
        · refine ((hacts.ending hm hid).resolve_right ?_).trans hending
          rintro ⟨-, ending, hsettle, -⟩
          rw [hsettle] at hsettling
          cases hsettling
    · refine .running ?_ (hkept.trans hending) (reported_of_same (by rw [hsame]))
      rw [hsame]
      exact hthread
  | ended ending hthread hending hevents =>
    have hnone : reported id m n = [] := reported_of_not (by rw [hthread]; rfl)
    obtain ⟨hthread', hkept⟩ :
        (n.thread id .main).control = .finished ∧ (n.run id).ending = (m.run id).ending := by
      rcases hn.main_cases hm hid with hacts | ⟨hsame, hkept⟩
      · obtain ⟨ready, hat, -⟩ := hacts.main_step hm.sound
        have ht : m.thread id .main = ⟨.finished, (m.thread id .main).stack⟩ := by rw [← hthread]
        rw [hat.thread, hat.run, ht]
        exact ⟨rfl, rfl⟩
      · rw [hsame]
        exact ⟨hthread, hkept⟩
    refine .ended ending hthread' (hkept.trans hending) ?_
    rw [hnone, List.append_nil, hname]
    exact hevents

theorem Reports.reported (h : Reports id m events n) (hm : Possible m) (hid : id < m.size) (hstart : Reported id [] m) :
    Reported id events n := by
  induction h with
  | refl => exact hstart
  | move h hn ih => exact ih.move (hm.moves h.moves) (Nat.lt_of_lt_of_le hid h.moves.size) hn

/-- Of a run that never begins nothing is reported by its main thread. -/
theorem Reports.dormant (h : Reports id m events n) (hm : Possible m) (hid : id < m.size) {ending : Ending}
    (hstart : Dormant id ending m) : events = [] := by
  induction h with
  | refl => rfl
  | move h hn ih =>
    have hdormant := hstart.moves hm hid h.moves
    rw [ih, reported_of_not (by rw [hdormant.threads]; rfl)]
    rfl

end Moment

namespace World

variable {w w' : World} {id : RunId}

inductive Started (w : World) (id : RunId) (w' : World) : Prop
  | begun (r : Run) (hr : r.Unbegun) (hprogram : r.program.isSome = true) (hruns : w'.runs = w.runs.push r)
      (execute : Event) (hexecute : execute.headline = ("script:execute", some (.str r.name)))
      (hpublished : w'.desk.host.published.toList = w.desk.host.published.toList ++ [execute])
  | refused (r : Run) (hr : r.Unbegun) (hruns : w'.runs = w.runs.push r) (e : ScriptError)
      (hending : r.ending = some (.failed e)) (hignores : w'.desk.Ignores id)
      (execute report : Event) (hexecute : execute.headline = ("script:execute", some (.str r.name)))
      (hreport : report.headline = ("script:error", some (.str r.name)))
      (hpublished : w'.desk.host.published.toList = w.desk.host.published.toList ++ [execute, report])

/-- Nothing at a desk in order is about a run that has just been added. -/
theorem Orderly.ignores_new (hw : w.Orderly) (r : Run) : (w.addRun r).desk.Ignores w.runs.size := by
  have hignores : w.desk.Ignores w.runs.size := by
    refine ⟨fun entry hentry => ?_, fun service hsize => Nat.ne_of_lt (hw.desk.owners service hsize), ?_⟩
    · have hknows := hw.desk.ready entry hentry
      cases entry with
      | thread run | gathered run => exact decide_eq_false (Nat.ne_of_lt hknows)
      | service | forget | controller => rfl
    · rw [Moment.box_absent hw.desk (Nat.le_refl _)]
  exact addRun_ignores hignores r

theorem publish_published (w : World) (event : Event) :
    (w.publish event).desk.host.published.toList = w.desk.host.published.toList ++ [event] := by
  rw [World.publish, Desk.publish_published, Array.toList_push]

theorem start_started (hw : w.Orderly) (l : Launch) (h : (w.start l).1 = .ok id) :
    id = w.runs.size ∧ w.Started id (w.start l).2 := by
  obtain ⟨hruns, hdesk⟩ := w.nameFor_same l.name
  have hnamed : (w.nameFor l.name).2.Orderly := hw.withDesk hruns (hdesk ▸ hw.desk) (hdesk ▸ .refl _)
  simp only [World.start] at h ⊢
  generalize w.nameFor l.name = named at h hruns hdesk hnamed ⊢
  have honce (execute : Event) :
      (named.2.publish execute).desk.host.published.toList = w.desk.host.published.toList ++ [execute] := by
    rw [publish_published, hdesk]
  have htwice (execute report : Event) : ((named.2.publish execute).publish report).desk.host.published.toList =
      w.desk.host.published.toList ++ [execute, report] := by
    rw [publish_published, honce, List.append_assoc]
    rfl
  cases hparse : parse l.source l.file with
  | error e =>
    simp only [hparse] at h ⊢
    cases h
    refine ⟨congrArg Array.size hruns, ?_⟩
    exact .refused _ ⟨rfl, rfl, rfl, rfl, by simp, by simp, rfl, rfl⟩ (congrArg (Array.push · _) hruns) e rfl
      (Orderly.ignores_new ((hnamed.publish _).publish _) _) _ _ rfl rfl (htwice _ _)
  | ok program =>
    simp only [hparse] at h ⊢
    split at h
    · cases h
    · rename_i r hdeclared
      cases h
      have hquiet := declareAll_quiet hdeclared
      refine ⟨congrArg Array.size hruns, ?_⟩
      refine .begun r (declareAll_unbegun hdeclared ⟨rfl, rfl, rfl, rfl, by simp, by simp, rfl, rfl⟩) ?_ ?_ _ ?_ (honce _)
      · rw [hquiet.program]
        rfl
      · exact congrArg (Array.push · r) hruns
      · rw [hquiet.name]
        rfl

end World

/-- In every interleaving from the start of a script on: what the engine says of it is that it is executed, and when its run
has ended, one event more, that it is complete or that there is an error, both in the name of the run. Only of a run that
a fault has ended it says no more. -/
theorem runs_report_once {w : World} (hw : (Moment.resting w).Possible) (l : Launch) {id : RunId}
    (hstart : (w.start l).1 = .ok id) {events : List Event} {n : Moment}
    (h : Moment.Reports id (.resting (w.start l).2) events n) :
    (Moment.published (.resting w) (.resting (w.start l).2) ++ events).map Event.headline =
      ("script:execute" :: ((n.run id).ending.bind Ending.verdict?).toList).map
        fun name => (name, some (.str (n.run id).name)) := by
  have hm : Moment.Possible (.resting (w.start l).2) := hw.move (.next (.driven (.start w l)))
  obtain ⟨rfl, hstarted⟩ := World.start_started ⟨hw.orderly.desk, hw.orderly.idlers⟩ l hstart
  have hadded {r : Run} (hruns : (w.start l).2.runs = w.runs.push r) :
      (w.start l).2.run w.runs.size = r ∧ w.runs.size < (w.start l).2.runs.size := by
    rw [World.run, hruns, Array.getD_eq_getD_getElem?, Array.getElem?_push, if_pos rfl, Array.size_push]
    exact ⟨rfl, Nat.lt_succ_self _⟩
  cases hstarted with
  | begun r hr hprogram hruns execute hexecute hpublished =>
    obtain ⟨hrun, hid⟩ := hadded hruns
    have hname : (n.run w.runs.size).name = r.name := by
      rw [(h.moves.terms hm hid).name]
      exact congrArg Run.name hrun
    have hstarts : Moment.Reported w.runs.size [] (.resting (w.start l).2) := by
      refine .running ?_ ?_ rfl
      · change ((w.start l).2.run w.runs.size).main.control ≠ .finished
        rw [hrun, hr.main]
        rintro ⟨⟩
      · change ((w.start l).2.run w.runs.size).ending = none
        rw [hrun]
        exact hr.unended hprogram
    have hsaid : Moment.published (.resting w) (.resting (w.start l).2) = [execute] := Moment.published_of_append hpublished
    rw [hsaid, List.map_append, hname]
    cases h.reported hm hid hstarts with
    | running hthread hending hevents =>
      rw [hevents, hending]
      exact congrArg ([·]) hexecute
    | ended ending hthread hending hevents =>
      rw [hevents, hending, hname]
      exact congrArg (· :: _) hexecute
  | refused r hr hruns e hending hignores execute report hexecute hreport hpublished =>
    obtain ⟨hrun, hid⟩ := hadded hruns
    have hname : (n.run w.runs.size).name = r.name := by
      rw [(h.moves.terms hm hid).name]
      exact congrArg Run.name hrun
    have hdormant : Moment.Dormant w.runs.size (.failed e) (.resting (w.start l).2) := by
      refine ⟨hignores, by rintro ⟨⟩, fun side => ?_, (congrArg Run.ending hrun).trans hending⟩
      change ((w.start l).2.run w.runs.size).thread side = {}
      rw [hrun]
      cases side with
      | main => exact hr.main
      | worker => exact hr.worker
    have hsaid : Moment.published (.resting w) (.resting (w.start l).2) = [execute, report] :=
      Moment.published_of_append hpublished
    rw [hsaid, h.dormant hm hid hdormant, (hdormant.moves hm hid h.moves).ending, hname]
    simp only [List.append_nil, List.map_cons, List.map_nil, hexecute, hreport]
    rfl

namespace Moment

/-- A world left to itself, and what it reports of a run. -/
theorem reports_after (m : Moment) (id : RunId) (k : Nat) :
    Reports id m ((List.range k).flatMap fun j => reported id (m.after j) (m.after (j + 1))) (m.after k) := by
  induction k with
  | zero => exact .refl
  | succ k ih =>
    rw [List.range_succ, List.flatMap_append, List.flatMap_singleton]
    exact ih.move (.next (follow_next _))

end Moment

namespace Closing

def launch : Launch := { source := "close" }

theorem of_toOption {result : Except Fault RunId} {id : RunId} (h : result.toOption = some id) : result = .ok id := by
  cases result with
  | ok other => exact congrArg Except.ok (Option.some.inj h)
  | error f => cases h

def started : Moment := .resting (({} : World).start launch).2

theorem start_ok : (({} : World).start launch).1 = .ok 0 := of_toOption (by decide +kernel)

def events : List Event := (List.range 23).flatMap fun j => Moment.reported 0 (started.after j) (started.after (j + 1))

theorem ended_verdict : ((started.after 23).run 0).ending.bind Ending.verdict? = some "script:complete" := by decide +kernel

theorem ended_name : ((started.after 23).run 0).name = "script_1" := by decide +kernel

end Closing

/-- This script is complete when it has found that there is no window, and that is reported. -/
theorem runs_report_once_closing : (Moment.resting {}).Possible ∧ (({} : World).start Closing.launch).1 = .ok 0 ∧
    Moment.Reports 0 Closing.started Closing.events (Closing.started.after 23) ∧
    (Moment.published (.resting {}) Closing.started ++ Closing.events).map Event.headline =
      [("script:execute", some (.str "script_1")), ("script:complete", some (.str "script_1"))] := by
  have hfresh : (Moment.resting {}).Possible := .fresh {} {} (fun _ => true) (by simp)
  have hreports := Closing.started.reports_after 0 23
  refine ⟨hfresh, Closing.start_ok, hreports, ?_⟩
  have honce := @runs_report_once {} hfresh Closing.launch 0 Closing.start_ok Closing.events (Closing.started.after 23) hreports
  rw [Closing.ended_verdict, Closing.ended_name] at honce
  exact honce

namespace Closing

def host : Host := { state := ⟨[("windows", .dict [("a", .int 1)])]⟩ }

def world : World := { desk := { host } }

def faulted : Moment := .resting (world.start launch).2

def faultedEvents : List Event :=
  (List.range 14).flatMap fun j => Moment.reported 0 (faulted.after j) (faulted.after (j + 1))

end Closing

/-- The same script, where it comes upon windows that it cannot read: its run has ended, and that is not reported. -/
theorem faulty_run_is_not_reported : (Moment.resting Closing.world).Possible ∧
    (Closing.world.start Closing.launch).1 = .ok 0 ∧
    Moment.Reports 0 Closing.faulted Closing.faultedEvents (Closing.faulted.after 14) ∧
    ((Closing.faulted.after 14).run 0).ending.isSome = true ∧
    (Moment.published (.resting Closing.world) Closing.faulted ++ Closing.faultedEvents).map (·.name) = ["script:execute"] :=
  ⟨.fresh Closing.host {} (fun _ => true) (by simp [Closing.host]), Closing.of_toOption (by decide +kernel),
    Closing.faulted.reports_after 0 14, by decide +kernel, by decide +kernel⟩

end DeskScript
