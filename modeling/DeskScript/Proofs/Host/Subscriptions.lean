import DeskScript.Host.Bus
import Mathlib.Data.List.Induction
import Mathlib.Data.List.Nodup
import Mathlib.Data.List.Range

set_option autoImplicit false

/-!
# Histories of the event bus

What is subscribed after any calls is told by their history: every subscription that no later call withdraws, in order of
registration. An event reaches those of them whose pattern matches, whether or not the listeners before them failed.
Main statement: `Bus.announces_live`.
-/

namespace DeskScript

namespace Bus

variable {σ ε : Type}

/-- The pattern `*` alone is the wildcard behind an empty stem. -/
theorem matches_iff (pattern name : String) :
    matches_ pattern name = true ↔
      pattern = "*" ∨ pattern = name ∨ ∃ stem rest : String, pattern = stem ++ "*" ∧ name = stem ++ rest := by
  unfold matches_
  rw [Bool.or_eq_true, beq_iff_eq]
  constructor
  · rintro (hname | hwild)
    · exact .inr (.inl hname)
    · split at hwild
      · rename_i stem hpattern
        obtain ⟨rest, hname⟩ := List.isPrefixOf_iff_prefix.1 hwild
        rw [List.reverse_eq_cons_iff] at hpattern
        refine .inr (.inr ⟨.ofList stem.reverse, .ofList rest, ?_, ?_⟩)
        · rw [← String.toList_inj, String.toList_append, String.toList_ofList, hpattern]
          rfl
        · rw [← String.toList_inj, String.toList_append, String.toList_ofList, String.toList_ofList, hname]
      · cases hwild
  · rintro (rfl | hname | ⟨stem, rest, rfl, rfl⟩)
    · exact .inr rfl
    · exact .inl hname
    · right
      rw [String.toList_append, List.reverse_append]
      change (stem.toList.reverse.reverse.isPrefixOf (stem ++ rest).toList) = true
      rw [List.reverse_reverse, String.toList_append, List.isPrefixOf_iff_prefix]
      exact List.prefix_append _ _

inductive Call (σ : Type) where
  | subscribe (pattern : String) (listener : σ)
  | unsubscribe (token : Nat)
  | publish (event : Event)

def Call.withdraws (token : Nat) : Call σ → Bool
  | unsubscribe t => t == token
  | _ => false

/-- What is subscribed and not withdrawn later, in order of registration, when the next number is `next`. -/
def live (next : Nat) : List (Call σ) → List (Subscription σ)
  | [] => []
  | .subscribe pattern listener :: later =>
    if later.any (·.withdraws next) then live (next + 1) later
    else ⟨next, pattern, listener⟩ :: live (next + 1) later
  | .unsubscribe _ :: later => live next later
  | .publish _ :: later => live next later

def registrations (cs : List (Call σ)) : Nat :=
  cs.countP fun
    | .subscribe .. => true
    | _ => false

def published (cs : List (Call σ)) : List Event :=
  cs.filterMap fun
    | .publish event => some event
    | _ => none

/-- A bus, the tokens it has given and the calls that its listeners have recorded. -/
structure Served (σ : Type) where
  bus : Bus σ
  tokens : List Nat := []
  record : List (σ × Event) := []

def recording (fails : σ → Event → Option ε) (listener : σ) (event : Event) : EStateM ε (List (σ × Event)) Unit := do
  modify (· ++ [(listener, event)])
  match fails listener event with
  | some e => throw e
  | none => pure ()

def Served.serve (fails : σ → Event → Option ε) (s : Served σ) : Call σ → Served σ
  | .subscribe pattern listener =>
    let (token, bus) := s.bus.subscribe pattern listener
    { s with bus, tokens := s.tokens ++ [token] }
  | .unsubscribe token => { s with bus := s.bus.unsubscribe token }
  | .publish event =>
    let (record, bus) := s.bus.announce (recording fails) event s.record
    { s with bus, record }

def serve (size : Nat) (fails : σ → Event → Option ε) (cs : List (Call σ)) : Served σ :=
  cs.foldl (Served.serve fails) { bus := { historySize := size } }

theorem serve_concat (size : Nat) (fails : σ → Event → Option ε) (cs : List (Call σ)) (c : Call σ) :
    serve size fails (cs ++ [c]) = (serve size fails cs).serve fails c := by
  rw [serve, serve, List.foldl_append]
  rfl

theorem filter_withdrawn (subscriptions : List (Subscription σ)) (token : Nat) (later : List (Call σ)) :
    (subscriptions.filter (·.token != token)).filter (fun s => !later.any (·.withdraws s.token)) =
      subscriptions.filter fun s => !(Call.unsubscribe token :: later).any (·.withdraws s.token) := by
  rw [List.filter_filter]
  apply List.filter_congr
  intro s _
  rw [List.any_cons, Call.withdraws, Bool.not_or, Bool.and_comm, bne_comm]
  rfl

/-- The subscriptions there at first are kept until they are withdrawn, and new ones come behind them. -/
theorem foldl_subscriptions (fails : σ → Event → Option ε) (cs : List (Call σ)) (s : Served σ) :
    (cs.foldl (Served.serve fails) s).bus.subscriptions =
      s.bus.subscriptions.filter (fun r => !cs.any (·.withdraws r.token)) ++ live s.bus.nextToken cs := by
  induction cs generalizing s with
  | nil => simp [live]
  | cons c cs ih =>
    rw [List.foldl_cons, ih]
    cases c with
    | subscribe pattern listener =>
      simp only [Served.serve, subscribe, List.filter_append, List.append_assoc]
      congr 1
      rw [live, List.filter_singleton]
      cases cs.any (·.withdraws s.bus.nextToken) with
      | true => rfl
      | false => rfl
    | unsubscribe token =>
      rw [Served.serve, unsubscribe, filter_withdrawn]
      rfl
    | publish event => rfl

theorem serve_subscriptions (size : Nat) (fails : σ → Event → Option ε) (cs : List (Call σ)) :
    (serve size fails cs).bus.subscriptions = live 1 cs := foldl_subscriptions fails cs _

theorem registrations_concat (cs : List (Call σ)) (c : Call σ) :
    registrations (cs ++ [c]) = registrations cs + registrations [c] := List.countP_append

theorem serve_tokens (size : Nat) (fails : σ → Event → Option ε) (cs : List (Call σ)) :
    (serve size fails cs).tokens = List.range' 1 (registrations cs) ∧
      (serve size fails cs).bus.nextToken = 1 + registrations cs := by
  induction cs using List.reverseRecOn with
  | nil => exact ⟨rfl, rfl⟩
  | append_singleton cs c ih =>
    obtain ⟨htokens, hnext⟩ := ih
    rw [serve_concat, registrations_concat]
    cases c with
    | subscribe pattern listener =>
      simp only [Served.serve, subscribe, htokens, hnext]
      exact ⟨List.range'_1_concat.symm, rfl⟩
    | unsubscribe token => exact ⟨htokens, hnext⟩
    | publish event => exact ⟨htokens, hnext⟩

theorem published_concat (cs : List (Call σ)) (c : Call σ) :
    published (cs ++ [c]) = published cs ++ published [c] := List.filterMap_append

/-- Of the events the newest are kept, as many as the history holds. -/
theorem serve_recent (size : Nat) (fails : σ → Event → Option ε) (cs : List (Call σ)) :
    (serve size fails cs).bus.recent = (published cs).reverse.take size ∧
      (serve size fails cs).bus.historySize = size := by
  induction cs using List.reverseRecOn with
  | nil => exact ⟨by simp [serve, published], rfl⟩
  | append_singleton cs c ih =>
    obtain ⟨hrecent, hsize⟩ := ih
    rw [serve_concat, published_concat]
    cases c with
    | subscribe pattern listener => simpa [Served.serve, subscribe, published] using ⟨hrecent, hsize⟩
    | unsubscribe token => simpa [Served.serve, unsubscribe, published] using ⟨hrecent, hsize⟩
    | publish event =>
      refine ⟨?_, hsize⟩
      change (event :: (serve size fails cs).bus.recent).take (serve size fails cs).bus.historySize = _
      rw [hrecent, hsize, List.reverse_append]
      change _ = (event :: (published cs).reverse).take size
      cases size with
      | zero => rfl
      | succ n =>
        rw [List.take_succ_cons, List.take_succ_cons, List.take_take, Nat.min_eq_left (Nat.le_succ n)]

theorem recording_run (fails : σ → Event → Option ε) (listener : σ) (event : Event) (record : List (σ × Event)) :
    recording fails listener event record = match fails listener event with
      | none => .ok () (record ++ [(listener, event)])
      | some e => .error e (record ++ [(listener, event)]) := by
  unfold recording
  cases fails listener event with
  | none => rfl
  | some e => rfl

/-- Every listener is called once, whether or not those before it fail. -/
theorem callEach_recording (fails : σ → Event → Option ε) (event : Event) (listeners : List σ)
    (record : List (σ × Event)) :
    callEach (recording fails · event) listeners record = record ++ listeners.map (·, event) := by
  induction listeners generalizing record with
  | nil => simp [callEach]
  | cons listener rest ih =>
    rw [callEach, recording_run]
    cases fails listener event with
    | none => simp [ih]
    | some e => simp [ih]

def called (subscriptions : List (Subscription σ)) : Call σ → List (σ × Event)
  | .publish event => (subscriptions.filter fun s => matches_ s.pattern event.name).map (·.listener, event)
  | _ => []

theorem serve_record (fails : σ → Event → Option ε) (s : Served σ) (c : Call σ) :
    (s.serve fails c).record = s.record ++ called s.bus.subscriptions c := by
  cases c with
  | subscribe pattern listener => simp [Served.serve, called]
  | unsubscribe token => simp [Served.serve, called]
  | publish event =>
    change callEach (recording fails · event) (s.bus.audience event.name) s.record = _
    rw [callEach_recording, audience, List.map_map]
    rfl

/-- **Deliveries.** After any calls of a new bus, with listeners that may fail: the tokens given were 1, 2, 3 and so on; the
next event is handed to every subscription that is not withdrawn and whose pattern matches, once each and in order of
registration, and no other call hands out anything; the subscriptions counted are those; and the history holds the last
events published. -/
theorem announces_live (size : Nat) (fails : σ → Event → Option ε) (cs : List (Call σ)) :
    (serve size fails cs).tokens = List.range' 1 (registrations cs) ∧ (serve size fails cs).tokens.Nodup ∧
    (∀ c, (serve size fails (cs ++ [c])).record = (serve size fails cs).record ++ called (live 1 cs) c) ∧
    (∀ pattern name, matches_ pattern name = true ↔
      pattern = "*" ∨ pattern = name ∨ ∃ stem rest : String, pattern = stem ++ "*" ∧ name = stem ++ rest) ∧
    (∀ pattern, (serve size fails cs).bus.count pattern =
      ((live 1 cs).filter fun s => pattern.all (s.pattern == ·)).length) ∧
    (serve size fails cs).bus.history = (published cs).drop ((published cs).length - size) := by
  have htokens := (serve_tokens size fails cs).1
  refine ⟨htokens, ?_, ?_, matches_iff, ?_, ?_⟩
  · rw [htokens]
    exact List.nodup_range'
  · intro c
    rw [serve_concat, serve_record, serve_subscriptions]
  · intro pattern
    unfold count
    rw [serve_subscriptions]
    cases pattern with
    | none => simp
    | some p => simp
  · rw [history, (serve_recent size fails cs).1, List.reverse_take, List.reverse_reverse, List.length_reverse]

end Bus

end DeskScript
