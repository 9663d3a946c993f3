import DeskScript.Proofs.Builtin.Calls
import DeskScript.Proofs.Value.Restoring

set_option autoImplicit false

/-!
# What built-in functions change

A function leaves every array and object as it was, six apart, which change the collection they are given first. A call
that fails leaves the heap itself as it was. Each family of functions is walked through once, with the places that it may
change as a parameter; the call is put together from the families. Main statement: `Builtin.collections_kept`.
-/

namespace DeskScript

namespace Heap

variable {h g g' : Heap} {touched : Ref → Prop}

def SameAt (h g : Heap) : Ref → Prop
  | .arr id => g.items id = h.items id
  | .obj id => g.fields id = h.fields id

/-- Every collection of the first heap is on the second, and only where `touched` says may it hold something else. -/
structure Touches (touched : Ref → Prop) (h g : Heap) : Prop where
  arrays : h.arrays.size ≤ g.arrays.size
  objects : h.objects.size ≤ g.objects.size
  same : ∀ c ∈ h.refs, ¬ touched c → h.SameAt g c

theorem arr_mem_refs {id : Nat} : .arr id ∈ h.refs ↔ id < h.arrays.size := by simp [refs]

theorem obj_mem_refs {id : Nat} : .obj id ∈ h.refs ↔ id < h.objects.size := by simp [refs]

theorem Extends.touches (hextends : h.Extends g) : Touches touched h g where
  arrays := hextends.arrays
  objects := hextends.objects
  same c hc _ := by
    cases c with
    | arr id => exact hextends.items id (arr_mem_refs.1 hc)
    | obj id => exact hextends.fields id (obj_mem_refs.1 hc)

theorem Touches.extends (htouches : Touches touched h g) (hnone : ∀ c, ¬ touched c) : h.Extends g where
  arrays := htouches.arrays
  objects := htouches.objects
  items id hid := htouches.same (.arr id) (arr_mem_refs.2 hid) (hnone _)
  fields id hid := htouches.same (.obj id) (obj_mem_refs.2 hid) (hnone _)

@[grind ←]
theorem touches_refl (h : Heap) : h.Touches touched h := (Extends.refl h).touches

@[grind ←]
theorem touches_modifyItems {id : Nat} (f : Array Value → Array Value) (htouched : touched (.arr id)) :
    Touches touched h (h.modifyItems id f) where
  arrays := by simp [modifyItems]
  objects := Nat.le_refl _
  same c _ hc := by
    cases c with
    | arr other =>
      have hother : other ≠ id := fun heq => hc (heq ▸ htouched)
      simp [SameAt, items, modifyItems, Array.getD_eq_getD_getElem?, Array.getElem?_modify, hother.symm]
    | obj other => rfl

@[grind ←]
theorem touches_modifyFields {id : Nat} (f : Dict Value → Dict Value) (htouched : touched (.obj id)) :
    Touches touched h (h.modifyFields id f) where
  arrays := Nat.le_refl _
  objects := by simp [modifyFields]
  same c _ hc := by
    cases c with
    | arr other => rfl
    | obj other =>
      have hother : other ≠ id := fun heq => hc (heq ▸ htouched)
      simp [SameAt, fields, modifyFields, Array.getD_eq_getD_getElem?, Array.getElem?_modify, hother.symm]

mutual

theorem ofPlain_extends {h g : Heap} {v : Value} : (p : Plain) → h.ofPlain p = .ok (v, g) → h.Extends g
  | .null, heq | .bool _, heq | .float _, heq | .str _, heq => by cases heq; exact .refl h
  | .int i, heq => by
    rw [ofPlain] at heq
    split at heq
    · cases heq; exact .refl h
    · cases heq
  | .list items, heq => by
    rw [ofPlain] at heq
    split at heq
    · rename_i values g' hitems
      cases heq
      exact (ofPlainItems_extends items hitems).trans (extends_newArray g' values)
    · cases heq
  | .dict entries, heq => by
    rw [ofPlain] at heq
    split at heq
    · rename_i fields g' hentries
      cases heq
      exact (ofPlainEntries_extends entries hentries).trans (extends_newObject g' fields)
    · cases heq

theorem ofPlainItems_extends {h g : Heap} {done values : Array Value} :
    (items : List Plain) → h.ofPlainItems done items = .ok (values, g) → h.Extends g
  | [], heq => by cases heq; exact .refl h
  | p :: rest, heq => by
    rw [ofPlainItems] at heq
    split at heq
    · rename_i v g' hp
      exact (ofPlain_extends p hp).trans (ofPlainItems_extends rest heq)
    · cases heq

theorem ofPlainEntries_extends {h g : Heap} {done fields : Dict Value} :
    (entries : List (String × Plain)) → h.ofPlainEntries done entries = .ok (fields, g) → h.Extends g
  | [], heq => by cases heq; exact .refl h
  | (k, p) :: rest, heq => by
    rw [ofPlainEntries] at heq
    split at heq
    · rename_i v g' hp
      exact (ofPlain_extends p hp).trans (ofPlainEntries_extends rest heq)
    · cases heq

end

end Heap

namespace Outcome

variable {touched : Ref → Prop} {h g : Heap} {α : Type}

/-- What a function comes to leaves every collection as it was, except where `touched` says. -/
def Keeps (touched : Ref → Prop) (h : Heap) (o : Outcome) : Prop :=
  ∀ a g, o = .ok (a, g) → h.Touches touched g

@[grind ←]
theorem keeps_error (e : Failure) : Keeps touched h (.error e) := nofun

@[grind ←]
theorem keeps_give (v : Value) (hg : h.Touches touched g) : Keeps touched h (Outcome.give g v) := by
  intro a g' heq
  cases heq
  exact hg

@[grind ←]
theorem keeps_argument (i : Nat) (hg : h.Touches touched g) : Keeps touched h (Outcome.argument g i) := by
  intro a g' heq
  cases heq
  exact hg

@[grind ←]
theorem keeps_number (x : Float) : Keeps touched h (Outcome.number h x) := keeps_give _ (Heap.touches_refl h)

@[grind ←]
theorem keeps_text (s : String) : Keeps touched h (Outcome.text h s) := keeps_give _ (Heap.touches_refl h)

@[grind ←]
theorem keeps_chars (cs : List Char) : Keeps touched h (Outcome.chars h cs) := keeps_give _ (Heap.touches_refl h)

@[grind ←]
theorem keeps_bool (b : Bool) : Keeps touched h (Outcome.bool h b) := keeps_give _ (Heap.touches_refl h)

@[grind ←]
theorem keeps_array (items : Array Value) : Keeps touched h (Outcome.array h items) :=
  keeps_give _ (Heap.extends_newArray h items).touches

@[grind ←]
theorem keeps_object (fields : Dict Value) : Keeps touched h (Outcome.object h fields) :=
  keeps_give _ (Heap.extends_newObject h fields).touches

@[grind ←]
theorem keeps_bind {x : Except Failure α} {k : α → Outcome} (hk : ∀ a, Keeps touched h (k a)) :
    Keeps touched h (x >>= k) := by
  cases x with
  | error e => exact keeps_error e
  | ok a => exact hk a

end Outcome

open Outcome

variable {h : Heap} {args : List Value} {touched : Ref → Prop}

namespace Builtin

def changes : Builtin → Bool
  | array .push | array .pop | array .shift | array .unshift | object .set | object .remove => true
  | _ => false

def Touched (f : Builtin) (args : List Value) (c : Ref) : Prop := f.changes = true ∧ args.head? = some c.value

end Builtin

theorem NumericFn.toInteger_keeps (x : Float) (i : Float → Int) : Keeps touched h (NumericFn.toInteger h x i) := by
  unfold NumericFn.toInteger
  split
  · cases NumericFn.ofInt (i x) with
    | error e => exact keeps_error e
    | ok y => exact keeps_number y
  · exact keeps_argument 0 (Heap.touches_refl h)

theorem NumericFn.apply_keeps (f : NumericFn) : Keeps touched h (f.apply h args) := by
  unfold NumericFn.apply
  split
  all_goals grind [NumericFn.toInteger_keeps]

theorem TextFn.apply_keeps (f : TextFn) : Keeps touched h (f.apply h args) := by
  unfold TextFn.apply TextFn.padded
  split
  all_goals grind

theorem SequenceFn.apply_keeps (f : SequenceFn) : Keeps touched h (f.apply h args) := by
  unfold SequenceFn.apply
  split
  all_goals grind

theorem ArrayFn.apply_keeps (f : ArrayFn) : Keeps (Builtin.Touched (.array f) args) h (f.apply h args) := by
  unfold ArrayFn.apply
  split
  all_goals grind [Builtin.Touched, Builtin.changes, Ref.value]

theorem ObjectFn.apply_keeps (f : ObjectFn) : Keeps (Builtin.Touched (.object f) args) h (f.apply h args) := by
  unfold ObjectFn.apply
  split
  all_goals grind [Builtin.Touched, Builtin.changes, Ref.value]

theorem ConversionFn.orFallback_keeps (rest : List Value) (cause : Cause) :
    Keeps touched h (ConversionFn.orFallback h rest cause) := by
  unfold ConversionFn.orFallback
  split
  · exact keeps_error _
  · exact keeps_argument 1 (Heap.touches_refl h)

theorem ConversionFn.apply_keeps (f : ConversionFn) : Keeps touched h (f.apply h args) := by
  unfold ConversionFn.apply
  split
  all_goals grind [ConversionFn.orFallback_keeps, Heap.ofPlain_extends, Heap.Extends.touches]

namespace Reached

/-- The heap keeps what it had, except where `touched` says, and all of it unless there is an answer. -/
structure Frames (touched : Ref → Prop) (h : Heap) (r : Reached) : Prop where
  heap : h.Touches touched r.heap
  unanswered : (∀ a, r.result ≠ .ok (.answer a)) → r.heap = h

variable {host : Host}

@[grind ←]
theorem frames_unmoved (result : Except Failure Reply) : Frames touched h ⟨result, h, host⟩ :=
  ⟨Heap.touches_refl h, fun _ => rfl⟩

@[grind ←]
theorem frames_plainly (v : Except Failure Value) : Frames touched h (DeskFn.plainly h host v) := frames_unmoved _

@[grind ←]
theorem frames_writing (path : String) (v : Value) (a : Answer) : Frames touched h (DeskFn.writing h host path v a) :=
  frames_unmoved _

@[grind ←]
theorem frames_reading (p : Except Failure Plain) : Frames touched h (DeskFn.reading h host p) := by
  unfold DeskFn.reading
  split
  · exact frames_unmoved _
  · split
    · rename_i hplain
      exact ⟨(Heap.ofPlain_extends _ hplain).touches, fun hnone => absurd rfl (hnone _)⟩
    · exact frames_unmoved _

theorem frames_reached {o : Outcome} (ho : Keeps touched h o) : Frames touched h (Builtin.reached h host o) := by
  cases o with
  | error e => exact frames_unmoved _
  | ok r => exact ⟨ho r.1 r.2 rfl, fun hnone => absurd rfl (hnone r.1)⟩

end Reached

open Reached

theorem DeskFn.apply_frames (f : DeskFn) (host : Host) : Frames touched h (f.apply h host args) := by
  unfold DeskFn.apply
  split
  all_goals grind

theorem Request.finish_extends {r : Request} {reply : Except Fault Plain} {v : Value} {g : Heap}
    (hfinish : r.finish h reply = .ok (v, g)) : h.Extends g := by
  unfold Request.finish at hfinish
  split at hfinish
  · cases hfinish
  · split at hfinish
    · rename_i hplain
      cases hfinish
      exact Heap.ofPlain_extends _ hplain
    · cases hfinish

namespace Builtin

variable {host : Host} {name : String}

theorem apply_frames (f : Builtin) : Frames (f.Touched args) h (f.apply h host args) := by
  cases f with
  | numeric f => exact frames_reached f.apply_keeps
  | text f => exact frames_reached f.apply_keeps
  | sequence f => exact frames_reached f.apply_keeps
  | array f => exact frames_reached f.apply_keeps
  | object f => exact frames_reached f.apply_keeps
  | conversion f => exact frames_reached f.apply_keeps
  | desk f => exact f.apply_frames host

def changing : List String := ["push", "pop", "shift", "unshift", "set", "remove"]

theorem changes_iff : ∀ e ∈ all, e.2.changes = true ↔ e.1 ∈ changing := by decide +kernel

theorem mem_of_find? {f : Builtin} (hfind : find? name = some f) : (name, f) ∈ all := by
  obtain ⟨before, later, hall, -⟩ := List.lookup_eq_some_iff.1 hfind
  rw [hall]
  exact List.mem_append_right _ List.mem_cons_self

theorem call_frames (name : String) (h : Heap) (host : Host) (args : List Value) :
    Frames (fun c => name ∈ changing ∧ args.head? = some c.value) h (call name h host args) := by
  unfold call
  cases hfind : find? name with
  | none => exact frames_unmoved _
  | some f =>
    have hnamed : f.changes = true ↔ name ∈ changing := changes_iff _ (mem_of_find? hfind)
    dsimp only
    split
    · exact frames_unmoved _
    · have htouched : f.Touched args = fun c => name ∈ changing ∧ args.head? = some c.value := by
        funext c
        rw [Touched, hnamed]
      have hframes : Frames (f.Touched args) h (f.apply h host args) := f.apply_frames
      rw [htouched] at hframes
      refine ⟨hframes.heap, fun hnone => hframes.unanswered fun a ha => hnone a ?_⟩
      rw [ha]
      rfl

theorem callAndWait_frames (name : String) (h : Heap) (host : Host) (args : List Value) :
    h.Touches (fun c => name ∈ changing ∧ args.head? = some c.value) (callAndWait name h host args).2.1 ∧
      ∀ e, (callAndWait name h host args).1 = .error e → (callAndWait name h host args).2.1 = h := by
  have hframes := call_frames name h host args
  unfold callAndWait
  dsimp only
  split
  · rename_i hresult
    have hheap := hframes.unanswered fun a ha => nomatch hresult.symm.trans ha
    exact ⟨hframes.heap, fun _ _ => hheap⟩
  · refine ⟨hframes.heap, fun e he => ?_⟩
    cases he
  · rename_i request hresult
    -- A request leaves the heap alone until its answer becomes a value.
    have hheap := hframes.unanswered fun a ha => nomatch hresult.symm.trans ha
    rw [hheap]
    split
    · exact ⟨Heap.touches_refl h, fun _ _ => rfl⟩
    · rename_i hfinish
      refine ⟨(Request.finish_extends hfinish).touches, fun e he => ?_⟩
      cases he

def oneEach : Heap := { arrays := #[#[.obj 0]], objects := #[[("a", .arr 0)]] }

def Edits (name : String) : Prop :=
  ∃ (h : Heap) (host : Host) (args : List Value), ¬ h.Extends (call name h host args).heap

theorem edits_of_items (args : List Value) (hsize : ((call name oneEach {} args).heap.items 0).size ≠ 1) :
    Edits name :=
  ⟨oneEach, {}, args, fun hextends => hsize (congrArg Array.size (hextends.items 0 (by decide)))⟩

theorem edits_of_fields (args : List Value) (hlength : ((call name oneEach {} args).heap.fields 0).length ≠ 1) :
    Edits name :=
  ⟨oneEach, {}, args, fun hextends => hlength (congrArg List.length (hextends.fields 0 (by decide)))⟩

theorem edits_of_changing (hname : name ∈ changing) : Edits name := by
  simp only [changing, List.mem_cons, List.not_mem_nil, or_false] at hname
  rcases hname with rfl | rfl | rfl | rfl | rfl | rfl
  · exact edits_of_items [.arr 0, .null] (by decide +kernel)
  · exact edits_of_items [.arr 0] (by decide +kernel)
  · exact edits_of_items [.arr 0] (by decide +kernel)
  · exact edits_of_items [.arr 0, .null] (by decide +kernel)
  · exact edits_of_fields [.obj 0, .str "b", .null] (by decide +kernel)
  · exact edits_of_fields [.obj 0, .str "a"] (by decide +kernel)

/-- **What calls change.** Six functions change what a collection holds, and no other does. They change at most the
collection they are given first, and a call that fails changes nothing, at once or when its request is answered. -/
theorem collections_kept (name : String) (h : Heap) (host : Host) (args : List Value) :
    (name ∉ changing →
      h.Extends (call name h host args).heap ∧ h.Extends (callAndWait name h host args).2.1) ∧
    (∀ c ∈ h.refs, args.head? ≠ some c.value →
      h.SameAt (call name h host args).heap c ∧ h.SameAt (callAndWait name h host args).2.1 c) ∧
    (∀ e, (call name h host args).result = .error e → (call name h host args).heap = h) ∧
    (∀ e, (callAndWait name h host args).1 = .error e → (callAndWait name h host args).2.1 = h) ∧
    (name ∈ changing → Edits name) := by
  have hcall := call_frames name h host args
  obtain ⟨hwaited, hfailed⟩ := callAndWait_frames name h host args
  refine ⟨?_, ?_, ?_, hfailed, edits_of_changing⟩
  · intro hname
    exact ⟨hcall.heap.extends fun c hc => hname hc.1, hwaited.extends fun c hc => hname hc.1⟩
  · intro c hc hfirst
    exact ⟨hcall.heap.same c hc fun htouched => hfirst htouched.2, hwaited.same c hc fun htouched => hfirst htouched.2⟩
  · intro e he
    exact hcall.unanswered fun a ha => nomatch he.symm.trans ha

theorem collections_kept_oneEach : "reverse" ∉ changing ∧ oneEach.Extends (call "reverse" oneEach {} [.arr 0]).heap ∧
    oneEach.SameAt (call "push" oneEach {} [.arr 0, .null]).heap (.obj 0) ∧
    (call "push" oneEach {} [.obj 0, .null]).heap = oneEach := by
  have hfails : (call "push" oneEach {} [.obj 0, .null]).result.isOk = false := by decide +kernel
  refine ⟨by decide, ?_, ?_, ?_⟩
  · exact ((collections_kept "reverse" oneEach {} [.arr 0]).1 (by decide)).1
  · exact ((collections_kept "push" oneEach {} [.arr 0, .null]).2.1 (.obj 0) (by decide) nofun).1
  · cases hresult : (call "push" oneEach {} [.obj 0, .null]).result with
    | error e => exact (collections_kept "push" oneEach {} [.obj 0, .null]).2.2.1 e hresult
    | ok reply =>
      rw [hresult] at hfails
      cases hfails

end Builtin

end DeskScript
