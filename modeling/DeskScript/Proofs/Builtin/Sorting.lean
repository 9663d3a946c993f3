import DeskScript.Proofs.Builtin.Calls
import DeskScript.Proofs.Number.Standing
import DeskScript.Proofs.Value.Lasting
import Mathlib.Data.String.Basic
import Mathlib.Data.Sum.Order

set_option autoImplicit false

/-!
# Sorting

Numbers go before all other values, and these go by the texts that they are shown as. Without NaN that is a linear order of
the keys, so that the sort is stable, and the descending sort is, too, as it is the ascending sort between two reversals.
Main statement: `Builtin.sorts_stably`.
-/

namespace DeskScript

section Stable

variable {α β : Type} {R S : α → α → Prop} {items result : List α}

/-- The elements of a list in the order `R`. Those that `R` does not tell apart stand as they do in the list. Each element
is paired with its place there. -/
def StablySorted (R : α → α → Prop) (items result : List α) : Prop :=
  ∃ placed : List (α × Nat), placed.Perm items.zipIdx ∧ result = placed.map (·.1) ∧
    placed.Pairwise fun a b => R a.1 b.1 ∨ ¬R b.1 a.1 ∧ a.2 < b.2

theorem StablySorted.perm (hsorted : StablySorted R items result) : result.Perm items := by
  obtain ⟨placed, hperm, rfl, -⟩ := hsorted
  have hitems := hperm.map (·.1)
  rwa [List.zipIdx_map_fst] at hitems

theorem StablySorted.congr (hsorted : StablySorted R items result) (hiff : ∀ a ∈ items, ∀ b ∈ items, (R a b ↔ S a b)) :
    StablySorted S items result := by
  obtain ⟨placed, hperm, hresult, hpairs⟩ := hsorted
  refine ⟨placed, hperm, hresult, hpairs.imp_of_mem fun {a b} ha hb hab => ?_⟩
  have ha := List.fst_mem_of_mem_zipIdx (hperm.mem_iff.1 ha)
  have hb := List.fst_mem_of_mem_zipIdx (hperm.mem_iff.1 hb)
  rwa [← hiff a.1 ha b.1 hb, ← hiff b.1 hb a.1 ha]

theorem StablySorted.pairwise (hsorted : StablySorted R items result)
    (hasymm : ∀ a ∈ items, ∀ b ∈ items, R a b → ¬R b a) : result.Pairwise fun a b => ¬R b a := by
  obtain ⟨placed, hperm, rfl, hpairs⟩ := hsorted
  refine List.pairwise_map.2 (hpairs.imp_of_mem fun {a b} ha hb hab => ?_)
  have ha := List.fst_mem_of_mem_zipIdx (hperm.mem_iff.1 ha)
  have hb := List.fst_mem_of_mem_zipIdx (hperm.mem_iff.1 hb)
  exact hab.elim (hasymm a.1 ha b.1 hb) fun htied => htied.1

/-- The places of a list that is turned round, counted from the other end. -/
theorem zipIdx_reverse (items : List α) :
    items.reverse.zipIdx.map (fun e => (e.1, items.length - 1 - e.2)) = items.zipIdx.reverse := by
  refine List.ext_getElem (by simp) fun i hi hi' => ?_
  have hlength : i < items.length := by simpa using hi'
  simp only [List.getElem_map, List.getElem_zipIdx, List.getElem_reverse, List.length_zipIdx, Nat.zero_add]

/-- What is sorted from the other end and turned round is sorted in the opposite order. -/
theorem StablySorted.reverse (hsorted : StablySorted R items.reverse result) :
    StablySorted (fun a b => R b a) items result.reverse := by
  obtain ⟨placed, hperm, rfl, hpairs⟩ := hsorted
  refine ⟨(placed.map fun e => (e.1, items.length - 1 - e.2)).reverse, ?_, ?_, ?_⟩
  · have hplaces := hperm.map fun e => (e.1, items.length - 1 - e.2)
    rw [zipIdx_reverse] at hplaces
    exact (List.reverse_perm _).trans (hplaces.trans (List.reverse_perm _))
  · rw [List.map_reverse, List.map_map]
    rfl
  · rw [List.pairwise_reverse, List.pairwise_map]
    refine hpairs.imp_of_mem fun {a b} _ hb hab => hab.imp_right fun ⟨htied, hplaces⟩ => ⟨htied, ?_⟩
    have hlast := List.snd_lt_of_mem_zipIdx (hperm.mem_iff.1 hb)
    rw [List.length_reverse] at hlast
    dsimp only
    omega

theorem places_increase (items : List α) : items.zipIdx.Pairwise fun a b => a.2 < b.2 := by
  rw [← List.pairwise_map (f := Prod.snd), List.zipIdx_map_snd]
  exact List.pairwise_lt_range'

theorem stablySorted_mergeSort [LinearOrder β] (rank : α → β) (items : List α) :
    StablySorted (fun a b => rank a < rank b) items (items.mergeSort fun a b => decide (rank a ≤ rank b)) := by
  refine ⟨items.zipIdx.mergeSort (List.zipIdxLE _), List.mergeSort_perm _ _, List.mergeSort_zipIdx.symm, ?_⟩
  have htrans (a b c : α) (hab : decide (rank a ≤ rank b) = true) (hbc : decide (rank b ≤ rank c) = true) :
      decide (rank a ≤ rank c) = true :=
    decide_eq_true ((of_decide_eq_true hab).trans (of_decide_eq_true hbc))
  have htotal (a b : α) : (decide (rank a ≤ rank b) || decide (rank b ≤ rank a)) = true := by
    simpa using le_total (rank a) (rank b)
  have hordered := List.pairwise_mergeSort (List.zipIdxLE_trans htrans) (List.zipIdxLE_total htotal) items.zipIdx
  have hplaces : items.zipIdx.Pairwise fun a b => a.2 ≠ b.2 := (places_increase items).imp fun hlt => Nat.ne_of_lt hlt
  have hdistinct := hplaces.perm (List.mergeSort_perm items.zipIdx
    (List.zipIdxLE fun a b => decide (rank a ≤ rank b))).symm fun hne => hne.symm
  refine (hordered.and hdistinct).imp fun {a b} ⟨hab, hne⟩ => ?_
  unfold List.zipIdxLE at hab
  rcases lt_trichotomy (rank a.1) (rank b.1) with hlt | heq | hgt
  · exact .inl hlt
  · simp only [heq, le_refl, decide_true, if_true, decide_eq_true_eq] at hab
    exact .inr ⟨(not_lt_of_ge heq.le), by omega⟩
  · simp [not_le_of_gt hgt] at hab

end Stable

namespace SortKey

def rank : SortKey → Int ⊕ₗ String
  | number x => Sum.inlₗ (Number.standing x)
  | text s => Sum.inrₗ s

theorem before_iff {k k' : SortKey} (hk : k.isNaN = false) (hk' : k'.isNaN = false) :
    k.before k' = true ↔ k.rank < k'.rank := by
  cases k with
  | number x =>
    cases k' with
    | number y => exact decide_eq_true_iff.trans ((Number.lt_iff_standing hk hk').trans Sum.Lex.inl_lt_inl_iff.symm)
    | text t => exact iff_of_true rfl (Sum.Lex.inl_lt_inr _ _)
  | text s =>
    cases k' with
    | number y => exact iff_of_false Bool.false_ne_true Sum.Lex.not_inr_lt_inl
    | text t => exact decide_eq_true_iff.trans Sum.Lex.inr_lt_inr_iff.symm

end SortKey

namespace Heap

variable {h g : Heap} {v w : Value} {items result : List Value}

/-- The order that values are sorted in: numbers go first, and the others by the texts that they are shown as. -/
inductive Precedes (h : Heap) : Value → Value → Prop where
  | numbers {x y : Float} (hxy : x < y) : Precedes h (.num x) (.num y)
  | kinds {x : Float} {v : Value} (hv : v.kind ≠ .number) : Precedes h (.num x) v
  | texts {v w : Value} (hv : v.kind ≠ .number) (hw : w.kind ≠ .number) (hvw : h.display v < h.display w) :
      Precedes h v w

def IsOrdered (v : Value) : Prop := ∀ x, v = .num x → x.isNaN = false

theorem key_cases (h : Heap) (v : Value) :
    (∃ x, v = .num x ∧ SortKey.of h v = .number x) ∨ v.kind ≠ .number ∧ SortKey.of h v = .text (h.display v) := by
  cases v with
  | num x => exact .inl ⟨x, rfl, rfl⟩
  | null | bool _ | str _ | arr _ | obj _ => exact .inr ⟨nofun, rfl⟩

theorem IsOrdered.key (hv : IsOrdered v) (h : Heap) : (SortKey.of h v).isNaN = false := by
  obtain ⟨x, rfl, hkey⟩ | ⟨-, hkey⟩ := h.key_cases v
  · exact hv x rfl
  · rw [hkey]
    rfl

def rank (h : Heap) (v : Value) : Int ⊕ₗ String := (SortKey.of h v).rank

theorem precedes_iff (hv : IsOrdered v) (hw : IsOrdered w) : h.Precedes v w ↔ h.rank v < h.rank w := by
  rw [rank, rank, ← SortKey.before_iff (hv.key h) (hw.key h)]
  obtain ⟨x, rfl, hx⟩ | ⟨hkind, hs⟩ := h.key_cases v
  · obtain ⟨y, rfl, hy⟩ | ⟨hkind, ht⟩ := h.key_cases w
    · refine ⟨fun hprecedes => ?_, fun hxy => .numbers (of_decide_eq_true hxy)⟩
      cases hprecedes with
      | numbers hxy => exact decide_eq_true hxy
      | kinds hkind => exact absurd rfl hkind
      | texts hkind => exact absurd rfl hkind
    · rw [ht]
      exact iff_of_true (.kinds hkind) rfl
  · obtain ⟨y, rfl, hy⟩ | ⟨hkind', ht⟩ := h.key_cases w
    · rw [hs]
      refine iff_of_false (fun hprecedes => ?_) Bool.false_ne_true
      cases hprecedes with
      | numbers => exact absurd rfl hkind
      | kinds hkind => exact absurd rfl hkind
      | texts _ hkind => exact absurd rfl hkind
    · rw [hs, ht]
      refine ⟨fun hprecedes => ?_, fun hst => .texts hkind hkind' (of_decide_eq_true hst)⟩
      cases hprecedes with
      | numbers => exact absurd rfl hkind
      | kinds => exact absurd rfl hkind
      | texts _ _ hst => exact decide_eq_true hst

theorem sorted_eq (hitems : ∀ v ∈ items, IsOrdered v) :
    sorted h items = items.mergeSort fun v w => decide (h.rank v ≤ h.rank w) := by
  have hkeys : (items.map fun v => (SortKey.of h v, v)).any (·.1.isNaN) = false := by
    rw [List.any_map, List.any_eq_false]
    exact fun v hv => Bool.eq_false_iff.1 ((hitems v hv).key h)
  have hmerge : (items.mergeSort fun v w => decide (h.rank v ≤ h.rank w)).map (fun v => (SortKey.of h v, v)) =
      (items.map fun v => (SortKey.of h v, v)).mergeSort fun a b => !b.1.before a.1 := by
    refine List.map_mergeSort fun v hv w hw => ?_
    rw [Bool.eq_iff_iff, decide_eq_true_iff, Bool.not_eq_true', ← Bool.not_eq_true,
      SortKey.before_iff ((hitems w hw).key h) ((hitems v hv).key h)]
    exact not_lt.symm
  unfold sorted
  dsimp only
  rw [hkeys, if_neg Bool.false_ne_true, ← hmerge, List.map_map]
  exact List.map_id _

theorem stablySorted_sorted (hitems : ∀ v ∈ items, IsOrdered v) : StablySorted h.Precedes items (sorted h items) := by
  rw [sorted_eq hitems]
  exact (stablySorted_mergeSort h.rank items).congr fun v hv w hw => (precedes_iff (hitems v hv) (hitems w hw)).symm

theorem sorted_sorted (hitems : ∀ v ∈ items, IsOrdered v) : sorted h (sorted h items) = sorted h items := by
  have hperm := (stablySorted_sorted (h := h) hitems).perm
  rw [sorted_eq fun v hv => hitems v (hperm.mem_iff.1 hv), sorted_eq hitems]
  refine List.mergeSort_of_pairwise (List.pairwise_mergeSort ?_ ?_ items)
  · intro u v w huv hvw
    exact decide_eq_true ((of_decide_eq_true huv).trans (of_decide_eq_true hvw))
  · intro v w
    simpa using le_total _ _

theorem sorted_extends (hextends : h.Extends g) (hlive : ∀ v ∈ items, h.Live v) : sorted g items = sorted h items := by
  have hkeys : (items.map fun v => (SortKey.of g v, v)) = items.map fun v => (SortKey.of h v, v) := by
    refine List.map_congr_left fun v hv => ?_
    have htext := (hlive v hv).display_eq hextends
    cases v with
    | num x => rfl
    | null | bool _ | str _ | arr _ | obj _ => exact congrArg (fun s => (SortKey.text s, _)) htext
  rw [sorted, hkeys, sorted]

def NumbersFirst (h : Heap) (items : List Value) : Prop :=
  ∃ (xs : List Float) (others : List Value), items = xs.map .num ++ others ∧ xs.Pairwise (· ≤ ·) ∧
    (∀ v ∈ others, v.kind ≠ .number) ∧ others.Pairwise fun v w => h.display v ≤ h.display w

theorem numbersFirst_of_pairwise (hitems : ∀ v ∈ items, IsOrdered v) (hpairs : items.Pairwise fun v w => ¬h.Precedes w v) :
    h.NumbersFirst items := by
  induction items with
  | nil => exact ⟨[], [], rfl, .nil, nofun, .nil⟩
  -- A number in front joins the numbers of the rest. Behind any other value there is no number at all.
  | cons v items ih =>
    obtain ⟨hv, hrest⟩ := List.forall_mem_cons.1 hitems
    obtain ⟨hfirst, hpairs'⟩ := List.pairwise_cons.1 hpairs
    by_cases hkind : v.kind = .number
    · obtain ⟨xs, others, rfl, hxs, hothers⟩ := ih hrest hpairs'
      cases v with
      | num x =>
        refine ⟨x :: xs, others, rfl, List.pairwise_cons.2 ⟨fun y hy => ?_, hxs⟩, hothers⟩
        have hy : Value.num y ∈ xs.map Value.num ++ others := List.mem_append_left _ (List.mem_map_of_mem hy)
        rw [Number.le_iff_standing (hv x rfl) (hrest _ hy y rfl), ← not_lt,
          ← Number.lt_iff_standing (hrest _ hy y rfl) (hv x rfl)]
        exact fun hlt => hfirst _ hy (.numbers hlt)
      | null | bool _ | str _ | arr _ | obj _ => cases hkind
    · have hkinds : ∀ w ∈ v :: items, w.kind ≠ .number := by
        refine List.forall_mem_cons.2 ⟨hkind, fun w hw hnumber => ?_⟩
        obtain ⟨x, rfl, -⟩ | ⟨hother, -⟩ := h.key_cases w
        · exact hfirst _ hw (.kinds hkind)
        · exact hother hnumber
      refine ⟨[], v :: items, rfl, .nil, hkinds, hpairs.imp_of_mem fun {a b} ha hb hab => ?_⟩
      exact not_lt.1 fun hlt => hab (.texts (hkinds b hb) (hkinds a ha) hlt)

theorem numbersFirst_of_sorted (hitems : ∀ v ∈ items, IsOrdered v) (hsorted : StablySorted h.Precedes items result) :
    h.NumbersFirst result := by
  refine numbersFirst_of_pairwise (fun v hv => hitems v (hsorted.perm.mem_iff.1 hv)) (hsorted.pairwise ?_)
  intro v hv w hw hvw hwv
  rw [precedes_iff (hitems v hv) (hitems w hw)] at hvw
  rw [precedes_iff (hitems w hw) (hitems v hv)] at hwv
  exact lt_asymm hvw hwv

end Heap

open Heap

namespace Builtin

variable {h : Heap} {host : Host} {id : Nat} {items : List Value}

theorem call_sort : call "sort" h host [.arr id] = .makes h host (sorted h (h.items id).toList) :=
  call_gives (find?_array (f := .sort) (by decide)) rfl rfl

theorem call_sortDesc :
    call "sortDesc" h host [.arr id] = .makes h host (sorted h (h.items id).toList.reverse).reverse := by
  refine call_gives (find?_array (f := .sortDesc) (by decide)) rfl ?_
  rfl

theorem call_reverse : call "reverse" h host [.arr id] = .makes h host (h.items id).toList.reverse := by
  refine call_gives (find?_sequence (f := .reverse) (by decide)) rfl ?_
  change reached h host (.array h (h.items id).reverse) = _
  rw [← Array.toList_reverse]
  rfl

theorem call_sort_plus (hitems : ∀ v ∈ items, h.Live v) :
    call "sort" (h.plus items) host [.arr h.arrays.size] = .makes (h.plus items) host (sorted h items) := by
  rw [call_sort, items_plus, sorted_extends (extends_plus h items) hitems]

theorem call_sortDesc_plus (hitems : ∀ v ∈ items, h.Live v) :
    call "sortDesc" (h.plus items) host [.arr h.arrays.size] =
      .makes (h.plus items) host (sorted h items.reverse).reverse := by
  have hreversed : ∀ v ∈ items.reverse, h.Live v := fun v hv => hitems v (List.mem_reverse.1 hv)
  rw [call_sortDesc, items_plus, sorted_extends (extends_plus h items) hreversed]

/-- **Sorting.** An array without NaN is sorted into a new array with the same elements: the numbers in ascending order and
after them the other values in the order of their texts, and what this order does not tell apart stands as before. In the
descending order, too, it stands as before: it is what comes of turning the array round, sorting it and turning it round
again. Either sort leaves its own result as it is. -/
theorem sorts_stably (h : Heap) (host : Host) (id : Nat) (hlive : h.Live (.arr id))
    (hnan : ∀ x, Value.num x ∈ h.items id → x.isNaN = false) :
    let items := (h.items id).toList
    let turned := h.plus items.reverse
    ∃ up down back,
      call "sort" h host [.arr id] = .makes h host up ∧ StablySorted h.Precedes items up ∧ h.NumbersFirst up ∧
      call "sortDesc" h host [.arr id] = .makes h host down ∧ StablySorted (fun v w => h.Precedes w v) items down ∧
      (call "reverse" h host [.arr id] = .makes h host items.reverse ∧
        call "sort" turned host [.arr h.arrays.size] = .makes turned host back ∧
        call "reverse" (turned.plus back) host [.arr turned.arrays.size] = .makes (turned.plus back) host down) ∧
      call "sort" (h.plus up) host [.arr h.arrays.size] = .makes (h.plus up) host up ∧
      call "sortDesc" (h.plus down) host [.arr h.arrays.size] = .makes (h.plus down) host down := by
  intro items turned
  have hordered : ∀ v ∈ items, IsOrdered v := by
    rintro _ hv x rfl
    exact hnan x (Array.mem_toList_iff.1 hv)
  have hordered' : ∀ v ∈ items.reverse, IsOrdered v := fun v hv => hordered v (List.mem_reverse.1 hv)
  have hitems : ∀ v ∈ items, h.Live v := fun v hv => hlive.part hv
  have hup := stablySorted_sorted (h := h) hordered
  have hback := stablySorted_sorted (h := h) hordered'
  have hlive' : ∀ v ∈ sorted h items, h.Live v := fun v hv => hitems v (hup.perm.mem_iff.1 hv)
  have hlive'' : ∀ v ∈ (sorted h items.reverse).reverse, h.Live v := fun v hv =>
    hitems v (List.mem_reverse.1 (hback.perm.mem_iff.1 (List.mem_reverse.1 hv)))
  refine ⟨sorted h items, (sorted h items.reverse).reverse, sorted h items.reverse, call_sort, hup,
    numbersFirst_of_sorted hordered hup, call_sortDesc, hback.reverse, ⟨call_reverse, ?_, ?_⟩, ?_, ?_⟩
  · exact call_sort_plus fun v hv => hitems v (List.mem_reverse.1 hv)
  · rw [call_reverse, items_plus]
  · rw [call_sort_plus hlive', sorted_sorted hordered]
  · rw [call_sortDesc_plus hlive'', List.reverse_reverse, sorted_sorted hordered']

def tiedHeap : Heap where
  arrays := #[#[.str "null", .num 0, .arr 0, .null, .num (-0)]]

theorem live_tiedHeap : tiedHeap.Live (.arr 0) := by
  have hself : (.arr 0 : Ref) ∈ tiedHeap.refs := by decide
  refine live_of_closed (fun r hr c hc => ?_) ?_
  · obtain rfl : r = .arr 0 := List.mem_singleton.1 hr
    change c.value ∈ [Value.str "null", .num 0, .arr 0, .null, .num (-0)] at hc
    cases c <;> simp [Ref.value] at hc
    rw [hc]
    exact hself
  · rintro r hr
    cases r <;> cases hr
    exact hself

theorem sorts_stably_tied : tiedHeap.Live (.arr 0) ∧ (∀ x, Value.num x ∈ tiedHeap.items 0 → x.isNaN = false) ∧
    ∃ up down, call "sort" tiedHeap {} [.arr 0] = .makes tiedHeap {} up ∧
      StablySorted tiedHeap.Precedes [.str "null", .num 0, .arr 0, .null, .num (-0)] up ∧
      call "sortDesc" tiedHeap {} [.arr 0] = .makes tiedHeap {} down ∧
      StablySorted (fun v w => tiedHeap.Precedes w v) [.str "null", .num 0, .arr 0, .null, .num (-0)] down := by
  have hnan : ∀ x, Value.num x ∈ tiedHeap.items 0 → x.isNaN = false := by
    intro x hx
    have hx : Value.num x ∈ [Value.str "null", .num 0, .arr 0, .null, .num (-0)] := Array.mem_toList_iff.2 hx
    simp only [List.mem_cons, reduceCtorEq, Value.num.injEq, List.not_mem_nil, false_or, or_false] at hx
    rcases hx with rfl | rfl <;> decide +kernel
  obtain ⟨up, down, -, hup, hascending, -, hdown, hdescending, -⟩ := sorts_stably tiedHeap {} 0 live_tiedHeap hnan
  exact ⟨live_tiedHeap, hnan, up, down, hup, hascending, hdown, hdescending⟩

end Builtin

end DeskScript
