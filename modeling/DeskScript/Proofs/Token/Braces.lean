import DeskScript.Token.Basic
import Mathlib.Data.List.Infix
import Mathlib.Algebra.BigOperators.Group.List.Basic
import Mathlib.Algebra.Ring.Int.Defs

set_option autoImplicit false

/-!
# Braces in a list of tokens

Three grades of order: no closing brace without an opening one before it (`Safe`), besides as many of the one as of the
other (`Even`), and besides line ends only between braces (`Sealed`). Each holds of a list made of two lists of which
it holds.
-/

namespace DeskScript

namespace Token

def brace (t : Token) : Int :=
  match t.content with
  | .symbol .leftBrace => 1
  | .symbol .rightBrace => -1
  | _ => 0

def braces (ts : List Token) : Int := (ts.map brace).sum

@[simp] theorem braces_nil : braces [] = 0 := rfl

@[simp] theorem braces_cons (t : Token) (ts : List Token) : braces (t :: ts) = t.brace + braces ts := by simp [braces]

@[simp] theorem braces_append (ts us : List Token) : braces (ts ++ us) = braces ts + braces us := by simp [braces]

theorem brace_left {t : Token} (h : t.content = .symbol .leftBrace) : t.brace = 1 := by simp [brace, h]

theorem brace_right {t : Token} (h : t.content = .symbol .rightBrace) : t.brace = -1 := by simp [brace, h]

def isPlain (t : Token) : Bool :=
  match t.content with
  | .fault _ | .newline | .symbol .leftBrace | .symbol .rightBrace | .finish => false
  | _ => true

theorem isPlain_fault {t : Token} (h : t.isPlain = true) : t.isFault = false := by
  unfold isPlain at h
  unfold isFault
  split <;> simp_all

theorem isPlain_brace {t : Token} (h : t.isPlain = true) : t.brace = 0 := by
  unfold isPlain at h
  unfold brace
  split <;> simp_all

theorem isPlain_newline {t : Token} (h : t.isPlain = true) : t.content ≠ .newline := by
  rintro hn
  simp [isPlain, hn] at h

/-- No token is malformed, and none closes a brace that was not opened. -/
structure Safe (ts : List Token) : Prop where
  sound : ∀ t ∈ ts, t.isFault = false
  level : ∀ us, us <+: ts → 0 ≤ braces us

structure Even (ts : List Token) : Prop extends Safe ts where
  closed : braces ts = 0

/-- Moreover, line ends stand only between braces. -/
structure Sealed (ts : List Token) : Prop extends Even ts where
  inside : ∀ us t vs, ts = us ++ t :: vs → t.content = .newline → 0 < braces us

theorem Safe.nil : Safe [] := ⟨by simp, by simp⟩

theorem Even.nil : Even [] := ⟨.nil, rfl⟩

theorem Sealed.nil : Sealed [] := ⟨.nil, by simp⟩

/-- A list is made of two lists on either side of any of its places. -/
theorem Safe.append {ts us : List Token} (ht : Safe ts) (hu : Safe us) : Safe (ts ++ us) := by
  refine ⟨fun t h => (List.mem_append.1 h).elim (ht.sound t) (hu.sound t), fun vs hvs => ?_⟩
  obtain ⟨ws, hws⟩ := hvs
  rcases List.append_eq_append_iff.1 hws with ⟨as, rfl, -⟩ | ⟨as, rfl, rfl⟩
  · exact ht.level vs (List.prefix_append vs as)
  · have h₁ := ht.level ts (List.prefix_refl ts)
    have h₂ := hu.level as (List.prefix_append as ws)
    rw [braces_append]
    omega

theorem Even.append {ts us : List Token} (ht : Even ts) (hu : Even us) : Even (ts ++ us) :=
  ⟨ht.toSafe.append hu.toSafe, by rw [braces_append, ht.closed, hu.closed]; rfl⟩

theorem Sealed.append {ts us : List Token} (ht : Sealed ts) (hu : Sealed us) : Sealed (ts ++ us) := by
  refine ⟨ht.toEven.append hu.toEven, fun vs t ws h hn => ?_⟩
  rcases List.append_eq_append_iff.1 h with ⟨as, rfl, rfl⟩ | ⟨as, rfl, has⟩
  · have hinside := hu.inside as t ws rfl hn
    rw [braces_append, ht.closed]
    omega
  · cases as with
    | nil =>
      have hinside := hu.inside [] t ws has.symm hn
      simp at hinside
    | cons a as =>
      obtain ⟨rfl, -⟩ := List.cons.inj has
      exact ht.inside vs t as rfl hn

theorem Safe.single {t : Token} (hfault : t.isFault = false) (hbrace : 0 ≤ t.brace) : Safe [t] := by
  refine ⟨by simpa using hfault, fun us h => ?_⟩
  rcases List.prefix_cons_iff.1 h with rfl | ⟨vs, rfl, hvs⟩
  · simp
  · simpa [List.prefix_nil.1 hvs] using hbrace

theorem Even.newline {t : Token} (h : t.content = .newline) : Even [t] :=
  ⟨Safe.single (by simp [isFault, h]) (by simp [brace, h]), by simp [brace, h]⟩

theorem Sealed.single {t : Token} (h : t.isPlain = true) : Sealed [t] := by
  have hbrace := isPlain_brace h
  refine ⟨⟨Safe.single (isPlain_fault h) (by omega), by simp [hbrace]⟩, fun us u vs hsplit hn => ?_⟩
  have hu : u ∈ [t] := by simp [hsplit]
  obtain rfl := List.mem_singleton.1 hu
  exact absurd hn (isPlain_newline h)

theorem Safe.enclosed {t u : Token} {ts : List Token} (ht : t.content = .symbol .leftBrace) (h : Safe ts)
    (hu : u.content = .symbol .rightBrace) : Safe (t :: (ts ++ [u])) := by
  refine ⟨fun s hs => ?_, fun us hus => ?_⟩
  · simp only [List.mem_cons, List.mem_append, List.not_mem_nil, or_false] at hs
    rcases hs with rfl | hs | rfl
    · simp [isFault, ht]
    · exact h.sound s hs
    · simp [isFault, hu]
  · rcases List.prefix_cons_iff.1 hus with rfl | ⟨vs, rfl, hvs⟩
    · simp
    · rw [braces_cons, brace_left ht]
      rcases List.prefix_concat_iff.1 hvs with rfl | hvs
      · have htotal := h.level ts (List.prefix_refl ts)
        simp only [braces_append, braces_cons, braces_nil, brace_right hu]
        omega
      · have hlevel := h.level vs hvs
        omega

theorem Sealed.enclosed {t u : Token} {ts : List Token} (ht : t.content = .symbol .leftBrace) (h : Even ts)
    (hu : u.content = .symbol .rightBrace) : Sealed (t :: (ts ++ [u])) := by
  refine ⟨⟨Safe.enclosed ht h.toSafe hu, by simp [brace_left ht, brace_right hu, h.closed]⟩, fun us v vs hsplit hn => ?_⟩
  cases us with
  | nil =>
    obtain ⟨rfl, -⟩ := List.cons.inj hsplit
    simp [ht] at hn
  | cons a us =>
    obtain ⟨rfl, htail⟩ := List.cons.inj hsplit
    have hlevel : 0 ≤ braces us := by
      rcases List.prefix_concat_iff.1 ⟨v :: vs, htail.symm⟩ with rfl | hus
      · simp at htail
      · exact h.level us hus
    rw [braces_cons, brace_left ht]
    omega

end Token

end DeskScript
