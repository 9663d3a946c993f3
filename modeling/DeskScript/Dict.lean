set_option autoImplicit false

/-!
# Dictionaries in order of insertion

A dictionary is a list of entries with distinct keys. Writing to a key that is there keeps its place; a new key goes last.
-/

namespace DeskScript

abbrev Dict (α : Type) := List (String × α)

namespace Dict

variable {α : Type}

def get? (d : Dict α) (key : String) : Option α := d.lookup key

def contains (d : Dict α) (key : String) : Bool := (d.lookup key).isSome

def insert : Dict α → String → α → Dict α
  | [], key, value => [(key, value)]
  | (k, v) :: rest, key, value => if k = key then (k, value) :: rest else (k, v) :: insert rest key value

def erase : Dict α → String → Dict α
  | [], _ => []
  | (k, v) :: rest, key => if k = key then rest else (k, v) :: erase rest key

def keys (d : Dict α) : List String := d.map (·.1)

def values (d : Dict α) : List α := d.map (·.2)

def insertAll (d : Dict α) (entries : List (String × α)) : Dict α :=
  entries.foldl (fun d (k, v) => d.insert k v) d

theorem get?_insert_self (d : Dict α) (key : String) (value : α) : (d.insert key value).get? key = some value := by
  induction d with
  | nil => simp [insert, get?]
  | cons e rest ih =>
    obtain ⟨k, v⟩ := e
    by_cases h : k = key
    · simp [insert, get?, h]
    · have h' : (key == k) = false := by simpa using fun e : key = k => h e.symm
      simpa [insert, get?, List.lookup_cons, h, h'] using ih

theorem get?_insert_of_ne (d : Dict α) (key other : String) (value : α) (h : other ≠ key) :
    (d.insert key value).get? other = d.get? other := by
  induction d with
  | nil =>
    have h' : (other == key) = false := by simpa using h
    simp [insert, get?, List.lookup_cons, h']
  | cons e rest ih =>
    obtain ⟨k, v⟩ := e
    simp only [get?] at ih
    by_cases hk : k = key
    · have h' : (other == key) = false := by simpa using h
      simp [insert, get?, List.lookup_cons, hk, h']
    · simp only [insert, hk, if_false, get?, List.lookup_cons, ih]

theorem keys_insert (d : Dict α) (key : String) (value : α) :
    (d.insert key value).keys = if key ∈ d.keys then d.keys else d.keys ++ [key] := by
  induction d with
  | nil => simp [insert, keys]
  | cons e rest ih =>
    obtain ⟨k, v⟩ := e
    simp only [keys] at ih
    by_cases h : k = key
    · simp [insert, keys, h]
    · have h' : ¬ key = k := fun e => h e.symm
      simp only [insert, h, if_false, keys, List.map_cons, List.mem_cons, h', false_or, ih]
      by_cases hm : key ∈ List.map (fun x => x.fst) rest <;> simp only [hm, if_true, if_false, List.cons_append]

theorem insert_of_not_mem {d : Dict α} {key : String} {value : α} (h : key ∉ d.keys) :
    d.insert key value = d ++ [(key, value)] := by
  induction d with
  | nil => rfl
  | cons e d ih =>
    obtain ⟨k, v⟩ := e
    obtain ⟨hne, hrest⟩ := not_or.1 (mt List.mem_cons.2 h)
    rw [insert, if_neg (Ne.symm hne), ih hrest]
    rfl

theorem contains_iff (d : Dict α) (key : String) : d.contains key = true ↔ key ∈ d.keys := by
  induction d with
  | nil => simp [contains, keys]
  | cons e d ih =>
    obtain ⟨k, v⟩ := e
    simp only [contains, keys] at ih
    by_cases hk : key = k
    · simp [contains, keys, hk]
    · have h' : (key == k) = false := by simpa using hk
      simp [contains, keys, List.lookup_cons, h', hk, ih]

theorem mem_keys_iff {d : Dict α} {key : String} : key ∈ d.keys ↔ ∃ value, d.get? key = some value := by
  rw [← contains_iff, contains, Option.isSome_iff_exists, get?]

theorem get?_eq_none_iff (d : Dict α) (key : String) : d.get? key = none ↔ key ∉ d.keys := by
  rw [← contains_iff, contains, Bool.not_eq_true, Option.isSome_eq_false_iff, Option.isNone_iff_eq_none, get?]

theorem mem_of_get? {d : Dict α} {key : String} {value : α} (h : d.get? key = some value) : (key, value) ∈ d := by
  induction d with
  | nil => cases h
  | cons entry d ih =>
    obtain ⟨k, v⟩ := entry
    by_cases hk : key = k
    · subst hk
      have hvalue : some v = some value := by simpa [get?] using h
      rw [Option.some.inj hvalue]
      exact List.mem_cons_self
    · have hne : (key == k) = false := by simpa using hk
      have hrest : get? d key = some value := by simpa only [get?, List.lookup_cons, hne] using h
      exact List.mem_cons_of_mem _ (ih hrest)

theorem insert_of_get? {d : Dict α} {key : String} {value : α} (h : d.get? key = some value) :
    d.insert key value = d := by
  induction d with
  | nil => cases h
  | cons entry d ih =>
    obtain ⟨k, v⟩ := entry
    by_cases hk : k = key
    · subst hk
      have hvalue : some v = some value := by simpa [get?] using h
      rw [insert, if_pos rfl, Option.some.inj hvalue]
    · have hne : (key == k) = false := by simpa using Ne.symm hk
      have hrest : get? d key = some value := by simpa only [get?, List.lookup_cons, hne] using h
      rw [insert, if_neg hk, ih hrest]

theorem get?_of_mem {d : Dict α} {key : String} {value : α} (hkeys : d.keys.Nodup) (h : (key, value) ∈ d) :
    d.get? key = some value := by
  induction d with
  | nil => cases h
  | cons entry d ih =>
    obtain ⟨k, v⟩ := entry
    obtain ⟨hnew, hrest⟩ := List.nodup_cons.1 hkeys
    rcases List.mem_cons.1 h with hfirst | hmem
    · cases hfirst
      simp [get?]
    · have hkey : key ∈ d.map (·.1) := List.mem_map.2 ⟨_, hmem, rfl⟩
      have hne : (key == k) = false := by
        rw [beq_eq_false_iff_ne]
        rintro rfl
        exact hnew hkey
      simpa only [get?, List.lookup_cons, hne] using ih hrest hmem

theorem get?_erase_of_ne (d : Dict α) {key other : String} (h : other ≠ key) :
    (d.erase key).get? other = d.get? other := by
  induction d with
  | nil => rfl
  | cons e d ih =>
    obtain ⟨k, v⟩ := e
    simp only [get?] at ih
    by_cases hk : k = key
    · have h' : (other == key) = false := by simpa using h
      simp [erase, get?, List.lookup_cons, hk, h']
    · simp only [erase, hk, if_false, get?, List.lookup_cons, ih]

theorem keys_erase (d : Dict α) (key : String) : (d.erase key).keys = d.keys.erase key := by
  induction d with
  | nil => rfl
  | cons e d ih =>
    obtain ⟨k, v⟩ := e
    simp only [keys] at ih
    by_cases hk : k = key
    · simp [erase, keys, hk]
    · simp [erase, keys, hk, ih]

end Dict

end DeskScript
