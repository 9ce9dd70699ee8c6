/-
  TinyScript.Store.Table — names with what they stand for.

  A table keeps one entry for each name. Names are listed in the order of their characters' code
  points, whatever the order in which they came.
-/

import Std.Data.TreeMap

namespace TinyScript

/-- Entries by name. -/
abbrev Table (α : Type) := Std.TreeMap String α

namespace Table

variable {α : Type}

def get? (t : Table α) (name : String) : Option α := t[name]?

def has (t : Table α) (name : String) : Bool := t.contains name

/-- Puts an entry in place of the one of that name, or adds it. -/
def put (t : Table α) (name : String) (a : α) : Table α := t.insert name a

/-- Takes the entry of that name away. -/
def drop (t : Table α) (name : String) : Table α := t.erase name

/-- Of entries with one name the last counts. -/
def ofList (entries : List (String × α)) : Table α := entries.foldl (fun t e => t.put e.1 e.2) ∅

/-- The names in their order. -/
def names (t : Table α) : List String := t.keys

/-! ## Reading after writing -/

theorem has_eq (t : Table α) (name : String) : t.has name = (t.get? name).isSome := by
  simp [has, get?]

@[simp]
theorem get?_put_self (t : Table α) (name : String) (a : α) :
    (t.put name a).get? name = some a := by
  simp [put, get?]

theorem get?_put_of_ne (t : Table α) {name other : String} (a : α) (h : other ≠ name) :
    (t.put name a).get? other = t.get? other := by
  have hn : ¬ name = other := fun e => h e.symm
  simp [put, get?, Std.TreeMap.getElem?_insert, hn]

@[simp]
theorem get?_drop_self (t : Table α) (name : String) : (t.drop name).get? name = none := by
  simp [drop, get?]

theorem get?_foldl_put {entries : List (String × α)} {t : Table α} {name : String} {a : α}
    (h : (entries.foldl (fun t e => t.put e.1 e.2) t).get? name = some a) :
    (name, a) ∈ entries ∨ t.get? name = some a := by
  induction entries generalizing t with
  | nil => exact .inr h
  | cons e entries ih =>
    rcases ih h with hm | ht
    · exact .inl (.tail _ hm)
    · by_cases he : name = e.1
      · subst he
        rw [get?_put_self] at ht
        cases ht
        exact .inl (.head _)
      · rw [get?_put_of_ne _ _ he] at ht
        exact .inr ht

/-- What is in a table stands in its list. -/
theorem mem_of_get?_ofList {entries : List (String × α)} {name : String} {a : α}
    (h : (ofList entries).get? name = some a) : (name, a) ∈ entries :=
  (get?_foldl_put h).resolve_right (by simp [get?])

theorem isSome_get?_foldl_put {entries : List (String × α)} {t : Table α} {name : String}
    (h : name ∈ entries.map Prod.fst ∨ (t.get? name).isSome) :
    ((entries.foldl (fun t e => t.put e.1 e.2) t).get? name).isSome := by
  induction entries generalizing t with
  | nil => simpa using h
  | cons e entries ih =>
    apply ih
    by_cases he : name = e.1
    · subst he
      simp
    · rw [get?_put_of_ne _ _ he]
      simpa [he] using h

/-- What stands in a list is in its table, though a later entry may count. -/
theorem isSome_get?_ofList {entries : List (String × α)} {name : String}
    (h : name ∈ entries.map Prod.fst) : ((ofList entries).get? name).isSome :=
  isSome_get?_foldl_put (.inl h)

/-- Names are listed in order, each once. -/
theorem names_ordered (t : Table α) : t.names.Pairwise fun a b => compare a b = .lt :=
  Std.TreeMap.ordered_keys

end Table

end TinyScript
