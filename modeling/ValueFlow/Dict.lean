/-!
# Dictionaries

A `Dict α` maps texts to values of `α`. Its entries are kept in increasing order
of their keys, code point by code point, and the order is part of the type, so
that two dictionaries with the same entries are equal and a listing of a
dictionary needs no sorting.

All changes go through `alter`, which hands the present value of a key, if any,
to a function that gives the new one. `insert` overwrites and `insertNew` keeps
what is there.
-/

namespace ValueFlow

/-- **A finite map with texts as keys**, in increasing order of the keys. -/
structure Dict (α : Type) where
  /-- The entries, in order. -/
  entries : List (String × α)
  /-- No key occurs twice, and the keys increase. -/
  sorted : entries.Pairwise fun a b => a.1 < b.1

namespace Dict

variable {α : Type}

/-- The dictionary without entries. -/
def empty : Dict α := ⟨[], .nil⟩

instance : Inhabited (Dict α) := ⟨empty⟩

instance [DecidableEq α] : DecidableEq (Dict α) := fun a b =>
  if h : a.entries = b.entries then
    isTrue (by cases a; cases b; cases h; rfl)
  else isFalse fun e => h (e ▸ rfl)

/-- Two dictionaries with the same entries are equal. -/
theorem ext {a b : Dict α} (h : a.entries = b.entries) : a = b := by
  cases a; cases b; cases h; rfl

/-- The value of a key. -/
def get? (d : Dict α) (key : String) : Option α :=
  (d.entries.find? (·.1 = key)).map (·.2)

/-- The values, in order of their keys. -/
def values (d : Dict α) : List α := d.entries.map (·.2)

/-- The number of entries. -/
def size (d : Dict α) : Nat := d.entries.length

/-- There are no entries. -/
def isEmpty (d : Dict α) : Bool := d.entries.isEmpty

/-- Entries with the value of one key given by `f` from its present value. -/
def alterEntries (key : String) (f : Option α → α) : List (String × α) → List (String × α)
  | [] => [(key, f none)]
  | entry :: rest =>
    if entry.1 = key then (entry.1, f (some entry.2)) :: rest
    else if key < entry.1 then (key, f none) :: entry :: rest
    else entry :: alterEntries key f rest

/-- A key of the altered entries is the altered key or was there before. -/
theorem mem_alterEntries {key : String} {f : Option α → α} {entries : List (String × α)}
    {e : String × α} (h : e ∈ alterEntries key f entries) :
    e.1 = key ∨ ∃ e' ∈ entries, e'.1 = e.1 := by
  induction entries with
  | nil =>
    rw [alterEntries, List.mem_singleton] at h
    exact .inl (h ▸ rfl)
  | cons entry rest ih =>
    rw [alterEntries] at h
    split at h
    · rcases List.mem_cons.1 h with rfl | h
      · exact .inr ⟨entry, List.mem_cons_self, rfl⟩
      · exact .inr ⟨e, List.mem_cons_of_mem _ h, rfl⟩
    · split at h
      · rcases List.mem_cons.1 h with rfl | h
        · exact .inl rfl
        · exact .inr ⟨e, h, rfl⟩
      · rcases List.mem_cons.1 h with rfl | h
        · exact .inr ⟨e, List.mem_cons_self, rfl⟩
        · rcases ih h with h | ⟨e', he', h⟩
          · exact .inl h
          · exact .inr ⟨e', List.mem_cons_of_mem _ he', h⟩

/-- Altering keeps the keys in increasing order. -/
theorem pairwise_alterEntries (key : String) (f : Option α → α) {entries : List (String × α)}
    (h : entries.Pairwise fun a b => a.1 < b.1) :
    (alterEntries key f entries).Pairwise fun a b => a.1 < b.1 := by
  induction entries with
  | nil => exact List.pairwise_singleton _ _
  | cons entry rest ih =>
    have hrest := (List.pairwise_cons.1 h).1
    rw [alterEntries]
    split
    · exact List.pairwise_cons.2 ⟨hrest, (List.pairwise_cons.1 h).2⟩
    · rename_i hne
      split
      · rename_i hlt
        refine List.pairwise_cons.2 ⟨fun e he => ?_, h⟩
        rcases List.mem_cons.1 he with rfl | he
        · exact hlt
        · exact String.lt_trans hlt (hrest e he)
      · rename_i hnlt
        refine List.pairwise_cons.2 ⟨fun e he => ?_, ih (List.pairwise_cons.1 h).2⟩
        rcases mem_alterEntries he with hk | ⟨e', he', hk⟩
        · rw [hk]
          refine String.not_le.1 fun hle => hne ?_
          exact String.le_antisymm (String.not_lt.1 hnlt) hle
        · exact hk ▸ hrest e' he'

/-- Gives a key the value that `f` makes of its present one. -/
def alter (d : Dict α) (key : String) (f : Option α → α) : Dict α :=
  ⟨alterEntries key f d.entries, pairwise_alterEntries key f d.sorted⟩

/-- Gives a key a value, replacing the one it had. -/
def insert (d : Dict α) (key : String) (value : α) : Dict α :=
  d.alter key fun _ => value

/-- Gives a key a value, unless it has one already. -/
def insertNew (d : Dict α) (key : String) (value : α) : Dict α :=
  d.alter key fun old => old.getD value

/-- The dictionary of a list of entries; of a repeated key the last one counts. -/
def ofList (entries : List (String × α)) : Dict α :=
  entries.foldl (fun d e => d.insert e.1 e.2) empty

end Dict

end ValueFlow
