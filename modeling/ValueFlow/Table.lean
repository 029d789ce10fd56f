/-!
# Tables with identified keys

Some values carry more than what they are identified by: a variable is
identified by its name, and the rest of it is baggage. A `Table` is a finite map
with such values as keys. Entering a key that is there already replaces the
value but **keeps the key that was entered first**, baggage included.

That no two entries have identified keys is part of the type, so an entry of a
table is what the table says about its key.
-/

namespace ValueFlow

/-- What the values of a type are identified by. -/
class Keyed (α : Type) (κ : outParam Type) where
  /-- The identity of a value. -/
  key : α → κ

/-- A finite map with keys of type `α`, told apart by what they are identified
by. -/
structure Table (α β : Type) {κ : Type} [Keyed α κ] where
  /-- The entries, oldest first. -/
  entries : List (α × β)
  /-- No two entries have identified keys. -/
  unique : entries.Pairwise fun a b => Keyed.key a.1 ≠ Keyed.key b.1

namespace Table

variable {α β κ : Type} [Keyed α κ] [DecidableEq κ]

/-- The table without entries. -/
def empty : Table α β := ⟨[], .nil⟩

instance : Inhabited (Table α β) := ⟨empty⟩

/-- The value of a key. -/
def get? (t : Table α β) (a : α) : Option β :=
  (t.entries.find? fun e => Keyed.key e.1 = Keyed.key a).map (·.2)

/-- The key is in the table. -/
def contains (t : Table α β) (a : α) : Bool := (t.get? a).isSome

/-- Entries with one value replaced, or with an entry more. -/
def insertEntry (a : α) (b : β) : List (α × β) → List (α × β)
  | [] => [(a, b)]
  | e :: rest =>
    if Keyed.key e.1 = Keyed.key a then (e.1, b) :: rest else e :: insertEntry a b rest

/-- A key of the new entries is identified with the inserted one, or it was
there before. -/
theorem key_mem_insertEntry {a : α} {b : β} {entries : List (α × β)} {e : α × β}
    (h : e ∈ insertEntry a b entries) :
    Keyed.key e.1 = Keyed.key a ∨ ∃ e' ∈ entries, e'.1 = e.1 := by
  induction entries with
  | nil =>
    rw [insertEntry, List.mem_singleton] at h
    exact .inl (h ▸ rfl)
  | cons entry rest ih =>
    rw [insertEntry] at h
    split at h
    · rcases List.mem_cons.1 h with rfl | h
      · exact .inr ⟨entry, List.mem_cons_self, rfl⟩
      · exact .inr ⟨e, List.mem_cons_of_mem _ h, rfl⟩
    · rcases List.mem_cons.1 h with rfl | h
      · exact .inr ⟨e, List.mem_cons_self, rfl⟩
      · rcases ih h with h | ⟨e', he', h⟩
        · exact .inl h
        · exact .inr ⟨e', List.mem_cons_of_mem _ he', h⟩

/-- Inserting keeps the keys apart. -/
theorem pairwise_insertEntry (a : α) (b : β) {entries : List (α × β)}
    (h : entries.Pairwise fun x y => Keyed.key x.1 ≠ Keyed.key y.1) :
    (insertEntry a b entries).Pairwise fun x y => Keyed.key x.1 ≠ Keyed.key y.1 := by
  induction entries with
  | nil => exact List.pairwise_singleton _ _
  | cons entry rest ih =>
    obtain ⟨hentry, hrest⟩ := List.pairwise_cons.1 h
    rw [insertEntry]
    split
    · exact List.pairwise_cons.2 ⟨hentry, hrest⟩
    · rename_i hne
      refine List.pairwise_cons.2 ⟨fun e he => ?_, ih hrest⟩
      rcases key_mem_insertEntry he with hk | ⟨e', he', hk⟩
      · rw [hk]
        exact hne
      · exact hk ▸ hentry e' he'

/-- Gives a key a value. A key that is there already stays as it was entered. -/
def insert (t : Table α β) (a : α) (b : β) : Table α β :=
  ⟨insertEntry a b t.entries, pairwise_insertEntry a b t.unique⟩

/-- Enters a list of keys and values, one after the other. -/
def insertAll (t : Table α β) (entries : List (α × β)) : Table α β :=
  entries.foldl (fun t e => t.insert e.1 e.2) t

end Table

end ValueFlow
