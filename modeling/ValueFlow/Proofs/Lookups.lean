import ValueFlow.Constants
import ValueFlow.Table

/-!
# What a look-up finds

Tables and dictionaries are changed by insertions only, so everything about them
follows from what a look-up finds behind one insertion: the new value for a key
that is identified with the inserted one (`Table.get?_insert`,
`Dict.get?_alter`), and what was there before for every other key.
-/

namespace ValueFlow

/-! ## Tables -/

namespace Table

variable {α β κ : Type} [Keyed α κ] [DecidableEq κ]

@[simp] theorem get?_empty (a : α) : (empty : Table α β).get? a = none := rfl

theorem find?_insertEntry (a a' : α) (b : β) (entries : List (α × β)) :
    ((insertEntry a b entries).find? fun e => Keyed.key e.1 = Keyed.key a').map (·.2)
      = if Keyed.key a = Keyed.key a' then some b
        else (entries.find? fun e => Keyed.key e.1 = Keyed.key a').map (·.2) := by
  induction entries with
  | nil => by_cases h : Keyed.key a = Keyed.key a' <;> simp [insertEntry, h]
  | cons e rest ih =>
    rw [insertEntry]
    by_cases he : Keyed.key e.1 = Keyed.key a
    · by_cases h : Keyed.key a = Keyed.key a' <;> simp [he, h]
    · rw [if_neg he]
      by_cases h : Keyed.key e.1 = Keyed.key a'
      · have hne : Keyed.key a ≠ Keyed.key a' := fun h' => he (h.trans h'.symm)
        simp [h, hne]
      · simp only [List.find?_cons, h, decide_false]
        exact ih

/-- **Inserting changes what is known about one key.** -/
theorem get?_insert (t : Table α β) (a a' : α) (b : β) :
    (t.insert a b).get? a' = if Keyed.key a = Keyed.key a' then some b else t.get? a' :=
  find?_insertEntry a a' b t.entries

/-- **An entry is what the table says about its key.** -/
theorem get?_eq_some_iff {t : Table α β} {a : α} {b : β} :
    t.get? a = some b ↔ ∃ e ∈ t.entries, Keyed.key e.1 = Keyed.key a ∧ e.2 = b := by
  obtain ⟨entries, unique⟩ := t
  unfold get?
  induction entries with
  | nil => simp
  | cons e rest ih =>
    obtain ⟨he, hrest⟩ := List.pairwise_cons.1 unique
    by_cases h : Keyed.key e.1 = Keyed.key a
    · simp only [List.find?_cons, h, decide_true, Option.map_some, Option.some.injEq,
        List.mem_cons, exists_eq_or_imp, true_and]
      refine ⟨.inl, fun h' => h'.elim id ?_⟩
      rintro ⟨e', he', hk, -⟩
      exact absurd (h.trans hk.symm) (he e' he')
    · simp only [List.find?_cons, h, decide_false, List.mem_cons, exists_eq_or_imp, false_and,
        false_or]
      exact ih hrest

theorem get?_of_mem {t : Table α β} {e : α × β} (h : e ∈ t.entries) : t.get? e.1 = some e.2 :=
  get?_eq_some_iff.2 ⟨e, h, rfl, rfl⟩

theorem get?_congr {t : Table α β} {a a' : α} (h : Keyed.key a = Keyed.key a') :
    t.get? a = t.get? a' := by
  unfold get?
  rw [h]

@[simp] theorem insertAll_nil (t : Table α β) : t.insertAll [] = t := rfl

@[simp] theorem insertAll_cons (t : Table α β) (e : α × β) (entries : List (α × β)) :
    t.insertAll (e :: entries) = (t.insert e.1 e.2).insertAll entries := rfl

/-- A key that is not among the inserted ones keeps its value. -/
theorem get?_insertAll_of_not_mem (t : Table α β) {entries : List (α × β)} {a : α}
    (h : ∀ e ∈ entries, Keyed.key e.1 ≠ Keyed.key a) :
    (t.insertAll entries).get? a = t.get? a := by
  induction entries generalizing t with
  | nil => rfl
  | cons e rest ih =>
    rw [insertAll_cons, ih _ fun e' he' => h e' (List.mem_cons_of_mem _ he'), get?_insert,
      if_neg (h e List.mem_cons_self)]

/-- A key that is among the inserted ones has the value of an inserted entry. -/
theorem get?_insertAll_of_mem (t : Table α β) {entries : List (α × β)} {a : α}
    (h : ∃ e ∈ entries, Keyed.key e.1 = Keyed.key a) :
    ∃ e ∈ entries, Keyed.key e.1 = Keyed.key a ∧ (t.insertAll entries).get? a = some e.2 := by
  induction entries generalizing t with
  | nil => simp at h
  | cons e rest ih =>
    rw [insertAll_cons]
    by_cases hr : ∃ e' ∈ rest, Keyed.key e'.1 = Keyed.key a
    · obtain ⟨e', he', hk, hget⟩ := ih (t.insert e.1 e.2) hr
      exact ⟨e', List.mem_cons_of_mem _ he', hk, hget⟩
    · obtain ⟨e', he', hk⟩ := h
      rcases List.mem_cons.1 he' with rfl | he'
      · refine ⟨e', List.mem_cons_self, hk, ?_⟩
        rw [get?_insertAll_of_not_mem _ fun e' he' hk => hr ⟨e', he', hk⟩, get?_insert,
          if_pos hk]
      · exact absurd ⟨e', he', hk⟩ hr

/-- **What is known behind many insertions** was inserted or was there before. -/
theorem get?_insertAll_eq_some {t : Table α β} {entries : List (α × β)} {a : α} {b : β}
    (h : (t.insertAll entries).get? a = some b) :
    (∃ e ∈ entries, Keyed.key e.1 = Keyed.key a ∧ e.2 = b)
      ∨ (∀ e ∈ entries, Keyed.key e.1 ≠ Keyed.key a) ∧ t.get? a = some b := by
  by_cases hm : ∃ e ∈ entries, Keyed.key e.1 = Keyed.key a
  · obtain ⟨e, he, hk, hget⟩ := get?_insertAll_of_mem t hm
    exact .inl ⟨e, he, hk, Option.some.inj (hget.symm.trans h)⟩
  · have hm' : ∀ e ∈ entries, Keyed.key e.1 ≠ Keyed.key a := fun e he hk => hm ⟨e, he, hk⟩
    exact .inr ⟨hm', (get?_insertAll_of_not_mem t hm').symm.trans h⟩

/-- The keys of a table have one property and the values another one. -/
def All (P : α → Prop) (Q : β → Prop) (t : Table α β) : Prop := ∀ e ∈ t.entries, P e.1 ∧ Q e.2

omit [DecidableEq κ] in
theorem all_empty {P : α → Prop} {Q : β → Prop} : (empty : Table α β).All P Q :=
  fun _ h => nomatch h

omit [DecidableEq κ] in
theorem All.mono {P P' : α → Prop} {Q Q' : β → Prop} {t : Table α β} (ht : t.All P Q)
    (hP : ∀ a, P a → P' a) (hQ : ∀ b, Q b → Q' b) : t.All P' Q' :=
  fun e he => ⟨hP _ (ht e he).1, hQ _ (ht e he).2⟩

theorem All.of_get? {P : α → Prop} {Q : β → Prop} {t : Table α β} (ht : t.All P Q) {a : α} {b : β}
    (h : t.get? a = some b) : Q b := by
  obtain ⟨e, he, -, rfl⟩ := get?_eq_some_iff.1 h
  exact (ht e he).2

/-- What holds of a table and of what is inserted holds behind the insertion. -/
theorem All.insert {P : α → Prop} {Q : β → Prop} {t : Table α β} (ht : t.All P Q) {a : α} {b : β}
    (ha : P a) (hb : Q b) : (t.insert a b).All P Q := by
  show ∀ e ∈ insertEntry a b t.entries, P e.1 ∧ Q e.2
  unfold All at ht
  generalize t.entries = entries at ht
  induction entries with
  | nil =>
    intro e he
    rw [insertEntry, List.mem_singleton] at he
    exact he ▸ ⟨ha, hb⟩
  | cons entry rest ih =>
    obtain ⟨hentry, hrest⟩ := List.forall_mem_cons.1 ht
    rw [insertEntry]
    split
    · exact List.forall_mem_cons.2 ⟨⟨hentry.1, hb⟩, hrest⟩
    · exact List.forall_mem_cons.2 ⟨hentry, ih hrest⟩

theorem All.insertAll {P : α → Prop} {Q : β → Prop} {t : Table α β} (ht : t.All P Q)
    {entries : List (α × β)} (he : ∀ e ∈ entries, P e.1 ∧ Q e.2) :
    (t.insertAll entries).All P Q := by
  induction entries generalizing t with
  | nil => exact ht
  | cons e rest ih =>
    obtain ⟨h, hrest⟩ := List.forall_mem_cons.1 he
    exact ih (ht.insert h.1 h.2) hrest

end Table

/-! ## Dictionaries -/

namespace Dict

variable {α : Type}

@[simp] theorem get?_empty (key : String) : (empty : Dict α).get? key = none := rfl

theorem find?_alterEntries (key key' : String) (f : Option α → α) {entries : List (String × α)}
    (h : entries.Pairwise fun a b => a.1 < b.1) :
    ((alterEntries key f entries).find? (·.1 = key')).map (·.2)
      = if key = key' then some (f ((entries.find? (·.1 = key)).map (·.2)))
        else (entries.find? (·.1 = key')).map (·.2) := by
  induction entries with
  | nil => by_cases hk : key = key' <;> simp [alterEntries, hk]
  | cons e rest ih =>
    obtain ⟨he, hrest⟩ := List.pairwise_cons.1 h
    rw [alterEntries]
    by_cases hek : e.1 = key
    · by_cases hk : key = key' <;> simp [hek, hk]
    · rw [if_neg hek]
      by_cases hlt : key < e.1
      · -- the key comes before all entries, so it is not among them
        have hnone : (e :: rest).find? (·.1 = key) = none := by
          refine List.find?_eq_none.2 fun e' he' => ?_
          rcases List.mem_cons.1 he' with rfl | he'
          · simpa using hek
          · have hkey : key < e'.1 := String.lt_trans hlt (he e' he')
            simpa using fun h' : e'.1 = key => String.lt_irrefl key (h' ▸ hkey)
        rw [if_pos hlt, hnone]
        by_cases hk : key = key' <;> simp [hk]
      · rw [if_neg hlt]
        by_cases hk' : e.1 = key'
        · have hne : key ≠ key' := fun h' => hek (hk'.trans h'.symm)
          simp [hk', hne]
        · simp only [List.find?_cons, hk', decide_false, hek]
          exact ih hrest

/-- **Altering changes the value of one key.** -/
theorem get?_alter (d : Dict α) (key key' : String) (f : Option α → α) :
    (d.alter key f).get? key' = if key = key' then some (f (d.get? key)) else d.get? key' :=
  find?_alterEntries key key' f d.sorted

theorem get?_insertNew (d : Dict α) (key key' : String) (value : α) :
    (d.insertNew key value).get? key'
      = if key = key' then some ((d.get? key).getD value) else d.get? key' :=
  get?_alter d key key' _

theorem mem_entries_of_get? {d : Dict α} {key : String} {value : α}
    (h : d.get? key = some value) : (key, value) ∈ d.entries := by
  obtain ⟨e, he, rfl⟩ := Option.map_eq_some_iff.1 h
  have hk : e.1 = key := by simpa using List.find?_some he
  exact hk ▸ List.mem_of_find?_eq_some he

theorem get?_of_mem_entries {d : Dict α} {key : String} {value : α}
    (h : (key, value) ∈ d.entries) : d.get? key = some value := by
  obtain ⟨entries, sorted⟩ := d
  unfold get?
  induction entries with
  | nil => simp at h
  | cons e rest ih =>
    obtain ⟨he, hrest⟩ := List.pairwise_cons.1 sorted
    rcases List.mem_cons.1 h with rfl | h
    · simp
    · have hlt : e.1 < key := he (key, value) h
      have hne : e.1 ≠ key := fun h' => String.lt_irrefl key (h' ▸ hlt)
      simp only [List.find?_cons, hne, decide_false]
      exact ih hrest h

end Dict

end ValueFlow
