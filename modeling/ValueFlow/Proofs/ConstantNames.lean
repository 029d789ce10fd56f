import Mathlib.Data.List.Find
import ValueFlow.Proofs.LiteralText
import ValueFlow.Proofs.Lookups

/-!
# Constants and their names

The name of a constant is made from its literal, and it tells the literal,
unless this is a NaN. So a table that enters every constant under its own name,
as all tables here do, holds one value for each name, and a table that is
extended with new constants keeps its old ones.
-/

namespace ValueFlow

namespace Constant

variable {name : String}

/-- The letter in the name of a constant that tells the kind of its literal. -/
def kindLetter (l : Literal) : Char := ['?', 'i', 'f', 'b', 's'].getD l.rank '!'

theorem rank_eq_of_kindLetter {l l' : Literal} (h : kindLetter l = kindLetter l') :
    l.rank = l'.rank := by
  have hinj : ∀ a < 6, ∀ b < 6, ['?', 'i', 'f', 'b', 's'].getD a '!'
      = ['?', 'i', 'f', 'b', 's'].getD b '!' →
      a = b := by decide
  have hlt : ∀ l : Literal, l.rank < 6 := fun l => by cases l <;> simp [Literal.rank]
  exact hinj _ (hlt l) _ (hlt l') h

theorem toList_nameFor? {l : Literal} (h : nameFor? l = some name) :
    name.toList = ['_', '_', 'c', ':'] ++ kindLetter l :: ':' :: l.text.toList := by
  cases l with
  | null => cases h
  | int n => exact Option.some.inj h ▸ String.toList_append
  | float x => exact Option.some.inj h ▸ String.toList_append
  | bool b => exact Option.some.inj h ▸ String.toList_append
  | str s => exact Option.some.inj h ▸ String.toList_append

/-- **Different literals have different constants**, NaNs apart, whose constants
all have one name. -/
theorem nameFor?_inj {l l' : Literal} (hnan : l.isNaN = false)
    (h : nameFor? l = some name) (h' : nameFor? l' = some name) : l = l' := by
  have hname := List.append_cancel_left ((toList_nameFor? h).symm.trans (toList_nameFor? h'))
  obtain ⟨hletter, htext⟩ := List.cons.inj hname
  exact Literal.eq_of_text hnan (rank_eq_of_kindLetter hletter)
    (String.toList_injective (List.cons.inj htext).2)

/-- The names of constants begin in the same way. -/
theorem prefix_of_nameFor? {l : Literal} (h : nameFor? l = some name) :
    ['_', '_', 'c', ':'] <+: name.toList :=
  ⟨_, (toList_nameFor? h).symm⟩

end Constant

/-! ## Tables of constants -/

/-- **A table of constants is well formed** if each constant is entered under
the name of its variable and holds a literal, and a name that belongs to a
literal is used for no other one. -/
def Constants.WellFormed (t : Constants) : Prop :=
  ∀ name c, t.get? name = some c →
    c.var.name = name ∧ ∃ l, c.value = .lit l ∧ ∀ l', Constant.nameFor? l' = some name → l' = l

/-- **No constant of the table holds a NaN.** -/
def Constants.NaNFree (t : Constants) : Prop :=
  ∀ name c, t.get? name = some c → c.value.isNaN = false

theorem Constant.make?_eq_some {l : Literal} {provenance : Provenance} {c : Constant}
    (h : make? l provenance = some c) :
    nameFor? l = some c.var.name ∧ c.value = .lit l ∧ c.var.isGlobalConst = true := by
  obtain ⟨name, hname, h⟩ := Option.bind_eq_some_iff.1 h
  obtain ⟨s, -, h⟩ := Option.bind_eq_some_iff.1 h
  obtain rfl := Option.some.inj h
  exact ⟨hname, rfl, rfl⟩

/-- A literal with a name has a constant. -/
theorem Constant.exists_make? {l : Literal} {name : String} (h : nameFor? l = some name)
    (provenance : Provenance) : ∃ c, make? l provenance = some c := by
  cases l with
  | null => cases h
  | int n => exact ⟨_, rfl⟩
  | float x => exact ⟨_, rfl⟩
  | bool b => exact ⟨_, rfl⟩
  | str s => exact ⟨_, rfl⟩

namespace Pool

variable {p : Pool} {v : Var} {c : Constant} {l : Literal}

/-- The constant entered under a name in either table. -/
def get? (p : Pool) (name : String) : Option Constant :=
  (p.globals.get? name).or (p.created.get? name)

/-- Both tables together are well formed. -/
def WellFormed (p : Pool) : Prop :=
  ∀ name c, p.get? name = some c →
    c.var.name = name ∧ ∃ l, c.value = .lit l ∧ ∀ l', Constant.nameFor? l' = some name → l' = l

theorem valueOf?_eq (h : v.isGlobalConst = true) :
    p.valueOf? v = (p.get? v.name).map (·.value) := by
  unfold valueOf? get? Constants.valueOf?
  rw [if_pos h]
  cases p.globals.get? v.name <;> rfl

theorem valueOf?_eq_some {a : Operand} (h : p.valueOf? v = some a) :
    v.isGlobalConst = true ∧ ∃ c, p.get? v.name = some c ∧ c.value = a := by
  by_cases hv : v.isGlobalConst = true
  · rw [valueOf?_eq hv] at h
    exact ⟨hv, Option.map_eq_some_iff.1 h⟩
  · unfold valueOf? at h
    rw [if_neg hv] at h
    cases h

/-- **What asking for the constant of a literal does.** Nothing, if there is one
or none can be made; otherwise the new constant is added. -/
theorem getOrCreate_cases (p : Pool) (l : Literal) :
    p.getOrCreate l = (none, p)
      ∨ (∃ name c, Constant.nameFor? l = some name ∧ p.get? name = some c
        ∧ p.getOrCreate l = (some c.var, p))
      ∨ ∃ c, Constant.make? l .optimizer = some c ∧ p.get? c.var.name = none
        ∧ p.getOrCreate l = (some c.var, { p with created := p.created.insert c }) := by
  unfold getOrCreate
  cases hname : Constant.nameFor? l with
  | none => exact .inl rfl
  | some name =>
    obtain ⟨made, hmade⟩ := Constant.exists_make? hname .optimizer
    obtain ⟨hname', -, -⟩ := Constant.make?_eq_some hmade
    obtain rfl : made.var.name = name := Option.some.inj (hname'.symm.trans hname)
    rw [hmade]
    cases hget : p.get? made.var.name with
    | none =>
      refine .inr (.inr ⟨made, rfl, hget, ?_⟩)
      unfold get? at hget
      simp only [hget]
    | some c =>
      refine .inr (.inl ⟨_, c, rfl, hget, ?_⟩)
      unfold get? at hget
      simp only [hget]

/-- Adding a constant under a new name changes nothing else. -/
theorem get?_insert (h : p.get? c.var.name = none) (name : String) :
    ({ p with created := p.created.insert c } : Pool).get? name
      = if c.var.name = name then some c else p.get? name := by
  obtain ⟨hg, hc⟩ := Option.or_eq_none_iff.1 h
  show (p.globals.get? name).or ((p.created.table.insertNew c.var.name c).get? name) = _
  rw [Dict.get?_insertNew]
  by_cases hn : c.var.name = name
  · subst hn
    rw [if_pos rfl, if_pos rfl, hg, show p.created.table.get? c.var.name = none from hc]
    rfl
  · rw [if_neg hn, if_neg hn]
    rfl

/-- Asking for the constant of a literal keeps the constants that are there. -/
theorem get?_getOrCreate {name : String}
    (h : p.get? name = some c) : (p.getOrCreate l).2.get? name = some c := by
  rcases p.getOrCreate_cases l with heq | ⟨_, _, -, -, heq⟩ | ⟨made, -, hnone, heq⟩
  · rw [heq]
    exact h
  · rw [heq]
    exact h
  · rw [heq, get?_insert hnone, if_neg, h]
    rintro rfl
    rw [hnone] at h
    cases h

@[simp] theorem globals_getOrCreate (p : Pool) (l : Literal) :
    (p.getOrCreate l).2.globals = p.globals := by
  rcases p.getOrCreate_cases l with heq | ⟨_, _, -, -, heq⟩ | ⟨_, -, -, heq⟩ <;> rw [heq]

/-- The constants behind the question are those before it and that of the
literal. -/
theorem get?_getOrCreate_eq_some {name : String}
    (h : (p.getOrCreate l).2.get? name = some c) :
    p.get? name = some c ∨ Constant.make? l .optimizer = some c ∧ c.var.name = name := by
  rcases p.getOrCreate_cases l with heq | ⟨_, _, -, -, heq⟩ | ⟨made, hmade, hnone, heq⟩
  · rw [heq] at h
    exact .inl h
  · rw [heq] at h
    exact .inl h
  · rw [heq, get?_insert hnone] at h
    split at h
    · rename_i hn
      obtain rfl := Option.some.inj h
      exact .inr ⟨hmade, hn⟩
    · exact .inl h

/-- The answer is the variable of a constant that is there behind the question. -/
theorem exists_of_getOrCreate_fst (h : (p.getOrCreate l).1 = some v) :
    ∃ name c, (p.getOrCreate l).2.get? name = some c ∧ c.var = v := by
  rcases p.getOrCreate_cases l with heq | ⟨name, c, -, hget, heq⟩ | ⟨c, -, hnone, heq⟩
  · rw [heq] at h
    cases h
  · rw [heq] at h ⊢
    exact ⟨name, c, hget, Option.some.inj h⟩
  · rw [heq] at h ⊢
    exact ⟨_, c, (get?_insert hnone _).trans (if_pos rfl), Option.some.inj h⟩

/-- **The constant of a literal holds the literal.** -/
theorem WellFormed.getOrCreate_eq_some (hp : p.WellFormed)
    (h : (p.getOrCreate l).1 = some v) :
    Constant.nameFor? l = some v.name
      ∧ ∃ c, (p.getOrCreate l).2.get? v.name = some c ∧ c.value = .lit l := by
  rcases p.getOrCreate_cases l with heq | ⟨name, c, hname, hget, heq⟩ | ⟨c, hmade, hnone, heq⟩
  · rw [heq] at h
    cases h
  · rw [heq] at h
    obtain rfl := Option.some.inj h
    obtain ⟨hvar, l', hvalue, huse⟩ := hp name c hget
    rw [heq, hvar]
    exact ⟨hname, c, hget, huse l hname ▸ hvalue⟩
  · rw [heq] at h
    obtain rfl := Option.some.inj h
    obtain ⟨hname, hvalue, -⟩ := Constant.make?_eq_some hmade
    rw [heq]
    exact ⟨hname, c, (get?_insert hnone _).trans (if_pos rfl), hvalue⟩

/-- **The second pool has grown out of the first one** by asking for constants. -/
def Grows (p p' : Pool) : Prop :=
  ∃ ls : List Literal, p' = ls.foldl (fun p l => (p.getOrCreate l).2) p

namespace Grows

variable {p' p'' : Pool}

theorem refl (p : Pool) : p.Grows p := ⟨[], rfl⟩

theorem trans (h : p.Grows p') (h' : p'.Grows p'') : p.Grows p'' := by
  obtain ⟨ls, rfl⟩ := h
  obtain ⟨ls', rfl⟩ := h'
  exact ⟨ls ++ ls', List.foldl_append.symm⟩

theorem getOrCreate (p : Pool) (l : Literal) : p.Grows (p.getOrCreate l).2 := ⟨[l], rfl⟩

theorem get? (h : p.Grows p') {name : String} {c : Constant} (hc : p.get? name = some c) :
    p'.get? name = some c := by
  obtain ⟨ls, rfl⟩ := h
  induction ls generalizing p with
  | nil => exact hc
  | cons l ls ih => exact ih (get?_getOrCreate hc)

theorem globals (h : p.Grows p') : p'.globals = p.globals := by
  obtain ⟨ls, rfl⟩ := h
  induction ls generalizing p with
  | nil => rfl
  | cons l ls ih => exact ih.trans (globals_getOrCreate p l)

theorem get?_eq_some (h : p.Grows p') {name : String} {c : Constant} (hc : p'.get? name = some c) :
    p.get? name = some c
      ∨ ∃ l, Constant.make? l .optimizer = some c ∧ c.var.name = name := by
  obtain ⟨ls, rfl⟩ := h
  induction ls generalizing p with
  | nil => exact .inl hc
  | cons l ls ih =>
    rcases ih hc with hc | hc
    · exact (get?_getOrCreate_eq_some hc).imp_right fun hc => ⟨l, hc⟩
    · exact .inr hc

/-- A pool that has grown was well formed before, too. -/
theorem wellFormed_before (h : p.Grows p') (hp : p'.WellFormed) : p.WellFormed :=
  fun name c hc => hp name c (h.get? hc)

/-- A pool stays well formed as it grows, if no constant is added that holds a
NaN. -/
theorem wellFormed (h : p.Grows p') (hp : p.WellFormed) (hnan : p'.created.NaNFree) :
    p'.WellFormed := by
  intro name c hc
  rcases Option.or_eq_some_iff.1 hc with hglobal | ⟨-, hcreated⟩
  · rw [h.globals] at hglobal
    exact hp name c (Option.or_eq_some_iff.2 (.inl hglobal))
  · rcases h.get?_eq_some hc with hold | ⟨l, hmade, rfl⟩
    · exact hp name c hold
    · obtain ⟨hname, hvalue, -⟩ := Constant.make?_eq_some hmade
      have hl := hnan _ c hcreated
      rw [hvalue] at hl
      exact ⟨rfl, l, hvalue, fun l' hl' => (Constant.nameFor?_inj hl hname hl').symm⟩

end Grows

/-- An operand, if there is one, is the value of a constant. -/
def Backs (p : Pool) (noted : Option Operand) : Prop :=
  ∀ a, noted = some a → ∃ name c, p.get? name = some c ∧ c.value = a

theorem backs_none (p : Pool) : p.Backs none := fun _ h => nomatch h

theorem backs_valueOf? (p : Pool) (v : Var) : p.Backs (p.valueOf? v) := fun _ ha =>
  ⟨v.name, (valueOf?_eq_some ha).2⟩

theorem Backs.of_grows {p p' : Pool} {noted : Option Operand} (h : p.Backs noted)
    (hp : p.Grows p') : p'.Backs noted := by
  intro a ha
  obtain ⟨name, c, hc, hvalue⟩ := h a ha
  exact ⟨name, c, hp.get? hc, hvalue⟩

end Pool

/-! ## Merging tables -/

theorem Constants.get?_insert (t : Constants) (c : Constant) (name : String) :
    (t.insert c).get? name
      = if c.var.name = name then some ((t.get? name).getD c) else t.get? name := by
  refine (Dict.get?_insertNew t.table c.var.name name c).trans ?_
  by_cases h : c.var.name = name
  · subst h
    rfl
  · rw [if_neg h, if_neg h]
    rfl

theorem Constants.get?_insertAll (t : Constants) (cs : List Constant) (name : String) :
    (cs.foldl insert t).get? name = (t.get? name).or (cs.find? (·.var.name = name)) := by
  induction cs generalizing t with
  | nil => simp
  | cons c cs ih =>
    rw [List.foldl_cons, ih, get?_insert, List.find?_cons]
    by_cases h : c.var.name = name
    · cases t.get? name <;> simp [h]
    · simp [h]

/-- **Merging adds the constants whose names are not taken.** -/
theorem Constants.get?_merge (t : Constants) {other : Constants}
    (h : ∀ name c, other.get? name = some c → c.var.name = name) (name : String) :
    (t.merge other).get? name = (t.get? name).or (other.get? name) := by
  refine (get?_insertAll t _ name).trans (congrArg _ ?_)
  show (other.table.entries.map (·.2)).find? _ = (other.table.entries.find? _).map (·.2)
  rw [List.find?_map]
  refine congrArg _ (List.find?_congr fun e he => ?_)
  rw [Function.comp_apply, h e.1 e.2 (Dict.get?_of_mem_entries he)]

/-- **What holds of the constants of all literals that are asked for holds of
all added constants.** -/
theorem Pool.created_foldl {p : Pool} {ls : List Literal} {P : String → Constant → Prop}
    (hmade : ∀ l ∈ ls, ∀ c, Constant.make? l .optimizer = some c → P c.var.name c)
    (hp : ∀ name c, p.created.get? name = some c → P name c) :
    ∀ name c, (ls.foldl (fun p l => (p.getOrCreate l).2) p).created.get? name = some c →
    P name c := by
  induction ls generalizing p with
  | nil => exact hp
  | cons l ls ih =>
    obtain ⟨hl, hls⟩ := List.forall_mem_cons.1 hmade
    refine ih hls fun name c hc => ?_
    dsimp only at hc
    rcases p.getOrCreate_cases l with heq | ⟨_, _, -, -, heq⟩ | ⟨made, hmake, hnone, heq⟩
    · exact hp name c (by rwa [heq] at hc)
    · exact hp name c (by rwa [heq] at hc)
    · rw [heq] at hc
      replace hc := (Constants.get?_insert p.created made name).symm.trans hc
      split at hc
      · rename_i hn
        subst hn
        rw [(Option.or_eq_none_iff.1 hnone).2] at hc
        obtain rfl := Option.some.inj hc
        exact hl _ hmake
      · exact hp name c hc

theorem Pool.Grows.created {p p' : Pool} (h : p.Grows p') {P : String → Constant → Prop}
    (hmade : ∀ l c, Constant.make? l .optimizer = some c → P c.var.name c)
    (hp : ∀ name c, p.created.get? name = some c → P name c) :
    ∀ name c, p'.created.get? name = some c → P name c := by
  obtain ⟨ls, rfl⟩ := h
  exact Pool.created_foldl (fun l _ => hmade l) hp

/-- Added constants are entered under the names of their variables. -/
theorem Pool.Grows.keyed {p p' : Pool} (h : p.Grows p')
    (hp : ∀ name c, p.created.get? name = some c → c.var.name = name) :
    ∀ name c, p'.created.get? name = some c → c.var.name = name :=
  h.created (fun _ _ _ => rfl) hp

/-- **The table of a program with the constants that a function adds** has what
the function saw. -/
theorem Pool.Grows.get?_merge {globals : Constants} {p : Pool}
    (h : (⟨globals, .empty⟩ : Pool).Grows p) (name : String) :
    (globals.merge p.created).get? name = p.get? name := by
  rw [Constants.get?_merge globals (h.keyed fun _ _ hc => nomatch hc), Pool.get?, h.globals]

end ValueFlow
