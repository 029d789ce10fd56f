import Mathlib.Data.List.Sort
import ValueFlow.Proofs.LiteralText
import ValueFlow.Proofs.Scopes

/-!
# Signatures tell their inputs

The inputs of a commutative operation are sorted by kind and text. Both together
tell an operand that is not a NaN (`key_eq_of_rank_text`), so of two operands
that sort before each other neither is lost: they are the same. Hence there is
one way only to sort inputs without NaNs, up to which occurrence of a variable
stands where, and **two signatures are the same exactly if their inputs are the
same up to order** (`Signature.inputs_exact`). Where the order matters, they
have to be the same one by one. NaNs are all on a par and stay in the order in
which they are given.

Transforming the inputs of a signature comes to the same as making the signature
of the transformed inputs, also where the order of the inputs before and behind
the transformation differs, or two of them become one.
-/

namespace ValueFlow

namespace Operand

variable {a b : Operand}

/-- Kind and text depend on what an operand is identified by. -/
theorem rank_text_of_key (h : a.key = b.key) : a.rank = b.rank ∧ a.text = b.text := by
  cases a with
  | var v =>
    cases b with
    | var w => exact ⟨rfl, Sum.inl.inj h⟩
    | lit l => cases h
  | lit l =>
    cases b with
    | var w => cases h
    | lit l' =>
      obtain rfl : l = l' := Sum.inr.inj h
      exact ⟨rfl, rfl⟩

theorem isNaN_of_key (h : a.key = b.key) : a.isNaN = b.isNaN := by
  cases a with
  | var v =>
    cases b with
    | var w => rfl
    | lit l => cases h
  | lit l =>
    cases b with
    | var w => cases h
    | lit l' => exact congrArg Literal.isNaN (Sum.inr.inj h)

/-- **An operand that is not a NaN is told by its kind and its text.** -/
theorem key_eq_of_rank_text (hnan : a.isNaN = false) (hrank : a.rank = b.rank)
    (htext : a.text = b.text) : a.key = b.key := by
  have hpos : ∀ l : Literal, l.rank ≠ 0 := fun l => by cases l <;> exact Nat.succ_ne_zero _
  cases a with
  | var v =>
    cases b with
    | var w => exact congrArg Sum.inl htext
    | lit l => exact absurd hrank.symm (hpos l)
  | lit l =>
    cases b with
    | var w => exact absurd hrank (hpos l)
    | lit l' => exact congrArg Sum.inr (Literal.eq_of_text hnan hrank htext)

theorem sortsBefore_iff :
    a.sortsBefore b = true ↔ a.rank < b.rank ∨ a.rank = b.rank ∧ a.text ≤ b.text := by
  rw [sortsBefore, Bool.or_eq_true, Bool.and_eq_true, Bool.not_eq_true',
    decide_eq_true_iff, decide_eq_true_iff,
    decide_eq_false_iff_not, String.not_lt]

instance : Std.Total fun a b : Operand => a.sortsBefore b = true where
  total a b := by
    rw [sortsBefore_iff, sortsBefore_iff]
    rcases Nat.lt_trichotomy a.rank b.rank with hlt | heq | hlt
    · exact .inl (.inl hlt)
    · exact (String.le_total a.text b.text).imp (fun h => .inr ⟨heq, h⟩) fun h => .inr ⟨heq.symm, h⟩
    · exact .inr (.inl hlt)

instance : IsTrans Operand fun a b => a.sortsBefore b = true where
  trans a b c := by
    rw [sortsBefore_iff, sortsBefore_iff, sortsBefore_iff]
    rintro (hab | ⟨hab, htext⟩) (hbc | ⟨hbc, htext'⟩)
    · exact .inl (hab.trans hbc)
    · exact .inl (hbc ▸ hab)
    · exact .inl (hab ▸ hbc)
    · exact .inr ⟨hab.trans hbc, String.le_trans htext htext'⟩

theorem key_eq_of_sortsBefore (hnan : a.isNaN = false) (h : a.sortsBefore b = true)
    (h' : b.sortsBefore a = true) : a.key = b.key := by
  rcases sortsBefore_iff.1 h with hlt | ⟨heq, htext⟩
  · rcases sortsBefore_iff.1 h' with hlt' | ⟨heq, -⟩
    · exact absurd hlt' (Nat.lt_asymm hlt)
    · exact absurd heq.symm (Nat.ne_of_lt hlt)
  · rcases sortsBefore_iff.1 h' with hlt | ⟨-, htext'⟩
    · exact absurd heq.symm (Nat.ne_of_lt hlt)
    · exact key_eq_of_rank_text hnan heq (String.le_antisymm htext htext')

/-- Operands with the one key sort before operands with the other. -/
def KeyBefore (k k' : String ⊕ Literal) : Prop :=
  ∃ a b : Operand, a.key = k ∧ b.key = k' ∧ a.sortsBefore b = true

theorem KeyBefore.antisymm {x : Operand} {k : String ⊕ Literal} (hnan : x.isNaN = false)
    (h : KeyBefore x.key k) (h' : KeyBefore k x.key) : x.key = k := by
  obtain ⟨a, b, hx, rfl, hab⟩ := h
  rw [← hx] at h' ⊢
  obtain ⟨b', a', hb, ha, hba⟩ := h'
  rw [sortsBefore_iff, (rank_text_of_key hb).1, (rank_text_of_key hb).2, (rank_text_of_key ha).1,
    (rank_text_of_key ha).2, ← sortsBefore_iff] at hba
  exact key_eq_of_sortsBefore (isNaN_of_key hx ▸ hnan) hab hba

theorem insertSorted_eq_orderedInsert (a : Operand) (inputs : List Operand) :
    insertSorted a inputs = inputs.orderedInsert (fun a b => a.sortsBefore b = true) a := by
  induction inputs with
  | nil => rfl
  | cons b rest ih => rw [insertSorted, List.orderedInsert_cons, ih]

/-- Sorted operands stand in order. -/
theorem pairwise_sort (inputs : List Operand) :
    (sort inputs).Pairwise fun a b => a.sortsBefore b = true := by
  have hsort : sort inputs = inputs.insertionSort fun a b => a.sortsBefore b = true := by
    induction inputs with
    | nil => rfl
    | cons a rest ih => rw [List.insertionSort_cons, ← ih, ← insertSorted_eq_orderedInsert]; rfl
  exact hsort ▸ List.pairwise_insertionSort _ inputs

theorem perm_of_map_key_sort {xs ys : List Operand} (h : (sort xs).map key = (sort ys).map key) :
    (xs.map key).Perm (ys.map key) :=
  ((sort_perm xs).map key).symm.trans (h ▸ (sort_perm ys).map key)

/-- **There is one way to sort operands without NaNs**, up to which occurrences
of a variable are meant. -/
theorem map_key_sort_of_perm {xs ys : List Operand} (hnan : ∀ a ∈ xs, a.isNaN = false)
    (h : (xs.map key).Perm (ys.map key)) : (sort xs).map key = (sort ys).map key := by
  have hperm : ((sort xs).map key).Perm ((sort ys).map key) :=
    ((sort_perm xs).map key).trans (h.trans ((sort_perm ys).map key).symm)
  have hsorted : ∀ zs : List Operand, ((sort zs).map key).Pairwise KeyBefore := fun zs =>
    List.pairwise_map.2 ((pairwise_sort zs).imp fun hab => ⟨_, _, rfl, rfl, hab⟩)
  refine hperm.eq_of_pairwise (fun k k' hk _ hbefore hafter => ?_) (hsorted xs) (hsorted ys)
  obtain ⟨x, hx, rfl⟩ := List.mem_map.1 hk
  exact hbefore.antisymm (hnan x ((sort_perm xs).mem_iff.1 hx)) hafter

end Operand

/-- The inputs of an operation, all transformed but a container. -/
def Opcode.mapInputs (op : Opcode) (f : Operand → Operand) : List Operand → List Operand
  | [] => []
  | a :: rest => (if op.readsContainer then a else f a) :: rest.map f

namespace Signature

variable {op : Opcode} {xs ys : List Operand} {c : Bool}

theorem same_make_true_iff : (make op xs true).same (make op ys true) = true
    ↔ (Operand.sort xs).map Operand.key = (Operand.sort ys).map Operand.key := by
  simp [same, key, make, normalize]

theorem same_make_true (hnan : ∀ a ∈ xs, a.isNaN = false) :
    (make op xs true).same (make op ys true) = true
    ↔ (xs.map Operand.key).Perm (ys.map Operand.key) :=
  same_make_true_iff.trans ⟨Operand.perm_of_map_key_sort, Operand.map_key_sort_of_perm hnan⟩

theorem same_make_false : (make op xs false).same (make op ys false) = true
    ↔ xs.map Operand.key = ys.map Operand.key := by
  simp [same, key, make, normalize]

/-- The inputs of a signature are transformed as they are, and then put in order
again. -/
theorem mapInputs_make (hc : op.readsContainer = true → c = false) {f : Operand → Operand}
    (hnan : c = true → ∀ a ∈ xs, (f a).isNaN = false) :
    ((make op xs c).mapInputs f).same (make op (op.mapInputs f xs) c) = true := by
  have htransform : ∀ zs : List Operand, zs.take (if op.readsContainer then 1 else 0)
      ++ (zs.drop (if op.readsContainer then 1 else 0)).map f = op.mapInputs f zs := by
    intro zs
    cases zs <;> cases hop : op.readsContainer <;> simp [Opcode.mapInputs, hop]
  have hmapped : (make op xs c).mapInputs f = make op (op.mapInputs f (make op xs c).inputs) c := by
    rw [← htransform]
    simp only [mapInputs, make, op_normalize, commutative_normalize]
  rw [hmapped]
  cases c with
  | false => exact same_make_false.2 rfl
  | true =>
    have hop : op.readsContainer = false := by simpa using hc
    have hmap : ∀ zs, op.mapInputs f zs = zs.map f := fun zs => by
      cases zs <;> simp [Opcode.mapInputs, hop]
    rw [hmap, hmap]
    -- sorting first only rearranges what is transformed
    have hsort : (Operand.sort xs).Perm xs := Operand.sort_perm xs
    refine (same_make_true fun a ha => ?_).2 ((hsort.map f).map Operand.key)
    obtain ⟨x, hx, rfl⟩ := List.mem_map.1 ha
    exact hnan rfl x (hsort.mem_iff.1 hx)

/-- **Signatures identify their inputs exactly**: up to order for a commutative
operation, if none of them is a NaN, and one by one otherwise. Transforming the
inputs of a signature gives the signature of the transformed inputs; those of a
commutative operation must not become NaNs. -/
theorem inputs_exact (op : Opcode) (xs ys : List Operand) :
    ((∀ a ∈ xs, a.isNaN = false) →
      ((make op xs true).same (make op ys true) = true
        ↔ (xs.map Operand.key).Perm (ys.map Operand.key)))
    ∧ ((make op xs false).same (make op ys false) = true ↔ xs.map Operand.key = ys.map Operand.key)
    ∧ ∀ (f : Operand → Operand) (c : Bool), (op.readsContainer = true → c = false) →
      (c = true → ∀ a ∈ xs, (f a).isNaN = false) →
      ((make op xs c).mapInputs f).same (make op (op.mapInputs f xs) c) = true :=
  ⟨same_make_true, same_make_false, fun _ _ hc hnan => mapInputs_make hc hnan⟩

/-- The operands of a sum change places. An element is read at an index that is
replaced, and the array stays; the operands of a sum become one. -/
theorem inputs_exact_replacesOperands :
    let x : Operand := .var (.value "x" .float)
    let half : Operand := .lit (.float ⟨0x3FE0000000000000⟩)
    let sum := Opcode.builtin .now .add
    (∀ a ∈ [half, x], a.isNaN = false) ∧ Opcode.elementRetrieve.readsContainer = true
      ∧ sum.readsContainer = false
      ∧ (make sum [half, x] true).same (make sum [x, half] true) = true
      ∧ ((make .elementRetrieve [x, x] false).mapInputs
        fun _ => half).same (make .elementRetrieve [x, half] false) = true
      ∧ ((make sum [half, x] true).mapInputs fun _ => half).same (make sum [half, half] true)
        = true := by
  intro x half sum
  have hnan : ∀ a ∈ [half, x], a.isNaN = false := by decide
  obtain ⟨hperm, -, hmap⟩ := inputs_exact sum [half, x] [x, half]
  refine ⟨hnan, rfl, rfl, (hperm hnan).2 (.swap _ _ _), ?_, ?_⟩
  · exact (inputs_exact _ [x, x] []).2.2 (fun _ => half) false (fun _ => rfl)
      fun h => absurd h Bool.false_ne_true
  · exact hmap (fun _ => half) true (fun h => absurd h Bool.false_ne_true) fun _ _ _ => by decide

/-- NaNs with different bits do not change places. -/
example :
    let first : Operand := .lit (.float ⟨0x7FF8000000000000⟩)
    let second : Operand := .lit (.float ⟨0x7FF8000000000001⟩)
    (make (.builtin .now .add) [first, second] true).same
      (make (.builtin .now .add) [second, first] true) = false := by
  decide +kernel

end Signature

end ValueFlow
