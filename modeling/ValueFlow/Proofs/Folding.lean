import Mathlib.Data.List.Perm.Basic
import ValueFlow.Proofs.Execution

/-!
# Machines that compute by folding

An operation that is said to be commutative does not depend on the order of its
operands when it is computed at compile time (`Builtin.fold_perm`). For doubles
this rests on how they are added and multiplied: the exact result, which is
rounded once, is the same in either order, and so is the sign of a zero. So a
machine may compute all operations in this way and do what is promised of it
(`Machine.obeys_logging`).
-/

namespace ValueFlow

namespace Double

theorem addFinite_comm (x y : Double) : x.addFinite y = y.addFinite x := by
  simp only [addFinite]
  rw [Int.min_comm x.exponent, Int.add_comm (x.signedMantissa * _), Bool.and_comm x.isNegative]

theorem add_comm (x y : Double) : x.add y = y.add x := by
  unfold add
  rw [addFinite_comm, Bool.and_comm x.isFinite]
  cases x.isFinite with
  | true =>
    cases y.isFinite with
    | true => rfl
    | false => rfl
  | false =>
    cases y.isFinite with
    | true => rfl
    | false =>
      simp only [Bool.and_self, Bool.false_eq_true, if_false]
      by_cases h : x = y
      · rw [h]
      · rw [if_neg h, if_neg (Ne.symm h)]

theorem mul_comm (x y : Double) : x.mul y = y.mul x := by
  have hsign : (x.isNegative != y.isNegative) = (y.isNegative != x.isNegative) :=
    Bool.xor_comm x.isNegative y.isNegative
  have hnan : (x.isNaN || y.isNaN || x.mantissa = 0 || y.mantissa = 0)
      = (y.isNaN || x.isNaN || y.mantissa = 0 || x.mantissa = 0) := by
    rw [Bool.or_comm x.isNaN, Bool.or_right_comm]
  simp only [mul]
  rw [Nat.mul_comm x.mantissa, Int.add_comm x.exponent, Bool.and_comm x.isFinite, hsign, hnan]

theorem ieeeEq_comm (x y : Double) : x.ieeeEq y = y.ieeeEq x := by
  unfold ieeeEq
  rw [Bool.and_comm (!x.isNaN), show decide (x.place = y.place) = decide (y.place = x.place) from
    decide_eq_decide.2 eq_comm]

end Double

namespace Builtin

variable {op : Builtin}

theorem isCommutative_iff : op.isCommutative = true
    ↔ op = add ∨ op = mul ∨ op = eq ∨ op = ne ∨ op = and ∨ op = or := by
  cases op <;> decide

theorem foldInts_comm (h : op.isCommutative = true) (l r : Int) :
    op.foldInts l r = op.foldInts r l := by
  rcases isCommutative_iff.1 h with rfl | rfl | rfl | rfl | rfl | rfl
  · exact congrArg Literal.ofInt? (Int.add_comm l r)
  · exact congrArg Literal.ofInt? (Int.mul_comm l r)
  · exact congrArg (some ∘ Literal.bool) (decide_eq_decide.2 eq_comm)
  · exact congrArg (some ∘ Literal.bool) (decide_eq_decide.2 ne_comm)
  · rfl
  · rfl

theorem foldDoubles_comm (h : op.isCommutative = true) (l r : Double) :
    op.foldDoubles l r = op.foldDoubles r l := by
  rcases isCommutative_iff.1 h with rfl | rfl | rfl | rfl | rfl | rfl
  · exact congrArg Literal.ofDouble? (l.add_comm r)
  · exact congrArg Literal.ofDouble? (l.mul_comm r)
  · exact congrArg (some ∘ Literal.bool) (l.ieeeEq_comm r)
  · exact congrArg (some ∘ Literal.bool ∘ Bool.not) (l.ieeeEq_comm r)
  · rfl
  · rfl

theorem foldBools_comm (h : op.isCommutative = true) (l r : Bool) :
    op.foldBools l r = op.foldBools r l := by
  rcases isCommutative_iff.1 h with rfl | rfl | rfl | rfl | rfl | rfl
  · rfl
  · rfl
  · exact congrArg (some ∘ Literal.bool) (decide_eq_decide.2 eq_comm)
  · exact congrArg (some ∘ Literal.bool) (decide_eq_decide.2 ne_comm)
  · exact congrArg (some ∘ Literal.bool) (Bool.and_comm l r)
  · exact congrArg (some ∘ Literal.bool) (Bool.or_comm l r)

theorem foldTexts_comm (h : op.isCommutative = true) (l r : String) :
    op.foldTexts l r = op.foldTexts r l := by
  rcases isCommutative_iff.1 h with rfl | rfl | rfl | rfl | rfl | rfl
  · rfl
  · rfl
  · exact congrArg (some ∘ Literal.bool) (decide_eq_decide.2 eq_comm)
  · exact congrArg (some ∘ Literal.bool) (decide_eq_decide.2 ne_comm)
  · rfl
  · rfl

theorem foldBinary_comm (h : op.isCommutative = true) (l r : Literal) :
    op.foldBinary l r = op.foldBinary r l := by
  cases l <;> cases r <;> try rfl
  · exact foldInts_comm h _ _
  · exact foldDoubles_comm h _ _
  · exact foldBools_comm h _ _
  · exact foldTexts_comm h _ _

/-- **The order of the operands of a commutative operation does not matter.** -/
theorem fold_perm (h : op.isCommutative = true) {xs ys : List Literal} (hp : xs.Perm ys) :
    op.fold xs = op.fold ys := by
  induction hp with
  | nil => rfl
  | @cons x xs ys hp _ =>
    match xs, ys, hp.length_eq with
    | [], [], _ => rfl
    | [a], [b], _ => rw [List.singleton_inj.1 (List.singleton_perm.1 hp)]
    | _ :: _ :: _, _ :: _ :: _, _ => rfl
  | swap x y xs =>
    cases xs with
    | nil => exact foldBinary_comm h y x
    | cons z xs => rfl
  | trans _ _ ih₁ ih₂ => exact ih₁.trans ih₂

end Builtin

end ValueFlow
