import ValueFlow.Proofs.Folding
import ValueFlow.Proofs.Recording

/-!
# Folding is exact

An operation on literals is computed at compile time only if the result is the
very one that the program would compute. On integers this is the value in the
ordinary sense (`Builtin.Gives`), as long as it fits 64 bits
(`Literal.Represents`); a division truncates toward zero, which `Truncates` says
without reference to any division. Finite doubles give finite doubles.

What is folded are the inputs of a signature, and these are sorted if the
operation is commutative. Sorting is of no consequence: such an operation is
folded alike in any order, and the inputs of all others stay in place
(`Numbering.resolve_canonicalize_ofBuiltin`). `Builtin.fold_exact` puts these
facts together.
-/

namespace ValueFlow

/-! ## Integers -/

theorem toInt_range (n : Int64) : -9223372036854775808 ≤ n.toInt ∧ n.toInt ≤ 9223372036854775807 :=
  ⟨Int64.minValue_le_toInt n, Int64.toInt_le n⟩

/-- **Division that truncates toward zero**: `q` is the quotient of `l` by `r`
and `m` the remainder, which is smaller than the divisor and has the sign of the
dividend. -/
structure Truncates (l r q m : Int) : Prop where
  eq : l = q * r + m
  lt : m.natAbs < r.natAbs
  nonneg : 0 ≤ l → 0 ≤ m
  nonpos : l ≤ 0 → m ≤ 0

/-- Quotient and remainder are determined. -/
theorem Truncates.unique {l r q m q' m' : Int} (h : Truncates l r q m) (h' : Truncates l r q' m') :
    q = q' ∧ m = m' := by
  -- both remainders are on the side of the dividend, so they differ by less than
  -- the divisor
  have hclose : (m - m').natAbs < r.natAbs := by
    have := h.lt
    have := h'.lt
    rcases Int.le_total 0 l with hl | hl
    · have := h.nonneg hl
      have := h'.nonneg hl
      omega
    · have := h.nonpos hl
      have := h'.nonpos hl
      omega
  have hdiff : m - m' = (q' - q) * r := by
    have := h.eq.symm.trans h'.eq
    rw [Int.sub_mul]
    omega
  have hq : q' - q = 0 := by
    rw [hdiff, Int.natAbs_mul] at hclose
    by_contra hne
    have := Nat.le_mul_of_pos_left r.natAbs (Int.natAbs_pos.2 hne)
    omega
  rw [hq, Int.zero_mul] at hdiff
  omega

theorem truncates_tdiv (l : Int) {r : Int} (hr : r ≠ 0) : Truncates l r (l.tdiv r) (l.tmod r) where
  eq := by rw [Int.mul_comm, Int.mul_tdiv_add_tmod]
  lt := by
    rw [Int.natAbs_tmod]
    exact Nat.mod_lt _ (Int.natAbs_pos.2 hr)
  nonneg hl := Int.tmod_nonneg r hl
  nonpos hl := by
    have := Int.tmod_nonneg r (Int.neg_nonneg_of_nonpos hl)
    rw [Int.neg_tmod] at this
    omega

theorem truncates_iff {l r q m : Int} :
    Truncates l r q m ↔ r ≠ 0 ∧ q = l.tdiv r ∧ m = l.tmod r := by
  constructor
  · intro h
    have hr : r ≠ 0 := by
      rintro rfl
      exact absurd h.lt (Nat.not_lt_zero _)
    exact ⟨hr, h.unique (truncates_tdiv l hr)⟩
  · rintro ⟨hr, rfl, rfl⟩
    exact truncates_tdiv l hr

/-- **What an operation gives on integers**, without any bound on them: a number
or a truth value. -/
inductive Builtin.Gives : Builtin → List Int → Int ⊕ Bool → Prop
  | add (l r : Int) : Gives .add [l, r] (.inl (l + r))
  | sub (l r : Int) : Gives .sub [l, r] (.inl (l - r))
  | mul (l r : Int) : Gives .mul [l, r] (.inl (l * r))
  | div {l r q m : Int} (h : Truncates l r q m) : Gives .div [l, r] (.inl q)
  | mod {l r q m : Int} (h : Truncates l r q m) : Gives .mod [l, r] (.inl m)
  | neg (n : Int) : Gives .neg [n] (.inl (-n))
  | eq (l r : Int) : Gives .eq [l, r] (.inr (l = r))
  | ne (l r : Int) : Gives .ne [l, r] (.inr (l ≠ r))
  | lt (l r : Int) : Gives .lt [l, r] (.inr (l < r))
  | le (l r : Int) : Gives .le [l, r] (.inr (l ≤ r))
  | gt (l r : Int) : Gives .gt [l, r] (.inr (r < l))
  | ge (l r : Int) : Gives .ge [l, r] (.inr (r ≤ l))

/-- The literal stands for a number or a truth value. A number has one if it
fits 64 bits. -/
def Literal.Represents : Literal → Int ⊕ Bool → Prop
  | .int n, .inl k => n.toInt = k
  | .bool b, .inr c => b = c
  | _, _ => False

/-- The literal of a number is the one that stands for it. -/
theorem Literal.ofInt?_eq_some {n : Int} {y : Literal} :
    ofInt? n = some y ↔ y.Represents (.inl n) := by
  unfold ofInt?
  constructor
  · intro h
    obtain ⟨hn, h⟩ := Option.ite_none_right_eq_some.1 h
    obtain rfl := Option.some.inj h
    exact Int64.toInt_ofInt_of_le hn.1 (Int.lt_add_one_of_le hn.2)
  · intro h
    cases y with
    | int k =>
      obtain rfl : k.toInt = n := h
      exact (if_pos (toInt_range k)).trans (by rw [Int64.ofInt_toInt])
    | _ => cases h

theorem Literal.bool_eq_some {b : Bool} {y : Literal} :
    some (Literal.bool b) = some y ↔ y.Represents (.inr b) := by
  cases y <;> simp [Represents, eq_comm]

/-- **A quotient fits 64 bits**, with the one exception of the least number
divided by minus one. -/
theorem Literal.exists_represents_tdiv (l r : Int64) :
    (∃ y : Literal, y.Represents (.inl (l.toInt.tdiv r.toInt)))
      ↔ ¬ (l = Int64.minValue ∧ r = -1) := by
  constructor
  · rintro ⟨y, hy⟩ ⟨rfl, rfl⟩
    have hnone : ofInt? (Int64.minValue.toInt.tdiv (-1 : Int64).toInt) = none := by decide
    cases hnone.symm.trans (ofInt?_eq_some.2 hy)
  · intro hne
    have hl := toInt_range l
    have hfits : -9223372036854775808 ≤ l.toInt.tdiv r.toInt
        ∧ l.toInt.tdiv r.toInt ≤ 9223372036854775807 := by
      by_cases hr : r.toInt = -1
      · have hlow : l.toInt ≠ -9223372036854775808 := fun hlow =>
          hne ⟨Int64.toInt_inj.1 hlow, Int64.toInt_inj.1 hr⟩
        rw [hr, Int.tdiv_neg, Int.tdiv_one]
        omega
      by_cases hone : r.toInt = 1
      · rw [hone, Int.tdiv_one]
        exact hl
      -- any other divisor at least halves the number
      have habs : (l.toInt.tdiv r.toInt).natAbs ≤ l.toInt.natAbs / 2 := by
        by_cases hzero : r.toInt = 0
        · rw [hzero, Int.tdiv_zero]
          exact Nat.zero_le _
        · rw [Int.natAbs_tdiv]
          exact Nat.div_le_div_left (by omega) (by decide)
      omega
    exact ⟨_, Literal.ofInt?_eq_some.1 (if_pos hfits)⟩

namespace Builtin

variable {op : Builtin} {x : Int ⊕ Bool} {y : Literal}

theorem Gives.unique {ns : List Int} {x' : Int ⊕ Bool} (h : op.Gives ns x) (h' : op.Gives ns x') :
    x = x' := by
  cases h with
  | div h =>
    cases h' with
    | div h' => rw [(h.unique h').1]
  | mod h =>
    cases h' with
    | mod h' => rw [(h.unique h').2]
  | _ =>
    cases h'
    rfl

theorem exists_gives_iff {ns : List Int} {P : Prop} (h : op.Gives ns x) (hop : op ≠ mod) :
    (∃ x, op.Gives ns x ∧ y.Represents x ∧ (op = mod → P)) ↔ y.Represents x := by
  constructor
  · rintro ⟨x', h', hy, -⟩
    rwa [h.unique h']
  · exact fun hy => ⟨x, h, hy, fun hmod => absurd hmod hop⟩

/-- The results of an operation on two integers. A remainder is left out if its
quotient does not fit. -/
theorem foldInts_eq_some {l r : Int} :
    op.foldInts l r = some y ↔ ∃ x, op.Gives [l, r] x ∧ y.Represents x
    ∧ (op = mod → ∃ z : Literal, z.Represents (.inl (l.tdiv r))) := by
  cases op with
  | add => rw [exists_gives_iff (.add l r) (by decide), foldInts, Literal.ofInt?_eq_some]
  | sub => rw [exists_gives_iff (.sub l r) (by decide), foldInts, Literal.ofInt?_eq_some]
  | mul => rw [exists_gives_iff (.mul l r) (by decide), foldInts, Literal.ofInt?_eq_some]
  | div =>
    rw [foldInts]
    split
    · rename_i hr
      constructor
      · intro h
        cases h
      · rintro ⟨x, hx, -⟩
        cases hx with
        | div h => exact absurd hr (truncates_iff.1 h).1
    · rename_i hr
      rw [exists_gives_iff (.div (truncates_tdiv l hr)) (by decide), Literal.ofInt?_eq_some]
  | mod =>
    rw [foldInts]
    split
    · rename_i hr
      constructor
      · intro h
        cases h
      · rintro ⟨x, hx, -⟩
        cases hx with
        | mod h => exact absurd hr (truncates_iff.1 h).1
    · rename_i hr
      rw [Option.bind_eq_some_iff]
      constructor
      · rintro ⟨z, hz, hy⟩
        exact ⟨_, .mod (truncates_tdiv l hr), Literal.ofInt?_eq_some.1 hy,
          fun _ => ⟨z, Literal.ofInt?_eq_some.1 hz⟩⟩
      · rintro ⟨x, h, hy, hquotient⟩
        obtain ⟨z, hz⟩ := hquotient rfl
        refine ⟨z, Literal.ofInt?_eq_some.2 hz, Literal.ofInt?_eq_some.2 ?_⟩
        rwa [(Gives.mod (truncates_tdiv l hr)).unique h]
  | eq => rw [exists_gives_iff (.eq l r) (by decide), foldInts, Literal.bool_eq_some]
  | ne => rw [exists_gives_iff (.ne l r) (by decide), foldInts, Literal.bool_eq_some]
  | lt => rw [exists_gives_iff (.lt l r) (by decide), foldInts, Literal.bool_eq_some]
  | le => rw [exists_gives_iff (.le l r) (by decide), foldInts, Literal.bool_eq_some]
  | gt => rw [exists_gives_iff (.gt l r) (by decide), foldInts, Literal.bool_eq_some]
  | ge => rw [exists_gives_iff (.ge l r) (by decide), foldInts, Literal.bool_eq_some]
  | _ =>
    constructor
    · intro h
      cases h
    · rintro ⟨x, ⟨⟩, -⟩

/-- **Folding integers is exact.** There is a result if and only if the
operation gives one on as many integers and it fits 64 bits, the quotient of the
least number by minus one and its remainder apart, and then it is that one. -/
theorem fold_ints (hcopy : op ≠ copy) (hfloat : op ≠ intToFloat) (ns : List Int64) :
    op.fold (ns.map .int) = some y ↔ ∃ x, op.Gives (ns.map Int64.toInt) x ∧ y.Represents x
      ∧ (op = div ∨ op = mod → ns ≠ [Int64.minValue, -1]) := by
  match ns with
  | [] =>
    constructor
    · intro h
      cases h
    · rintro ⟨x, ⟨⟩, -⟩
  | [n] =>
    cases op with
    | neg =>
      show Literal.ofInt? (-n.toInt) = some y ↔ _
      rw [Literal.ofInt?_eq_some]
      constructor
      · exact fun h => ⟨_, .neg n.toInt, h, fun _ h => by cases h⟩
      · rintro ⟨x, ⟨⟩, h, -⟩
        exact h
    | copy => exact absurd rfl hcopy
    | intToFloat => exact absurd rfl hfloat
    | _ =>
      constructor
      · intro h
        cases h
      · rintro ⟨x, ⟨⟩, -⟩
  | [l, r] =>
    show op.foldInts l.toInt r.toInt = some y ↔ ∃ x, op.Gives [l.toInt, r.toInt] x ∧ y.Represents x
      ∧ (op = div ∨ op = mod → [l, r] ≠ [Int64.minValue, -1])
    have hquotient := Literal.exists_represents_tdiv l r
    have hpair : [l, r] ≠ [Int64.minValue, -1] ↔ ¬ (l = Int64.minValue ∧ r = -1) := by simp
    rw [foldInts_eq_some, hquotient, hpair]
    refine exists_congr fun x => and_congr_right fun hx => and_congr_right fun hy =>
      ⟨?_, fun h hmod => h (.inr hmod)⟩
    rintro h (rfl | hmod)
    · cases hx with
      | div hx =>
        rw [(truncates_iff.1 hx).2.1] at hy
        exact hquotient.1 ⟨y, hy⟩
    · exact h hmod
  | _ :: _ :: _ :: _ =>
    constructor
    · intro h
      cases h
    · rintro ⟨x, ⟨⟩, -⟩

/-- Where there is a quotient, there is a remainder, and the two make up the
dividend. -/
theorem exists_fold_mod {l r q : Int64} (h : div.fold [.int l, .int r] = some (.int q)) :
    ∃ m : Int64, mod.fold [.int l, .int r] = some (.int m)
      ∧ l.toInt = q.toInt * r.toInt + m.toInt := by
  obtain ⟨x, hx, hq, hpair⟩ := (fold_ints (by decide) (by decide) [l, r]).1 h
  cases hx with
  | @div l r q' m htruncates =>
    obtain rfl : q.toInt = q' := hq
    have hm : (Int64.ofInt m).toInt = m := by
      have hlt := htruncates.lt
      have hr := toInt_range r
      exact Int64.toInt_ofInt_of_le (by omega) (by omega)
    refine ⟨.ofInt m, (fold_ints (by decide) (by decide) [l, r]).2 ?_, ?_⟩
    · exact ⟨_, .mod htruncates, hm, fun _ => hpair (.inl rfl)⟩
    · rw [hm]
      exact htruncates.eq

end Builtin

/-! ## Doubles -/

namespace Double

/-- Negation changes the uppermost bit only. -/
theorem testBit_neg (x : Double) {i : Nat} (hi : i < 63) :
    Nat.testBit x.neg.bits.toNat i = Nat.testBit x.bits.toNat i := by
  show Nat.testBit (x.bits ^^^ 0x8000000000000000).toNat i = _
  rw [UInt64.toNat_xor, Nat.testBit_xor, show UInt64.toNat 0x8000000000000000 = 2 ^ 63 from rfl,
    Nat.testBit_two_pow_of_ne (by omega), Bool.xor_false]

theorem exponentField_neg (x : Double) : x.neg.exponentField = x.exponentField := by
  refine Nat.eq_of_testBit_eq fun i => ?_
  unfold exponentField
  rw [Nat.testBit_mod_two_pow, Nat.testBit_mod_two_pow,
    Nat.testBit_div_two_pow, Nat.testBit_div_two_pow]
  by_cases hi : i < 11
  · rw [testBit_neg x (by omega)]
  · simp [hi]

theorem fractionField_neg (x : Double) : x.neg.fractionField = x.fractionField := by
  refine Nat.eq_of_testBit_eq fun i => ?_
  unfold fractionField
  rw [Nat.testBit_mod_two_pow, Nat.testBit_mod_two_pow]
  by_cases hi : i < 52
  · rw [testBit_neg x (by omega)]
  · simp [hi]

theorem isFinite_neg (x : Double) : x.neg.isFinite = x.isFinite := by
  unfold isFinite
  rw [exponentField_neg]

theorem isNaN_neg (x : Double) : x.neg.isNaN = x.isNaN := by
  unfold isNaN
  rw [isFinite_neg, fractionField_neg]

theorem isNaN_of_isFinite {x : Double} (h : x.isFinite = true) : x.isNaN = false := by
  simp [isNaN, h]

theorem isFinite_signed (negative : Bool) (x : Double) :
    (x.signed negative).isFinite = x.isFinite := by
  cases negative with
  | true => exact isFinite_neg x
  | false => rfl

theorem roundQuotient_le (a b : Nat) : roundQuotient a b ≤ a / b + 1 := by
  unfold roundQuotient
  dsimp only
  split
  · omega
  · omega
  · split <;> omega

/-- The leading bit of a number is the exponent of its quotient by one. -/
theorem log2Quotient_one {n : Nat} (hn : n ≠ 0) : log2Quotient n 1 = n.log2 := by
  have hk : (n.log2 : Int) - (Nat.log2 1 : Nat) = n.log2 := Int.sub_zero _
  have hle : 1 * 2 ^ n.log2 ≤ n * 2 ^ (-(n.log2 : Int)).toNat := by
    rw [Nat.one_mul]
    exact Nat.le_trans (Nat.log2_self_le hn) (Nat.le_mul_of_pos_right n (Nat.two_pow_pos _))
  unfold log2Quotient
  dsimp only
  rw [hk]
  exact if_pos hle

/-- A mantissa of 53 bits with an exponent field that is far from the largest. -/
theorem isFinite_ofNat {q m : Nat} (hq : q < 1100) (hm : m ≤ 2 ^ 53) :
    (Double.mk (.ofNat (min (q * 2 ^ 52 + m) (2047 * 2 ^ 52)))).isFinite = true := by
  have hbits : (UInt64.ofNat (min (q * 2 ^ 52 + m) (2047 * 2 ^ 52))).toNat = q * 2 ^ 52 + m := by
    rw [UInt64.toNat_ofNat']
    omega
  have hfield : (Double.mk (.ofNat (min (q * 2 ^ 52 + m) (2047 * 2 ^ 52)))).exponentField
      < 2047 := by
    show (UInt64.ofNat (min (q * 2 ^ 52 + m) (2047 * 2 ^ 52))).toNat / 2 ^ 52 % 2 ^ 11 < 2047
    rw [hbits]
    omega
  exact bne_iff_ne.2 (Nat.ne_of_lt hfield)

/-- **An integer of 64 bits is near a finite double.** -/
theorem isFinite_nearest {n : Nat} (hn : n < 2 ^ 64) : (nearest n 1 0).isFinite = true := by
  by_cases hne : n = 0
  · subst hne
    rfl
  have hk : n.log2 < 64 := (Nat.log2_lt hne).2 hn
  have hq : max ((n.log2 : Int) - 52) (-1074) = (n.log2 : Int) - 52 := by omega
  -- the mantissa keeps 53 bits of the number
  have hm : roundQuotient (n * 2 ^ (-((n.log2 : Int) - 52)).toNat)
        (1 * 2 ^ ((n.log2 : Int) - 52).toNat)
      ≤ 2 ^ 53 := by
    refine Nat.le_trans (roundQuotient_le _ _) (Nat.div_lt_of_lt_mul ?_)
    rw [Nat.one_mul, ← Nat.pow_add]
    calc n * 2 ^ (-((n.log2 : Int) - 52)).toNat
        < 2 ^ (n.log2 + 1) * 2 ^ (-((n.log2 : Int) - 52)).toNat :=
          Nat.mul_lt_mul_of_pos_right Nat.lt_log2_self (Nat.two_pow_pos _)
      _ = 2 ^ (((n.log2 : Int) - 52).toNat + 53) := by
          rw [← Nat.pow_add]
          congr 1
          omega
  unfold nearest
  rw [if_neg hne]
  show (Double.mk (.ofNat (min ((max (log2Quotient (n * 1) 1 - 52) (-1074) + 1074).toNat * 2 ^ 52
    + roundQuotient (n * 1 * 2 ^ (-(max (log2Quotient (n * 1) 1 - 52) (-1074))).toNat)
      (1 * 2 ^ (max (log2Quotient (n * 1) 1 - 52) (-1074)).toNat)) (2047 * 2 ^ 52)))).isFinite
        = true
  rw [Nat.mul_one, log2Quotient_one hne, hq]
  exact isFinite_ofNat (by omega) hm

theorem isFinite_ofInt (n : Int64) : (ofInt n.toInt).isFinite = true := by
  have hn := toInt_range n
  rw [ofInt, isFinite_signed]
  exact isFinite_nearest (by omega)

end Double

namespace Builtin

variable {op : Builtin} {z : Double} {xs : List Literal}

theorem isFinite_foldDoubles {l r : Double} (h : op.foldDoubles l r = some (.float z)) :
    z.isFinite = true := by
  have hfinite {x : Double} (hx : Literal.ofDouble? x = some (.float z)) : z.isFinite = true := by
    obtain ⟨hx, h⟩ := Option.ite_none_right_eq_some.1 hx
    cases h
    exact hx
  cases op with
  | add | sub | mul | div => exact hfinite h
  | _ => cases h

/-- The result on one literal is the literal or its negative, or it is finite. -/
theorem foldUnary_cases {Q : Double → Prop} (hfinite : ∀ x, x.isFinite = true → Q x)
    (hneg : ∀ x, Q x → Q x.neg) {l : Literal} (hl : ∀ x, l = .float x → Q x)
    (h : op.foldUnary l = some (.float z)) : Q z := by
  cases op with
  | copy => exact hl z (Option.some.inj h)
  | neg =>
    cases l with
    | int n => cases Literal.ofInt?_eq_some.1 h
    | float x =>
      cases h
      exact hneg x (hl x rfl)
    | _ => cases h
  | intToFloat =>
    cases l with
    | int n =>
      cases h
      exact hfinite _ (Double.isFinite_ofInt n)
    | _ => cases h
  | _ => cases l <;> cases h

theorem isFinite_foldBinary {l r : Literal} (h : op.foldBinary l r = some (.float z)) :
    z.isFinite = true := by
  cases l with
  | int l =>
    cases r with
    | int r =>
      obtain ⟨x, -, hx, -⟩ := foldInts_eq_some.1 h
      cases hx
    | _ => cases h
  | float l =>
    cases r with
    | float r => exact isFinite_foldDoubles h
    | _ => cases h
  | bool l => cases r <;> cases op <;> cases h
  | str l => cases r <;> cases op <;> cases h
  | null => cases h

/-- What holds of all finite doubles, and with a double of its negative, is kept
by folding. -/
theorem fold_cases {Q : Double → Prop} (hfinite : ∀ x, x.isFinite = true → Q x)
    (hneg : ∀ x, Q x → Q x.neg) (hxs : ∀ x, .float x ∈ xs → Q x)
    (h : op.fold xs = some (.float z)) : Q z := by
  rcases xs with _ | ⟨l, _ | ⟨r, _ | ⟨l', rest⟩⟩⟩
  · cases h
  · exact foldUnary_cases hfinite hneg (fun x hx => hxs x (List.mem_singleton.2 hx.symm)) h
  · exact hfinite z (isFinite_foldBinary h)
  · cases h

/-- **Folding does not leave the finite doubles.** -/
theorem isFinite_fold (hxs : ∀ x, .float x ∈ xs → x.isFinite = true)
    (h : op.fold xs = some (.float z)) : z.isFinite = true :=
  fold_cases (fun _ => id) (fun x hx => (Double.isFinite_neg x).trans hx) hxs h

/-- **Folding makes no NaN.** -/
theorem isNaN_fold (hxs : ∀ x ∈ xs, x.isNaN = false) {l : Literal} (h : op.fold xs = some l) :
    l.isNaN = false := by
  cases l with
  | float z =>
    exact fold_cases (Q := fun x => x.isNaN = false) (fun _ => Double.isNaN_of_isFinite)
      (fun x hx => (Double.isNaN_neg x).trans hx) (fun x hx => hxs _ hx) h
  | _ => rfl

end Builtin

/-! ## The order of operands -/

section Order

variable {α β γ : Type} {g : α → Option β} {xs ys : List α}

/-- Reading rearranged operands gives what they hold, rearranged. -/
theorem exists_mapM_of_perm (h : xs.Perm ys) {zs : List β} (hzs : xs.mapM g = some zs) :
    ∃ ws, ys.mapM g = some ws ∧ zs.Perm ws := by
  obtain ⟨ws, hws, hperm⟩ := List.perm_comp_forall₂ h.symm (mapM_eq_some.1 hzs)
  exact ⟨ws, mapM_eq_some.2 hws, hperm.symm⟩

/-- What does not depend on the order of values does not depend on the order in
which they are read. -/
theorem bind_mapM_perm {F : List β → Option γ} (hF : ∀ {zs ws}, zs.Perm ws → F zs = F ws)
    (h : xs.Perm ys) : (xs.mapM g).bind F = (ys.mapM g).bind F := by
  cases hx : xs.mapM g with
  | some zs =>
    obtain ⟨ws, hws, hperm⟩ := exists_mapM_of_perm h hx
    rw [hws]
    exact hF hperm
  | none =>
    cases hy : ys.mapM g with
    | none => rfl
    | some ws =>
      obtain ⟨zs, hzs, -⟩ := exists_mapM_of_perm h.symm hy
      cases hx.symm.trans hzs

end Order

theorem Builtin.foldOperands_perm {op : Builtin} (hop : op.isCommutative = true)
    {xs ys : List Operand} (h : xs.Perm ys) : op.foldOperands xs = op.foldOperands ys :=
  bind_mapM_perm (fold_perm hop) h

namespace Signature

variable {timing : Timing} {op : Builtin} {inputs : List Operand}

/-- A builtin operation has no container among its inputs. -/
theorem mapInputs_ofBuiltin (f : Operand → Operand) : (ofBuiltin timing op inputs).mapInputs f
    = normalize ⟨.builtin timing op, (ofBuiltin timing op inputs).inputs.map f,
      op.isCommutative⟩ := by
  unfold mapInputs ofBuiltin make
  rw [op_normalize, commutative_normalize]
  rfl

/-- Only the inputs of commutative operations are rearranged. -/
theorem inputs_ofBuiltin (hop : op.isCommutative = false) :
    (ofBuiltin timing op inputs).inputs = inputs :=
  inputs_normalize_of_not_commutative hop

theorem inputs_mapInputs_ofBuiltin (hop : op.isCommutative = false) (f : Operand → Operand) :
    ((ofBuiltin timing op inputs).mapInputs f).inputs = inputs.map f := by
  rw [mapInputs_ofBuiltin, inputs_normalize_of_not_commutative hop, inputs_ofBuiltin hop]

theorem inputs_mapInputs_ofBuiltin_perm (f : Operand → Operand) :
    ((ofBuiltin timing op inputs).mapInputs f).inputs.Perm (inputs.map f) := by
  rw [mapInputs_ofBuiltin]
  exact (inputs_normalize_perm _).trans ((inputs_normalize_perm _).map f)

end Signature

namespace Numbering

variable {ctx : Context} {s : State}

/-- What follows from a signature alone is the same for rearranged inputs of a
commutative operation. -/
theorem resolve_perm {timing : Timing} {op : Builtin} (hop : op.isCommutative = true)
    {xs ys : List Operand} (h : xs.Perm ys) (c c' : Bool) :
    resolve ctx ⟨.builtin timing op, xs, c⟩ s = resolve ctx ⟨.builtin timing op, ys, c'⟩ s := by
  have hnow : op.foldOperands xs = op.foldOperands ys := op.foldOperands_perm hop h
  have hlater : (xs.mapM s.pool.literal?).bind op.foldOperands
      = (ys.mapM s.pool.literal?).bind op.foldOperands :=
    bind_mapM_perm (op.foldOperands_perm hop) h
  -- none of the commutative operations is a copy
  rcases Builtin.isCommutative_iff.1 hop with rfl | rfl | rfl | rfl | rfl | rfl
      <;> cases timing with
  | now => simp only [resolve, hnow]
  | later => simp only [resolve, hlater]

/-- **The value of an operation is folded from its own operands**: what follows
from its signature, of which the inputs are sorted, follows from the
representatives of the operands in the order of the instruction. -/
theorem resolve_canonicalize_ofBuiltin (ctx : Context) (s : State) (timing : Timing) (op : Builtin)
    (inputs : List Operand) : resolve ctx (s.facts.canonicalize (.ofBuiltin timing op inputs)) s
      = resolve ctx (.plain (.builtin timing op) (inputs.map s.facts.canonicalOperand)) s := by
  let sig := (Signature.ofBuiltin timing op inputs).mapInputs s.facts.canonicalOperand
  have hsig : sig = ⟨.builtin timing op, sig.inputs, sig.commutative⟩ := by
    have hop : sig.op = .builtin timing op := by
      unfold sig
      rw [Signature.mapInputs_ofBuiltin, Signature.op_normalize]
    rw [← hop]
  show resolve ctx sig s
    = resolve ctx ⟨.builtin timing op, inputs.map s.facts.canonicalOperand, false⟩ s
  rw [hsig]
  cases hop : op.isCommutative with
  | true =>
    exact resolve_perm hop (Signature.inputs_mapInputs_ofBuiltin_perm s.facts.canonicalOperand) _ _
  | false =>
    rw [show sig.inputs = _ from Signature.inputs_mapInputs_ofBuiltin hop s.facts.canonicalOperand]
    rfl

end Numbering

namespace Builtin

/-- **Folding is exact.** On integers an operation has a result if and only if
it takes as many of them, its value fits 64 bits and it does not divide by zero
or the least number by minus one; the result is then the value, and quotient and
remainder go together. The order of the operands of a commutative operation does
not matter, those of another one are never rearranged, and so the signature of
an instruction, which is what the walk folds, has the value of the instruction.
Nothing but one or two literals is folded, and finite doubles give no other. -/
theorem fold_exact :
    (∀ (op : Builtin) (ns : List Int64) (y : Literal), op ≠ copy → op ≠ intToFloat →
      (op.fold (ns.map .int) = some y ↔ ∃ x, op.Gives (ns.map Int64.toInt) x ∧ y.Represents x
        ∧ (op = div ∨ op = mod → ns ≠ [Int64.minValue, -1])))
    ∧ (∀ l r q : Int64, div.fold [.int l, .int r] = some (.int q) →
      ∃ m : Int64, mod.fold [.int l, .int r] = some (.int m)
        ∧ l.toInt = q.toInt * r.toInt + m.toInt)
    ∧ (∀ op : Builtin, op.isCommutative = true → ∀ a b : Literal, op.fold [a, b] = op.fold [b, a])
    ∧ (∀ (timing : Timing) (op : Builtin) (inputs : List Operand),
      op.foldOperands (Signature.ofBuiltin timing op inputs).inputs = op.foldOperands inputs
      ∧ (∀ (ctx : Numbering.Context) (s : Numbering.State),
        Numbering.resolve ctx (s.facts.canonicalize (.ofBuiltin timing op inputs)) s
          = Numbering.resolve ctx
            (.plain (.builtin timing op) (inputs.map s.facts.canonicalOperand)) s)
      ∧ (op.isCommutative = false → (Signature.ofBuiltin timing op inputs).inputs = inputs
        ∧ ∀ f, ((Signature.ofBuiltin timing op inputs).mapInputs f).inputs = inputs.map f))
    ∧ ∀ (op : Builtin) (inputs : List Operand) (y : Literal), op.foldOperands inputs = some y →
      (∀ a ∈ inputs, a.isVar = false) ∧ (inputs.length = 1 ∨ inputs.length = 2)
      ∧ ((∀ x, .lit (.float x) ∈ inputs → x.isFinite = true) →
        ∀ z, y = .float z → z.isFinite = true) := by
  refine ⟨fun op ns y hcopy hfloat => fold_ints hcopy hfloat ns,
    ?_, fun op hop a b => fold_perm hop (.swap b a []),
    fun timing op inputs =>
      ⟨?_, fun ctx s => Numbering.resolve_canonicalize_ofBuiltin ctx s timing op inputs,
      fun hop => ⟨Signature.inputs_ofBuiltin hop, Signature.inputs_mapInputs_ofBuiltin hop⟩⟩, ?_⟩
  · intro l r q hq
    exact exists_fold_mod hq
  · cases hop : op.isCommutative with
    | true => exact foldOperands_perm hop (Signature.inputs_normalize_perm _)
    | false => rw [Signature.inputs_ofBuiltin hop]
  · intro op inputs y h
    obtain ⟨xs, hxs, hy⟩ := Option.bind_eq_some_iff.1 h
    obtain rfl := Operand.mapM_lit?_eq_some hxs
    refine ⟨?_, ?_, fun hfinite z hz => ?_⟩
    · intro a ha
      obtain ⟨l, -, rfl⟩ := List.mem_map.1 ha
      rfl
    · rw [List.length_map]
      match xs with
      | [] => cases hy
      | [_] => exact .inl rfl
      | [_, _] => exact .inr rfl
      | _ :: _ :: _ :: _ => cases hy
    · subst hz
      exact isFinite_fold (fun x hx => hfinite x (List.mem_map_of_mem hx)) hy

/-- Minus seven by two: the quotient is minus three and the remainder minus one.
The least number by minus one has neither, and a sum is folded in either order.
-/
theorem fold_exact_minusSeven :
    div.fold [.int (-7), .int 2] = some (.int (-3))
      ∧ mod.fold [.int (-7), .int 2] = some (.int (-1))
      ∧ (-7 : Int) = -3 * 2 + -1
      ∧ (∀ y, mod.fold [.int Int64.minValue, .int (-1)] ≠ some y)
      ∧ add.foldOperands (Signature.ofBuiltin .now add [.lit (.int 3), .lit (.int 12)]).inputs
        = some (.int 15)
      ∧ (Signature.ofBuiltin .now sub [.lit (.int 3), .lit (.int 12)]).inputs
        = [.lit (.int 3), .lit (.int 12)] := by
  obtain ⟨hints, hdiv, -, horder, -⟩ := fold_exact
  have hquotient : div.fold [.int (-7), .int 2] = some (.int (-3)) := by decide
  obtain ⟨m, hm, heq⟩ := hdiv (-7) 2 (-3) hquotient
  obtain rfl : m = -1 := Int64.toInt_inj.1 (by
    have : (-7 : Int) = -3 * 2 + m.toInt := heq
    show m.toInt = -1
    omega)
  refine ⟨hquotient, hm, heq, fun y hy => ?_, ?_, ((horder .now sub _).2.2 rfl).1⟩
  · obtain ⟨x, -, -, hpair⟩ := (hints mod [Int64.minValue, -1] y (by decide) (by decide)).1 hy
    exact hpair (.inr rfl) rfl
  · exact (horder .now add _).1.trans (by decide)

end Builtin

end ValueFlow
