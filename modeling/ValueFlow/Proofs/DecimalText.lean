import Mathlib.Algebra.Order.Field.Rat
import Mathlib.Algebra.Order.Field.Power
import Mathlib.Algebra.Order.Ring.Cast
import Mathlib.Data.List.TakeWhile
import Mathlib.Data.Nat.Cast.Field
import Mathlib.Data.Nat.Cast.Order.Ring
import Mathlib.Tactic.Linarith
import Mathlib.Tactic.LinearCombination
import Mathlib.Tactic.NormNum
import Mathlib.Tactic.FieldSimp
import Mathlib.Tactic.Ring
import ValueFlow.Decimal.Layout

/-!
# The decimal text of a double tells the double

Two doubles with the same text are the same double, unless they are NaNs, which
all have one text. For finite doubles the argument goes through the rationals
that round to a double. They form an interval, `Double.low` to `Double.high`,
and **the intervals of two magnitudes have no rational in common**: the upper
end of one is at most the lower end of the next, and where the two ends meet one
of the two mantissas is odd and its interval is open. The shortest decimal of a
double lies in its interval, so the value of that decimal tells the magnitude.

The text is read back to that value by `reading`, which knows both ways of
placing the point. What is left is the sign, which the text has in front. The
texts of the other doubles begin with a letter, but for a sign, and so are those
of no finite double.
-/

namespace ValueFlow

/-! ## The interval of a double -/

namespace Double

variable {x : Double}

/-- The magnitude, as the natural number that its bits are. -/
def magnitude (x : Double) : Nat := x.bits.toNat % 2 ^ 63

/-- The least rational that can round to the magnitude. -/
def low (x : Double) : ℚ :=
  ((if x.narrowBelow then 4 * x.mantissa - 1 else 4 * x.mantissa - 2 : ℕ) : ℚ)
    * 2 ^ (x.exponent - 2)

/-- The greatest rational that can round to the magnitude. -/
def high (x : Double) : ℚ := ((4 * x.mantissa + 2 : ℕ) : ℚ) * 2 ^ (x.exponent - 2)

/-- **The rational rounds to the magnitude.** The ends of the interval do so if
the mantissa is even. -/
def Rounds (x : Double) (v : ℚ) : Prop :=
  (x.low < v ∨ x.mantissa % 2 = 0 ∧ v = x.low) ∧ (v < x.high ∨ x.mantissa % 2 = 0 ∧ v = x.high)

theorem Rounds.low_le {v : ℚ} (h : x.Rounds v) : x.low ≤ v :=
  h.1.elim le_of_lt fun h => h.2.ge

theorem Rounds.le_high {v : ℚ} (h : x.Rounds v) : v ≤ x.high :=
  h.2.elim le_of_lt fun h => h.2.le

theorem magnitude_eq (x : Double) : x.magnitude = x.exponentField * 2 ^ 52 + x.fractionField := by
  unfold magnitude exponentField fractionField
  omega

theorem fractionField_lt (x : Double) : x.fractionField < 2 ^ 52 := Nat.mod_lt _ (by decide)

theorem eq_of_magnitude {x y : Double} (h : x.magnitude = y.magnitude)
    (hsign : x.isNegative = y.isNegative) : x = y := by
  have hx : x.bits.toNat / 2 ^ 63 = 1 ↔ y.bits.toNat / 2 ^ 63 = 1 := by
    unfold isNegative at hsign
    rw [Bool.eq_iff_iff, beq_iff_eq, beq_iff_eq] at hsign
    exact hsign
  have hlt := x.bits.toNat_lt
  have hlt' := y.bits.toNat_lt
  have hbits : x.bits.toNat = y.bits.toNat := by
    unfold magnitude at h
    omega
  cases x
  cases y
  exact congrArg mk (UInt64.toNat.inj hbits)

theorem magnitude_of_infinite (hnan : x.isNaN = false) (h : x.isFinite = false) :
    x.magnitude = 2047 * 2 ^ 52 := by
  have hexponent : x.exponentField = 2047 := by
    simpa [isFinite] using h
  have hfraction : x.fractionField = 0 := by
    simpa [isNaN, h] using hnan
  rw [magnitude_eq, hexponent, hfraction, Nat.add_zero]

/-- **The order of magnitudes, on mantissa and exponent.** Of two magnitudes
with different exponents the greater one is normal and not among the least ones.
-/
theorem mantissa_lt_or_exponent_lt {x y : Double} (h : x.magnitude < y.magnitude) :
    x.exponent = y.exponent ∧ x.mantissa < y.mantissa ∨
      x.exponent + 1 ≤ y.exponent ∧ x.mantissa < 2 ^ 53 ∧
        (y.narrowBelow = true ∧ y.mantissa = 2 ^ 52 ∨ 2 ^ 52 < y.mantissa) := by
  rw [magnitude_eq, magnitude_eq] at h
  have hx := x.fractionField_lt
  have hy := y.fractionField_lt
  unfold exponent mantissa narrowBelow
  rw [Bool.and_eq_true, beq_iff_eq, decide_eq_true_eq]
  split <;> split <;> omega

theorem mantissa_pos_of_narrowBelow (h : x.narrowBelow = true) : 0 < x.mantissa := by
  unfold narrowBelow at h
  rw [Bool.and_eq_true, beq_iff_eq, decide_eq_true_eq] at h
  unfold mantissa
  rw [if_neg (by omega)]
  omega

/-- **Intervals of different magnitudes meet at most in an end**, and then one
of them is open. -/
theorem high_le_low {x y : Double} (h : x.magnitude < y.magnitude) :
    x.high ≤ y.low ∧ (x.high = y.low → x.mantissa % 2 = 1 ∨ y.mantissa % 2 = 1) := by
  have hp : (0 : ℚ) < 2 ^ (x.exponent - 2) := zpow_pos (by norm_num) _
  obtain ⟨hq, hm⟩ | ⟨hq, hm, hy⟩ := mantissa_lt_or_exponent_lt h
  · -- on one grid the intervals are neighbours when the mantissas are
    unfold high low
    rw [← hq, mul_le_mul_iff_left₀ hp, Nat.cast_le, mul_left_inj' hp.ne', Nat.cast_inj]
    split <;> omega
  · -- the finest grid for `y` that is coarser than the one of `x` has twice its gap
    have hgap : (2 : ℚ) * 2 ^ (x.exponent - 2) ≤ 2 ^ (y.exponent - 2) := by
      rw [mul_comm, ← zpow_add_one₀ (by norm_num)]
      exact zpow_le_zpow_right₀ (by norm_num) (by omega)
    have hhigh : x.high ≤ (2 ^ 55 - 2 : ℕ) * 2 ^ (x.exponent - 2)
        ∧ (x.high = (2 ^ 55 - 2 : ℕ) * 2 ^ (x.exponent - 2) → x.mantissa % 2 = 1) := by
      unfold high
      rw [mul_le_mul_iff_left₀ hp, Nat.cast_le, mul_left_inj' hp.ne', Nat.cast_inj]
      omega
    have hlow : ((2 ^ 54 - 1 : ℕ) : ℚ) * 2 ^ (y.exponent - 2) ≤ y.low := by
      unfold low
      rw [mul_le_mul_iff_left₀ (zpow_pos (by norm_num) _), Nat.cast_le]
      obtain ⟨hn, hm'⟩ | hm' := hy
      · rw [if_pos hn]
        omega
      · split <;> omega
    have hmid : ((2 ^ 55 - 2 : ℕ) : ℚ) * 2 ^ (x.exponent - 2)
        ≤ (2 ^ 54 - 1 : ℕ) * 2 ^ (y.exponent - 2) := by
      rw [show (2 ^ 55 - 2 : ℕ) = (2 ^ 54 - 1) * 2 from rfl, Nat.cast_mul, mul_assoc]
      exact mul_le_mul_of_nonneg_left hgap (Nat.cast_nonneg _)
    refine ⟨hhigh.1.trans (hmid.trans hlow), fun heq => .inl (hhigh.2 ?_)⟩
    exact le_antisymm hhigh.1 (heq ▸ hmid.trans hlow)

/-- **A rational rounds to one magnitude.** -/
theorem Rounds.magnitude_eq {x y : Double} {v : ℚ} (hx : x.Rounds v) (hy : y.Rounds v) :
    x.magnitude = y.magnitude := by
  have aux : ∀ {x y : Double}, x.Rounds v → y.Rounds v → ¬x.magnitude < y.magnitude := by
    intro x y hx hy h
    obtain ⟨hle, hodd⟩ := high_le_low h
    have hlow : v = y.low := le_antisymm (hx.le_high.trans hle) hy.low_le
    have hhigh : v = x.high := le_antisymm hx.le_high (hle.trans hy.low_le)
    have hevenx : x.mantissa % 2 = 0 := hx.2.elim (fun h => absurd hhigh h.ne) And.left
    have heveny : y.mantissa % 2 = 0 := hy.1.elim (fun h => absurd hlow h.ne') And.left
    have := hodd (hhigh.symm.trans hlow)
    omega
  exact Nat.le_antisymm (Nat.le_of_not_lt (aux hy hx)) (Nat.le_of_not_lt (aux hx hy))

/-- The magnitude rounds to itself. -/
theorem rounds_self (x : Double) : x.Rounds (x.mantissa * 2 ^ x.exponent) := by
  have hp : (0 : ℚ) < 2 ^ (x.exponent - 2) := zpow_pos (by norm_num) _
  have hself : (x.mantissa : ℚ) * 2 ^ x.exponent = (4 * x.mantissa : ℕ) * 2 ^ (x.exponent - 2) := by
    rw [show x.exponent = x.exponent - 2 + 2 from by omega, zpow_add₀ (by norm_num)]
    push_cast
    ring_nf
  rw [hself]
  unfold Rounds low high
  rw [mul_lt_mul_iff_left₀ hp, mul_lt_mul_iff_left₀ hp, Nat.cast_lt, Nat.cast_lt,
    mul_left_inj' hp.ne', Nat.cast_inj]
  split
  · have := mantissa_pos_of_narrowBelow (by assumption)
    omega
  · omega

end Double

/-! ## The shortest decimal -/

namespace Decimal

/-- The rational that a decimal is. -/
def value (d : Decimal) : ℚ := d.digits * 10 ^ d.exponent

theorem zpow_mul_toNat_neg {a : ℚ} (ha : a ≠ 0) (i : ℤ) : a ^ i * a ^ (-i).toNat = a ^ i.toNat := by
  rw [← zpow_natCast, ← zpow_natCast, ← zpow_add₀ ha]
  exact congrArg _ (by omega)

theorem compareBinary_eq_cmp (d : ℕ) (i : ℤ) (n : ℕ) (j : ℤ) :
    compareBinary d i n j = cmp ((d : ℚ) * 10 ^ i) (n * 2 ^ j) := by
  have hscale : (0 : ℚ) < 10 ^ (-i).toNat * 2 ^ (-j).toNat := by positivity
  have hleft : (d : ℚ) * 10 ^ i * (10 ^ (-i).toNat * 2 ^ (-j).toNat)
      = (d * 10 ^ i.toNat * 2 ^ (-j).toNat : ℕ) := by
    push_cast
    rw [← zpow_mul_toNat_neg (by norm_num : (10 : ℚ) ≠ 0) i]
    ring
  have hright : (n : ℚ) * 2 ^ j * (10 ^ (-i).toNat * 2 ^ (-j).toNat)
      = (n * 2 ^ j.toNat * 10 ^ (-i).toNat : ℕ) := by
    push_cast
    rw [← zpow_mul_toNat_neg (by norm_num : (2 : ℚ) ≠ 0) j]
    ring
  rw [← cmp_mul_pos_right hscale, hleft, hright, Nat.strictMono_cast.cmp_map_eq, cmp_eq_compare]
  rfl

/-- **Reading back is rounding to the magnitude.** -/
theorem readsBack_iff {x : Double} {d : Decimal} : readsBack x d = true ↔ x.Rounds d.value := by
  unfold readsBack Double.Rounds Double.low Double.high value
  simp only [Bool.and_eq_true, Bool.or_eq_true, beq_iff_eq]
  rw [compareBinary_eq_cmp, compareBinary_eq_cmp, cmp_eq_gt_iff,
    cmp_eq_lt_iff, cmp_eq_eq_iff, cmp_eq_eq_iff]

theorem value_stripZeros (n : ℕ) (d : Decimal) : (stripZeros n d).value = d.value := by
  induction n generalizing d with
  | zero => rfl
  | succ n ih =>
    unfold stripZeros
    split
    · rename_i h
      rw [ih]
      show ((d.digits / 10 : ℕ) : ℚ) * 10 ^ (d.exponent + 1) = d.digits * 10 ^ d.exponent
      have hd : (d.digits : ℚ) = (d.digits / 10 : ℕ) * 10 := by
        exact_mod_cast (Nat.div_mul_cancel (Nat.dvd_of_mod_eq_zero h.2)).symm
      rw [hd, zpow_add_one₀ (by norm_num)]
      ring
    · rfl

theorem nearer_cases (tie : Tie) (x : Double) (d : ℕ) (i : ℤ) :
    nearer tie x d i = d ∨ nearer tie x d i = d + 1 := by
  unfold nearer
  split
  · exact .inr rfl
  · exact .inl rfl
  · cases tie with
    | up => exact .inr rfl
    | even =>
      show (if d % 2 = 0 then d else d + 1) = d ∨ (if d % 2 = 0 then d else d + 1) = d + 1
      split
      · exact .inl rfl
      · exact .inr rfl

theorem readsBack_of_onGrid? {tie : Tie} {x : Double} {i : ℤ} {d : Decimal}
    (h : onGrid? tie x i = some d) : readsBack x d = true := by
  unfold onGrid? at h
  dsimp only at h
  split at h
  · rename_i hd hd'
    obtain rfl := Option.some.inj h
    obtain hn | hn := nearer_cases tie x (floorAt x i) i
    · rw [hn]
      exact hd
    · rw [hn]
      exact hd'
  · rename_i hd _
    obtain rfl := Option.some.inj h
    exact hd
  · rename_i _ hd'
    obtain rfl := Option.some.inj h
    exact hd'
  · cases h

/-- On a grid that is fine enough nothing is lost by rounding down. -/
theorem value_floorAt {x : Double} {i : ℤ} (hi : i ≤ 0) (hx : i ≤ x.exponent) :
    (⟨floorAt x i, i⟩ : Decimal).value = x.mantissa * 2 ^ x.exponent := by
  have hzero : i.toNat = 0 := Int.toNat_of_nonpos hi
  have hdvd : 2 ^ (-x.exponent).toNat ∣ x.mantissa * 2 ^ x.exponent.toNat * 10 ^ (-i).toNat := by
    refine Dvd.dvd.mul_left ?_ _
    rw [show (10 : ℕ) = 2 * 5 from rfl, mul_pow]
    exact Dvd.dvd.mul_right (pow_dvd_pow 2 (by omega)) _
  have hten := zpow_mul_toNat_neg (by norm_num : (10 : ℚ) ≠ 0) i
  have htwo := zpow_mul_toNat_neg (by norm_num : (2 : ℚ) ≠ 0) x.exponent
  rw [hzero, pow_zero] at hten
  show ((floorAt x i : ℕ) : ℚ) * 10 ^ i = _
  unfold floorAt
  rw [hzero, pow_zero, mul_one, Nat.cast_div hdvd (by positivity)]
  push_cast
  rw [← htwo, div_mul_eq_mul_div, div_eq_iff (by positivity)]
  linear_combination (x.mantissa * 2 ^ x.exponent * 2 ^ (-x.exponent).toNat : ℚ) * hten

/-- **The shortest decimal rounds to the magnitude it was made from.** -/
theorem rounds_shortest (tie : Tie) (x : Double) : x.Rounds (shortest tie x).value := by
  unfold shortest
  split
  · rename_i h
    have := x.rounds_self
    rw [h, Nat.cast_zero, zero_mul] at this
    rw [show (⟨0, 0⟩ : Decimal).value = 0 from by simp [value]]
    exact this
  · dsimp only
    split
    · rename_i d h
      obtain ⟨n, -, hn⟩ := List.exists_of_findSome?_eq_some h
      rw [value_stripZeros]
      exact readsBack_iff.1 (readsBack_of_onGrid? hn)
    · rw [value_floorAt (by decide) (by unfold Double.exponent; omega)]
      exact x.rounds_self

end Decimal

/-! ## Reading the text -/

namespace Layout

variable {cs : List Char} {digits : List Char} {l : Layout}

/-- What stands before the first `stop` and what stands behind it. -/
def cut (stop : Char) (cs : List Char) : List Char × List Char :=
  (cs.takeWhile (· != stop), (cs.dropWhile (· != stop)).drop 1)

/-- The power of ten behind an `e`. -/
def readPower : List Char → ℤ
  | '-' :: digits => -Nat.ofDigitChars 10 digits 0
  | digits => Nat.ofDigitChars 10 digits 0

/-- **The number that a decimal text without a sign denotes.** -/
def reading (cs : List Char) : ℚ :=
  let (front, power) := cut 'e' cs
  let (whole, fraction) := cut '.' front
  Nat.ofDigitChars 10 (whole ++ fraction) 0 * 10 ^ (readPower power - fraction.length)

theorem cut_append {stop : Char} {front : List Char} (h : stop ∉ front) (back : List Char) :
    cut stop (front ++ stop :: back) = (front, back) := by
  have hpos : ∀ c ∈ front, (c != stop) = true :=
    fun c hc => bne_iff_ne.2 (ne_of_mem_of_not_mem hc h)
  unfold cut
  rw [List.takeWhile_append_of_pos hpos, List.dropWhile_append_of_pos hpos,
    List.takeWhile_cons_of_neg (by simp), List.dropWhile_cons_of_neg (by simp), List.append_nil]
  rfl

theorem cut_of_notMem {stop : Char} (h : stop ∉ cs) : cut stop cs = (cs, []) := by
  have hpos : ∀ c ∈ cs, (c != stop) = true := fun c hc => bne_iff_ne.2 (ne_of_mem_of_not_mem hc h)
  unfold cut
  rw [List.takeWhile_eq_self_iff.2 hpos, List.dropWhile_eq_nil_iff.2 hpos]
  rfl

/-- All characters are digits. -/
def AllDigits (cs : List Char) : Prop := ∀ c ∈ cs, c.isDigit = true

theorem allDigits_toDigits (n : ℕ) : AllDigits (Nat.toDigits 10 n) :=
  fun _ => Nat.isDigit_of_mem_toDigits (by decide) (by decide)

theorem allDigits_replicate (n : ℕ) : AllDigits (List.replicate n '0') :=
  fun _ hc => (List.eq_of_mem_replicate hc) ▸ rfl

theorem AllDigits.append {cs cs' : List Char} (h : AllDigits cs) (h' : AllDigits cs') :
    AllDigits (cs ++ cs') :=
  fun c hc => (List.mem_append.1 hc).elim (h c) (h' c)

theorem AllDigits.notMem (h : AllDigits cs) {stop : Char}
    (hstop : stop.isDigit = false) : stop ∉ cs :=
  fun hc => Bool.false_ne_true (hstop.symm.trans (h stop hc))

theorem readPower_of_allDigits (h : AllDigits cs) :
    readPower cs = Nat.ofDigitChars 10 cs 0 := by
  unfold readPower
  split
  · exact absurd List.mem_cons_self (h.notMem (by decide))
  · rfl

theorem readPower_toDigits (n : ℕ) : readPower (Nat.toDigits 10 n) = n := by
  rw [readPower_of_allDigits (allDigits_toDigits n), Nat.ofDigitChars_ten_toDigits]

/-- **The digits of a text, and the point and the power of ten in it.** -/
theorem reading_point {whole fraction : List Char} (hw : AllDigits whole)
    (hf : AllDigits fraction) :
    reading (whole ++ '.' :: fraction)
      = Nat.ofDigitChars 10 (whole ++ fraction) 0 * 10 ^ (-(fraction.length : ℤ)) := by
  have he : 'e' ∉ whole ++ '.' :: fraction := by
    rw [List.mem_append, List.mem_cons]
    exact fun h => h.elim (hw.notMem (by decide))
      fun h => h.elim (by decide) (hf.notMem (by decide))
  unfold reading
  rw [cut_of_notMem he]
  dsimp only
  rw [cut_append (hw.notMem (by decide))]
  dsimp only
  rw [show readPower [] = 0 from rfl, zero_sub]

theorem reading_power {front power : List Char} (h : 'e' ∉ front) :
    reading (front ++ 'e' :: power) = reading front * 10 ^ readPower power := by
  unfold reading
  rw [cut_append h, cut_of_notMem h]
  dsimp only
  rw [show readPower [] = 0 from rfl, zero_sub, sub_eq_neg_add, zpow_add₀ (by norm_num), mul_assoc]

theorem reading_digits {whole : List Char} (hw : AllDigits whole) :
    reading whole = Nat.ofDigitChars 10 whole 0 := by
  unfold reading
  rw [cut_of_notMem (hw.notMem (by decide))]
  dsimp only
  rw [cut_of_notMem (hw.notMem (by decide))]
  dsimp only
  rw [show readPower [] = 0 from rfl, List.append_nil, List.length_nil, Nat.cast_zero, sub_zero,
    zpow_zero, mul_one]

/-- Without a power of ten the digits are read with the exponent of their last
one. -/
theorem reading_plain (h : AllDigits digits) (top : ℤ) :
    reading (plain digits top)
      = Nat.ofDigitChars 10 digits 0 * 10 ^ (top + 1 - digits.length) := by
  unfold plain
  split
  · -- the zeros in front do not count, but they are places behind the point
    rename_i hneg
    show reading (List.replicate 1 '0' ++ '.' :: (List.replicate (-top - 1).toNat '0' ++ digits))
      = _
    rw [reading_point (allDigits_replicate 1) ((allDigits_replicate _).append h),
      Nat.ofDigitChars_append,
      Nat.ofDigitChars_append, Nat.ofDigitChars_replicate_zero, List.length_append,
      List.length_replicate]
    congr 2
    omega
  · rename_i hpos
    dsimp only
    split
    · -- all digits are in front of the point, and zeros fill the places up to it
      rename_i hnil
      have hlen : digits.length ≤ top.toNat + 1 := by
        rw [List.isEmpty_iff, List.drop_eq_nil_iff] at hnil
        exact hnil
      rw [List.take_of_length_le hlen, show ['0'] = List.replicate 1 '0' from rfl,
        reading_point (h.append (allDigits_replicate _)) (allDigits_replicate 1), List.append_assoc,
        List.replicate_append_replicate,
        Nat.ofDigitChars_append, Nat.ofDigitChars_replicate_zero,
        List.length_replicate, Nat.cast_mul,
        Nat.cast_pow, ← zpow_natCast, mul_comm _ (Nat.cast _ : ℚ), mul_assoc,
        Nat.cast_ofNat, ← zpow_add₀ (by norm_num)]
      congr 2
      omega
    · -- the point stands between two digits
      rename_i hcons
      have hlen : top.toNat + 1 < digits.length := by
        rw [List.isEmpty_iff, List.drop_eq_nil_iff] at hcons
        omega
      rw [List.length_take_of_le hlen.le, Nat.sub_self, List.replicate_zero, List.append_nil,
        reading_point (fun c hc => h c (List.mem_of_mem_take hc))
        (fun c hc => h c (List.mem_of_mem_drop hc)),
        List.take_append_drop, List.length_drop]
      congr 2
      omega

/-- One digit in front of the point. -/
theorem reading_front (h : AllDigits digits) (hne : digits ≠ []) :
    reading (digits.take 1 ++ if (digits.drop 1).isEmpty then [] else '.' :: digits.drop 1)
      = Nat.ofDigitChars 10 digits 0 * 10 ^ (1 - (digits.length : ℤ)) := by
  have hlen : 0 < digits.length := List.length_pos_iff.2 hne
  split
  · rename_i hnil
    rw [List.isEmpty_iff, List.drop_eq_nil_iff] at hnil
    rw [List.append_nil, List.take_of_length_le hnil, reading_digits h,
      show (1 : ℤ) - digits.length = 0 from by omega, zpow_zero, mul_one]
  · rw [reading_point (fun c hc => h c (List.mem_of_mem_take hc))
      (fun c hc => h c (List.mem_of_mem_drop hc)), List.take_append_drop, List.length_drop]
    congr 2
    omega

theorem notMem_front (h : AllDigits digits) :
    'e' ∉ digits.take 1 ++ if (digits.drop 1).isEmpty then [] else '.' :: digits.drop 1 := by
  have hd : 'e' ∉ digits := h.notMem (by decide)
  rw [List.mem_append, not_or]
  refine ⟨fun hc => hd (List.mem_of_mem_take hc), ?_⟩
  split
  · exact List.not_mem_nil
  · rw [List.mem_cons, not_or]
    exact ⟨by decide, fun hc => hd (List.mem_of_mem_drop hc)⟩

/-- With a power of ten as well. -/
theorem reading_scientific (hl : l.powerSign = "") (h : AllDigits digits)
    (hne : digits ≠ []) (top : ℤ) :
    reading (l.scientific digits top)
      = Nat.ofDigitChars 10 digits 0 * 10 ^ (top + 1 - digits.length) := by
  have hpower : readPower ((if top < 0 then "-".toList else l.powerSign.toList)
      ++ Nat.toDigits 10 top.natAbs) = top := by
    split
    · show -(Nat.ofDigitChars 10 (Nat.toDigits 10 top.natAbs) 0 : ℤ) = top
      rw [Nat.ofDigitChars_ten_toDigits]
      omega
    · rw [hl]
      show readPower (Nat.toDigits 10 top.natAbs) = top
      rw [readPower_toDigits]
      omega
  unfold scientific
  dsimp only
  rw [List.append_assoc, List.cons_append, reading_power (notMem_front h),
    reading_front h hne, hpower, mul_assoc,
    ← zpow_add₀ (by norm_num)]
  congr 2
  omega

/-- The text without the sign, the leading digit having the exponent `top`. -/
def unsigned (l : Layout) (digits : List Char) (top : ℤ) : List Char :=
  if l.plainFrom ≤ top ∧ top ≤ l.plainTo then plain digits top else l.scientific digits top

theorem reading_unsigned (hl : l.powerSign = "") (h : AllDigits digits)
    (hne : digits ≠ []) (top : ℤ) :
    reading (l.unsigned digits top)
      = Nat.ofDigitChars 10 digits 0 * 10 ^ (top + 1 - digits.length) := by
  unfold unsigned
  split
  · exact reading_plain h top
  · exact reading_scientific hl h hne top

/-- The text without the sign begins with a digit. -/
theorem exists_unsigned_eq_cons (l : Layout) (h : AllDigits digits)
    (hne : digits ≠ []) (top : ℤ) :
    ∃ c cs, l.unsigned digits top = c :: cs ∧ c.isDigit = true := by
  obtain ⟨c, rest, rfl⟩ := List.exists_cons_of_ne_nil hne
  have hc : c.isDigit = true := h c List.mem_cons_self
  unfold unsigned plain scientific
  split
  · split
    · exact ⟨'0', _, rfl, rfl⟩
    · exact ⟨c, _, rfl, hc⟩
  · exact ⟨c, _, rfl, hc⟩

/-- The decimal exponent of the leading digit, zero having none. -/
def leadingExponent (d : Decimal) : ℤ :=
  if d.digits = 0 then 0 else (Nat.toDigits 10 d.digits).length - 1 + d.exponent

theorem toList_renderFinite (l : Layout) (x : Double) :
    (l.renderFinite x).toList = (if x.isNegative then ['-'] else [])
      ++ l.unsigned (Nat.toDigits 10 (Decimal.shortest l.tie x).digits)
        (leadingExponent (Decimal.shortest l.tie x)) := by
  unfold renderFinite
  rw [String.toList_ofList]
  cases x.isNegative <;> rfl

/-- The text of a finite double has a digit in front, or behind a minus sign. -/
theorem toList_renderFinite_ne (l : Layout) (x : Double) {c : Char} (hdigit : c.isDigit = false)
    (hminus : c ≠ '-') (cs : List Char) :
    (l.renderFinite x).toList ≠ c :: cs ∧ (l.renderFinite x).toList ≠ '-' :: c :: cs := by
  obtain ⟨d, ds, hd, hd'⟩ := l.exists_unsigned_eq_cons
    (allDigits_toDigits (Decimal.shortest l.tie x).digits) Nat.toDigits_ne_nil
    (leadingExponent (Decimal.shortest l.tie x))
  have hc : d ≠ c := fun heq => Bool.false_ne_true (hdigit.symm.trans (heq ▸ hd'))
  have hsign : d ≠ '-' := fun heq => absurd (heq ▸ hd') (by decide)
  rw [toList_renderFinite, hd]
  cases x.isNegative with
  | false => exact ⟨fun h => hc (List.cons.inj h).1, fun h => hsign (List.cons.inj h).1⟩
  | true =>
    refine ⟨fun h => hminus (List.cons.inj h).1.symm, fun h => hc ?_⟩
    exact (List.cons.inj (List.cons.inj h).2).1

theorem reading_shortest (hl : l.powerSign = "") (d : Decimal) :
    reading (l.unsigned (Nat.toDigits 10 d.digits) (leadingExponent d)) = d.value := by
  rw [reading_unsigned hl (allDigits_toDigits _) Nat.toDigits_ne_nil, Nat.ofDigitChars_ten_toDigits]
  unfold leadingExponent Decimal.value
  by_cases hzero : d.digits = 0
  · rw [hzero, Nat.cast_zero, zero_mul, zero_mul]
  · rw [if_neg hzero]
    congr 2
    omega

/-- **A finite double is determined by its text.** -/
theorem renderFinite_inj (hl : l.powerSign = "") {x y : Double}
    (h : l.renderFinite x = l.renderFinite y) : x = y := by
  have htext := congrArg String.toList h
  rw [toList_renderFinite, toList_renderFinite] at htext
  have hfirst (d : Decimal) (cs : List Char) :
      l.unsigned (Nat.toDigits 10 d.digits) (leadingExponent d) ≠ '-' :: cs := by
    obtain ⟨c, cs', hcs, hc⟩ := l.exists_unsigned_eq_cons (allDigits_toDigits d.digits)
      Nat.toDigits_ne_nil (leadingExponent d)
    rw [hcs]
    exact fun heq => absurd ((List.cons.inj heq).1 ▸ hc) (by decide)
  have hsign : x.isNegative = y.isNegative := by
    cases hx : x.isNegative with
    | false =>
      cases hy : y.isNegative with
      | false => rfl
      | true =>
        rw [hx, hy] at htext
        exact absurd htext (hfirst _ _)
    | true =>
      cases hy : y.isNegative with
      | false =>
        rw [hx, hy] at htext
        exact absurd htext.symm (hfirst _ _)
      | true => rfl
  rw [hsign] at htext
  have hvalue := congrArg reading (List.append_cancel_left htext)
  rw [reading_shortest hl, reading_shortest hl] at hvalue
  exact Double.eq_of_magnitude
    ((Decimal.rounds_shortest l.tie x).magnitude_eq (hvalue ▸ Decimal.rounds_shortest l.tie y))
    hsign

/-! ## Doubles that are not finite -/

theorem render_of_isNaN (l : Layout) {x : Double} (h : x.isNaN = true) : l.render x = l.nan :=
  if_pos h

theorem render_of_isFinite (l : Layout) {x : Double} (h : x.isFinite = true) :
    l.render x = l.renderFinite x := by
  unfold render Double.isNaN
  rw [h]
  rfl

theorem render_of_infinite (l : Layout) {x : Double} (hnan : x.isNaN = false)
    (h : x.isFinite = false) : l.render x = l.infinite x.isNegative := by
  rw [render, hnan, h]
  rfl

/-- The text of an infinite double is that of no finite one. -/
theorem infinite_display_ne (negative : Bool) (x : Double) :
    display.infinite negative ≠ display.renderFinite x := by
  intro h
  have htext := (congrArg String.toList h).symm
  cases negative with
  | false => exact (display.toList_renderFinite_ne x (by decide) (by decide) _).1 htext
  | true => exact (display.toList_renderFinite_ne x (by decide) (by decide) _).2 htext

/-- **In listings, a double that is not a NaN is determined by its text.** -/
theorem render_display_inj {x y : Double} (hx : x.isNaN = false)
    (h : display.render x = display.render y) : x = y := by
  cases hfinite : x.isFinite with
  | true =>
    rw [display.render_of_isFinite hfinite] at h
    cases hy : y.isNaN with
    | true =>
      rw [display.render_of_isNaN hy] at h
      have htext : (display.renderFinite x).toList = ['N', 'a', 'N'] := congrArg String.toList h
      exact absurd htext (display.toList_renderFinite_ne x (by decide) (by decide) _).1
    | false =>
      cases hfinite' : y.isFinite with
      | true => exact renderFinite_inj rfl (h.trans (display.render_of_isFinite hfinite'))
      | false =>
        rw [display.render_of_infinite hy hfinite'] at h
        exact absurd h.symm (infinite_display_ne _ _)
  | false =>
    rw [display.render_of_infinite hx hfinite] at h
    cases hy : y.isNaN with
    | true =>
      rw [display.render_of_isNaN hy] at h
      exact absurd h (by cases x.isNegative <;> decide)
    | false =>
      cases hfinite' : y.isFinite with
      | true =>
        rw [display.render_of_isFinite hfinite'] at h
        exact absurd h (infinite_display_ne _ _)
      | false =>
        rw [display.render_of_infinite hy hfinite'] at h
        refine Double.eq_of_magnitude ?_ ?_
        · rw [Double.magnitude_of_infinite hx hfinite, Double.magnitude_of_infinite hy hfinite']
        · generalize x.isNegative = negative, y.isNegative = negative' at h
          revert h
          decide +revert

end Layout

end ValueFlow
