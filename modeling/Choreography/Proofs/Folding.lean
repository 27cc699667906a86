import Choreography.Integer
import Mathlib.Data.Int.Bitwise
import Mathlib.Data.Rat.Floor

/-!
Folding of bitwise operations and shifts. They are computed on two's complement forms of the least
width at which nothing is lost, so that they are exact: what an operation does to the bits it does at
every position, and a shift multiplies by a power of two and rounds down.
-/

namespace Choreography.Integer

variable {a b n : Int} {w : Nat}

/-! ### Widths -/

theorem width_bits_le_iff {m : Nat} : width.bits m ≤ w ↔ m < 2 ^ w := by
  unfold width.bits
  split
  · simp [*]
  · exact Nat.succ_le_iff.trans (Nat.log2_lt ‹_›)

/-- The numbers that a width holds are the signed words of that width. -/
theorem width_le_succ_iff : width a ≤ w + 1 ↔ -2 ^ w ≤ a ∧ a < 2 ^ w := by
  cases a <;> rw [width, Nat.succ_le_succ_iff, width_bits_le_iff] <;> zify <;> grind

theorem exists_width_eq_succ (a : Int) : ∃ k, width a = k + 1 := by
  cases a <;> exact ⟨_, rfl⟩

theorem bmod_eq_self (h : width a ≤ w) : a.bmod (2 ^ w) = a := by
  obtain ⟨k, hk⟩ := exists_width_eq_succ a
  obtain ⟨v, rfl⟩ : ∃ v, w = v + 1 := ⟨w - 1, by omega⟩
  obtain ⟨hlow, hhigh⟩ := width_le_succ_iff.1 h
  rw [← BitVec.toInt_ofInt]
  exact BitVec.toInt_ofInt_eq_self v.succ_pos hlow hhigh

theorem toInt_widen (h : width a ≤ w) : (widen a w).toInt = a := by
  rw [widen, BitVec.toInt_signExtend, Nat.min_eq_right h, BitVec.toInt_ofInt,
    bmod_eq_self le_rfl, bmod_eq_self le_rfl]

/-! ### Bits -/

/-- A form has its bits at the positions of its width, and its sign at all others. -/
theorem testBit_toInt (x : BitVec w) (i : Nat) :
    x.toInt.testBit i = if i < w then x.getLsbD i else x.msb := by
  rw [BitVec.toInt_eq_msb_cond]
  split
  · have hneg : (x.toNat : Int) - (2 ^ w : Nat) = .negSucc (2 ^ w - (x.toNat + 1)) := by
      have := x.isLt
      omega
    rw [hneg, Int.testBit, Nat.testBit_two_pow_sub_succ x.isLt, BitVec.testBit_toNat]
    split <;> simp [*]
  · have hbit : (x.toNat : Int).testBit i = x.getLsbD i := BitVec.testBit_toNat x
    rw [hbit]
    split
    · rfl
    · simp_all [BitVec.getLsbD_of_ge]

theorem testBit_eq (h : width a ≤ w) (i : Nat) :
    a.testBit i = if i < w then (widen a w).getLsbD i else (widen a w).msb := by
  rw [← testBit_toInt, toInt_widen h]

theorem testBit_combine {op : (bits : Nat) → BitVec bits → BitVec bits → BitVec bits}
    {f : Bool → Bool → Bool}
    (hop : ∀ bits x y i, (op bits x y).getLsbD i = f (x.getLsbD i) (y.getLsbD i)) (i : Nat) :
    (combine op a b).testBit i = f (a.testBit i) (b.testBit i) := by
  rw [combine, testBit_toInt, testBit_eq (a := a) (Nat.le_succ_of_le (Nat.le_max_left _ (width b))),
    testBit_eq (a := b) (Nat.le_succ_of_le (Nat.le_max_right (width a) _))]
  -- past the width the sign is combined, which is the last bit of the form
  split
  · exact hop _ _ _ i
  · simp only [BitVec.msb_eq_getLsbD_last, hop]

theorem testBit_land (a b : Int) (i : Nat) :
    (land a b).testBit i = (a.testBit i && b.testBit i) :=
  testBit_combine (fun _ _ _ _ => BitVec.getLsbD_and) i

theorem testBit_lor (a b : Int) (i : Nat) :
    (lor a b).testBit i = (a.testBit i || b.testBit i) :=
  testBit_combine (fun _ _ _ _ => BitVec.getLsbD_or) i

theorem testBit_lxor (a b : Int) (i : Nat) :
    (lxor a b).testBit i = (a.testBit i ^^ b.testBit i) :=
  testBit_combine (fun _ _ _ _ => BitVec.getLsbD_xor) i

/-- Numbers with the same bits are the same, as beyond all of them only the sign is left. -/
theorem eq_of_testBit_eq (h : ∀ i, a.testBit i = b.testBit i) : a = b := by
  obtain ⟨w, ha, hb⟩ : ∃ w, width a ≤ w ∧ width b ≤ w :=
    ⟨max (width a) (width b), Nat.le_max_left .., Nat.le_max_right ..⟩
  rw [← toInt_widen ha, ← toInt_widen hb]
  congr 1
  refine BitVec.eq_of_getLsbD_eq fun i hi => ?_
  simpa [testBit_eq ha, testBit_eq hb, hi] using h i

theorem land_eq (a b : Int) : land a b = a.land b :=
  eq_of_testBit_eq fun i => by rw [testBit_land, Int.testBit_land]

theorem lor_eq (a b : Int) : lor a b = a.lor b :=
  eq_of_testBit_eq fun i => by rw [testBit_lor, Int.testBit_lor]

theorem lxor_eq (a b : Int) : lxor a b = a.xor b :=
  eq_of_testBit_eq fun i => by rw [testBit_lxor, Int.testBit_lxor]

/-! ### Shifts -/

theorem folds_iff : folds n = true ↔ |n| ≤ 65536 := by
  have hsize : decide (n.natAbs ≤ maxShift) = true ↔ |n| ≤ 65536 := by
    rw [decide_eq_true_iff, Int.abs_eq_natAbs, maxShift]
    omega
  have hword (hn : |n| ≤ 65536) : -Int.pow 2 63 ≤ n ∧ n < Int.pow 2 63 := by
    have hpow : Int.pow 2 63 = 9223372036854775808 := rfl
    grind
  unfold folds word?
  split
  · exact hsize
  · simpa using fun hn => ‹¬_› (hword hn)

theorem folds_neg (n : Int) : folds (-n) = folds n := by
  rw [Bool.eq_iff_iff, folds_iff, folds_iff, abs_neg]

theorem width_mul_two_pow_le (a : Int) (m : Nat) : width (a * 2 ^ m) ≤ width a + m := by
  obtain ⟨k, hk⟩ := exists_width_eq_succ a
  obtain ⟨hlow, hhigh⟩ := width_le_succ_iff.1 hk.le
  rw [hk, Nat.add_right_comm, width_le_succ_iff, pow_add, ← neg_mul]
  constructor <;> gcongr

theorem shiftLeft_natCast {m : Nat} (h : folds m = true) : shiftLeft a m = some (a * 2 ^ m) := by
  have hwiden := toInt_widen (a := a) (w := width a + m + 1) (by omega)
  rw [BitVec.toInt_eq_toNat_bmod] at hwiden
  rw [shiftLeft.eq_def, if_pos h]
  refine congrArg some ?_
  rw [BitVec.toInt_shiftLeft, Nat.shiftLeft_eq]
  push_cast
  rw [← Int.bmod_mul_bmod, hwiden, bmod_eq_self (Nat.le_succ_of_le (width_mul_two_pow_le a m))]

/-- Past the width only the sign is left. -/
theorem ediv_two_pow_of_width_le {m : Nat} (h : width a ≤ m) :
    a / 2 ^ m = if a < 0 then -1 else 0 := by
  obtain ⟨hlow, hhigh⟩ := width_le_succ_iff.1 (Nat.le_succ_of_le h)
  rw [Int.ediv_eq_iff_of_pos (Int.pow_pos (by decide))]
  split <;> omega

theorem shiftRight_natCast {m : Nat} (h : folds m = true) : shiftRight a m = some (a / 2 ^ m) := by
  rw [shiftRight.eq_def, if_pos h]
  dsimp only
  split
  · rw [ediv_two_pow_of_width_le (by omega)]
  · rw [BitVec.toInt_sshiftRight, toInt_widen (by omega), Int.shiftRight_eq_div_pow]
    push_cast
    rfl

/-- A negative amount is handed to the other shift, which has an answer to its opposite. -/
theorem shiftLeft_of_neg (h : folds n = true) (hn : n < 0) : shiftLeft a n = shiftRight a (-n) := by
  obtain ⟨m, rfl⟩ := Int.eq_negSucc_of_lt_zero hn
  exact (shiftLeft.eq_def ..).trans (if_pos h)

theorem shiftRight_of_neg (h : folds n = true) (hn : n < 0) : shiftRight a n = shiftLeft a (-n) := by
  obtain ⟨m, rfl⟩ := Int.eq_negSucc_of_lt_zero hn
  exact (shiftRight.eq_def ..).trans (if_pos h)

theorem shiftLeft_of_not_folds (h : ¬folds n = true) : shiftLeft a n = none := by
  rw [shiftLeft.eq_def, if_neg h]

theorem shiftRight_of_not_folds (h : ¬folds n = true) : shiftRight a n = none := by
  rw [shiftRight.eq_def, if_neg h]

theorem shiftRight_eq_shiftLeft_neg (a n : Int) : shiftRight a n = shiftLeft a (-n) := by
  by_cases h : folds n = true
  · rcases lt_trichotomy n 0 with hn | rfl | hn
    · exact shiftRight_of_neg h hn
    · have hright : shiftRight a 0 = some (a / 2 ^ 0) := shiftRight_natCast h
      have hleft : shiftLeft a 0 = some (a * 2 ^ 0) := shiftLeft_natCast h
      rw [neg_zero, hright, hleft, pow_zero, Int.ediv_one, mul_one]
    · rw [shiftLeft_of_neg (by rwa [folds_neg]) (neg_lt_zero.2 hn), neg_neg]
  · rw [shiftRight_of_not_folds h, shiftLeft_of_not_folds (by rwa [folds_neg])]

/-- Shifting multiplies by a power of two, which may be negative, and rounds down. -/
theorem shiftLeft_eq (a n : Int) :
    shiftLeft a n = if |n| ≤ 65536 then some ⌊(a : ℚ) * 2 ^ n⌋ else none := by
  by_cases h : folds n = true
  · rw [if_pos (folds_iff.1 h)]
    obtain ⟨m, rfl | rfl⟩ := n.eq_nat_or_neg
    · rw [shiftLeft_natCast h, zpow_natCast, ← Int.floor_intCast (R := ℚ) (a * 2 ^ m)]
      push_cast
      rfl
    · rw [folds_neg] at h
      rw [← shiftRight_eq_shiftLeft_neg, shiftRight_natCast h, zpow_neg, zpow_natCast, ← div_eq_mul_inv]
      have hfloor := Rat.floor_intCast_div_natCast a (2 ^ m)
      push_cast at hfloor
      rw [hfloor]
  · rw [if_neg (mt folds_iff.2 h), shiftLeft_of_not_folds h]

/-- Every operation on bits is exact at every position, and every shift up to the largest amount is
exact but for rounding down. Larger amounts, and only these, have no result. The shifts call each
other for negative amounts, and have an answer to all of them. -/
theorem folding_exact (a b n : Int) (i : Nat) :
    ((land a b).testBit i = (a.testBit i && b.testBit i) ∧
      (lor a b).testBit i = (a.testBit i || b.testBit i) ∧
      (lxor a b).testBit i = (a.testBit i ^^ b.testBit i)) ∧
    shiftLeft a n = (if |n| ≤ 65536 then some ⌊(a : ℚ) * 2 ^ n⌋ else none) ∧
    shiftRight a n = (if |n| ≤ 65536 then some ⌊(a : ℚ) * 2 ^ (-n)⌋ else none) ∧
    shiftRight a n = shiftLeft a (-n) := by
  have hturn := shiftRight_eq_shiftLeft_neg a n
  refine ⟨⟨testBit_land a b i, testBit_lor a b i, testBit_lxor a b i⟩, shiftLeft_eq a n, ?_, hturn⟩
  rw [hturn, shiftLeft_eq, abs_neg]

end Choreography.Integer
