import Arboretum.Proofs.Binary64.Words

/-!
Rounding to the digits that a machine word has room for: it goes to a neighbour, by at most a half,
and it loses nothing of what can be written exactly.
-/
namespace Arboretum.Binary64

open Float.Model (UnpackedFloat Format totalExponent)
open Float.Model.UnpackedFloat

/-- What is left of a mantissa after `k` binary digits have been dropped, and what they were. -/
theorem shifted (m k : Nat) : ExtendedMantissa.ofMantissaAndAccuracy m .exact >>> k =
    ⟨m / 2 ^ k, decide (2 ^ k ≤ 2 * (m % 2 ^ k)),
      decide (m % 2 ^ k ≠ 0 ∧ 2 * (m % 2 ^ k) ≠ 2 ^ k)⟩ := by
  induction k with
  | zero => simp [HShiftRight.hShiftRight, Nat.repeat, ExtendedMantissa.ofMantissaAndAccuracy,
      Nat.mod_one]
  | succ k ih =>
    change (ExtendedMantissa.ofMantissaAndAccuracy m .exact >>> k).shiftRightOne = _
    have hlt := Nat.mod_lt m (Nat.two_pow_pos k)
    have hdiv : m / 2 ^ k / 2 = m / 2 ^ (k + 1) := by
      rw [Nat.div_div_eq_div_mul, pow_succ]
    rw [ih, ← hdiv, Nat.mod_pow_succ, pow_succ]
    unfold ExtendedMantissa.shiftRightOne
    generalize m % 2 ^ k = r at *
    generalize m / 2 ^ k = a
    generalize 2 ^ k = K at *
    rcases Nat.mod_two_eq_zero_or_one a with h | h
    · rw [h, Nat.mul_zero, Nat.add_zero]
      congr 1
      · simp
        omega
      · simp only [← Bool.decide_or]
        apply decide_eq_decide.mpr
        omega
    · rw [h, Nat.mul_one]
      congr 1
      · simp
        omega
      · simp only [← Bool.decide_or]
        apply decide_eq_decide.mpr
        omega

/-- Rounding goes to an integer next to a number, and by at most a half. -/
theorem rounded_bounds (m k : Nat) {q : Nat}
    (h : (ExtendedMantissa.ofMantissaAndAccuracy m .exact >>> k).roundedMantissa = q) :
    m / 2 ^ k ≤ q ∧ q ≤ m / 2 ^ k + 1 ∧ 2 * (q * 2 ^ k) ≤ 2 * m + 2 ^ k := by
  have hm := Nat.div_add_mod m (2 ^ k)
  rw [shifted] at h
  generalize m % 2 ^ k = r at *
  generalize m / 2 ^ k = a at *
  generalize 2 ^ k = K at *
  subst hm
  have hup : 2 * ((a + 1) * K) = 2 * (K * a) + 2 * K := by ring
  have hdown : 2 * (a * K) = 2 * (K * a) := by ring
  by_cases hround : K ≤ 2 * r
  · have hle : q = a ∨ q = a + 1 := by
      by_cases hsticky : r ≠ 0 ∧ 2 * r ≠ K
      · simp [ExtendedMantissa.roundedMantissa, ExtendedMantissa.accuracy, hround, hsticky,
          Accuracy.roundToNearestEven] at h
        omega
      · simp [ExtendedMantissa.roundedMantissa, ExtendedMantissa.accuracy, hround, hsticky,
          Accuracy.roundToNearestEven] at h
        omega
    rcases hle with rfl | rfl <;> omega
  · have hle : q = a := by
      by_cases hsticky : r ≠ 0 ∧ 2 * r ≠ K
      · simpa [ExtendedMantissa.roundedMantissa, ExtendedMantissa.accuracy, hround, hsticky,
          Accuracy.roundToNearestEven] using h.symm
      · simpa [ExtendedMantissa.roundedMantissa, ExtendedMantissa.accuracy, hround, hsticky,
          Accuracy.roundToNearestEven] using h.symm
    subst hle
    omega

/-- The exponent at which a number is rounded. -/
def target (m : Nat) (e : Int) : Int := max (m.log2 + e - 52) (-1074)

theorem targetExponent_eq (m : Nat) (e : Int) :
    Format.binary64.targetExponent (totalExponent m e) = target m e := by
  unfold Format.targetExponent totalExponent target
  have hmin : Format.binary64.minExponent = -1074 := rfl
  have hbits : Format.binary64.mantissaBits = 53 := rfl
  rw [hmin, hbits]
  congr 1
  omega

theorem Canonical.target {m : Nat} {e : Int} (h : Canonical m e) (hm : 0 < m) : target m e = e := by
  have hdigits := (Nat.log2_lt hm.ne').mpr h.digits
  have hlow := h.low
  have hfull := h.full
  have hlog := Nat.le_log2 (k := 52) hm.ne'
  unfold Binary64.target
  omega

/-- The number `q * 2 ^ e`, written with no more digits than there are. -/
def place (s : Sign) (q : Nat) (e : Int) : UnpackedFloat :=
  if h : q = 0 then .zero s
  else if q < 2 ^ 53 then .finite s q e (Nat.pos_of_ne_zero h)
  else .finite s (2 ^ 52) (e + 1) (by decide)

theorem shiftToTargetExponent_eq (m : Nat) (e : Int) :
    shiftToTargetExponent .binary64 m e .exact =
      (ExtendedMantissa.ofMantissaAndAccuracy m .exact >>> (target m e - e).toNat,
        e + (target m e - e).toNat) := by
  unfold shiftToTargetExponent shiftToExponent
  rw [targetExponent_eq]

/-- Where rounding has added a digit, the number is written with one digit less. -/
theorem shift_rounded {q : Nat} {e : Int} (hq : q ≤ 2 ^ 53) (he : -1074 ≤ e)
    (hfull : 2 ^ 52 ≤ q ∨ e = -1074) :
    shiftToTargetExponent .binary64 q e .exact =
      if q < 2 ^ 53 then (⟨q, false, false⟩, e) else (⟨2 ^ 52, false, false⟩, e + 1) := by
  rw [shiftToTargetExponent_eq, shifted]
  split
  · rename_i hlt
    have htarget : target q e ≤ e := by
      unfold target
      rcases Nat.eq_zero_or_pos q with rfl | hpos
      · simp
        omega
      · have hlog := (Nat.log2_lt hpos.ne').mpr hlt
        omega
    have hzero : (target q e - e).toNat = 0 := by omega
    simp [hzero, Nat.mod_one]
  · have heq : q = 2 ^ 53 := by omega
    have hone : (target q e - e).toNat = 1 := by
      unfold target
      rw [heq, Nat.log2_two_pow]
      omega
    rw [hone, heq]
    rfl

/-- A mantissa after `k` binary digits have been dropped, and what is left rounded. -/
def rounded (m k : Nat) : Nat :=
  (ExtendedMantissa.ofMantissaAndAccuracy m .exact >>> k).roundedMantissa

/-- Rounding an exact number that has too many digits. -/
theorem roundWithAccuracy_place {m : Nat} {e : Int} (s : Sign) (hm : 0 < m) (he : e ≤ target m e)
    {k : Nat} (hk : k = (target m e - e).toNat) :
    roundWithAccuracy .binary64 s m e .exact = place s (rounded m k) (target m e) ∧
      (2 ^ 52 ≤ rounded m k ∨ target m e = -1074) ∧ rounded m k ≤ 2 ^ 53 ∧
      m / 2 ^ k ≤ rounded m k ∧ 2 * (rounded m k * 2 ^ k) ≤ 2 * m + 2 ^ k := by
  obtain ⟨hfloor, hnext, hnear⟩ := rounded_bounds m k rfl
  set q := (ExtendedMantissa.ofMantissaAndAccuracy m .exact >>> k).roundedMantissa with hq
  have hplace : e + k = target m e := by omega
  have hlow : -1074 ≤ target m e := by
    unfold target
    omega
  have hfew : m / 2 ^ k < 2 ^ 53 := by
    apply Nat.div_lt_of_lt_mul
    rw [← pow_add]
    apply (Nat.log2_lt hm.ne').mp
    unfold target at hk
    omega
  have hfull : 2 ^ 52 ≤ m / 2 ^ k ∨ target m e = -1074 := by
    by_cases hleast : target m e = -1074
    · exact .inr hleast
    · left
      rw [Nat.le_div_iff_mul_le (Nat.two_pow_pos k), ← pow_add, ← Nat.le_log2 hm.ne']
      unfold target at hk hleast he
      omega
  have hfull' : 2 ^ 52 ≤ q ∨ target m e = -1074 := hfull.imp (fun h => h.trans hfloor) id
  have hmost : q ≤ 2 ^ 53 := by omega
  refine ⟨?_, hfull', hmost, hfloor, hnear⟩
  change _ = place s q _
  unfold roundWithAccuracy
  rw [shiftToTargetExponent_eq]
  dsimp only
  rw [← hk, ← hq, hplace, shift_rounded hmost hlow hfull']
  unfold place
  by_cases hzero : q = 0
  · simp [hzero]
  · by_cases hlt : q < 2 ^ 53
    · simp only [hzero, hlt, ↓reduceIte, ↓reduceDIte]
    · simp only [hzero, hlt, ↓reduceIte, ↓reduceDIte]
      rfl

theorem roundWithAccuracy_exact {m : Nat} {e : Int} (s : Sign) (hm : 0 < m) (he : e ≤ target m e) :
    ∃ q, roundWithAccuracy .binary64 s m e .exact = place s q (target m e) ∧
      (2 ^ 52 ≤ q ∨ target m e = -1074) ∧ q ≤ 2 ^ 53 ∧ m / 2 ^ (target m e - e).toNat ≤ q ∧
      2 * (q * 2 ^ (target m e - e).toNat) ≤ 2 * m + 2 ^ (target m e - e).toNat :=
  ⟨_, roundWithAccuracy_place s hm he rfl⟩

theorem log2_mul_two_pow {m : Nat} (hm : 0 < m) (j : Nat) : (m * 2 ^ j).log2 = m.log2 + j := by
  apply (Nat.log2_eq_iff (by positivity)).mpr
  have hle := Nat.log2_self_le hm.ne'
  have hlt := Nat.lt_log2_self (n := m)
  rw [pow_add, show m.log2 + j + 1 = m.log2 + 1 + j by omega, pow_add]
  exact ⟨Nat.mul_le_mul_right _ hle, Nat.mul_lt_mul_of_pos_right hlt (by positivity)⟩

theorem decreaseExponent_eq (m : Nat) (e f : Int) :
    decreaseExponent m e f = (m * 2 ^ (e - f).toNat, e - (e - f).toNat) := by
  simp only [decreaseExponent, Nat.shiftLeft_eq]

/-- Rounding an exact number that may have too few digits. -/
theorem round_le_target {m : Nat} {e : Int} (s : Sign) (he : e ≤ target m e) :
    UnpackedFloat.round .binary64 s m e = roundWithAccuracy .binary64 s m e .exact := by
  have hzero : (e - target m e).toNat = 0 := by omega
  unfold UnpackedFloat.round
  rw [targetExponent_eq]
  dsimp only
  rw [decreaseExponent_eq, hzero]
  simp

/-- Nothing is lost in rounding what can be written. -/
theorem roundWithAccuracy_canonical (s : Sign) {n : Nat} {f : Int} (hn : 0 < n)
    (hc : Canonical n f) (j : Nat) :
    roundWithAccuracy .binary64 s (n * 2 ^ j) (f - j) .exact = .finite s n f hn := by
  have htarget : target (n * 2 ^ j) (f - j) = f := by
    have heq := hc.target hn
    unfold target at heq ⊢
    rw [log2_mul_two_pow hn]
    omega
  have hshift : (f - (f - j)).toNat = j := by omega
  obtain ⟨q, hq, -, -, hfloor, hnear⟩ := roundWithAccuracy_exact s (m := n * 2 ^ j) (e := f - j)
    (by positivity) (by omega)
  rw [htarget, hshift] at hfloor hnear
  rw [Nat.mul_div_cancel _ (Nat.two_pow_pos j)] at hfloor
  have hle : q ≤ n := by
    by_contra hlt
    have hmul : (n + 1) * 2 ^ j ≤ q * 2 ^ j := Nat.mul_le_mul_right _ (by omega)
    have hpos := Nat.two_pow_pos j
    rw [Nat.add_mul] at hmul
    omega
  obtain rfl : q = n := Nat.le_antisymm hle hfloor
  rw [hq, htarget]
  unfold place
  rw [dif_neg hn.ne', if_pos hc.digits]

/-- Integers below `2 ^ 53` are written exactly. -/
theorem unpack_ofNat {n : Nat} (hn : 0 < n) (hsmall : n < 2 ^ 53) :
    ∃ (j : Nat) (h : 0 < n * 2 ^ j),
      (Float.ofNat n).toModel.unpack = .finite .positive (n * 2 ^ j) (-j) h ∧
        Canonical (n * 2 ^ j) (-j) := by
  have hlog := (Nat.log2_lt hn.ne').mpr hsmall
  set j := 52 - n.log2 with hj
  have hpos : 0 < n * 2 ^ j := by positivity
  have hc : Canonical (n * 2 ^ j) (-j) := by
    have hlt := Nat.lt_log2_self (n := n)
    have hle := Nat.log2_self_le hn.ne'
    refine ⟨?_, by omega, .inl ?_⟩
    · calc n * 2 ^ j < 2 ^ (n.log2 + 1) * 2 ^ j := Nat.mul_lt_mul_of_pos_right hlt (by positivity)
        _ = 2 ^ 53 := by rw [← pow_add]; congr 1; omega
    · calc 2 ^ 52 = 2 ^ n.log2 * 2 ^ j := by rw [← pow_add]; congr 1; omega
        _ ≤ n * 2 ^ j := Nat.mul_le_mul_right _ hle
  have htidy : Tidy (.finite .positive (n * 2 ^ j) (-j) hpos) := ⟨hc, by omega⟩
  have hint : UnpackedFloat.ofInt .binary64 n = .finite .positive (n * 2 ^ j) (-j) hpos := by
    have hgt : compare (n : Int) 0 = .gt := by
      rw [compare_gt_iff_gt]
      omega
    have htarget : target n 0 = -j := by
      unfold target
      omega
    have hexact := roundWithAccuracy_canonical .positive hpos hc 0
    rw [pow_zero, Nat.mul_one, Nat.cast_zero, Int.sub_zero] at hexact
    unfold UnpackedFloat.ofInt UnpackedFloat.normalize
    rw [hgt]
    dsimp only
    unfold UnpackedFloat.round
    rw [targetExponent_eq]
    dsimp only
    rw [decreaseExponent_eq, Int.toNat_natCast, htarget, ← hexact]
    simp
  have hone : (Float.ofBits 0x3FF0000000000000).toModel.unpack =
      .finite .positive (2 ^ 52) (-52) (by decide) := rfl
  have hword : (n.toUInt64.toFloat).toModel.unpack = .finite .positive (n * 2 ^ j) (-j) hpos := by
    change (Float.Model.pack (UnpackedFloat.ofInt .binary64 (n.toUInt64.toNat : Int))).unpack = _
    rw [UInt64.toNat_ofNat', Nat.mod_eq_of_lt (by omega), hint, unpack_pack_tidy htidy]
  have hfast : Float.ofNat n = n.toUInt64.toFloat * Float.ofBits 0x3FF0000000000000 := by
    change Float.ofScientific n false 0 = _
    unfold Float.ofScientific
    rw [dif_pos ⟨hsmall, by decide⟩]
    rfl
  refine ⟨j, hpos, ?_, hc⟩
  rw [hfast]
  change (Float.Model.pack (UnpackedFloat.mul .binary64 n.toUInt64.toFloat.toModel.unpack
    (Float.ofBits 0x3FF0000000000000).toModel.unpack)).unpack = _
  rw [hword, hone]
  change (Float.Model.pack (roundWithAccuracy .binary64 .positive (n * 2 ^ j * 2 ^ 52)
    (-j - (52 : Nat)) .exact)).unpack = _
  rw [roundWithAccuracy_canonical .positive hpos hc 52, unpack_pack_tidy htidy]

end Arboretum.Binary64
