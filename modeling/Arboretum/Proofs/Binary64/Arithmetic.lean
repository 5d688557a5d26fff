import Arboretum.Proofs.Binary64.Rounding
import Arboretum.Proofs.Lawful

/-!
What rounding leaves of the laws of arithmetic: a sum is not below what is added to, a share of a
whole is less than the whole, and products and lengths keep their sign.
-/
namespace Arboretum.Binary64

open Float.Model (UnpackedFloat Format)
open Float.Model.UnpackedFloat

/-! ### Sums -/

/-- In a machine word, a number with a larger exponent or mantissa is no smaller. -/
theorem le_pack {m n : Nat} {e f : Int} (hm : 0 < m) (hn : 0 < n) (hc : Canonical m e)
    (hhigh : e ≤ 971) (hd : Canonical n f) (h : e < f ∨ e = f ∧ m ≤ n) :
    (UnpackedFloat.finite .positive m e hm).le
      (Float.Model.pack (.finite .positive n f hn)).unpack = true := by
  rw [unpack_pack hn hd]
  split
  · rfl
  · rename_i hsmall
    have hu : Tidy (.finite .positive m e hm) := ⟨hc, hhigh⟩
    have hv : Tidy (.finite .positive n f hn) := ⟨hd, Int.not_lt.mp hsmall⟩
    rw [le_iff_key hu hv]
    refine ⟨by simp, by simp, ?_⟩
    have hdigits := hc.digits
    simp only [key, Sign.apply]
    omega

theorem le_place {m q : Nat} {e f : Int} (hm : 0 < m) (hc : Canonical m e) (hhigh : e ≤ 971)
    (hq : q ≤ 2 ^ 53) (hfull : 2 ^ 52 ≤ q ∨ f = -1074) (h : e < f ∨ e = f ∧ m ≤ q) :
    (UnpackedFloat.finite .positive m e hm).le (Float.Model.pack (place .positive q f)).unpack =
      true := by
  have hlow := hc.low
  have hdigits := hc.digits
  have hne : q ≠ 0 := by omega
  unfold place
  rw [dif_neg hne]
  split
  · rename_i hlt
    exact le_pack hm _ hc hhigh ⟨hlt, by omega, hfull⟩ h
  · refine le_pack hm _ hc hhigh ⟨by decide, by omega, .inl (Nat.le_refl _)⟩ ?_
    omega

/-- Adding to a number what is not negative does not make it smaller, however it is rounded. -/
theorem le_round_add {m n : Nat} {e f : Int} (hm : 0 < m) (hn : 0 < n) (hc : Canonical m e)
    (hhigh : e ≤ 971) :
    (UnpackedFloat.finite .positive m e hm).le
      (Float.Model.pack (UnpackedFloat.add .binary64 (.finite .positive m e hm)
        (.finite .positive n f hn))).unpack = true := by
  have hpos : 0 < m * 2 ^ (e - min e f).toNat := by positivity
  set M := m * 2 ^ (e - min e f).toNat + n * 2 ^ (f - min e f).toNat with hM
  have hle : m * 2 ^ (e - min e f).toNat ≤ M := Nat.le_add_right _ _
  have hlog : m.log2 + (e - min e f).toNat ≤ M.log2 := by
    rw [← log2_mul_two_pow hm, Nat.le_log2 (by omega)]
    exact (Nat.log2_self_le hpos.ne').trans hle
  have htarget := hc.target hm
  have hlarger : e ≤ target M (min e f) := by
    unfold target at htarget ⊢
    omega
  have hround : UnpackedFloat.add .binary64 (.finite .positive m e hm) (.finite .positive n f hn) =
      roundWithAccuracy .binary64 .positive M (min e f) .exact := by
    unfold UnpackedFloat.add
    dsimp only
    rw [decreaseExponent_eq, decreaseExponent_eq, ← round_le_target _ (by omega)]
    have hgt : compare ((M : Nat) : Int) 0 = .gt := by
      rw [compare_gt_iff_gt]
      omega
    change UnpackedFloat.normalize .binary64 ((M : Nat) : Int) (min e f) .positive = _
    unfold UnpackedFloat.normalize
    rw [hgt]
    rfl
  obtain ⟨q, hq, hfull, hmost, hfloor, -⟩ := roundWithAccuracy_exact (m := M) .positive
    (by omega) (e := min e f) (by omega)
  rw [hround, hq]
  refine le_place hm hc hhigh hmost hfull ?_
  rcases Int.lt_or_eq_of_le hlarger with hlt | heq
  · exact .inl hlt
  · refine .inr ⟨heq, le_trans ?_ hfloor⟩
    rw [← heq, Nat.le_div_iff_mul_le (Nat.two_pow_pos _)]
    exact hle

theorem le_add {a b : Float} (ha : 0 ≤ a) (hb : 0 ≤ b) : a ≤ a + b := by
  have hta := tidy_unpack a.toModel
  have htb := tidy_unpack b.toModel
  have hself : a ≤ a := by
    rw [le_iff_words] at ha ⊢
    exact ⟨ha.2.1, ha.2.1, le_refl _⟩
  rw [le_iff] at hself ⊢
  change a.toModel.unpack.le (Float.Model.pack
    (UnpackedFloat.add .binary64 a.toModel.unpack b.toModel.unpack)).unpack = true
  have hna := natural_of_le ha
  have hnb := natural_of_le hb
  generalize a.toModel.unpack = u at *
  generalize b.toModel.unpack = v at *
  have hinf {u v : UnpackedFloat} (h : UnpackedFloat.add .binary64 u v = .infinity .positive)
      (hle : u.le (.infinity .positive) = true) :
      u.le (Float.Model.pack (UnpackedFloat.add .binary64 u v)).unpack = true := by
    rw [h, unpack_pack_tidy (u := .infinity .positive) trivial]
    exact hle
  cases hna with
  | infinity => cases hnb <;> exact hinf rfl rfl
  | zero s =>
    cases hnb with
    | infinity => exact hinf rfl rfl
    | zero t => cases s <;> cases t <;> rfl
    | finite n f hn =>
      change UnpackedFloat.le _ (Float.Model.pack (.finite .positive n f hn)).unpack = true
      rw [unpack_pack_tidy htb]
      rfl
  | finite m e hm =>
    cases hnb with
    | infinity => exact hinf rfl rfl
    | zero t =>
      change UnpackedFloat.le _ (Float.Model.pack (.finite .positive m e hm)).unpack = true
      rw [unpack_pack_tidy hta]
      exact hself
    | finite n f hn => exact le_round_add hm hn hta.1 hta.2

/-! ### Shares -/

theorem floorScaled_lt {x n : Nat} {e : Int} (he : e ≤ 0) (h : x < n * 2 ^ (-e).toNat) :
    floorScaled x e < n := by
  unfold floorScaled
  split
  · obtain rfl : e = 0 := by omega
    simpa [twoTo] using h
  · apply Int.ediv_lt_of_lt_mul
    · exact_mod_cast Nat.two_pow_pos _
    · exact_mod_cast h

/-- The product of a number below one and a whole number is rounded to less than the whole. -/
theorem share_lt {m n : Nat} {e f : Int} {q : Nat} (hm : 0 < m) (hc : Canonical m e)
    (hsmall : e ≤ -53) (hn : 2 ^ 52 ≤ n) (hd : Canonical n f) (hf : -52 ≤ f) (hf0 : f ≤ 0)
    (hq : q ≤ 2 ^ 53)
    (hnear : 2 * (q * 2 ^ (target (m * n) (e + f) - (e + f)).toNat) ≤
      2 * (m * n) + 2 ^ (target (m * n) (e + f) - (e + f)).toNat) :
    target (m * n) (e + f) ≤ f ∧ q < n * 2 ^ (f - target (m * n) (e + f)).toNat := by
  have hmd := hc.digits
  have hnd := hd.digits
  have hmn : m * n < 2 ^ 106 := by nlinarith
  have hlog : (m * n).log2 < 106 := (Nat.log2_lt (by positivity)).mpr hmn
  have hleast : 52 ≤ (m * n).log2 := by
    rw [Nat.le_log2 (by positivity)]
    nlinarith
  have htarget : target (m * n) (e + f) = (m * n).log2 + (e + f) - 52 ∨
      target (m * n) (e + f) = -1074 := by
    unfold target
    omega
  have hle : target (m * n) (e + f) ≤ f := by
    omega
  refine ⟨hle, ?_⟩
  have hlow : e + f ≤ target (m * n) (e + f) := by
    unfold target
    omega
  generalize target (m * n) (e + f) = E at *
  set k := (E - (e + f)).toNat with hk
  set d := (f - E).toNat with hdd
  by_contra hge
  rcases htarget with hE | hE
  · have hk53 : k ≤ 53 := by omega
    have hpow : 2 ^ 53 ≤ 2 ^ d * 2 ^ k := by
      rw [← pow_add]
      exact Nat.pow_le_pow_right (by decide) (by omega)
    have hprod : n * 2 ^ d * 2 ^ k ≤ q * 2 ^ k := Nat.mul_le_mul_right _ (by omega)
    have hbig : n * 2 ^ 53 ≤ n * (2 ^ d * 2 ^ k) := Nat.mul_le_mul_left _ hpow
    have hmle : (m + 1) * n ≤ 2 ^ 53 * n := Nat.mul_le_mul_right _ (by omega)
    have hkn : 2 * n ≤ 2 ^ k := by
      rw [Nat.mul_assoc] at hprod
      rw [Nat.add_mul] at hmle
      omega
    have hk : k = 53 := by
      by_contra hne
      have := Nat.pow_le_pow_right (n := 2) (by decide) (show k ≤ 52 by omega)
      omega
    rw [hk] at hkn
    have hn52 : n = 2 ^ 52 := by omega
    have hlogm := (Nat.log2_lt hm.ne').mpr hmd
    rw [hn52, log2_mul_two_pow hm] at hE
    omega
  · have hpow : 2 ^ 2 ≤ 2 ^ d := Nat.pow_le_pow_right (by decide) (by omega)
    have hmul : 2 ^ 52 * 2 ^ 2 ≤ n * 2 ^ d := Nat.mul_le_mul hn hpow
    omega

theorem floor_zero {x : Float} {s : Sign} (h : x.toModel.unpack = .zero s) : floor x = .ok 0 := by
  simp only [floor, h]

theorem floor_finite {x : Float} {s : Sign} {m : Nat} {e : Int} {hm : 0 < m}
    (h : x.toModel.unpack = .finite s m e hm) : floor x = .ok (floorScaled (s.apply m) e) := by
  simp only [floor, h]

/-- What lies below a whole number has its floor below it. -/
theorem floor_place {q n : Nat} {e : Int} {x : Float}
    (hx : x.toModel = Float.Model.pack (place .positive q e)) (hn : 0 < n) (hsmall : n < 2 ^ 53)
    (he : e ≤ 0) (hlow : -1074 ≤ e) (hfull : 2 ^ 52 ≤ q ∨ e = -1074) (hq : q ≤ 2 ^ 53)
    (h : q < n * 2 ^ (-e).toNat) : ∃ t, floor x = .ok t ∧ t < n := by
  unfold place at hx
  split at hx
  · have hword : x.toModel.unpack = .zero .positive := by
      rw [hx, unpack_pack_tidy (u := .zero .positive) trivial]
    exact ⟨0, floor_zero hword, by omega⟩
  · rename_i hne
    split at hx
    · rename_i hlt
      have hword : x.toModel.unpack = .finite .positive q e (Nat.pos_of_ne_zero hne) := by
        rw [hx]
        apply unpack_pack_tidy
        exact ⟨⟨hlt, hlow, hfull⟩, by omega⟩
      exact ⟨_, floor_finite hword, floorScaled_lt he h⟩
    · have htop : q = 2 ^ 53 := by omega
      have hneg : e ≠ 0 := by
        rintro rfl
        simp only [Int.neg_zero, Int.toNat_zero, pow_zero, Nat.mul_one] at h
        omega
      have hword : x.toModel.unpack = .finite .positive (2 ^ 52) (e + 1) (by decide) := by
        rw [hx]
        apply unpack_pack_tidy
        exact ⟨⟨by decide, by omega, .inl (Nat.le_refl _)⟩, by omega⟩
      refine ⟨_, floor_finite hword, floorScaled_lt (by omega) ?_⟩
      have hstep : (-e).toNat = (-(e + 1)).toNat + 1 := by omega
      rw [hstep, pow_succ, ← Nat.mul_assoc, htop] at h
      omega

/-- A share of a whole number that is less than all of it has its floor below the number, however
it is rounded. -/
theorem floor_mul_lt {g : Float} {n : Nat} (hn : 0 < n) (hsmall : n < 2 ^ 53) (h0 : 0 ≤ g)
    (h1 : g < 1) : ∃ t, floor (g * Float.ofNat n) = .ok t ∧ t < n := by
  obtain ⟨j, hpos, hword, hd⟩ := unpack_ofNat hn hsmall
  have hmul : (g * Float.ofNat n).toModel = Float.Model.pack
    (UnpackedFloat.mul .binary64 g.toModel.unpack (Float.ofNat n).toModel.unpack) := rfl
  have htidy := tidy_unpack g.toModel
  have hnat := natural_of_le h0
  have hle := (le_iff_words.mp (le_of_lt h1)).2.2
  rw [lt_iff] at h1
  rw [unpack_one] at h1 hle
  rw [hword] at hmul
  generalize g.toModel.unpack = u at *
  cases hnat with
  | infinity => cases h1
  | zero s =>
    have hword := unpack_pack_tidy (u := .zero (s * .positive)) trivial
    exact ⟨0, floor_zero ((congrArg Float.Model.unpack hmul).trans hword), by omega⟩
  | finite m e hm =>
    have hc := htidy.1
    have hbelow : e ≤ -53 := by
      have hfull := hc.full
      simp only [key, Sign.apply] at hle
      have hne : ¬ (e = -52 ∧ m = 2 ^ 52) := by
        rintro ⟨rfl, rfl⟩
        simp [UnpackedFloat.lt, UnpackedFloat.compare] at h1
      omega
    have hdigits := hd.digits
    have hj : j ≤ 52 := by
      by_contra hlt
      have hpow : 2 ^ 53 ≤ 2 ^ j := Nat.pow_le_pow_right (by decide) (by omega)
      have := Nat.le_mul_of_pos_left (2 ^ j) hn
      omega
    have hfull : 2 ^ 52 ≤ n * 2 ^ j := hd.full.resolve_right (by omega)
    have hlog : 52 ≤ (m * (n * 2 ^ j)).log2 := by
      rw [Nat.le_log2 (by positivity)]
      exact hfull.trans (Nat.le_mul_of_pos_left _ hm)
    obtain ⟨q, hq, hqfull, hmost, -, hnear⟩ := roundWithAccuracy_exact .positive
      (m := m * (n * 2 ^ j)) (e := e + -j) (by positivity) (by unfold target; omega)
    obtain ⟨htarget, hlt⟩ := share_lt hm hc hbelow hfull hd (by omega) (by omega) hmost hnear
    refine floor_place (hmul.trans (congrArg _ hq)) hn hsmall (by omega) (by unfold target; omega)
      hqfull hmost ?_
    generalize target (m * (n * 2 ^ j)) (e + -j) = E at *
    rw [Nat.mul_assoc, ← pow_add] at hlt
    have hexp : j + (-j - E).toNat = (-E).toNat := by omega
    rwa [hexp] at hlt

/-! ### Signs -/

def isNegative : UnpackedFloat → Bool
  | .infinity s | .finite s _ _ _ => s == .negative
  | _ => false

theorem lt_zero_iff {a : Float} : a < 0 ↔ isNegative a.toModel.unpack = true := by
  rw [lt_iff, unpack_zero]
  generalize a.toModel.unpack = u
  cases u with
  | notANumber => decide
  | infinity s => cases s <;> decide
  | zero s => cases s <;> decide
  | finite s m e hm => cases s <;> exact Iff.rfl

theorem isNegative_packComponents {e : BitVec 11} {m : BitVec 52} :
    isNegative (UnpackedFloat.unpack .binary64 (packComponents .binary64 .positive e m)) =
      false := by
  rw [unpack_packComponents]
  split
  · split <;> rfl
  · split
    · split <;> rfl
    · rfl

/-- A word does not change a sign. -/
theorem isNegative_pack {u : UnpackedFloat} (h : isNegative u = false) :
    isNegative (Float.Model.pack u).unpack = false := by
  cases u with
  | notANumber => rfl
  | infinity s =>
    cases s with
    | negative => cases h
    | positive => rfl
  | zero s => cases s <;> rfl
  | finite s m e hm =>
    cases s with
    | negative => cases h
    | positive =>
      change isNegative (UnpackedFloat.unpack .binary64
        (UnpackedFloat.pack .binary64 (.finite .positive m e hm))) = false
      unfold UnpackedFloat.pack
      dsimp only
      split
      · exact isNegative_packComponents
      · split
        · exact isNegative_packComponents
        · exact isNegative_packComponents

theorem isNegative_roundWithAccuracy (m : Nat) (e : Int) (a : Accuracy) :
    isNegative (roundWithAccuracy .binary64 .positive m e a) = false := by
  unfold roundWithAccuracy
  dsimp only
  split <;> rfl

theorem not_mul_lt_zero {a b : Float} (ha : ¬ a < 0) (hb : 0 < b) : ¬ a * b < 0 := by
  have hnat := natural_of_le (le_of_lt hb)
  rw [lt_zero_iff, Bool.not_eq_true] at ha ⊢
  apply isNegative_pack (u := UnpackedFloat.mul .binary64 a.toModel.unpack b.toModel.unpack)
  rw [lt_iff, unpack_zero] at hb
  generalize a.toModel.unpack = u at *
  generalize b.toModel.unpack = v at *
  cases hnat with
  | zero s => cases hb
  | infinity =>
    cases u with
    | notANumber => rfl
    | infinity s => cases s <;> first | rfl | cases ha
    | zero s => rfl
    | finite s m e hm => cases s <;> first | rfl | cases ha
  | finite n f hn =>
    cases u with
    | notANumber => rfl
    | infinity s => cases s <;> first | rfl | cases ha
    | zero s => rfl
    | finite s m e hm =>
      cases s with
      | negative => cases ha
      | positive => exact isNegative_roundWithAccuracy _ _ _

theorem not_abs_lt_zero (a : Float) : ¬ a.abs < 0 := by
  rw [lt_zero_iff, Bool.not_eq_true]
  apply isNegative_pack (u := a.toModel.unpack.abs)
  cases a.toModel.unpack <;> rfl

theorem not_hypot_lt_zero (x y : Float) : ¬ hypot x y < 0 := by
  unfold hypot
  split
  · decide
  · decide
  · rename_i hx _
    rw [lt_zero_iff, hx]
    exact Bool.false_ne_true
  · rename_i hy _ _
    rw [lt_zero_iff, hy]
    exact Bool.false_ne_true
  · exact not_abs_lt_zero y
  · exact not_abs_lt_zero x
  · dsimp only
    split
    · rw [lt_zero_iff, Bool.not_eq_true]
      exact isNegative_pack (isNegative_roundWithAccuracy _ _ _)
    · decide

theorem not_sqrt_lt_zero (a : Float) : ¬ a.sqrt < 0 := by
  rw [lt_zero_iff, Bool.not_eq_true]
  apply isNegative_pack (u := UnpackedFloat.sqrt .binary64 a.toModel.unpack)
  cases a.toModel.unpack with
  | notANumber => rfl
  | infinity s => cases s <;> rfl
  | zero s => rfl
  | finite s m e hm =>
    cases s with
    | negative => rfl
    | positive => exact isNegative_roundWithAccuracy _ _ _

instance : Scalar.Rooted Float where
  not_sqrt_lt_zero := not_sqrt_lt_zero

instance : Scalar.Lawful Float where
  le_trans h h' := by
    rw [le_iff_words] at h h' ⊢
    exact ⟨h.1, h'.2.1, h.2.2.trans h'.2.2⟩
  le_of_lt := le_of_lt
  le_self h := by
    rw [le_iff_words] at h
    exact ⟨le_iff_words.mpr ⟨h.1, h.1, le_refl _⟩, le_iff_words.mpr ⟨h.2.1, h.2.1, le_refl _⟩⟩
  zero_lt_one := by decide
  le_add := le_add
  not_mul_lt_zero := not_mul_lt_zero
  not_hypot_lt_zero := not_hypot_lt_zero

end Arboretum.Binary64
