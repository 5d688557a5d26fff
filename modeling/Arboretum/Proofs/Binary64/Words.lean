import Arboretum.Binary64
import Mathlib

/-!
Machine words as numbers: which mantissas and exponents a word can hold, that a number which fits
comes back out of its word, and the order of words as an order of integers.
-/
namespace Arboretum.Binary64

open Float.Model (UnpackedFloat Format)
open Float.Model.UnpackedFloat

theorem le_iff {a b : Float} : a ≤ b ↔ a.toModel.unpack.le b.toModel.unpack = true := by
  change decide (a.toModel ≤ b.toModel) = true ↔ _
  rw [decide_eq_true_iff]
  exact Iff.rfl

theorem lt_iff {a b : Float} : a < b ↔ a.toModel.unpack.lt b.toModel.unpack = true := by
  change decide (a.toModel < b.toModel) = true ↔ _
  rw [decide_eq_true_iff]
  exact Iff.rfl

/-- The mantissa and the exponent of a number that is written with as many digits as there are. -/
structure Canonical (m : Nat) (e : Int) : Prop where
  digits : m < 2 ^ 53
  low : -1074 ≤ e
  full : 2 ^ 52 ≤ m ∨ e = -1074

/-- Numbers as they come out of a machine word. -/
def Tidy : UnpackedFloat → Prop
  | .finite _ m e _ => Canonical m e ∧ e ≤ 971
  | _ => True

theorem toNat_implicit (mantissa : BitVec 52) :
    (1#1 ++ mantissa).toNat = 2 ^ 52 + mantissa.toNat := by
  rw [BitVec.toNat_append, BitVec.toNat_one (by decide), Nat.shiftLeft_eq, Nat.one_mul]
  exact (Nat.two_pow_add_eq_or_of_lt mantissa.isLt 1).symm

/-- Every word holds a number with all its digits. -/
theorem tidy_unpack (f : Float.Model) : Tidy f.unpack := by
  have hbias : ((Format.binary64.exponentBias : Nat) : Int) = 1023 := rfl
  unfold Float.Model.unpack UnpackedFloat.unpack
  dsimp only
  have hexponent := (@unpackExponent .binary64 f.toBits.toBitVec).isLt
  have hmantissa := (@unpackMantissa .binary64 f.toBits.toBitVec).isLt
  rw [hbias]
  split
  · split <;> trivial
  · rename_i hlast
    rw [← BitVec.toNat_inj] at hlast
    split
    · rename_i hfirst
      split
      · trivial
      · rw [hfirst]
        refine ⟨⟨?_, ?_, .inr ?_⟩, ?_⟩
        · exact hmantissa.trans (by decide)
        · decide
        · rfl
        · decide
    · rename_i hfirst
      rw [← BitVec.toNat_inj] at hfirst
      have himplicit := toNat_implicit (@unpackMantissa .binary64 f.toBits.toBitVec)
      simp only [BitVec.reduceNeg, BitVec.reduceToNat] at hlast hfirst hexponent hmantissa
      refine ⟨⟨?_, ?_, .inl ?_⟩, ?_⟩
      · rw [himplicit]
        omega
      · omega
      · rw [himplicit]
        omega
      · omega

theorem unpack_packComponents {s : Sign} {e : BitVec 11} {m : BitVec 52} :
    UnpackedFloat.unpack .binary64 (packComponents .binary64 s e m) =
      if e = -1#11 then if m = 0#52 then .infinity s else .notANumber
      else if e = 0#11 then
        if h : m = 0#52 then .zero s
        else .finite s m.toNat (-1074) (by simpa [BitVec.toNat_pos, BitVec.pos_iff_ne_zero])
      else .finite s (1#1 ++ m).toNat (e.toNat - 1075) (by rw [toNat_implicit]; omega) := by
  unfold UnpackedFloat.unpack
  simp only [unpackMantissa_packComponents, unpackExponent_packComponents,
    unpackSign_packComponents, Sign.ofBitVec_toBitVec]
  split
  · rfl
  · split
    · split
      · rfl
      · rename_i he _
        simp [he, Format.exponentBias]
    · simp [Format.exponentBias]

theorem pack_finite {s : Sign} {m : Nat} {e : Int} (h : 0 < m) (hc : Canonical m e) :
    UnpackedFloat.pack .binary64 (.finite s m e h) =
      if 971 < e then packedInfinity .binary64 s
      else if 2 ^ 52 ≤ m then
        packComponents .binary64 s (BitVec.ofNat 11 (e + 1075).toNat) (BitVec.ofNat 52 m)
      else packComponents .binary64 s 0#11 (BitVec.ofNat 52 m) := by
  have hlow := hc.low
  have hlarge : 2 ^ 11 ≤ (e + 1075).toNat + 1 ↔ 971 < e := by omega
  have hfull : m.log2 + 1 = 53 ↔ 2 ^ 52 ≤ m := by
    have hlt := (Nat.log2_lt h.ne').mpr hc.digits
    have hle := Nat.le_log2 (k := 52) h.ne'
    omega
  have hbias : e + (1023 : Nat) + (52 : Nat) = e + 1075 := by omega
  change (if 2 ^ 11 ≤ (e + (1023 : Nat) + (52 : Nat)).toNat + 1 then _
    else if m.log2 + 1 = 53 then
      packComponents .binary64 s (BitVec.ofNat 11 (e + (1023 : Nat) + (52 : Nat)).toNat) _
    else _) = _
  simp only [hbias, hlarge, hfull]

theorem unpack_pack {s : Sign} {m : Nat} {e : Int} (h : 0 < m) (hc : Canonical m e) :
    (Float.Model.pack (.finite s m e h)).unpack =
      if 971 < e then .infinity s else .finite s m e h := by
  have hdigits := hc.digits
  have hlow := hc.low
  have hfull := hc.full
  change UnpackedFloat.unpack .binary64 (UnpackedFloat.pack .binary64 (.finite s m e h)) = _
  rw [pack_finite h hc]
  split
  · exact unpack_packComponents
  · rename_i hlarge
    split
    · rename_i hnormal
      have hexp : (BitVec.ofNat 11 (e + 1075).toNat).toNat = (e + 1075).toNat := by
        rw [BitVec.toNat_ofNat]
        omega
      have hm : (1#1 ++ BitVec.ofNat 52 m).toNat = m := by
        rw [toNat_implicit, BitVec.toNat_ofNat]
        omega
      have he : ((BitVec.ofNat 11 (e + 1075).toNat).toNat : Int) - 1075 = e := by
        rw [hexp]
        omega
      have hlast : BitVec.ofNat 11 (e + 1075).toNat ≠ -1#11 := by
        intro heq
        rw [heq] at hexp
        simp at hexp
        omega
      have hfirst : BitVec.ofNat 11 (e + 1075).toNat ≠ 0#11 := by
        intro heq
        rw [heq] at hexp
        simp at hexp
        omega
      rw [unpack_packComponents, if_neg hlast, if_neg hfirst]
      simp only [hm, he]
    · rename_i hsub
      have hm : (BitVec.ofNat 52 m).toNat = m := by
        rw [BitVec.toNat_ofNat]
        omega
      have he : e = -1074 := by omega
      have hzero : BitVec.ofNat 52 m ≠ 0#52 := by
        intro heq
        rw [heq] at hm
        simp at hm
        omega
      rw [unpack_packComponents, if_neg (by decide), if_pos rfl, dif_neg hzero]
      simp only [hm, he]

theorem unpack_pack_tidy {u : UnpackedFloat} (h : Tidy u) : (Float.Model.pack u).unpack = u := by
  cases u with
  | notANumber => rfl
  | infinity s => cases s <;> rfl
  | zero s => cases s <;> rfl
  | finite s m e hm =>
    rw [unpack_pack hm h.1]
    exact if_neg (Int.not_lt.mpr h.2)

/-! ### Order -/

/-- Integers in the order of the numbers that they stand for. -/
def key : UnpackedFloat → Int
  | .infinity s => s.apply (2 ^ 64)
  | .finite s m e _ => s.apply ((e + 1075) * 2 ^ 53 + m)
  | _ => 0

/-- Of two numbers with all their digits, the one with the larger exponent is the larger. -/
theorem then_compare {m n : Nat} {e f : Int} (hm : Canonical m e) (hn : Canonical n f) :
    (compare e f).then (compare m n) =
      compare ((e + 1075) * 2 ^ 53 + m) ((f + 1075) * 2 ^ 53 + n) := by
  have hm := hm.digits
  have hn := hn.digits
  rcases lt_trichotomy e f with hlt | rfl | hgt
  · have hkeys : (e + 1075) * 2 ^ 53 + m < (f + 1075) * 2 ^ 53 + n := by omega
    rw [compare_lt_iff_lt.mpr hlt, compare_lt_iff_lt.mpr hkeys, Ordering.lt_then]
  · rw [compare_eq_iff_eq.mpr rfl, Ordering.eq_then, Nat.compare_eq_ite_lt, Int.compare_eq_ite_lt]
    simp
  · have hkeys : (f + 1075) * 2 ^ 53 + n < (e + 1075) * 2 ^ 53 + m := by omega
    rw [compare_gt_iff_gt.mpr hgt, compare_gt_iff_gt.mpr hkeys, Ordering.gt_then]

theorem key_bounds {m : Nat} {e : Int} (hm : 0 < m) (h : Canonical m e) (he : e ≤ 971) :
    0 < (e + 1075) * 2 ^ 53 + m ∧ (e + 1075) * 2 ^ 53 + m < 2 ^ 64 := by
  have hdigits := h.digits
  have hlow := h.low
  omega

theorem compare_key {u v : UnpackedFloat} (hu : Tidy u) (hv : Tidy v) (hnu : u ≠ .notANumber)
    (hnv : v ≠ .notANumber) : u.compare v = some (compare (key u) (key v)) := by
  have hlt {a b : Int} (h : a < b) : some Ordering.lt = some (compare a b) := by
    rw [compare_lt_iff_lt.mpr h]
  have hgt {a b : Int} (h : b < a) : some Ordering.gt = some (compare a b) := by
    rw [compare_gt_iff_gt.mpr h]
  rcases u with s | _ | s | ⟨s, m, e, hm⟩
  · rcases v with t | _ | t | ⟨t, n, f, hn⟩
    · cases s <;> cases t <;> rfl
    · exact absurd rfl hnv
    · cases s <;> rfl
    · have hn := key_bounds hn hv.1 hv.2
      cases s
      · cases t <;> exact hlt (by simp only [key, Sign.apply]; omega)
      · cases t <;> exact hgt (by simp only [key, Sign.apply]; omega)
  · exact absurd rfl hnu
  · rcases v with t | _ | t | ⟨t, n, f, hn⟩
    · cases t <;> rfl
    · exact absurd rfl hnv
    · rfl
    · have hn := key_bounds hn hv.1 hv.2
      cases t
      · exact hgt (by simp only [key, Sign.apply]; omega)
      · exact hlt (by simp only [key, Sign.apply]; omega)
  · have hm := key_bounds hm hu.1 hu.2
    rcases v with t | _ | t | ⟨t, n, f, hn⟩
    · cases t
      · cases s <;> exact hgt (by simp only [key, Sign.apply]; omega)
      · cases s <;> exact hlt (by simp only [key, Sign.apply]; omega)
    · exact absurd rfl hnv
    · cases s
      · exact hlt (by simp only [key, Sign.apply]; omega)
      · exact hgt (by simp only [key, Sign.apply]; omega)
    · have hn := key_bounds hn hv.1 hv.2
      cases s
      · cases t
        · simp only [UnpackedFloat.compare, key, Sign.apply]
          rw [then_compare hu.1 hv.1, Int.compare_swap]
          simp only [Int.compare_eq_ite_lt, neg_lt_neg_iff]
        · exact hlt (by simp only [key, Sign.apply]; omega)
      · cases t
        · exact hgt (by simp only [key, Sign.apply]; omega)
        · exact congrArg some (then_compare hu.1 hv.1)

theorem le_iff_key {u v : UnpackedFloat} (hu : Tidy u) (hv : Tidy v) :
    u.le v = true ↔ u ≠ .notANumber ∧ v ≠ .notANumber ∧ key u ≤ key v := by
  by_cases hnu : u = .notANumber
  · simp [hnu, UnpackedFloat.le, UnpackedFloat.compare]
  by_cases hnv : v = .notANumber
  · cases u <;> simp [hnv, UnpackedFloat.le, UnpackedFloat.compare]
  · simp [UnpackedFloat.le, compare_key hu hv hnu hnv, hnu, hnv, Ordering.isLE_iff_ne_gt,
      compare_le_iff_le]

theorem le_iff_words {a b : Float} : a ≤ b ↔ a.toModel.unpack ≠ .notANumber ∧
    b.toModel.unpack ≠ .notANumber ∧ key a.toModel.unpack ≤ key b.toModel.unpack := by
  rw [le_iff, le_iff_key (tidy_unpack _) (tidy_unpack _)]

theorem le_of_lt {a b : Float} (h : a < b) : a ≤ b := by
  rw [lt_iff] at h
  rw [le_iff]
  simp only [UnpackedFloat.lt, beq_iff_eq] at h
  simp [UnpackedFloat.le, h]

theorem not_lt_of_le {a b : Float} (h : a ≤ b) : ¬ b < a := by
  have hle := le_iff_words.mp h
  rw [lt_iff, UnpackedFloat.lt, compare_key (tidy_unpack _) (tidy_unpack _) hle.2.1 hle.1]
  simpa [compare_lt_iff_lt] using hle.2.2

theorem unpack_zero : (0 : Float).toModel.unpack = .zero .positive := rfl

theorem unpack_one :
    (1 : Float).toModel.unpack = .finite .positive (2 ^ 52) (-52) (by decide) := rfl

/-- What is not negative. -/
inductive Natural : UnpackedFloat → Prop where
  | zero (s : Sign) : Natural (.zero s)
  | finite (m : Nat) (e : Int) (h : 0 < m) : Natural (.finite .positive m e h)
  | infinity : Natural (.infinity .positive)

theorem natural_of_le {a : Float} (h : 0 ≤ a) : Natural a.toModel.unpack := by
  rw [le_iff, unpack_zero] at h
  generalize a.toModel.unpack = u at h
  cases u with
  | notANumber => cases h
  | infinity s =>
    cases s with
    | negative => cases h
    | positive => exact .infinity
  | zero s => exact .zero s
  | finite s m e hm =>
    cases s with
    | negative => cases h
    | positive => exact .finite m e hm

end Arboretum.Binary64
