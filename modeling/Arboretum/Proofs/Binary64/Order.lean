import Arboretum.Proofs.Binary64.Arithmetic

/-!
Rounding keeps order. A finite number is a multiple of the smallest one there is, sums and products
are rounded from the exact number of these units, and of two exact numbers the larger is not rounded
to less.
-/
namespace Arboretum.Binary64

open Float.Model (UnpackedFloat Format)
open Float.Model.UnpackedFloat

/-! ### Rounding keeps order -/

theorem rounded_eq (m k : Nat) : rounded m k =
    if 2 * (m % 2 ^ k) < 2 ^ k then m / 2 ^ k
    else if 2 * (m % 2 ^ k) = 2 ^ k then m / 2 ^ k + m / 2 ^ k % 2
    else m / 2 ^ k + 1 := by
  unfold rounded
  rw [shifted]
  have hpos := Nat.two_pow_pos k
  generalize m % 2 ^ k = r
  generalize m / 2 ^ k = a
  generalize 2 ^ k = K at *
  rcases Nat.lt_trichotomy (2 * r) K with h | h | h
  · by_cases hr : r = 0
    · simp [ExtendedMantissa.roundedMantissa, ExtendedMantissa.accuracy, hr, hpos,
        Nat.not_le.mpr hpos, Accuracy.roundToNearestEven]
    · simp [ExtendedMantissa.roundedMantissa, ExtendedMantissa.accuracy, hr, h, h.ne,
        Nat.not_le.mpr h, Accuracy.roundToNearestEven]
  · simp [ExtendedMantissa.roundedMantissa, ExtendedMantissa.accuracy, h,
      Accuracy.roundToNearestEven]
  · have hr : r ≠ 0 := by omega
    simp [ExtendedMantissa.roundedMantissa, ExtendedMantissa.accuracy, hr, h.le, h.ne',
      Nat.not_lt.mpr h.le, Accuracy.roundToNearestEven]

theorem rounded_mono {m n : Nat} (k : Nat) (h : m ≤ n) : rounded m k ≤ rounded n k := by
  have hdiv : m / 2 ^ k ≤ n / 2 ^ k := Nat.div_le_div_right h
  have hm := Nat.div_add_mod m (2 ^ k)
  have hn := Nat.div_add_mod n (2 ^ k)
  rw [rounded_eq, rounded_eq]
  rcases Nat.eq_or_lt_of_le hdiv with heq | hlt
  · have hmod : m % 2 ^ k ≤ n % 2 ^ k := by
      rw [heq] at hm
      omega
    rw [heq]
    split_ifs <;> omega
  · split_ifs <;> omega

/-- Digits that are all zero may be dropped before a number is rounded. -/
theorem rounded_scale (m k j : Nat) : rounded (m * 2 ^ j) (k + j) = rounded m k := by
  have hpos := Nat.two_pow_pos j
  have hdiv : m * 2 ^ j / 2 ^ (k + j) = m / 2 ^ k := by
    rw [pow_add, Nat.mul_div_mul_right _ _ hpos]
  have hmod : m * 2 ^ j % 2 ^ (k + j) = m % 2 ^ k * 2 ^ j := by
    rw [pow_add, Nat.mul_mod_mul_right]
  have hlt : 2 * (m % 2 ^ k * 2 ^ j) < 2 ^ k * 2 ^ j ↔ 2 * (m % 2 ^ k) < 2 ^ k := by
    rw [← Nat.mul_assoc]
    exact Nat.mul_lt_mul_right hpos
  have heq : 2 * (m % 2 ^ k * 2 ^ j) = 2 ^ k * 2 ^ j ↔ 2 * (m % 2 ^ k) = 2 ^ k := by
    rw [← Nat.mul_assoc]
    exact Nat.mul_left_inj hpos.ne'
  rw [rounded_eq, rounded_eq, hdiv, hmod, pow_add]
  simp only [hlt, heq]

theorem target_scale {m : Nat} (hm : 0 < m) (e : Int) (j : Nat) :
    target (m * 2 ^ j) (e - j) = target m e := by
  unfold target
  rw [log2_mul_two_pow hm]
  congr 1
  omega

theorem target_mono {m n : Nat} (hm : 0 < m) (h : m ≤ n) (e : Int) : target m e ≤ target n e := by
  have hlog : m.log2 ≤ n.log2 := by
    rw [Nat.le_log2 (by omega)]
    exact (Nat.log2_self_le hm.ne').trans h
  unfold target
  omega

theorem pack_le_pack {m n : Nat} {e f : Int} (hm : 0 < m) (hn : 0 < n) (hc : Canonical m e)
    (hd : Canonical n f) (h : e < f ∨ e = f ∧ m ≤ n) :
    (Float.Model.pack (.finite .positive m e hm)).unpack.le
      (Float.Model.pack (.finite .positive n f hn)).unpack = true := by
  rw [unpack_pack hm hc]
  split
  · rw [unpack_pack hn hd, if_pos (by omega)]
    rfl
  · rename_i hhigh
    exact le_pack hm hn hc (Int.not_lt.mp hhigh) hd h

theorem zero_le_pack {n : Nat} {f : Int} (hn : 0 < n) (hd : Canonical n f) :
    (UnpackedFloat.zero .positive).le (Float.Model.pack (.finite .positive n f hn)).unpack =
      true := by
  rw [unpack_pack hn hd]
  split <;> rfl

theorem place_le_place {q r : Nat} {e f : Int} (he : -1074 ≤ e) (hq : q ≤ 2 ^ 53) (hr : r ≤ 2 ^ 53)
    (hqfull : 2 ^ 52 ≤ q ∨ e = -1074) (hrfull : 2 ^ 52 ≤ r ∨ f = -1074)
    (h : e < f ∨ e = f ∧ q ≤ r) :
    (Float.Model.pack (place .positive q e)).unpack.le
      (Float.Model.pack (place .positive r f)).unpack = true := by
  have hcanonical : Canonical (2 ^ 52) (f + 1) := ⟨by decide, by omega, .inl (Nat.le_refl _)⟩
  have hzero := unpack_pack_tidy (u := .zero .positive) trivial
  unfold place
  by_cases hq0 : q = 0
  · rw [dif_pos hq0, hzero]
    by_cases hr0 : r = 0
    · rw [dif_pos hr0, hzero]
      rfl
    · rw [dif_neg hr0]
      split
      · rename_i hlt
        exact zero_le_pack _ ⟨hlt, by omega, hrfull⟩
      · exact zero_le_pack _ hcanonical
  · have hr0 : r ≠ 0 := by omega
    rw [dif_neg hq0, dif_neg hr0]
    split
    · rename_i hqlt
      split
      · rename_i hrlt
        exact pack_le_pack _ _ ⟨hqlt, he, hqfull⟩ ⟨hrlt, by omega, hrfull⟩ h
      · exact pack_le_pack _ _ ⟨hqlt, he, hqfull⟩ hcanonical (by omega)
    · have hcanonical' : Canonical (2 ^ 52) (e + 1) := ⟨by decide, by omega, .inl (Nat.le_refl _)⟩
      split
      · rename_i hrlt
        exact pack_le_pack _ _ hcanonical' ⟨hrlt, by omega, hrfull⟩ (by omega)
      · exact pack_le_pack _ _ hcanonical' hcanonical (by omega)

theorem roundWithAccuracy_zero (s : Sign) (e : Int) :
    roundWithAccuracy .binary64 s 0 e .exact = .zero s := by
  unfold roundWithAccuracy
  rw [shiftToTargetExponent_eq, shifted]
  simp [ExtendedMantissa.roundedMantissa, ExtendedMantissa.accuracy, Accuracy.roundToNearestEven,
    shiftToTargetExponent_eq, shifted]

/-- Of two exact numbers the larger is not rounded to less. -/
theorem round_le_round {m n : Nat} {e : Int} (he : e ≤ -1074) (h : m ≤ n) :
    (Float.Model.pack (roundWithAccuracy .binary64 .positive m e .exact)).unpack.le
      (Float.Model.pack (roundWithAccuracy .binary64 .positive n e .exact)).unpack = true := by
  have hlow (m : Nat) : -1074 ≤ target m e := by
    unfold target
    omega
  rcases Nat.eq_zero_or_pos n with rfl | hn
  · obtain rfl : m = 0 := by omega
    rw [roundWithAccuracy_zero]
    rfl
  obtain ⟨hplace', hrfull, hr, -, -⟩ :=
    roundWithAccuracy_place .positive hn (he.trans (hlow n)) rfl
  rcases Nat.eq_zero_or_pos m with rfl | hm
  · rw [roundWithAccuracy_zero, hplace']
    exact place_le_place (q := 0) (e := -1074) (by omega) (by omega) hr (.inr rfl) hrfull (by
      have := hlow n
      omega)
  obtain ⟨hplace, hqfull, hq, -, -⟩ :=
    roundWithAccuracy_place .positive hm (he.trans (hlow m)) rfl
  rw [hplace, hplace']
  refine place_le_place (hlow m) hq hr hqfull hrfull ?_
  rcases Int.lt_or_eq_of_le (target_mono hm h e) with hlt | heq
  · exact .inl hlt
  · rw [heq]
    exact .inr ⟨rfl, rounded_mono _ h⟩

/-- A number may be written with more zeros before it is rounded. -/
theorem round_scale {m : Nat} {e : Int} (s : Sign) (hm : 0 < m) {j : Nat} (hj : e - j ≤ -1074) :
    UnpackedFloat.round .binary64 s m e =
      roundWithAccuracy .binary64 s (m * 2 ^ j) (e - j) .exact := by
  have hlow : -1074 ≤ target m e := by
    unfold target
    omega
  set k := (target m e - (e - j)).toNat with hk
  have hmore : roundWithAccuracy .binary64 s (m * 2 ^ j) (e - j) .exact =
      place s (rounded (m * 2 ^ j) k) (target m e) := by
    have hscaled := target_scale hm e j
    have hplace := (roundWithAccuracy_place s (m := m * 2 ^ j) (e := e - j) (k := k)
      (by positivity) (by omega) (by omega)).1
    rwa [hscaled] at hplace
  rw [hmore]
  rcases Int.lt_or_le (target m e) e with hlt | hge
  · -- The number is first written with just as many zeros as there is room for.
    set z := (e - target m e).toNat with hz
    have hexponent : e - z = target m e := by omega
    have hscaled := target_scale hm e z
    have hplace := (roundWithAccuracy_place s (m := m * 2 ^ z) (e := e - z) (k := 0)
      (by positivity) (by omega) (by omega)).1
    have hround : UnpackedFloat.round .binary64 s m e =
        roundWithAccuracy .binary64 s (m * 2 ^ z) (e - z) .exact := by
      unfold UnpackedFloat.round
      rw [targetExponent_eq]
      dsimp only
      rw [decreaseExponent_eq]
    have hzeros : m * 2 ^ j = m * 2 ^ z * 2 ^ k := by
      rw [Nat.mul_assoc, ← pow_add]
      congr 2
      omega
    have hdrop := rounded_scale (m * 2 ^ z) 0 k
    rw [Nat.zero_add] at hdrop
    rw [hround, hplace, hscaled, hzeros, hdrop]
  · have hplace := (roundWithAccuracy_place s hm hge rfl).1
    have hshift : k = (target m e - e).toNat + j := by omega
    rw [round_le_target _ hge, hplace, hshift, rounded_scale]

/-! ### Units -/

/-- The finite numbers that are not negative, as they come out of a word. -/
inductive Plain : UnpackedFloat → Prop where
  | zero (s : Sign) : Plain (.zero s)
  | finite (m : Nat) (e : Int) (h : 0 < m) (hc : Canonical m e) (he : e ≤ 971) :
    Plain (.finite .positive m e h)

/-- How many times the smallest number is contained in a number. -/
def units : UnpackedFloat → Nat
  | .finite _ m e _ => m * 2 ^ (e + 1074).toNat
  | _ => 0

theorem Plain.natural {u : UnpackedFloat} (h : Plain u) : Natural u := by
  cases h with
  | zero s => exact .zero s
  | finite m e h _ _ => exact .finite m e h

theorem Natural.plain {u : UnpackedFloat} (h : Natural u) (htidy : Tidy u)
    (hfinite : u ≠ .infinity .positive) : Plain u := by
  cases h with
  | zero s => exact .zero s
  | finite m e h => exact .finite m e h htidy.1 htidy.2
  | infinity => exact absurd rfl hfinite

/-- What is at most a finite number is finite. -/
theorem Natural.plain_of_le {u v : UnpackedFloat} (h : Natural u) (htidy : Tidy u) (hv : Plain v)
    (hle : key u ≤ key v) : Plain u := by
  refine h.plain htidy ?_
  rintro rfl
  cases hv with
  | zero s => simp [key, Sign.apply] at hle
  | finite n f hn hd hf =>
    have hbound := (key_bounds hn hd hf).2
    simp only [key, Sign.apply] at hle
    omega

theorem units_le {u v : UnpackedFloat} (hu : Plain u) (hv : Plain v) (h : key u ≤ key v) :
    units u ≤ units v := by
  cases hu with
  | zero s => exact Nat.zero_le _
  | finite m e hm hc he =>
    have hpos := (key_bounds hm hc he).1
    cases hv with
    | zero t =>
      simp only [key, Sign.apply] at h
      omega
    | finite n f hn hd hf =>
      have hmd := hc.digits
      have hnd := hd.digits
      have hfull := hd.full
      have hlow := hc.low
      simp only [key, Sign.apply] at h
      rcases Int.lt_trichotomy e f with hlt | rfl | hgt
      · have hdouble : m ≤ n * 2 ^ (f - e).toNat := by
          have htwo : 2 ^ 1 ≤ 2 ^ (f - e).toNat := Nat.pow_le_pow_right (by decide) (by omega)
          have hmul : 2 ^ 52 * 2 ^ 1 ≤ n * 2 ^ (f - e).toNat := Nat.mul_le_mul (by omega) htwo
          omega
        have hshift : (f + 1074).toNat = (f - e).toNat + (e + 1074).toNat := by omega
        simp only [units]
        rw [hshift, pow_add, ← Nat.mul_assoc]
        exact Nat.mul_le_mul_right _ hdouble
      · exact Nat.mul_le_mul_right _ (by omega)
      · omega

/-- The difference of two finite numbers is rounded from the difference of their units. -/
theorem sub_units {m : Nat} {e : Int} {v : UnpackedFloat} (hm : 0 < m) (hc : Canonical m e)
    (hv : Plain v) (h : units v ≤ m * 2 ^ (e + 1074).toNat) :
    UnpackedFloat.sub .binary64 (.finite .positive m e hm) v =
      roundWithAccuracy .binary64 .positive (m * 2 ^ (e + 1074).toNat - units v) (-1074)
        .exact := by
  have hlow := hc.low
  cases hv with
  | zero s =>
    have hexact := roundWithAccuracy_canonical .positive hm hc (e + 1074).toNat
    have hexponent : e - (e + 1074).toNat = -1074 := by omega
    rw [hexponent] at hexact
    exact hexact.symm
  | finite n f hn hd hf =>
    have hlow' := hd.low
    set g := min e f with hg
    set j := (g + 1074).toNat with hj
    have hleft : m * 2 ^ (e + 1074).toNat = m * 2 ^ (e - g).toNat * 2 ^ j := by
      rw [Nat.mul_assoc, ← pow_add]
      congr 2
      omega
    have hright : n * 2 ^ (f + 1074).toNat = n * 2 ^ (f - g).toNat * 2 ^ j := by
      rw [Nat.mul_assoc, ← pow_add]
      congr 2
      omega
    simp only [units] at h ⊢
    rw [hleft, hright] at h ⊢
    have hle : n * 2 ^ (f - g).toNat ≤ m * 2 ^ (e - g).toNat :=
      Nat.le_of_mul_le_mul_right h (Nat.two_pow_pos j)
    have hexponent : g - j = -1074 := by omega
    unfold UnpackedFloat.sub
    dsimp only
    rw [decreaseExponent_eq, decreaseExponent_eq, ← hg, ← Nat.sub_mul]
    simp only [Sign.apply]
    rw [← Int.ofNat_sub hle]
    generalize m * 2 ^ (e - g).toNat - n * 2 ^ (f - g).toNat = d
    unfold UnpackedFloat.normalize
    rcases Nat.eq_zero_or_pos d with rfl | hd
    · rw [Nat.zero_mul, roundWithAccuracy_zero]
      rfl
    · have hgt : compare (d : Int) 0 = .gt := by
        rw [compare_gt_iff_gt]
        omega
      rw [hgt, ← hexponent, ← round_scale .positive hd (by omega)]
      rfl

/-- The product of two finite numbers is rounded from the product of their units. -/
theorem mul_units {u v : UnpackedFloat} (hu : Plain u) (hv : Plain v) :
    (∃ s, UnpackedFloat.mul .binary64 u v = .zero s ∧ units u * units v = 0) ∨
      UnpackedFloat.mul .binary64 u v =
        roundWithAccuracy .binary64 .positive (units u * units v) (-2148) .exact := by
  cases hu with
  | zero s =>
    left
    cases hv with
    | zero t => exact ⟨_, rfl, Nat.zero_mul _⟩
    | finite n f hn hd hf => exact ⟨_, rfl, Nat.zero_mul _⟩
  | finite m e hm hc he =>
    cases hv with
    | zero t => exact .inl ⟨_, rfl, Nat.mul_zero _⟩
    | finite n f hn hd hf =>
      right
      have hle : e + f ≤ target (m * n) (e + f) := by
        have hlog (hlarge : 2 ^ 52 ≤ m * n) : 52 ≤ (m * n).log2 := by
          rwa [Nat.le_log2 (by positivity)]
        unfold target
        rcases hc.full with hfull | hleast
        · have := hlog (hfull.trans (Nat.le_mul_of_pos_right m hn))
          omega
        · rcases hd.full with hfull | hleast'
          · have := hlog (hfull.trans (Nat.le_mul_of_pos_left n hm))
            omega
          · omega
      have hlow := hc.low
      have hlow' := hd.low
      have hscale := round_scale .positive (show 0 < m * n by positivity) (e := e + f)
        (j := (e + 1074).toNat + (f + 1074).toNat) (by omega)
      have hexponent : e + f - ((e + 1074).toNat + (f + 1074).toNat : Nat) = -2148 := by omega
      have hunits : m * n * 2 ^ ((e + 1074).toNat + (f + 1074).toNat) =
          m * 2 ^ (e + 1074).toNat * (n * 2 ^ (f + 1074).toNat) := by
        rw [pow_add]
        ring
      rw [hexponent, hunits, round_le_target _ hle] at hscale
      exact hscale

/-! ### Laws -/

theorem le_of_not_lt {a b : Float} (ha : a ≤ a) (hb : b ≤ b) (h : ¬ b < a) : a ≤ b := by
  have hna := (le_iff_words.mp ha).1
  have hnb := (le_iff_words.mp hb).1
  rw [lt_iff, UnpackedFloat.lt, compare_key (tidy_unpack _) (tidy_unpack _) hnb hna] at h
  rw [le_iff_words]
  refine ⟨hna, hnb, ?_⟩
  simpa [compare_lt_iff_lt] using h

theorem natural_unpack_le {a b : Float} (ha : 0 ≤ a) (h : a ≤ b) : Natural b.toModel.unpack :=
  natural_of_le (by
    rw [le_iff_words] at ha h ⊢
    exact ⟨ha.1, h.2.1, ha.2.2.trans h.2.2⟩)

theorem isNaN_iff {a : Float} : Scalar.isNaN a = true ↔ a.toModel.unpack = .notANumber := by
  change (!(a.toModel.unpack.beq a.toModel.unpack)) = true ↔ _
  by_cases hn : a.toModel.unpack = .notANumber
  · simp [hn, UnpackedFloat.beq, UnpackedFloat.compare]
  · rw [UnpackedFloat.beq, compare_key (tidy_unpack _) (tidy_unpack _) hn hn]
    simp [hn]

theorem plain_of_finite {c : Float} (h : 0 ≤ c) (hfinite : Scalar.isInfinite c = false) :
    Plain c.toModel.unpack := by
  refine (natural_of_le h).plain (tidy_unpack _) fun hinf => ?_
  have hnumber : Scalar.isNaN c = false := by
    rw [← Bool.not_eq_true, isNaN_iff, hinf]
    simp
  have hdifference : Scalar.isNaN (c - c) = true := by
    rw [isNaN_iff]
    change (Float.Model.pack (UnpackedFloat.sub .binary64 c.toModel.unpack
      c.toModel.unpack)).unpack = _
    rw [hinf]
    rfl
  simp [Scalar.isInfinite, hnumber, hdifference] at hfinite

theorem sub_le_sub {a b c : Float} (ha : 0 ≤ a) (hab : a ≤ b) (hbc : b ≤ c)
    (hfinite : Scalar.isInfinite c = false) : c - b ≤ c - a := by
  have hb : 0 ≤ b := Scalar.Lawful.le_trans ha hab
  have hpc := plain_of_finite (Scalar.Lawful.le_trans hb hbc) hfinite
  have hkab := (le_iff_words.mp hab).2.2
  have hkbc := (le_iff_words.mp hbc).2.2
  have hpb := (natural_of_le hb).plain_of_le (tidy_unpack _) hpc hkbc
  have hpa := (natural_of_le ha).plain_of_le (tidy_unpack _) hpb hkab
  have huab := units_le hpa hpb hkab
  have hubc := units_le hpb hpc hkbc
  rw [le_iff]
  change (Float.Model.pack (UnpackedFloat.sub .binary64 c.toModel.unpack
    b.toModel.unpack)).unpack.le (Float.Model.pack (UnpackedFloat.sub .binary64 c.toModel.unpack
    a.toModel.unpack)).unpack = true
  generalize a.toModel.unpack = u at *
  generalize b.toModel.unpack = v at *
  generalize c.toModel.unpack = w at *
  cases hpc with
  | zero s =>
    -- What is at most zero is zero.
    cases hpb with
    | zero t => cases hpa with
      | zero r => cases s <;> cases t <;> cases r <;> rfl
      | finite m e hm hc he => simp [units, hm.ne'] at huab
    | finite n f hn hd hf => simp [units, hn.ne'] at hubc
  | finite m e hm hc he =>
    rw [sub_units hm hc hpb hubc, sub_units hm hc hpa (huab.trans hubc)]
    exact round_le_round (Int.le_refl _) (Nat.sub_le_sub_left huab _)

/-- A number that is not negative is infinite, unless it is finite. -/
theorem unpack_of_infinite {c : Float} (h : 0 ≤ c) (hinf : Scalar.isInfinite c = true) :
    c.toModel.unpack = .infinity .positive := by
  by_contra hne
  have hplain := (natural_of_le h).plain (tidy_unpack _) hne
  have hdifference : Scalar.isNaN (c - c) = true := by
    simp only [Scalar.isInfinite, Bool.and_eq_true] at hinf
    exact hinf.2
  rw [isNaN_iff] at hdifference
  change (Float.Model.pack (UnpackedFloat.sub .binary64 c.toModel.unpack
    c.toModel.unpack)).unpack = _ at hdifference
  generalize c.toModel.unpack = u at *
  cases hplain with
  | zero s => cases s <;> cases hdifference
  | finite m e hm hc he =>
    rw [sub_units hm hc (.finite m e hm hc he) (Nat.le_refl _), units, Nat.sub_self,
      roundWithAccuracy_zero, unpack_pack_tidy (u := .zero .positive) trivial] at hdifference
    cases hdifference

theorem key_le_infinity {u : UnpackedFloat} (h : Tidy u) :
    key u ≤ key (.infinity .positive) := by
  cases u with
  | notANumber => decide
  | infinity s => cases s <;> decide
  | zero s => cases s <;> decide
  | finite s m e hm =>
    have hbound := key_bounds hm h.1 h.2
    cases s <;> simp only [key, Sign.apply] <;> omega

theorem le_infinite_sub {a c x : Float} (hc : 0 ≤ c) (hinf : Scalar.isInfinite c = true)
    (ha : 0 ≤ a) (hfinite : Scalar.isInfinite a = false) (hx : x ≤ x) : x ≤ c - a := by
  have hplain := plain_of_finite ha hfinite
  have hdifference : (c - a).toModel.unpack = .infinity .positive := by
    change (Float.Model.pack (UnpackedFloat.sub .binary64 c.toModel.unpack
      a.toModel.unpack)).unpack = _
    have hsub : UnpackedFloat.sub .binary64 (.infinity .positive) a.toModel.unpack =
        .infinity .positive := by
      generalize a.toModel.unpack = u at *
      cases hplain <;> rfl
    rw [unpack_of_infinite hc hinf, hsub]
    exact unpack_pack_tidy (u := .infinity .positive) trivial
  rw [le_iff_words, hdifference]
  exact ⟨(le_iff_words.mp hx).1, by simp, key_le_infinity (tidy_unpack _)⟩

/-- Zero has no sign in comparisons. -/
theorem zero_le_congr (s t : Sign) (u : UnpackedFloat) :
    (UnpackedFloat.zero s).le u = (UnpackedFloat.zero t).le u := by
  cases u with
  | notANumber => rfl
  | infinity r => cases s <;> cases t <;> cases r <;> rfl
  | zero r => cases s <;> cases t <;> rfl
  | finite r m e hm => cases s <;> cases t <;> cases r <;> rfl

theorem zero_le_zero (s t : Sign) : (UnpackedFloat.zero s).le (.zero t) = true := by
  cases s <;> cases t <;> rfl

/-- Zero is at most what a number that is not negative is rounded to, whatever its sign. -/
theorem zero_le_round (s : Sign) (n : Nat) {e : Int} (he : e ≤ -1074) :
    (UnpackedFloat.zero s).le
      (Float.Model.pack (roundWithAccuracy .binary64 .positive n e .exact)).unpack = true := by
  have hle := round_le_round he (Nat.zero_le n)
  rw [roundWithAccuracy_zero, unpack_pack_tidy (u := .zero .positive) trivial] at hle
  rw [zero_le_congr s .positive, hle]

theorem mul_le_mul {a b c : Float} (ha : 0 ≤ a) (hab : a ≤ b) (hpb : Plain b.toModel.unpack)
    (hpc : Plain c.toModel.unpack) : 0 ≤ a * c ∧ a * c ≤ b * c := by
  have hk := (le_iff_words.mp hab).2.2
  have hpa := (natural_of_le ha).plain_of_le (tidy_unpack _) hpb hk
  have hle := Nat.mul_le_mul_right (units c.toModel.unpack) (units_le hpa hpb hk)
  have hzero (s : Sign) : (Float.Model.pack (.zero s)).unpack = .zero s :=
    unpack_pack_tidy (u := .zero s) trivial
  rw [le_iff, le_iff, unpack_zero]
  change (UnpackedFloat.zero .positive).le (Float.Model.pack (UnpackedFloat.mul .binary64
    a.toModel.unpack c.toModel.unpack)).unpack = true ∧ (Float.Model.pack (UnpackedFloat.mul
    .binary64 a.toModel.unpack c.toModel.unpack)).unpack.le (Float.Model.pack (UnpackedFloat.mul
    .binary64 b.toModel.unpack c.toModel.unpack)).unpack = true
  rcases mul_units hpa hpc with ⟨s, hleft, -⟩ | hleft
  · rw [hleft, hzero]
    rcases mul_units hpb hpc with ⟨t, hright, -⟩ | hright
    · rw [hright, hzero]
      exact ⟨zero_le_zero _ s, zero_le_zero s t⟩
    · rw [hright]
      exact ⟨zero_le_zero _ s, zero_le_round s _ (by decide)⟩
  · rw [hleft]
    refine ⟨zero_le_round _ _ (by decide), ?_⟩
    rcases mul_units hpb hpc with ⟨t, hright, hnone⟩ | hright
    · have hnone' : units a.toModel.unpack * units c.toModel.unpack = 0 := by omega
      rw [hright, hnone', roundWithAccuracy_zero, hzero, hzero]
      exact zero_le_zero _ t
    · rw [hright]
      exact round_le_round (by decide) hle

/-- The whole part of a finite number, from its units. -/
theorem floor_plain {x : Float} (h : Plain x.toModel.unpack) :
    floor x = .ok (units x.toModel.unpack / 2 ^ 1074 : Nat) := by
  unfold floor
  generalize x.toModel.unpack = u at h
  cases h with
  | zero s => simp only [units, Nat.zero_div, Nat.cast_zero]
  | finite m e hm hc he =>
    have hlow := hc.low
    simp only [units, floorScaled, Sign.apply, twoTo, Nat.pow_eq]
    congr 1
    split
    · have hshift : (e + 1074).toNat = e.toNat + 1074 := by omega
      rw [hshift, pow_add, ← Nat.mul_assoc, Nat.mul_div_cancel _ (Nat.two_pow_pos 1074)]
      push_cast
      rfl
    · have hshift : 1074 = (e + 1074).toNat + (-e).toNat := by omega
      have hcancel : m * 2 ^ (e + 1074).toNat / 2 ^ 1074 = m / 2 ^ (-e).toNat := by
        conv_lhs =>
          rhs
          rw [hshift, pow_add]
        rw [Nat.mul_comm m, Nat.mul_div_mul_left _ _ (Nat.two_pow_pos _)]
      rw [hcancel]
      push_cast
      rfl

/-- A number that is not negative and has a whole part is finite. -/
theorem Natural.plain_of_floor {x : Float} {t : Int} (h : Natural x.toModel.unpack)
    (ht : floor x = .ok t) : Plain x.toModel.unpack := by
  refine h.plain (tidy_unpack _) fun hinf => ?_
  unfold floor at ht
  rw [hinf] at ht
  cases ht

theorem floor_le_floor {x y : Float} {t : Int} (hx : 0 ≤ x) (h : x ≤ y) (ht : floor y = .ok t) :
    ∃ s ≤ t, floor x = .ok s := by
  have hk := (le_iff_words.mp h).2.2
  have hpy := (natural_unpack_le hx h).plain_of_floor ht
  have hpx := (natural_of_le hx).plain_of_le (tidy_unpack _) hpy hk
  rw [floor_plain hpy] at ht
  cases ht
  refine ⟨_, ?_, floor_plain hpx⟩
  exact_mod_cast Nat.div_le_div_right (units_le hpx hpy hk)

/-- No natural number is written as less than zero. -/
theorem natural_ofNat (n : Nat) : isNegative (Float.ofNat n).toModel.unpack = false := by
  rcases Nat.eq_zero_or_pos n with rfl | hn
  · rfl
  rcases Nat.lt_or_ge n (2 ^ 53) with hsmall | hlarge
  · obtain ⟨j, hpos, hword, -⟩ := unpack_ofNat hn hsmall
    rw [hword]
    rfl
  · have hword : (Float.ofNat n).toModel =
        Float.Model.pack (UnpackedFloat.ofScientific .binary64 n 0) := by
      change (Float.ofScientific n false 0).toModel = _
      unfold Float.ofScientific
      rw [dif_neg (by omega)]
      rfl
    rw [hword]
    apply isNegative_pack
    have hbits : (0 : Int) ≤ 2 ^ Format.binary64.exponentBits := by positivity
    unfold UnpackedFloat.ofScientific
    rw [dif_neg hn.ne', if_neg (by omega), if_neg (by omega), if_pos (Int.le_refl 0)]
    simp only [UnpackedFloat.mul]
    exact isNegative_roundWithAccuracy _ _ _

theorem natural_of_not_negative {u : UnpackedFloat} (h : isNegative u = false)
    (hnumber : u ≠ .notANumber) : Natural u := by
  cases u with
  | notANumber => exact absurd rfl hnumber
  | infinity s =>
    cases s with
    | negative => cases h
    | positive => exact .infinity
  | zero s => exact .zero s
  | finite s m e hm =>
    cases s with
    | negative => cases h
    | positive => exact .finite m e hm

/-- A product that has a whole part is one of finite numbers. -/
theorem plain_of_floor_mul {b : Float} {n : Nat} {t : Int} (hb : Natural b.toModel.unpack)
    (ht : floor (b * Float.ofNat n) = .ok t) :
    Plain b.toModel.unpack ∧ Plain (Float.ofNat n).toModel.unpack := by
  have hsign := natural_ofNat n
  have htidy := tidy_unpack (Float.ofNat n).toModel
  have hmul : (b * Float.ofNat n).toModel = Float.Model.pack
    (UnpackedFloat.mul .binary64 b.toModel.unpack (Float.ofNat n).toModel.unpack) := rfl
  unfold floor at ht
  rw [hmul] at ht
  have hb' := hb.plain (tidy_unpack _)
  have hn' := fun hnumber => (natural_of_not_negative hsign hnumber).plain htidy
  have hnan := unpack_pack_tidy (u := .notANumber) trivial
  have hinf (s : Sign) := unpack_pack_tidy (u := .infinity s) trivial
  generalize b.toModel.unpack = u at *
  generalize (Float.ofNat n).toModel.unpack = v at *
  cases hb with
  | zero s =>
    cases v with
    | notANumber => simp [UnpackedFloat.mul, hnan] at ht
    | infinity r => simp [UnpackedFloat.mul, hnan] at ht
    | zero r => exact ⟨hb' (by simp), hn' (by simp) (by simp)⟩
    | finite r m e hm => exact ⟨hb' (by simp), hn' (by simp) (by simp)⟩
  | finite k f hk =>
    cases v with
    | notANumber => simp [UnpackedFloat.mul, hnan] at ht
    | infinity r => simp [UnpackedFloat.mul, hinf] at ht
    | zero r => exact ⟨hb' (by simp), hn' (by simp) (by simp)⟩
    | finite r m e hm => exact ⟨hb' (by simp), hn' (by simp) (by simp)⟩
  | infinity =>
    cases v with
    | notANumber => simp [UnpackedFloat.mul, hnan] at ht
    | infinity r => simp [UnpackedFloat.mul, hinf] at ht
    | zero r => simp [UnpackedFloat.mul, hnan] at ht
    | finite r m e hm => simp [UnpackedFloat.mul, hinf] at ht

theorem floor_mul {a b : Float} {n : Nat} {t : Int} (ha : 0 ≤ a) (h : a ≤ b)
    (ht : floor (b * Float.ofNat n) = .ok t) : ∃ s ≤ t, floor (a * Float.ofNat n) = .ok s := by
  obtain ⟨hpb, hpn⟩ := plain_of_floor_mul (natural_unpack_le ha h) ht
  obtain ⟨hpos, hle⟩ := mul_le_mul ha h hpb hpn
  exact floor_le_floor hpos hle ht

theorem floor_one_mul (n : Nat) : floor (1 * Float.ofNat n) = floor (Float.ofNat n) := by
  have hsign := natural_ofNat n
  have htidy := tidy_unpack (Float.ofNat n).toModel
  have hword : (1 * Float.ofNat n).toModel.unpack = (Float.ofNat n).toModel.unpack := by
    change (Float.Model.pack (UnpackedFloat.mul .binary64 (1 : Float).toModel.unpack
      (Float.ofNat n).toModel.unpack)).unpack = _
    rw [unpack_one]
    generalize (Float.ofNat n).toModel.unpack = u at *
    cases u with
    | notANumber => rfl
    | infinity s => cases s <;> rfl
    | zero s => cases s <;> rfl
    | finite s m e hm =>
      cases s with
      | negative => cases hsign
      | positive =>
        have hexact := roundWithAccuracy_canonical .positive hm htidy.1 52
        have hexponent : -52 + e = e - (52 : Nat) := by omega
        have hround : UnpackedFloat.mul .binary64 (.finite .positive (2 ^ 52) (-52) (by decide))
            (.finite .positive m e hm) =
              roundWithAccuracy .binary64 .positive (2 ^ 52 * m) (-52 + e) .exact := rfl
        rw [hround, Nat.mul_comm, hexponent, hexact]
        exact unpack_pack_tidy htidy
  unfold floor
  rw [hword]

instance : Scalar.Ordered Float where
  not_lt_of_le := not_lt_of_le
  le_of_not_lt := le_of_not_lt
  sub_le_sub := sub_le_sub
  le_infinite_sub := le_infinite_sub
  floor_mul := floor_mul
  floor_one_mul := floor_one_mul

end Arboretum.Binary64
