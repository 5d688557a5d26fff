import Mathlib.Data.Real.Basic
import Arboretum.Proofs.Growth.Attempts
import Arboretum.Proofs.Growth.Finish

/-!
What is shown of a plant as it grows. In exact arithmetic the part of a segment that is revealed,
and that of the fruits, is a share from 0 to 1 that rises with the growth; and growth only rises,
whatever is asked of the plan and whatever fails.
-/
namespace Arboretum.Growth

open Arboretum.Action

variable {α σ : Type} {crew : Crew α σ}

/-! ### Growth -/

/-- A plan has the skeleton, the rate and the growth that it had. -/
def GrownAs (was now : Growth α) : Prop :=
  now.segments = was.segments ∧ now.rate = was.rate ∧ now.growth = was.growth

/-- No step of a tick adds to the growth. -/
theorem hardy_grownAs [Scalar α] (was : Growth α) : Hardy fun now _ => GrownAs was now where
  built _ _ _ hp _ _ := hp
  passed _ _ hp := hp
  braced _ _ hp _ := hp
  hung _ _ hp _ := hp

/-- A call leaves the growth of a plan, or adds the rate to it, also where it fails. -/
theorem use_grownAs [Scalar α] (crew : Crew α σ) (call : Call) (p : Growth α × σ) :
    GrownAs p.1 (call.use crew p).state.1 ∨ GrownAs p.1.gain (call.use crew p).state.1 := by
  have hview : unrecorded (call.use (recording crew) (p.1, [], p.2)).state =
      (call.use crew p).state := (mirrors_use call).state (p.1, [], p.2)
  rw [← hview]
  cases call with
  | roots =>
    have hkeeps : Keeps (Recorded fun now _ => GrownAs p.1 now) (placeRoots (recording crew)) :=
      keeps_placing (fun _ _ _ _ hp _ => hp) fun _ _ hp => hp
    exact .inl (hkeeps (p.1, [], p.2) ⟨rfl, rfl, rfl⟩)
  | tick =>
    by_cases hsteady : p.1.stage = .steady
    · left
      change GrownAs p.1 (unrecorded (advance (recording crew) (p.1, [], p.2)).state).1
      rw [advance_apply, if_pos hsteady]
      exact ⟨rfl, rfl, rfl⟩
    · right
      exact (hardy_grownAs p.1.gain).advance crew (p := (p.1, [], p.2)) (fun h => absurd h hsteady)
        ⟨rfl, rfl, rfl⟩

/-- A plan that has only grown since an earlier moment. -/
structure Risen (was now : Growth ℝ) : Prop where
  segments : now.segments = was.segments
  rate : now.rate = was.rate
  growth : was.growth ≤ now.growth
  most : now.growth ≤ 1

theorem Risen.refl {g : Growth ℝ} (h : g.growth ≤ 1) : Risen g g := ⟨rfl, rfl, le_refl _, h⟩

/-- Whatever is asked of a plan, and whatever fails, its growth only rises. -/
theorem Risen.tries {crew : Crew ℝ σ} {was : Growth ℝ} (hrate : 0 ≤ was.rate) (calls : List Call)
    {p : Growth ℝ × σ} (h : Risen was p.1) : Risen was (tries crew calls p).state.1 := by
  refine keeps_tries (fun q => Risen was q.1) (fun call q hq => ?_) calls p h
  rcases use_grownAs crew call q with ⟨hsegments, hsame, hgrowth⟩ | ⟨hsegments, hsame, hgrowth⟩
  · exact ⟨hsegments.trans hq.segments, hsame.trans hq.rate, hq.growth.trans_eq hgrowth.symm,
      hgrowth.trans_le hq.most⟩
  · have hgain : q.1.gain.growth = min 1 (q.1.growth + q.1.rate) := Scalar.least_real _ _
    rw [hgain, hq.rate] at hgrowth
    refine ⟨hsegments.trans hq.segments, hsame.trans hq.rate, ?_, ?_⟩
    · rw [hgrowth]
      exact hq.growth.trans (le_min hq.most (le_add_of_nonneg_right hrate))
    · rw [hgrowth]
      exact min_le_left _ _

/-! ### Shares -/

/-- The share of a segment that is revealed: all of it, but for the last tenth of what the growth
has come to, which fades in. -/
noncomputable def share (g : Growth ℝ) (index : ℕ) : ℝ :=
  if g.growth ≤ 0 then 0 else Scalar.clamp ((1 - index / g.total / g.growth) / 0.1) 0 1

/-- The three pieces of what is revealed are one line, cut off at both ends. -/
theorem revealed_real (g : Growth ℝ) (fraction : ℝ) :
    g.revealed fraction = Scalar.clamp ((1 - fraction / g.growth) / 0.1) 0 1 := by
  unfold revealed fadeFraction
  dsimp only
  generalize fraction / g.growth = t
  split
  · rename_i hhidden
    rw [Scalar.clamp_of_le (div_nonpos_of_nonpos_of_nonneg (by linarith) (by norm_num))]
  · rename_i hshown
    split
    · rename_i hfading
      rw [Scalar.clamp_of_mem (div_nonneg (by linarith) (by norm_num))
        ((div_le_one (by norm_num)).mpr (by linarith))]
    · rename_i hwhole
      rw [Scalar.clamp_of_ge zero_le_one ((one_le_div (by norm_num)).mpr (by linarith))]

theorem segmentRatio_real {g : Growth ℝ} {index : ℕ} (h : index < g.total) :
    g.segmentRatio index = .ok (g.share index) := by
  have htotal : g.total ≠ 0 := Nat.ne_zero_of_lt h
  unfold segmentRatio share
  by_cases hnone : g.growth ≤ 0
  · simp [hnone]
  · simp [hnone, htotal, Scalar.quotient, Scalar.isInfinite_real, revealed_real, Except.map]

theorem share_mem (g : Growth ℝ) (index : ℕ) : g.share index ∈ Set.Icc 0 1 := by
  unfold share
  split
  · exact ⟨le_refl 0, zero_le_one⟩
  · exact Scalar.clamp_mem zero_le_one _

/-- Of later segments no more is shown. -/
theorem share_antitone (g : Growth ℝ) : Antitone g.share := by
  intro i j hij
  unfold share
  split
  · exact le_refl 0
  · rename_i hpos
    have hgrowth : 0 < g.growth := not_le.mp hpos
    apply Scalar.clamp_mono
    gcongr

/-- With the growth more is shown of each segment. -/
theorem Risen.share_le {was now : Growth ℝ} (h : Risen was now) (index : ℕ) :
    was.share index ≤ now.share index := by
  by_cases hnone : was.growth ≤ 0
  · have hzero : was.share index = 0 := if_pos hnone
    rw [hzero]
    exact (share_mem now index).1
  · have hpos : 0 < was.growth := not_le.mp hnone
    have hgrowth := h.growth
    have hnow : ¬ now.growth ≤ 0 := not_le.mpr (hpos.trans_le hgrowth)
    have htotal : now.total = was.total := congrArg Array.size h.segments
    unfold share
    rw [if_neg hnone, if_neg hnow, htotal]
    apply Scalar.clamp_mono
    gcongr

theorem fruitRatio_real (g : Growth ℝ) :
    g.fruitRatio = Scalar.clamp ((g.growth - 0.7) / 0.3) 0 1 := by
  unfold fruitRatio fruitReveal
  split
  · rename_i hearly
    rw [Scalar.clamp_of_le (div_nonpos_of_nonpos_of_nonneg (by linarith) (by norm_num))]
  · rw [remap_real (by norm_num)]
    norm_num

theorem Risen.fruitRatio_le {was now : Growth ℝ} (h : Risen was now) :
    was.fruitRatio ≤ now.fruitRatio := by
  have hgrowth := h.growth
  rw [fruitRatio_real, fruitRatio_real]
  apply Scalar.clamp_mono
  gcongr

/-- In exact arithmetic nothing that is shown of a plant ever shrinks, whatever is asked of its plan
and whatever fails: what is revealed of a segment is its share, from 0 to 1, which no call takes
away from; that of a later segment is never more than that of an earlier one; and the fruits have a
share from 0 to 1, too, that only rises. -/
theorem reveals_onward {segments : Array (Segment ℝ)} {fruits : List (Fruit ℝ)} {rate divisor : ℝ}
    {g₀ : Growth ℝ} (hrate : 0 ≤ rate) (hnew : Growth.new segments fruits rate divisor = .ok g₀)
    (crew : Crew ℝ σ) (s₀ : σ) (calls later : List Call) :
    let p := (tries crew calls (g₀, s₀)).state
    let q := (tries crew later p).state
    (∀ i < segments.size,
      p.1.segmentRatio i = .ok (p.1.share i) ∧ q.1.segmentRatio i = .ok (q.1.share i) ∧
        0 ≤ p.1.share i ∧ p.1.share i ≤ q.1.share i ∧ q.1.share i ≤ 1) ∧
    (∀ i j, i ≤ j → p.1.share j ≤ p.1.share i) ∧
    0 ≤ p.1.fruitRatio ∧ p.1.fruitRatio ≤ q.1.fruitRatio ∧ q.1.fruitRatio ≤ 1 := by
  intro p q
  have hstart : Risen g₀ g₀ ∧ 0 ≤ g₀.rate ∧ g₀.segments = segments := by
    obtain ⟨_, rfl⟩ := of_new hnew
    exact ⟨.refl zero_le_one, hrate, rfl⟩
  obtain ⟨hzero, hrate, hsegments⟩ := hstart
  have hp : Risen g₀ p.1 := hzero.tries (p := (g₀, s₀)) hrate calls
  have hq : Risen p.1 q.1 := (Risen.refl hp.most).tries (hp.rate ▸ hrate) later
  have htotal : p.1.total = segments.size := congrArg Array.size (hp.segments.trans hsegments)
  have htotal' : q.1.total = p.1.total := congrArg Array.size hq.segments
  refine ⟨fun i hi => ?_, fun i j hij => p.1.share_antitone hij, ?_, hq.fruitRatio_le, ?_⟩
  · rw [← htotal] at hi
    exact ⟨segmentRatio_real hi, segmentRatio_real (htotal' ▸ hi), (share_mem _ _).1,
      hq.share_le i, (share_mem _ _).2⟩
  · rw [fruitRatio_real]
    exact (Scalar.clamp_mem zero_le_one _).1
  · rw [fruitRatio_real]
    exact (Scalar.clamp_mem zero_le_one _).2

theorem reveals_onward_knotted :
    (0 : ℝ) ≤ 0.5 ∧ Growth.new knots [] 0.5 50 = .ok knotted ∧
      let p := (tries tally [.roots, .tick] (knotted, 0)).state
      let q := (tries tally [.roots, .tick] p).state
      (∀ i < knots.size,
        p.1.segmentRatio i = .ok (p.1.share i) ∧ q.1.segmentRatio i = .ok (q.1.share i) ∧
          0 ≤ p.1.share i ∧ p.1.share i ≤ q.1.share i ∧ q.1.share i ≤ 1) ∧
      (∀ i j, i ≤ j → p.1.share j ≤ p.1.share i) ∧
      0 ≤ p.1.fruitRatio ∧ p.1.fruitRatio ≤ q.1.fruitRatio ∧ q.1.fruitRatio ≤ 1 := by
  have hrate : (0 : ℝ) ≤ 0.5 := by norm_num
  exact ⟨hrate, knotted_new,
    reveals_onward hrate knotted_new tally 0 [.roots, .tick] [.roots, .tick]⟩

end Arboretum.Growth
