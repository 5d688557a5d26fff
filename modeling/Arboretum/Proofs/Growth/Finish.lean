import Mathlib.Algebra.Order.Archimedean.Real.Basic
import Mathlib.Algebra.Order.Floor.Semiring
import Arboretum.Proofs.Growth.Batches
import Arboretum.Proofs.Growth.Course

/-!
In exact arithmetic growth comes to its end. It takes so many ticks until the plant is fully grown,
and from then on every tick builds a whole batch, or all that is missing.
-/
namespace Arboretum.Growth

open Arboretum.Action

variable {α σ : Type}

/-- A plan that has come to its end with everything built. -/
def Finished (g : Growth α) : Prop :=
  g.stage = .steady ∧ ∀ i < g.total, g.isBuilt i = true

/-- Ticks until a plan is complete: how many, what came of the last, and what they left. One that
fails is the last. -/
inductive Loop [Scalar α] (crew : Crew α σ) :
    Growth α × σ → Nat → Except Fault Unit → Growth α × σ → Prop where
  | complete {p : Growth α × σ} (h : p.1.isComplete = true) : Loop crew p 0 (.ok ()) p
  | failed {p : Growth α × σ} {e : Fault} (h : p.1.isComplete = false)
      (he : (advance crew p).result = .error e) : Loop crew p 1 (.error e) (advance crew p).state
  | round {p q r : Growth α × σ} {n : Nat} {outcome : Except Fault Unit}
      (h : p.1.isComplete = false) (he : Ends (advance crew) p q)
      (hrest : Loop crew q n outcome r) : Loop crew p (n + 1) outcome r

/-- After so many ticks a plan has come to its end, whatever else was asked of it; and ticks until
it is complete are never more. -/
structure Finishes [Scalar α] (crew : Crew α σ) (start : Growth α × σ) (most : Nat) : Prop where
  ticks : ∀ calls p, most ≤ calls.count .tick → Ends (uses crew calls) start p → Finished p.1
  loop : ∀ calls p, Ends (uses crew calls) start p → ∃ n ≤ most, ∃ outcome q,
    Loop crew p n outcome q ∧ (outcome = .ok () → Finished q.1)

section
variable {g : Growth α} {done : List (Task α)}

theorem Books.full (h : Books g done) (hall : ∀ i < g.total, g.isBuilt i = true) :
    g.count = g.total := by
  have hsubset : List.range g.total ⊆ numbers done := by
    intro i hi
    exact (h.marks i).mp (hall i (List.mem_range.mp hi))
  have hle := (List.subperm_of_subset List.nodup_range hsubset).length_le
  rw [List.length_range, ← h.count] at hle
  exact Nat.le_antisymm h.count_le hle

theorem batchSize_eq {was now : Growth α} (hsegments : now.segments = was.segments)
    (hdivisor : now.divisor = was.divisor) : now.batchSize = was.batchSize := by
  unfold batchSize total
  rw [hsegments, hdivisor]

variable [Scalar α]

theorem Course.finished (h : Course g done) (hsteady : g.stage = .steady) : Finished g := by
  have hfull := h.full (h.steady.mp hsteady)
  exact ⟨hsteady, fun i hi => (h.books.marks i).mpr (h.books.all_of_full hfull i hi)⟩

theorem meets_braced (crew : Crew α σ) :
    Meets (Recorded fun _ _ => True) (brace (recording crew)) (fun _ => True)
      fun _ => Recorded fun g _ => g.bracesDue = false := by
  unfold brace
  refine meets_recorded_plan fun g => ?_
  split
  · refine Meets.bind (meets_written (fun _ _ => True) (fun _ _ _ _ => trivial)
      fun _ _ _ => trivial) fun made => ?_
    refine Meets.bind (meets_writing (fun g _ => g.bracesDue = false) fun _ _ _ => ?_) fun _ =>
      .note _
    simp [bracesDue]
  · rename_i hdue
    refine .pure ?_
    rintro ⟨_, r, t⟩ ⟨rfl, -⟩
    exact Bool.eq_false_iff.mpr hdue

theorem meets_hung (crew : Crew α σ) :
    Meets (Recorded fun g _ => g.bracesDue = false) (hang (recording crew)) (fun _ => True)
      fun _ => Recorded fun g _ => g.bracesDue = false ∧ g.fruitsDue = false := by
  unfold hang
  refine meets_recorded_plan fun g => ?_
  split
  · refine Meets.bind (meets_written (fun g _ => g.bracesDue = false)
      (fun _ _ _ _ => trivial) fun _ _ hp => hp.2) fun hung => ?_
    refine Meets.bind (meets_writing (fun g _ => g.bracesDue = false ∧ g.fruited = true)
      fun _ _ hp => ⟨hp, rfl⟩) fun _ => ?_
    refine Meets.bind (.note _) fun _ => meets_writing _ fun _ _ hp => ⟨hp.1, ?_⟩
    simp [fruitsDue, hp.2]
  · rename_i hdue
    refine .pure ?_
    rintro ⟨_, r, t⟩ ⟨rfl, hp⟩
    exact ⟨hp, Bool.eq_false_iff.mpr hdue⟩

/-- A tick leaves no braces and no fruits that are due. -/
theorem advance_settled {crew : Crew α σ} {p q : Growth α × List (Task α) × σ}
    (hstage : p.1.stage ≠ .steady) (he : Ends (advance (recording crew)) p q) :
    q.1.bracesDue = false ∧ q.1.fruitsDue = false := by
  obtain ⟨n, notes, he⟩ := he
  rw [advance_apply, if_neg hstage] at he
  have hbuild : Meets (fun _ => True) (buildDue (recording crew)) (fun _ => True)
      fun _ => Recorded fun _ _ => True := fun _ _ => ⟨fun _ _ => trivial, fun _ _ => trivial⟩
  have hwork : Meets (fun _ => True) (work (recording crew)) (fun _ => True)
      fun _ => Recorded fun g _ => g.bracesDue = false ∧ g.fruitsDue = false := by
    unfold work
    refine hbuild.bind fun _ => ?_
    refine (meets_braced crew).bind fun _ => ?_
    exact (meets_hung crew).bind fun _ => .pure fun _ hp => hp
  exact hwork.ends trivial ⟨n, notes, he⟩

end

/-! ### Exact arithmetic -/

variable {g : Growth ℝ} {done : List (Task ℝ)}

/-- A plan that is fully built and has nothing due is steady. -/
theorem Course.steady_of_full (h : Course g done) (hfull : g.count = g.total)
    (hbraces : g.bracesDue = false) (hfruits : g.fruitsDue = false) : g.stage = .steady := by
  have hmost : (braceFraction : ℝ) * (g.total : ℝ) ≤ (g.count : ℝ) := by
    have hfraction : (braceFraction : ℝ) ≤ 1 := by norm_num [braceFraction]
    rw [hfull]
    exact mul_le_of_le_one_left (Nat.cast_nonneg _) hfraction
  have hbraced : g.braced = true := by
    simpa [bracesDue, hmost] using hbraces
  have hfruited : g.fruited = true := by
    simpa [fruitsDue, hbraced, hfull] using hfruits
  exact h.steady.mpr hfruited

/-- A plan that is fully grown builds a batch in a tick, or all that is missing. -/
theorem Share.batch {was now : Growth ℝ} {n : Nat} (h : Share was n now)
    (hgrown : was.growth = 1) :
    now.total ≤ now.cursor ∨ min (was.batchSize : Int) (was.total - was.count) ≤ n := by
  have hlater : startFraction < was.growth := by
    rw [hgrown]
    norm_num [startFraction]
  obtain ⟨target, htarget, -, hend⟩ := h.due hlater
  rw [hgrown, one_mul] at htarget
  cases htarget.symm.trans (congrArg Except.ok (Int.floor_natCast was.total))
  exact hend

/-- How far a plan has come after `k` ticks, each of which adds `step` to its growth. -/
structure Progress (step : ℝ) (batch k : Nat) (g : Growth ℝ) (done : List (Task ℝ)) : Prop where
  course : Course g done
  rate : g.rate = step
  batchSize : g.batchSize = batch
  fresh : g.stage = .seeded → k = 0 ∧ done = []
  growth : g.stage ≠ .steady → min 1 (k * step) ≤ g.growth
  count : g.stage ≠ .steady → min g.total ((k - ⌈1 / step⌉₊) * batch) ≤ g.count
  unfinished : g.stage ≠ .steady → k ≠ 0 → g.count < g.total

namespace Progress

variable {step : ℝ} {batch k : Nat}

/-- Where the growth has had the time for it, the plant is fully grown. -/
theorem grown (hstep : 0 < step) (h : Progress step batch k g done) (hstage : g.stage ≠ .steady)
    (hk : ⌈1 / step⌉₊ ≤ k) : g.growth = 1 := by
  have hwhole : 1 ≤ k * step := by
    rw [← div_le_iff₀ hstep]
    exact (Nat.le_ceil _).trans (Nat.cast_le.mpr hk)
  have hgrowth := h.growth hstage
  rw [min_eq_left hwhole] at hgrowth
  exact le_antisymm h.course.high hgrowth

theorem new {segments : Array (Segment ℝ)} {fruits : List (Fruit ℝ)} {divisor : ℝ}
    (hstep : 0 ≤ step) (hnew : Growth.new segments fruits step divisor = .ok g) :
    Progress step g.batchSize 0 g [] := by
  have hcourse := Course.new hstep hnew
  obtain ⟨_, rfl⟩ := of_new hnew
  exact ⟨hcourse, rfl, rfl, fun _ => ⟨rfl, rfl⟩, fun _ => by simp, fun _ => by simp,
    fun _ hne => absurd rfl hne⟩

theorem place {crew : Crew ℝ σ} {p q : Growth ℝ × List (Task ℝ) × σ}
    (h : Progress step batch k p.1 p.2.1) (he : Ends (placeRoots (recording crew)) p q) :
    Progress step batch k q.1 q.2.1 := by
  by_cases hseeded : p.1.stage = .seeded
  · obtain ⟨hk, hnone⟩ := h.fresh hseeded
    have hbooks := h.course.books
    rw [hnone] at hbooks
    obtain ⟨hsince, hstage⟩ := placeRoots_course h.course (fun _ => hnone) he
    have hlaid := ((meets_rooting crew hbooks hseeded).ends ⟨rfl, hnone⟩ he).1
    have hsize : q.1.batchSize = p.1.batchSize := batchSize_eq hlaid.segments hlaid.divisor
    refine ⟨hsince.course, hlaid.rate.trans h.rate, hsize.trans h.batchSize,
      fun hseeded => absurd hseeded hstage, fun _ => ?_, fun _ => ?_, fun _ hne => absurd hk hne⟩
    · rw [hlaid.growth]
      exact h.growth (by simp [hseeded])
    · simp [hk]
  · obtain ⟨_, _, he⟩ := he
    cases (placeRoots_of_ne hseeded).symm.trans he
    exact h

theorem advance {crew : Crew ℝ σ} {p q : Growth ℝ × List (Task ℝ) × σ} (hstep : 0 < step)
    (h : Progress step batch k p.1 p.2.1) (he : Ends (advance (recording crew)) p q) :
    Progress step batch (k + 1) q.1 q.2.1 := by
  obtain ⟨hsince, hstage⟩ := advance_course h.course he
  by_cases hsteady : p.1.stage = .steady
  · cases use_steady .tick hsteady he
    exact ⟨h.course, h.rate, h.batchSize, fun hseeded => absurd hseeded hstage,
      fun hne => absurd hsteady hne, fun hne => absurd hsteady hne, fun hne => absurd hsteady hne⟩
  obtain ⟨hbraces, hfruits⟩ := advance_settled hsteady he
  obtain ⟨n, notes, hn⟩ := he
  obtain ⟨hbatch, hshare⟩ := advance_batch h.course.books hsteady hn
  have htotal : q.1.total = p.1.total := congrArg Array.size hbatch.segments
  have hsize : q.1.batchSize = p.1.batchSize := batchSize_eq hbatch.segments hbatch.divisor
  have hgrowth : q.1.growth = min 1 (p.1.growth + step) := by
    rw [hbatch.growth, ← h.rate]
    exact Scalar.least_real _ _
  refine ⟨hsince.course, hbatch.rate.trans h.rate, hsize.trans h.batchSize,
    fun hseeded => absurd hseeded hstage, fun _ => ?_, fun _ => ?_, fun hne _ => ?_⟩
  · have hwas := h.growth hsteady
    rw [hgrowth]
    push_cast
    rcases min_le_iff.mp hwas with hone | hless
    · exact le_min (min_le_left _ _) ((min_le_left _ _).trans (by linarith))
    · exact min_le_min_left 1 (by linarith)
  · have hcount : q.1.count = p.1.count + n := hbatch.count (h.course.books.restage rfl rfl rfl rfl)
    rcases Nat.lt_or_ge k ⌈1 / step⌉₊ with hearly | hlate
    · have hnone : k + 1 - ⌈1 / step⌉₊ = 0 := by omega
      rw [hnone, Nat.zero_mul, Nat.min_zero]
      exact Nat.zero_le _
    · -- The plant is fully grown, so all that is missing is due.
      have hgrown : p.1.gain.growth = 1 := by
        rw [← hbatch.growth, hgrowth, h.grown hstep hsteady hlate]
        exact min_eq_left (by linarith)
      rcases hshare.batch hgrown with hend | hfull
      · have hall := hsince.course.books.full fun i hi =>
          hsince.course.books.passed i (Nat.lt_of_lt_of_le hi hend)
        rw [hall]
        exact Nat.min_le_left _ _
      · have hwas := h.count hsteady
        have hmore : k + 1 - ⌈1 / step⌉₊ = (k - ⌈1 / step⌉₊) + 1 := by omega
        change min (p.1.batchSize : Int) (p.1.total - p.1.count) ≤ n at hfull
        rw [h.batchSize] at hfull
        rw [hmore, Nat.succ_mul, htotal, hcount]
        omega
  · refine Nat.lt_of_le_of_ne hsince.course.books.count_le fun hall => hne ?_
    exact hsince.course.steady_of_full hall hbraces hfruits

/-- When a plan has had its time, it has come to its end. -/
theorem finished (hstep : 0 < step) (h : Progress step batch k g done)
    (hk : ⌈1 / step⌉₊ + ⌈(g.total : ℝ) / batch⌉₊ ≤ k) : Finished g := by
  by_cases hsteady : g.stage = .steady
  · exact h.course.finished hsteady
  have hbatch : 0 < batch := by
    rw [← h.batchSize]
    exact Nat.lt_of_lt_of_le Nat.one_pos (Nat.le_max_left _ _)
  have hceil : 0 < ⌈1 / step⌉₊ := Nat.ceil_pos.mpr (one_div_pos.mpr hstep)
  have hmost : g.total ≤ (k - ⌈1 / step⌉₊) * batch := by
    have hbatches : (g.total : ℝ) ≤ (⌈(g.total : ℝ) / batch⌉₊ * batch : Nat) := by
      push_cast
      rw [← div_le_iff₀ (Nat.cast_pos.mpr hbatch)]
      exact Nat.le_ceil _
    exact (Nat.cast_le.mp hbatches).trans (Nat.mul_le_mul_right _ (by omega))
  have hcount := h.count hsteady
  have hless := h.unfinished hsteady (by omega)
  omega

theorem uses {crew : Crew ℝ σ} (hstep : 0 < step) (calls : List Call)
    {p q : Growth ℝ × List (Task ℝ) × σ} (h : Progress step batch k p.1 p.2.1)
    (he : Ends (uses (recording crew) calls) p q) :
    Progress step batch (k + calls.count .tick) q.1 q.2.1 := by
  induction calls generalizing p k with
  | nil =>
    obtain ⟨_, _, he⟩ := he
    cases he
    exact h
  | cons call calls ih =>
    obtain ⟨m, hfirst, hrest⟩ := he.of_cons
    cases call with
    | roots =>
      rw [List.count_cons_of_ne (by decide)]
      exact ih (h.place hfirst) hrest
    | tick =>
      rw [List.count_cons_self, Nat.add_comm _ 1, ← Nat.add_assoc]
      exact ih (h.advance hstep hfirst) hrest

/-- Ticks until a plan is complete end in the time that is left. -/
theorem loop (hstep : 0 < step) (crew : Crew ℝ σ) {left : Nat} {p : Growth ℝ × σ}
    {done : List (Task ℝ)} (h : Progress step batch k p.1 done)
    (hk : ⌈1 / step⌉₊ + ⌈(p.1.total : ℝ) / batch⌉₊ ≤ k + left) :
    ∃ n ≤ left, ∃ outcome q, Loop crew p n outcome q ∧ (outcome = .ok () → Finished q.1) := by
  induction left generalizing k p done with
  | zero =>
    have hfinished := h.finished hstep hk
    exact ⟨0, Nat.le_refl _, _, p, .complete (by simp [isComplete, hfinished.1]),
      fun _ => hfinished⟩
  | succ left ih =>
    cases hcomplete : p.1.isComplete with
    | true =>
      have hsteady : p.1.stage = .steady := by simpa [isComplete] using hcomplete
      exact ⟨0, Nat.zero_le _, _, p, .complete hcomplete, fun _ => h.course.finished hsteady⟩
    | false =>
      cases hresult : (Growth.advance crew p).result with
      | error e => exact ⟨1, by omega, _, _, .failed hcomplete hresult, fun he => by cases he⟩
      | ok m =>
        have he : Ends (Growth.advance crew) p (Growth.advance crew p).state :=
          .of_isOk (by rw [hresult]; rfl)
        obtain ⟨⟨g', done', t⟩, htold, hq⟩ := mirrors_advance.ends (t := (p.1, done, p.2)) he
        have hnext := advance (p := (p.1, done, p.2)) hstep h htold
        have honward := (advance_course (p := (p.1, done, p.2)) h.course htold).1.onward
        have htotal : g'.total = p.1.total := congrArg Array.size honward.segments
        rw [← hq] at he
        obtain ⟨n, hn, outcome, r, hrest, hend⟩ := ih (p := (g', t)) hnext (by
          rw [htotal]
          omega)
        exact ⟨n + 1, by omega, outcome, r, .round hcomplete he hrest, hend⟩

end Progress

/-- In exact arithmetic a plant that grows comes to its end, with all its segments built, in as many
ticks as it takes to be fully grown and to build its segments batch by batch. -/
theorem grows_up {segments : Array (Segment ℝ)} {fruits : List (Fruit ℝ)} {rate divisor : ℝ}
    {g₀ : Growth ℝ} (hrate : 0 < rate) (hnew : Growth.new segments fruits rate divisor = .ok g₀)
    (crew : Crew ℝ σ) (s₀ : σ) :
    Finishes crew (g₀, s₀) (⌈1 / rate⌉₊ + ⌈(segments.size : ℝ) / g₀.batchSize⌉₊) := by
  have hstart := Progress.new hrate.le hnew
  have htotal : g₀.total = segments.size := by
    obtain ⟨_, rfl⟩ := of_new hnew
    rfl
  have hreached {calls : List Call} {p : Growth ℝ × σ} (he : Ends (uses crew calls) (g₀, s₀) p) :
      p.1.total = segments.size ∧
        ∃ done, Progress rate g₀.batchSize (calls.count .tick) p.1 done := by
    obtain ⟨⟨g, done, s⟩, htold, rfl⟩ := (mirrors_uses calls).ends (t := (g₀, [], s₀)) he
    have honward := (uses_course calls hstart.course (fun _ => rfl) htold).1.onward
    have hprogress := hstart.uses (p := (g₀, [], s₀)) hrate calls htold
    rw [Nat.zero_add] at hprogress
    exact ⟨(congrArg Array.size honward.segments).trans htotal, done, hprogress⟩
  constructor
  · intro calls p hk he
    obtain ⟨hsize, done, hprogress⟩ := hreached he
    rw [← hsize] at hk
    exact hprogress.finished hrate hk
  · intro calls p he
    obtain ⟨hsize, done, hprogress⟩ := hreached he
    rw [← hsize]
    exact hprogress.loop hrate crew (Nat.le_add_left _ _)

/-- A segment that has collapsed to a point, and another one on it. -/
noncomputable def knots : Array (Segment ℝ) :=
  #[⟨⟨0, 0⟩, ⟨0, 0⟩, 0, 1, 0, Grammar.defaultFruitColour, true⟩,
    ⟨⟨0, 0⟩, ⟨0, -1⟩, 0, 1, 0, Grammar.defaultFruitColour, false⟩]

noncomputable def knotted : Growth ℝ where
  segments := knots
  fruits := []
  rate := 0.5
  divisor := 50
  stage := .seeded
  growth := 0
  built := Array.replicate 2 false
  count := 0
  braced := false
  fruited := false
  cursor := 0

theorem knotted_new : Growth.new knots [] 0.5 50 = .ok knotted := by
  have hdivisor : Scalar.truncate (50 : ℝ) = .ok 50 := by
    have hsign : ¬ (50 : ℝ) < 0 := by norm_num
    unfold Scalar.truncate
    rw [if_neg hsign]
    exact congrArg Except.ok (Int.floor_ofNat 50)
  unfold Growth.new
  rw [hdivisor]
  rfl

/-- Two ticks to be fully grown, and two more to build two segments one by one. -/
theorem grows_up_knotted :
    (0 : ℝ) < 0.5 ∧ Growth.new knots [] 0.5 50 = .ok knotted ∧
      Finishes tally (knotted, 0) 4 := by
  have hrate : (0 : ℝ) < 0.5 := by norm_num
  have hmost : ⌈1 / (0.5 : ℝ)⌉₊ + ⌈(knots.size : ℝ) / knotted.batchSize⌉₊ = 4 := by
    have hbatch : knotted.batchSize = 1 := rfl
    have hsize : knots.size = 2 := rfl
    rw [hbatch, hsize]
    norm_num
  have hfinishes := grows_up hrate knotted_new tally 0
  rw [hmost] at hfinishes
  exact ⟨hrate, knotted_new, hfinishes⟩

end Arboretum.Growth
