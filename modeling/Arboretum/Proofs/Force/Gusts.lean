import Mathlib.Data.Real.Basic
import Mathlib.Data.Sign.Basic
import Arboretum.Force.Wind
import Arboretum.Proofs.Force.Superposition

/-!
Which way the wind pushes, and how hard. In exact arithmetic the push is the force of the wind times
a factor that grows with the height and one that falls with the mass. No end is set to either: there
is a mass that no wind moves, and what is heavier than that goes against the wind.
-/
namespace Arboretum

namespace Wind

variable {wind : Wind ℝ} {p q : Particle ℝ}

/-- The mass that no wind moves. -/
noncomputable def stillMass : ℝ := 2.95

theorem massFactor_real (mass : ℝ) : massFactor mass = (stillMass - mass) / 1.9 := by
  have hline : massFactor mass = 1.5 + (mass - 0.1) * (0.5 - 1.5) / (2.0 - 0.1) :=
    remap_real (by norm_num) mass 1.5 0.5
  have htwo : (2.0 : ℝ) = 2 := by norm_num
  rw [hline, htwo, stillMass]
  ring

theorem heightFactor_real (h : wind.top < wind.groundY) (y : ℝ) :
    wind.heightFactor y = 0.5 + (wind.groundY - y) / (wind.groundY - wind.top) * 1.5 := by
  have hline : wind.heightFactor y =
      0.5 + (y - wind.groundY) * (2.0 - 0.5) / (wind.top - wind.groundY) :=
    remap_real h.ne y 0.5 2.0
  have htwo : (2.0 : ℝ) = 2 := by norm_num
  rw [hline, htwo, ← neg_sub wind.groundY y, ← neg_sub wind.groundY wind.top, neg_mul,
    neg_div_neg_eq]
  ring

theorem heightFactor_pos (h : wind.top < wind.groundY) {y : ℝ} (hy : y ≤ wind.groundY) :
    0 < wind.heightFactor y := by
  have hpart : 0 ≤ (wind.groundY - y) / (wind.groundY - wind.top) :=
    div_nonneg (sub_nonneg.mpr hy) (sub_pos.mpr h).le
  rw [heightFactor_real h]
  linarith

theorem heightFactor_antitone (h : wind.top < wind.groundY) : Antitone wind.heightFactor := by
  intro y y' hy
  have hspan : 0 < wind.groundY - wind.top := sub_pos.mpr h
  rw [heightFactor_real h, heightFactor_real h]
  gcongr

theorem push_x (wind : Wind ℝ) (tick : ℝ) (p : Particle ℝ) : (wind.push tick p).x =
    wind.force * wind.heightFactor p.position.y * ((stillMass - p.mass) / 1.9) := by
  rw [← massFactor_real]
  rfl

/-- What is lighter than the still mass goes with the wind, what is heavier goes against it. -/
theorem sign_push (h : wind.top < wind.groundY) (hp : p.position.y ≤ wind.groundY) (tick : ℝ) :
    SignType.sign (wind.push tick p).x =
      SignType.sign wind.force * SignType.sign (stillMass - p.mass) := by
  have hscale : SignType.sign ((stillMass - p.mass) / 1.9) =
      SignType.sign (stillMass - p.mass) := by
    rw [div_eq_mul_inv, sign_mul, sign_pos (by norm_num : (0 : ℝ) < 1.9⁻¹), mul_one]
  rw [push_x, sign_mul, sign_mul, sign_pos (heightFactor_pos h hp), mul_one, hscale]

theorem abs_push (h : wind.top < wind.groundY) (hp : p.position.y ≤ wind.groundY) (tick : ℝ) :
    |(wind.push tick p).x| =
      |wind.force| * wind.heightFactor p.position.y * (|stillMass - p.mass| / 1.9) := by
  have hscale : |(1.9 : ℝ)| = 1.9 := abs_of_pos (by norm_num)
  rw [push_x, abs_mul, abs_mul, abs_div, hscale, abs_of_pos (heightFactor_pos h hp)]

/-- The wind pushes what is higher, and farther from the still mass, at least as hard. -/
theorem abs_push_le (h : wind.top < wind.groundY) (hq : q.position.y ≤ wind.groundY)
    (hhigh : p.position.y ≤ q.position.y) (hmass : |stillMass - q.mass| ≤ |stillMass - p.mass|)
    (tick : ℝ) : |(wind.push tick q).x| ≤ |(wind.push tick p).x| := by
  have hfactor := heightFactor_antitone h hhigh
  have hpos := heightFactor_pos h (hhigh.trans hq)
  rw [abs_push h hq, abs_push h (hhigh.trans hq)]
  gcongr

/-- At one height, what is farther from the still mass is pushed harder. -/
theorem abs_push_lt (h : wind.top < wind.groundY) (hforce : wind.force ≠ 0)
    (hq : q.position.y ≤ wind.groundY) (hlevel : p.position.y = q.position.y)
    (hmass : |stillMass - p.mass| < |stillMass - q.mass|) (tick : ℝ) :
    |(wind.push tick p).x| < |(wind.push tick q).x| := by
  have hpos : 0 < |wind.force| * wind.heightFactor q.position.y :=
    mul_pos (abs_pos.mpr hforce) (heightFactor_pos h hq)
  rw [abs_push h hq, abs_push h (hlevel.trans_le hq), hlevel]
  gcongr

/-- Of two masses the lighter is at least as far from the still mass, unless they are too heavy. -/
theorem still_abs_le {m n : ℝ} (h : m ≤ n) (hheavy : m < n → m + n ≤ 2 * stillMass) :
    |stillMass - n| ≤ |stillMass - m| := by
  rcases h.lt_or_eq with hlt | rfl
  · have hsum := hheavy hlt
    exact abs_le_abs (by linarith) (by linarith)
  · exact le_refl _

theorem still_abs_lt {m n : ℝ} (h : m < n) (hheavy : 2 * stillMass < m + n) :
    |stillMass - m| < |stillMass - n| := by
  have hn : n - stillMass ≤ |stillMass - n| := by
    rw [abs_sub_comm]
    exact le_abs_self _
  exact (abs_lt.mpr ⟨by linarith, by linarith⟩).trans_le hn

/-! ### A call -/

open World

/-- A wind pushes every free one of some points, each as it is. -/
theorem apply_loaded {w : World ℝ} (h : Sound w) (henabled : wind.enabled = true)
    (hforce : wind.force ≠ 0) (points : List Nat) (tick : ℤ) :
    (wind.apply points tick w).result = .ok (w.free points).length ∧
      (wind.apply points tick w).state = w.loaded points (w.felt (wind.push tick)) := by
  rw [← foldl_shove_free]
  have hcalm : (!wind.enabled || wind.force == 0) = false := by simp [henabled, hforce]
  unfold apply
  rw [hcalm, if_neg Bool.false_ne_true, Action.read_bind]
  dsimp only
  split
  · rename_i hnone
    rw [List.isEmpty_iff.mp hnone]
    exact ⟨rfl, rfl⟩
  · rw [Scalar.ofInt_real, Action.ofExcept_ok, pure_bind]
    obtain ⟨hresult, hstate⟩ :=
      pushAll_shoves h ((w.free points).map fun x => (x.1, wind.push tick x.2))
    rw [Action.bind_of_ok hresult]
    exact ⟨rfl, hstate⟩

/-- A wind that blows pushes every free point of those that it is shown, by a force of its own, and
nothing else. Up from the ground, that force has the direction of the wind for what is lighter than
the still mass, and the opposite one for what is heavier. Of two points, the one that is at least as
high and at most as heavy is pushed at least as hard as long as their masses come to no more than
twice the still mass; beyond that the heavier of two points at one height is pushed harder. -/
theorem turns_at_stillMass {w : World ℝ} (hw : Reached w) {points : List Nat}
    (hpoints : points.Nodup) (henabled : wind.enabled = true) (hforce : wind.force ≠ 0)
    (hspan : wind.top < wind.groundY) (tick : ℤ) :
    let report := wind.apply points tick w
    report.result = .ok (w.free points).length ∧
    (∃ rows, report.state = { w with rows }) ∧
    (∀ id, report.state.particle? id = (w.particle? id).map fun p =>
      if id ∈ points ∧ p.pinned = false then
        { p with force := p.force + wind.push tick p }
      else p) ∧
    (∀ p : Particle ℝ, p.position.y ≤ wind.groundY →
      SignType.sign (wind.push tick p).x =
        SignType.sign wind.force * SignType.sign (stillMass - p.mass)) ∧
    (∀ p q : Particle ℝ, p.position.y ≤ q.position.y → q.position.y ≤ wind.groundY →
      p.mass ≤ q.mass → (p.mass < q.mass → p.mass + q.mass ≤ 2 * stillMass) →
      |(wind.push tick q).x| ≤ |(wind.push tick p).x|) ∧
    (∀ p q : Particle ℝ, p.position.y = q.position.y → q.position.y ≤ wind.groundY →
      p.mass < q.mass → 2 * stillMass < p.mass + q.mass →
      |(wind.push tick p).x| < |(wind.push tick q).x|) := by
  have h := hw.sound
  intro report
  obtain ⟨hresult, hstate⟩ := apply_loaded h henabled hforce points tick
  refine ⟨hresult, ⟨_, hstate⟩, fun id => ?_, fun p hp => sign_push hspan hp tick, ?_, ?_⟩
  · rw [hstate]
    exact particle?_loaded_felt h hpoints (wind.push tick) id
  · intro p q hhigh hq hmass hheavy
    exact abs_push_le hspan hq hhigh (still_abs_le hmass hheavy) tick
  · intro p q hlevel hq hmass hheavy
    exact abs_push_lt hspan hforce hq hlevel (still_abs_lt hmass hheavy) tick

/-! ### Two stems -/

/-- A wind over the whole height of a garden. -/
noncomputable def breeze : Wind ℝ := { default 700 with force := 1 }

/-- The lowest joint of a slender stem, and that of one that was thickened four times. -/
noncomputable def stems : World ℝ :=
  (history World.perform [.addPoint ⟨0, 700⟩ 2.0 false, .addPoint ⟨0, 700⟩ 4.1472 false]
    (World.new 0 Setting.default 1)).2

theorem particle?_stems (id : Nat) : stems.particle? id =
    if id = 1 then some (.atRest ⟨0, 700⟩ 4.1472 false)
    else if id = 0 then some (.atRest ⟨0, 700⟩ 2.0 false) else none := by
  have hready : Ready (World.new 0 (Setting.default : Setting ℝ) 1) := .new 0 _ (Nat.le_refl 1)
  have hstore : stems.store = _ := store_history hready _
  rw [store_new] at hstore
  have hpoint : stems.particle? id = _ := congrArg (fun st => st.points id) hstore
  have hslender : massOf (2.0 : ℝ) = 2.0 := if_neg (by norm_num)
  have hstout : massOf (4.1472 : ℝ) = 4.1472 := if_neg (by norm_num)
  rw [hpoint]
  simp [history, Store.perform, Store.empty, Function.update_apply, hslender, hstout]

theorem reached_stems : Reached stems := reached_history (.new 0 _ 1) _

theorem breeze_blows : breeze.enabled = true ∧ breeze.force ≠ 0 ∧ breeze.top < breeze.groundY :=
  ⟨rfl, one_ne_zero, by norm_num [breeze, default, new]⟩

theorem turns_at_stillMass_slender :
    Reached stems ∧ [0].Nodup ∧ breeze.enabled = true ∧ breeze.force ≠ 0 ∧
      breeze.top < breeze.groundY ∧
      ((breeze.apply [0] 0 stems).state.particle? 0).map (SignType.sign ·.force.x) =
        some (SignType.sign breeze.force) := by
  have hpoints : [0].Nodup := by decide
  obtain ⟨henabled, hforce, hspan⟩ := breeze_blows
  obtain ⟨-, -, hparticle, hsign, -⟩ :=
    turns_at_stillMass reached_stems hpoints henabled hforce hspan 0
  refine ⟨reached_stems, hpoints, henabled, hforce, hspan, ?_⟩
  have hground := hsign (.atRest ⟨0, 700⟩ 2.0 false) (le_refl _)
  have hlight : SignType.sign (stillMass - 2.0) = 1 := sign_pos (by norm_num [stillMass])
  rw [hparticle, particle?_stems]
  simpa [Particle.atRest, hlight] using hground

/-- The heavier of the two joints goes against the wind, and is pushed harder. -/
theorem stout_stem_turned :
    Reached stems ∧ stems.particle? 0 = some (.atRest ⟨0, breeze.groundY⟩ 2.0 false) ∧
      stems.particle? 1 = some (.atRest ⟨0, breeze.groundY⟩ 4.1472 false) ∧
      0 < breeze.force ∧ breeze.top < breeze.groundY ∧
      let after := (breeze.apply [0, 1] 0 stems).state
      (after.particle? 0).map (·.force.x) = some (1 / 4) ∧
      (after.particle? 1).map (·.force.x) = some (-2993 / 9500) := by
  obtain ⟨henabled, hforce, hspan⟩ := breeze_blows
  have hsound := reached_stems.sound
  obtain ⟨-, hstate⟩ := apply_loaded hsound henabled hforce [0, 1] 0
  have hground : breeze.force * breeze.heightFactor 700 = 1 / 2 := by
    rw [heightFactor_real hspan]
    norm_num [breeze, default, new]
  have hpush (mass : ℝ) : (breeze.push (0 : ℤ) (.atRest ⟨0, 700⟩ mass false)).x =
      1 / 2 * ((stillMass - mass) / 1.9) := by
    rw [push_x]
    exact congrArg (· * ((stillMass - mass) / 1.9)) hground
  refine ⟨reached_stems, particle?_stems 0, particle?_stems 1, one_pos, hspan, ?_⟩
  dsimp only
  rw [hstate, particle?_loaded_felt hsound (by decide), particle?_loaded_felt hsound (by decide),
    particle?_stems, particle?_stems]
  have hlight : 1 / 2 * ((stillMass - 2.0) / 1.9) = 1 / 4 := by norm_num [stillMass]
  have hheavy : 1 / 2 * ((stillMass - 4.1472) / 1.9) = -2993 / 9500 := by norm_num [stillMass]
  exact ⟨congrArg some ((zero_add _).trans ((hpush 2.0).trans hlight)),
    congrArg some ((zero_add _).trans ((hpush 4.1472).trans hheavy))⟩

end Wind
end Arboretum
