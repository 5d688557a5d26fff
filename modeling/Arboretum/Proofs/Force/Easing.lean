import Mathlib.Data.Real.Basic
import Mathlib.Order.Interval.Set.UnorderedInterval
import Mathlib.Tactic.Linarith
import Mathlib.Tactic.NormNum
import Arboretum.Force.Wind
import Arboretum.Proofs.Draws
import Arboretum.Proofs.Exact

/-!
The wind keeps within its cap. In exact arithmetic each update takes it a part of the way to the
target that it had, and the next target is drawn from within the cap; a wind that is switched off
stays as it is and draws nothing.
-/
namespace Arboretum

namespace Wind

/-- What is done with a wind. -/
inductive Turn where
  | update
  | toggle

section

variable {α : Type} [Scalar α]

def Turn.act : Turn → Action (Note α) (Wind α × Draws α) Unit
  | update => Wind.update
  | toggle => do let _ ← Wind.toggle.onFst

/-- A wind and its source of draws after some turns. -/
def after (s : Wind α × Draws α) (turns : List Turn) : Wind α × Draws α :=
  turns.foldl (fun s turn => (turn.act s).state) s

/-- The target that a number drawn from 0 up to 1 stands for. -/
def aim (cap u : α) : α := -cap + (cap - -cap) * u

/-- What an update makes of a wind and its source of draws. -/
def updated (w : Wind α) (d : Draws α) : Wind α × Draws α :=
  if w.enabled then
    if d.draw d.taken < w.retarget then
      ({ w.ease with target := aim w.cap (d.draw (d.taken + 1)) }, d.after 2)
    else (w.ease, d.after 1)
  else (w, d)

/-- No update can fail, and none writes a note. -/
theorem update_apply (w : Wind α) (d : Draws α) : update (w, d) = ⟨.ok (), w.updated d, []⟩ := by
  have hluck (s : Wind α × Draws α) : (Draws.next.onSnd s : Report (Note α) _ α) =
      ⟨.ok (s.2.draw s.2.taken), (s.1, s.2.after 1), []⟩ := rfl
  have haim (s : Wind α × Draws α) (cap : α) :
      ((Draws.uniform (-cap) cap).onSnd s : Report (Note α) _ α) =
        ⟨.ok (aim cap (s.2.draw s.2.taken)), (s.1, s.2.after 1), []⟩ := rfl
  unfold update updated
  rw [Action.read_bind]
  dsimp only
  split
  · rw [Action.bind_ok (Action.modify_apply _ _), Action.bind_ok (hluck _)]
    dsimp only
    split
    · rw [Action.bind_ok (haim _ _)]
      rfl
    · rfl
  · rfl

/-- What a turn makes of a wind and its source of draws. -/
def Turn.leave : Turn → Wind α × Draws α → Wind α × Draws α
  | update, (w, d) => w.updated d
  | toggle, (w, d) => ({ w with enabled := !w.enabled }, d)

theorem Turn.state_act (turn : Turn) (s : Wind α × Draws α) :
    (turn.act s).state = turn.leave s := by
  cases turn with
  | update => exact congrArg Report.state (update_apply s.1 s.2)
  | toggle => rfl

theorem after_eq_foldl (s : Wind α × Draws α) (turns : List Turn) :
    after s turns = turns.foldl (fun s turn => turn.leave s) s := by
  unfold after
  simp only [Turn.state_act]

theorem after_concat (s : Wind α × Draws α) (turns : List Turn) (turn : Turn) :
    after s (turns ++ [turn]) = turn.leave (after s turns) := by
  rw [after_eq_foldl, after_eq_foldl, List.foldl_concat]

end

/-! ### In exact arithmetic -/

variable {groundY top cap easing retarget : ℝ} {d : Draws ℝ} {s : Wind ℝ × Draws ℝ} {w : Wind ℝ}

/-- A number drawn from 0 up to 1 stands for a target within the cap. -/
theorem aim_abs_le (hcap : 0 ≤ cap) {u : ℝ} (hu : u ∈ Set.Ico 0 1) : |aim cap u| ≤ cap := by
  have hlow : 0 ≤ cap * u := mul_nonneg hcap hu.1
  have hhigh : cap * u ≤ cap := mul_le_of_le_one_right hcap hu.2.le
  have haim : aim cap u = 2 * (cap * u) - cap := by
    unfold aim
    ring
  rw [haim]
  exact abs_le.mpr ⟨by linarith, by linarith⟩

theorem ease_force (w : Wind ℝ) : w.ease.force - w.force = w.easing * (w.target - w.force) := by
  unfold ease
  ring

/-- A wind that eases does not pass its target. -/
theorem ease_between (h : w.easing ∈ Set.Icc 0 1) :
    w.ease.force ∈ Set.uIcc w.force w.target := by
  have hpart := ease_force w
  rw [← segment_eq_uIcc]
  refine ⟨1 - w.easing, w.easing, sub_nonneg.mpr h.2, h.1, by ring, ?_⟩
  rw [smul_eq_mul, smul_eq_mul]
  linarith

theorem ease_abs_le (h : w.easing ∈ Set.Icc 0 1) (hforce : |w.force| ≤ cap)
    (htarget : |w.target| ≤ cap) : |w.ease.force| ≤ cap :=
  abs_le.mpr (Set.uIcc_subset_Icc (abs_le.mp hforce) (abs_le.mp htarget) (ease_between h))

/-- The target is never farther away than from one end of the cap to the other. -/
theorem ease_abs_sub_le (h : 0 ≤ w.easing) (hforce : |w.force| ≤ cap) (htarget : |w.target| ≤ cap) :
    |w.ease.force - w.force| ≤ 2 * w.easing * cap := by
  calc |w.ease.force - w.force|
      = w.easing * |w.target - w.force| := by rw [ease_force, abs_mul, abs_of_nonneg h]
    _ ≤ w.easing * (|w.target| + |w.force|) := by gcongr; exact abs_sub _ _
    _ ≤ w.easing * (cap + cap) := by gcongr
    _ = 2 * w.easing * cap := by ring

/-- The force of an updated wind has eased, or is what it was where the wind is switched off. -/
theorem updated_force (w : Wind ℝ) (d : Draws ℝ) :
    (w.updated d).1.force = if w.enabled then w.ease.force else w.force := by
  unfold updated
  split
  · split <;> rfl
  · rfl

/-- A wind of a cap and an easing that is within its cap, with the source of draws that it had. -/
structure Within (limit rate : ℝ) (stream : Nat → ℝ) (s : Wind ℝ × Draws ℝ) : Prop where
  cap : s.1.cap = limit
  easing : s.1.easing = rate
  draws : s.2.draw = stream
  force : |s.1.force| ≤ limit
  target : |s.1.target| ≤ limit

theorem Within.updated (hcap : 0 ≤ cap) (heasing : easing ∈ Set.Icc 0 1)
    (hdraws : ∀ i, d.draw i ∈ Set.Ico 0 1) (h : Within cap easing d.draw s) :
    Within cap easing d.draw (s.1.updated s.2) := by
  have hforce : |s.1.ease.force| ≤ cap := ease_abs_le (h.easing ▸ heasing) h.force h.target
  have haim : |aim s.1.cap (s.2.draw (s.2.taken + 1))| ≤ cap := by
    rw [h.cap, h.draws]
    exact aim_abs_le hcap (hdraws _)
  unfold Wind.updated
  split
  · split
    · exact ⟨h.cap, h.easing, h.draws, hforce, haim⟩
    · exact ⟨h.cap, h.easing, h.draws, hforce, h.target⟩
  · exact h

theorem Within.leave (hcap : 0 ≤ cap) (heasing : easing ∈ Set.Icc 0 1)
    (hdraws : ∀ i, d.draw i ∈ Set.Ico 0 1) (h : Within cap easing d.draw s) (turn : Turn) :
    Within cap easing d.draw (turn.leave s) := by
  cases turn with
  | update => exact h.updated hcap heasing hdraws
  | toggle => exact ⟨h.cap, h.easing, h.draws, h.force, h.target⟩

/-- A new wind is still, and aims to be. -/
theorem within_after (hcap : 0 ≤ cap) (heasing : easing ∈ Set.Icc 0 1)
    (hdraws : ∀ i, d.draw i ∈ Set.Ico 0 1) (turns : List Turn) :
    Within cap easing d.draw (after (new groundY top cap easing retarget, d) turns) := by
  induction turns using List.reverseRecOn with
  | nil =>
    have hzero : |(0 : ℝ)| ≤ cap := abs_zero.trans_le hcap
    exact ⟨rfl, rfl, rfl, hzero, hzero⟩
  | append_singleton turns turn ih =>
    rw [after_concat]
    exact ih.leave hcap heasing hdraws turn

/-- With a cap that is not negative, an easing from 0 to 1 and numbers drawn from 0 up to 1, a wind
that was updated and switched any number of times from the start has a force and a target within
the cap. Its next update succeeds, changes the force by at most twice the cap times the easing, and
takes it to somewhere between where it was and the target that it had: of the way there the easing's
part is done, and what is left is the rest of it. A wind that is switched off is left as it is by an
update, its source of draws included, and no turn changes its force or its target or draws. -/
theorem keeps_within_cap (hcap : 0 ≤ cap) (heasing : easing ∈ Set.Icc 0 1)
    (hdraws : ∀ i, d.draw i ∈ Set.Ico 0 1) (turns : List Turn) :
    let s := after (new groundY top cap easing retarget, d) turns
    let next := update s
    |s.1.force| ≤ cap ∧ |s.1.target| ≤ cap ∧
    next.result = .ok () ∧
    |next.state.1.force - s.1.force| ≤ 2 * easing * cap ∧
    next.state.1.force ∈ Set.uIcc s.1.force s.1.target ∧
    (s.1.enabled = true →
      s.1.target - next.state.1.force = (1 - easing) * (s.1.target - s.1.force)) ∧
    (s.1.enabled = false → next.state = s ∧ ∀ turn : Turn, (turn.act s).state.2 = s.2 ∧
      (turn.act s).state.1.force = s.1.force ∧ (turn.act s).state.1.target = s.1.target) := by
  intro s next
  have h : Within cap easing d.draw s := within_after hcap heasing hdraws turns
  have hrate : s.1.easing ∈ Set.Icc 0 1 := h.easing ▸ heasing
  have hnext : next = ⟨.ok (), s.1.updated s.2, []⟩ := update_apply s.1 s.2
  have hforce : next.state.1.force = if s.1.enabled then s.1.ease.force else s.1.force := by
    rw [hnext]
    exact updated_force s.1 s.2
  have hstill : s.1.enabled = false → next.state = s := fun hoff => by
    simp [hnext, updated, hoff]
  refine ⟨h.force, h.target, by rw [hnext], ?_, ?_, fun hon => ?_, fun hoff => ⟨hstill hoff, ?_⟩⟩
  · rw [hforce]
    split
    · exact h.easing ▸ ease_abs_sub_le hrate.1 h.force h.target
    · rw [sub_self, abs_zero]
      exact mul_nonneg (mul_nonneg zero_le_two heasing.1) hcap
  · rw [hforce]
    split
    · exact ease_between hrate
    · exact Set.left_mem_uIcc
  · have hpart := ease_force s.1
    rw [hforce, if_pos hon]
    rw [h.easing] at hpart
    linarith
  · intro turn
    cases turn with
    | update =>
      have hsame : (Turn.update.act s).state = s := hstill hoff
      rw [hsame]
      exact ⟨rfl, rfl, rfl⟩
    | toggle => exact ⟨rfl, rfl, rfl⟩

/-- A wind that was updated, switched off, updated and switched on again has the target of its first
update, and goes half of the way there on the next. -/
theorem keeps_within_cap_breeze :
    let s := after (new 0 0 1 (1 / 2) (1 / 2), ⟨fun _ => 1 / 4, 0⟩)
      [.update, .toggle, .update, .toggle]
    |s.1.target| ≤ (1 : ℝ) ∧ s.1.force = 0 ∧ s.1.target = -(1 / 2) ∧
      (update s).state.1.force = -(1 / 4) := by
  intro s
  obtain ⟨-, htarget, -, -, -, hpart, -⟩ := @keeps_within_cap 0 0 1 (1 / 2) (1 / 2)
    ⟨fun _ => 1 / 4, 0⟩ zero_le_one (by norm_num) (by norm_num)
    [.update, .toggle, .update, .toggle]
  have hs : s.1.enabled = true ∧ s.1.force = 0 ∧ s.1.target = -(1 / 2) := by
    simp [s, after_eq_foldl, Turn.leave, updated, new, ease, aim]
    norm_num
  obtain ⟨hon, hforce, hgoal⟩ := hs
  have hhalf : s.1.target - (update s).state.1.force = (1 - 1 / 2) * (s.1.target - s.1.force) :=
    hpart hon
  rw [hforce, hgoal] at hhalf
  exact ⟨htarget, hforce, hgoal, by linarith⟩

end Wind
end Arboretum
