import Mathlib.Data.Real.Basic
import Arboretum.Proofs.Exact
import Arboretum.Proofs.Garden.Isolation
import Arboretum.Proofs.Garden.Schedule
import Arboretum.Proofs.Sorting

/-!
Plantings in order. In exact arithmetic the schedule of a garden is what was asked for and has
neither been tried nor been given up, by due time, and what is due together in the order of asking.
-/
namespace Arboretum

open Arboretum.Action

/-! ### Draws from 0 up to 1 -/

namespace Draws

variable {β ν : Type}

theorem entry?_of_lt {xs : List β} {place : Int} (hlow : 0 ≤ place) (hhigh : place < xs.length) :
    ∃ x, entry? xs place = some x := by
  have hplace : place.toNat < xs.length := by omega
  refine ⟨xs[place.toNat], ?_⟩
  unfold entry?
  rw [if_neg (by omega), if_neg (by omega), List.getElem?_eq_getElem hplace]

/-- Some entry of a list is chosen, unless it has none. -/
theorem choose_real {xs : List β} (hxs : xs ≠ []) (hsize : xs.length < 2 ^ 63) (outside : Fault)
    {d : Draws ℝ} (h : 0 ≤ d.draw d.taken ∧ d.draw d.taken < 1) :
    (choose xs outside d : Report ν (Draws ℝ) β).result.isOk := by
  have hlength : (0 : ℝ) < xs.length := by
    exact_mod_cast List.length_pos_of_ne_nil hxs
  have hlow : 0 ≤ ⌊d.draw d.taken * (xs.length : ℝ)⌋ :=
    Int.floor_nonneg.mpr (mul_nonneg h.1 hlength.le)
  have hhigh : ⌊d.draw d.taken * (xs.length : ℝ)⌋ < xs.length := by
    apply Int.floor_lt.mpr
    exact_mod_cast mul_lt_of_lt_one_left hlength h.2
  obtain ⟨x, hx⟩ := entry?_of_lt hlow hhigh
  have hplace : isPlace ⌊d.draw d.taken * (xs.length : ℝ)⌋ = true := by
    simp only [isPlace, Bool.and_eq_true, decide_eq_true_eq]
    omega
  have hfloor : Scalar.floor (d.draw d.taken * (xs.length : ℝ)) =
      .ok ⌊d.draw d.taken * (xs.length : ℝ)⌋ := rfl
  simp only [choose, bind_apply, next, ofExcept_apply, hfloor, hplace, hx]
  rfl

end Draws

/-! ### Lists in order -/

/-- Plantings by due time, and those that are due together in the order of another list. -/
structure Queue (asked pending : List (Pending ℝ)) : Prop where
  sorted : pending.Pairwise fun a b => a.due ≤ b.due
  stable : ∀ time, pending.filter (·.due = time) = asked.filter (·.due = time)

namespace Queue

variable {asked pending : List (Pending ℝ)}

theorem nil : Queue [] [] := ⟨.nil, fun _ => rfl⟩

/-- New plantings come in behind those that are due at the same time. -/
theorem schedule (h : Queue asked pending) (new : List (Pending ℝ)) :
    Queue (asked ++ new) ((pending ++ new).mergeSort fun a b => a.due ≤ b.due) where
  sorted := by
    have hsorted := List.pairwise_mergeSort (key_trans Pending.due) (key_total _) (pending ++ new)
    simpa using hsorted
  stable time := by
    rw [filter_mergeSort Pending.due, List.filter_append, List.filter_append, h.stable time]

/-- What is taken out by due time is taken out of both. -/
theorem filter (h : Queue asked pending) (keep : ℝ → Bool) :
    Queue (asked.filter (keep ·.due)) (pending.filter (keep ·.due)) where
  sorted := h.sorted.filter _
  stable time := by
    rw [List.filter_comm, h.stable time, List.filter_comm]

/-- Nothing is lost, and nothing comes twice. -/
theorem perm (h : Queue asked pending) : pending.Perm asked := by
  classical
  apply List.perm_iff_count.mpr
  intro entry
  have hcount := congrArg (List.count entry) (h.stable entry.due)
  rwa [List.count_filter (by simp), List.count_filter (by simp)] at hcount

end Queue

/-! ### Attempts -/

namespace Garden

variable {g g₀ : Garden ℝ}

/-- A place on the ground line of a garden, between a tenth and nine tenths of its width. -/
def Sited (g : Garden ℝ) (spot : Vec ℝ) : Prop :=
  spot.y = g.groundY ∧ ∃ share : ℝ, 0.1 ≤ share ∧ share ≤ 0.9 ∧ spot.x = share * g.width

/-- A garden with the measures and the stream of another. -/
def SameGround (g₀ g : Garden ℝ) : Prop :=
  g.width = g₀.width ∧ g.height = g₀.height ∧ g.draws.draw = g₀.draws.draw

theorem planned_sameGround : Planned (SameGround g₀) := fun _ _ _ _ _ _ _ _ _ _ h => h

/-- Every draw is at least 0 and below 1. -/
def Fair (g : Garden ℝ) : Prop := ∀ i, 0 ≤ g.draws.draw i ∧ g.draws.draw i < 1

/-- An attempt is made on the ground, away from the edges. -/
theorem meets_attempt (hfair : g₀.Fair) (entry : Pending ℝ) :
    Meets (SameGround g₀) (attempt entry) (fun _ => True)
      fun spot g => Sited g₀ spot ∧ SameGround g₀ g := by
  intro g hg
  refine ⟨fun _ _ => trivial, fun spot hspot => ⟨?_, ?_⟩⟩
  · obtain ⟨hwidth, hheight, hstream⟩ := hg
    unfold attempt at hspot
    rw [read_bind] at hspot
    obtain ⟨place, hplace, hrest⟩ := of_bind_ok hspot
    obtain ⟨_, -, hplanted⟩ := of_bind_ok hrest
    rw [site_apply] at hplace
    cases hplace
    cases hplanted
    obtain ⟨hlow, hhigh⟩ := hfair g.draws.taken
    rw [← hstream] at hlow hhigh
    refine ⟨?_, 1 / 10 + 8 / 10 * g.draws.draw g.draws.taken, by linarith, by linarith, ?_⟩
    · simp only [groundY, hheight]
    · rw [← hwidth]
      show g.width * (0.1 : ℝ) + (g.width * (0.9 : ℝ) - g.width * (0.1 : ℝ)) *
        g.draws.draw g.draws.taken = _
      norm_num
      ring
  · exact planned_sameGround.attempt (fun _ _ h => h) entry g hg

/-! ### Ticks -/

/-- A tick tries the plantings that are due, each on the ground and away from the edges, and does
nothing else about the schedule. -/
structure Tries (dt : ℝ) (g : Garden ℝ) : Prop where
  returns : (update dt g).result = .ok ()
  attempts : update dt g = (do let _ ← forEach g.due attempt; proceed dt : Tending ℝ Unit) g
  spots : ∃ spots, (forEach g.due attempt g).result = .ok spots ∧ spots.length = g.due.length ∧
    ∀ spot ∈ spots, g.Sited spot
  pending : (update dt g).state.pending = g.pending.filter (¬ ·.due ≤ g.clock.seconds)

theorem choose_fair (hfair : g.Fair) (taken : Nat) :
    (Preset.choose ⟨g.draws.draw, taken⟩ : Report (Note ℝ) (Draws ℝ) Preset).result.isOk :=
  Draws.choose_real (by decide) (by decide) _ (hfair taken)

/-- A tick cannot fail. -/
theorem Tidy.update_returns (h : Tidy g) (hfair : g.Fair) (dt : ℝ) :
    (update dt g).result = .ok () := by
  obtain ⟨hdue, hfilled⟩ := h.filled (choose_fair hfair)
  have hticks : (Scalar.ofInt (α := ℝ) (g.filled.tended dt).clock.ticks).isOk := by
    rw [Scalar.ofInt_real]
    rfl
  obtain ⟨points, hmovable, hforces, -⟩ := (hfilled.toTidy.tended dt).pushed hticks
  exact (update_of_parts hdue hmovable hforces).1

theorem Tidy.tries (h : Tidy g) (hfair : g.Fair)
    (hsorted : g.pending.Pairwise fun a b => a.due ≤ b.due) (dt : ℝ) : Tries dt g := by
  obtain ⟨hplanted, -⟩ := h.filled (choose_fair hfair)
  have hattempts : plantDue g.clock.seconds g.pending g =
      ((fun _ => ()) <$> forEach g.due attempt : Tending ℝ Unit) g :=
    plantDue_attempts hsorted rfl
  obtain ⟨spots, hspots⟩ : ∃ spots, (forEach g.due attempt g).result = .ok spots := by
    rw [hattempts, map_apply] at hplanted
    cases hr : (forEach g.due attempt g).result with
    | error e =>
      rw [hr] at hplanted
      cases hplanted
    | ok spots => exact ⟨spots, rfl⟩
  have hsited := Meets.forEach_all fun e (_ : e ∈ g.due) => meets_attempt hfair e
  have hground := (hsited g ⟨rfl, rfl, rfl⟩).2 spots hspots
  refine ⟨h.update_returns hfair dt, ?_, ⟨spots, hspots, hground.1⟩, ?_⟩
  · rw [update_proceed, read_bind, bind_eq_of hattempts fun _ _ => rfl, bind_map_left]
  · have hproceed : Planned fun t : Garden ℝ =>
        t.pending = g.pending.filter (¬ ·.due ≤ g.clock.seconds) := fun _ _ _ _ _ _ _ _ _ _ ht => ht
    rw [update_proceed, read_bind, bind_of_ok hplanted]
    exact hproceed.proceed dt _ (plantDue_pending hsorted rfl hplanted)

/-! ### Runs -/

/-- A tidy garden with fair draws, and what is awaited of its schedule. -/
structure Orderly (asked : List (Pending ℝ)) (g : Garden ℝ) : Prop extends Tidy g where
  fair : g.Fair
  queue : Queue asked g.pending

variable {asked : List (Pending ℝ)}

theorem fair_of_stream {g' : Garden ℝ} (h : g.Fair) (hstream : g'.draws.draw = g.draws.draw) :
    g'.Fair := by
  intro i
  rw [hstream]
  exact h i

/-- A garden with room for a plant and fair draws that deeds lead to, and what is awaited there. -/
inductive Awaits : List (Pending ℝ) → Garden ℝ → Prop where
  | new (width height : ℝ) {maxPlants : Int} (cooldown rate : ℝ) (scaleRange : ℝ × ℝ) (divisor : ℝ)
    {draws : Draws ℝ} (clocked : Bool) (hroom : 1 ≤ maxPlants)
    (hfair : ∀ i, 0 ≤ draws.draw i ∧ draws.draw i < 1) :
    Awaits [] (.new width height maxPlants cooldown rate scaleRange divisor draws clocked)
  | deed {asked : List (Pending ℝ)} {g : Garden ℝ} (h : Awaits asked g) (d : Deed ℝ) :
    Awaits (g.awaited asked d) (d.act g).state

/-- What leaves the schedule alone leaves what is awaited. -/
theorem Orderly.keep (h : Orderly asked g) {d : Deed ℝ}
    (hkeeps : ∀ kept, Planned kept → Keeps kept d.act) : Orderly asked (d.act g).state := by
  have hplanned : Planned fun t : Garden ℝ =>
      t.pending = g.pending ∧ t.draws.draw = g.draws.draw := fun _ _ _ _ _ _ _ _ _ _ ht => ht
  obtain ⟨hpending, hstream⟩ := hkeeps _ hplanned g ⟨rfl, rfl⟩
  exact ⟨tidy_act h.toTidy d, fair_of_stream h.fair hstream, hpending ▸ h.queue⟩

/-- Every deed leaves a schedule in order. -/
theorem Orderly.deed (h : Orderly asked g) (d : Deed ℝ) :
    Orderly (g.awaited asked d) (d.act g).state := by
  have hplanned : Planned fun t : Garden ℝ => t.draws.draw = g.draws.draw :=
    fun _ _ _ _ _ _ _ _ _ _ ht => ht
  have htidy : Tidy (d.act g).state := tidy_act h.toTidy d
  have hfair : (d.act g).state.Fair :=
    fair_of_stream h.fair (hplanned.act (fun _ _ ht => ht) d g rfl)
  cases d with
  | theme name => exact h.keep fun _ hk => .bind (hk.setTheme name) fun _ => .pure _
  | nextTheme => exact h.keep fun _ hk => .bind hk.cycleTheme fun _ => .pure _
  | plant spot kind grammar =>
    exact h.keep fun _ hk => .bind (hk.createPlant spot kind grammar) fun _ => .pure _
  | draw => exact h.keep fun _ hk => .bind keeps_frames fun _ => .pure _
  | wind => exact h.keep fun _ hk => .bind hk.toggleWind fun _ => .pure _
  | schedule count kind =>
    have hqueue := h.queue.schedule (g.batch count kind)
    exact ⟨htidy, hfair, schedule_pending count kind g ▸ hqueue⟩
  | tick dt =>
    have htries := h.toTidy.tries h.fair h.queue.sorted dt
    have hqueue := h.queue.filter fun time => decide ¬ time ≤ g.clock.seconds
    exact ⟨htidy, hfair, htries.pending ▸ hqueue⟩
  | clear => exact ⟨htidy, hfair, clear_pending g ▸ .nil⟩
  | reset => exact ⟨htidy, hfair, reset_pending g ▸ .nil⟩

theorem Awaits.orderly (h : Awaits asked g) : Orderly asked g := by
  induction h with
  | @new width height _ cooldown rate scaleRange divisor draws clocked hroom hfair =>
    have hlived := Lived.new width height cooldown rate scaleRange divisor draws clocked hroom
    exact ⟨hlived.tidy, hfair, .nil⟩
  | deed _ d ih => exact ih.deed d

/-- Whatever is asked of a garden, its schedule holds what is awaited, by due time, and what is due
together in the order of asking. A tick takes what is due off it and tries that, one planting after
the other; everything else stays until it is due, unless the schedule is given up. -/
theorem schedule_in_order (h : Awaits asked g) :
    Queue asked g.pending ∧ g.pending.Perm asked ∧ ∀ dt, Tries dt g := by
  have horderly := h.orderly
  refine ⟨horderly.queue, horderly.queue.perm, fun dt => ?_⟩
  exact horderly.toTidy.tries horderly.fair horderly.queue.sorted dt

/-- An empty bed of which every draw is a half. -/
noncomputable def fallow : Garden ℝ :=
  .new 1 1 defaultMaxPlants defaultCooldown Growth.defaultRate Plant.defaultScaleRange
    Growth.defaultDivisor ⟨fun _ => 0.5, 0⟩ true

/-- Three plantings of any kind, and two ferns that are due together with the first of them. -/
noncomputable def overlap : Garden ℝ :=
  ((Deed.schedule 2 (some "fern")).act ((Deed.schedule 3 none).act fallow).state).state

theorem schedule_in_order_overlap :
    let asked := [⟨0, none⟩, ⟨0.8, none⟩, ⟨1.6, none⟩, ⟨0, some "fern"⟩, ⟨0.8, some "fern"⟩]
    Awaits asked overlap ∧ Queue asked overlap.pending ∧ overlap.pending.length = 5 ∧
      Tries 0.1 overlap := by
  have hfallow : Awaits [] fallow :=
    .new _ _ _ _ _ _ _ (by decide) fun _ => ⟨by norm_num, by norm_num⟩
  have hasked := (hfallow.deed (.schedule 3 none)).deed (.schedule 2 (some "fern"))
  have hlist : ((Deed.schedule 3 none).act fallow).state.awaited
      (fallow.awaited [] (.schedule 3 none)) (.schedule 2 (some "fern")) =
      [⟨0, none⟩, ⟨0.8, none⟩, ⟨1.6, none⟩, ⟨0, some "fern"⟩, ⟨0.8, some "fern"⟩] := by
    have hclock : ((Deed.schedule 3 none).act fallow).state.clock.seconds = 0 := rfl
    have hstart : fallow.clock.seconds = 0 := rfl
    have hinterval : (interval : ℝ) = 4 / 5 := by
      show (0.8 : ℝ) = 4 / 5
      norm_num
    simp [awaited, batch, hclock, hstart, hinterval, maxScheduled, List.range_succ]
    norm_num
  rw [hlist] at hasked
  obtain ⟨hqueue, hperm, htries⟩ := schedule_in_order hasked
  exact ⟨hasked, hqueue, hperm.length_eq, htries 0.1⟩

end Garden
end Arboretum
