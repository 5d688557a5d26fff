import Mathlib.Algebra.Order.Archimedean.Real.Basic
import Mathlib.Algebra.Order.BigOperators.Group.List
import Mathlib.Algebra.Order.Floor.Semiring
import Arboretum.Proofs.Session.Frames

/-!
Real time and ticks. A frame updates the garden as often as its ticks are due, but no more than five
times, and what does not fill a tick is carried over. In exact arithmetic no time is made, and none
is lost except where a backlog is dropped.
-/
namespace Arboretum

open Arboretum.Action

namespace Session

section
variable {α : Type} [Scalar α]

/-! ### Counting -/

/-- Spends time like `spend`, and counts the updates of the garden as well. -/
def spendCounted : Nat → Playing α (Nat × Nat)
  | 0 => return (0, 0)
  | left + 1 => do
    let s ← Action.read
    if Clock.tick ≤ s.accumulator then
      gardening do
        Action.modify fun g => s.attractor.sources.foldl (fun g pull => g.addSource pull) g
        Garden.update Clock.tick
      Action.modify fun s => { s with accumulator := s.accumulator - Clock.tick }
      let (left, updates) ← spendCounted left
      return (left, updates + 1)
    else return (left + 1, 0)

/-- What a frame does with time: the time that was carried over, the scaled time of the frame,
whether the clock is paused after the events, and the number of updates of the garden. -/
structure Tally (α : Type) where
  carried : α
  given : α
  paused : Bool
  updates : Nat

/-- The time that the updates of a frame stand for. -/
def Tally.simulated (t : Tally α) : α := (t.updates : α) * Clock.tick

/-- A frame that tells what it does with time. -/
def counted (m : Moment α) : Playing α (Tally α × Screen α) := do
  let delta := Scalar.least (m.elapsed / 1000.0) maxDelta
  let before ← Action.read
  let _ ← Action.forEach m.events handle
  let s ← Action.read
  Action.modify fun s =>
    { s with accumulator := s.accumulator + s.garden.clock.scaled delta }
  let (left, updates) ← spendCounted maxTicks
  if left = 0 then Action.modify fun s => { s with accumulator := 0 }
  let shown ← screen
  return (⟨before.accumulator, s.garden.clock.scaled delta, s.garden.clock.paused, updates⟩, shown)

theorem spend_counted (left : Nat) :
    (spend left : Playing α Nat) = Prod.fst <$> spendCounted left := by
  induction left with
  | zero => rfl
  | succ left ih =>
    unfold spend spendCounted
    rw [map_bind]
    refine bind_congr fun s => ?_
    split
    · simp only [ih, map_eq_pure_bind, bind_assoc, pure_bind]
    · rfl

/-- Telling what a frame does changes nothing about it. -/
theorem frame_counted (m : Moment α) : frame m = Prod.snd <$> counted m := by
  unfold frame counted
  simp only [spend_counted, map_eq_pure_bind, bind_assoc, pure_bind]
  refine (read_unused fun before => ?_).symm
  refine bind_congr fun _ => read_unused fun s => ?_
  refine bind_congr fun _ => bind_congr fun count => ?_
  split
  · simp only [bind_assoc, pure_bind, bind_pure]
  · simp only [bind_assoc, pure_bind, bind_pure]

/-- Frames one after the other, and what they do with time. -/
theorem frames_counted (moments : List (Moment α)) :
    forEach moments frame = List.map Prod.snd <$> forEach moments counted := by
  induction moments with
  | nil => rfl
  | cons m rest ih =>
    simp only [forEach, ih, frame_counted, map_eq_pure_bind, bind_assoc, pure_bind, List.map_cons]

end

/-! ### Events -/

theorem keeps_time_gardening {ρ : Type} (time : ℝ) (x : Garden.Tending ℝ ρ) :
    Keeps (fun s => s.accumulator = time) (gardening x) := fun _ hs => hs

theorem keeps_time_command (time : ℝ) (c : Control) :
    Keeps (fun s => s.accumulator = time) (command c) := by
  cases c with
  | theme => exact .bind (keeps_time_gardening time _) fun _ => .pure _
  | several => exact .bind (keeps_time_gardening time _) fun _ => .pure _
  | clear => exact keeps_time_gardening time _
  | reset => exact keeps_time_gardening time _
  | wind => exact .bind (keeps_time_gardening time _) fun _ => .pure _
  | attractor => exact fun _ hs => hs
  | debug => exact .modify fun _ hs => hs
  | journal => exact .modify fun _ hs => hs
  | pause => exact keeps_time_gardening time _
  | speed level => exact keeps_time_gardening time _

/-- Nothing that a user does makes or spends time. -/
theorem keeps_time_handle (time : ℝ) (e : Event ℝ) :
    Keeps (fun s => s.accumulator = time) (handle e) := by
  unfold handle
  split
  · exact .pure _
  · split
    · exact .bind .read fun _ => .bind (keeps_time_gardening time _) fun _ => .pure _
    · split
      · exact .modify fun _ hs => hs
      · exact .pure _
  · split
    · exact .modify fun _ hs => hs
    · exact .pure _
  · exact .modify fun _ hs => hs
  · split
    · exact keeps_time_command time _
    · exact .pure _

theorem keeps_time_screen (time : ℝ) : Keeps (fun s => s.accumulator = time) screen :=
  .bind .read fun _ => .bind (.ofExcept _) fun _ => .bind (keeps_time_gardening time _) fun _ =>
    .pure _

/-! ### Accounts -/

theorem tick_real : (Clock.tick : ℝ) = 1 / 60 := by
  show (1 : ℝ) / 60.0 = 1 / 60
  norm_num

theorem tick_pos : (0 : ℝ) < Clock.tick := by
  rw [tick_real]
  norm_num

/-- Some time is worth one tick more than it is worth when a tick has been spent. -/
theorem ticks_succ {n : Nat} {time : ℝ} (h : Clock.tick ≤ time) :
    min n ⌊(time - Clock.tick) / Clock.tick⌋₊ + 1 = min (n + 1) ⌊time / Clock.tick⌋₊ := by
  have hone : 1 ≤ time / Clock.tick := (one_le_div tick_pos).mpr h
  have hfloor : 1 ≤ ⌊time / Clock.tick⌋₊ := Nat.one_le_floor_iff _ |>.mpr hone
  rw [sub_div, div_self tick_pos.ne', Nat.floor_sub_one]
  omega

/-- Time that does not fill a tick is worth none. -/
theorem ticks_zero {time : ℝ} (h : ¬ Clock.tick ≤ time) : ⌊time / Clock.tick⌋₊ = 0 := by
  apply Nat.floor_eq_zero.mpr
  exact (div_lt_one tick_pos).mpr (not_le.mp h)

/-- Spending makes the updates that are due, up to a number of them, and takes their time. -/
theorem meets_spendCounted (left : Nat) {time : ℝ} :
    Meets (fun s => s.accumulator = time) (spendCounted left) (fun _ => True) fun count s =>
      count.1 + count.2 = left ∧ count.2 = min left ⌊time / Clock.tick⌋₊ ∧
        s.accumulator = time - count.2 * Clock.tick := by
  induction left generalizing time with
  | zero => exact .pure fun s hs => ⟨rfl, by simp, by simp [hs]⟩
  | succ left ih =>
    unfold spendCounted
    refine .bind .read fun t => ?_
    split
    · rename_i hdue
      refine .assume (t.accumulator = time) (fun s hs => hs.1 ▸ hs.2) fun htime => ?_
      rw [htime] at hdue
      have hgardening {ρ : Type} (x : Garden.Tending ℝ ρ) :
          Meets (fun s => t = s ∧ s.accumulator = time) (gardening x) (fun _ => True)
            fun _ s => s.accumulator = time :=
        fun s hs => ⟨fun _ _ => trivial, fun _ _ => hs.2⟩
      have htaken : Meets (fun s : Session ℝ => s.accumulator = time)
          (Action.modify fun s => { s with accumulator := s.accumulator - Clock.tick } :
            Playing ℝ Unit) (fun _ => True) fun _ s => s.accumulator = time - Clock.tick :=
        .modify fun s hs => congrArg (· - Clock.tick) hs
      refine .bind (hgardening _) fun _ => htaken.bind fun _ => ih.bind fun count =>
        .pure fun s hs => ?_
      obtain ⟨hsum, hcount, hrest⟩ := hs
      refine ⟨by omega, by rw [hcount, ticks_succ hdue], ?_⟩
      rw [hrest]
      push_cast
      ring
    · rename_i hdue
      refine .pure fun s hs => ?_
      obtain ⟨rfl, rfl⟩ := hs
      exact ⟨rfl, by simp [ticks_zero hdue], by simp⟩

theorem scaled_nonneg (c : Clock ℝ) {real : ℝ} (h : 0 ≤ real) : 0 ≤ c.scaled real := by
  have hfactor (speed : Speed) : (0 : ℝ) ≤ speed.factor := by
    cases speed with
    | quarter => show (0 : ℝ) ≤ 0.25; norm_num
    | half => show (0 : ℝ) ≤ 0.5; norm_num
    | normal => exact zero_le_one
    | double => show (0 : ℝ) ≤ 2.0; norm_num
    | quadruple => show (0 : ℝ) ≤ 4.0; norm_num
  unfold Clock.scaled
  split
  · exact le_refl _
  · exact mul_nonneg h (hfactor _)

theorem delta_nonneg {elapsed : ℝ} (h : 0 ≤ elapsed) :
    0 ≤ Scalar.least (elapsed / 1000.0) (maxDelta : ℝ) := by
  have hmax : (0 : ℝ) ≤ maxDelta := by
    show (0 : ℝ) ≤ 0.25
    norm_num
  have helapsed : (0 : ℝ) ≤ elapsed / 1000.0 := by
    show (0 : ℝ) ≤ elapsed / 1000.0
    positivity
  unfold Scalar.least
  split
  · exact hmax
  · exact helapsed

/-- A tally that accounts for the time from one reading of the accumulator to another. -/
structure Tally.Accounts (t : Tally ℝ) (before after : ℝ) : Prop where
  carried : t.carried = before
  updates : t.updates = min maxTicks ⌊(t.carried + t.given) / Clock.tick⌋₊
  idle : t.paused → t.updates = 0
  rest : 0 ≤ after ∧ after < Clock.tick
  spent : t.simulated + after ≤ before + t.given
  kept : t.updates ≠ maxTicks → t.simulated + after = before + t.given

section
variable {t : Tally ℝ} {time : ℝ} (h : t.updates = min maxTicks ⌊time / Clock.tick⌋₊)
include h

/-- Updates are made of time that there is. -/
theorem Tally.simulated_le (htime : 0 ≤ time) : t.simulated ≤ time := by
  have hfew : t.updates ≤ ⌊time / Clock.tick⌋₊ := h ▸ min_le_right _ _
  unfold Tally.simulated
  rw [← le_div_iff₀ tick_pos]
  calc (t.updates : ℝ) ≤ ⌊time / Clock.tick⌋₊ := Nat.cast_le.mpr hfew
    _ ≤ time / Clock.tick := Nat.floor_le (div_nonneg htime tick_pos.le)

/-- Where no backlog is left, what was due has been made, and less than a tick remains. -/
theorem Tally.rest_lt_tick (hcap : t.updates ≠ maxTicks) : time - t.simulated < Clock.tick := by
  have hall : t.updates = ⌊time / Clock.tick⌋₊ := by omega
  rw [sub_lt_iff_lt_add', Tally.simulated, ← add_one_mul, ← div_lt_iff₀ tick_pos, hall]
  exact Nat.lt_floor_add_one _

end

/-- A tally accounts for its time where the updates that are due are made and what is left is kept,
unless the backlog is dropped. -/
theorem Tally.accounts {t : Tally ℝ} {before after : ℝ} (hcarried : t.carried = before)
    (hrest : 0 ≤ before ∧ before < Clock.tick) (hgiven : 0 ≤ t.given)
    (hpaused : t.paused → t.given = 0)
    (hupdates : t.updates = min maxTicks ⌊(before + t.given) / Clock.tick⌋₊)
    (hafter : after = if t.updates = maxTicks then 0 else
      before + t.given - t.simulated) : t.Accounts before after := by
  have hfew := Tally.simulated_le hupdates (add_nonneg hrest.1 hgiven)
  have hidle : t.paused → t.updates = 0 := by
    intro hp
    have hnone : ¬ (Clock.tick : ℝ) ≤ before + t.given := by
      rw [hpaused hp, add_zero]
      exact not_le.mpr hrest.2
    rw [hupdates, ticks_zero hnone]
    rfl
  have hformula : t.updates = min maxTicks ⌊(t.carried + t.given) / Clock.tick⌋₊ :=
    hcarried ▸ hupdates
  by_cases hcap : t.updates = maxTicks
  · rw [if_pos hcap] at hafter
    have hspent : t.simulated + after ≤ before + t.given := by
      rw [hafter, add_zero]
      exact hfew
    have hnil : 0 ≤ after ∧ after < Clock.tick := by
      rw [hafter]
      exact ⟨le_refl _, tick_pos⟩
    exact ⟨hcarried, hformula, hidle, hnil, hspent, fun hno => absurd hcap hno⟩
  · rw [if_neg hcap] at hafter
    have hkept : t.simulated + after = before + t.given := by
      rw [hafter]
      ring
    have hless : 0 ≤ after ∧ after < Clock.tick := by
      rw [hafter]
      exact ⟨sub_nonneg.mpr hfew, Tally.rest_lt_tick hupdates hcap⟩
    exact ⟨hcarried, hformula, hidle, hless, hkept.le, fun _ => hkept⟩

/-- Showing the garden leaves the account of a frame as it is. -/
theorem Tally.meets_shown {t : Tally ℝ} {before after : ℝ} (h : t.Accounts before after) :
    Meets (fun s => s.accumulator = after) (do let shown ← screen; return (t, shown))
      (fun _ => True) fun told s => told.1.Accounts before s.accumulator := by
  have hscreen := (keeps_time_screen after).meets
  apply (hscreen.stop fun _ _ => trivial).bind
  intro shown
  apply Meets.pure
  intro s hs
  rw [hs]
  exact h

/-- A frame accounts for its time. -/
theorem meets_counted {m : Moment ℝ} (hm : 0 ≤ m.elapsed) {before : ℝ}
    (hrest : 0 ≤ before ∧ before < Clock.tick) :
    Meets (fun s => s.accumulator = before) (counted m) (fun _ => True)
      fun told s => told.1.Accounts before s.accumulator := by
  have hevents := (Keeps.forEach m.events fun e _ => keeps_time_handle before e).meets
  unfold counted
  dsimp only
  refine .bind .read fun start => .assume (start.accumulator = before) (fun s hs => hs.1 ▸ hs.2) ?_
  intro hstart
  refine .bind ((hevents.stop fun _ _ => trivial).of_pre fun s hs => hs.2) fun _ => ?_
  refine .bind .read fun s => ?_
  have hgiven := scaled_nonneg s.garden.clock (delta_nonneg hm)
  have hpaused : s.garden.clock.paused → s.garden.clock.scaled
      (Scalar.least (m.elapsed / 1000.0) maxDelta) = 0 := fun hp => if_pos hp
  have hcharged : Meets (fun t : Session ℝ => s = t ∧ t.accumulator = before)
      (Action.modify fun t => { t with
        accumulator := t.accumulator +
          t.garden.clock.scaled (Scalar.least (m.elapsed / 1000.0) maxDelta) } : Playing ℝ Unit)
      (fun _ => True) fun _ t => t.accumulator = before +
        s.garden.clock.scaled (Scalar.least (m.elapsed / 1000.0) maxDelta) := by
    apply Meets.modify
    intro t ht
    rw [ht.1, ht.2]
  generalize s.garden.clock.scaled (Scalar.least (m.elapsed / 1000.0) maxDelta) = given at *
  refine hcharged.bind fun _ => (meets_spendCounted maxTicks).bind fun count => ?_
  refine .assume (count.1 + count.2 = maxTicks ∧
    count.2 = min maxTicks ⌊(before + given) / Clock.tick⌋₊) (fun _ ht => ⟨ht.1, ht.2.1⟩) ?_
  intro hcounts
  obtain ⟨hsum, hcount⟩ := hcounts
  have hshown (after : ℝ) (hafter : after = if count.2 = maxTicks then 0 else
      before + given - count.2 * Clock.tick) :=
    Tally.meets_shown (Tally.accounts (t := ⟨start.accumulator, given, s.garden.clock.paused,
      count.2⟩) hstart hrest hgiven hpaused hcount hafter)
  split
  · rename_i hnone
    refine .bind (.modify fun _ _ => rfl) fun _ => hshown 0 ?_
    rw [if_pos (by omega)]
  · rename_i hsome
    refine (hshown (before + given - count.2 * Clock.tick) ?_).of_pre fun _ ht => ht.2.2
    rw [if_neg (by omega)]

/-! ### Runs of frames -/

/-- Tallies that account, one after the other, for the time from one reading of the accumulator to
another. -/
inductive Accounted : List (Tally ℝ) → ℝ → ℝ → Prop where
  | nil {time : ℝ} : Accounted [] time time
  | cons {t : Tally ℝ} {rest : List (Tally ℝ)} {before between after : ℝ} :
      t.Accounts before between → Accounted rest between after → Accounted (t :: rest) before after

namespace Accounted

variable {tallies : List (Tally ℝ)} {before after : ℝ}

theorem rest (h : Accounted tallies before after) (hbefore : 0 ≤ before ∧ before < Clock.tick) :
    0 ≤ after ∧ after < Clock.tick := by
  induction h with
  | nil => exact hbefore
  | cons ht _ ih => exact ih ht.rest

theorem updates (h : Accounted tallies before after) : ∀ t ∈ tallies,
    t.updates = min maxTicks ⌊(t.carried + t.given) / Clock.tick⌋₊ ∧
      (t.paused → t.updates = 0) := by
  induction h with
  | nil => exact fun _ ht => absurd ht List.not_mem_nil
  | cons ht _ ih => exact List.forall_mem_cons.mpr ⟨⟨ht.updates, ht.idle⟩, ih⟩

theorem spent (h : Accounted tallies before after) :
    (tallies.map (·.simulated)).sum + after ≤
      before + (tallies.map (·.given)).sum := by
  induction h with
  | nil => simp
  | cons ht _ ih =>
    have := ht.spent
    simp only [List.map_cons, List.sum_cons]
    linarith

theorem kept (h : Accounted tallies before after) (hall : ∀ t ∈ tallies, t.updates ≠ maxTicks) :
    (tallies.map (·.simulated)).sum + after =
      before + (tallies.map (·.given)).sum := by
  induction h with
  | nil => simp
  | cons ht _ ih =>
    obtain ⟨hfirst, hrest⟩ := List.forall_mem_cons.mp hall
    have := ht.kept hfirst
    have := ih hrest
    simp only [List.map_cons, List.sum_cons]
    linarith

end Accounted

/-- Frames one after the other account for their time. -/
theorem meets_frames {moments : List (Moment ℝ)} (hmoments : ∀ m ∈ moments, 0 ≤ m.elapsed)
    {before : ℝ} (hrest : 0 ≤ before ∧ before < Clock.tick) :
    Meets (fun s => s.accumulator = before) (forEach moments counted) (fun _ => True)
      fun told s => Accounted (told.map (·.1)) before s.accumulator := by
  induction moments generalizing before with
  | nil => exact .pure fun s hs => hs ▸ .nil
  | cons m rest ih =>
    obtain ⟨hm, hmoments⟩ := List.forall_mem_cons.mp hmoments
    unfold forEach
    refine (meets_counted hm hrest).bind fun first => Meets.each fun s hfirst => ?_
    refine .bind (.of_pre (ih hmoments hfirst.rest) fun _ hs => hs ▸ rfl) fun others => ?_
    exact .pure fun t hothers => .cons hfirst hothers

/-- However long a session is, after every frame less than a tick is carried over; a frame makes the
updates that are due, but no more than five, and none while the clock is paused; and all updates
together take no more than the time that was given, and just that where no backlog was dropped. -/
theorem ticks_account_for_time {draws : Draws ℝ} {moments : List (Moment ℝ)}
    (hmoments : ∀ m ∈ moments, 0 ≤ m.elapsed) {told : List (Tally ℝ × Screen ℝ)}
    (hrun : (forEach moments counted (new draws)).result = .ok told) :
    let tallies := told.map (·.1)
    let rest := (forEach moments counted (new draws)).state.accumulator
    (forEach moments frame : Playing ℝ _) = List.map Prod.snd <$> forEach moments counted ∧
    (0 ≤ rest ∧ rest < Clock.tick) ∧
    (∀ t ∈ tallies, t.updates = min 5 ⌊(t.carried + t.given) / Clock.tick⌋₊ ∧
      (t.paused → t.updates = 0)) ∧
    (tallies.map (·.simulated)).sum + rest ≤ (tallies.map (·.given)).sum ∧
    ((∀ t ∈ tallies, t.updates ≠ 5) →
      (tallies.map (·.simulated)).sum + rest = (tallies.map (·.given)).sum) := by
  have hstart : (0 : ℝ) ≤ 0 ∧ (0 : ℝ) < Clock.tick := ⟨le_refl _, tick_pos⟩
  have haccounted := (meets_frames hmoments hstart (new draws) rfl).2 told hrun
  have hspent := haccounted.spent
  have hkept := haccounted.kept
  rw [zero_add] at hspent hkept
  exact ⟨frames_counted moments, haccounted.rest hstart, haccounted.updates, hspent, hkept⟩

/-- With draws from 0 up to 1 every frame is completed. -/
theorem counted_returns {draws : Draws ℝ} (hfair : ∀ i, 0 ≤ draws.draw i ∧ draws.draw i < 1)
    (moments : List (Moment ℝ)) :
    ∃ told, (forEach moments counted (new draws)).result = .ok told := by
  have hlived := Garden.Lived.new (width : ℝ) height Garden.defaultCooldown Growth.defaultRate
    Plant.defaultScaleRange Growth.defaultDivisor draws true
    (by decide : 1 ≤ Garden.defaultMaxPlants)
  have hframes : Goes (forEach moments frame) := .forEach_mem fun m _ => goes_frame m
  have hthrives : (new draws).garden.Thrives := ⟨hlived.tidy, hfair⟩
  obtain ⟨shown, hshown, -⟩ := hframes.returned hthrives
  rw [frames_counted, map_apply] at hshown
  cases hr : (forEach moments counted (new draws)).result with
  | error e =>
    rw [hr] at hshown
    cases hshown
  | ok told => exact ⟨told, rfl⟩

/-- A slow frame at the highest speed, one that pauses the clock, and one that goes on. -/
def hurry : List (Moment ℝ) :=
  [⟨100, [.key "4"]⟩, ⟨16, [.key "space"]⟩, ⟨40, [.key "space", .key "m"]⟩]

theorem ticks_account_for_time_hurry :
    let draws : Draws ℝ := ⟨fun _ => 0.5, 0⟩
    let rest := (forEach hurry counted (new draws)).state.accumulator
    (∀ m ∈ hurry, 0 ≤ m.elapsed) ∧
    ∃ told, (forEach hurry counted (new draws)).result = .ok told ∧
      (0 ≤ rest ∧ rest < Clock.tick) ∧
      (told.map (·.1.simulated)).sum + rest ≤ (told.map (·.1.given)).sum := by
  intro draws rest
  have hmoments : ∀ m ∈ hurry, 0 ≤ m.elapsed := by
    simp [hurry]
  have hfair (i : Nat) : 0 ≤ draws.draw i ∧ draws.draw i < 1 :=
    ⟨by norm_num [draws], by norm_num [draws]⟩
  obtain ⟨told, htold⟩ := counted_returns hfair hurry
  obtain ⟨-, hrest, -, hspent, -⟩ := ticks_account_for_time hmoments htold
  rw [List.map_map, List.map_map] at hspent
  exact ⟨hmoments, told, htold, hrest, hspent⟩

end Session
end Arboretum
