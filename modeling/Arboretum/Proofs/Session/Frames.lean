import Arboretum.Proofs.Garden.Timetable
import Arboretum.Session

/-!
Frames return. In exact arithmetic, with draws from 0 up to 1, no event, no tick and no screen of a
session can stop it.
-/
namespace Arboretum

open Arboretum.Action

/-! ### Screens -/

namespace Drawing

theorem gives_segment (leaves : Bool) (leafColour : Colour) (s : SegmentView ℝ) :
    Gives (segment leaves leafColour s) := by
  unfold segment
  split
  · exact .ok _
  · rw [Scalar.ofInt_real]
    refine .bind (.ok _) fun depth => .bind ((Gives.nearest _).map _) fun width => ?_
    dsimp only
    split
    · exact .ok _
    · exact .ok _

theorem gives_fruit (f : FruitView ℝ) : Gives (fruit f) := by
  unfold fruit
  dsimp only
  split
  · exact .ok _
  · exact .bind (.truncate _) fun _ => .ok _

theorem gives_plant (f : Frame ℝ) : Gives (plant f) := by
  unfold plant
  refine .bind (.mapM fun s _ => gives_segment _ _ s) fun segments => ?_
  split
  · exact .bind (.mapM fun fruit _ => gives_fruit fruit) fun _ => .ok _
  · exact .ok _

theorem gives_attractor (s : Pull ℝ) : Gives (attractor s) :=
  .bind (.truncate _) fun _ => .ok _

/-- A sound world has the ends of its springs and the rows of its points. -/
theorem gives_structureOf {w : World ℝ} (hw : w.Sound) : Gives (structureOf w) := by
  have hspring : ∀ serial ∈ w.springs.toList, ∃ l, w.links[serial]? = some l ∧
      w.isAlive l.a ∧ w.isAlive l.b := by
    intro serial hserial
    have halive := (World.mem_springs hw serial).mp (Array.mem_toList_iff.mp hserial)
    rw [← World.bond?_isSome] at halive
    obtain ⟨bond, hbond⟩ := Option.isSome_iff_exists.mp halive
    obtain ⟨l, hl, -, rfl⟩ := World.bond?_eq_some.mp hbond
    exact ⟨l, hl, (hw.ends serial _ hbond).2⟩
  unfold structureOf
  refine .bind (.mapM fun serial hserial => ?_) fun springs => .bind (.mapM fun id hid => ?_)
    fun points => .ok _
  · obtain ⟨l, hl, ha, hb⟩ := hspring serial hserial
    simp only [hl]
    exact .bind (hw.particle_of_alive ha) fun _ => .bind (hw.particle_of_alive hb) fun _ => .ok _
  · have halive := (World.mem_bodies hw id).mp (Array.mem_toList_iff.mp hid)
    exact .bind (hw.particle_of_alive halive) fun _ => .ok _

end Drawing

/-! ### Gardens -/

namespace Garden

/-- A garden that nothing asked of it can stop. -/
structure Thrives (g : Garden ℝ) : Prop extends Tidy g where
  fair : g.Fair

/-- An operation that a thriving garden carries out and survives. -/
def Carries {ρ : Type} (x : Tending ℝ ρ) : Prop :=
  Meets Thrives x (fun _ => False) fun _ => Thrives

variable {g : Garden ℝ}

theorem Thrives.act (h : Thrives g) (d : Deed ℝ) : Thrives (d.act g).state := by
  have hplanned : Planned fun t : Garden ℝ => t.draws.draw = g.draws.draw :=
    fun _ _ _ _ _ _ _ _ _ _ ht => ht
  exact ⟨tidy_act h.toTidy d, fair_of_stream h.fair (hplanned.act (fun _ _ ht => ht) d g rfl)⟩

/-- A garden survives what it is asked for; it is enough that it does not stop. -/
theorem Carries.of_deed {ρ : Type} {x : Tending ℝ ρ} (d : Deed ℝ)
    (hd : ∀ g, (d.act g).state = (x g).state)
    (hreturns : ∀ g, Thrives g → ∃ a, (x g).result = .ok a) : Carries x := by
  apply Meets.returns
  intro g h
  obtain ⟨a, ha⟩ := hreturns g h
  exact ⟨a, ha, hd g ▸ h.act d⟩

/-- What is done only for its effect has that effect. -/
theorem discard_state {ρ : Type} (x : Tending ℝ ρ) (g : Garden ℝ) :
    ((do let _ ← x : Tending ℝ Unit) g).state = (x g).state := by
  rw [bind_apply]
  rcases x g with ⟨_ | a, t, notes⟩
  · rfl
  · rfl

theorem carries_createPlant (spot : Vec ℝ) (kind : Option String) (grammar : Option (Grammar ℝ)) :
    Carries (createPlant spot kind grammar) := by
  apply Carries.of_deed (.plant spot kind grammar) fun g => discard_state _ g
  intro g h
  have hplanting : Meets (Waiting g.clock g.draws.draw []) (createPlant spot kind grammar)
      (fun _ => False) fun _ => Waiting g.clock g.draws.draw [] :=
    waits_createPlant (fun taken hno => by simp [choose_fair h.fair] at hno) spot kind grammar
  obtain ⟨a, ha, -⟩ := hplanting.returned h.waiting
  exact ⟨a, ha⟩

theorem carries_cycleTheme : Carries cycleTheme :=
  .of_deed .nextTheme (fun g => discard_state _ g) fun _ _ => ⟨_, rfl⟩

theorem carries_toggleWind : Carries toggleWind :=
  .of_deed .wind (fun g => discard_state _ g) fun _ _ => ⟨_, rfl⟩

theorem carries_schedule (count : Int) (kind : Option String) : Carries (schedule count kind) :=
  .of_deed (.schedule count kind) (fun g => discard_state _ g) fun _ _ => ⟨_, rfl⟩

theorem carries_clear : Carries clear :=
  .of_deed .clear (fun _ => rfl) fun g _ => ⟨(), clear_result g⟩

theorem carries_reset : Carries reset := by
  have hreturns (g : Garden ℝ) : (reset g).result = .ok () := by
    unfold reset
    rw [bind_of_ok (clear_result g)]
    rfl
  exact .of_deed .reset (fun _ => rfl) fun g _ => ⟨(), hreturns g⟩

theorem carries_update (dt : ℝ) : Carries (update dt) :=
  .of_deed (.tick dt) (fun _ => rfl) fun _ h => ⟨(), h.toTidy.update_returns h.fair dt⟩

/-- The clock may be set. -/
theorem carries_clock {ρ : Type} {x : Action (Note ℝ) (Clock ℝ) ρ}
    (hx : ∀ c, ∃ a, (x c).result = .ok a) :
    Carries (tending (·.clock) (fun clock g => { g with clock }) x) := by
  apply Meets.returns
  intro g h
  obtain ⟨a, ha⟩ := hx g.clock
  exact ⟨a, ha, grounded_tidy _ _ _ _ _ _ _ _ h.toTidy, h.fair⟩

theorem carries_addSources (sources : List (Pull ℝ)) :
    Carries (Action.modify fun g => sources.foldl (fun g pull => g.addSource pull) g) := by
  apply Meets.modify
  intro g h
  induction sources generalizing g with
  | nil => exact h
  | cons pull rest ih =>
    apply ih
    exact ⟨grounded_tidy _ _ _ _ _ _ _ _ h.toTidy, h.fair⟩

theorem carries_ofExcept {ρ : Type} {r : Except Fault ρ} (h : Gives r) :
    Carries (Action.ofExcept r) := h.meets

/-- A plant that cannot be drawn is left out. -/
theorem carries_frames : Carries frames := by
  unfold frames
  refine .bind .read fun g => .bind (.of_pre (.forEach_mem fun p _ => ?_) fun _ hg => hg.2)
    fun views => .pure fun _ hg => hg
  split
  · exact .pure fun _ hg => hg
  · exact (meets_say _).bind fun _ => .pure fun _ hg => hg

theorem carries_drawing (o : Drawing.Overlay ℝ) : Carries (Drawing.garden o) := by
  unfold Drawing.garden
  refine .bind .read fun g => .assume (Thrives g) (fun _ hg => hg.1 ▸ hg.2) fun h => ?_
  refine .bind (carries_frames.of_pre fun _ hg => hg.2) fun frames => ?_
  refine .bind (carries_ofExcept (.mapM fun f _ => Drawing.gives_plant f)) fun plants => ?_
  have hfields := carries_ofExcept (r := o.attractors.mapM Drawing.attractor)
    (.mapM fun s _ => Drawing.gives_attractor s)
  dsimp only
  split
  · exact .bind (carries_ofExcept (Drawing.gives_structureOf h.sound)) fun _ =>
      hfields.bind fun _ => .pure fun _ hg => hg
  · exact .bind (.pure fun _ hg => hg) fun _ => hfields.bind fun _ => .pure fun _ hg => hg

end Garden

/-! ### Sessions -/

namespace Session

/-- An operation that a session with a thriving garden carries out, and that its garden survives. -/
def Goes {ρ : Type} (x : Playing ℝ ρ) : Prop :=
  Meets (fun s => s.garden.Thrives) x (fun _ => False) fun _ s => s.garden.Thrives

theorem goes_gardening {ρ : Type} {x : Garden.Tending ℝ ρ} (hx : Garden.Carries x) :
    Goes (gardening x) := by
  apply Meets.returns
  intro s h
  obtain ⟨a, ha, hthrives⟩ := hx.returned h
  exact ⟨a, ha, hthrives⟩

theorem goes_clocking {ρ : Type} {x : Action (Note ℝ) (Clock ℝ) ρ}
    (hx : ∀ c, ∃ a, (x c).result = .ok a) : Goes (clocking x) :=
  goes_gardening (Garden.carries_clock hx)

theorem goes_modify {f : Session ℝ → Session ℝ} (hf : ∀ s, (f s).garden = s.garden) :
    Goes (Action.modify f) := by
  apply Meets.modify
  intro s h
  rw [hf]
  exact h

theorem goes_command (c : Control) : Goes (command c) := by
  cases c with
  | theme => exact (goes_gardening Garden.carries_cycleTheme).bind fun _ => .pure fun _ h => h
  | several =>
    exact (goes_gardening (Garden.carries_schedule _ _)).bind fun _ => .pure fun _ h => h
  | clear => exact goes_gardening Garden.carries_clear
  | reset => exact goes_gardening Garden.carries_reset
  | wind => exact (goes_gardening Garden.carries_toggleWind).bind fun _ => .pure fun _ h => h
  | attractor =>
    have htoggle : Goes (attracting Attractor.toggle) :=
      Meets.returns fun s h => ⟨_, rfl, h⟩
    exact htoggle.bind fun _ => .pure fun _ h => h
  | debug => exact goes_modify fun _ => rfl
  | journal => exact goes_modify fun _ => rfl
  | pause => exact goes_clocking fun _ => ⟨_, rfl⟩
  | speed level =>
    apply goes_clocking
    intro c
    unfold Clock.setSpeed
    cases Speed.ofLevel? level with
    | none => exact ⟨_, rfl⟩
    | some speed => exact ⟨_, rfl⟩

theorem goes_handle (e : Event ℝ) : Goes (handle e) := by
  unfold handle
  split
  · exact .pure fun _ h => h
  · split
    · refine .bind .read fun s => ?_
      refine .bind (.of_pre (goes_gardening (Garden.carries_createPlant _ _ _)) fun _ h => h.2) ?_
      intro _
      exact .pure fun _ h => h
    · split
      · exact goes_modify fun _ => rfl
      · exact .pure fun _ h => h
  · split
    · exact goes_modify fun _ => rfl
    · exact .pure fun _ h => h
  · exact goes_modify fun _ => rfl
  · split
    · exact goes_command _
    · exact .pure fun _ h => h

theorem goes_screen : Goes screen := by
  have hdisplay (c : Clock ℝ) : Gives c.display := .bind (.truncate _) fun _ => .ok _
  unfold screen
  refine .bind .read fun s => ?_
  obtain ⟨status, hstatus⟩ : Gives (s.garden.status s.attractor s.debug) :=
    .bind (hdisplay _) fun _ => .ok _
  rw [hstatus, ofExcept_ok, pure_bind]
  refine .bind (.of_pre (goes_gardening (Garden.carries_drawing _)) fun _ h => h.2)
    fun drawing => ?_
  exact .pure fun _ h => h

theorem goes_spend (left : Nat) : Goes (spend left) := by
  induction left with
  | zero => exact .pure fun _ h => h
  | succ left ih =>
    unfold spend
    refine .bind .read fun s => ?_
    split
    · have hupdate := goes_gardening (Meets.bind (Garden.carries_addSources s.attractor.sources)
        fun _ => Garden.carries_update Clock.tick)
      exact .bind (hupdate.of_pre fun _ h => h.2) fun _ => .bind (goes_modify fun _ => rfl) fun _ =>
        ih
    · exact .pure fun _ h => h.2

/-- A frame cannot fail. -/
theorem goes_frame (m : Moment ℝ) : Goes (frame m) := by
  unfold frame
  refine .bind (.forEach_mem fun e _ => goes_handle e) fun _ => ?_
  refine .bind (goes_modify fun _ => rfl) fun _ => .bind (goes_spend maxTicks) fun left => ?_
  split
  · exact .bind (goes_modify fun _ => rfl) fun _ => goes_screen
  · exact goes_screen

end Session
end Arboretum
