import Arboretum.Proofs.Force.Easing
import Arboretum.Proofs.Garden.Bed
import Arboretum.Proofs.Garden.Stamps

/-!
A plant that fails in a tick is isolated: the tick goes on, and when it ends the plant is gone with
all that it has built, while the others have grown as if it had not been there. This needs a clock
of which the journal can put down the reading.
-/
namespace Arboretum

open Arboretum.Action

variable {α : Type}

namespace Garden

variable {g : Garden α}

/-- The forces act on the points of all plants that can tell theirs. -/
theorem movable_returns (h : ∀ p ∈ g.plants, p.drill.movable = none) : Gives g.movable := by
  have hone : ∀ p ∈ g.plants, Gives (p.movable g.world) := by
    intro p hp
    rw [Plant.movable, h p hp]
    exact .ok _
  exact (Gives.mapM hone).map _

/-- A garden in which forces have acted since a moment. -/
structure Pushed (g₀ g : Garden α) : Prop where
  since : g₀.world.Since g.world
  same : g₀.world.Same g.world
  rest : ∃ draws wind sources, g = { g₀ with world := g.world, draws, wind, sources }

theorem Pushed.start (hw : g.world.Sound) : Pushed g g :=
  ⟨⟨hw, .refl g.world⟩, .refl g.world, g.draws, g.wind, g.sources, rfl⟩

variable {g₀ : Garden α}

theorem Pushed.clock (h : Pushed g₀ g) : g.clock = g₀.clock := by
  obtain ⟨draws, wind, sources, hrest⟩ := h.rest
  rw [hrest]

theorem Pushed.set (h : Pushed g₀ g) (draws : Draws α) (wind : Wind α) (sources : List (Pull α)) :
    Pushed g₀ { g with draws, wind, sources } := by
  obtain ⟨_, _, _, hrest⟩ := h.rest
  refine ⟨h.since, h.same, draws, wind, sources, ?_⟩
  exact congrArg (fun t : Garden α => { t with draws, wind, sources }) hrest

/-- An operation on the world that moves points only. -/
theorem pushed_inWorld {ρ : Type} {x : Action (Note α) (World α) ρ}
    (hx : Meets (fun w => g₀.world.Since w ∧ g₀.world.Same w) x (fun _ => False)
      fun _ w => g₀.world.Since w ∧ g₀.world.Same w) :
    Meets (Pushed g₀) (inWorld x) (fun _ => False) fun _ => Pushed g₀ := by
  refine .returns fun g h => ?_
  obtain ⟨a, hresult, hsince, hsame⟩ := hx.returned (s := g.world) ⟨h.since, h.same⟩
  obtain ⟨draws, wind, sources, hrest⟩ := h.rest
  refine ⟨a, hresult, hsince, hsame, draws, wind, sources, ?_⟩
  exact congrArg (fun t : Garden α => { t with world := (x g.world).state }) hrest

end Garden

variable [Scalar α]

/-! ### Forces never stop a tick -/

namespace World

variable {kept : World α → Prop} (hpush : ∀ p force, Keeps kept (World.push p force))
include hpush

theorem meets_pushAll (pushes : List (Nat × Vec α)) :
    Meets kept (pushAll pushes) (fun _ => False) fun _ => kept := by
  refine .bind (.forEach_mem fun shove _ => ?_) fun _ => .pure fun _ hw => hw
  refine .bind .read fun w => .returns fun v hv => ?_
  obtain ⟨done, hdone⟩ := push_returns (some (w.point shove.1)) shove.2 v
  exact ⟨done, hdone, hpush _ _ v hv.2⟩

theorem meets_pull (points : List Nat) (sources : List (Pull α)) :
    Meets kept (pull points sources) (fun _ => False) fun _ => kept := by
  unfold pull
  refine .bind .read fun w => ?_
  split
  · exact .pure fun _ hw => hw.2
  · refine .bind (.forEach_mem fun s _ => .note _) fun _ => ?_
    exact .bind ((meets_pushAll hpush _).of_pre fun _ hw => hw.2) fun _ => .pure fun _ hw => hw

theorem meets_blow (wind : Wind α) (points : List Nat) {tick : Int}
    (htick : (Scalar.ofInt (α := α) tick).isOk) :
    Meets kept (wind.apply points tick) (fun _ => False) fun _ => kept := by
  unfold Wind.apply
  split
  · exact .pure fun _ hw => hw
  refine .bind .read fun w => ?_
  dsimp only
  split
  · exact .pure fun _ hw => hw.2
  · cases hr : (Scalar.ofInt tick : Except Fault α) with
    | error e =>
      rw [hr] at htick
      cases htick
    | ok x =>
      rw [ofExcept_ok, pure_bind]
      exact .bind ((meets_pushAll hpush _).of_pre fun _ hw => hw.2) fun _ => .pure fun _ hw => hw

end World

theorem Wind.update_returns (s : Wind α × Draws α) : (update s).result = .ok () :=
  congrArg Report.result (update_apply s.1 s.2)

namespace Garden

variable {g g₀ : Garden α}

/-- The wind changes, wherever it is about to blow. -/
theorem pushed_windUpdate : Meets (Pushed g₀)
    (tending (fun g => (g.wind, g.draws)) (fun s g => { g with wind := s.1, draws := s.2 })
      Wind.update) (fun _ => False) fun _ => Pushed g₀ := by
  refine .returns fun g h => ⟨(), Wind.update_returns (g.wind, g.draws), ?_⟩
  exact h.set (Wind.update (g.wind, g.draws)).state.2 (Wind.update (g.wind, g.draws)).state.1
    g.sources

/-- Forces act where the number of the tick can be read as a coordinate. -/
theorem meets_applyForces (hticks : (Scalar.ofInt (α := α) g₀.clock.ticks).isOk)
    (points : List Nat) :
    Meets (Pushed g₀) (applyForces points) (fun _ => False) fun _ => Pushed g₀ := by
  have hpush : ∀ p force, Keeps (fun w => g₀.world.Since w ∧ g₀.world.Same w)
      (World.push p force : Action (Note α) (World α) Bool) := fun p force w hw =>
    ⟨(World.lasting_since g₀.world).push p force w hw.1, hw.2.trans (World.same_push p force w)⟩
  have hblow : Meets (Pushed g₀) (do
      let g ← Action.read
      let _ ← inWorld (g.wind.apply points g.clock.ticks)) (fun _ => False) fun _ => Pushed g₀ := by
    refine .bind .read fun g => .assume (g.clock = g₀.clock) (fun t h => h.1 ▸ h.2.clock) ?_
    intro hclock
    have hwind := pushed_inWorld (World.meets_blow hpush g.wind points hticks)
    rw [hclock]
    exact .bind (hwind.of_pre fun _ h => h.2) fun _ => .pure fun _ h => h
  unfold applyForces
  refine .bind .read fun g => ?_
  dsimp only
  split
  · have hpull := pushed_inWorld (World.meets_pull hpush points g.sources)
    exact .bind (hpull.of_pre fun _ h => h.2) fun _ =>
      .bind (.modify fun t h => h.set t.draws t.wind []) fun _ =>
        pushed_windUpdate.bind fun _ => hblow
  · exact .bind (pushed_windUpdate.of_pre fun _ h => h.2) fun _ => hblow

/-- The garden in which the plants have their turns: what is due is planted first. -/
def filled (g : Garden α) : Garden α := (plantDue g.clock.seconds g.pending g).state

/-- A tick of which every part returns. -/
theorem update_of_parts {dt : α} {points : List Nat}
    (hdue : (plantDue g.clock.seconds g.pending g).result = .ok ())
    (hmovable : (g.filled.tended dt).movable = .ok points)
    (hforces : (applyForces points (g.filled.tended dt)).result = .ok ()) :
    (update dt g).result = .ok () ∧ (update dt g).state =
      let t := (applyForces points (g.filled.tended dt)).state
      { t with world := t.world.step dt, clock := t.clock.advance dt } := by
  obtain ⟨htend, hstate⟩ := tendAll_tended dt g.filled
  unfold update
  rw [read_bind, bind_of_ok hdue, ← filled, bind_of_ok htend, hstate, read_bind, hmovable,
    ofExcept_ok, pure_bind, bind_of_ok hforces]
  exact ⟨rfl, rfl⟩

/-- What is due is planted, if kinds can be drawn. -/
theorem Tidy.filled (h : Tidy g)
    (hchoose : ∀ taken,
      (Preset.choose ⟨g.draws.draw, taken⟩ : Report (Note α) (Draws α) Preset).result.isOk) :
    (plantDue g.clock.seconds g.pending g).result = .ok () ∧
      Waiting g.clock g.draws.draw [] g.filled := by
  have hplanting : Meets (Waiting g.clock g.draws.draw []) (plantDue g.clock.seconds g.pending)
      (fun _ => False) fun _ => Waiting g.clock g.draws.draw [] :=
    waits_plantDue (fun taken hno => by simp [hchoose] at hno) _ _
  obtain ⟨_, hdue, hfilled⟩ := hplanting.returned h.waiting
  exact ⟨hdue, hfilled⟩

/-- Forces act in a tidy garden, and do nothing else to it. -/
theorem Tidy.pushed (h : Tidy g) (hticks : (Scalar.ofInt (α := α) g.clock.ticks).isOk) :
    ∃ points, g.movable = .ok points ∧ (applyForces points g).result = .ok () ∧
      Pushed g (applyForces points g).state := by
  obtain ⟨points, hmovable⟩ := movable_returns fun p hp => (h.guests p hp).movable
  obtain ⟨_, hforces, hpushed⟩ := (meets_applyForces hticks points).returned (.start h.sound)
  exact ⟨points, hmovable, hforces, hpushed⟩

/-- A tick cannot fail, whichever plants do. When it ends they are out of the bed and destroyed, and
nothing of them is left; the others stand there in their order, each grown by one advance. The world
has made one step, and so has the clock. This needs a journal that can put down the reading of the
clock, draws that give a kind, and a tick whose number is within bounds. -/
theorem Lived.isolates {line : Entry α → Except Fault String} (h : Lived g)
    (hline : ∀ n, (line (Entry.stamp g.journalClock n)).isOk)
    (hchoose : ∀ taken,
      (Preset.choose ⟨g.draws.draw, taken⟩ : Report (Note α) (Draws α) Preset).result.isOk)
    (hticks : (Scalar.ofInt (α := α) g.clock.ticks).isOk) (dt : α) :
    let r := written line (update dt) g
    r.result = .ok () ∧
      (turns dt g.filled.world g.filled.plants).map (·.plant) = g.filled.plants ∧
      r.state.plants = survivors dt g.filled.world g.filled.plants ∧
      r.state.retired = g.filled.retired ++ fallen dt g.filled.world g.filled.plants ∧
      Isolated dt g.filled.world g.filled.plants r.state.world ∧
      (∀ p ∈ g.filled.plants, p.ownsWorld = false) ∧
      (∃ points, (g.filled.tended dt).movable = .ok points ∧
        r.state.world = (applyForces points (g.filled.tended dt)).state.world.step dt) ∧
      r.state.clock = g.clock.advance dt := by
  obtain ⟨hdue, hfilled⟩ := h.tidy.filled hchoose
  have hclock : (g.filled.tended dt).clock = g.clock := hfilled.now
  obtain ⟨points, hmovable, hforces, hpushed⟩ :=
    (hfilled.toTidy.tended dt).pushed (hclock ▸ hticks)
  obtain ⟨draws, wind, sources, hrest⟩ := hpushed.rest
  obtain ⟨hresult, hstate⟩ := update_of_parts hdue hmovable hforces
  obtain ⟨hwritten, hleft⟩ := written_of_told (told_update hline dt)
  -- forces and the step move points only, so what the turns have left stays
  have hturned : Isolated dt g.filled.world g.filled.plants (g.filled.tended dt).world :=
    isolated_turned hfilled.sound hfilled.guests
  have hmoved := World.moved_step dt (applyForces points (g.filled.tended dt)).state.world
  have hstepped := (World.lasting_since _).step dt ⟨hpushed.since.sound, .refl _⟩
  intro r
  refine ⟨hwritten.trans hresult, map_turns, ?_, ?_, ?_, fun p hp => (hfilled.guests p hp).shares,
    ⟨points, hmovable, ?_⟩, ?_⟩
  all_goals simp only [r, hleft, hstate]
  · rw [hrest]
    rfl
  · rw [hrest]
    rfl
  · exact (hturned.same hpushed.since hpushed.same).same hstepped hmoved.same
  · rw [hpushed.clock, hclock]

end Garden

namespace Upright

open Garden

/-- Four segments of a stem, after which the heading is lost. -/
def wanderer : Grammar Upright :=
  { astray with name := "wanderer", start := ['F', 'F', 'F', 'F', '+', 'F'] }

def halves : Draws Upright := ⟨fun _ => 0.5, 0⟩

/-- A bed in which everything grows in one tick. -/
def hotbed : Garden Upright := .new 800.0 600.0 18 0.0 1.0 (0.6, 1.8) 1.0 halves true

def sowing (x : Upright) (grammar : Grammar Upright) : Deed Upright :=
  .plant ⟨x, 590.0⟩ none (some grammar)

def sown (x : Upright) (grammar : Grammar Upright) (g : Garden Upright) : Garden Upright :=
  ((sowing x grammar).act g).state

/-- A plant that will fail, between two that will not. -/
def trio : Garden Upright := sown 300.0 stem (sown 200.0 wanderer (sown 100.0 stem hotbed))

theorem lived_hotbed : Lived hotbed ∧ hotbed.draws.draw = halves.draw :=
  ⟨.new _ _ _ _ _ _ _ _ (by decide), rfl⟩

theorem lived_sown {g : Garden Upright} (h : Lived g ∧ g.draws.draw = halves.draw) (x : Upright)
    (grammar : Grammar Upright) :
    Lived (sown x grammar g) ∧ (sown x grammar g).draws.draw = halves.draw := by
  have hplant : Meets (Waiting g.clock g.draws.draw []) (sowing x grammar).act
      (Waiting g.clock g.draws.draw []) fun _ => Waiting g.clock g.draws.draw [] := by
    apply Meets.answer
    exact waits_createPlant (fun _ _ _ hg => hg) _ _ _
  exact ⟨h.1.deed _, (hplant.after h.1.tidy.waiting).stream.trans h.2⟩

theorem choose_halves {stream : Nat → Upright} (h : stream = halves.draw) (taken : Nat) :
    (Preset.choose ⟨stream, taken⟩ : Report (Note Upright) (Draws Upright) Preset).result.isOk := by
  have hfirst :
      (Preset.choose halves : Report (Note Upright) (Draws Upright) Preset).result.isOk := by
    decide +kernel
  subst h
  rw [← hfirst]
  exact congrArg Except.isOk (Draws.choose_result rfl)

/-- The plant in the middle builds one more segment and fails at the next. -/
theorem isolates_trio : Lived trio ∧ trio.world.count = 8 ∧
    (turns 0.5 trio.filled.world trio.filled.plants).map (·.fails 0.5) = [false, true, false] ∧
    (∀ n, (lineOf (Entry.stamp trio.journalClock n)).isOk) ∧
    (∀ taken,
      (Preset.choose ⟨trio.draws.draw, taken⟩ :
        Report (Note Upright) (Draws Upright) Preset).result.isOk) ∧
    (Scalar.ofInt (α := Upright) trio.clock.ticks).isOk ∧
    (written lineOf (Garden.update 0.5) trio).result = .ok () ∧
    (written lineOf (Garden.update 0.5) trio).state.plants =
      survivors 0.5 trio.filled.world trio.filled.plants ∧
    (written lineOf (Garden.update 0.5) trio).state.plants.length = 2 ∧
    (written lineOf (Garden.update 0.5) trio).state.world.count = 4 := by
  have htrio : Lived trio ∧ trio.draws.draw = halves.draw := by
    unfold trio
    exact lived_sown (lived_sown (lived_sown lived_hotbed 100.0 stem) 200.0 wanderer) 300.0 stem
  have hline : ∀ n, (lineOf (Entry.stamp trio.journalClock n)).isOk := fun n =>
    (Entry.line_isOk _ n .gardenCleared).trans (by decide +kernel)
  have hchoose := choose_halves htrio.2
  have hticks : (Scalar.ofInt (α := Upright) trio.clock.ticks).isOk := by decide +kernel
  obtain ⟨hresult, -, hplants, -⟩ := htrio.1.isolates hline hchoose hticks 0.5
  exact ⟨htrio.1, by decide +kernel, by decide +kernel, hline, hchoose, hticks, hresult, hplants,
    by decide +kernel, by decide +kernel⟩

/-- Two plants of which the first fails, at the end of time. -/
def doomed : Garden Upright :=
  let g := ((Deed.tick forever).act (sown 200.0 stem (sown 100.0 stem hotbed))).state
  { g with plants := g.plants.map fun p => { p with drill := { Drill.none with
      update := if p.graph.origin.x < 150.0 then some "boom" else none } } }

/-- When the clock has no bounds the failure cannot be put down, and it stops the tick. -/
theorem doomed_stops : Lived doomed ∧
    (turns 0.5 doomed.filled.world doomed.filled.plants).map (·.fails 0.5) = [true, false] ∧
    (written lineOf (Garden.update 0.5) doomed).result.isOk = false ∧
    (written lineOf (Garden.update 0.5) doomed).state.plants.length = 2 ∧
    (written lineOf (Garden.update 0.5) doomed).state.world.count = 4 ∧
    (written lineOf (Garden.update 0.5) doomed).state.clock.ticks = doomed.clock.ticks := by
  have hpair := lived_sown (lived_sown lived_hotbed 100.0 stem) 200.0 stem
  refine ⟨(hpair.1.deed (.tick forever)).drill _ fun p => ⟨rfl, rfl⟩, ?_⟩
  decide +kernel

end Upright
end Arboretum
