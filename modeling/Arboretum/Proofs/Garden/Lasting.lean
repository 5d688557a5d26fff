import Arboretum.Garden
import Arboretum.Proofs.Graph.Lasting

/-!
What every change of a world keeps, a garden keeps of its world, in whatever order it is used.
-/
namespace Arboretum

open Arboretum.Action

variable {α : Type}

/-- A crew whose work keeps something, also where it stops. -/
structure Crew.Keeps {σ : Type} (crew : Crew α σ) (kept : σ → Prop) : Prop where
  build : ∀ s index, Action.Keeps kept (crew.build s index)
  brace : ∀ segments, Action.Keeps kept (crew.brace segments)
  hang : ∀ fruits, Action.Keeps kept (crew.hang fruits)

namespace Growth

variable {σ : Type} {crew : Crew α σ} {kept : σ → Prop}

theorem keeps_plan : Keeps (fun s => kept s.2) (plan : Plan α σ (Growth α)) := fun _ hs => hs

theorem keeps_record (f : Growth α → Growth α) :
    Keeps (fun s => kept s.2) (record f : Plan α σ Unit) := fun _ hs => hs

theorem keeps_onSnd {ρ : Type} {x : Action (Note α) σ ρ} (h : Keeps kept x) :
    Keeps (fun s : Growth α × σ => kept s.2) x.onSnd := fun s hs => h s.2 hs

variable (h : crew.Keeps kept)
include h

theorem keeps_build (index : Nat) : Keeps (fun s => kept s.2) (build crew index) := by
  unfold build
  refine .bind keeps_plan fun g => ?_
  split
  · exact .pure _
  · exact .bind (keeps_onSnd (h.build _ _)) fun _ => keeps_record _

theorem keeps_placeRoots : Keeps (fun s => kept s.2) (placeRoots crew) := by
  unfold placeRoots
  refine .bind keeps_plan fun g => ?_
  split
  · exact .bind (.note _) fun _ => .pure _
  · refine .bind (.forEach _ fun index _ => keeps_build h index) fun _ => ?_
    exact .bind (keeps_record _) fun _ => .pure _

theorem keeps_buildBatch (budget : Int) (done left : Nat) :
    Keeps (fun s => kept s.2) (buildBatch crew budget done left) := by
  induction left generalizing done with
  | zero => exact .pure _
  | succ left ih =>
    unfold buildBatch
    refine .bind keeps_plan fun g => ?_
    dsimp only
    split
    · split
      · refine .bind (keeps_build h _) fun _ => ?_
        exact .bind (keeps_record _) fun _ => ih _
      · exact .bind (keeps_record _) fun _ => ih _
    · exact .pure _

theorem keeps_advance [Scalar α] : Keeps (fun s => kept s.2) (advance crew) := by
  unfold advance buildDue brace hang
  refine .bind keeps_plan fun g => ?_
  split
  · exact .pure _
  refine .bind (keeps_record _) fun _ => ?_
  refine .bind ?_ fun done => .bind ?_ fun _ => .bind ?_ fun _ => .pure _
  · refine .bind keeps_plan fun g => ?_
    split
    · exact .bind (.ofExcept _) fun target => keeps_buildBatch h _ _ _
    · exact .pure _
  · refine .bind keeps_plan fun g => ?_
    split
    · refine .bind (keeps_onSnd (h.brace _)) fun made => ?_
      exact .bind (keeps_record _) fun _ => .note _
    · exact .pure _
  · refine .bind keeps_plan fun g => ?_
    split
    · refine .bind (keeps_onSnd (h.hang _)) fun hung => ?_
      exact .bind (keeps_record _) fun _ => .bind (.note _) fun _ => keeps_record _
    · exact .pure _

end Growth

namespace Plant

variable {kept : World α → Prop}

/-- What building keeps of its world, looking after a plant keeps. -/
theorem keeps_growing {ρ : Type} {x : Growth.Plan α (World α × Graph α) ρ}
    (h : Keeps (fun s => kept s.2.1) x) :
    Keeps (fun s : World α × Plant α => kept s.1) (growing x) :=
  fun s hs => h (s.2.growth, (s.1, s.2.graph)) hs

theorem keeps_building {ρ : Type} {x : Graph.Build α ρ} (h : Keeps (fun s => kept s.1) x) :
    Keeps (fun s : World α × Plant α => kept s.1) (building x) :=
  fun s hs => h (s.1, s.2.graph) hs

theorem keeps_tried {ρ : Type} {x : Care α ρ} (h : Keeps (fun s => kept s.1) x) :
    Keeps (fun s => kept s.1) (tried x) :=
  .bind h.attempt fun _ => .bind .read fun _ => .pure _

/-- A tick of a plant is growth, and a step of the world where the plant owns it. -/
theorem keeps_update [Scalar α] {kept : World α × Plant α → Prop} {dt : α}
    (hgrow : Keeps kept (growing (Growth.advance crew)))
    (hstep : ∀ s, kept s → kept (s.1.step dt, s.2)) : Keeps kept (update dt) := by
  unfold update
  refine .bind .read ?_
  intro state
  obtain ⟨w, p⟩ := state
  refine .bind (.ofExcept _) fun _ => .bind (.ofExcept _) fun _ => .bind hgrow fun _ => ?_
  dsimp only
  split
  · exact .modify hstep
  · exact .pure _

variable (h : World.Lasting kept)
include h

theorem lasting_destroy : Keeps (fun s => kept s.1) (destroy (α := α)) := by
  unfold destroy
  refine .bind .read ?_
  intro state
  obtain ⟨w, p⟩ := state
  refine .bind (.ofExcept _) fun _ => ?_
  dsimp only
  split
  · exact .note _
  · refine .bind (keeps_building (Graph.lasting_release h)) fun _ => ?_
    exact .bind (.modify fun _ hs => hs) fun _ => .note _

variable [Scalar α]

theorem lasting_crew : (crew (α := α)).Keeps fun s => kept s.1 where
  build s _ := .bind (Graph.lasting_materialize h s _) fun _ => .pure _
  brace segments := .bind (Graph.lasting_addBraces h segments) fun _ => .pure _
  hang fruits := .bind (Graph.lasting_hangAll h fruits) fun _ => .pure _

theorem lasting_update (dt : α) : Keeps (fun s => kept s.1) (update dt) :=
  keeps_update (keeps_growing (Growth.keeps_advance (lasting_crew h))) fun _ hs => h.step dt hs

theorem lasting_plant (order : Planting α) : Keeps (fun s => kept s.1) (plant order) := by
  unfold plant
  refine .bind (fun s hs => hs) fun p => ?_
  have hroots := keeps_tried (keeps_growing (Growth.keeps_placeRoots (lasting_crew h)))
  refine .bind (.on hroots (fun _ hs => hs) fun _ _ _ hs => hs) ?_
  intro state
  obtain ⟨outcome, p⟩ := state
  exact .bind (.ofExcept _) fun _ => .bind (.note _) fun _ => .pure _

end Plant

section
variable [Scalar α] {kept : World α → Prop} (hpush : ∀ p force, Keeps kept (World.push p force))
include hpush

theorem World.keeps_pushAll (pushes : List (Nat × Vec α)) : Keeps kept (pushAll pushes) :=
  .bind (.forEach _ fun _ _ => .bind .read fun _ => hpush _ _) fun _ => .pure _

theorem World.keeps_pull (points : List Nat) (sources : List (Pull α)) :
    Keeps kept (pull points sources) := by
  unfold pull
  refine .bind .read fun w => ?_
  split
  · exact .pure _
  · refine .bind (.forEach _ fun s _ => .note _) fun _ => ?_
    exact .bind (keeps_pushAll hpush _) fun _ => .pure _

theorem Wind.keeps_apply (wind : Wind α) (points : List Nat) (tick : Int) :
    Keeps kept (wind.apply points tick) := by
  unfold apply
  split
  · exact .pure _
  refine .bind .read fun w => ?_
  dsimp only
  split
  · exact .pure _
  · refine .bind (.ofExcept _) fun tick => ?_
    exact .bind (World.keeps_pushAll hpush _) fun _ => .pure _

end

namespace Garden

variable {kept : World α → Prop}

/-! ### The parts of a planting -/

section
variable [Scalar α]

/-- The kind of a planting, where one is told, and what it grows from. -/
def choice (kind : Option String) (grammar : Option (Grammar α)) :
    Tending α (Option String × Seed α) :=
  match grammar, kind with
  | some grammar, kind => return (kind, Seed.grammar grammar)
  | none, some kind => return (some kind, Seed.ofKind kind)
  | none, none => do
    let kind ← pickKind
    return (some kind, Seed.ofKind kind)

/-- Grows what was chosen; a bed that was full before loses its oldest plant. -/
def settle (g : Garden α) (spot : Vec α) (choice : Option String × Seed α) :
    Tending α (Option (Plant α)) := do
  match ← (grow spot choice.2).attempt with
  | .error cause =>
    say (.plantingFailed choice.1 spot cause)
    return none
  | .ok p =>
    if g.maxPlants ≤ g.plants.length then evictOldest
    Action.modify fun g =>
      { g with lastPlanting := some g.clock.seconds, plants := g.plants ++ [p] }
    return some p

theorem createPlant_eq (spot : Vec α) (kind : Option String) (grammar : Option (Grammar α)) :
    createPlant spot kind grammar = (do
      let g ← Action.read
      if g.isCooling then return none
      settle g spot (← choice kind grammar)) := by
  refine bind_congr fun g => ?_
  split
  · rfl
  · cases grammar <;> cases kind <;> simp only [choice, bind_assoc, pure_bind] <;> rfl

end

/-! ### What a garden keeps -/

/-- An operation on a part keeps of the world what it keeps where the part shows the world. -/
theorem keeps_tending {σ ρ : Type} {get : Garden α → σ} {set : σ → Garden α → Garden α}
    {x : Action (Note α) σ ρ} {part : σ → Prop} (h : Keeps part x)
    (hget : ∀ g, kept g.world → part (get g))
    (hset : ∀ s g, kept g.world → part s → kept (set s g).world) :
    Keeps (fun g => kept g.world) (tending get set x) :=
  .mapNotes (.on h hget hset)

theorem keeps_say {kept : Garden α → Prop} (n : Note α) : Keeps kept (say n) := fun _ hg => hg

theorem keeps_caring {ρ : Type} (p : Plant α) {x : Plant.Care α ρ}
    (h : Keeps (fun s => kept s.1) x) : Keeps (fun g => kept g.world) (caring p x) :=
  keeps_tending (Plant.keeps_tried h) (fun _ hg => hg) fun _ _ _ hw => hw

theorem keeps_caringAmong {ρ : Type} (before : List (Plant α)) (p : Plant α)
    (after : List (Plant α)) {x : Plant.Care α ρ} (h : Keeps (fun s => kept s.1) x) :
    Keeps (fun g => kept g.world) (caringAmong before p after x) :=
  keeps_tending (Plant.keeps_tried h) (fun _ hg => hg) fun _ _ _ hw => hw

/-- A property that looks at the world, the plants and the room of a garden only. -/
def Grounded (kept : Garden α → Prop) : Prop :=
  ∀ g draws clock wind theme lastPlanting pending sources, kept g →
    kept { g with draws, clock, wind, theme, lastPlanting, pending, sources }

/-- A property that looks at neither the draws nor the wind, nor at what is asked of a garden. -/
def Aside (kept : Garden α → Prop) : Prop :=
  ∀ g draws wind theme pending sources, kept g →
    kept { g with draws, wind, theme, pending, sources }

theorem Grounded.aside {kept : Garden α → Prop} (h : Grounded kept) : Aside kept :=
  fun g _ _ _ _ _ => h g _ _ _ _ _ _ _

theorem grounded_world (kept : World α → Prop) : Grounded fun g => kept g.world :=
  fun _ _ _ _ _ _ _ _ hg => hg

section
variable {kept : Garden α → Prop} (h : Aside kept)
include h

theorem keeps_drawing {ρ : Type} (x : Action (Note α) (Draws α) ρ) : Keeps kept (drawing x) :=
  fun g => h g _ _ _ _ _

theorem keeps_setTheme (name : String) : Keeps kept (setTheme (α := α) name) := by
  unfold setTheme
  split
  · exact .bind (.modify fun g => h g _ _ _ _ _) fun _ => .bind (keeps_say _) fun _ => .pure _
  · exact .bind .read fun g => .bind (keeps_say _) fun _ => .pure _

theorem keeps_cycleTheme : Keeps kept (cycleTheme (α := α)) :=
  .bind (.modify fun g => h g _ _ _ _ _) fun _ => .bind .read fun _ =>
    .bind (keeps_say _) fun _ => .pure _

theorem keeps_toggleWind : Keeps kept (toggleWind (α := α)) := fun g => h g _ _ _ _ _

variable [Scalar α]

theorem keeps_schedule (asked : Int) (kind : Option String) :
    Keeps kept (schedule (α := α) asked kind) :=
  .bind (.modify fun g => h g _ _ _ _ _) fun _ => .bind (keeps_say _) fun _ => .pure _

theorem keeps_choice (kind : Option String) (grammar : Option (Grammar α)) :
    Keeps kept (choice kind grammar) := by
  unfold choice
  split
  · exact .pure _
  · exact .pure _
  · refine .bind ?_ fun _ => .pure _
    unfold pickKind
    refine .bind .read fun g => ?_
    split
    · exact .pure _
    · exact .bind (keeps_drawing h _) fun _ => .pure _

/-- Forces change the world by pushes only. -/
theorem keeps_applyForces
    (hpush : ∀ (g : Garden α) p force,
      kept g → kept { g with world := (World.push p force g.world).state })
    (points : List Nat) : Keeps kept (applyForces points) := by
  have hworld : ∀ (g : Garden α) p force,
      Keeps (fun world => kept { g with world }) (World.push p force) :=
    fun g p force w hw => hpush { g with world := w } p force hw
  have hwind : Keeps kept (do
      tending (fun g => (g.wind, g.draws)) (fun s g => { g with wind := s.1, draws := s.2 })
        Wind.update
      let g ← Action.read
      let _ ← inWorld (g.wind.apply points g.clock.ticks)) :=
    .bind (fun g => h g _ _ _ _ _) fun _ => .bind .read fun _ =>
      .bind (fun g hg => Wind.keeps_apply (hworld g) _ _ _ _ hg) fun _ => .pure _
  unfold applyForces
  refine .bind .read fun g => ?_
  dsimp only
  split
  · refine .bind (fun g hg => World.keeps_pull (hworld g) _ _ _ hg) fun _ => ?_
    exact .bind (.modify fun g => h g _ _ _ _ _) fun _ => hwind
  · exact hwind

end

theorem keeps_frames [Scalar α] {kept : Garden α → Prop} : Keeps kept (frames (α := α)) := by
  unfold frames
  refine .bind .read fun g => .bind (.forEach _ fun p _ => ?_) fun views => .pure _
  split
  · exact .pure _
  · exact .bind (keeps_say _) fun _ => .pure _

variable (h : World.Lasting kept)
include h

theorem lasting_retire (p : Plant α) : Keeps (fun g => kept g.world) (retire p) := by
  unfold retire
  refine .bind (keeps_caring p (Plant.lasting_destroy h)) ?_
  rintro ⟨_ | _, q⟩
  · exact .bind (keeps_say _) fun _ => .modify fun _ hg => hg
  · exact .modify fun _ hg => hg

theorem lasting_evictOldest : Keeps (fun g => kept g.world) (evictOldest (α := α)) := by
  unfold evictOldest
  refine .bind .read fun g => ?_
  split
  · exact .fail _
  · refine .bind (keeps_say _) fun _ => .bind (.modify fun _ hg => hg) fun _ => ?_
    exact lasting_retire h _

theorem lasting_uproot (ps : List (Plant α)) : Keeps (fun g => kept g.world) (uproot ps) := by
  induction ps with
  | nil => exact .pure _
  | cons p rest ih =>
    exact .bind (.modify fun _ hg => hg) fun _ => .bind (lasting_retire h p) fun _ => ih

theorem lasting_clear : Keeps (fun g => kept g.world) (clear (α := α)) :=
  .bind .read fun _ => .bind (lasting_uproot h _) fun _ =>
    .bind (.modify fun _ hg => hg) fun _ => keeps_say _

variable [Scalar α]

theorem lasting_reset : Keeps (fun g => kept g.world) (reset (α := α)) :=
  .bind (lasting_clear h) fun _ => .bind (.modify fun _ hg => hg) fun _ => keeps_say _

theorem lasting_grow (spot : Vec α) (seed : Seed α) :
    Keeps (fun g => kept g.world) (grow spot seed) :=
  .bind .read fun _ =>
    keeps_tending (Plant.lasting_plant h _) (fun _ hg => hg) fun _ _ _ hw => hw

theorem lasting_settle (g : Garden α) (spot : Vec α) (choice : Option String × Seed α) :
    Keeps (fun g => kept g.world) (settle g spot choice) := by
  unfold settle
  refine .bind (lasting_grow h spot _).attempt ?_
  rintro (cause | p)
  · exact .bind (keeps_say _) fun _ => .pure _
  · dsimp only
    split
    · exact .bind (lasting_evictOldest h) fun _ => .bind (.modify fun _ hg => hg) fun _ => .pure _
    · exact .bind (.modify fun _ hg => hg) fun _ => .pure _

theorem lasting_createPlant (spot : Vec α) (kind : Option String) (grammar : Option (Grammar α)) :
    Keeps (fun g => kept g.world) (createPlant spot kind grammar) := by
  rw [createPlant_eq]
  refine .bind .read fun g => ?_
  split
  · exact .pure _
  · exact .bind (keeps_choice (grounded_world kept).aside _ _) fun _ => lasting_settle h g spot _

theorem lasting_plantDue (now : α) (entries : List (Pending α)) :
    Keeps (fun g => kept g.world) (plantDue now entries) := by
  induction entries with
  | nil => exact .pure _
  | cons entry rest ih =>
    unfold plantDue
    split
    · refine .bind (.modify fun _ hg => hg) fun _ => .bind .read fun g => ?_
      refine .bind (keeps_drawing (grounded_world kept).aside _) fun x => ?_
      refine .bind (lasting_createPlant h _ _ _) fun planted => ?_
      dsimp only
      split
      · exact .bind (keeps_say _) fun _ => ih
      · exact ih
    · exact .pure _

theorem lasting_tendFrom (dt : α) (before after : List (Plant α)) :
    Keeps (fun g => kept g.world) (tendFrom dt before after) := by
  induction after generalizing before with
  | nil => exact .pure _
  | cons p after ih =>
    unfold tendFrom
    refine .bind (keeps_caringAmong before p after (Plant.lasting_update h dt)) ?_
    rintro ⟨_ | _, q⟩
    · refine .bind (keeps_say _) fun _ => .bind (.modify fun _ hg => hg) fun _ => ?_
      exact .bind (lasting_retire h q) fun _ => ih before
    · exact ih _

theorem lasting_applyForces (points : List Nat) :
    Keeps (fun g => kept g.world) (applyForces points) :=
  keeps_applyForces (grounded_world kept).aside (fun g p force => h.push p force g.world) points

theorem lasting_update (dt : α) : Keeps (fun g => kept g.world) (update dt) := by
  unfold update tendAll
  refine .bind .read fun g => .bind (lasting_plantDue h _ _) fun _ => ?_
  refine .bind (.bind .read fun g => lasting_tendFrom h dt [] _) fun _ => ?_
  refine .bind .read fun g => .bind (.ofExcept _) fun points => ?_
  exact .bind (lasting_applyForces h points) fun _ => .modify fun _ hg => h.step dt hg

end Garden

/-- What a garden can be asked for. -/
inductive Deed (α : Type) where
  | theme (name : String)
  | nextTheme
  | plant (spot : Vec α) (kind : Option String) (grammar : Option (Grammar α))
  | schedule (asked : Int) (kind : Option String)
  | clear
  | reset
  | tick (dt : α)
  | draw
  | wind

namespace Deed

variable [Scalar α] {kept : World α → Prop}

def act : Deed α → Garden.Tending α Unit
  | theme name => do let _ ← Garden.setTheme name
  | nextTheme => do let _ ← Garden.cycleTheme
  | plant spot kind grammar => do let _ ← Garden.createPlant spot kind grammar
  | schedule asked kind => do let _ ← Garden.schedule asked kind
  | clear => Garden.clear
  | reset => Garden.reset
  | tick dt => Garden.update dt
  | draw => do let _ ← Garden.frames
  | wind => do let _ ← Garden.toggleWind

theorem lasting_act (h : World.Lasting kept) (d : Deed α) :
    Keeps (fun g => kept g.world) d.act := by
  have hworld := (Garden.grounded_world kept).aside
  cases d with
  | theme name => exact .bind (Garden.keeps_setTheme hworld name) fun _ => .pure _
  | nextTheme => exact .bind (Garden.keeps_cycleTheme hworld) fun _ => .pure _
  | plant spot kind grammar => exact .bind (Garden.lasting_createPlant h _ _ _) fun _ => .pure _
  | schedule asked kind => exact .bind (Garden.keeps_schedule hworld _ _) fun _ => .pure _
  | clear => exact Garden.lasting_clear h
  | reset => exact Garden.lasting_reset h
  | tick dt => exact Garden.lasting_update h dt
  | draw => exact .bind Garden.keeps_frames fun _ => .pure _
  | wind => exact fun _ hg => hg

end Deed

namespace Garden

variable [Scalar α]

/-- A garden that any use leads to. Others may call on its world and step it, too, and set
whatever is not its world. -/
inductive Reached : Garden α → Prop where
  | new (width height : α) (maxPlants : Int) (cooldown rate : α) (scaleRange : α × α) (divisor : α)
    (draws : Draws α) (clocked : Bool) :
    Reached (.new width height maxPlants cooldown rate scaleRange divisor draws clocked)
  | deed {g : Garden α} (h : Reached g) (d : Deed α) : Reached (d.act g).state
  | edit {g : Garden α} (h : Reached g) (e : Edit α {p : Point α // g.world.Sees p} Spring) :
    Reached { g with world := (e.run Subtype.val id g.world).state }
  | step {g : Garden α} (h : Reached g) (dt : α) : Reached { g with world := g.world.step dt }
  | set {g g' : Garden α} (h : Reached g) (hw : g'.world = g.world) : Reached g'

theorem Reached.ready {g : Garden α} (h : g.Reached) : g.world.Ready := by
  have hl : World.Lasting (α := α) World.Ready := World.lasting_ready
  induction h with
  | new => exact .new 0 _ (by decide)
  | deed _ d ih => exact Deed.lasting_act hl d _ ih
  | edit _ e ih =>
    exact hl.changes ih
      (World.changes_run ih.toSound id Subtype.property e fun _ _ _ _ => trivial)
  | step _ dt ih => exact hl.step dt ih
  | set _ hw ih => exact hw ▸ ih

end Garden
end Arboretum
