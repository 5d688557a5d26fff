import Arboretum.Proofs.Garden.Bed
import Arboretum.Proofs.Lawful

/-!
The schedule of a garden. A planting, the plants and the forces leave it as it is, so that a tick
takes off it what was due when the tick began, and tries to plant that.
-/
namespace Arboretum

open Arboretum.Action

variable {α : Type}

namespace Garden

/-- A property that looks at the schedule, the measures and the stream of a garden only. -/
def Planned (kept : Garden α → Prop) : Prop :=
  ∀ g world taken clock wind plants retired theme lastPlanting sources, kept g →
    kept { g with
      world, draws := { g.draws with taken }, clock, wind, plants, retired, theme, lastPlanting
      sources }

namespace Planned

variable {kept : Garden α → Prop} (h : Planned kept)
include h

/-- What is drawn is taken from the same stream. -/
theorem redraw {g : Garden α} (hg : kept g) {d : Draws α} (hd : d.draw = g.draws.draw)
    (world : World α) (wind : Wind α) : kept { g with world, wind, draws := d } := by
  obtain ⟨stream, taken⟩ := d
  cases hd
  exact h g world taken _ wind _ _ _ _ _ hg

theorem retire (p : Plant α) : Keeps kept (retire p) := by
  intro g hg
  rw [retire_state]
  exact h g _ _ _ _ _ _ _ _ _ hg

theorem evictOldest : Keeps kept (evictOldest (α := α)) := by
  unfold Garden.evictOldest
  refine .bind .read fun g => ?_
  split
  · exact .fail _
  · exact .bind (keeps_say _) fun _ => .bind (.modify fun g => h g _ _ _ _ _ _ _ _ _) fun _ =>
      h.retire _

theorem setTheme (name : String) : Keeps kept (setTheme (α := α) name) := by
  unfold Garden.setTheme
  split
  · exact .bind (.modify fun g => h g _ _ _ _ _ _ _ _ _) fun _ => .bind (keeps_say _) fun _ =>
      .pure _
  · exact .bind .read fun _ => .bind (keeps_say _) fun _ => .pure _

theorem cycleTheme : Keeps kept (cycleTheme (α := α)) :=
  .bind (.modify fun g => h g _ _ _ _ _ _ _ _ _) fun _ => .bind .read fun _ =>
    .bind (keeps_say _) fun _ => .pure _

theorem toggleWind : Keeps kept (toggleWind (α := α)) := fun g hg => h g _ _ _ _ _ _ _ _ _ hg

theorem uproot (ps : List (Plant α)) : Keeps kept (uproot ps) := by
  induction ps with
  | nil => exact .pure _
  | cons p rest ih =>
    exact .bind (.modify fun g => h g _ _ _ _ _ _ _ _ _) fun _ => .bind (h.retire p) fun _ => ih

variable [Scalar α]

theorem choice (kind : Option String) (grammar : Option (Grammar α)) :
    Keeps kept (choice kind grammar) := by
  have hdrawn : Keeps kept (drawing (α := α) Preset.choose) := by
    intro g hg
    have hstream := Draws.keeps_choose (ν := Note α) (Draws.steady_stream g.draws.draw) Preset.all
      .outsidePresets g.draws rfl
    exact h.redraw hg hstream g.world g.wind
  unfold Garden.choice
  split
  · exact .pure _
  · exact .pure _
  · unfold pickKind
    refine .bind (.bind .read fun g => ?_) fun _ => .pure _
    split
    · exact .pure _
    · exact .bind hdrawn fun _ => .pure _

theorem grow (spot : Vec α) (seed : Seed α) : Keeps kept (grow spot seed) := by
  intro g hg
  have hstream := Plant.keeps_draws (Draws.steady_stream g.draws.draw) (g.planting spot seed)
    (g.world, g.draws) rfl
  exact h.redraw hg hstream (Plant.plant (g.planting spot seed) (g.world, g.draws)).state.1 g.wind

theorem settle (g : Garden α) (spot : Vec α) (choice : Option String × Seed α) :
    Keeps kept (settle g spot choice) := by
  have hplant (p : Plant α) (g : Garden α) :
      kept g → kept { g with
        lastPlanting := some g.clock.seconds, plants := g.plants ++ [p] } :=
    h g _ _ _ _ _ _ _ _ _
  unfold Garden.settle
  refine .bind (h.grow spot _).attempt fun outcome => ?_
  cases outcome with
  | error cause => exact .bind (keeps_say _) fun _ => .pure _
  | ok p =>
    dsimp only
    split
    · exact .bind h.evictOldest fun _ => .bind (.modify (hplant p)) fun _ => .pure _
    · exact .bind (.modify (hplant p)) fun _ => .pure _

theorem createPlant (spot : Vec α) (kind : Option String) (grammar : Option (Grammar α)) :
    Keeps kept (createPlant spot kind grammar) := by
  rw [createPlant_eq]
  refine .bind .read fun g => ?_
  split
  · exact .pure _
  · exact .bind (h.choice kind grammar) fun _ => h.settle g spot _

theorem applyForces (points : List Nat) : Keeps kept (applyForces points) := by
  have hworld {ρ : Type} (x : Action (Note α) (World α) ρ) : Keeps kept (inWorld x) :=
    fun g hg => h g _ _ _ _ _ _ _ _ _ hg
  have hupdate : Keeps kept
      (tending (fun g => (g.wind, g.draws)) (fun s g => { g with wind := s.1, draws := s.2 })
        Wind.update) := by
    intro g hg
    have hstream := Wind.keeps_update (Draws.steady_stream g.draws.draw) (g.wind, g.draws) rfl
    exact h.redraw hg hstream g.world _
  have hblow : Keeps kept (do
      tending (fun g => (g.wind, g.draws)) (fun s g => { g with wind := s.1, draws := s.2 })
        Wind.update
      let g ← Action.read
      let _ ← inWorld (g.wind.apply points g.clock.ticks)) :=
    .bind hupdate fun _ => .bind .read fun _ => .bind (hworld _) fun _ => .pure _
  unfold Garden.applyForces
  refine .bind .read fun g => ?_
  dsimp only
  split
  · exact .bind (hworld _) fun _ => .bind (.modify fun g => h g _ _ _ _ _ _ _ _ _) fun _ => hblow
  · exact hblow

end Planned

theorem uproot_result (ps : List (Plant α)) (g : Garden α) : (uproot ps g).result = .ok () := by
  induction ps generalizing g with
  | nil => rfl
  | cons p rest ih =>
    unfold uproot
    rw [bind_ok (modify_apply _ _), bind_of_ok (retire_result p _)]
    exact ih _

theorem clear_result (g : Garden α) : (clear g).result = .ok () := by
  unfold clear
  rw [read_bind, bind_of_ok (uproot_result g.plants g)]
  rfl

theorem clear_pending (g : Garden α) : (clear g).state.pending = [] := by
  unfold clear
  rw [read_bind, bind_of_ok (uproot_result g.plants g)]
  rfl

variable [Scalar α]

theorem reset_pending (g : Garden α) : (reset g).state.pending = [] := by
  unfold reset
  rw [bind_of_ok (clear_result g)]
  exact clear_pending g

/-- What a tick does when the plantings that were due have been carried out. -/
def proceed (dt : α) : Tending α Unit := do
  tendAll dt
  let g ← Action.read
  let points ← Action.ofExcept g.movable
  applyForces points
  Action.modify fun g => { g with world := g.world.step dt, clock := g.clock.advance dt }

theorem update_proceed (dt : α) : update dt = (do
    let g ← Action.read
    plantDue g.clock.seconds g.pending
    proceed dt) := rfl

theorem Planned.proceed {kept : Garden α → Prop} (h : Planned kept) (dt : α) :
    Keeps kept (proceed dt) := by
  have htend : Keeps kept (tendAll (α := α) dt) := by
    intro g hg
    rw [(tendAll_tended dt g).2]
    exact h g _ _ _ _ _ _ _ _ _ hg
  exact .bind htend fun _ => .bind .read fun _ => .bind (.ofExcept _) fun points =>
    .bind (h.applyForces points) fun _ => .modify fun g => h g _ _ _ _ _ _ _ _ _

/-! ### Plantings that are due -/

/-- The plantings that are due when a tick begins. -/
def due (g : Garden α) : List (Pending α) := g.pending.filter (·.due ≤ g.clock.seconds)

/-- Tries a planting of the schedule at a place; one that gives no plant is noted. -/
def plantAt (entry : Pending α) (spot : Vec α) : Tending α Unit := do
  let planted ← createPlant spot entry.kind none
  if planted.isNone then say .plantingSkipped

/-- Takes the first planting off the schedule and tries it, at a place that is drawn. -/
def attempt (entry : Pending α) : Tending α (Vec α) := do
  let g ← Action.read
  let spot ← site g.pending.tail
  plantAt entry spot
  return spot

theorem Planned.plantAt {kept : Garden α → Prop} (h : Planned kept) (entry : Pending α)
    (spot : Vec α) : Keeps kept (plantAt entry spot) := by
  unfold Garden.plantAt
  refine .bind (h.createPlant spot _ _) fun planted => ?_
  split
  · exact keeps_say _
  · exact .pure _

variable {g : Garden α}

theorem site_apply (rest : List (Pending α)) (g : Garden α) : site rest g =
    ⟨.ok ⟨g.width * 0.1 + (g.width * 0.9 - g.width * 0.1) * g.draws.draw g.draws.taken, g.groundY⟩,
      { g with pending := rest, draws := { g.draws with taken := g.draws.taken + 1 } }, []⟩ := rfl

/-- An attempt keeps what neither the schedule nor a planting changes. -/
theorem Planned.attempt {kept : Garden α → Prop} (h : Planned kept)
    (hpending : ∀ g pending, kept g → kept { g with pending }) (entry : Pending α) :
    Keeps kept (attempt entry) := by
  have hsite (rest : List (Pending α)) : Keeps kept (site rest) := fun g hg =>
    hpending _ _ (h g _ _ _ _ _ _ _ _ _ hg)
  exact .bind .read fun _ => .bind (hsite _) fun spot => .bind (h.plantAt entry spot) fun _ =>
    .pure _

/-- An attempt takes its planting off the schedule, whatever becomes of it. -/
theorem attempt_pending (entry : Pending α) (g : Garden α) :
    (attempt entry g).state.pending = g.pending.tail := by
  have hplanned : Planned fun t : Garden α => t.pending = g.pending.tail :=
    fun _ _ _ _ _ _ _ _ _ _ ht => ht
  have hplant (spot : Vec α) : Keeps (fun t : Garden α => t.pending = g.pending.tail)
      (do plantAt entry spot; return spot) :=
    .bind (hplanned.plantAt entry spot) fun _ => .pure _
  unfold attempt
  rw [read_bind, bind_of_ok (congrArg Report.result (site_apply g.pending.tail g))]
  exact hplant _ _ rfl

/-- Carrying out the first planting is an attempt at it. -/
theorem plantNext_apply {entry : Pending α} {rest : List (Pending α)}
    (hpending : g.pending = entry :: rest) :
    plantNext entry rest g = ((fun _ => ()) <$> attempt entry : Tending α Unit) g := by
  have hmap : (fun _ => ()) <$> attempt entry =
      (do plantNext entry (← Action.read).pending.tail) := by
    unfold attempt
    simp only [map_eq_pure_bind, bind_assoc, pure_bind, bind_pure_unit]
    rfl
  rw [hmap, read_bind, hpending]
  rfl

/-- Where the first planting is not due, none is. -/
theorem not_due [Scalar.Lawful α] {now : α} {entry : Pending α} {rest : List (Pending α)}
    (hfirst : ∀ later ∈ rest, entry.due ≤ later.due) (hdue : ¬ entry.due ≤ now) :
    ∀ later ∈ entry :: rest, ¬ later.due ≤ now := by
  intro later hlater hnow
  rcases List.mem_cons.mp hlater with rfl | hlater
  · exact hdue hnow
  · exact hdue (Scalar.Lawful.le_trans (hfirst later hlater) hnow)

/-- What a tick plants is what is due, one attempt after the other. -/
theorem plantDue_attempts [Scalar.Lawful α] {now : α} {entries : List (Pending α)}
    (hsorted : entries.Pairwise fun a b => a.due ≤ b.due) (hpending : g.pending = entries) :
    plantDue now entries g =
      ((fun _ => ()) <$> forEach (entries.filter (·.due ≤ now)) attempt : Tending α Unit) g := by
  induction entries generalizing g with
  | nil => rfl
  | cons entry rest ih =>
    obtain ⟨hfirst, hrest⟩ := List.pairwise_cons.mp hsorted
    rw [plantDue_cons]
    by_cases hdue : entry.due ≤ now
    · have hkept : (entry :: rest).filter (·.due ≤ now) = entry :: rest.filter (·.due ≤ now) := by
        simp [hdue]
      have hnext := plantNext_apply hpending
      rw [if_pos hdue, hkept, map_forEach_cons]
      refine bind_eq_of hnext fun done _ => ih hrest ?_
      rw [map_apply, attempt_pending, hpending]
      rfl
    · have hnone : (entry :: rest).filter (·.due ≤ now) = [] := by
        simpa using not_due hfirst hdue
      rw [if_neg hdue, hnone]
      rfl

/-- What was not due stays on the schedule. -/
theorem plantDue_pending [Scalar.Lawful α] {now : α} {entries : List (Pending α)}
    (hsorted : entries.Pairwise fun a b => a.due ≤ b.due) (hpending : g.pending = entries)
    (hresult : (plantDue now entries g).result = .ok ()) :
    (plantDue now entries g).state.pending = entries.filter (¬ ·.due ≤ now) := by
  induction entries generalizing g with
  | nil => exact hpending
  | cons entry rest ih =>
    obtain ⟨hfirst, hrest⟩ := List.pairwise_cons.mp hsorted
    rw [plantDue_cons] at hresult ⊢
    by_cases hdue : entry.due ≤ now
    · have hgone : (entry :: rest).filter (¬ ·.due ≤ now) = rest.filter (¬ ·.due ≤ now) := by
        simp [hdue]
      have hnext : (plantNext entry rest g).state.pending = rest := by
        rw [plantNext_apply hpending, map_apply, attempt_pending, hpending]
        rfl
      rw [if_pos hdue] at hresult ⊢
      obtain ⟨_, hdone, hlater⟩ := of_bind_ok hresult
      rw [bind_of_ok hdone, hgone]
      exact ih hrest hnext hlater
    · rw [if_neg hdue]
      have hall : (entry :: rest).filter (¬ ·.due ≤ now) = entry :: rest := by
        simpa using not_due hfirst hdue
      rw [hall]
      exact hpending

/-! ### Whatever is asked -/

/-- The plantings that one call asks for. -/
def batch (g : Garden α) (count : Int) (kind : Option String) : List (Pending α) :=
  (List.range (max 0 (min count maxScheduled)).toNat).map fun i : Nat =>
    ⟨g.clock.seconds + (i : α) * interval, kind⟩

theorem schedule_pending (count : Int) (kind : Option String) (g : Garden α) :
    ((Deed.schedule count kind).act g).state.pending =
      (g.pending ++ g.batch count kind).mergeSort fun a b => a.due ≤ b.due := rfl

/-- What is awaited of a schedule after a deed, in the order of asking. -/
def awaited (g : Garden α) (asked : List (Pending α)) : Deed α → List (Pending α)
  | .schedule count kind => asked ++ g.batch count kind
  | .tick _ => asked.filter (¬ ·.due ≤ g.clock.seconds)
  | .clear | .reset => []
  | _ => asked

section
variable {kept : Garden α → Prop} (h : Planned kept)
  (hpending : ∀ g pending, kept g → kept { g with pending })
include h hpending

theorem Planned.plantDue (now : α) (entries : List (Pending α)) :
    Keeps kept (plantDue now entries) := by
  induction entries with
  | nil => exact .pure _
  | cons entry rest ih =>
    have hsite : Keeps kept (site rest) := fun g hg => hpending _ _ (h g _ _ _ _ _ _ _ _ _ hg)
    have hnext : Keeps kept (plantNext entry rest) := .bind hsite fun spot => h.plantAt entry spot
    rw [plantDue_cons]
    split
    · exact .bind hnext fun _ => ih
    · exact .pure _

omit [Scalar α] in
theorem Planned.clear : Keeps kept (clear (α := α)) :=
  .bind .read fun _ => .bind (h.uproot _) fun _ => .bind (.modify fun _ => hpending _ _) fun _ =>
    keeps_say _

/-- What looks at the measures and the stream only is kept by every deed. -/
theorem Planned.act (d : Deed α) : Keeps kept d.act := by
  cases d with
  | theme name => exact .bind (h.setTheme name) fun _ => .pure _
  | nextTheme => exact .bind h.cycleTheme fun _ => .pure _
  | plant spot kind grammar => exact .bind (h.createPlant spot kind grammar) fun _ => .pure _
  | schedule asked kind =>
    exact .bind (.bind (.modify fun _ => hpending _ _) fun _ => .bind (keeps_say _) fun _ =>
      .pure _) fun _ => .pure _
  | clear => exact h.clear hpending
  | reset =>
    exact .bind (h.clear hpending) fun _ => .bind (.modify fun g => h g _ _ _ _ _ _ _ _ _) fun _ =>
      keeps_say _
  | tick dt =>
    exact .bind .read fun _ => .bind (h.plantDue hpending _ _) fun _ => h.proceed dt
  | draw => exact .bind keeps_frames fun _ => .pure _
  | wind => exact .bind h.toggleWind fun _ => .pure _

end

end Garden
end Arboretum
