import Arboretum.Proofs.Garden.Schedule

/-!
How plants come into a bed and leave it. A planting takes the first plant out of a full bed and puts
its own behind the others, a tick takes out those that fail, and clearing takes out all. What leaves
is destroyed, and what stays keeps its place.
-/
namespace Arboretum

open Arboretum.Action

variable {α : Type}

namespace Plant

variable {p q r : Plant α} {w : World α}

/-- The same plant at a later time. -/
def Becomes (p q : Plant α) : Prop :=
  ∃ growth graph destroyed drill, q = { p with growth, graph, destroyed, drill }

/-- The same plant, destroyed. -/
def Perishes (p q : Plant α) : Prop := p.Becomes q ∧ q.destroyed

theorem Becomes.refl (p : Plant α) : p.Becomes p := ⟨_, _, _, _, rfl⟩

theorem Becomes.trans (h : p.Becomes q) (h' : q.Becomes r) : p.Becomes r := by
  obtain ⟨growth, graph, destroyed, drill, rfl⟩ := h
  obtain ⟨growth', graph', destroyed', drill', rfl⟩ := h'
  exact ⟨growth', graph', destroyed', drill', rfl⟩

theorem Outgrows.becomes (h : Outgrows q p) : p.Becomes q := by
  obtain ⟨growth, graph, rfl⟩ := h
  exact ⟨growth, graph, p.destroyed, p.drill, rfl⟩

theorem keeps_becoming_destroy : Keeps (fun s : World α × Plant α => p.Becomes s.2) destroy := by
  have hbuild : Keeps (fun s : World α × Plant α => p.Becomes s.2) (building Graph.release) :=
    fun s hs => hs.trans ⟨_, _, _, _, rfl⟩
  have hmark : Keeps (fun s : World α × Plant α => p.Becomes s.2)
      (Action.modify fun s => (s.1, { s.2 with destroyed := true }) : Care α Unit) :=
    .modify fun s hs => hs.trans ⟨_, _, _, _, rfl⟩
  unfold destroy
  refine .bind .read fun s => .bind (.ofExcept _) fun _ => ?_
  split
  · exact .note _
  · exact .bind hbuild fun _ => .bind hmark fun _ => .note _

/-- A plant that is destroyed perishes, and its world lasts. -/
theorem perishes_destroy (hw : w.Sound) (hp : p.Fit) :
    p.Perishes (destroy (w, p)).state.2 ∧ (destroy (w, p)).state.1.Sound :=
  ⟨⟨keeps_becoming_destroy (w, p) (.refl p), destroy_destroyed hw hp⟩,
    (lasting_destroy (World.lasting_since w) (w, p) ⟨hw, .refl w⟩).sound⟩

variable [Scalar α]

theorem outgrows_update (dt : α) (w : World α) (p : Plant α) :
    Outgrows (update dt (w, p)).state.2 p := by
  have hupdate : Keeps (fun s : World α × Plant α => Outgrows s.2 p) (update dt) :=
    keeps_update (keeps_growing_outgrows _) fun _ hs => hs
  exact hupdate (w, p) (.refl p)

end Plant

namespace Turn

variable [Scalar α] {dt : α} {t : Turn α}

variable (dt t) in
/-- A turn leaves a plant that can be taken out, or one that was. -/
theorem rotates (hw : t.world.Sound) (hp : t.plant.Fit) :
    (t.outcome dt).1.Sound ∧ t.plant.Becomes (t.grown dt) ∧ (t.grown dt).Fit ∧
      (t.fails dt → t.plant.Perishes (t.outcome dt).2) := by
  have houtgrows : Plant.Outgrows (t.grown dt) t.plant :=
    Plant.outgrows_update dt t.world t.plant
  have hsound : (t.report dt).state.1.Sound :=
    (Plant.lasting_update (World.lasting_since t.world) dt (t.world, t.plant)
      ⟨hw, .refl t.world⟩).sound
  have hfit := houtgrows.fit hp
  obtain ⟨⟨hbecomes, hdestroyed⟩, hleft⟩ := Plant.perishes_destroy hsound hfit
  refine ⟨?_, houtgrows.becomes, hfit, fun hfails => ?_⟩
  · unfold outcome
    split
    · exact hleft
    · exact hsound
  · rw [outcome, if_pos hfails]
    exact ⟨houtgrows.becomes.trans hbecomes, hdestroyed⟩

end Turn

namespace Garden

/-! ### Plants leave -/

/-- A garden of plants that can be taken out, with room for one. -/
structure Open (g : Garden α) : Prop where
  sound : g.world.Sound
  fit : ∀ p ∈ g.plants, p.Fit
  room : 1 ≤ g.maxPlants

variable {g : Garden α} {p : Plant α} {ps : List (Plant α)}

theorem retire_perishes (hw : g.world.Sound) (hp : p.Fit) : ∃ world q,
    (retire p g).state = { g with world, retired := g.retired ++ [q] } ∧ world.Sound ∧
      p.Perishes q := by
  obtain ⟨hperishes, hsound⟩ := Plant.perishes_destroy hw hp
  exact ⟨_, _, retire_state p g, hsound, hperishes⟩

/-- All plants leave, in their order. -/
theorem uproot_perishes (hw : g.world.Sound) (hps : ∀ p ∈ g.plants, p.Fit) :
    ∃ world qs, (uproot g.plants g).state =
        { g with world, plants := [], retired := g.retired ++ qs } ∧
      world.Sound ∧ List.Forall₂ Plant.Perishes g.plants qs := by
  generalize hg : g.plants = ps at hps
  induction ps generalizing g with
  | nil =>
    refine ⟨g.world, [], ?_, hw, .nil⟩
    rw [List.append_nil]
    exact congrArg (fun ps : List (Plant α) => { g with plants := ps }) hg
  | cons p rest ih =>
    obtain ⟨hp, hrest⟩ := List.forall_mem_cons.mp hps
    obtain ⟨world, q, hstate, hsound, hq⟩ :=
      retire_perishes (g := { g with plants := rest }) hw hp
    obtain ⟨world', qs, hlast, hsound', hqs⟩ :=
      ih (g := { g with world, plants := rest, retired := g.retired ++ [q] }) hsound rfl hrest
    refine ⟨world', q :: qs, ?_, hsound', .cons hq hqs⟩
    unfold uproot
    rw [bind_ok (modify_apply _ _), bind_of_ok (retire_result p _), hstate]
    simpa using hlast

/-- Clearing takes out all plants and forgets the schedule. -/
theorem clear_perishes (h : Open g) : ∃ world qs,
    (clear g).state = { g with world, plants := [], retired := g.retired ++ qs, pending := [] } ∧
      world.Sound ∧ List.Forall₂ Plant.Perishes g.plants qs := by
  obtain ⟨world, qs, hstate, hsound, hqs⟩ := uproot_perishes h.sound h.fit
  refine ⟨world, qs, ?_, hsound, hqs⟩
  unfold clear
  rw [read_bind, bind_of_ok (uproot_result g.plants g), hstate]
  rfl

/-! ### Plants come -/

/-- How many plants have to leave before another one comes. -/
def surplus (g : Garden α) : Nat := if g.maxPlants ≤ g.plants.length then 1 else 0

/-- A bed has room for one plant more than it has to keep. -/
theorem room_surplus (hroom : 1 ≤ g.maxPlants) (hcapacity : (g.plants.length : Int) ≤ g.maxPlants) :
    ((g.plants.drop g.surplus).length : Int) + 1 ≤ g.maxPlants := by
  unfold surplus
  split
  · rw [List.length_drop]
    omega
  · rw [List.drop_zero]
    omega

/-- Making room takes out the first plant. -/
theorem evictOldest_perishes {oldest : Plant α} {rest : List (Plant α)}
    (hplants : g.plants = oldest :: rest) (hw : g.world.Sound) (hp : oldest.Fit) :
    (evictOldest g).result = .ok () ∧ ∃ world q, (evictOldest g).state =
        { g with world, plants := rest, retired := g.retired ++ [q] } ∧
      world.Sound ∧ oldest.Perishes q := by
  obtain ⟨world, q, hstate, hsound, hq⟩ :=
    retire_perishes (g := { g with plants := rest }) hw hp
  unfold evictOldest
  rw [read_bind, hplants]
  exact ⟨retire_result oldest { g with plants := rest }, world, q, hstate, hsound, hq⟩

/-- A garden to which a plant has come: it stands behind the others, and of a full bed the first
plant has perished. -/
def Comes (p : Plant α) (g g' : Garden α) : Prop :=
  p.Fit ∧ ∃ draws world qs, world.Sound ∧ List.Forall₂ Plant.Perishes (g.plants.take g.surplus) qs ∧
    g' = { g with
      draws, world
      lastPlanting := some g.clock.seconds
      plants := g.plants.drop g.surplus ++ [p]
      retired := g.retired ++ qs }

/-- What a planting comes to: a plant comes, or nothing has changed but the draws and the world. -/
def Rotates (g : Garden α) (r : Report (Entry α) (Garden α) (Option (Plant α))) : Prop :=
  (∃ p, r.result = .ok (some p) ∧ Comes p g r.state) ∨
    (∀ p, r.result ≠ .ok (some p)) ∧
      ∃ draws world, r.state = { g with draws, world } ∧ world.Sound

theorem Rotates.idle {r : Report (Entry α) (Garden α) (Option (Plant α))} {draws : Draws α}
    (hresult : ∀ p, r.result ≠ .ok (some p)) (hw : g.world.Sound)
    (hstate : r.state = { g with draws }) : Rotates g r :=
  .inr ⟨hresult, draws, g.world, hstate, hw⟩

section
variable [Scalar α]

/-- What has been grown for a bed can be taken out. -/
theorem grow_fit (hw : g.world.Sound) (spot : Vec α) (seed : Seed α) :
    (grow spot seed g).state.world.Sound ∧
      ∀ p, (grow spot seed g).result = .ok p → p.Fit := by
  refine ⟨?_, fun p hp => ?_⟩
  · exact (lasting_grow (World.lasting_since g.world) spot seed g ⟨hw, .refl g.world⟩).sound
  · have hplanted : (Plant.plant (g.planting spot seed) (g.world, g.draws)).result = .ok p := hp
    obtain ⟨seedling, hsow, hgrown⟩ := Plant.of_plant_ok hplanted
    have hfit := Plant.keeps_fit_growing (Growth.placeRoots Plant.crew) (g.world, seedling)
      (Plant.fit_of_sow hsow)
    rw [hgrown] at hfit
    exact hfit

end

/-- Puts a plant in a bed, where there has to be room for it. -/
def welcome (full : Prop) [Decidable full] (p : Plant α) : Tending α (Option (Plant α)) := do
  if full then evictOldest
  Action.modify fun g =>
    { g with lastPlanting := some g.clock.seconds, plants := g.plants ++ [p] }
  return some p

theorem comes_welcome (h : Open g) (hp : p.Fit) :
    (welcome (g.maxPlants ≤ g.plants.length) p g).result = .ok (some p) ∧
      Comes p g (welcome (g.maxPlants ≤ g.plants.length) p g).state := by
  unfold welcome
  by_cases hfull : g.maxPlants ≤ g.plants.length
  · have hsurplus : g.surplus = 1 := if_pos hfull
    have hroom := h.room
    cases hplants : g.plants with
    | nil =>
      rw [hplants, List.length_nil] at hfull
      omega
    | cons oldest rest =>
      have hfit : oldest.Fit := h.fit oldest (hplants ▸ List.mem_cons_self)
      obtain ⟨hresult, world, q, hstate, hsound, hq⟩ :=
        evictOldest_perishes hplants h.sound hfit
      rw [← hplants, if_pos hfull, bind_of_ok hresult, hstate]
      refine ⟨rfl, hp, g.draws, world, [q], hsound, ?_, ?_⟩
      · rw [hsurplus, hplants]
        exact .cons hq .nil
      · rw [hsurplus, hplants]
        rfl
  · have hsurplus : g.surplus = 0 := if_neg hfull
    rw [if_neg hfull]
    refine ⟨rfl, hp, g.draws, g.world, [], h.sound, ?_, ?_⟩
    · rw [hsurplus]
      exact .nil
    · rw [hsurplus, List.drop_zero, List.append_nil]
      rfl

/-- A plant that comes after draws and growth comes to the garden before them. -/
theorem Comes.before {draws : Draws α} {world : World α} {g' : Garden α}
    (h : Comes p { g with draws, world } g') : Comes p g g' := h

variable [Scalar α]

theorem rotates_settle (h : Open g) (draws : Draws α) (spot : Vec α)
    (choice : Option String × Seed α) : Rotates g (settle g spot choice { g with draws }) := by
  obtain ⟨hsound, hfit⟩ := grow_fit (g := { g with draws }) h.sound spot choice.2
  obtain ⟨draws', hgrown⟩ := grow_state spot choice.2 { g with draws }
  have hgrow : ((grow spot choice.2).attempt { g with draws }).result =
    .ok (grow spot choice.2 { g with draws }).result := rfl
  unfold settle
  rw [bind_of_ok hgrow]
  cases hr : (grow spot choice.2 { g with draws }).result with
  | error cause => exact .inr ⟨fun p hp => (by cases hp), draws', _, hgrown, hsound⟩
  | ok p =>
    have hopen : Open (grow spot choice.2 { g with draws }).state := by
      rw [hgrown] at hsound ⊢
      exact ⟨hsound, h.fit, h.room⟩
    obtain ⟨hresult, hcomes⟩ := comes_welcome hopen (hfit p hr)
    have hwelcome : (welcome (g.maxPlants ≤ g.plants.length) p
        (grow spot choice.2 { g with draws }).state).result = .ok (some p) ∧
        Comes p g (welcome (g.maxPlants ≤ g.plants.length) p
          (grow spot choice.2 { g with draws }).state).state := by
      rw [hgrown] at hresult hcomes ⊢
      exact ⟨hresult, hcomes.before⟩
    exact .inl ⟨p, hwelcome⟩

theorem rotates_createPlant (h : Open g) (spot : Vec α) (kind : Option String)
    (grammar : Option (Grammar α)) : Rotates g (createPlant spot kind grammar g) := by
  obtain ⟨draws, hchoice⟩ := choice_state kind grammar g
  rw [createPlant_eq, read_bind]
  split
  · exact .idle (fun p hp => (by cases hp)) h.sound rfl
  · cases hr : (choice kind grammar g).result with
    | error e =>
      rw [bind_of_error hr]
      exact .idle (fun p hp => (by cases hp)) h.sound hchoice
    | ok c =>
      have hsettled := rotates_settle h draws spot c
      rw [bind_of_ok hr, hchoice]
      exact hsettled

end Garden
end Arboretum
