import Arboretum.Proofs.Graph.Building

/-!
The joints of a body: a cell has one joint, and no two cells have the same. Asking for the joint of
a cell finds it or makes a new point, and leaves all other joints as they are.
-/
namespace Arboretum

open Arboretum.Action

variable {α : Type}

namespace World

variable {w : World α}

/-- A world that never had room for a point has no room for one now. -/
theorem roomy_of_capacity_eq_zero (h : w.capacity = 0) : w.roomy = w := by
  have hrows : w.rows = #[] := Array.size_eq_zero_iff.mp h
  unfold roomy double
  split
  · obtain ⟨⟩ := w
    cases hrows
    rfl
  · rfl

theorem bodies_roomy (w : World α) : w.roomy.bodies = w.bodies := by
  unfold roomy
  split
  · rfl
  · rfl

theorem springs_roomy (w : World α) : w.roomy.springs = w.springs := by
  unfold roomy
  split
  · rfl
  · rfl

end World

namespace Graph

variable {w : World α} {g : Graph α}

/-- The joints of a body: a cell has one, no two cells have the same, and all are points alive. -/
structure Fitted (w : World α) (g : Graph α) : Prop where
  cells : (g.joints.map (·.1)).Nodup
  points : (g.joints.map (·.2)).Nodup
  alive : ∀ j ∈ g.joints, w.isAlive j.2

theorem mem_of_joint? {cell : Cell} {id : Nat} (h : g.joint? cell = some id) :
    (cell, id) ∈ g.joints := by
  obtain ⟨j, hj, rfl⟩ := Option.map_eq_some_iff.mp h
  have hcell := List.find?_some hj
  rw [beq_iff_eq] at hcell
  rw [← hcell]
  exact List.mem_of_find?_eq_some hj

theorem joint?_isSome (g : Graph α) (cell : Cell) :
    (g.joint? cell).isSome ↔ cell ∈ g.joints.map (·.1) := by
  simp [joint?, List.find?_isSome]

/-- A new joint is asked for last. -/
theorem joint?_append (g : Graph α) (cell c : Cell) (id : Nat) :
    { g with joints := g.joints ++ [(cell, id)] }.joint? c =
      (g.joint? c).or (if c = cell then some id else none) := by
  simp only [joint?, List.find?_append, Option.map_or]
  congr 1
  by_cases hc : c = cell
  · simp [hc]
  · simp [hc, Ne.symm hc]

namespace Fitted

theorem new (w : World α) (origin : Vec α) (scale : α) : Fitted w (Graph.new origin scale) :=
  ⟨List.nodup_nil, List.nodup_nil, by simp [Graph.new]⟩

/-- Two cells have one joint just if they are one cell. -/
theorem joint_eq (h : Fitted w g) {c c' : Cell} {id id' : Nat} (hc : g.joint? c = some id)
    (hc' : g.joint? c' = some id') : id = id' ↔ c = c' := by
  constructor
  · rintro rfl
    have hsame := List.inj_on_of_nodup_map h.points (mem_of_joint? hc) (mem_of_joint? hc') rfl
    exact congrArg Prod.fst hsame
  · rintro rfl
    exact Option.some.inj (hc.symm.trans hc')

theorem world {w' : World α} (h : Fitted w g) (halive : ∀ j ∈ g.joints, w'.isAlive j.2) :
    Fitted w' g := ⟨h.cells, h.points, halive⟩

theorem alive_of_joint? (h : Fitted w g) {cell : Cell} {id : Nat} (hj : g.joint? cell = some id) :
    w.isAlive id := h.alive _ (mem_of_joint? hj)

/-- A new point can be the joint of a cell that has none. -/
theorem add (h : Fitted w g) {cell : Cell} (hcell : g.joint? cell = none) (p : Particle α) :
    Fitted (w.seat p) { g with joints := g.joints ++ [(cell, w.slots.size)] } where
  cells := by
    rw [List.map_append]
    refine List.nodup_append.mpr ⟨h.cells, List.nodup_singleton cell, ?_⟩
    rintro c hc c' hc' rfl
    rw [← joint?_isSome, List.mem_singleton.mp hc', hcell] at hc
    cases hc
  points := by
    rw [List.map_append]
    refine List.nodup_append.mpr ⟨h.points, List.nodup_singleton _, ?_⟩
    rintro id hid id' hid' rfl
    obtain ⟨j, hj, rfl⟩ := List.mem_map.mp hid
    have hlt := World.isAlive_lt (h.alive j hj)
    rw [List.mem_singleton.mp hid'] at hlt
    exact Nat.lt_irrefl _ hlt
  alive j hj := by
    rcases List.mem_append.mp hj with hj | hj
    · exact (World.grew_seat w p).alive _ (h.alive j hj)
    · cases List.mem_singleton.mp hj
      simp [World.isAlive, World.slot?_seat]

end Fitted

/-- What comes of asking for the joint of a cell. -/
structure Given (cell : Cell) (was : World α × Graph α) (id : Nat) (now : World α × Graph α) :
    Prop where
  ready : now.1.Ready
  fitted : Fitted now.1 now.2
  grew : was.1.Grew now.1
  springs : now.1.springs = was.1.springs
  count : now.1.count = was.1.count + (if was.2.joint? cell = none then 1 else 0)
  joint : now.2.joint? cell = some id
  others : ∀ c, c ≠ cell → now.2.joint? c = was.2.joint? c
  kept : ∀ c i, was.2.joint? c = some i → now.2.joint? c = some i
  fresh : ∀ c i, was.2.joint? c = none → now.2.joint? c = some i → was.1.slots.size ≤ i
  scale : now.2.scale = was.2.scale

/-- A point alive can be pinned. -/
theorem pin_point (hw : w.Sound) {id slot : Nat} (hslot : w.slot? id = some slot) :
    World.pin (w.point id) w = ⟨.ok (), w.pinSlot slot, []⟩ := by
  rw [World.pin_apply, World.point_slot hw, hslot]
  exact if_neg (Nat.not_le_of_gt (hw.slot_lt_capacity hslot))

/-- A joint that is there can be pinned. -/
theorem meets_pin (hw : w.Ready) {id : Nat} (hid : w.isAlive id) :
    Meets (· = (w, g)) (inWorld (World.pin (w.point id))) (fun _ => False)
      fun _ t => t.2 = g ∧ t.1.Ready ∧ w.Same t.1 ∧ t.1.springs = w.springs ∧
        t.1.count = w.count := by
  refine .returns ?_
  rintro _ rfl
  obtain ⟨slot, hslot⟩ := World.isAlive_iff.mp hid
  have hready : (World.pin (w.point id) w).state.Ready := by
    have hc : World.Changes (fun _ => True) w _ := World.changes_pin (w.point id) w
    exact hc.ready hw
  have hsame := World.same_pin (w.point id) w
  rw [inWorld_result, inWorld_state]
  rw [pin_point hw.toSound hslot] at hready hsame ⊢
  exact ⟨(), rfl, rfl, hready, hsame, rfl, rfl⟩

/-- What a builder knows of the joint that is there already. -/
theorem Given.found (hf : Fitted w g) {cell : Cell} {id : Nat} (hj : g.joint? cell = some id)
    {w' : World α} (hready : w'.Ready) (hsame : w.Same w') (hsprings : w'.springs = w.springs)
    (hcount : w'.count = w.count) : Given cell (w, g) id (w', g) where
  ready := hready
  fitted := hf.world fun j hmem => (hsame.alive _).trans (hf.alive j hmem)
  grew := hsame.grew
  springs := hsprings
  count := by simp [hj, hcount]
  joint := hj
  others _ _ := rfl
  kept _ _ hi := hi
  fresh _ _ hn hi := by cases hn.symm.trans hi
  scale := rfl

theorem anchors_ne_nil (hw : w.Sound) {j : Cell × Nat} (hj : j ∈ g.joints)
    (halive : w.isAlive j.2) : anchors w g ≠ [] := by
  obtain ⟨p, hp⟩ := Option.isSome_iff_exists.mp ((hw.particle?_isSome j.2).trans halive)
  exact List.ne_nil_of_mem (mem_anchors.mpr ⟨j, hj, p, hp, rfl⟩)

section
variable [Scalar α]

/-- In a world with room, a point is always made. -/
theorem meets_addPoint_ready (hw : w.Ready) (spot : Vec α) (mass : α) (fixed : Bool) :
    Meets (· = (w, g)) (inWorld (World.addPoint spot mass fixed)) (fun _ => False)
      fun id t => id = w.slots.size ∧
        t = (w.roomy.seat (.atRest spot (World.massOf mass) fixed), g) := by
  refine .returns ?_
  intro s hs
  subst hs
  obtain ⟨notes, he⟩ := World.addPoint_apply spot mass fixed w
  rw [if_neg (Nat.not_le_of_gt (World.count_roomy_lt hw))] at he
  rw [inWorld_result, inWorld_state, he]
  exact ⟨_, rfl, rfl, rfl⟩

/-- In a world with room, a cell always gets its joint. -/
theorem meets_jointAt_given (hw : w.Ready) (hf : Fitted w g) (cell : Cell) (spot : Vec α) (mass : α)
    (fixed : Bool) :
    Meets (· = (w, g)) (jointAt cell spot mass fixed) (fun _ => False)
      fun id t => Given cell (w, g) id t := by
  apply meets_jointAt_of
  case hnew =>
    intro hj
    refine (meets_addPoint_ready hw spot mass fixed).weaken fun id t ht => ?_
    obtain ⟨rfl, rfl⟩ := ht
    have hroom := World.count_roomy_lt hw
    have hsame := World.same_roomy w
    have hfitted : Fitted w.roomy g :=
      hf.world fun j hmem => (hsame.alive _).trans (hf.alive j hmem)
    have hadd := hfitted.add hj (.atRest spot (World.massOf mass) fixed)
    rw [hsame.points] at hadd
    refine ⟨?_, hadd, hsame.grew.trans (World.grew_seat _ _), World.springs_roomy w, ?_, ?_, ?_,
      ?_, ?_, rfl⟩
    · have hc : World.Changes (fun _ => True) w (w.roomy.seat _) :=
        .more (World.changes_roomy w) (.seat (.atRest spot (World.massOf mass) fixed) trivial hroom)
      exact hc.ready hw
    · simp [World.seat, World.count, World.bodies_roomy, hj]
    · simp [joint?_append, hj]
    · intro c hc
      simp [joint?_append, hc]
    · intro c i hi
      rw [joint?_append, hi, Option.some_or]
    · intro c i hn hi
      rw [joint?_append, hn, Option.none_or] at hi
      split at hi
      · cases hi
        exact Nat.le_refl _
      · cases hi
  case hlost =>
    intro id e hj _ he
    obtain ⟨p, hread⟩ := hw.particle_of_alive (hf.alive_of_joint? hj)
    cases hread.symm.trans he
  case hfound => exact fun _ hj _ => .found hf hj hw (.refl w) rfl rfl
  case hpinned =>
    intro id p hj _ _ _
    refine (meets_pin hw (hf.alive_of_joint? hj)).weaken fun _ t ht => ?_
    obtain ⟨w', g'⟩ := t
    obtain ⟨rfl, hready, hsame, hsprings, hcount⟩ := ht
    exact .found hf hj hready hsame hsprings hcount

end
end Graph
end Arboretum
