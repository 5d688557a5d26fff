import Arboretum.Proofs.Garden.Planting
import Arboretum.Proofs.Graph.Release
import Mathlib.Logic.ExistsUnique

/-!
Plants that share a world. What one of them builds or lets go of leaves the others with what they
keep, and there is nothing in the world that no plant keeps.
-/
namespace Arboretum

open Arboretum.Action

variable {α : Type}

namespace World

variable {w w' : World α} {p : Plant α} {ps qs : List (Plant α)}

/-- A sound world that has come from another. -/
structure Since (w₀ w : World α) : Prop where
  sound : w.Sound
  onward : w₀.Onward w

theorem lasting_since (w₀ : World α) : Lasting (Since w₀) where
  sound _ h := h.sound
  change _ _ h hc := ⟨hc.sound h.sound, h.onward.trans (hc.onward h.sound)⟩

/-- A world in which some plants own what they keep, no two of them keep the same, and no point is
without a plant. -/
structure Shared (ps : List (Plant α)) (w : World α) : Prop where
  sound : w.Sound
  owns : ∀ p ∈ ps, ∃ l, Graph.Owns l [] w p.graph
  apart : ps.Pairwise fun p q => List.Disjoint p.graph.allPoints q.graph.allPoints
  covered : ∀ id, w.isAlive id → ∃ p ∈ ps, id ∈ p.graph.allPoints

namespace Shared

theorem nobody (hw : w.Sound) (hempty : ∀ id, w.isAlive id = false) : Shared [] w where
  sound := hw
  owns _ hp := absurd hp List.not_mem_nil
  apart := .nil
  covered id hid := by cases (hempty id).symm.trans hid

theorem perm (h : Shared ps w) (hp : ps.Perm qs) : Shared qs w where
  sound := h.sound
  owns q hq := h.owns q (hp.mem_iff.mpr hq)
  apart := (hp.pairwise_iff List.disjoint_symm).mp h.apart
  covered id hid := by
    obtain ⟨q, hq, hkept⟩ := h.covered id hid
    exact ⟨q, hp.mem_iff.mp hq, hkept⟩

theorem same (h : Shared ps w) (hs : w'.Sound) (hw : w.Same w') : Shared ps w' where
  sound := hs
  owns q hq := by
    obtain ⟨l, hl⟩ := h.owns q hq
    exact ⟨l, hl.same hw⟩
  apart := h.apart
  covered id hid := h.covered id ((hw.alive id).symm.trans hid)

/-- Who owns what is told by the bodies of the plants. -/
theorem map (h : Shared ps w) {f : Plant α → Plant α} (hf : ∀ p, (f p).graph = p.graph) :
    Shared (ps.map f) w where
  sound := h.sound
  owns q hq := by
    obtain ⟨p, hp, rfl⟩ := List.mem_map.mp hq
    rw [hf]
    exact h.owns p hp
  apart := by
    rw [List.pairwise_map]
    simp only [hf]
    exact h.apart
  covered id hid := by
    obtain ⟨p, hp, hkept⟩ := h.covered id hid
    exact ⟨f p, List.mem_map_of_mem hp, (hf p).symm ▸ hkept⟩

/-- A plant of which nothing was built can join. -/
theorem join (h : Shared ps w) {origin : Vec α} {scale : α}
    (hp : p.graph = Graph.new origin scale) : Shared (p :: ps) w where
  sound := h.sound
  owns := List.forall_mem_cons.mpr ⟨⟨⟨[], []⟩, hp ▸ .new origin scale w⟩, h.owns⟩
  apart := List.pairwise_cons.mpr
    ⟨fun q _ id hid => by simp [hp, Graph.allPoints, Graph.new] at hid, h.apart⟩
  covered id hid := by
    obtain ⟨q, hq, hkept⟩ := h.covered id hid
    exact ⟨q, List.mem_cons_of_mem p hq, hkept⟩

/-- A plant that was at work alone owns what was made meanwhile. -/
theorem tend (h : Shared (p :: ps) w) {p' : Plant α} (honward : w.Onward w')
    (htended : ∀ l, Graph.Owns l [] w p.graph → Graph.Tended l w [] [] (w', p'.graph)) :
    Shared (p' :: ps) w' := by
  obtain ⟨⟨l, hl⟩, howns⟩ := List.forall_mem_cons.mp h.owns
  obtain ⟨hapart, hps⟩ := List.pairwise_cons.mp h.apart
  obtain ⟨hsound, hgrew, hown, -⟩ := htended l hl
  have hkept : ∀ id, id ∈ p'.graph.allPoints ↔ id ∈ (l.grown w w').points := fun id =>
    ((hown.kept id).trans (or_iff_left List.not_mem_nil)).symm
  have hold : ∀ id, id ∈ p.graph.allPoints ↔ id ∈ l.points := fun id =>
    ((hl.kept id).trans (or_iff_left List.not_mem_nil)).symm
  -- another plant keeps points that were alive before, and so none that are new
  have hother : ∀ q ∈ ps, ∀ id ∈ q.graph.allPoints, id ∉ (l.grown w w').points := by
    intro q hq id hid hm
    rcases Ledger.mem_points_grown.mp hm with hm | ⟨hge, -⟩
    · exact hapart q hq ((hold id).mpr hm) hid
    · obtain ⟨l', hl'⟩ := howns q hq
      have halive := hl'.alive id ((hl'.kept id).mpr (.inl hid))
      exact absurd (isAlive_lt halive) (Nat.not_lt_of_ge hge)
  refine ⟨hsound, List.forall_mem_cons.mpr ⟨⟨_, hown⟩, fun q hq => ?_⟩,
    List.pairwise_cons.mpr ⟨fun q hq id hid hid' => ?_, hps⟩, fun id hid => ?_⟩
  · obtain ⟨l', hl'⟩ := howns q hq
    refine ⟨l', hl'.beside hgrew hown fun id hid => hother q hq id ?_⟩
    exact ((hl'.kept id).mp hid).resolve_right List.not_mem_nil
  · exact hother q hq id hid' ((hkept id).mp hid)
  · by_cases hlt : id < w.slots.size
    · obtain ⟨q, hq, hid⟩ := h.covered id (honward.gone id hlt hid)
      rcases List.mem_cons.mp hq with rfl | hq
      · refine ⟨p', List.mem_cons_self, (hkept id).mpr ?_⟩
        exact Ledger.mem_points_grown.mpr (.inl ((hold id).mp hid))
      · exact ⟨q, List.mem_cons_of_mem p' hq, hid⟩
    · refine ⟨p', List.mem_cons_self, (hkept id).mpr ?_⟩
      exact Ledger.mem_points_grown.mpr (.inr ⟨Nat.le_of_not_lt hlt, isAlive_lt hid⟩)

/-- A plant that lets go of its body leaves a world to the others. -/
theorem leave (h : Shared (p :: ps) w)
    (hshed : w.Shed p.graph.allPoints p.graph.allSprings w') : Shared ps w' := by
  obtain ⟨⟨l, hl⟩, howns⟩ := List.forall_mem_cons.mp h.owns
  obtain ⟨hapart, hps⟩ := List.pairwise_cons.mp h.apart
  have hrel := hl.released h.sound hshed
  have hold : ∀ id, id ∈ p.graph.allPoints ↔ id ∈ l.points := fun id =>
    ((hl.kept id).trans (or_iff_left List.not_mem_nil)).symm
  refine ⟨hrel.sound, fun q hq => ?_, hps, fun id hid => ?_⟩
  · obtain ⟨l', hl'⟩ := howns q hq
    refine ⟨l', hl'.spared hl (fun id hid hm => ?_) h.sound hrel⟩
    have hid := ((hl'.kept id).mp hid).resolve_right List.not_mem_nil
    exact hapart q hq ((hold id).mpr hm) hid
  · have hstay : id ∉ l.points := fun hm => by cases (hrel.points id hm).2.1.symm.trans hid
    rw [← hrel.sound.particle?_isSome, hrel.otherPoints id hstay, h.sound.particle?_isSome] at hid
    obtain ⟨q, hq, hid⟩ := h.covered id hid
    rcases List.mem_cons.mp hq with rfl | hq
    · exact absurd ((hold id).mp hid) hstay
    · exact ⟨q, hq, hid⟩

/-- A point belongs to one plant. -/
theorem point (h : Shared ps w) {id : Nat} (hid : w.isAlive id) :
    ∃! i : Nat, ∃ p : Plant α, ps[i]? = some p ∧ id ∈ p.graph.allPoints := by
  obtain ⟨p, hp, hkept⟩ := h.covered id hid
  obtain ⟨i, hi⟩ := List.mem_iff_getElem?.mp hp
  refine ⟨i, ⟨p, hi, hkept⟩, ?_⟩
  rintro j ⟨q, hj, hkept'⟩
  have hapart := List.pairwise_iff_getElem.mp h.apart
  obtain ⟨hlt, rfl⟩ := List.getElem?_eq_some_iff.mp hi
  obtain ⟨hlt', rfl⟩ := List.getElem?_eq_some_iff.mp hj
  rcases Nat.lt_trichotomy i j with hij | hij | hij
  · exact absurd hkept' (hapart i j hlt hlt' hij hkept)
  · exact hij.symm
  · exact absurd hkept (hapart j i hlt' hlt hij hkept')

/-- The ends of a spring belong to one plant. -/
theorem bond (h : Shared ps w) {serial : Nat} {bond : Bond α} (hb : w.bond? serial = some bond) :
    ∃ p ∈ ps, bond.a ∈ p.graph.allPoints ∧ bond.b ∈ p.graph.allPoints := by
  obtain ⟨-, ha, -⟩ := h.sound.ends serial bond hb
  obtain ⟨p, hp, hkept⟩ := h.covered bond.a ha
  obtain ⟨l, hl⟩ := h.owns p hp
  have hmem := hl.meets serial bond hb (.inl ((hl.kept _).mpr (.inl hkept)))
  obtain ⟨bond', hb', -, hB⟩ := hl.joins serial hmem
  cases hb.symm.trans hb'
  exact ⟨p, hp, hkept, ((hl.kept _).mp hB).resolve_right List.not_mem_nil⟩

/-- A world without plants is empty. -/
theorem empty (h : Shared [] w) : w.count = 0 ∧ w.springs.size = 0 := by
  have hpoint : ∀ id, id ∉ w.bodies := by
    intro id hid
    obtain ⟨p, hp, -⟩ := h.covered id ((mem_bodies h.sound id).mp hid)
    exact List.not_mem_nil hp
  have hspring : ∀ serial, serial ∉ w.springs := by
    intro serial hs
    have halive := (mem_springs h.sound serial).mp hs
    rw [← bond?_isSome, Option.isSome_iff_exists] at halive
    obtain ⟨bond, hb⟩ := halive
    obtain ⟨p, hp, -⟩ := h.bond hb
    exact List.not_mem_nil hp
  rw [count, Array.eq_empty_iff_forall_not_mem.mpr hpoint,
    Array.eq_empty_iff_forall_not_mem.mpr hspring]
  exact ⟨rfl, rfl⟩

end Shared
end World

namespace Plant

variable {w : World α} {p : Plant α} {ps : List (Plant α)}

/-- A plant that can be taken out of its world. -/
structure Fit (p : Plant α) : Prop where
  drill : p.drill.destroy = none
  living : p.destroyed = false

theorem keeps_fit_growing {ρ : Type} (x : Growth.Plan α (World α × Graph α) ρ) :
    Keeps (fun s : World α × Plant α => s.2.Fit) (growing x) :=
  fun _ hs => ⟨hs.drill, hs.living⟩

/-- Destroying a plant that is fit releases its body, and then marks and notes it. -/
theorem destroy_apply (hp : p.Fit) (w : World α) : destroy (w, p) =
    (building Graph.release >>= fun _ => do
      Action.modify fun s => (s.1, { s.2 with destroyed := true })
      Action.note (.destroyed p.id p.growth.growth)) (w, p) := by
  unfold destroy
  rw [read_bind]
  simp only [hp.drill, hp.living, Drill.check, ofExcept_ok, pure_bind]
  rfl

/-- Destroying a plant that is fit cannot fail and leaves nothing of it. -/
theorem destroy_fit (hw : w.Sound) (hp : p.Fit) : (destroy (w, p)).result = .ok () ∧
    (destroy (w, p)).state.2.graph = Graph.new p.graph.origin p.graph.scale ∧
      w.Shed p.graph.allPoints p.graph.allSprings (destroy (w, p)).state.1 := by
  obtain ⟨hok, hbody, hshed⟩ := Graph.release_shed hw p.graph
  have hreleased : (building Graph.release (w, p)).result = .ok () := hok
  rw [destroy_apply hp, bind_of_ok hreleased]
  exact ⟨rfl, hbody, hshed⟩

theorem destroy_destroyed (hw : w.Sound) (hp : p.Fit) : (destroy (w, p)).state.2.destroyed := by
  have hreleased : (building Graph.release (w, p)).result = .ok () :=
    (Graph.release_shed hw p.graph).1
  rw [destroy_apply hp, bind_of_ok hreleased]
  rfl

variable [Scalar α]

theorem keeps_fit_update (dt : α) : Keeps (fun s : World α × Plant α => s.2.Fit) (update dt) :=
  keeps_update (keeps_fit_growing _) fun _ hs => hs

theorem tended_update (l : Ledger) (w : World α) (dt : α) :
    Keeps (fun s : World α × Plant α => Graph.Tended l w [] [] (s.1, s.2.graph)) (update dt) := by
  refine keeps_update (fun s => Growth.keeps_advance tended_crew (s.2.growth, (s.1, s.2.graph)))
    fun s hs => ?_
  have hmoved := World.moved_step dt s.1
  exact hs.same (hmoved.sound hs.sound) hmoved.same

theorem sow_fresh {order : Planting α} {d : Draws α} (h : (sow order d).result = .ok p) :
    p.drill = Drill.none ∧ p.destroyed = false ∧ p.ownsWorld = order.ownsWorld :=
  (of_sow_ok h).2.2

theorem fit_of_sow {order : Planting α} {d : Draws α} (h : (sow order d).result = .ok p) :
    p.Fit := by
  obtain ⟨hdrill, hliving, -⟩ := sow_fresh h
  exact ⟨hdrill ▸ rfl, hliving⟩

/-- What is planted is what was sown, with its roots. -/
theorem of_plant_ok {order : Planting α} {d : Draws α} {q : Plant α}
    (h : (plant order (w, d)).result = .ok q) : ∃ p, (sow order d).result = .ok p ∧
      (growing (Growth.placeRoots crew) (w, p)).state = ((plant order (w, d)).state.1, q) := by
  have hplant := h
  unfold plant at h
  obtain ⟨p, hp, h⟩ := of_bind_ok h
  have hsow : (sow order d).result = .ok p := hp
  obtain ⟨⟨outcome, q'⟩, htried, h⟩ := of_bind_ok h
  have htried : (tried (growing (Growth.placeRoots crew)) (w, p)).result = .ok (outcome, q') :=
    htried
  rw [tried_apply] at htried
  cases htried
  obtain ⟨_, _, h⟩ := of_bind_ok h
  obtain ⟨_, _, h⟩ := of_bind_ok h
  cases h
  exact ⟨p, hsow, Prod.ext (plant_of_ok hsow).symm rfl⟩

/-- What building keeps, a plant that gets its roots keeps. -/
theorem rooted {kept : World α × Graph α → Prop} (hcrew : crew.Keeps kept) {w' : World α}
    {q : Plant α} (hgrown : (growing (Growth.placeRoots crew) (w, p)).state = (w', q))
    (h : kept (w, p.graph)) : kept (w', q.graph) := by
  have hbody : (Growth.placeRoots crew (p.growth, (w, p.graph))).state.2 = (w', q.graph) :=
    congrArg (fun s => (s.1, s.2.graph)) hgrown
  rw [← hbody]
  exact Growth.keeps_placeRoots hcrew _ h

/-- A planting whose roots do not take hold leaves the world as it is. -/
theorem plant_barren {order : Planting α} {d : Draws α}
    (hbarren : ∀ p, (sow order d).result = .ok p → Growth.takesHold p.growth.anchors = false) :
    (plant order (w, d)).state.1 = w := by
  cases hsow : (sow order d).result with
  | error e => exact plant_of_error hsow
  | ok p =>
    have hsame := Growth.placeRoots_kept (fun s => s = (w, p.graph)) (sown_of_sow hsow).stage
      (barren_roots (hbarren p hsow) _)
    rw [plant_of_ok hsow]
    exact congrArg Prod.fst hsame

end Plant

namespace World.Shared

variable {w : World α} {p : Plant α} {ps : List (Plant α)}

/-- A plant that is destroyed leaves the world to the others. -/
theorem destroy (h : Shared (p :: ps) w) (hp : p.Fit) :
    Shared ps (Plant.destroy (w, p)).state.1 :=
  h.leave (Plant.destroy_fit h.sound hp).2.2

variable [Scalar α]

/-- Wherever the growth of a plant ends or stops, the plant owns what it has built. -/
theorem update (h : Shared (p :: ps) w) (dt : α) :
    Shared ((Plant.update dt (w, p)).state.2 :: ps) (Plant.update dt (w, p)).state.1 := by
  have hsince := Plant.lasting_update (lasting_since w) dt (w, p) ⟨h.sound, .refl w⟩
  exact h.tend hsince.onward fun l hl => Plant.tended_update l w dt (w, p) (.start h.sound hl)

/-- A plant joins with its roots. -/
theorem plant (h : Shared ps w) {order : Planting α} {d : Draws α}
    (hp : (Plant.plant order (w, d)).result = .ok p) :
    Shared (p :: ps) (Plant.plant order (w, d)).state.1 ∧ p.Fit := by
  obtain ⟨seedling, hsow, hgrown⟩ := Plant.of_plant_ok hp
  obtain ⟨origin, scale, hgraph⟩ := (Plant.sown_of_sow hsow).graph
  have hfit := Plant.keeps_fit_growing (Growth.placeRoots Plant.crew) (w, seedling)
    (Plant.fit_of_sow hsow)
  rw [hgrown] at hfit
  have hsince := Plant.rooted (Plant.lasting_crew (lasting_since w)) hgrown ⟨h.sound, .refl w⟩
  refine ⟨(h.join hgraph).tend hsince.onward fun l hl => ?_, hfit⟩
  exact Plant.rooted Plant.tended_crew hgrown (.start h.sound hl)

end World.Shared
end Arboretum
