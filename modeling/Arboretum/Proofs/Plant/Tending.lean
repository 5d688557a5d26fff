import Arboretum.Proofs.Graph.Outline
import Arboretum.Proofs.Plant.Rearing

/-!
A plant that is tended in a world of which others make what they like: they may cut its strands and
take its points. At any time its strands are those of segments that were built.
-/
namespace Arboretum

open Arboretum.Action

variable {α : Type} [Scalar α]

namespace Growth

theorem keeps_written_outline {ρ : Type} {task : Task α} {x : Graph.Build α ρ}
    (h : ∀ strung, Meets (Graph.Outlines strung) x (Graph.Outlines strung)
      fun _ => Graph.Outlines (strung ++ Growth.strung [task])) :
    Keeps (fun s => Graph.Outlines (strung s.1) s.2) (written task x) := by
  have hwritten (done : List (Task α)) : Meets (Graph.Outlines (strung done)) x
      (Graph.Outlines (strung done)) fun _ => Graph.Outlines (strung (done ++ [task])) := by
    rw [strung_append]
    exact h (strung done)
  exact keeps_written hwritten

/-- A segment that is built may show in the outline, and nothing else does. -/
theorem outlines_crew :
    (recording (Plant.crew (α := α))).Keeps fun s => Graph.Outlines (strung s.1) s.2 where
  build s index := keeps_written_outline fun strung => by
    have hbuilt : Growth.strung [.segment s index] = if s.Spans then [(index, s)] else [] :=
      List.flatMap_singleton _ _
    rw [hbuilt]
    have hsegment : Meets (Graph.Outlines strung) (Graph.materialize s (some index)) _ _ :=
      Meets.each fun _ h => Graph.meets_materialize_outline h s index
    exact hsegment.bind fun _ => .pure fun _ ht => ht
  brace segments := keeps_written_outline fun _ =>
    (Graph.keeps_addBraces_outline segments).meets.bind fun _ => .pure fun _ ht => ht.more _
  hang fruits := keeps_written_outline fun _ =>
    (Graph.keeps_hangAll_outline fruits).meets.bind fun _ => .pure fun _ ht => ht.more _

/-- A plan and a body with no other strands than those of segments that it has built. -/
def Outlined (p : Growth α × World α × Graph α) : Prop :=
  ∃ done, Ranked p.1 done ∧ Graph.Outlines (strung done) p.2

theorem Outlined.advance {p : Growth α × World α × Graph α} (h : Outlined p) :
    Outlined (advance Plant.crew p).state := by
  obtain ⟨done, hranked, hbody⟩ := h
  exact ranked_of_mirrors mirrors_advance (p := (p.1, done, p.2)) (Ranked.advance hranked)
    fun _ => keeps_advance outlines_crew _ hbody

end Growth

variable {cut : List Nat} {w : World α} {p : Plant α}

/-- A plant in its world, with which others do what they like. -/
inductive Tended : World α → Plant α → Prop where
  | planted {w : World α} (hw : w.Reached) {order : Planting α} {d : Draws α} {p : Plant α}
    (hp : (Plant.plant order (w, d)).result = .ok p) :
    Tended (Plant.plant order (w, d)).state.1 p
  | update {w : World α} {p : Plant α} (h : Tended w p) (dt : α) :
    Tended (Plant.update dt (w, p)).state.1 (Plant.update dt (w, p)).state.2
  | step {w : World α} {p : Plant α} (h : Tended w p) (dt : α) : Tended (w.step dt) p
  | edit {w : World α} {p : Plant α} (h : Tended w p)
    (e : Edit α {q : Point α // w.Sees q} Spring) : Tended (e.run Subtype.val id w).state p

theorem Reared.tended (h : Reared cut w p) : Tended w p := by
  induction h with
  | planted hw hp => exact .planted hw hp
  | update _ dt ih => exact ih.update dt
  | step _ dt ih => exact ih.step dt
  | edit _ e _ ih => exact ih.edit e

namespace Plant

/-- A plant alive with no other strands than those of its segments. -/
structure Drawable (w : World α) (p : Plant α) : Prop where
  drill : p.drill = Drill.none
  living : p.destroyed = false
  outlined : Growth.Outlined (p.growth, w, p.graph)

theorem Tidy.drawable (h : Tidy cut w p) : Drawable w p := by
  obtain ⟨done, hranked, hbody⟩ := h.tracked
  exact ⟨h.drill, h.living, done, hranked, hbody.outlines⟩

theorem Drawable.changed {w' : World α} (h : Drawable w p)
    (hc : World.Changes (fun _ => True) w w') : Drawable w' p := by
  obtain ⟨done, hranked, hbody⟩ := h.outlined
  exact ⟨h.drill, h.living, done, hranked, hbody.changed hc⟩

theorem Drawable.step (h : Drawable w p) (dt : α) : Drawable (w.step dt) p :=
  h.changed (World.Change.moved (World.moved_step dt w)).changes

theorem keeps_drawable_update (dt : α) :
    Keeps (fun s : World α × Plant α => Drawable s.1 s.2) (update dt) :=
  keeps_update (fun _ hs => ⟨hs.drill, hs.living, hs.outlined.advance⟩) fun _ hs => hs.step dt

end Plant

/-- Whatever others do with a plant, it can be drawn. -/
theorem Tended.drawable (h : Tended w p) : p.Drawable w := by
  induction h with
  | planted hw hp => exact (Reared.planted hw hp).tidy.drawable
  | update _ dt ih => exact Plant.keeps_drawable_update dt _ ih
  | step _ dt ih => exact ih.step dt
  | edit _ e ih =>
    obtain ⟨done, -, hbody⟩ := ih.outlined
    exact ih.changed
      (World.changes_run hbody.sound id Subtype.property e fun _ _ _ _ => trivial)

end Arboretum
