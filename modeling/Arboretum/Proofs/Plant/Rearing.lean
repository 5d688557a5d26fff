import Arboretum.Proofs.Garden.Shared
import Arboretum.Proofs.Graph.Content
import Arboretum.Proofs.Growth.Ranks

/-!
A plant that is reared: planted in a world, and tended as often as one likes, while others use the
world, and may even cut strands, but leave the points of the plant. At any time its body is what the
record of its crew says.
-/
namespace Arboretum

open Arboretum.Action

variable {α : Type}

namespace Growth

/-- What a record and the state of a crew show together is kept by work that is written down. -/
theorem keeps_written {σ ρ : Type} {shown : List (Task α) → σ → Prop} {task : Task α}
    {x : Action (Note α) σ ρ}
    (h : ∀ done, Meets (shown done) x (shown done) fun _ => shown (done ++ [task])) :
    Keeps (fun s => shown s.1 s.2) (written task x) := by
  rintro ⟨done, s⟩ hs
  obtain ⟨hstop, hdone⟩ := h done s hs
  unfold written
  cases hr : (x s).result with
  | error e =>
    have hsnd : (x.onSnd (done, s)).result = .error e := hr
    rw [bind_of_error hsnd]
    exact hstop e hr
  | ok a =>
    have hsnd : (x.onSnd (done, s)).result = .ok a := hr
    rw [bind_of_ok hsnd]
    exact hdone a hr

variable [Scalar α] {done : List (Task α)}

/-- The segments between two cells that a record says were built, with their numbers. -/
def strung (done : List (Task α)) : List (Nat × Segment α) :=
  done.flatMap fun
    | .segment s index => if s.Spans then [(index, s)] else []
    | _ => []

theorem strung_append (done later : List (Task α)) :
    strung (done ++ later) = strung done ++ strung later := List.flatMap_append

theorem mem_strung {index : Nat} {s : Segment α} :
    (index, s) ∈ strung done ↔ .segment s index ∈ done ∧ s.Spans := by
  rw [strung, List.mem_flatMap]
  constructor
  · rintro ⟨task, htask, hmem⟩
    cases task with
    | segment t i =>
      by_cases hspans : t.Spans
      · simp only [if_pos hspans, List.mem_singleton] at hmem
        cases hmem
        exact ⟨htask, hspans⟩
      · simp [if_neg hspans] at hmem
    | braces segments => cases hmem
    | fruits fruits => cases hmem
  · rintro ⟨htask, hspans⟩
    exact ⟨_, htask, by simp [if_pos hspans]⟩

theorem strung_sublist (done : List (Task α)) :
    ((strung done).map (·.1)).Sublist (numbers done) := by
  induction done with
  | nil => exact .slnil
  | cons task rest ih =>
    rw [← List.singleton_append, strung_append, numbers_append, List.map_append]
    refine List.Sublist.append ?_ ih
    cases task with
    | segment s index =>
      by_cases hspans : s.Spans
      · simp [strung, numbers, Task.number?, hspans]
      · simp [strung, hspans]
    | braces segments => exact .slnil
    | fruits fruits => exact .slnil

variable {cut : List Nat}

/-- A body is what a record tells, if the record numbers no segment twice. -/
def Fulfils (cut : List Nat) (done : List (Task α)) (s : World α × Graph α) : Prop :=
  (numbers done).Nodup → Graph.Comprises cut (strung done) (picked done) s

theorem keeps_fulfils {ρ : Type} {task : Task α} {x : Graph.Build α ρ}
    (h : ∀ done w g, Graph.Comprises cut (strung done) (picked done) (w, g) →
      Meets (· = (w, g)) x (Graph.Comprises cut (strung done) (picked done)) fun _ =>
        Fulfils cut (done ++ [task])) :
    Keeps (fun s => Fulfils cut s.1 s.2) (written task x) := by
  refine keeps_written fun done s hs => ⟨fun e he hnodup => ?_, fun a ha hnodup => ?_⟩
  · exact (h done s.1 s.2 (hs hnodup) s rfl).1 e he
  · have hbefore : (numbers done).Nodup := by
      rw [numbers_append] at hnodup
      exact hnodup.of_append_left
    exact (h done s.1 s.2 (hs hbefore) s rfl).2 a ha hnodup

/-- What is built is what is written down. -/
theorem fulfils_crew :
    (recording (Plant.crew (α := α))).Keeps fun s => Fulfils cut s.1 s.2 where
  build s index := keeps_fulfils fun done w g h => by
    refine (Graph.meets_materialize_content h s index).bind fun _ => .pure fun t ht hnodup => ?_
    rw [numbers_append, numbers_segment, List.nodup_append] at hnodup
    have hnew : index ∉ (strung done).map (·.1) := fun hmem =>
      hnodup.2.2 index ((strung_sublist done).subset hmem) index (List.mem_singleton_self _) rfl
    rw [strung_append, picked_append]
    simpa [strung, picked] using ht hnew
  brace segments := keeps_fulfils fun done w g h => by
    refine ((Graph.keeps_addBraces_content segments).meets.one h).bind fun _ => .pure ?_
    intro t ht _
    rw [strung_append, picked_append]
    simpa [strung, picked] using ht
  hang fruits := keeps_fulfils fun done w g h => by
    refine (Graph.meets_hangAll_content h fruits).bind fun _ => .pure fun t ht _ => ?_
    rw [strung_append, picked_append]
    simpa [strung, picked] using ht

/-- A plan and the body that was built by it, up to what others have cut. -/
def Tracked (cut : List Nat) (p : Growth α × World α × Graph α) : Prop :=
  ∃ done, Ranked p.1 done ∧ Graph.Comprises cut (strung done) (picked done) p.2

omit [Scalar α] in
/-- What the record of a crew shows with its work, it shows with the work of one without a record. -/
theorem ranked_of_mirrors {ρ : Type} {kept : List (Task α) → World α × Graph α → Prop}
    {x : Plan α (List (Task α) × World α × Graph α) ρ} {y : Plan α (World α × Graph α) ρ}
    (hmirrors : Mirrors unrecorded x y) {p : Growth α × List (Task α) × World α × Graph α}
    (hranked : Recorded Ranked (x p).state)
    (hkept : (numbers (x p).state.2.1).Nodup → kept (x p).state.2.1 (x p).state.2.2) :
    ∃ done, Ranked (y (unrecorded p)).state.1 done ∧ kept done (y (unrecorded p)).state.2 := by
  rw [← hmirrors.state]
  exact ⟨_, hranked, hkept hranked.books.once⟩

theorem Tracked.advance {p : Growth α × World α × Graph α} (h : Tracked cut p) :
    Tracked cut (advance Plant.crew p).state := by
  obtain ⟨done, hranked, hbody⟩ := h
  have hstart : Fulfils cut done p.2 := fun _ => hbody
  exact ranked_of_mirrors mirrors_advance (p := (p.1, done, p.2)) (Ranked.advance hranked)
    (keeps_advance fulfils_crew _ hstart)

theorem Tracked.placeRoots {segments : Array (Segment α)} {fruits : List (Fruit α)}
    {rate divisor : α} {g : Growth α} (hnew : Growth.new segments fruits rate divisor = .ok g)
    {w : World α} (hw : w.Sound) (origin : Vec α) (scale : α) :
    Tracked [] (placeRoots Plant.crew (g, w, Graph.new origin scale)).state := by
  have hstart : Fulfils [] [] (w, Graph.new origin scale) := fun _ => .new hw origin scale
  exact ranked_of_mirrors mirrors_placeRoots (p := (g, [], w, Graph.new origin scale))
    (Ranked.placeRoots (.new hnew) fun _ => rfl) (keeps_placeRoots fulfils_crew _ hstart)

end Growth

/-- The springs that are alive in one state of a world and no longer in another. -/
def World.lost (w w' : World α) : List Nat :=
  w.springs.toList.filter fun serial => !w'.springIsAlive serial

theorem World.mem_lost {w w' : World α} (hw : w.Sound) (serial : Nat) :
    serial ∈ w.lost w' ↔ w.springIsAlive serial ∧ ¬ w'.springIsAlive serial := by
  rw [lost, List.mem_filter, Array.mem_toList_iff, mem_springs hw, Bool.not_eq_true,
    Bool.not_eq_true']

variable [Scalar α] {cut : List Nat} {w : World α} {p : Plant α}

/-- A plant in its world, and the springs that others have cut since it was planted. Others may call
on the world and step it, but leave the points of the plant. -/
inductive Reared : List Nat → World α → Plant α → Prop where
  | planted {w : World α} (hw : w.Reached) {order : Planting α} {d : Draws α} {p : Plant α}
    (hp : (Plant.plant order (w, d)).result = .ok p) :
    Reared [] (Plant.plant order (w, d)).state.1 p
  | update {cut : List Nat} {w : World α} {p : Plant α} (h : Reared cut w p) (dt : α) :
    Reared cut (Plant.update dt (w, p)).state.1 (Plant.update dt (w, p)).state.2
  | step {cut : List Nat} {w : World α} {p : Plant α} (h : Reared cut w p) (dt : α) :
    Reared cut (w.step dt) p
  | edit {cut : List Nat} {w : World α} {p : Plant α} (h : Reared cut w p)
    (e : Edit α {q : Point α // w.Sees q} Spring)
    (hspared : ∀ i ∈ p.graph.allPoints, (e.run Subtype.val id w).state.isAlive i) :
    Reared (cut ++ w.lost (e.run Subtype.val id w).state) (e.run Subtype.val id w).state p

namespace Plant

/-- A plant alive whose body keeps to its plan. -/
structure Tidy (cut : List Nat) (w : World α) (p : Plant α) : Prop where
  drill : p.drill = Drill.none
  living : p.destroyed = false
  tracked : Growth.Tracked cut (p.growth, w, p.graph)

theorem Tidy.step (h : Tidy cut w p) (dt : α) : Tidy cut (w.step dt) p := by
  obtain ⟨done, hranked, hbody⟩ := h.tracked
  have hmoved := World.moved_step dt w
  have hstepped := hbody.grew (hmoved.sound hbody.sound) hmoved.same.grew
  exact ⟨h.drill, h.living, done, hranked, hstepped⟩

/-- Also where growth stops, the body keeps to the plan. -/
theorem keeps_tidy_update (dt : α) :
    Keeps (fun s : World α × Plant α => Tidy cut s.1 s.2) (update dt) :=
  keeps_update (fun _ hs => ⟨hs.drill, hs.living, hs.tracked.advance⟩) fun _ hs => hs.step dt

end Plant

open Plant in
theorem Reared.tidy (h : Reared cut w p) : Tidy cut w p := by
  induction h with
  | @planted w hw order d p hp =>
    obtain ⟨seedling, hsow, hgrown⟩ := of_plant_ok hp
    obtain ⟨⟨segments, fruits, hnew⟩, hgraph, hdrill, hliving, -⟩ := of_sow_ok hsow
    have htracked := Growth.Tracked.placeRoots hnew hw.sound order.spot seedling.scale
    rw [← hgraph] at htracked
    have htidy : Tidy [] (growing (Growth.placeRoots crew) (w, seedling)).state.1
        (growing (Growth.placeRoots crew) (w, seedling)).state.2 := ⟨hdrill, hliving, htracked⟩
    rwa [hgrown] at htidy
  | update _ dt ih => exact keeps_tidy_update dt _ ih
  | step _ dt ih => exact ih.step dt
  | edit _ e hspared ih =>
    obtain ⟨done, hranked, hbody⟩ := ih.tracked
    have hchanges : World.Changes (fun _ => True) _ _ :=
      World.changes_run hbody.sound id Subtype.property e fun _ _ _ _ => trivial
    exact ⟨ih.drill, ih.living, done, hranked,
      hbody.changed hchanges hspared (World.mem_lost hbody.sound)⟩

end Arboretum
