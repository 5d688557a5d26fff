import Arboretum.Graph.Release
import Arboretum.Proofs.Graph.Building
import Mathlib.Logic.Function.Basic

/-!
Releasing a body takes out what its builder made, and nothing else, whoever else has built in the
same world.
-/
namespace Arboretum

open Arboretum.Action Function

variable {α : Type}

namespace World

/-- The world `w'` is `w` without the points `ps`, the springs `ss` and the springs at those
points. -/
structure Shed (ps ss : List Nat) (w w' : World α) : Prop where
  sound : w'.Sound
  points : ∀ id, w'.particle? id = if id ∈ ps then none else w.particle? id
  bonds : ∀ serial, w'.bond? serial =
    if serial ∈ ss then none else (w.bond? serial).filter fun bond => !ps.any bond.meets

namespace Shed

variable {ps ps' ss ss' : List Nat} {w w₁ w₂ w₃ : World α}

theorem refl (h : w.Sound) : Shed [] [] w w where
  sound := h
  points _ := rfl
  bonds serial := by cases w.bond? serial <;> rfl

theorem trans (h : Shed ps ss w₁ w₂) (h' : Shed ps' ss' w₂ w₃) :
    Shed (ps ++ ps') (ss ++ ss') w₁ w₃ where
  sound := h'.sound
  points id := by
    rw [h'.points, h.points]
    by_cases hp : id ∈ ps <;> by_cases hp' : id ∈ ps' <;> simp [hp, hp']
  bonds serial := by
    rw [h'.bonds, h.bonds]
    by_cases hs : serial ∈ ss <;> by_cases hs' : serial ∈ ss' <;>
      simp [hs, hs', Option.filter_filter]

theorem unlink (h : w.Sound) {serial place : Nat} (hp : w.place? serial = some place) :
    Shed [] [serial] w (w.unlink serial place) where
  sound := h.unlink hp
  points _ := rfl
  bonds s := by
    rw [bond?_unlink h hp]
    by_cases hs : s = serial
    · simp [hs]
    · cases w.bond? s <;> simp [hs, Option.filter]

theorem without (h : w.Sound) {id slot : Nat} (hs : w.slot? id = some slot) :
    Shed [id] [] w (w.without id slot) where
  sound := h.without hs
  points x := by simp [particle?_without h hs]
  bonds s := by simp [bond?_without h id slot s]

end Shed
end World

namespace Graph

/-- An operation that always returns, sheds some points and springs, and leaves the body as it
is. -/
def Sheds {ρ : Type} (x : Build α ρ) (ps ss : List Nat) : Prop :=
  ∀ (w : World α) (g : Graph α), w.Sound →
    ∃ a w' notes, x (w, g) = ⟨.ok a, (w', g), notes⟩ ∧ w.Shed ps ss w'

theorem Sheds.pure {ρ : Type} (a : ρ) : Sheds (Pure.pure a : Build α ρ) [] [] :=
  fun w _ hw => ⟨a, w, [], rfl, .refl hw⟩

theorem Sheds.bind {ρ ρ' : Type} {x : Build α ρ} {f : ρ → Build α ρ'} {ps ps' ss ss' : List Nat}
    (hx : Sheds x ps ss) (hf : ∀ a, Sheds (f a) ps' ss') :
    Sheds (x >>= f) (ps ++ ps') (ss ++ ss') := by
  intro w g hw
  obtain ⟨a, w₁, before, hrun, hshed⟩ := hx w g hw
  obtain ⟨b, w₂, after, hrun', hshed'⟩ := hf a w₁ g hshed.sound
  refine ⟨b, w₂, before ++ after, ?_, hshed.trans hshed'⟩
  rw [bind_ok hrun, hrun']

theorem sheds_forEach (xs : List Nat) {f : Nat → Build α Unit} {ps ss : Nat → List Nat}
    (h : ∀ x, Sheds (f x) (ps x) (ss x)) :
    Sheds (Action.forEach xs f) (xs.flatMap ps) (xs.flatMap ss) := by
  induction xs with
  | nil => exact .pure _
  | cons x xs ih =>
    have hall := (h x).bind fun a => ih.bind fun as => Sheds.pure (a :: as)
    rw [List.flatMap_cons, List.flatMap_cons]
    simp only [List.append_nil] at hall
    exact hall

theorem sheds_dropSpring (serial : Nat) : Sheds (α := α) (dropSpring serial) [] [serial] := by
  intro w g hw
  cases hp : w.place? serial with
  | none =>
    have hdead : w.springIsAlive serial = false := by rw [World.springIsAlive, hp]; rfl
    refine ⟨(), w, [], by simp [dropSpring, reading, hdead], ?_⟩
    refine ⟨hw, fun _ => rfl, fun s => ?_⟩
    by_cases hs : s = serial
    · simp [hs, World.bond?_eq_none.mpr hp]
    · cases w.bond? s <;> simp [hs, Option.filter]
  | some place =>
    have halive : w.springIsAlive serial = true := by rw [World.springIsAlive, hp]; rfl
    have hremove : World.removeSpring (some (w.spring serial)) w =
        ⟨.ok true, w.unlink serial place, []⟩ := by
      rw [World.removeSpring_apply]
      simp [World.listed?_spring hw, hp]
    refine ⟨(), w.unlink serial place, [], ?_, .unlink hw hp⟩
    simp [dropSpring, reading, halive, hremove, Except.map]

theorem sheds_dropPoint (id : Nat) : Sheds (α := α) (dropPoint id) [id] [] := by
  intro w g hw
  cases hs : w.slot? id with
  | none =>
    have hdead : w.isAlive id = false := by rw [World.isAlive, hs]; rfl
    refine ⟨(), w, [], by simp [dropPoint, reading, hdead], ?_⟩
    refine ⟨hw, fun x => ?_, fun s => ?_⟩
    · by_cases hx : x = id
      · simp [hx, World.particle?, hs]
      · simp [hx]
    · -- a point that is gone ends no spring
      cases hb : w.bond? s with
      | none => rfl
      | some bond =>
        obtain ⟨_, ha, hb'⟩ := hw.ends s bond hb
        have hA : bond.a ≠ id := fun he => by rw [he, hdead] at ha; cases ha
        have hB : bond.b ≠ id := fun he => by rw [he, hdead] at hb'; cases hb'
        simp [Option.filter, Bond.meets, hA, hB]
  | some slot =>
    have halive : w.isAlive id = true := by rw [World.isAlive, hs]; rfl
    have hremove : World.removePoint (some (w.point id)) w =
        ⟨.ok true, w.without id slot, []⟩ := by
      rw [World.removePoint_apply]
      simp [World.seated?_point hw, hs]
    refine ⟨(), w.without id slot, [], ?_, .without hw hs⟩
    simp [dropPoint, reading, halive, hremove, Except.map]

/-- Releasing always succeeds, and takes out what the body keeps with all that hangs on it. -/
theorem release_shed {w : World α} (hw : w.Sound) (g : Graph α) :
    (release (w, g)).result = .ok () ∧ (release (w, g)).state.2 = new g.origin g.scale ∧
      w.Shed g.allPoints g.allSprings (release (w, g)).state.1 := by
  have hsprings := sheds_forEach g.allSprings fun s => sheds_dropSpring (α := α) s
  have hpoints := sheds_forEach g.allPoints fun id => sheds_dropPoint (α := α) id
  have hdrop := hsprings.bind fun _ => hpoints
  have hnil : ∀ xs : List Nat, xs.flatMap (fun _ => ([] : List Nat)) = [] := fun xs => by simp
  rw [hnil, hnil, List.flatMap_singleton', List.flatMap_singleton', List.nil_append,
    List.append_nil] at hdrop
  obtain ⟨_, w', notes, hrun, hshed⟩ := hdrop w g hw
  have hrelease := bind_ok hrun fun _ => record fun g => new g.origin g.scale
  rw [bind_assoc] at hrelease
  have hrelease : release (w, g) = _ := hrelease
  rw [hrelease]
  exact ⟨rfl, rfl, hshed⟩

/-- A world in which exactly what a ledger lists is gone. -/
structure Released (l : Ledger) (w w' : World α) : Prop where
  sound : w'.Sound
  points : ∀ id ∈ l.points, w.isAlive id ∧ w'.isAlive id = false ∧ id ∉ w'.bodies
  springs : ∀ serial ∈ l.springs,
    w.springIsAlive serial ∧ w'.springIsAlive serial = false ∧ serial ∉ w'.springs
  otherPoints : ∀ id, id ∉ l.points → w'.particle? id = w.particle? id
  otherSprings : ∀ serial, serial ∉ l.springs → w'.bond? serial = w.bond? serial
  pointsOnce : l.points.Nodup
  springsOnce : l.springs.Nodup
  count : w'.count + l.points.length = w.count
  springCount : w'.springs.size + l.springs.length = w.springs.size

namespace Owns

variable {l : Ledger} {w w' : World α} {g : Graph α}

/-- Springs that no one tracks go with their ends. -/
theorem bond?_shed (h : Owns l [] w g) (hshed : w.Shed g.allPoints g.allSprings w')
    (serial : Nat) : w'.bond? serial = if serial ∈ l.springs then none else w.bond? serial := by
  have hkept : ∀ id, id ∈ g.allPoints ↔ id ∈ l.points := fun id =>
    ((h.kept id).trans (or_iff_left List.not_mem_nil)).symm
  rw [hshed.bonds]
  by_cases hs : serial ∈ l.springs
  · obtain ⟨bond, hb, ha, _⟩ := h.joins serial hs
    have hmeets : g.allPoints.any bond.meets = true :=
      List.any_eq_true.mpr ⟨bond.a, (hkept bond.a).mpr ha, by simp [Bond.meets]⟩
    simp [hs, hb, hmeets, Option.filter]
  · have htracked : serial ∉ g.allSprings := fun ht => hs (h.tracked serial ht)
    rw [if_neg htracked, if_neg hs]
    cases hb : w.bond? serial with
    | none => rfl
    | some bond =>
      have hmeets : g.allPoints.any bond.meets = false := by
        rw [List.any_eq_false]
        intro id hid hm
        have hid := (hkept id).mp hid
        rw [Bond.meets, Bool.or_eq_true, beq_iff_eq, beq_iff_eq] at hm
        refine hs (h.meets serial bond hb (hm.imp ?_ ?_)) <;> rintro rfl <;> exact hid
      simp [hmeets, Option.filter]

theorem particle?_shed (h : Owns l [] w g) (hshed : w.Shed g.allPoints g.allSprings w')
    (id : Nat) : w'.particle? id = if id ∈ l.points then none else w.particle? id := by
  have hkept := (h.kept id).trans (or_iff_left List.not_mem_nil)
  rw [hshed.points]
  by_cases hid : id ∈ l.points
  · rw [if_pos hid, if_pos (hkept.mp hid)]
  · rw [if_neg hid, if_neg fun hg => hid (hkept.mpr hg)]

theorem released (h : Owns l [] w g) (hw : w.Sound)
    (hshed : w.Shed g.allPoints g.allSprings w') : Released l w w' := by
  have hpoint := h.particle?_shed hshed
  have hbond := h.bond?_shed hshed
  have hdead : ∀ id, w'.isAlive id = true ↔ w.isAlive id = true ∧ id ∉ l.points := by
    intro id
    rw [← hshed.sound.particle?_isSome, ← hw.particle?_isSome, hpoint]
    by_cases hid : id ∈ l.points <;> simp [hid]
  have hspring : ∀ serial, w'.springIsAlive serial = true ↔
      w.springIsAlive serial = true ∧ serial ∉ l.springs := by
    intro serial
    rw [← World.bond?_isSome, ← World.bond?_isSome, hbond]
    by_cases hs : serial ∈ l.springs <;> simp [hs]
  have hstrung : ∀ serial ∈ l.springs, w.springIsAlive serial = true := by
    intro serial hs
    obtain ⟨bond, hb, _⟩ := h.joins serial hs
    rw [← World.bond?_isSome, hb]
    rfl
  exact
    { sound := hshed.sound
      points := fun id hid =>
        have hgone : ¬ w'.isAlive id = true := fun ha => ((hdead id).mp ha).2 hid
        ⟨h.alive id hid, Bool.eq_false_iff.mpr hgone,
          fun hm => hgone ((World.mem_bodies hshed.sound id).mp hm)⟩
      springs := fun serial hs =>
        have hgone : ¬ w'.springIsAlive serial = true := fun ha => ((hspring serial).mp ha).2 hs
        ⟨hstrung serial hs, Bool.eq_false_iff.mpr hgone,
          fun hm => hgone ((World.mem_springs hshed.sound serial).mp hm)⟩
      otherPoints := fun id hid => (hpoint id).trans (if_neg hid)
      otherSprings := fun serial hs => (hbond serial).trans (if_neg hs)
      pointsOnce := h.pointsOnce
      springsOnce := h.springsOnce
      count := indexed_split hw.seats hshed.sound.seats h.pointsOnce h.alive hdead
      springCount := indexed_split hw.places hshed.sound.places h.springsOnce hstrung hspring }

/-- Another's release leaves a builder with what it owns. -/
theorem spared (h : Owns l [] w g) {l' : Ledger} {g' : Graph α} (h' : Owns l' [] w g')
    (hapart : l.Apart l') (hw : w.Sound) (hrel : Released l' w w') : Owns l [] w' g := by
  have hspring : ∀ serial ∈ l.springs, serial ∉ l'.springs := by
    intro serial hs hm
    obtain ⟨bond, hb, ha, -⟩ := h.joins serial hs
    obtain ⟨bond', hb', ha', -⟩ := h'.joins serial hm
    rw [hb] at hb'
    cases hb'
    exact hapart _ ha ha'
  refine ⟨h.kept, fun id hid => ?_, h.tracked, fun serial hs => ?_, fun serial bond hb hm => ?_,
    h.pointsOnce, h.springsOnce⟩
  · rw [← hrel.sound.particle?_isSome, hrel.otherPoints id (hapart id hid), hw.particle?_isSome]
    exact h.alive id hid
  · rw [hrel.otherSprings serial (hspring serial hs)]
    exact h.joins serial hs
  · by_cases hs : serial ∈ l'.springs
    · have hgone := (hrel.springs serial hs).2.1
      rw [← World.bond?_isSome, hb] at hgone
      cases hgone
    · exact h.meets serial bond ((hrel.otherSprings serial hs).symm.trans hb) hm

end Owns

end Graph
end Arboretum
