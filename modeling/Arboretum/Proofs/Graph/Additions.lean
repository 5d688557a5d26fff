import Arboretum.Proofs.Graph.Building
import Mathlib.Logic.Relation

/-!
What building adds to a world and a body, one thing at a time. Whatever a builder is asked for, and
also where it stops, comes down to such additions, whoever has taken points of the body meanwhile.
-/
namespace Arboretum

open Arboretum.Action

variable {α : Type}

/-- The two points that a spring alive joins, the smaller number first. -/
def World.pair? (w : World α) (serial : Nat) : Option (Nat × Nat) :=
  (w.bond? serial).map fun bond => (min bond.a bond.b, max bond.a bond.b)

namespace Graph

/-- One thing more in a world or in a body. -/
inductive Addition : World α × Graph α → World α × Graph α → Prop where
  | world {w w' : World α} {g : Graph α} (hc : World.Changes (fun _ => True) w w')
      (hgrew : w.Grew w') : Addition (w, g) (w', g)
  | joint {w : World α} {g : Graph α} (cell : Cell) {id : Nat} (halive : w.isAlive id) :
      Addition (w, g) (w, { g with joints := g.joints ++ [(cell, id)] })
  | strand {w : World α} {g : Graph α} (strands : List (Int × Nat × Segment α)) :
      Addition (w, g) (w, { g with strands := strands })
  | brace {w : World α} {g : Graph α} {pair : Nat × Nat} {serial : Nat}
      (hpair : w.pair? serial = some pair) (hnew : pair ∉ g.braced) :
      Addition (w, g) (w, { g with braced := pair :: g.braced, braces := g.braces ++ [serial] })
  | hanging {w : World α} {g : Graph α} (hanging : Hanging α) :
      Addition (w, g) (w, { g with hangings := g.hangings ++ [hanging] })

/-- A builder at work since a moment; it knows some points to be alive. -/
structure Added (was : World α × Graph α) (known : List Nat) (now : World α × Graph α) : Prop where
  sound : now.1.Sound
  steps : Relation.ReflTransGen Addition was now
  known : ∀ id ∈ known, now.1.isAlive id

namespace Added

variable {was now : World α × Graph α} {known : List Nat} {w w' : World α} {g g' : Graph α}

theorem start (hw : w.Sound) : Added (w, g) [] (w, g) :=
  ⟨hw, .refl, fun _ hid => absurd hid List.not_mem_nil⟩

theorem world (h : Added was known (w, g)) (hc : World.Changes (fun _ => True) w w')
    (hgrew : w.Grew w') : Added was known (w', g) :=
  ⟨hc.sound h.sound, h.steps.tail (.world hc hgrew), fun id hid => hgrew.alive id (h.known id hid)⟩

theorem record (h : Added was known (w, g)) (hadd : Addition (w, g) (w, g')) :
    Added was known (w, g') := ⟨h.sound, h.steps.tail hadd, h.known⟩

/-- What every addition keeps, building keeps. -/
theorem keep (kept : World α × Graph α → Prop) (h : Added was known now) (hwas : kept was)
    (hadd : ∀ s t, kept s → Addition s t → kept t) : kept now := by
  have hsteps := h.steps
  clear h
  induction hsteps with
  | refl => exact hwas
  | tail _ hlast ih => exact hadd _ _ ih hlast

end Added

variable {was : World α × Graph α} {known : List Nat}

theorem added_pin (p : Point α) : Keeps (Added was known) (inWorld (World.pin p)) := by
  intro state h
  obtain ⟨w, g⟩ := state
  exact h.world (World.changes_pin p w) (World.same_pin p w).grew

section
variable [Scalar α]

/-- A new point is alive, and none of those that the builder knew. -/
theorem added_addPoint (spot : Vec α) (mass : α) (fixed : Bool) :
    Meets (Added was known) (inWorld (World.addPoint spot mass fixed)) (Added was known)
      fun id s => Added was known s ∧ s.1.isAlive id ∧ id ∉ known := by
  intro state h
  obtain ⟨w, g⟩ := state
  obtain ⟨notes, he⟩ := World.addPoint_apply spot mass fixed w
  have hsame := World.same_roomy w
  have hroomy := h.world (World.changes_roomy w) hsame.grew
  simp only [inWorld_result, inWorld_state, he]
  split
  · exact ⟨fun _ _ => hroomy, fun _ hok => (by cases hok)⟩
  · rename_i hroom
    refine ⟨fun _ hstop => (by cases hstop), fun id hok => ?_⟩
    cases hok
    have hseat := World.grew_seat w.roomy (.atRest spot (World.massOf mass) fixed)
    refine ⟨hroomy.world (World.Change.changes (.seat _ trivial (Nat.lt_of_not_le hroom))) hseat,
      ?_, fun hid => Nat.lt_irrefl _ (World.isAlive_lt (h.known _ hid))⟩
    rw [← hsame.points]
    simp [World.isAlive, World.slot?_seat]

/-- A spring between points as the builder sees them, made if they are two and alive. -/
theorem added_addSpring {kept : World α × Graph α → Prop} {w : World α} {g : Graph α}
    (h : Added was known (w, g)) (a b : Nat) (stiffness : α) (rest : Option α) (damping : α) :
    Meets (· = (w, g))
      (inWorld (World.addSpring (some (w.point a)) (some (w.point b)) stiffness rest damping))
      kept fun made s => Added was known s ∧ s.2 = g ∧
        (∀ serial, made = some serial → s.1.pair? serial = some (min a b, max a b)) ∧
        (w.isAlive a → w.isAlive b → a ≠ b → made.isSome) := by
  refine .returns fun s hs => ?_
  subst hs
  obtain ⟨notes, he⟩ :=
    World.addSpring_apply (some (w.point a)) (some (w.point b)) stiffness rest damping w
  have hsees : ∀ c : Nat, ∀ p ∈ some (w.point c), w.Sees p := by
    intro c p hp
    cases hp
    exact fun _ => rfl
  have hchanges : World.Changes (fun _ => True) w _ :=
    World.changes_addSpring (hsees a) (hsees b) stiffness rest damping
  have hj := World.joinable?_point h.sound a b
  rw [inWorld_result, inWorld_state]
  rw [he] at hchanges ⊢
  cases hjoin : w.joinable? (some (w.point a)) (some (w.point b)) with
  | none =>
    refine ⟨none, rfl, h, rfl, fun serial hs => (by cases hs), fun ha hb hne => ?_⟩
    obtain ⟨p, hp⟩ := Option.isSome_iff_exists.mp ((h.sound.particle?_isSome a).trans ha)
    obtain ⟨q, hq⟩ := Option.isSome_iff_exists.mp ((h.sound.particle?_isSome b).trans hb)
    rw [hjoin, hp, hq, Option.bind_some, Option.bind_some, if_neg hne] at hj
    cases hj
  | some ends =>
    obtain ⟨p, hp, hq⟩ := Option.bind_eq_some_iff.mp (hj.symm.trans hjoin)
    obtain ⟨q, hq, hends⟩ := Option.bind_eq_some_iff.mp hq
    split at hends
    · cases hends
    · cases hends
      rw [hjoin] at hchanges
      have hgrew := World.grew_link w a b (World.stiffnessOf stiffness) damping
        (World.restLength p.position q.position rest)
      refine ⟨some w.links.size, rfl, h.world hchanges hgrew, rfl, ?_, fun _ _ _ => rfl⟩
      intro serial hs
      cases hs
      simp [World.pair?, World.bond?_link]

/-- A joint that a builder finds may be lost; one that it makes is alive. -/
theorem added_jointAt (cell : Cell) (spot : Vec α) (mass : α) (fixed : Bool) :
    Keeps (Added was known) (jointAt cell spot mass fixed) := by
  apply Meets.keeps
  refine Meets.each fun s h => ?_
  apply meets_jointAt_of
  case hnew =>
    intro _
    exact ((added_addPoint spot mass fixed).one h).weaken fun id t ht =>
      ht.1.record (.joint cell ht.2.1)
  case hlost => exact fun _ _ _ _ _ => h
  case hfound => exact fun _ _ _ => h
  case hpinned => exact fun id _ _ _ _ _ => (added_pin (s.1.point id)).meets.one h

theorem added_materialize (s : Segment α) (index : Option Int) :
    Keeps (Added was known) (materialize s index) := by
  apply keeps_materialize_of fun _ => Added was known
  case hforget => exact fun _ _ _ h => h
  case hjoint => exact fun _ cell spot mass => (added_jointAt cell spot mass s.isRoot).meets
  case hspring =>
    intro a b w g stiffness rest h
    exact (added_addSpring h a b stiffness rest _).weaken fun made t ht =>
      ⟨ht.1, fun serial i _ => ht.1.record (.strand _)⟩

theorem added_brace (a b : Segment α) : Keeps (Added was known) (brace a b) := by
  apply keeps_brace_of
  intro w g tipA tipB p q stiffness rest h hopen
  refine (added_addSpring h p q stiffness _ _).weaken fun made t ht => ?_
  obtain ⟨w', g'⟩ := t
  obtain ⟨hadded, hbody, hpair, _⟩ := ht
  subst hbody
  exact ⟨hadded, fun serial hmade => hadded.record (.brace (hpair serial hmade) hopen.free)⟩

theorem added_addBraces (segments : List (Segment α)) :
    Keeps (Added was known) (addBraces segments) := keeps_addBraces_of added_brace

/-- A fruit that hangs from a point known to be alive always gets its spring. -/
theorem added_hang {index : PointIndex α Nat} (hindex : ∀ place q,
    index.nearest place PointIndex.defaultHalf = some q → q.2 ∈ known) (f : Fruit α) :
    Keeps (Added was known) (hang index f) := by
  apply Meets.keeps
  refine Meets.each fun s h => ?_
  apply meets_hang_of fun joint point t =>
    joint ∈ known ∧ Added was known t ∧ t.1.isAlive point ∧ point ∉ known
  case hunhung => exact fun _ => h
  case hpoint =>
    intro q hq
    exact ((added_addPoint _ _ _).one h).weaken fun _ _ ht => ⟨hindex _ q hq, ht⟩
  case hspring =>
    intro joint point w g hseated
    obtain ⟨hjoint, hw, halive, hnew⟩ := hseated
    have hne : joint ≠ point := fun he => hnew (he ▸ hjoint)
    refine (added_addSpring hw joint point _ _ _).weaken fun made t ht => ?_
    obtain ⟨hadded, _, _, hmade⟩ := ht
    refine ⟨fun hnone => ?_, fun spring _ => hadded.record (.hanging _)⟩
    rw [hnone] at hmade
    cases hmade (hw.known joint hjoint) halive hne

theorem added_hangAll (fruits : List (Fruit α)) : Keeps (Added was []) (hangAll fruits) := by
  apply Meets.keeps
  refine Meets.each fun s h => ?_
  obtain ⟨w, g⟩ := s
  have hknown : Added was ((g.joints.map (·.2)).filter w.isAlive) (w, g) :=
    ⟨h.sound, h.steps, fun id hid => (List.mem_filter.mp hid).2⟩
  have hforget : ∀ t, Added was ((g.joints.map (·.2)).filter w.isAlive) t → Added was [] t :=
    fun t ht => ⟨ht.sound, ht.steps, fun _ hid => absurd hid List.not_mem_nil⟩
  apply meets_hangAll_of
  case hnone => exact fun _ => h
  case hstop => exact fun _ _ => h
  case hall =>
    intro _ index _ _ hindex
    have hnearest : ∀ place q, index.nearest place PointIndex.defaultHalf = some q →
        q.2 ∈ (g.joints.map (·.2)).filter w.isAlive := by
      intro place q hq
      obtain ⟨hjoint, hseen⟩ := joint_of_nearest hindex hq
      exact List.mem_filter.mpr ⟨hjoint, (h.sound.particle?_isSome q.2).symm.trans hseen⟩
    have hall : Keeps (Added was ((g.joints.map (·.2)).filter w.isAlive))
        (forEach fruits (hang index)) := .forEach fruits fun f _ => added_hang hnearest f
    exact ((hall.meets.stop hforget).one hknown).weaken fun _ => hforget

/-- A body that is built in a world, by whatever calls, also such that stop. Others may use the
world meanwhile, as long as they spare what is to be spared. -/
inductive Stands (spared : World α → Graph α → Prop) : World α → Graph α → Prop where
  | start {w : World α} (hw : w.Reached) (origin : Vec α) (scale : α) :
      Stands spared w (.new origin scale)
  | segment {w : World α} {g : Graph α} (h : Stands spared w g) (s : Segment α)
      (index : Option Int) : Stands spared (materialize s index (w, g)).state.1
        (materialize s index (w, g)).state.2
  | braces {w : World α} {g : Graph α} (h : Stands spared w g) (segments : List (Segment α)) :
      Stands spared (addBraces segments (w, g)).state.1 (addBraces segments (w, g)).state.2
  | fruits {w : World α} {g : Graph α} (h : Stands spared w g) (fruits : List (Fruit α)) :
      Stands spared (hangAll fruits (w, g)).state.1 (hangAll fruits (w, g)).state.2
  | release {w : World α} {g : Graph α} (h : Stands spared w g) :
      Stands spared (release (w, g)).state.1 (release (w, g)).state.2
  | step {w : World α} {g : Graph α} (h : Stands spared w g) (dt : α) :
      Stands spared (w.step dt) g
  | edit {w : World α} {g : Graph α} (h : Stands spared w g)
      (e : Edit α {p : Point α // w.Sees p} Spring)
      (hspared : spared (e.run Subtype.val id w).state g) :
      Stands spared (e.run Subtype.val id w).state g

/-- What holds at first, and what additions, releases, steps and sparing changes keep, holds
throughout. -/
theorem Stands.invariant {spared : World α → Graph α → Prop} {w : World α} {g : Graph α}
    (kept : World α × Graph α → Prop) (h : Stands spared w g)
    (hsound : ∀ s, kept s → s.1.Sound)
    (hstart : ∀ w origin scale, w.Reached → kept (w, .new origin scale))
    (hadd : ∀ s t, kept s → Addition s t → kept t)
    (hrelease : ∀ s, kept s → kept (Graph.release s).state)
    (hstep : ∀ w g dt, kept (w, g) → kept (w.step dt, g))
    (hedit : ∀ w w' g, kept (w, g) → World.Changes (fun _ => True) w w' → spared w' g →
      kept (w', g)) : kept (w, g) := by
  have hbuild : ∀ {ρ : Type} {x : Build α ρ}, (∀ was, Keeps (Added was []) x) →
      ∀ s, kept s → kept (x s).state := by
    intro ρ x hx s hs
    exact (hx s s (.start (hsound s hs))).keep kept hs hadd
  induction h with
  | start hw origin scale => exact hstart _ origin scale hw
  | segment _ s index ih => exact hbuild (fun _ => added_materialize s index) _ ih
  | braces _ segments ih => exact hbuild (fun _ => added_addBraces segments) _ ih
  | fruits _ fruits ih => exact hbuild (fun _ => added_hangAll fruits) _ ih
  | release _ ih => exact hrelease _ ih
  | step _ dt ih => exact hstep _ _ dt ih
  | edit _ e hspared ih =>
    refine hedit _ _ _ ih ?_ hspared
    exact World.changes_run (hsound _ ih) id Subtype.property e fun _ _ _ _ => trivial

end
end Graph
end Arboretum
