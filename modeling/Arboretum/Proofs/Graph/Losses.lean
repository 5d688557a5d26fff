import Arboretum.Proofs.Graph.Openings
import Arboretum.Proofs.Graph.Release
import Arboretum.Proofs.Quadtree.Accepted

/-!
Building where others have taken points of the body. Releasing and bracing pass over what is gone,
and fruits hang as long as one joint is left. A segment stops its builder where it has to read a
joint that is gone, and passes over it at its tip, unless the tip has to be fixed.
-/
namespace Arboretum

open Arboretum.Action

variable {α : Type}

namespace Graph

/-- A cell whose joint has been taken. -/
def Lost (w : World α) (g : Graph α) (cell : Cell) : Prop :=
  ∃ id, g.joint? cell = some id ∧ w.isAlive id = false

instance (w : World α) (g : Graph α) (cell : Cell) : Decidable (Lost w g cell) :=
  decidable_of_iff ((g.joint? cell).any fun id => !w.isAlive id)
    (by simp [Lost, Option.any_eq_true])

/-- Every joint of a body was once a point of its world. -/
structure Placed (s : World α × Graph α) : Prop where
  sound : s.1.Sound
  given : ∀ j ∈ s.2.joints, j.2 < s.1.slots.size

namespace Placed

variable {w w' : World α} {g : Graph α} {s t : World α × Graph α}

theorem world (h : Placed (w, g)) (hw : w'.Sound) (hpoints : w.slots.size ≤ w'.slots.size) :
    Placed (w', g) :=
  ⟨hw, fun j hj => Nat.lt_of_lt_of_le (h.given j hj) hpoints⟩

theorem addition (h : Placed s) (hadd : Addition s t) : Placed t := by
  cases hadd with
  | world hc hgrew => exact h.world (hc.sound h.sound) hgrew.points
  | joint cell halive =>
    refine ⟨h.sound, fun j hj => ?_⟩
    rcases List.mem_append.mp hj with hj | hj
    · exact h.given j hj
    · cases List.mem_singleton.mp hj
      exact World.isAlive_lt halive
  | strand | brace | hanging => exact ⟨h.sound, h.given⟩

theorem release (h : Placed s) : Placed (Graph.release s).state := by
  obtain ⟨_, hbody, hshed⟩ := release_shed h.sound s.2
  refine ⟨hshed.sound, fun j hj => ?_⟩
  rw [hbody] at hj
  cases hj

end Placed

variable {w : World α} {g : Graph α}

/-- What comes of asking for the joint of a cell that has not lost it. -/
structure Found (cell : Cell) (was : World α × Graph α) (id : Nat) (now : World α × Graph α) :
    Prop where
  ready : now.1.Ready
  alive : now.1.isAlive id
  joint : now.2.joint? cell = some id
  others : ∀ c, c ≠ cell → now.2.joint? c = was.2.joint? c
  points : ∀ i < was.1.slots.size, now.1.isAlive i = was.1.isAlive i

/-- Other cells have lost their joints just if they had before. -/
theorem Found.lost {cell c : Cell} {id : Nat} {was now : World α × Graph α}
    (h : Found cell was id now) (hwas : Placed was) (hc : c ≠ cell) :
    Lost now.1 now.2 c ↔ Lost was.1 was.2 c := by
  unfold Lost
  rw [h.others c hc]
  refine exists_congr fun i => and_congr_right fun hi => ?_
  rw [h.points i (hwas.given _ (mem_of_joint? hi))]

/-- A joint that is there already may be pinned on the way. -/
theorem Found.of_same {cell : Cell} {id : Nat} (hj : g.joint? cell = some id)
    (halive : w.isAlive id) {w' : World α} (hready : w'.Ready) (hsame : w.Same w') :
    Found cell (w, g) id (w', g) :=
  ⟨hready, (hsame.alive id).trans halive, hj, fun _ _ => rfl, fun i _ => hsame.alive i⟩

theorem alive_of_not_lost {cell : Cell} (h : ¬ Lost w g cell) {id : Nat}
    (hj : g.joint? cell = some id) : w.isAlive id :=
  Bool.of_not_eq_false fun hgone => h ⟨id, hj, hgone⟩

theorem meets_removal_returns (p : Option (Point α)) :
    Meets (fun _ : World α × Graph α => True) (inWorld (World.removePoint p)) (fun _ => False)
      fun _ _ => True := by
  refine .returns fun s _ => ?_
  rw [inWorld_result, World.removePoint_apply]
  split
  · exact ⟨_, rfl, trivial⟩
  · exact ⟨_, rfl, trivial⟩

section
variable [Scalar α]

theorem Stands.placed {spared : World α → Graph α → Prop} (h : Stands spared w g) :
    Placed (w, g) := by
  apply h.invariant Placed
  · exact fun _ hs => hs.sound
  · exact fun w origin scale hw => ⟨hw.sound, fun _ hj => absurd hj List.not_mem_nil⟩
  · exact fun _ _ hs hadd => hs.addition hadd
  · exact fun _ hs => hs.release
  · intro w g dt hs
    have hm := World.moved_step dt w
    exact hs.world (hm.sound hs.sound) (Nat.le_of_eq (congrArg Array.size hm.slots).symm)
  · intro w w' g hs hc _
    exact hs.world (hc.sound hs.sound) (hc.onward hs.sound).points

theorem Stands.sound {spared : World α → Graph α → Prop} (h : Stands spared w g) : w.Sound :=
  h.placed.sound

theorem meets_jointAt_found (hw : w.Ready) {cell : Cell} (hcell : ¬ Lost w g cell) (spot : Vec α)
    (mass : α) (fixed : Bool) :
    Meets (· = (w, g)) (jointAt cell spot mass fixed) (fun _ => False)
      fun id t => Found cell (w, g) id t := by
  apply meets_jointAt_of
  case hnew =>
    intro hj
    refine (meets_addPoint_ready hw spot mass fixed).weaken fun id t ht => ?_
    obtain ⟨hid, he⟩ := ht
    subst hid he
    have hsame := World.same_roomy w
    have hc : World.Changes (fun _ => True) w (w.roomy.seat _) :=
      .more (World.changes_roomy w) (.seat (.atRest spot (World.massOf mass) fixed) trivial
        (World.count_roomy_lt hw))
    refine ⟨hc.ready hw, ?_, ?_, fun c hc => ?_, fun i hi => ?_⟩
    · rw [← hsame.points]
      simp [World.isAlive, World.slot?_seat]
    · simp [joint?_append, hj]
    · simp [joint?_append, hc]
    · rw [← hsame.alive i]
      rw [← hsame.points] at hi
      simp [World.isAlive, World.slot?_seat, Nat.ne_of_lt hi]
  case hlost =>
    intro id e hj _ he
    obtain ⟨p, hread⟩ := hw.particle_of_alive (alive_of_not_lost hcell hj)
    cases hread.symm.trans he
  case hfound => exact fun id hj _ => .of_same hj (alive_of_not_lost hcell hj) hw (.refl w)
  case hpinned =>
    intro id _ hj _ _ _
    have halive := alive_of_not_lost hcell hj
    refine (meets_pin hw halive).weaken fun _ t ht => ?_
    obtain ⟨w', g'⟩ := t
    obtain ⟨hg, hready, hsame, _⟩ := ht
    cases hg
    exact .of_same hj halive hready hsame

/-- A joint that has to be fixed is read. -/
theorem jointAt_gone (hw : w.Sound) {cell : Cell} {id : Nat} (hj : g.joint? cell = some id)
    (hgone : w.isAlive id = false) (spot : Vec α) (mass : α) :
    jointAt cell spot mass true (w, g) = ⟨.error (.removedPoint id), (w, g), []⟩ := by
  simp [jointAt, reading, hj, hw.particle_of_gone hgone]

/-- A joint that need not be fixed is not even looked at. -/
theorem jointAt_loose {cell : Cell} {id : Nat} (hj : g.joint? cell = some id) (w : World α)
    (spot : Vec α) (mass : α) :
    jointAt cell spot mass false (w, g) = ⟨.ok id, (w, g), []⟩ := by
  simp [jointAt, reading, hj]

/-- Asking for a joint stops its builder just if the joint is lost and has to be fixed. -/
theorem meets_jointAt_lost (hw : w.Ready) (cell : Cell) (spot : Vec α) (mass : α) (fixed : Bool) :
    Meets (· = (w, g)) (jointAt cell spot mass fixed) (fun _ => Lost w g cell ∧ fixed = true)
      fun _ t => (Lost w g cell → fixed = false) ∧
        ∀ c, (g.joint? c).isSome → (t.2.joint? c).isSome := by
  by_cases hlost : Lost w g cell
  · obtain ⟨id, hj, hgone⟩ := hlost
    intro s hs
    subst hs
    cases fixed with
    | true =>
      rw [jointAt_gone hw.toSound hj hgone]
      exact ⟨fun _ _ => ⟨⟨id, hj, hgone⟩, rfl⟩, fun _ hok => by cases hok⟩
    | false =>
      rw [jointAt_loose hj]
      exact ⟨fun _ hstop => (by cases hstop), fun _ _ => ⟨fun _ => rfl, fun _ hc => hc⟩⟩
  · refine ((meets_jointAt_found hw hlost spot mass fixed).stop fun _ hf => hf.elim).weaken ?_
    intro id t ht
    refine ⟨fun hl => absurd hl hlost, fun c hc => ?_⟩
    by_cases he : c = cell
    · simp [he, ht.joint]
    · rwa [ht.others c he]

/-- No spring is made to a point that is gone. -/
theorem spring_gone (hw : w.Sound) {b : Nat} (hgone : w.isAlive b = false) (a : Nat)
    (stiffness : α) (rest : Option α) (damping : α) (g : Graph α) :
    inWorld (World.addSpring (some (w.point a)) (some (w.point b)) stiffness rest damping) (w, g) =
      ⟨.ok none, (w, g), [(.springWithoutEnd, (w, g))]⟩ := by
  have hseat : (w.point b).seat = none := by
    rw [World.point_seat, hw.particle?_of_gone hgone]
    rfl
  have hrun : World.addSpring (some (w.point a)) (some (w.point b)) stiffness rest damping w =
      ⟨.ok none, w, [(.springWithoutEnd, w)]⟩ := by
    unfold World.addSpring
    cases (w.point a).seat <;> simp [hseat]
  unfold inWorld onFst on
  rw [hrun]
  rfl

/-! ### Segments -/

section
variable {s : Segment α} {start tip : Cell} (hcells : s.cells = .ok (start, tip))
  (hne : start ≠ tip) {depth : α} (hdepth : Scalar.ofInt s.depth = .ok depth)
include hcells hne hdepth

/-- Whoever builds a segment asks its start where it is. -/
theorem materialize_gone (hw : w.Sound) {id : Nat} (hj : g.joint? start = some id)
    (hgone : w.isAlive id = false) (index : Option Int) :
    materialize s index (w, g) = ⟨.error (.removedPoint id), (w, g), []⟩ := by
  obtain ⟨hstart, htip⟩ := Segment.of_cells hcells
  unfold materialize
  simp only [hstart, htip, hdepth, ofExcept_ok, pure_bind, if_neg hne, reading, read_bind]
  cases s.isRoot with
  | true => rw [bind_error (jointAt_gone hw hj hgone _ _)]
  | false =>
    rw [bind_ok (jointAt_loose hj w _ _)]
    simp [hw.particle_of_gone hgone]

/-- A segment whose tip is gone and need not be fixed is passed over. -/
theorem materialize_passed (hw : w.Sound) (hjoint : (g.joint? start).isSome)
    (hfound : ¬ Lost w g start) (hlost : Lost w g tip) (hloose : s.isRoot = false)
    (index : Option Int) : materialize s index (w, g) = ⟨.ok none, (w, g),
      [(.springWithoutEnd, (w, g)), (.segmentUnlinked index, (w, g))]⟩ := by
  obtain ⟨hstart, htip⟩ := Segment.of_cells hcells
  obtain ⟨a, ha⟩ := Option.isSome_iff_exists.mp hjoint
  obtain ⟨b, hb, hgone⟩ := hlost
  obtain ⟨p, hread⟩ := hw.particle_of_alive (alive_of_not_lost hfound ha)
  unfold materialize
  simp only [hstart, htip, hdepth, ofExcept_ok, pure_bind, if_neg hne, hloose, reading, read_bind]
  rw [bind_ok (jointAt_loose ha w _ _)]
  simp only [read_bind, hread, ofExcept_ok, pure_bind]
  rw [bind_ok (jointAt_loose hb w _ _)]
  simp only [read_bind]
  rw [bind_ok (spring_gone hw hgone a _ _ _ g)]
  simp

/-- A segment whose start is not lost stops its builder just if its tip is lost and has to be
fixed. -/
theorem meets_materialize_found (h : Placed (w, g)) (hroom : 1 ≤ w.capacity)
    (hfound : ¬ Lost w g start) (index : Option Int) :
    Meets (· = (w, g)) (materialize s index) (fun _ => Lost w g tip ∧ s.isRoot = true)
      fun _ t => Lost w g tip → s.isRoot = false ∧ (t.2.joint? start).isSome := by
  apply meets_materialize_between hcells hne (fun a t => Found start (w, g) a t) fun _ _ t =>
    (Lost w g tip → s.isRoot = false) ∧ (t.2.joint? start).isSome
  case hdepth =>
    intro e he
    cases hdepth.symm.trans he
  case hstart =>
    intro spot mass
    exact (meets_jointAt_found ⟨h.sound, hroom⟩ hfound spot mass _).stop fun _ hf => hf.elim
  case hseen =>
    intro a t e ha he
    obtain ⟨p, hread⟩ := ha.ready.particle_of_alive ha.alive
    cases hread.symm.trans he
  case htip =>
    intro a spot mass
    refine Meets.each fun t ha => ?_
    obtain ⟨w₁, g₁⟩ := t
    -- a new joint at the start has a number of its own, so that no lost tip comes back by it
    have hlost : Lost w₁ g₁ tip ↔ Lost w g tip := ha.lost h hne.symm
    have htip := meets_jointAt_lost (g := g₁) ha.ready tip spot mass s.isRoot
    rw [hlost] at htip
    exact htip.weaken fun _ t ht => ⟨ht.1, ht.2 start (by simp [ha.joint])⟩
  case hspring =>
    intro a b w' g' stiffness hends
    have hspring := meets_spring_returns fun body : Graph α =>
      Lost w g tip → s.isRoot = false ∧ (body.joint? start).isSome
    have hstart : Lost w g tip → s.isRoot = false ∧ (g'.joint? start).isSome :=
      fun hgone => ⟨hends.1 hgone, hends.2⟩
    refine (((hspring _ _ _ _ _).one hstart).stop fun _ hf => hf.elim).weaken fun made t ht => ?_
    exact ⟨fun _ => ht, fun _ _ _ _ => ht⟩

theorem materialize_isOk_iff (h : Placed (w, g)) (index : Option Int) :
    (materialize s index (w, g)).result.isOk ↔
      1 ≤ w.capacity ∧ ¬ Lost w g start ∧ (Lost w g tip → s.isRoot = false) := by
  by_cases hlost : Lost w g start
  · obtain ⟨id, hj, hgone⟩ := hlost
    rw [materialize_gone hcells hne hdepth h.sound hj hgone]
    exact ⟨fun hok => (by cases hok), fun hfound => absurd ⟨id, hj, hgone⟩ hfound.2.1⟩
  by_cases hroom : 1 ≤ w.capacity
  · obtain ⟨hstop, hpost⟩ := meets_materialize_found hcells hne hdepth h hroom hlost index _ rfl
    cases hr : (materialize s index (w, g)).result with
    | error e =>
      obtain ⟨htip, hroot⟩ := hstop e hr
      refine ⟨fun hok => (by cases hok), fun hfound => ?_⟩
      cases hroot.symm.trans (hfound.2.2 htip)
    | ok made => exact ⟨fun _ => ⟨hroom, hlost, fun htip => (hpost made hr htip).1⟩, fun _ => rfl⟩
  · have hjoint : g.joint? start = none := by
      cases hj : g.joint? start with
      | none => rfl
      | some id => exact absurd (h.sound.capacity_pos (alive_of_not_lost hlost hj)) hroom
    have hnone : w.capacity = 0 := Nat.eq_zero_of_not_pos hroom
    obtain ⟨e, he, _⟩ := (meets_materialize_crowded hnone hcells hne hjoint index).stopped rfl
    rw [he]
    exact ⟨fun hok => (by cases hok), fun hfound => absurd hfound.1 hroom⟩

/-- A segment that has lost an end comes to nothing and changes nothing just if it finds its start
and nothing has to be fixed. -/
theorem materialize_unchanged_iff (h : Placed (w, g)) (hlost : Lost w g start ∨ Lost w g tip)
    (index : Option Int) :
    (materialize s index (w, g)).result.isOk ∧ (materialize s index (w, g)).state = (w, g) ↔
      (g.joint? start).isSome ∧ ¬ Lost w g start ∧ s.isRoot = false := by
  constructor
  · intro hquiet
    obtain ⟨hok, hsame⟩ := hquiet
    obtain ⟨hroom, hfound, hloose⟩ := (materialize_isOk_iff hcells hne hdepth h index).mp hok
    have htip := hlost.resolve_left hfound
    obtain ⟨_, hpost⟩ := meets_materialize_found hcells hne hdepth h hroom hfound index _ rfl
    cases hr : (materialize s index (w, g)).result with
    | error e =>
      rw [hr] at hok
      cases hok
    | ok made =>
      have hjoint := (hpost made hr htip).2
      rw [hsame] at hjoint
      exact ⟨hjoint, hfound, hloose htip⟩
  · intro hstart
    obtain ⟨hjoint, hfound, hloose⟩ := hstart
    have htip := hlost.resolve_left hfound
    rw [materialize_passed hcells hne hdepth h.sound hjoint hfound htip hloose index]
    exact ⟨rfl, rfl⟩

end

/-- What comes of a segment that can be read, where joints may be lost. -/
structure Borne (s : Segment α) (start tip : Cell) (index : Option Int) (w : World α)
    (g : Graph α) : Prop where
  within : start = tip → materialize s index (w, g) =
    ⟨.ok none, (w, g), [(.segmentCollapsed index start, (w, g))]⟩
  stopped : start ≠ tip → ∀ id, g.joint? start = some id → w.isAlive id = false →
    materialize s index (w, g) = ⟨.error (.removedPoint id), (w, g), []⟩
  returns : (materialize s index (w, g)).result.isOk ↔
    start = tip ∨ 1 ≤ w.capacity ∧ ¬ Lost w g start ∧ (Lost w g tip → s.isRoot = false)
  passed : (g.joint? start).isSome → ¬ Lost w g start → Lost w g tip → s.isRoot = false →
    materialize s index (w, g) = ⟨.ok none, (w, g),
      [(.springWithoutEnd, (w, g)), (.segmentUnlinked index, (w, g))]⟩
  unchanged : start ≠ tip → Lost w g start ∨ Lost w g tip →
    ((materialize s index (w, g)).result.isOk ∧ (materialize s index (w, g)).state = (w, g) ↔
      (g.joint? start).isSome ∧ ¬ Lost w g start ∧ s.isRoot = false)

theorem Placed.borne (h : Placed (w, g)) {s : Segment α} {start tip : Cell}
    (hcells : s.cells = .ok (start, tip)) (hdepth : (Scalar.ofInt s.depth : Except Fault α).isOk)
    (index : Option Int) : Borne s start tip index w g := by
  cases hd : (Scalar.ofInt s.depth : Except Fault α) with
  | error e =>
    rw [hd] at hdepth
    cases hdepth
  | ok depth =>
    by_cases hne : start = tip
    · subst tip
      have hrun : materialize s index (w, g) =
          ⟨.ok none, (w, g), [(.segmentCollapsed index start, (w, g))]⟩ := by
        rw [materialize_within hcells]
        rfl
      refine ⟨fun _ => hrun, fun hn => absurd rfl hn, ?_, ?_, fun hn => absurd rfl hn⟩
      · rw [hrun]
        exact ⟨fun _ => .inl rfl, fun _ => rfl⟩
      · exact fun _ hfound hlost => absurd hlost hfound
    · refine ⟨fun he => absurd he hne, ?_, ?_, ?_, ?_⟩
      · exact fun _ id hj hgone => materialize_gone hcells hne hd h.sound hj hgone index
      · rw [materialize_isOk_iff hcells hne hd h, or_iff_right hne]
      · intro hjoint hfound hlost hloose
        exact materialize_passed hcells hne hd h.sound hjoint hfound hlost hloose index
      · exact fun _ hlost => materialize_unchanged_iff hcells hne hd h hlost index

/-! ### Fruits -/

/-- In a world with room, every fruit is dealt with. -/
theorem meets_hang_ready (index : PointIndex α Nat) (f : Fruit α) :
    Meets (fun s => s.1.Ready) (hang index f) (fun _ => False) fun _ s => s.1.Ready := by
  have hreturns : Meets (fun s => s.1.Ready) (hang index f) (fun _ => False) fun _ _ => True := by
    refine Meets.each fun s hs => ?_
    apply meets_hang_of fun _ _ _ => True
    case hunhung => exact fun _ => trivial
    case hpoint =>
      exact fun _ _ => (meets_addPoint_ready hs _ _ _).weaken fun _ _ _ => trivial
    case hspring =>
      intro _ _ w g _
      refine ((meets_spring_returns (fun _ => True) _ _ _ _ _).one trivial).weaken fun _ t _ => ?_
      exact ⟨fun _ => (meets_removal_returns _).one trivial, fun _ _ => trivial⟩
  refine .returns fun s hs => ?_
  obtain ⟨made, hmade, _⟩ := hreturns.returned hs
  exact ⟨made, hmade, lasting_hang World.lasting_ready index f s hs⟩

/-- There is no box around joints that are all gone. -/
theorem hangAll_gone (hw : w.Sound) {fruits : List (Fruit α)} (hfruits : fruits ≠ [])
    (hjoints : g.joints ≠ []) (hgone : ∀ j ∈ g.joints, w.isAlive j.2 = false) :
    hangAll fruits (w, g) = ⟨.error .noPoints, (w, g), []⟩ := by
  have hanchors : anchors w g = [] := by
    apply List.filterMap_eq_nil_iff.mpr
    intro j hj
    rw [hw.particle?_of_gone (hgone j hj)]
    rfl
  simp [hangAll, reading, hfruits, hjoints, hanchors, Box.around]

/-- Few joints, one of them alive, are enough to hang fruits from. -/
theorem hangAll_returns (hw : w.Sound) (hjoints : ∃ j ∈ g.joints, w.isAlive j.2)
    (hfew : (anchors w g).length ≤ PointIndex.defaultCapacity * (Quadtree.maxNesting + 1))
    (fruits : List (Fruit α)) : (hangAll fruits (w, g)).result.isOk := by
  obtain ⟨j, hj, halive⟩ := hjoints
  obtain ⟨box, hbox⟩ := Box.around_of_ne_nil (1 : α)
    (mt List.map_eq_nil_iff.mp (anchors_ne_nil hw hj halive))
  have hempty := PointIndex.holds_empty (β := Nat) box PointIndex.defaultCapacity
  obtain ⟨index, hindex⟩ := hempty.insertAll (by decide) (anchors w g) (by simpa using hfew)
  have hmeets : Meets (· = (w, g)) (hangAll fruits) (fun _ => False) fun _ _ => True := by
    apply meets_hangAll_of
    case hnone => exact fun _ => trivial
    case hstop =>
      intro e he
      rw [hbox] at he
      cases hindex.symm.trans he
    case hall =>
      intro box' index' _ hbox' hindex'
      have hall : Meets (fun s => s.1.Ready) (forEach fruits (hang index')) (fun _ => False)
          fun _ s => s.1.Ready := .forEach_mem fun f _ => meets_hang_ready index' f
      exact (hall.one ⟨hw, hw.capacity_pos halive⟩).weaken fun _ _ _ => trivial
  obtain ⟨hangings, hrun, _⟩ := hmeets.returned rfl
  rw [hrun]
  rfl

theorem hangAll_bare {fruits : List (Fruit α)} (hfruits : fruits ≠ []) (hjoints : g.joints = [])
    (w : World α) : hangAll fruits (w, g) =
      ⟨.ok [], (w, g), [(.nothingToHangFrom fruits.length, (w, g))]⟩ := by
  unfold hangAll
  rw [if_neg (by simpa using hfruits), reading, read_bind]
  simp only [hjoints, List.isEmpty_nil, if_true]
  rfl

/-- What comes of hanging fruits from joints that may be gone. -/
structure Hung (fruits : List (Fruit α)) (w : World α) (g : Graph α) : Prop where
  bare : fruits ≠ [] → g.joints = [] → hangAll fruits (w, g) =
    ⟨.ok [], (w, g), [(.nothingToHangFrom fruits.length, (w, g))]⟩
  stopped : fruits ≠ [] → g.joints ≠ [] → (∀ j ∈ g.joints, w.isAlive j.2 = false) →
    hangAll fruits (w, g) = ⟨.error .noPoints, (w, g), []⟩
  returns : (hangAll fruits (w, g)).result.isOk ↔
    fruits = [] ∨ g.joints = [] ∨ ∃ j ∈ g.joints, w.isAlive j.2

theorem Placed.hung (h : Placed (w, g))
    (hfew : (anchors w g).length ≤ PointIndex.defaultCapacity * (Quadtree.maxNesting + 1))
    (fruits : List (Fruit α)) : Hung fruits w g := by
  refine ⟨fun hf hj => hangAll_bare hf hj w, fun hf hj hgone => hangAll_gone h.sound hf hj hgone,
    fun hok => ?_, fun hor => ?_⟩
  · by_contra hnot
    simp only [not_or, not_exists, not_and, Bool.not_eq_true] at hnot
    rw [hangAll_gone h.sound hnot.1 hnot.2.1 hnot.2.2] at hok
    cases hok
  · by_cases hf : fruits = []
    · subst fruits
      rfl
    by_cases hj : g.joints = []
    · rw [hangAll_bare hf hj w]
      rfl
    · exact hangAll_returns h.sound ((hor.resolve_left hf).resolve_left hj) hfew fruits

/-- Anyone may take a point. -/
theorem Stands.taken (h : Stands (fun _ _ => True) w g) (id : Nat) :
    Stands (fun _ _ => True) (World.removePoint (some (w.point id)) w).state g := by
  have hedit := h.edit (.removePoint (some ⟨w.point id, fun _ => rfl⟩)) trivial
  rw [Edit.run, Action.map_apply] at hedit
  exact hedit

/-- Whatever points of a body others have taken: releasing it succeeds, and so does bracing it for
segments that can be read. A segment is borne or stops its builder, and fruits find their joints or
stop it, by what is lost of the body. -/
theorem losses_borne (h : Stands (fun _ _ => True) w g) :
    (release (w, g)).result = .ok () ∧
      (∀ segments, Legible segments → (addBraces segments (w, g)).result.isOk) ∧
      (∀ (s : Segment α) start tip index, s.cells = .ok (start, tip) →
        (Scalar.ofInt s.depth : Except Fault α).isOk → Borne s start tip index w g) ∧
      ∀ fruits,
        (anchors w g).length ≤ PointIndex.defaultCapacity * (Quadtree.maxNesting + 1) →
        Hung fruits w g := by
  have hplaced := h.placed
  refine ⟨(release_shed hplaced.sound g).1, fun segments hlegible => ?_, ?_, ?_⟩
  · obtain ⟨made, hmade, _⟩ := (meets_addBraces_returns hlegible).returned (s := (w, g)) trivial
    rw [hmade]
    rfl
  · exact fun s start tip index hcells hdepth => hplaced.borne hcells hdepth index
  · exact fun fruits hfew => hplaced.hung hfew fruits

end

/-- The world of a stem, when another has taken its tip. -/
def felled : World Float := (World.removePoint (some (stemmed.1.point 1)) stemmed.1).state

/-- And when its foot is taken as well. -/
def uprooted : World Float := (World.removePoint (some (felled.point 0)) felled).state

/-- A segment over the stem that need not be fixed. -/
def regrowth : Segment Float := ⟨⟨0, 0⟩, ⟨0, -10.0⟩, 1, 0.5, 0, [], false⟩

/-- A segment from elsewhere to the tip of the stem. -/
def stay : Segment Float := ⟨⟨5.0, 0⟩, ⟨0, -10.0⟩, 1, 0.5, 0, [], false⟩

def apple : Fruit Float := ⟨⟨0, -10.0⟩, 2.0, [], 0⟩

theorem stands_stemmed : Stands (fun _ _ => True) stemmed.1 stemmed.2 := by
  have hplot : Stands (fun _ _ => True) plot (.new ⟨0, 0⟩ 2.0) :=
    .start (.new 0 Setting.default 1) ⟨0, 0⟩ 2.0
  unfold stemmed
  exact hplot.segment stem (some 0)

theorem stands_felled : Stands (fun _ _ => True) felled stemmed.2 := by
  unfold felled
  exact stands_stemmed.taken 1

/-- Where the tip of the stem is gone, a segment to it is passed over, and fruits still hang. -/
theorem losses_borne_felled : Stands (fun _ _ => True) felled stemmed.2 ∧
    Lost felled stemmed.2 ⟨0, -1000⟩ ∧ (release (felled, stemmed.2)).result = .ok () ∧
    materialize regrowth none (felled, stemmed.2) = ⟨.ok none, (felled, stemmed.2),
      [(.springWithoutEnd, (felled, stemmed.2)), (.segmentUnlinked none, (felled, stemmed.2))]⟩ ∧
    (hangAll [apple] (felled, stemmed.2)).result.isOk := by
  have hfoot : (stemmed.2.joint? ⟨0, 0⟩).isSome ∧ ¬ Lost felled stemmed.2 ⟨0, 0⟩ := by
    decide +kernel
  have htip : Lost felled stemmed.2 ⟨0, -1000⟩ := by decide +kernel
  obtain ⟨hrelease, _, hsegments, hfruits⟩ := losses_borne stands_felled
  have hborne := hsegments regrowth ⟨0, 0⟩ ⟨0, -1000⟩ none (by rfl) (by rfl)
  have hhung := hfruits [apple] (by decide +kernel)
  refine ⟨stands_felled, htip, hrelease, hborne.passed hfoot.1 hfoot.2 htip rfl, ?_⟩
  exact hhung.returns.mpr (.inr (.inr (by decide +kernel)))

/-- A branch from the lost tip stops its builder, a stay to it leaves a point behind, and fruits
stop their builder when the foot is gone as well. -/
theorem losses_stop : Stands (fun _ _ => True) felled stemmed.2 ∧
    (materialize branch none (felled, stemmed.2)).result = .error (.removedPoint 1) ∧
    (materialize stay none (felled, stemmed.2)).result = .ok none ∧
    (materialize stay none (felled, stemmed.2)).state.1.count = felled.count + 1 ∧
    Stands (fun _ _ => True) uprooted stemmed.2 ∧
    (hangAll [apple] (uprooted, stemmed.2)).result = .error .noPoints := by
  have huprooted : Stands (fun _ _ => True) uprooted stemmed.2 := by
    unfold uprooted
    exact stands_felled.taken 0
  have hsound : uprooted.Sound := huprooted.sound
  have hjoints : stemmed.2.joints ≠ [] := by decide +kernel
  have hgone : ∀ j ∈ stemmed.2.joints, uprooted.isAlive j.2 = false := by decide +kernel
  refine ⟨stands_felled, by decide +kernel, by decide +kernel, by decide +kernel, huprooted, ?_⟩
  rw [hangAll_gone hsound (List.cons_ne_nil apple []) hjoints hgone]

end Graph
end Arboretum
