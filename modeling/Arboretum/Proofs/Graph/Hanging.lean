import Arboretum.Proofs.Graph.Lasting
import Arboretum.Proofs.Graph.Strands
import Arboretum.Proofs.Lawful
import Arboretum.Proofs.Quadtree.Nearest
import Arboretum.Proofs.World.Pinned

/-!
Fruits, in exact arithmetic. Each one hangs from a joint that is nearest to its place, on a point of
its own, and nothing else is changed. No fruit is left out, unless more joints lie so close together
that no index can hold them.
-/
namespace Arboretum

open Arboretum.Action

namespace Graph

/-- A joint of a body, alive, that no other one is nearer to a place than. -/
def NearestJoint (w : World ℝ) (g : Graph ℝ) (place : Vec ℝ) (id : Nat) : Prop :=
  id ∈ g.joints.map (·.2) ∧ ∃ p, w.particle? id = some p ∧
    ∀ j ∈ g.joints, ∀ q, w.particle? j.2 = some q →
      place.distance p.position ≤ place.distance q.position

/-- Where the joints are as they were, the nearest are those that were. -/
theorem NearestJoint.of_same {w w' : World ℝ} {g g' : Graph ℝ} {place : Vec ℝ} {id : Nat}
    (h : NearestJoint w' g' place id) (hjoints : g'.joints = g.joints)
    (hsame : ∀ j ∈ g.joints, w'.particle? j.2 = w.particle? j.2) : NearestJoint w g place id := by
  obtain ⟨hid, p, hp, hleast⟩ := h
  rw [hjoints] at hid hleast
  obtain ⟨j, hj, rfl⟩ := List.mem_map.mp hid
  exact ⟨hid, p, hsame j hj ▸ hp, fun i hi q hq => hleast i hi q ((hsame i hi).trans hq)⟩

/-- A fruit on a free point of its own at its place, held by a spring to a joint that was nearest to
it. -/
structure HangsNearest (was : World ℝ × Graph ℝ) (now : World ℝ) (f : Fruit ℝ) (h : Hanging ℝ) :
    Prop where
  fruit : h.fruit = f
  point : now.particle? h.point = some (.atRest (was.2.toWorld f.position) fruitMass false)
  spring : ∃ bond, now.bond? h.spring = some bond ∧ bond.b = h.point ∧
    NearestJoint was.1 was.2 (was.2.toWorld f.position) bond.a

/-- A fruit keeps hanging where its point and its spring are kept. -/
theorem HangsNearest.kept {was : World ℝ × Graph ℝ} {mid now : World ℝ} {f : Fruit ℝ}
    {h : Hanging ℝ} (hf : HangsNearest was mid f h) (hmid : mid.Sound)
    (hpoints : ∀ id < mid.slots.size, now.particle? id = mid.particle? id)
    (hsprings : ∀ serial < mid.links.size, now.bond? serial = mid.bond? serial) :
    HangsNearest was now f h := by
  obtain ⟨bond, hbond, hends⟩ := hf.spring
  have halive : mid.isAlive h.point := by
    rw [← hmid.particle?_isSome, hf.point]
    rfl
  exact ⟨hf.fruit, (hpoints h.point (World.isAlive_lt halive)).trans hf.point, bond,
    (hsprings h.spring (World.bond?_lt hbond)).trans hbond, hends⟩

/-- A fruit that is hung later hangs from a joint that was nearest to it before. -/
theorem HangsNearest.earlier {was mid : World ℝ × Graph ℝ} {now : World ℝ} {f : Fruit ℝ}
    {h : Hanging ℝ} (hf : HangsNearest mid now f h) {hangings : List (Hanging ℝ)}
    (hbody : mid.2 = { was.2 with hangings := hangings })
    (hsame : ∀ j ∈ was.2.joints, mid.1.particle? j.2 = was.1.particle? j.2) :
    HangsNearest was now f h := by
  have hplace : mid.2.toWorld f.position = was.2.toWorld f.position := by
    rw [hbody]
    rfl
  obtain ⟨bond, hbond, hb, hnearest⟩ := hf.spring
  refine ⟨hf.fruit, hplace ▸ hf.point, bond, hbond, hb, ?_⟩
  exact hplace ▸ hnearest.of_same (by rw [hbody]) hsame

/-- What comes of hanging fruits: one point and one spring for each, in their order, and nothing
else. -/
structure Hangs (fruits : List (Fruit ℝ)) (was : World ℝ × Graph ℝ) (hangings : List (Hanging ℝ))
    (now : World ℝ × Graph ℝ) : Prop where
  ready : now.1.Ready
  nearest : List.Forall₂ (HangsNearest was now.1) fruits hangings
  points : hangings.map (·.point) = List.range' was.1.slots.size fruits.length
  springs : hangings.map (·.spring) = List.range' was.1.links.size fruits.length
  pointsMade : now.1.slots.size = was.1.slots.size + fruits.length
  springsMade : now.1.links.size = was.1.links.size + fruits.length
  pointsKept : ∀ id < was.1.slots.size, now.1.particle? id = was.1.particle? id
  springsKept : ∀ serial < was.1.links.size, now.1.bond? serial = was.1.bond? serial
  body : now.2 = { was.2 with hangings := was.2.hangings ++ hangings }

namespace Hangs

variable {was mid now : World ℝ × Graph ℝ} {fruits fruits' : List (Fruit ℝ)}
  {hangings hangings' : List (Hanging ℝ)}

theorem none (hw : was.1.Ready) : Hangs [] was [] was where
  ready := hw
  nearest := .nil
  points := rfl
  springs := rfl
  pointsMade := rfl
  springsMade := rfl
  pointsKept _ _ := rfl
  springsKept _ _ := rfl
  body := by rw [List.append_nil]

/-- The joints of a body are where they were. -/
theorem joints_kept (h : Hangs fruits was hangings now)
    (halive : ∀ j ∈ was.2.joints, was.1.isAlive j.2) :
    ∀ j ∈ was.2.joints, now.1.particle? j.2 = was.1.particle? j.2 :=
  fun j hj => h.pointsKept j.2 (World.isAlive_lt (halive j hj))

theorem joints_alive (h : Hangs fruits was hangings now) (hw : was.1.Sound)
    (halive : ∀ j ∈ was.2.joints, was.1.isAlive j.2) :
    ∀ j ∈ now.2.joints, now.1.isAlive j.2 := by
  intro j hj
  rw [h.body] at hj
  rw [← h.ready.particle?_isSome, h.joints_kept halive j hj, hw.particle?_isSome]
  exact halive j hj

/-- Fruits that are hung later leave those that hang as they are. -/
theorem append (h : Hangs fruits was hangings mid)
    (halive : ∀ j ∈ was.2.joints, was.1.isAlive j.2) (h' : Hangs fruits' mid hangings' now) :
    Hangs (fruits ++ fruits') was (hangings ++ hangings') now where
  ready := h'.ready
  nearest := by
    have hsame := h.joints_kept halive
    have hfirst := h.nearest.imp fun _ _ hf => hf.kept h.ready.toSound h'.pointsKept h'.springsKept
    exact List.rel_append hfirst (h'.nearest.imp fun _ _ hf => hf.earlier h.body hsame)
  points := by
    rw [List.map_append, h.points, h'.points, h.pointsMade, List.length_append,
      List.range'_append_1]
  springs := by
    rw [List.map_append, h.springs, h'.springs, h.springsMade, List.length_append,
      List.range'_append_1]
  pointsMade := by
    rw [h'.pointsMade, h.pointsMade, List.length_append, Nat.add_assoc]
  springsMade := by
    rw [h'.springsMade, h.springsMade, List.length_append, Nat.add_assoc]
  pointsKept id hid := by
    have hmid : id < mid.1.slots.size := h.pointsMade ▸ Nat.lt_add_right _ hid
    rw [h'.pointsKept id hmid, h.pointsKept id hid]
  springsKept serial hserial := by
    have hmid : serial < mid.1.links.size := h.springsMade ▸ Nat.lt_add_right _ hserial
    rw [h'.springsKept serial hmid, h.springsKept serial hserial]
  body := by
    rw [h'.body, h.body, List.append_assoc]

end Hangs

/-- An index that finds a nearest joint from everywhere. -/
def Guides (w : World ℝ) (g : Graph ℝ) (index : PointIndex ℝ Nat) : Prop :=
  ∀ place, ∃ q, index.nearest place PointIndex.defaultHalf = some q ∧ NearestJoint w g place q.2

variable {w : World ℝ} {g : Graph ℝ}

/-- An index of the joints of a body guides to them. -/
theorem guides_of_insertAll (hanchors : anchors w g ≠ []) {box : Box ℝ} {index : PointIndex ℝ Nat}
    (hbox : Box.around 1 ((anchors w g).map (·.1)) = .ok box)
    (hindex : (PointIndex.empty box PointIndex.defaultCapacity).insertAll (anchors w g) =
      .ok index) : Guides w g index := by
  intro place
  obtain ⟨q, hq, hmem, hleast⟩ := PointIndex.nearest_around hanchors hbox hindex place
  obtain ⟨j, hj, p, hp, rfl⟩ := mem_anchors.mp hmem
  refine ⟨_, hq, List.mem_map_of_mem hj, p, hp, fun i hi r hr => ?_⟩
  exact hleast (r.position, i.2) (mem_anchors.mpr ⟨i, hi, r, hr, rfl⟩)

/-- An index guides to the joints also while fruits are hung from them. -/
theorem Guides.later {t : World ℝ × Graph ℝ} {fruits : List (Fruit ℝ)}
    {hangings : List (Hanging ℝ)} {index : PointIndex ℝ Nat} (h : Guides w g index)
    (halive : ∀ j ∈ g.joints, w.isAlive j.2) (ht : Hangs fruits (w, g) hangings t) :
    Guides t.1 t.2 index := by
  intro place
  obtain ⟨q, hq, hnearest⟩ := h place
  have hjoints : t.2.joints = g.joints := by rw [ht.body]
  refine ⟨q, hq, hnearest.of_same hjoints.symm fun j hj => ?_⟩
  exact (ht.joints_kept halive j (hjoints ▸ hj)).symm

/-- A world in which a fruit has got its point. -/
structure Seated (spot : Vec ℝ) (w w' : World ℝ) : Prop where
  ready : w'.Ready
  points : w'.slots.size = w.slots.size + 1
  springs : w'.links.size = w.links.size
  particle : ∀ id, w'.particle? id =
    if id = w.slots.size then some (.atRest spot fruitMass false) else w.particle? id
  bond : ∀ serial, w'.bond? serial = w.bond? serial

theorem meets_addPoint_seated (hw : w.Ready) (spot : Vec ℝ) :
    Meets (· = (w, g)) (inWorld (World.addPoint spot fruitMass false)) (fun _ => False)
      fun id t => id = w.slots.size ∧ Seated spot w t.1 ∧ t.2 = g := by
  refine (meets_addPoint_ready hw spot fruitMass false).weaken fun id t ht => ?_
  obtain ⟨rfl, rfl⟩ := ht
  have hmass : World.massOf (fruitMass : ℝ) = fruitMass := by norm_num [World.massOf, fruitMass]
  rw [hmass]
  have hsame := World.same_roomy w
  have hc : World.Changes (fun _ => True) w (w.roomy.seat _) :=
    .more (World.changes_roomy w) (.seat (.atRest spot fruitMass false) trivial
      (World.count_roomy_lt hw))
  refine ⟨rfl, ⟨hc.ready hw, ?_, hsame.springs, World.particle?_added hw _, hsame.bonds⟩, rfl⟩
  rw [← hsame.points]
  exact Array.size_push _

/-- A joint alive and the point of a fruit can be joined. -/
theorem Seated.ends {spot : Vec ℝ} {w' : World ℝ} (h : Seated spot w w') (hw : w.Sound) {id : Nat}
    (hid : w.isAlive id) :
    w'.isAlive id ∧ w'.isAlive w.slots.size ∧ id ≠ w.slots.size := by
  have hne := Nat.ne_of_lt (World.isAlive_lt hid)
  refine ⟨?_, ?_, hne⟩
  · rw [← h.ready.particle?_isSome, h.particle, if_neg hne, hw.particle?_isSome, hid]
  · rw [← h.ready.particle?_isSome, h.particle, if_pos rfl]
    rfl

/-- A spring between a nearest joint and the point of a fruit makes the fruit hang. -/
theorem Seated.hangs {f : Fruit ℝ} {w' : World ℝ} (h : Seated (g.toWorld f.position) w w')
    (hw : w.Sound) {id : Nat} (hid : w.isAlive id)
    (hnearest : NearestJoint w g (g.toWorld f.position) id) (stiffness damping rest : ℝ) :
    Hangs [f] (w, g) [⟨f, w.slots.size, w'.links.size⟩]
      (w'.link id w.slots.size stiffness damping rest,
        { g with hangings := g.hangings ++ [⟨f, w.slots.size, w'.links.size⟩] }) where
  ready := by
    obtain ⟨hjoint, hpoint, hne⟩ := h.ends hw hid
    have hc : World.Changes (fun _ => True) w' _ :=
      (World.Change.link id w.slots.size hne hjoint hpoint stiffness damping rest).changes
    exact hc.ready h.ready
  nearest := by
    have hpoint := (h.particle w.slots.size).trans (if_pos rfl)
    have hbond := World.bond?_link w' id w.slots.size stiffness damping rest w'.links.size
    rw [if_pos rfl] at hbond
    exact .cons ⟨rfl, hpoint, _, hbond, rfl, hnearest⟩ .nil
  points := rfl
  springs := congrArg (fun size => [size]) h.springs
  pointsMade := h.points
  springsMade := (Array.size_push _).trans (congrArg Nat.succ h.springs)
  pointsKept x hx := (h.particle x).trans (if_neg (Nat.ne_of_lt hx))
  springsKept serial hserial := by
    rw [World.bond?_link, if_neg (Nat.ne_of_lt (h.springs ▸ hserial)), h.bond]
  body := rfl

/-- A fruit hangs from the joint that its index guides it to. -/
theorem meets_hang_nearest (hw : w.Ready) (halive : ∀ j ∈ g.joints, w.isAlive j.2)
    {index : PointIndex ℝ Nat} (hguides : Guides w g index) (f : Fruit ℝ) :
    Meets (· = (w, g)) (hang index f) (fun _ => False)
      fun made t => ∃ h, made = some h ∧ Hangs [f] (w, g) [h] t := by
  obtain ⟨q, hq, hnearest⟩ := hguides (g.toWorld f.position)
  have hid : w.isAlive q.2 := by
    obtain ⟨j, hj, hid⟩ := List.mem_map.mp hnearest.1
    exact hid ▸ halive j hj
  apply meets_hang_of fun joint point t => joint = q.2 ∧ point = w.slots.size ∧
    Seated (g.toWorld f.position) w t.1 ∧ t.2 = g
  case hunhung =>
    intro hnone
    cases hnone.symm.trans hq
  case hpoint =>
    intro q' hq'
    cases hq'.symm.trans hq
    exact (meets_addPoint_seated hw _).weaken fun _ _ ht => ⟨rfl, ht⟩
  case hspring =>
    intro joint point w' g' hseated
    obtain ⟨rfl, rfl, hseated, rfl⟩ := hseated
    obtain ⟨hjoint, hpoint, hne⟩ := hseated.ends hw.toSound hid
    refine (meets_join hseated.ready.toSound hjoint hpoint hne _ _ _).weaken fun made t ht => ?_
    obtain ⟨rfl, held, -, rfl⟩ := ht
    refine ⟨fun hnone => by simp at hnone, fun spring hspring => ?_⟩
    cases hspring
    exact ⟨_, rfl, hseated.hangs hw.toSound hid hnearest _ _ held⟩

/-- All fruits hang from the joints that their index guides them to. -/
theorem meets_hang_each (hw : w.Ready) (halive : ∀ j ∈ g.joints, w.isAlive j.2)
    {index : PointIndex ℝ Nat} (hguides : Guides w g index) (fruits : List (Fruit ℝ)) :
    Meets (· = (w, g)) (forEach fruits (hang index)) (fun _ => False)
      fun made t => Hangs fruits (w, g) (made.filterMap id) t := by
  induction fruits generalizing w g with
  | nil =>
    refine .pure fun t ht => ?_
    subst ht
    exact .none hw
  | cons f fruits ih =>
    refine (meets_hang_nearest hw halive hguides f).bind fun made => Meets.each fun t ht => ?_
    obtain ⟨h, rfl, hfirst⟩ := ht
    have hrest := ih hfirst.ready (hfirst.joints_alive hw.toSound halive)
      (hguides.later halive hfirst)
    exact hrest.bind fun _ => .pure fun _ ht => hfirst.append halive ht

/-- Where an index holds the joints, all fruits hang. -/
theorem meets_hangAll_indexed (hw : w.Ready) (halive : ∀ j ∈ g.joints, w.isAlive j.2)
    (hjoints : g.joints ≠ []) {box : Box ℝ} {index : PointIndex ℝ Nat}
    (hbox : Box.around 1 ((anchors w g).map (·.1)) = .ok box)
    (hindex : (PointIndex.empty box PointIndex.defaultCapacity).insertAll (anchors w g) =
      .ok index) (hguides : Guides w g index) (fruits : List (Fruit ℝ)) :
    Meets (· = (w, g)) (hangAll fruits) (fun _ => False)
      fun hangings t => Hangs fruits (w, g) hangings t := by
  apply meets_hangAll_of
  case hnone =>
    intro hnone
    rcases hnone with rfl | hnone
    · exact .none hw
    · exact absurd hnone hjoints
  case hstop =>
    intro e he
    rw [hbox] at he
    cases hindex.symm.trans he
  case hall =>
    intro box' index' _ hbox' hindex'
    cases hbox.symm.trans hbox'
    cases hindex.symm.trans hindex'
    exact meets_hang_each hw halive hguides fruits

/-- Where no index holds the joints, no fruit is hung. -/
theorem hangAll_stopped {fruits : List (Fruit ℝ)} (hfruits : fruits ≠ []) (hjoints : g.joints ≠ [])
    {box : Box ℝ} (hbox : Box.around 1 ((anchors w g).map (·.1)) = .ok box) {e : Fault}
    (hindex : (PointIndex.empty box PointIndex.defaultCapacity).insertAll (anchors w g) =
      .error e) : hangAll fruits (w, g) = ⟨.error e, (w, g), []⟩ := by
  simp [hangAll, reading, hfruits, hjoints, hbox, hindex]

/-- Every fruit hangs from a nearest joint, unless there are more joints than an index is sure to
hold and it gives up on them. -/
theorem hangs_nearest (hw : w.Sound) (hjoints : g.joints ≠ [])
    (halive : ∀ j ∈ g.joints, w.isAlive j.2) (fruits : List (Fruit ℝ)) :
    (∃ hangings, (hangAll fruits (w, g)).result = .ok hangings ∧
      Hangs fruits (w, g) hangings (hangAll fruits (w, g)).state) ∨
    hangAll fruits (w, g) = ⟨.error .tooDeep, (w, g), []⟩ ∧ fruits ≠ [] ∧
      PointIndex.defaultCapacity * (Quadtree.maxNesting + 1) < g.joints.length := by
  obtain ⟨j, hj⟩ := List.exists_mem_of_ne_nil g.joints hjoints
  have hready : w.Ready := ⟨hw, hw.capacity_pos (halive j hj)⟩
  by_cases hfruits : fruits = []
  · subst fruits
    exact .inl ⟨[], rfl, .none hready⟩
  have hanchors := anchors_ne_nil hw hj (halive j hj)
  obtain ⟨box, hbox⟩ : ∃ box, Box.around 1 ((anchors w g).map (·.1)) = .ok box :=
    Box.around_of_ne_nil 1 (mt List.map_eq_nil_iff.mp hanchors)
  cases hindex : (PointIndex.empty box PointIndex.defaultCapacity).insertAll (anchors w g) with
  | error e =>
    cases PointIndex.tooDeep_of_insertAll _ hindex
    refine .inr ⟨hangAll_stopped hfruits hjoints hbox hindex, hfruits, ?_⟩
    by_contra hfew
    have hlength : (anchors w g).length ≤ g.joints.length := List.length_filterMap_le _ _
    have hempty := PointIndex.holds_empty (β := Nat) box PointIndex.defaultCapacity
    obtain ⟨index, hok⟩ := hempty.insertAll (by decide) (anchors w g) (by
      rw [List.length_nil, Nat.zero_add]
      exact hlength.trans (Nat.le_of_not_lt hfew))
    cases hindex.symm.trans hok
  | ok index =>
    have hguides := guides_of_insertAll hanchors hbox hindex
    have hall := meets_hangAll_indexed hready halive hjoints hbox hindex hguides fruits
    exact .inl (hall.returned rfl)

/-! ### Joints in one place -/

/-- From too many joints in one place no fruit is hung. -/
theorem hangAll_crowded {fruits : List (Fruit ℝ)} (hfruits : fruits ≠ []) {spot : Vec ℝ}
    (hspot : ∀ j ∈ g.joints, ∃ p, w.particle? j.2 = some p ∧ p.position = spot)
    (hmany : PointIndex.defaultCapacity * (Quadtree.maxNesting + 1) < g.joints.length) :
    hangAll fruits (w, g) = ⟨.error .tooDeep, (w, g), []⟩ := by
  have hjoints : g.joints ≠ [] := List.ne_nil_of_length_pos (Nat.zero_lt_of_lt hmany)
  have hanchors : anchors w g = g.joints.map fun j => (spot, j.2) := by
    rw [← List.filterMap_eq_map]
    refine List.filterMap_congr fun j hj => ?_
    obtain ⟨p, hp, rfl⟩ := hspot j hj
    rw [hp]
    rfl
  have hplace : ∀ e ∈ anchors w g, e.1 = spot := by
    rw [hanchors]
    exact List.forall_mem_map.mpr fun _ _ => rfl
  have hlength : (anchors w g).length = g.joints.length := by rw [hanchors, List.length_map]
  have hne : anchors w g ≠ [] :=
    List.ne_nil_of_length_pos (hlength ▸ Nat.zero_lt_of_lt hmany)
  obtain ⟨box, hbox⟩ : ∃ box, Box.around 1 ((anchors w g).map (·.1)) = .ok box :=
    Box.around_of_ne_nil 1 (mt List.map_eq_nil_iff.mp hne)
  have hin : box.contains spot = true := by
    obtain ⟨e, he⟩ := List.exists_mem_of_ne_nil _ hne
    exact hplace e he ▸ Box.around_contains one_pos hbox e.1 (List.mem_map_of_mem he)
  have hempty := PointIndex.holds_empty (β := Nat) box PointIndex.defaultCapacity
  refine hangAll_stopped hfruits hjoints hbox ?_
  exact hempty.insertAll_copies (by decide) _ hin (fun _ hq => absurd hq List.not_mem_nil) hplace
    (Nat.zero_le _) (by rwa [List.length_nil, Nat.zero_add, hlength])

/-- The bounds of a world that leave a single place. -/
noncomputable def pinhole : Setting ℝ := { Setting.default with bounds := some ⟨0, 0⟩ }

theorem held_pinhole (place : Vec ℝ) : pinhole.held place = 0 := by
  have hzero (a : ℝ) : Scalar.confine 0 0 a = 0 := by
    rw [Scalar.confine_real]
    exact min_eq_right (le_max_left 0 a)
  exact congrArg₂ Vec.mk (hzero place.x) (hzero place.y)

/-- The cells of the ends of a chain's links. -/
def linkCell (i : Nat) : Cell := ⟨i * 100, 0⟩

theorem linkCell_inj {i j : Nat} : linkCell i = linkCell j ↔ i = j := by
  simp [linkCell]

/-- A link of a chain of segments. -/
def chainLink (i : Nat) : Segment ℝ := ⟨⟨i, 0⟩, ⟨(i + 1 : Nat), 0⟩, 0, 1, 0, [], false⟩

/-- A chain in a world with little room. -/
noncomputable def chained : Nat → World ℝ × Graph ℝ
  | 0 => (World.new 0 pinhole 1, .new ⟨0, 0⟩ 1)
  | n + 1 => (materialize (chainLink n) none (chained n)).state

theorem cells_chainLink (i : Nat) :
    (chainLink i).cells = .ok (linkCell i, linkCell (i + 1)) := by
  have hcell (n : Nat) : Cell.of (⟨n, 0⟩ : Vec ℝ) = .ok (linkCell n) := by
    simpa [linkCell] using Cell.of_whole n 0
  unfold Segment.cells chainLink
  rw [hcell, hcell]
  rfl

theorem ready_chained (n : Nat) : (chained n).1.Ready ∧ (chained n).1.setting = pinhole := by
  induction n with
  | zero => exact ⟨.new 0 pinhole (by decide), rfl⟩
  | succ n ih =>
    have hlasting := World.lasting_setting pinhole
    exact lasting_materialize hlasting (chainLink n) none (chained n) ih

theorem site_chained (n : Nat) :
    Site 1 ((List.range n).map chainLink) (chained n).1 (chained n).2 := by
  induction n with
  | zero => exact .start (.new 0 pinhole 1) ⟨0, 0⟩
  | succ n ih =>
    have hends : linkCell n ≠ linkCell (n + 1) := mt linkCell_inj.mp (Nat.ne_of_lt n.lt_succ_self)
    obtain ⟨serial, hok, -⟩ := ((ih.jointed one_pos).outcome one_pos (chainLink n) none).strung _ _
      (cells_chainLink n) hends (by rw [Scalar.ofInt_real]; rfl) (ready_chained n).1.spacious
    rw [List.range_succ, List.map_append]
    exact ih.segment (chainLink n) none (by rw [hok]; rfl)

/-- A chain has a joint at each end of each link. -/
theorem length_joints_chained (n : Nat) : (chained (n + 1)).2.joints.length = n + 2 := by
  have hj := (site_chained (n + 1)).jointed one_pos
  have hcells : ((List.range (n + 2)).map linkCell).Nodup :=
    List.nodup_range.map fun _ _ => linkCell_inj.mp
  have hneeds (i : Nat) (cell : Cell) :
      (chainLink i).Needs cell ↔ cell = linkCell i ∨ cell = linkCell (i + 1) :=
    Segment.needs_iff (cells_chainLink i) (mt linkCell_inj.mp (Nat.ne_of_lt i.lt_succ_self)) cell
  have hperm : ((chained (n + 1)).2.joints.map (·.1)).Perm ((List.range (n + 2)).map linkCell) := by
    refine (List.perm_ext_iff_of_nodup hj.fitted.cells hcells).mpr fun cell => ?_
    rw [← joint?_isSome, hj.needed]
    simp only [List.mem_map, List.mem_range, exists_exists_and_eq_and, hneeds]
    constructor
    · rintro ⟨i, hi, rfl | rfl⟩
      · exact ⟨i, by omega, rfl⟩
      · exact ⟨i + 1, by omega, rfl⟩
    · rintro ⟨i, hi, rfl⟩
      by_cases hlast : i = n + 1
      · exact ⟨n, by omega, .inr (by rw [hlast])⟩
      · exact ⟨i, by omega, .inl rfl⟩
  simpa using hperm.length_eq

/-- A step brings all points of a chain to one place. -/
theorem position_chained {n id : Nat} {dt : ℝ} {p : Particle ℝ}
    (hp : ((chained n).1.step dt).particle? id = some p) : p.position = 0 := by
  obtain ⟨hready, hsetting⟩ := ready_chained n
  obtain ⟨place, hplace⟩ := World.position_step hready.toSound dt hp
  rw [hplace, hsetting, held_pinhole]

def windfall : Fruit ℝ := ⟨⟨0, 0⟩, 1, [], 0⟩

/-- From a single link a fruit hangs. -/
theorem hangs_nearest_link : (chained 1).1.Sound ∧ (chained 1).2.joints ≠ [] ∧
    (∀ j ∈ (chained 1).2.joints, (chained 1).1.isAlive j.2) ∧
    ∃ hangings, (hangAll [windfall] (chained 1)).result = .ok hangings ∧
      Hangs [windfall] (chained 1) hangings (hangAll [windfall] (chained 1)).state := by
  have hj := (site_chained 1).jointed one_pos
  have hlength : (chained 1).2.joints.length = 2 := length_joints_chained 0
  have hjoints : (chained 1).2.joints ≠ [] := List.ne_nil_of_length_pos (by omega)
  refine ⟨hj.sound, hjoints, hj.fitted.alive, ?_⟩
  rcases hangs_nearest hj.sound hjoints hj.fitted.alive [windfall] with hhangs | ⟨-, -, hmany⟩
  · exact hhangs
  · rw [hlength] at hmany
    exact absurd hmany (by decide)

/-- A chain whose joints have all come to one place. -/
noncomputable def crammed : World ℝ × Graph ℝ := ((chained 1500).1.step 1, (chained 1500).2)

/-- From fifteen hundred links in one place no fruit hangs. -/
theorem hangs_nearest_crammed : Site 1 ((List.range 1500).map chainLink) crammed.1 crammed.2 ∧
    crammed.2.joints ≠ [] ∧ (∀ j ∈ crammed.2.joints, crammed.1.isAlive j.2) ∧
    hangAll [windfall] crammed = ⟨.error .tooDeep, crammed, []⟩ := by
  have hsite : Site 1 ((List.range 1500).map chainLink) crammed.1 crammed.2 :=
    (site_chained 1500).step 1
  have hj := hsite.jointed one_pos
  have hlength : crammed.2.joints.length = 1501 := length_joints_chained 1499
  have hspot : ∀ j ∈ crammed.2.joints, ∃ p, crammed.1.particle? j.2 = some p ∧ p.position = 0 := by
    intro j hmem
    obtain ⟨p, hp⟩ := Option.isSome_iff_exists.mp
      ((hj.sound.particle?_isSome j.2).trans (hj.fitted.alive j hmem))
    exact ⟨p, hp, position_chained hp⟩
  have hmany : PointIndex.defaultCapacity * (Quadtree.maxNesting + 1) < 1501 := by decide
  rw [← hlength] at hmany
  refine ⟨hsite, List.ne_nil_of_length_pos (by omega), hj.fitted.alive, ?_⟩
  exact hangAll_crowded (List.cons_ne_nil _ _) hspot hmany

end Graph
end Arboretum
