import Arboretum.Proofs.Graph.Form

/-!
Building gives a body the form that its segments and fruits give it, wherever it stands and however
it has swayed. Where it is at the time is asked for new points, but never for what to build.
-/
namespace Arboretum.Graph

open Arboretum.Action

variable {α : Type} [Scalar α] {scale : α} {f : Form α} {w : World α} {g : Graph α}

/-! ### Segments -/

/-- A point that is made has a seat of its own in the world. -/
theorem meets_addPoint_seat (spot : Vec α) (mass : α) (fixed : Bool) :
    Meets (· = (w, g)) (inWorld (World.addPoint spot mass fixed)) (fun _ => True)
      fun id t => id = w.roomy.slots.size ∧ w.roomy.count < w.roomy.capacity ∧
        t = (w.roomy.seat (.atRest spot (World.massOf mass) fixed), g) := by
  intro s hs
  subst hs
  obtain ⟨notes, he⟩ := World.addPoint_apply spot mass fixed w
  rw [inWorld_result, inWorld_state, he, (World.same_roomy w).points]
  split
  · exact ⟨fun _ _ => trivial, fun _ hok => by cases hok⟩
  · rename_i hroom
    refine ⟨fun _ hstop => (by cases hstop), fun id hid => ?_⟩
    cases hid
    exact ⟨rfl, Nat.lt_of_not_le hroom, rfl⟩

/-- What comes of asking for the joint of a cell: it is there, and so are those there before. -/
structure Fits (scale : α) (f : Form α) (cell : Cell) (was : Graph α) (id : Nat)
    (now : World α × Graph α) : Prop where
  embodies : Embodies scale now f
  joint : now.2.joint? cell = some id
  kept : ∀ c i, was.joint? c = some i → now.2.joint? c = some i

theorem meets_jointAt_form (h : Embodies scale (w, g) f) (cell : Cell) (spot : Vec α) (mass : α)
    (fixed : Bool) :
    Meets (· = (w, g)) (jointAt cell spot mass fixed) (fun _ => True)
      fun id t => Fits scale (f.joint cell fixed) cell g id t := by
  apply meets_jointAt_of
  case hnew =>
    intro hj
    refine (meets_addPoint_seat spot mass fixed).weaken fun id t ht => ?_
    obtain ⟨hid, hroom, he⟩ := ht
    subst hid he
    refine ⟨h.roomy.add hroom hj (.atRest spot (World.massOf mass) fixed), ?_, fun c i hi => ?_⟩
    · simp [joint?_append, hj]
    · rw [joint?_append, hi, Option.some_or]
  case hlost => exact fun _ _ _ _ _ => trivial
  case hfound =>
    intro id hj hdone
    obtain ⟨p, hread⟩ := h.sound.particle_of_alive (h.shaped.fitted.alive_of_joint? hj)
    have hloose : (p.pinned || fixed) = p.pinned := by
      cases fixed with
      | false => exact Bool.or_false _
      | true =>
        obtain ⟨p', hread', hpinned⟩ := hdone rfl
        cases hread.symm.trans hread'
        rw [hpinned]
        rfl
    refine ⟨h.refit hj fixed h.sound (fun x => ?_) fun _ => rfl, hj, fun _ _ hi => hi⟩
    split
    · rename_i hx
      rw [hx, World.pinned?_of_particle hread, Option.map_some, hloose]
    · rfl
  case hpinned =>
    intro id p hj hfixed hread _
    obtain ⟨slot, hslot⟩ := World.isAlive_iff.mp (h.shaped.fitted.alive_of_joint? hj)
    have hpin := pin_point h.sound hslot
    have hsound := h.sound.pin (w.point id)
    rw [hpin] at hsound
    refine .returns fun s hs => ?_
    subst hs
    rw [inWorld_result, inWorld_state, hpin]
    refine ⟨(), rfl, h.refit hj fixed hsound (fun x => ?_) fun _ => rfl, hj, fun _ _ hi => hi⟩
    rw [World.pinned?_pinSlot h.sound hslot]
    split
    · rename_i hx
      rw [hx, World.pinned?_of_particle hread, Option.map_some, hfixed, Bool.or_true]
    · rfl

/-- A segment gives a body the strand between its cells, and the joints there. -/
theorem meets_materialize_form (s : Segment α) (index : Int) :
    Meets (Embodies scale · f) (materialize s (some index)) (fun _ => True)
      fun _ t => Embodies scale t (f.segment s index) := by
  refine Meets.each fun t h => ?_
  obtain ⟨w, g⟩ := t
  unfold Form.segment
  cases hcells : s.cells with
  | error e =>
    rw [materialize_unread hcells]
    exact .fail fun _ _ => trivial
  | ok ends =>
    obtain ⟨start, tip⟩ := ends
    dsimp only
    split
    · rename_i hsame
      subst tip
      rw [materialize_within hcells]
      exact Meets.bind (Meets.note _) fun _ => .pure fun t ht => ht ▸ h
    rename_i hne
    apply meets_materialize_between hcells hne
      (fun a t => Fits scale (f.joint start s.isRoot) start g a t) fun a b t =>
        t.2.joint? start = some a ∧
          Fits scale ((f.joint start s.isRoot).joint tip s.isRoot) tip t.2 b t
    case hdepth => exact fun _ _ => trivial
    case hstart => exact fun spot mass => meets_jointAt_form h start spot mass s.isRoot
    case hseen => exact fun _ _ _ _ _ => trivial
    case htip =>
      intro a spot mass
      refine Meets.each fun t ha => ?_
      refine (meets_jointAt_form ha.embodies tip spot mass s.isRoot).weaken fun b t' hb => ?_
      exact ⟨hb.kept start a ha.joint, hb.embodies, hb.joint, fun _ _ hi => hi⟩
    case hspring =>
      intro a b w' g' stiffness hends
      obtain ⟨hjoint, hfits⟩ := hends
      have hfitted := hfits.embodies.shaped.fitted
      have ha := hfitted.alive_of_joint? hjoint
      have hb := hfitted.alive_of_joint? hfits.joint
      have hab : a ≠ b := fun he => hne ((hfitted.joint_eq hjoint hfits.joint).mp he)
      refine ((meets_join hfits.embodies.sound ha hb hab stiffness _ _).stop
        fun _ _ => trivial).weaken fun made t ht => ?_
      obtain ⟨rfl, rest, -, rfl⟩ := ht
      refine ⟨fun hnone => by simp at hnone, fun serial i hmade hindex => ?_⟩
      cases hmade
      cases hindex
      have hlinked := hfits.embodies.link hab ha hb (World.stiffnessOf stiffness)
        World.defaultDamping rest
      exact hlinked.strand (hfits.embodies.span?_link hjoint hfits.joint _ _ rest) index s

/-! ### Braces -/

theorem openings_form (h : Embodies scale (w, g) f) (groups : List (Cell × List (Segment α))) :
    g.openings groups = f.openings groups := by
  have hsame : (fun group : Cell × List (Segment α) => (g.joint? group.1).isSome) =
      fun group => decide (group.1 ∈ f.cells) := by
    funext group
    rw [Bool.eq_iff_iff, decide_eq_true_iff, h.shaped.mem_cells]
  rw [Graph.openings, Form.openings, hsame]

variable [Scalar.Rooted α]

theorem not_braceLength_lt_zero {a b : Segment α} {rest : α} (h : g.braceLength a b = .ok rest) :
    ¬ rest < 0 := by
  unfold braceLength oppositeSide at h
  split at h
  · cases h
  · cases h
    exact Scalar.Rooted.not_sqrt_lt_zero _

/-- Whether an opening gets a brace, and of what length, does not depend on where its tips are. -/
theorem meets_brace_form (a b : Segment α) :
    Meets (Embodies scale · f) (brace a b) (fun _ => True)
      fun _ t => Embodies scale t (f.brace scale (a, b)) := by
  refine Meets.each fun t h => ?_
  obtain ⟨w, g⟩ := t
  obtain rfl : g.scale = scale := h.scale
  have hsame {p q : Cell} {i j : Nat} (hp : g.joint? p = some i) (hq : g.joint? q = some j) :
      i = j ↔ p = q := h.shaped.fitted.joint_eq hp hq
  apply meets_brace_of
  case hstop => exact fun _ _ => trivial
  case hsettled =>
    intro outcome _ hsettled
    obtain ⟨p, q, hA, hB, hheld⟩ := hsettled
    have hstay : f.brace g.scale (a, b) = f := by
      simp only [Form.brace, hA, hB]
      apply if_neg
      rintro ⟨hp, hq, hne, hfree, hlong⟩
      rw [h.shaped.mem_cells] at hp hq
      obtain ⟨i, hi⟩ := Option.isSome_iff_exists.mp hp
      obtain ⟨j, hj⟩ := Option.isSome_iff_exists.mp hq
      rcases hheld i j hi hj with he | hpair | hshort
      · exact hne ((hsame hi hj).mp he)
      · exact hfree ((h.braced_iff hi hj).mp hpair)
      · exact hlong hshort
    rw [hstay]
    exact h
  case hopen =>
    intro p q i j stiffness rest hopen
    obtain ⟨hp, hq⟩ := hopen.joints
    have hi := h.shaped.fitted.alive_of_joint? hp
    have hj := h.shaped.fitted.alive_of_joint? hq
    have hmade : f.brace g.scale (a, b) = { f with braces := f.braces ++ [(p, q, rest)] } := by
      have hlength := hopen.length
      unfold braceLength at hlength
      simp only [Form.brace, hopen.cells.1, hopen.cells.2, hlength]
      apply if_pos
      rw [h.shaped.mem_cells, h.shaped.mem_cells, hp, hq, ← h.braced_iff hp hq]
      exact ⟨rfl, rfl, mt (hsame hp hq).mpr hopen.apart, hopen.free, hopen.long⟩
    refine ((meets_join h.sound hi hj hopen.apart stiffness _ rest).stop
      fun _ _ => trivial).weaken fun made t ht => ?_
    obtain ⟨rfl, held, hheld, rfl⟩ := ht
    obtain rfl := hheld (not_braceLength_lt_zero hopen.length)
    refine ⟨fun hnone => by simp at hnone, fun serial hserial => ?_⟩
    cases hserial
    rw [hmade]
    have hlinked := h.link hopen.apart hi hj (World.stiffnessOf stiffness) World.defaultDamping held
    have hspan := h.span?_link hp hq (World.stiffnessOf stiffness) World.defaultDamping held
    exact hlinked.brace ((World.made?_link ..).trans (if_pos rfl)) hspan

/-- The braces of some segments are those that their openings in the form ask for. -/
theorem meets_addBraces_form (segments : List (Segment α)) :
    Meets (Embodies scale · f) (addBraces segments) (fun _ => True)
      fun _ t => Embodies scale t (f.braceAll scale segments) := by
  refine Meets.each fun t h => ?_
  obtain ⟨w, g⟩ := t
  apply meets_addBraces_of
  case hstop => exact fun _ _ => trivial
  case hall =>
    intro groups hgroups
    rw [openings_form h]
    simp only [Form.braceAll, hgroups]
    have hone (o : Segment α × Segment α) (f : Form α) : Meets (Embodies scale · f)
        (brace o.1 o.2) (fun _ => True) fun _ t => Embodies scale t (f.brace scale o) :=
      meets_brace_form o.1 o.2
    exact (Meets.forEach_foldl hone (f.openings groups) f).one h

/-! ### Fruits -/

omit [Scalar.Rooted α] in
/-- A fruit hangs from a joint that is found. -/
theorem meets_hang_form {index : PointIndex α Nat} {joints : List (Cell × Nat)}
    (hindex : ∀ place q, index.nearest place PointIndex.defaultHalf = some q →
      q.2 ∈ joints.map (·.2))
    (hfinds : PointIndex.Finds α → ∀ place,
      (index.nearest place PointIndex.defaultHalf).isSome) (fruit : Fruit α) (f : Form α) :
    Meets (fun t => Embodies scale t f ∧ t.2.joints = joints) (hang index fruit) (fun _ => True)
      fun _ t => Embodies scale t { f with fruits := f.fruits + 1 } ∧ t.2.joints = joints := by
  refine Meets.each fun t ht => ?_
  obtain ⟨w, g⟩ := t
  obtain ⟨h, hjoints⟩ := ht
  apply meets_hang_of fun joint point t => Embodies scale t f ∧ t.2.joints = joints ∧
    t.1.isAlive joint ∧ t.1.isAlive point ∧ joint ≠ point
  case hunhung =>
    intro hnone
    refine ⟨h.uncounted (fun hf => ?_) _, hjoints⟩
    have hsome := hfinds hf (g.toWorld fruit.position)
    rw [hnone] at hsome
    cases hsome
  case hpoint =>
    intro q hq
    obtain ⟨j, hj, hid⟩ := List.mem_map.mp (hjoints ▸ hindex _ q hq)
    refine (meets_addPoint_seat _ _ _).weaken fun point t ht => ?_
    obtain ⟨rfl, hroom, rfl⟩ := ht
    have hseated := h.roomy.seat hroom (.atRest (g.toWorld fruit.position)
      (World.massOf fruitMass) false)
    have hpoint := (World.slot?_seat w.roomy (.atRest (g.toWorld fruit.position)
      (World.massOf fruitMass) false) w.roomy.slots.size).trans (if_pos rfl)
    refine ⟨hseated, hjoints, ?_, World.isAlive_iff.mpr ⟨_, hpoint⟩, ?_⟩
    · exact hid ▸ hseated.shaped.fitted.alive j hj
    · exact hid ▸ Nat.ne_of_lt (h.roomy.lt_of_joint hj)
  case hspring =>
    intro joint point w' g' hseated
    obtain ⟨hw, hsame, hjoint, hpoint, hne⟩ := hseated
    refine ((meets_join hw.sound hjoint hpoint hne _ _ _).stop fun _ _ => trivial).weaken
      fun made t ht => ?_
    obtain ⟨rfl, held, -, rfl⟩ := ht
    refine ⟨fun hnone => by simp at hnone, fun spring hspring => ?_⟩
    cases hspring
    exact ⟨(hw.link hne hjoint hpoint _ _ held).hanging _, hsame⟩

omit [Scalar.Rooted α] in
/-- All fruits hang from a body that has a joint, wherever they find one. -/
theorem meets_hangAll_form (fruits : List (Fruit α)) :
    Meets (Embodies scale · f) (hangAll fruits) (fun _ => True)
      fun _ t => Embodies scale t (f.hang fruits) := by
  refine Meets.each fun t h => ?_
  obtain ⟨w, g⟩ := t
  have hbare : f.joints = [] ↔ g.joints = [] := by
    have hlength : g.joints.length = f.joints.length := by
      simpa using congrArg List.length h.shaped.joints
    rw [← List.length_eq_zero_iff, ← hlength, List.length_eq_zero_iff]
  apply meets_hangAll_of
  case hnone =>
    intro hnone
    have hstay : f.hang fruits = f := by
      rcases hnone with hnone | hnone
      · simp [Form.hang, hnone]
      · simp [Form.hang, hbare.mpr hnone]
    rw [hstay]
    exact h
  case hstop => exact fun _ _ => trivial
  case hall =>
    intro box index hjoints hbox hindex
    obtain ⟨j, hj⟩ := List.exists_mem_of_ne_nil g.joints hjoints
    have hanchors := anchors_ne_nil h.sound hj (h.shaped.fitted.alive j hj)
    have hfinds (hf : PointIndex.Finds α) (place : Vec α) :
        (index.nearest place PointIndex.defaultHalf).isSome :=
      hf (anchors w g) box index place hanchors hbox hindex
    have hone (fruit : Fruit α) (f : Form α) :
        Meets (fun t => Embodies scale t f ∧ t.2.joints = g.joints) (hang index fruit)
          (fun _ => True) fun _ t =>
            Embodies scale t { f with fruits := f.fruits + 1 } ∧ t.2.joints = g.joints :=
      meets_hang_form (fun _ _ hq => (joint_of_nearest hindex hq).1) hfinds fruit f
    have hall := Meets.forEach_foldl hone fruits f
    have hcount : f.hang fruits = { f with fruits := f.fruits + fruits.length } := by
      apply if_neg
      simpa [hbare] using hjoints
    rw [Form.foldl_fruits, ← hcount] at hall
    exact (hall.one ⟨h, rfl⟩).weaken fun _ _ ht => ht.1

end Arboretum.Graph
