import Arboretum.Proofs.Graph.Strands

/-!
What a body is made up of: a strand for each numbered segment between two cells, in the order in
which they were built, and a point for each fruit that hangs. Others may use the world meanwhile,
and cut strands, as long as they leave the points of the body.
-/
namespace Arboretum.Graph

open Arboretum.Action

variable {α : Type} {w w' : World α} {g g' : Graph α}

theorem put_of_new {κ β : Type} [BEq κ] [LawfulBEq κ] {key : κ} {value : β} {entries : List (κ × β)}
    (h : key ∉ entries.map (·.1)) : put key value entries = entries ++ [(key, value)] := by
  induction entries with
  | nil => rfl
  | cons e rest ih =>
    obtain ⟨hne, hrest⟩ := List.ne_and_not_mem_of_not_mem_cons h
    unfold put
    rw [if_neg (by simpa using Ne.symm hne), ih hrest]
    rfl

theorem Fitted.body (h : Fitted w g) (hjoints : g'.joints = g.joints) : Fitted w g' :=
  ⟨hjoints ▸ h.cells, hjoints ▸ h.points, hjoints ▸ h.alive⟩

variable [Scalar α]

theorem JointOf.kept {p : Vec α} {id : Nat} (h : g.JointOf p id)
    (hkept : ∀ c i, g.joint? c = some i → g'.joint? c = some i) : g'.JointOf p id := by
  obtain ⟨cell, hcell, hj⟩ := h
  exact ⟨cell, hcell, hkept cell id hj⟩

/-- A spring that others have cut, or that joins the joints at the ends of a segment. -/
structure Tied (cut : List Nat) (s : World α × Graph α) (serial : Nat) (segment : Segment α) :
    Prop where
  made : serial < s.1.links.size
  gone : serial ∈ cut → s.1.bond? serial = none
  joins : serial ∉ cut → ∃ bond, s.1.bond? serial = some bond ∧
    s.2.JointOf segment.start bond.a ∧ s.2.JointOf segment.tip bond.b

theorem Tied.isAlive {cut : List Nat} {s : World α × Graph α} {serial : Nat}
    {segment : Segment α} (h : Tied cut s serial segment) :
    s.1.springIsAlive serial ↔ serial ∉ cut := by
  rw [← World.bond?_isSome]
  by_cases hcut : serial ∈ cut
  · simp [h.gone hcut, hcut]
  · obtain ⟨bond, hbond, -⟩ := h.joins hcut
    simp [hbond, hcut]

theorem Tied.kept {cut : List Nat} {serial : Nat} {segment : Segment α}
    (h : Tied cut (w, g) serial segment)
    (hkept : ∀ c i, g.joint? c = some i → g'.joint? c = some i) :
    Tied cut (w, g') serial segment := by
  refine ⟨h.made, h.gone, fun hcut => ?_⟩
  obtain ⟨bond, hbond, ha, hb⟩ := h.joins hcut
  exact ⟨bond, hbond, ha.kept hkept, hb.kept hkept⟩

theorem Tied.body {cut : List Nat} {serial : Nat} {segment : Segment α}
    (h : Tied cut (w, g) serial segment) (hjoints : g'.joints = g.joints) :
    Tied cut (w, g') serial segment :=
  h.kept fun c i hi => by simpa only [joint?, hjoints] using hi

/-- A body has the strands of some numbered segments, in their order, and of some fruits those that
found a joint. The springs in `cut` have been cut by others. -/
structure Comprises (cut : List Nat) (strung : List (Nat × Segment α)) (picked : List (Fruit α))
    (s : World α × Graph α) : Prop where
  sound : s.1.Sound
  fitted : Fitted s.1 s.2
  given : ∀ serial ∈ cut, serial < s.1.links.size
  strands : s.2.strands.map (fun e => (e.1, e.2.2)) = strung.map fun t => ((t.1 : Int), t.2)
  tied : ∀ e ∈ s.2.strands, Tied cut s e.2.1 e.2.2
  hung : ∀ h ∈ s.2.hangings, s.1.isAlive h.point
  fruits : (s.2.hangings.map (·.fruit)).Sublist picked

namespace Comprises

variable {cut : List Nat} {strung : List (Nat × Segment α)} {picked : List (Fruit α)}

theorem new (hw : w.Sound) (origin : Vec α) (scale : α) :
    Comprises [] [] [] (w, .new origin scale) where
  sound := hw
  fitted := .new w origin scale
  given _ hs := absurd hs List.not_mem_nil
  strands := rfl
  tied _ he := absurd he List.not_mem_nil
  hung _ hh := absurd hh List.not_mem_nil
  fruits := .slnil

theorem grew (h : Comprises cut strung picked (w, g)) (hs : w'.Sound) (hgrew : w.Grew w') :
    Comprises cut strung picked (w', g) where
  sound := hs
  fitted := h.fitted.world fun j hj => hgrew.alive _ (h.fitted.alive j hj)
  given serial hserial := Nat.lt_of_lt_of_le (h.given serial hserial) hgrew.springs
  strands := h.strands
  tied e he := by
    obtain ⟨hmade, hgone, hjoins⟩ := h.tied e he
    rw [← hgrew.bonds _ hmade] at hgone hjoins
    exact ⟨Nat.lt_of_lt_of_le hmade hgrew.springs, hgone, hjoins⟩
  hung k hk := hgrew.alive _ (h.hung k hk)
  fruits := h.fruits

/-- Others change the world and cut some springs, but leave the points of the body. -/
theorem changed (h : Comprises cut strung picked (w, g))
    (hc : World.Changes (fun _ => True) w w') (hspared : ∀ id ∈ g.allPoints, w'.isAlive id)
    {more : List Nat}
    (hmore : ∀ serial, serial ∈ more ↔ w.springIsAlive serial ∧ ¬ w'.springIsAlive serial) :
    Comprises (cut ++ more) strung picked (w', g) where
  sound := hc.sound h.sound
  fitted := h.fitted.world fun j hj =>
    hspared _ (List.mem_append_left _ (List.mem_map_of_mem hj))
  given serial hserial := by
    refine Nat.lt_of_lt_of_le ?_ (hc.onward h.sound).springs
    rcases List.mem_append.mp hserial with hold | hnew
    · exact h.given serial hold
    · obtain ⟨place, hplace⟩ := Option.isSome_iff_exists.mp ((hmore serial).mp hnew).1
      exact World.place?_lt hplace
  strands := h.strands
  tied e he := by
    have htied := h.tied e he
    have honward := hc.onward h.sound
    refine ⟨Nat.lt_of_lt_of_le htied.made honward.springs, fun hcut => ?_, fun hcut => ?_⟩
    · rw [← Option.not_isSome_iff_eq_none, World.bond?_isSome]
      rcases List.mem_append.mp hcut with hold | hnew
      · exact fun halive => htied.isAlive.mp (honward.springGone _ htied.made halive) hold
      · exact ((hmore _).mp hnew).2
    · obtain ⟨hold, hnew⟩ := not_or.mp (mt List.mem_append.mpr hcut)
      have halive : w'.springIsAlive e.2.1 := by
        by_contra hdead
        exact hnew ((hmore _).mpr ⟨htied.isAlive.mpr hold, hdead⟩)
      obtain ⟨bond, hbond, hends⟩ := htied.joins hold
      exact ⟨bond, (hc.bond? h.sound htied.made halive).trans hbond, hends⟩
  hung k hk := hspared _ (List.mem_append_right _ (List.mem_map_of_mem hk))
  fruits := h.fruits

/-- A new point can be the joint of a cell that has none. -/
theorem add (h : Comprises cut strung picked (w, g)) (hroom : w.count < w.capacity) {cell : Cell}
    (hcell : g.joint? cell = none) (p : Particle α) :
    Comprises cut strung picked
      (w.seat p, { g with joints := g.joints ++ [(cell, w.slots.size)] }) := by
  have hseated := h.grew (h.sound.seat hroom p) (World.grew_seat w p)
  refine ⟨hseated.sound, h.fitted.add hcell p, hseated.given, hseated.strands, fun e he => ?_,
    hseated.hung, hseated.fruits⟩
  refine (hseated.tied e he).kept fun c i hi => ?_
  rw [joint?_append, hi, Option.some_or]

theorem strand (h : Comprises cut strung picked (w, g)) {serial index : Nat} {s : Segment α}
    (hnew : index ∉ strung.map (·.1)) (htied : Tied cut (w, g) serial s) :
    Comprises cut (strung ++ [(index, s)]) picked
      (w, { g with strands := put (index : Int) (serial, s) g.strands }) := by
  have hkeys : g.strands.map (·.1) = strung.map fun t => (t.1 : Int) := by
    simpa only [List.map_map, Function.comp_def] using congrArg (List.map Prod.fst) h.strands
  have hfree : (index : Int) ∉ g.strands.map (·.1) := by
    rw [hkeys, List.mem_map]
    rintro ⟨t, ht, he⟩
    exact hnew (List.mem_map.mpr ⟨t, ht, Int.ofNat_inj.mp he⟩)
  rw [put_of_new hfree]
  refine ⟨h.sound, h.fitted.body rfl, h.given, ?_, ?_, h.hung, h.fruits⟩
  · rw [List.map_append, List.map_append, h.strands]
    rfl
  · intro e he
    rcases List.mem_append.mp he with he | he
    · exact (h.tied e he).body rfl
    · cases List.mem_singleton.mp he
      exact htied.body rfl

theorem hanging (h : Comprises cut strung picked (w, g)) (k : Hanging α)
    (halive : w.isAlive k.point) :
    Comprises cut strung (picked ++ [k.fruit]) (w, { g with hangings := g.hangings ++ [k] }) := by
  refine ⟨h.sound, h.fitted.body rfl, h.given, h.strands, fun e he => (h.tied e he).body rfl,
    fun x hx => ?_, ?_⟩
  · rcases List.mem_append.mp hx with hx | hx
    · exact h.hung x hx
    · cases List.mem_singleton.mp hx
      exact halive
  · rw [List.map_append]
    exact h.fruits.append (.refl _)

/-- Braces are no part of the content. -/
theorem braced (h : Comprises cut strung picked (w, g)) (braced : List (Nat × Nat))
    (braces : List Nat) :
    Comprises cut strung picked (w, { g with braced := braced, braces := braces }) :=
  ⟨h.sound, h.fitted.body rfl, h.given, h.strands, fun e he => (h.tied e he).body rfl,
    h.hung, h.fruits⟩

/-- A fruit that finds no joint is left out. -/
theorem unhung {s : World α × Graph α} (h : Comprises cut strung picked s)
    (fruits : List (Fruit α)) : Comprises cut strung (picked ++ fruits) s :=
  { h with fruits := h.fruits.trans (List.sublist_append_left _ _) }

theorem numbered (h : Comprises cut strung picked (w, g)) {e : Int × Nat × Segment α}
    (he : e ∈ g.strands) : ∃ index : Nat, (index : Int) = e.1 ∧ (index, e.2.2) ∈ strung := by
  have hmem : (e.1, e.2.2) ∈ strung.map fun t => ((t.1 : Int), t.2) := by
    rw [← h.strands]
    exact List.mem_map_of_mem he
  obtain ⟨t, ht, heq⟩ := List.mem_map.mp hmem
  obtain ⟨hindex, hs⟩ := Prod.mk.inj heq
  exact ⟨t.1, hindex, hs ▸ ht⟩

theorem strand_of_strung (h : Comprises cut strung picked (w, g)) {index : Nat} {s : Segment α}
    (hs : (index, s) ∈ strung) : ∃ serial, ((index : Int), serial, s) ∈ g.strands := by
  have hmem : ((index : Int), s) ∈ g.strands.map fun e => (e.1, e.2.2) := by
    rw [h.strands]
    exact List.mem_map.mpr ⟨_, hs, rfl⟩
  obtain ⟨⟨i, serial, t⟩, he, heq⟩ := List.mem_map.mp hmem
  cases heq
  exact ⟨serial, he⟩

theorem strand_unique (h : Comprises cut strung picked (w, g)) (honce : (strung.map (·.1)).Nodup)
    {e e' : Int × Nat × Segment α} (he : e ∈ g.strands) (he' : e' ∈ g.strands)
    (hsame : e.1 = e'.1) : e = e' := by
  have hkeys : g.strands.map (·.1) = (strung.map (·.1)).map fun i : Nat => (i : Int) := by
    simpa only [List.map_map, Function.comp_def] using congrArg (List.map Prod.fst) h.strands
  have hnodup : (g.strands.map (·.1)).Nodup := by
    rw [hkeys]
    exact honce.map fun _ _ h => Int.ofNat_inj.mp h
  exact List.inj_on_of_nodup_map hnodup he he' hsame

end Comprises

/-! ### Building -/

variable {cut : List Nat} {strung : List (Nat × Segment α)} {picked : List (Fruit α)}

/-- Asking for a joint leaves the content of a body, also where it stops. -/
theorem meets_jointAt_content (h : Comprises cut strung picked (w, g)) (cell : Cell) (spot : Vec α)
    (mass : α) (fixed : Bool) :
    Meets (· = (w, g)) (jointAt cell spot mass fixed) (Comprises cut strung picked)
      fun id t => Comprises cut strung picked t ∧ t.2.joint? cell = some id ∧
        ∀ c i, g.joint? c = some i → t.2.joint? c = some i := by
  apply meets_jointAt_of
  case hnew =>
    intro hj
    obtain ⟨notes, he⟩ := World.addPoint_apply spot mass fixed w
    have hroomy := h.grew h.sound.roomy (World.same_roomy w).grew
    intro s hs
    subst hs
    rw [inWorld_result, inWorld_state, he, ← (World.same_roomy w).points]
    split
    · exact ⟨fun _ _ => hroomy, fun _ hok => by cases hok⟩
    · rename_i hroom
      refine ⟨fun _ hstop => (by cases hstop), fun id hid => ?_⟩
      cases hid
      refine ⟨hroomy.add (Nat.lt_of_not_le hroom) hj _, by simp [joint?_append, hj],
        fun c i hi => ?_⟩
      rw [joint?_append, hi, Option.some_or]
  case hlost => exact fun _ _ _ _ _ => h
  case hfound => exact fun id hj _ => ⟨h, hj, fun _ _ hi => hi⟩
  case hpinned =>
    intro id p hj _ _ _
    refine .returns fun s hs => ?_
    subst hs
    obtain ⟨slot, hslot⟩ := World.isAlive_iff.mp (h.fitted.alive_of_joint? hj)
    have hpin := pin_point h.sound hslot
    have hpinned := h.grew (h.sound.pin (w.point id)) (World.same_pin (w.point id) w).grew
    rw [inWorld_result, inWorld_state]
    rw [hpin] at hpinned ⊢
    exact ⟨(), rfl, hpinned, hj, fun _ _ hi => hi⟩

/-- A new spring ties a strand. -/
theorem Comprises.link (h : Comprises cut strung picked (w, g)) {s : Segment α} {a b : Nat}
    (ha : g.JointOf s.start a) (hb : g.JointOf s.tip b) (hab : a ≠ b) (stiffness damping rest : α) :
    Comprises cut strung picked (w.link a b stiffness damping rest, g) ∧
      Tied cut (w.link a b stiffness damping rest, g) w.links.size s := by
  have halive {p : Vec α} {id : Nat} (hid : g.JointOf p id) : w.isAlive id := by
    obtain ⟨cell, -, hj⟩ := hid
    exact h.fitted.alive_of_joint? hj
  have hlinked := h.sound.link hab (halive ha) (halive hb) stiffness damping rest
  refine ⟨h.grew hlinked (World.grew_link w a b _ _ _), ?_, fun hcut => ?_, fun _ => ?_⟩
  · simp [World.link]
  · exact absurd (h.given _ hcut) (Nat.lt_irrefl _)
  · refine ⟨⟨a, b, stiffness, damping, rest⟩, ?_, ha, hb⟩
    rw [World.bond?_link, if_pos rfl]

/-- A numbered segment between two cells gives a body a strand, unless it stops the builder. -/
theorem meets_materialize_content (h : Comprises cut strung picked (w, g)) (s : Segment α)
    (index : Nat) :
    Meets (· = (w, g)) (materialize s (some index)) (Comprises cut strung picked) fun _ t =>
      index ∉ strung.map (·.1) →
        Comprises cut (strung ++ if s.Spans then [(index, s)] else []) picked t := by
  cases hcells : s.cells with
  | error e =>
    rw [materialize_unread hcells]
    exact .fail fun _ ht => ht ▸ h
  | ok ends =>
    obtain ⟨start, tip⟩ := ends
    by_cases hne : start = tip
    · subst tip
      have hwithin : ¬ s.Spans := by
        rintro ⟨a, b, hends, hne⟩
        cases hcells.symm.trans hends
        exact hne rfl
      rw [materialize_within hcells, if_neg hwithin, List.append_nil]
      exact Meets.bind (.note _) fun _ => .pure fun _ ht _ => ht ▸ h
    have hspans : s.Spans := ⟨start, tip, hcells, hne⟩
    obtain ⟨hstart, htip⟩ := Segment.of_cells hcells
    rw [if_pos hspans]
    apply meets_materialize_between hcells hne
      (fun a t => Comprises cut strung picked t ∧ t.2.joint? start = some a)
      fun a b t => Comprises cut strung picked t ∧ t.2.joint? start = some a ∧
        t.2.joint? tip = some b
    case hdepth => exact fun _ _ => h
    case hstart =>
      intro spot mass
      exact (meets_jointAt_content h start spot mass s.isRoot).weaken fun a t ht =>
        ⟨ht.1, ht.2.1⟩
    case hseen => exact fun _ _ _ ha _ => ha.1
    case htip =>
      intro a spot mass
      refine Meets.each fun t ha => ?_
      exact (meets_jointAt_content ha.1 tip spot mass s.isRoot).weaken fun b t' hb =>
        ⟨hb.1, hb.2.2 start a ha.2, hb.2.1⟩
    case hspring =>
      intro a b w' g' stiffness hends
      obtain ⟨hw', ha, hb⟩ := hends
      have hab : a ≠ b := fun he => hne ((hw'.fitted.joint_eq ha hb).mp he)
      refine ((meets_join hw'.sound (hw'.fitted.alive_of_joint? ha)
        (hw'.fitted.alive_of_joint? hb) hab stiffness _ _).stop fun _ hf => hf.elim).weaken ?_
      rintro made t ⟨rfl, rest, -, rfl⟩
      obtain ⟨hlinked, htied⟩ := hw'.link ⟨start, hstart, ha⟩ ⟨tip, htip, hb⟩ hab
        (World.stiffnessOf stiffness) World.defaultDamping rest
      refine ⟨fun hnone => by simp at hnone, fun serial i hmade hindex hnew => ?_⟩
      cases hmade
      cases hindex
      exact hlinked.strand hnew htied

/-- Braces leave the content of a body. -/
theorem keeps_brace_content (a b : Segment α) :
    Keeps (Comprises cut strung picked) (brace a b) := by
  apply keeps_brace_of
  intro w g tipA tipB p q stiffness rest h hopen
  have hp := h.fitted.alive_of_joint? hopen.joints.1
  have hq := h.fitted.alive_of_joint? hopen.joints.2
  refine ((meets_join h.sound hp hq hopen.apart stiffness _ rest).stop
    fun _ hf => hf.elim).weaken ?_
  rintro made t ⟨rfl, held, -, rfl⟩
  have hlinked := h.grew (h.sound.link hopen.apart hp hq (World.stiffnessOf stiffness)
    World.defaultDamping held) (World.grew_link w p q _ _ _)
  exact ⟨hlinked, fun serial _ => hlinked.braced _ _⟩

theorem keeps_addBraces_content (segments : List (Segment α)) :
    Keeps (Comprises cut strung picked) (addBraces segments) :=
  keeps_addBraces_of keeps_brace_content

/-- A fruit that finds a joint alive hangs on a point of its own, and the others stay. -/
theorem meets_hang_content {index : PointIndex α Nat} {joints : List (Cell × Nat)}
    (hindex : ∀ place q, index.nearest place PointIndex.defaultHalf = some q →
      q.2 ∈ joints.map (·.2)) (f : Fruit α) (picked : List (Fruit α)) :
    Meets (fun t => Comprises cut strung picked t ∧ t.2.joints = joints) (hang index f)
      (fun _ => False)
      fun _ t => Comprises cut strung (picked ++ [f]) t ∧ t.2.joints = joints := by
  refine Meets.each fun t ht => ?_
  obtain ⟨w, g⟩ := t
  obtain ⟨h, hjoints⟩ := ht
  have hbody : g.joints = joints := hjoints
  apply meets_hang_of fun joint point t => Comprises cut strung picked t ∧ t.2.joints = joints ∧
    t.1.isAlive joint ∧ t.1.isAlive point ∧ joint ≠ point
  case hunhung => exact fun _ => ⟨h.unhung [f], hjoints⟩
  case hpoint =>
    intro q hq
    obtain ⟨j, hj, hid⟩ := List.mem_map.mp (hbody ▸ hindex _ q hq)
    have halive : w.isAlive q.2 := hid ▸ h.fitted.alive j hj
    have hready : w.Ready := ⟨h.sound, h.sound.capacity_pos halive⟩
    refine (meets_addPoint_ready hready _ _ _).weaken ?_
    rintro point t ⟨rfl, rfl⟩
    have hgrew := (World.same_roomy w).grew.trans (World.grew_seat w.roomy
      (.atRest (g.toWorld f.position) (World.massOf fruitMass) false))
    have hseated := h.grew (h.sound.roomy.seat (World.count_roomy_lt hready) _) hgrew
    refine ⟨hseated, hjoints, hgrew.alive _ halive, ?_, Nat.ne_of_lt (World.isAlive_lt halive)⟩
    rw [World.isAlive, World.slot?_seat, if_pos (World.same_roomy w).points.symm]
    rfl
  case hspring =>
    intro joint point w' g' hseated
    obtain ⟨hw', hsame, hjoint, hpoint, hne⟩ := hseated
    refine (meets_join hw'.sound hjoint hpoint hne _ _ _).weaken ?_
    rintro made t ⟨rfl, held, -, rfl⟩
    have hlinked := hw'.grew (hw'.sound.link hne hjoint hpoint (World.stiffnessOf fruitStiffness)
      World.defaultDamping held) (World.grew_link w' joint point _ _ _)
    refine ⟨fun hnone => by simp at hnone, fun spring _ => ?_⟩
    exact ⟨hlinked.hanging ⟨f, point, spring⟩ hpoint, hsame⟩

/-- Fruits are hung all together, or the builder is stopped before the first of them. -/
theorem meets_hangAll_content (h : Comprises cut strung picked (w, g)) (fruits : List (Fruit α)) :
    Meets (· = (w, g)) (hangAll fruits) (Comprises cut strung picked)
      fun _ => Comprises cut strung (picked ++ fruits) := by
  apply meets_hangAll_of
  case hnone => exact fun _ => h.unhung fruits
  case hstop => exact fun _ _ => h
  case hall =>
    intro box index _ _ hindex
    have hone (f : Fruit α) (picked : List (Fruit α)) :
        Meets (fun t => Comprises cut strung picked t ∧ t.2.joints = g.joints) (hang index f)
          (fun _ => False)
          fun _ t => Comprises cut strung (picked ++ [f]) t ∧ t.2.joints = g.joints :=
      meets_hang_content (fun _ _ hq => (joint_of_nearest hindex hq).1) f picked
    have hall := Meets.forEach_foldl hone fruits picked
    rw [List.foldl_append_eq_append, ← List.flatMap_def, List.flatMap_singleton'] at hall
    exact ((hall.one ⟨h, rfl⟩).stop fun _ hf => hf.elim).weaken fun _ _ ht => ht.1

end Arboretum.Graph
