import Arboretum.Proofs.Graph.Additions
import Arboretum.Proofs.Graph.Strands

/-!
The openings between segments that leave one joint. Asking for the braces of some segments settles
every opening between them, and passes over those that are settled.
-/
namespace Arboretum

open Arboretum.Action

variable {α : Type}

namespace Graph

/-! ### The openings between segments -/

theorem mem_pairs_of_sublist {β : Type} {x y : β} {xs : List β} (h : [x, y].Sublist xs) :
    (x, y) ∈ pairs xs := by
  induction xs with
  | nil => cases h
  | cons z rest ih =>
    rw [pairs, List.mem_append]
    cases h with
    | cons _ h => exact .inr (ih h)
    | cons_cons _ h => exact .inl (List.mem_map_of_mem (List.singleton_sublist.mp h))

theorem mem_of_mem_pairs {β : Type} {x y : β} {xs : List β} (h : (x, y) ∈ pairs xs) :
    x ∈ xs ∧ y ∈ xs := by
  induction xs with
  | nil => cases h
  | cons z rest ih =>
    rw [pairs, List.mem_append] at h
    cases h with
    | inl h =>
      obtain ⟨y', hy, he⟩ := List.mem_map.mp h
      cases he
      exact ⟨List.mem_cons_self, List.mem_cons_of_mem _ hy⟩
    | inr h => exact (ih h).imp (List.mem_cons_of_mem z) (List.mem_cons_of_mem z)

/-- The segments listed under a cell. -/
def groupAt (groups : List (Cell × List (Segment α))) (cell : Cell) : List (Segment α) :=
  (groups.lookup cell).getD []

theorem groupAt_addToGroup (cell c : Cell) (s : Segment α)
    (groups : List (Cell × List (Segment α))) :
    groupAt (addToGroup cell s groups) c = groupAt groups c ++ if c = cell then [s] else [] := by
  unfold groupAt
  induction groups with
  | nil =>
    by_cases hc : c = cell
    · simp [addToGroup, hc]
    · simp [addToGroup, hc, List.lookup_cons, beq_eq_false_iff_ne.mpr hc]
  | cons entry rest ih =>
    obtain ⟨first, group⟩ := entry
    unfold addToGroup
    by_cases hfirst : first = cell
    · subst first
      by_cases hc : c = cell
      · simp [hc]
      · simp [hc, List.lookup_cons, beq_eq_false_iff_ne.mpr hc]
    · by_cases hc : c = first
      · subst c
        simp [hfirst]
      · simp only [if_neg hfirst, List.lookup_cons, beq_eq_false_iff_ne.mpr hc]
        exact ih

theorem mem_addToGroup {cell : Cell} {s t : Segment α} {groups : List (Cell × List (Segment α))}
    (h : ∃ group ∈ addToGroup cell s groups, t ∈ group.2) :
    t = s ∨ ∃ group ∈ groups, t ∈ group.2 := by
  induction groups with
  | nil =>
    obtain ⟨group, hg, ht⟩ := h
    rw [addToGroup, List.mem_singleton] at hg
    subst group
    exact .inl (List.mem_singleton.mp ht)
  | cons entry rest ih =>
    obtain ⟨first, group⟩ := entry
    unfold addToGroup at h
    split at h
    · simp only [List.mem_cons, exists_eq_or_imp, List.mem_append] at h ⊢
      grind
    · simp only [List.mem_cons, exists_eq_or_imp] at h ⊢
      grind

section
variable [Scalar α]

/-- Segments that start in one cell come into its group, in their order. -/
theorem sublist_grouped {cell : Cell} {groups out : List (Cell × List (Segment α))}
    {segments xs : List (Segment α)} (h : grouped groups segments = .ok out)
    (hxs : xs.Sublist segments) (hcell : ∀ s ∈ xs, Cell.of s.start = .ok cell) :
    (groupAt groups cell ++ xs).Sublist (groupAt out cell) := by
  induction segments generalizing groups xs with
  | nil =>
    cases h
    cases hxs
    simp
  | cons s rest ih =>
    unfold grouped at h
    cases hc : Cell.of s.start with
    | error e =>
      rw [hc] at h
      cases h
    | ok c =>
      rw [hc] at h
      change grouped (addToGroup c s groups) rest = .ok out at h
      have hgroup := groupAt_addToGroup c cell s groups
      cases hxs with
      | cons _ hrest =>
        have hlater := ih h hrest hcell
        rw [hgroup] at hlater
        refine .trans ?_ hlater
        exact (List.sublist_append_left _ _).append (.refl xs)
      | cons_cons _ hrest =>
        have hsame : cell = c := by
          have hs := hcell s List.mem_cons_self
          rw [hc] at hs
          exact (Except.ok.inj hs).symm
        have hlater := ih h hrest fun t ht => hcell t (List.mem_cons_of_mem s ht)
        rw [hgroup, if_pos hsame, List.append_assoc] at hlater
        exact hlater

theorem mem_of_grouped {groups out : List (Cell × List (Segment α))}
    {segments : List (Segment α)} (h : grouped groups segments = .ok out) {t : Segment α}
    (ht : ∃ group ∈ out, t ∈ group.2) : t ∈ segments ∨ ∃ group ∈ groups, t ∈ group.2 := by
  induction segments generalizing groups with
  | nil =>
    cases h
    exact .inr ht
  | cons s rest ih =>
    unfold grouped at h
    cases hc : Cell.of s.start with
    | error e =>
      rw [hc] at h
      cases h
    | ok c =>
      rw [hc] at h
      cases ih h with
      | inl hrest => exact .inl (List.mem_cons_of_mem s hrest)
      | inr hgroups =>
        cases mem_addToGroup hgroups with
        | inl he => exact .inl (he ▸ List.mem_cons_self)
        | inr hg => exact .inr hg

theorem grouped_isOk {segments : List (Segment α)}
    (h : ∀ s ∈ segments, (Cell.of s.start).isOk) (groups : List (Cell × List (Segment α))) :
    ∃ out, grouped groups segments = .ok out := by
  induction segments generalizing groups with
  | nil => exact ⟨groups, rfl⟩
  | cons s rest ih =>
    have hs := h s List.mem_cons_self
    unfold grouped
    cases hc : Cell.of s.start with
    | error e =>
      rw [hc] at hs
      cases hs
    | ok c => exact ih (fun t ht => h t (List.mem_cons_of_mem s ht)) _

/-- Two segments that leave a common joint have an opening between them. -/
theorem mem_openings {g : Graph α} {groups : List (Cell × List (Segment α))}
    {segments : List (Segment α)} (h : grouped [] segments = .ok groups) {a b : Segment α}
    (hab : [a, b].Sublist segments) {cell : Cell} (ha : Cell.of a.start = .ok cell)
    (hb : Cell.of b.start = .ok cell) (hjoint : (g.joint? cell).isSome) :
    (a, b) ∈ g.openings groups := by
  have hcells : ∀ s ∈ [a, b], Cell.of s.start = .ok cell := by
    intro s hs
    rcases List.mem_cons.mp hs with hs | hs
    · exact hs ▸ ha
    · exact List.mem_singleton.mp hs ▸ hb
  have hsub : [a, b].Sublist (groupAt groups cell) := sublist_grouped h hab hcells
  unfold groupAt at hsub
  cases hl : groups.lookup cell with
  | none =>
    rw [hl] at hsub
    cases hsub
  | some group =>
    rw [hl] at hsub
    obtain ⟨before, after, he, _⟩ := List.lookup_eq_some_iff.mp hl
    have hmem : (cell, group) ∈ groups := by simp [he]
    refine List.mem_flatMap.mpr ⟨(cell, group), ?_, mem_pairs_of_sublist hsub⟩
    exact List.mem_filter.mpr ⟨hmem, hjoint⟩

theorem of_mem_openings {g : Graph α} {groups : List (Cell × List (Segment α))}
    {segments : List (Segment α)} (h : grouped [] segments = .ok groups) {a b : Segment α}
    (hab : (a, b) ∈ g.openings groups) : a ∈ segments ∧ b ∈ segments := by
  obtain ⟨group, hg, hmem⟩ := List.mem_flatMap.mp hab
  obtain ⟨ha, hb⟩ := mem_of_mem_pairs hmem
  have hgroup := (List.mem_filter.mp hg).1
  have hin : ∀ t ∈ group.2, t ∈ segments := by
    intro t ht
    refine (mem_of_grouped h ⟨group, hgroup, ht⟩).resolve_right fun hnone => ?_
    obtain ⟨_, hnil, _⟩ := hnone
    cases hnil
  exact ⟨hin a ha, hin b hb⟩

end

/-! ### What a brace is made for -/

/-- A builder that only makes braces; the joints were alive when it began. -/
structure Bracing (was now : World α × Graph α) : Prop where
  added : Added was (was.2.joints.map (·.2)) now
  joints : now.2.joints = was.2.joints
  scale : now.2.scale = was.2.scale
  braced : was.2.braced ⊆ now.2.braced

namespace Bracing

variable {was now later : World α × Graph α}

theorem start {s : World α × Graph α} (hs : s.1.Sound)
    (halive : ∀ j ∈ s.2.joints, s.1.isAlive j.2) : Bracing s s := by
  refine ⟨⟨hs, .refl, ?_⟩, rfl, rfl, fun _ h => h⟩
  intro id hid
  obtain ⟨j, hj, he⟩ := List.mem_map.mp hid
  exact he ▸ halive j hj

theorem alive (h : Bracing was now) : ∀ j ∈ now.2.joints, now.1.isAlive j.2 := by
  intro j hj
  rw [h.joints] at hj
  exact h.added.known j.2 (List.mem_map_of_mem hj)

theorem trans (h : Bracing was now) (h' : Bracing now later) : Bracing was later where
  added := ⟨h'.added.sound, h.added.steps.trans h'.added.steps, h.joints ▸ h'.added.known⟩
  joints := h'.joints.trans h.joints
  scale := h'.scale.trans h.scale
  braced := List.Subset.trans h.braced h'.braced

theorem joint? (h : Bracing was now) (cell : Cell) : now.2.joint? cell = was.2.joint? cell := by
  simp only [Graph.joint?, h.joints]

theorem openings (h : Bracing was now) (groups : List (Cell × List (Segment α))) :
    now.2.openings groups = was.2.openings groups := by
  simp only [Graph.openings, h.joint?]

end Bracing

section
variable [Scalar α]

theorem Bracing.settled {was now : World α × Graph α} (h : Bracing was now) {a b : Segment α}
    (hs : Settled a b was.2) : Settled a b now.2 := by
  obtain ⟨tipA, tipB, hA, hB, hheld⟩ := hs
  refine ⟨tipA, tipB, hA, hB, fun p q hp hq => ?_⟩
  rw [h.joint?] at hp hq
  refine (hheld p q hp hq).imp_right (Or.imp ?_ ?_)
  · exact fun hpair => h.braced hpair
  · exact fun hshort => by rwa [Short, h.scale]

variable {w : World α} {g : Graph α} {was : World α × Graph α} {a b : Segment α}

/-- A brace that does not stop settles its opening. -/
theorem meets_brace_settled (a b : Segment α) : Meets (Bracing was) (brace a b) (Bracing was)
    fun _ s => Bracing was s ∧ Settled a b s.2 := by
  refine Meets.each fun s h => ?_
  obtain ⟨w, g⟩ := s
  apply meets_brace_of
  case hstop => exact fun _ _ => h
  case hsettled => exact fun _ _ hsettled => ⟨h, hsettled⟩
  case hopen =>
    intro tipA tipB p q stiffness rest hopen
    have hp : w.isAlive p := h.alive _ (mem_of_joint? hopen.joints.1)
    have hq : w.isAlive q := h.alive _ (mem_of_joint? hopen.joints.2)
    refine (added_addSpring h.added p q stiffness _ _).weaken fun made t ht => ?_
    obtain ⟨w', g'⟩ := t
    obtain ⟨hadded, hbody, hpair, hmade⟩ := ht
    subst hbody
    refine ⟨fun hnone => ?_, fun serial hs => ?_⟩
    · rw [hnone] at hmade
      cases hmade hp hq hopen.apart
    refine ⟨⟨hadded.record (.brace (hpair serial hs) hopen.free), h.joints, h.scale, ?_⟩,
      tipA, tipB, hopen.cells.1, hopen.cells.2, fun p' q' hp' hq' => .inr (.inl ?_)⟩
    · exact List.subset_cons_of_subset _ h.braced
    · cases hopen.joints.1.symm.trans hp'
      cases hopen.joints.2.symm.trans hq'
      exact List.mem_cons_self

/-- Openings that are worked through one after the other are all settled in the end. -/
theorem meets_bracesFor (openings : List (Segment α × Segment α)) :
    Meets (Bracing was) (forEach openings fun (a, b) => brace a b) (Bracing was)
      fun _ s => Bracing was s ∧ ∀ o ∈ openings, Settled o.1 o.2 s.2 := by
  -- whatever settles the rest began after the first brace, and leaves that opening settled
  induction openings generalizing was with
  | nil => exact Meets.pure fun _ h => ⟨h, fun _ ho => absurd ho List.not_mem_nil⟩
  | cons o rest ih =>
    refine Meets.bind (meets_brace_settled o.1 o.2) fun outcome => Meets.each fun s hs => ?_
    refine Meets.bind ((ih.stop fun t h => hs.1.trans h).of_pre ?_) fun outcomes => Meets.pure ?_
    · intro t he
      subst he
      exact Bracing.start hs.1.added.sound hs.1.alive
    · intro t ht
      refine ⟨hs.1.trans ht.1, fun o' ho => ?_⟩
      rcases List.mem_cons.mp ho with he | ho
      · exact he ▸ ht.1.settled hs.2
      · exact ht.2 o' ho

theorem meets_addBraces_settled (segments : List (Segment α)) :
    Meets (Bracing was) (addBraces segments) (Bracing was) fun _ s => Bracing was s ∧
      ∃ groups, grouped [] segments = .ok groups ∧
        ∀ o ∈ s.2.openings groups, Settled o.1 o.2 s.2 := by
  refine Meets.each fun s h => ?_
  obtain ⟨w, g⟩ := s
  apply meets_addBraces_of
  case hstop => exact fun _ _ => h
  case hall =>
    intro groups hgroups
    refine ((meets_bracesFor _).one h).weaken fun _ s hs => ⟨hs.1, groups, hgroups, ?_⟩
    rw [hs.1.openings, ← h.openings]
    exact hs.2

/-! ### Where all is settled -/

/-- A settled opening is passed over. -/
theorem meets_brace_again (h : Settled a b g) (w : World α) :
    Meets (· = (w, g)) (brace a b) (fun _ => False)
      fun outcome t => outcome.serial? = none ∧ t = (w, g) := by
  have hsettled := h
  obtain ⟨tipA, tipB, hA, hB, hheld⟩ := h
  apply meets_brace_of
  case hstop =>
    intro e he
    rcases he with he | he | he
    · cases hA.symm.trans he
    · cases hB.symm.trans he
    · exact he.1 hsettled
  case hsettled => exact fun _ hnone _ => ⟨hnone, rfl⟩
  case hopen =>
    intro cellA cellB p q stiffness rest hopen
    cases hA.symm.trans hopen.cells.1
    cases hB.symm.trans hopen.cells.2
    rcases hheld p q hopen.joints.1 hopen.joints.2 with hsame | hpair | hshort
    · exact absurd hsame hopen.apart
    · exact absurd hpair hopen.free
    · exact absurd hshort hopen.long

/-- Braces that are all settled are not made again. -/
theorem addBraces_of_settled {segments : List (Segment α)}
    {groups : List (Cell × List (Segment α))} (hgroups : grouped [] segments = .ok groups)
    (h : ∀ o ∈ g.openings groups, Settled o.1 o.2 g) (w : World α) :
    (addBraces segments (w, g)).result = .ok [] ∧ (addBraces segments (w, g)).state = (w, g) := by
  have hagain : Meets (· = (w, g)) (addBraces segments) (fun _ => False)
      fun made t => made = [] ∧ t = (w, g) := by
    apply meets_addBraces_of
    case hstop =>
      intro e he
      cases hgroups.symm.trans he
    case hall =>
      intro groups' hgroups'
      cases hgroups.symm.trans hgroups'
      have hnone := Meets.forEach_all fun o ho => meets_brace_again (h o ho) w
      exact hnone.weaken fun _ _ ht => ⟨List.filterMap_eq_nil_iff.mpr ht.1.2, ht.2⟩
  obtain ⟨made, hmade, hnone, hsame⟩ := hagain.returned rfl
  rw [hmade, hnone]
  exact ⟨rfl, hsame⟩

/-! ### Where braces can be made -/

/-- Segments that braces can be made for: their ends fall into cells, their depths are within range
and their headings a finite angle apart. -/
structure Legible (segments : List (Segment α)) : Prop where
  cells : ∀ s ∈ segments, s.cells.isOk
  depths : ∀ s ∈ segments, (Scalar.ofInt s.depth : Except Fault α).isOk
  angles : ∀ s ∈ segments, ∀ t ∈ segments,
    Scalar.isInfinite (Scalar.abs (s.heading - t.heading)) = false

theorem Legible.of_mem {segments : List (Segment α)} (h : Legible segments) (ha : a ∈ segments) :
    ∃ start tip depth, Cell.of a.start = .ok start ∧ Cell.of a.tip = .ok tip ∧
      (Scalar.ofInt a.depth : Except Fault α) = .ok depth := by
  have hcells := h.cells a ha
  have hdepth := h.depths a ha
  cases hc : a.cells with
  | error e =>
    rw [hc] at hcells
    cases hcells
  | ok ends =>
    cases hd : (Scalar.ofInt a.depth : Except Fault α) with
    | error e =>
      rw [hd] at hdepth
      cases hdepth
    | ok depth =>
      obtain ⟨hstart, htip⟩ := Segment.of_cells hc
      exact ⟨ends.1, ends.2, depth, hstart, htip, rfl⟩

/-- Asking for a spring never stops anyone, and leaves every body as it is. -/
theorem meets_spring_returns (kept : Graph α → Prop) (p q : Option (Point α)) (stiffness : α)
    (rest : Option α) (damping : α) :
    Meets (fun s => kept s.2) (inWorld (World.addSpring p q stiffness rest damping))
      (fun _ => False) fun _ s => kept s.2 := by
  refine .returns fun s hs => ?_
  obtain ⟨notes, he⟩ := World.addSpring_apply p q stiffness rest damping s.1
  rw [inWorld_result, he]
  cases s.1.joinable? p q with
  | none => exact ⟨_, rfl, hs⟩
  | some ends => exact ⟨_, rfl, hs⟩

theorem meets_brace_returns {segments : List (Segment α)} (h : Legible segments)
    (ha : a ∈ segments) (hb : b ∈ segments) :
    Meets (fun _ => True) (brace a b) (fun _ => False) fun _ _ => True := by
  obtain ⟨_, tipA, depth, _, hA, hdepth⟩ := h.of_mem ha
  obtain ⟨_, tipB, _, _, hB, _⟩ := h.of_mem hb
  refine Meets.each fun s _ => ?_
  apply meets_brace_of
  case hstop =>
    intro e he
    rcases he with he | he | ⟨_, he | he⟩
    · cases hA.symm.trans he
    · cases hB.symm.trans he
    · unfold braceLength oppositeSide at he
      rw [h.angles a ha b hb] at he
      cases he
    · cases hdepth.symm.trans he
  case hsettled => exact fun _ _ _ => trivial
  case hopen =>
    intro _ _ p q stiffness rest _
    exact ((meets_spring_returns (fun _ => True) _ _ _ _ _).one trivial).weaken
      fun _ _ _ => ⟨fun _ => trivial, fun _ _ => trivial⟩

/-- Whatever has become of the points of a body, asking for the braces of such segments returns. -/
theorem meets_addBraces_returns {segments : List (Segment α)} (h : Legible segments) :
    Meets (fun _ => True) (addBraces segments) (fun _ => False) fun _ _ => True := by
  have hstarts : ∀ a ∈ segments, (Cell.of a.start).isOk := by
    intro a ha
    obtain ⟨start, _, _, hstart, _⟩ := h.of_mem ha
    rw [hstart]
    rfl
  obtain ⟨groups, hgroups⟩ := grouped_isOk hstarts []
  refine Meets.each fun s _ => ?_
  apply meets_addBraces_of
  case hstop =>
    intro e he
    cases hgroups.symm.trans he
  case hall =>
    intro groups' hgroups'
    have hall : Meets (fun _ => True) (forEach (s.2.openings groups') fun (a, b) => brace a b)
        (fun _ => False) fun _ _ => True := by
      apply Meets.forEach_mem
      intro o ho
      obtain ⟨ha, hb⟩ := of_mem_openings hgroups' ho
      exact meets_brace_returns h ha hb
    exact hall.one trivial

end
end Graph
end Arboretum
