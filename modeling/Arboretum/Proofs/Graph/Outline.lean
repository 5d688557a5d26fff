import Arboretum.Proofs.Graph.Content

/-!
What a body is like if others may also take its points. Segments may then be missing from it, but
each of its strands is that of a segment, and leads along this segment for as long as it is alive.
-/
namespace Arboretum.Graph

open Arboretum.Action

variable {α : Type} {w w' : World α} {g g' : Graph α}

theorem eq_or_mem_of_mem_put {κ β : Type} [BEq κ] [LawfulBEq κ] {key : κ} {value : β}
    {entries : List (κ × β)} {e : κ × β} (h : e ∈ put key value entries) :
    e = (key, value) ∨ e ∈ entries := by
  induction entries with
  | nil => exact .inl (List.mem_singleton.mp h)
  | cons d rest ih =>
    unfold put at h
    split at h
    · rename_i hkey
      rcases List.mem_cons.mp h with rfl | h
      · exact .inl (by rw [beq_iff_eq.mp hkey])
      · exact .inr (List.mem_cons_of_mem d h)
    · rcases List.mem_cons.mp h with rfl | h
      · exact .inr List.mem_cons_self
      · exact (ih h).imp_right (List.mem_cons_of_mem d)

variable [Scalar α]

/-- A spring that joins the joints at the ends of a segment, as long as it is alive. -/
structure Leads (s : World α × Graph α) (serial : Nat) (segment : Segment α) : Prop where
  made : serial < s.1.links.size
  joins : ∀ bond, s.1.bond? serial = some bond →
    s.2.JointOf segment.start bond.a ∧ s.2.JointOf segment.tip bond.b

namespace Leads

variable {serial : Nat} {segment : Segment α}

theorem of_tied {cut : List Nat} {s : World α × Graph α} (h : Tied cut s serial segment) :
    Leads s serial segment := by
  refine ⟨h.made, fun bond hbond => ?_⟩
  have huncut : serial ∉ cut := fun hcut => by cases (h.gone hcut).symm.trans hbond
  obtain ⟨bond', hbond', hends⟩ := h.joins huncut
  cases hbond.symm.trans hbond'
  exact hends

theorem changed (h : Leads (w, g) serial segment) (hw : w.Sound)
    (hc : World.Changes (fun _ => True) w w') : Leads (w', g) serial segment := by
  refine ⟨Nat.lt_of_lt_of_le h.made (hc.onward hw).springs, fun bond hbond => ?_⟩
  have halive : w'.springIsAlive serial := by
    rw [← World.bond?_isSome, hbond]
    rfl
  exact h.joins bond ((hc.bond? hw h.made halive).symm.trans hbond)

theorem kept (h : Leads (w, g) serial segment)
    (hkept : ∀ c i, g.joint? c = some i → g'.joint? c = some i) :
    Leads (w, g') serial segment :=
  ⟨h.made, fun bond hbond => (h.joins bond hbond).imp (·.kept hkept) (·.kept hkept)⟩

theorem body (h : Leads (w, g) serial segment) (hjoints : g'.joints = g.joints) :
    Leads (w, g') serial segment :=
  h.kept fun c i hi => by simpa only [joint?, hjoints] using hi

end Leads

/-- The strands of a body lead along some numbered segments. -/
structure Outlines (strung : List (Nat × Segment α)) (s : World α × Graph α) : Prop where
  sound : s.1.Sound
  numbered : ∀ e ∈ s.2.strands, ∃ index : Nat, (index : Int) = e.1 ∧ (index, e.2.2) ∈ strung
  leads : ∀ e ∈ s.2.strands, Leads s e.2.1 e.2.2

theorem Comprises.outlines {cut : List Nat} {strung : List (Nat × Segment α)}
    {picked : List (Fruit α)} (h : Comprises cut strung picked (w, g)) : Outlines strung (w, g) :=
  ⟨h.sound, fun _ he => h.numbered he, fun e he => .of_tied (h.tied e he)⟩

namespace Outlines

variable {strung : List (Nat × Segment α)}

/-- Others change the world as they like. -/
theorem changed (h : Outlines strung (w, g)) (hc : World.Changes (fun _ => True) w w') :
    Outlines strung (w', g) :=
  ⟨hc.sound h.sound, h.numbered, fun e he => (h.leads e he).changed h.sound hc⟩

theorem body (h : Outlines strung (w, g)) (hjoints : g'.joints = g.joints)
    (hstrands : g'.strands = g.strands) : Outlines strung (w, g') :=
  ⟨h.sound, hstrands ▸ h.numbered, fun e he => (h.leads e (hstrands ▸ he)).body hjoints⟩

theorem joint (h : Outlines strung (w, g)) (cell : Cell) (id : Nat) :
    Outlines strung (w, { g with joints := g.joints ++ [(cell, id)] }) := by
  refine ⟨h.sound, h.numbered, fun e he => (h.leads e he).kept fun c i hi => ?_⟩
  rw [joint?_append, hi, Option.some_or]

theorem strand (h : Outlines strung (w, g)) {serial index : Nat} {s : Segment α}
    (hleads : Leads (w, g) serial s) :
    Outlines (strung ++ [(index, s)])
      (w, { g with strands := put (index : Int) (serial, s) g.strands }) := by
  refine ⟨h.sound, fun e he => ?_, fun e he => ?_⟩
  · rcases eq_or_mem_of_mem_put he with rfl | he
    · exact ⟨index, rfl, List.mem_append_right _ (List.mem_singleton_self _)⟩
    · obtain ⟨i, hi, hmem⟩ := h.numbered e he
      exact ⟨i, hi, List.mem_append_left _ hmem⟩
  · rcases eq_or_mem_of_mem_put he with rfl | he
    · exact hleads.body rfl
    · exact (h.leads e he).body rfl

theorem more (h : Outlines strung (w, g)) (later : List (Nat × Segment α)) :
    Outlines (strung ++ later) (w, g) := by
  refine ⟨h.sound, fun e he => ?_, h.leads⟩
  obtain ⟨i, hi, hmem⟩ := h.numbered e he
  exact ⟨i, hi, List.mem_append_left later hmem⟩

end Outlines

/-! ### Building -/

variable {strung : List (Nat × Segment α)}

/-- What changes the world leaves the outline of a body. -/
theorem keeps_outline {ρ : Type} {x : Action (Note α) (World α) ρ}
    (hx : ∀ w, World.Changes (fun _ => True) w (x w).state) :
    Keeps (Outlines strung) (inWorld x) :=
  fun s hs => hs.changed (hx s.1)

/-- A spring between points as the builder sees them joins just these. -/
theorem meets_addSpring_outline (h : Outlines strung (w, g)) (a b : Nat) (stiffness : α)
    (rest : Option α) (damping : α) :
    Meets (· = (w, g))
      (inWorld (World.addSpring (some (w.point a)) (some (w.point b)) stiffness rest damping))
      (Outlines strung) fun made t => Outlines strung t ∧ t.2 = g ∧
        ∀ serial, made = some serial → serial < t.1.links.size ∧
          ∃ bond, t.1.bond? serial = some bond ∧ bond.a = a ∧ bond.b = b := by
  refine .returns fun s hs => ?_
  subst hs
  obtain ⟨notes, he⟩ :=
    World.addSpring_apply (some (w.point a)) (some (w.point b)) stiffness rest damping w
  have hsees : ∀ c : Nat, ∀ p ∈ some (w.point c), w.Sees p := by
    intro c p hp
    cases hp
    exact fun _ => rfl
  have houtline := h.changed (World.changes_addSpring (hsees a) (hsees b) stiffness rest damping)
  have hj := World.joinable?_point h.sound a b
  rw [inWorld_result, inWorld_state]
  rw [he] at houtline ⊢
  cases hjoin : w.joinable? (some (w.point a)) (some (w.point b)) with
  | none => exact ⟨none, rfl, h, rfl, fun serial hmade => (by cases hmade)⟩
  | some ends =>
    obtain ⟨p, hp, hq⟩ := Option.bind_eq_some_iff.mp (hj.symm.trans hjoin)
    obtain ⟨q, hq, hends⟩ := Option.bind_eq_some_iff.mp hq
    split at hends
    · cases hends
    · cases hends
      rw [hjoin] at houtline
      refine ⟨_, rfl, houtline, rfl, fun serial hmade => ?_⟩
      cases hmade
      have hbond := World.bond?_link w a b (World.stiffnessOf stiffness) damping
        (World.restLength p.position q.position rest) w.links.size
      rw [if_pos rfl] at hbond
      exact ⟨by simp [World.link], _, hbond, rfl, rfl⟩

/-- Asking for a joint leaves the outline of a body, also where it stops. -/
theorem meets_jointAt_outline (h : Outlines strung (w, g)) (cell : Cell) (spot : Vec α) (mass : α)
    (fixed : Bool) :
    Meets (· = (w, g)) (jointAt cell spot mass fixed) (Outlines strung)
      fun id t => Outlines strung t ∧ t.2.joint? cell = some id ∧
        ∀ c i, g.joint? c = some i → t.2.joint? c = some i := by
  apply meets_jointAt_of
  case hnew =>
    intro hj s hs
    subst hs
    have hadded := h.changed (World.changes_addPoint spot mass fixed trivial w)
    refine ⟨fun _ _ => hadded, fun id _ => ⟨hadded.joint cell id, ?_, fun c i hi => ?_⟩⟩
    · simp [joint?_append, hj]
    · rw [joint?_append, inWorld_state, hi, Option.some_or]
  case hlost => exact fun _ _ _ _ _ => h
  case hfound => exact fun id hj _ => ⟨h, hj, fun _ _ hi => hi⟩
  case hpinned =>
    intro id _ hj _ _ _ s hs
    subst hs
    have hpinned := h.changed (World.changes_pin (w.point id) w)
    exact ⟨fun _ _ => hpinned, fun _ _ => ⟨hpinned, hj, fun _ _ hi => hi⟩⟩

/-- A numbered segment adds itself to the outline of a body, or nothing. -/
theorem meets_materialize_outline (h : Outlines strung (w, g)) (s : Segment α) (index : Nat) :
    Meets (· = (w, g)) (materialize s (some index)) (Outlines strung) fun _ t =>
      Outlines (strung ++ if s.Spans then [(index, s)] else []) t := by
  cases hcells : s.cells with
  | error e =>
    rw [materialize_unread hcells]
    exact .fail fun _ ht => ht ▸ h
  | ok ends =>
    obtain ⟨start, tip⟩ := ends
    by_cases hne : start = tip
    · subst tip
      rw [materialize_within hcells]
      exact Meets.bind (.note _) fun _ => .pure fun _ ht => ht ▸ h.more _
    obtain ⟨hstart, htip⟩ := Segment.of_cells hcells
    rw [if_pos ⟨start, tip, hcells, hne⟩]
    apply meets_materialize_between hcells hne
      (fun a t => Outlines strung t ∧ t.2.joint? start = some a)
      fun a b t => Outlines strung t ∧ t.2.joint? start = some a ∧ t.2.joint? tip = some b
    case hdepth => exact fun _ _ => h
    case hstart =>
      intro spot mass
      exact (meets_jointAt_outline h start spot mass s.isRoot).weaken fun a t ht => ⟨ht.1, ht.2.1⟩
    case hseen => exact fun _ _ _ ha _ => ha.1
    case htip =>
      intro a spot mass
      refine Meets.each fun t ha => ?_
      exact (meets_jointAt_outline ha.1 tip spot mass s.isRoot).weaken fun b t' hb =>
        ⟨hb.1, hb.2.2 start a ha.2, hb.2.1⟩
    case hspring =>
      intro a b w' g' stiffness hends
      obtain ⟨hw', ha, hb⟩ := hends
      refine (meets_addSpring_outline hw' a b stiffness _ _).weaken fun made t ht => ?_
      obtain ⟨w'', g''⟩ := t
      obtain ⟨houtline, rfl, hmade⟩ := ht
      refine ⟨fun _ => houtline.more _, fun serial i hs hi => ?_⟩
      cases hi
      obtain ⟨hlt, bond, hbond, rfl, rfl⟩ := hmade serial hs
      refine houtline.strand ⟨hlt, fun bond' hbond' => ?_⟩
      cases hbond.symm.trans hbond'
      exact ⟨⟨start, hstart, ha⟩, tip, htip, hb⟩

theorem keeps_brace_outline (a b : Segment α) : Keeps (Outlines strung) (brace a b) := by
  apply keeps_brace_of
  intro w g _ _ p q stiffness rest h _
  refine (meets_addSpring_outline h p q stiffness _ _).weaken fun made t ht => ?_
  exact ⟨ht.1, fun _ _ => ht.1.body rfl rfl⟩

theorem keeps_addBraces_outline (segments : List (Segment α)) :
    Keeps (Outlines strung) (addBraces segments) := keeps_addBraces_of keeps_brace_outline

theorem keeps_hang_outline (index : PointIndex α Nat) (f : Fruit α) :
    Keeps (Outlines strung) (hang index f) := by
  apply Meets.keeps
  refine Meets.each fun s h => ?_
  apply meets_hang_of fun _ _ => Outlines strung
  case hunhung => exact fun _ => h
  case hpoint =>
    intro _ _
    exact (keeps_outline fun w => World.changes_addPoint _ _ _ trivial w).meets.one h
  case hspring =>
    intro joint point w' g' hseated
    refine (meets_addSpring_outline hseated joint point _ _ _).weaken fun made t ht => ?_
    refine ⟨fun _ => ?_, fun _ _ => ht.1.body rfl rfl⟩
    exact (keeps_outline fun w => World.changes_removePoint _ w).meets.one ht.1

theorem keeps_hangAll_outline (fruits : List (Fruit α)) :
    Keeps (Outlines strung) (hangAll fruits) := by
  apply Meets.keeps
  refine Meets.each fun s h => ?_
  apply meets_hangAll_of
  case hnone => exact fun _ => h
  case hstop => exact fun _ _ => h
  case hall =>
    intro _ index _ _ _
    have hall : Keeps (Outlines strung) (forEach fruits (hang index)) :=
      .forEach _ fun f _ => keeps_hang_outline index f
    exact hall.meets.one h

end Arboretum.Graph
