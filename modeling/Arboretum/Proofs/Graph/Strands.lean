import Arboretum.Proofs.Binary64.Arithmetic
import Arboretum.Proofs.Graph.Joints

/-!
Whatever segments a body is built of and however its world moves meanwhile, end points share a joint
just if they fall into one cell, and a segment becomes one strand between the joints of its cells.
-/
namespace Arboretum

open Arboretum.Action

variable {α : Type}

/-- A segment between two cells needs a joint in each of them. -/
def Segment.Needs [Scalar α] (s : Segment α) (cell : Cell) : Prop :=
  ∃ start tip, s.cells = .ok (start, tip) ∧ start ≠ tip ∧ (cell = start ∨ cell = tip)

theorem Segment.needs_iff [Scalar α] {s : Segment α} {start tip : Cell}
    (hcells : s.cells = .ok (start, tip)) (hne : start ≠ tip) (cell : Cell) :
    s.Needs cell ↔ cell = start ∨ cell = tip := by
  constructor
  · rintro ⟨start', tip', hends, -, hc⟩
    cases hcells.symm.trans hends
    exact hc
  · exact fun hc => ⟨start, tip, hcells, hne, hc⟩

/-- A segment within one cell needs nothing. -/
theorem Segment.not_needs [Scalar α] {s : Segment α} {cell : Cell}
    (hcells : s.cells = .ok (cell, cell)) (c : Cell) : ¬ s.Needs c := by
  rintro ⟨start, tip, hends, hne, -⟩
  cases hcells.symm.trans hends
  exact hne rfl

/-- A segment between two cells. -/
def Segment.Spans [Scalar α] (s : Segment α) : Prop :=
  ∃ start tip, s.cells = .ok (start, tip) ∧ start ≠ tip

instance [Scalar α] (s : Segment α) : Decidable s.Spans :=
  match h : s.cells with
  | .ok (start, tip) =>
    decidable_of_iff (start ≠ tip) <| by
      simp only [Segment.Spans, h, Except.ok.injEq, Prod.mk.injEq]
      exact ⟨fun hne => ⟨start, tip, ⟨rfl, rfl⟩, hne⟩, fun ⟨_, _, ⟨hs, ht⟩, hne⟩ => hs ▸ ht ▸ hne⟩
  | .error _ => isFalse fun ⟨_, _, hcells, _⟩ => by cases h.symm.trans hcells

namespace Graph

/-- A point is the joint of a place in a body. -/
def JointOf [Scalar α] (g : Graph α) (p : Vec α) (id : Nat) : Prop :=
  ∃ cell, Cell.of p = .ok cell ∧ g.joint? cell = some id

instance [Scalar α] (g : Graph α) (p : Vec α) (id : Nat) : Decidable (g.JointOf p id) :=
  match h : Cell.of p with
  | .ok cell =>
    decidable_of_iff (g.joint? cell = some id) <| by
      simp only [JointOf, h, Except.ok.injEq]
      exact ⟨fun hid => ⟨cell, rfl, hid⟩, fun ⟨_, hcell, hid⟩ => hcell ▸ hid⟩
  | .error _ => isFalse fun ⟨_, hcell, _⟩ => by cases h.symm.trans hcell

section
variable [Scalar α] {w : World α} {g : Graph α}

/-- Two different points alive can be joined, with any length at rest that is not below zero. -/
theorem meets_join (hw : w.Sound) {a b : Nat} (ha : w.isAlive a) (hb : w.isAlive b) (hne : a ≠ b)
    (stiffness damping rest : α) :
    Meets (· = (w, g)) (inWorld (World.addSpring (some (w.point a)) (some (w.point b)) stiffness
        (some rest) damping)) (fun _ => False) fun made t => made = some w.links.size ∧
        ∃ held, (¬ rest < 0 → held = rest) ∧
          t = (w.link a b (World.stiffnessOf stiffness) damping held, g) := by
  refine .returns ?_
  rintro _ rfl
  obtain ⟨notes, he⟩ :=
    World.addSpring_apply (some (w.point a)) (some (w.point b)) stiffness (some rest) damping w
  obtain ⟨p, hp⟩ := Option.isSome_iff_exists.mp ((hw.particle?_isSome a).trans ha)
  obtain ⟨q, hq⟩ := Option.isSome_iff_exists.mp ((hw.particle?_isSome b).trans hb)
  simp only [World.joinable?_point hw, hp, hq, Option.bind_some, if_neg hne] at he
  rw [inWorld_result, inWorld_state, he]
  exact ⟨_, rfl, rfl, _, fun hrest => if_neg hrest, rfl⟩

omit [Scalar α] in
/-- The joints of two cells are two points alive. -/
theorem Given.ends {start tip : Cell} (hne : start ≠ tip) {a b : Nat} {s₀ s₁ s₂ : World α × Graph α}
    (h₁ : Given start s₀ a s₁) (h₂ : Given tip s₁ b s₂) :
    s₂.2.joint? start = some a ∧ a ≠ b ∧ s₂.1.isAlive a ∧ s₂.1.isAlive b := by
  have hstart : s₂.2.joint? start = some a := (h₂.others start hne).trans h₁.joint
  exact ⟨hstart, fun he => hne ((h₂.fitted.joint_eq hstart h₂.joint).mp he),
    h₂.fitted.alive_of_joint? hstart, h₂.fitted.alive_of_joint? h₂.joint⟩

omit [Scalar α] in
/-- A spring between the joints of two cells leaves room and the joints. -/
theorem Given.link {start tip : Cell} (hne : start ≠ tip) {a b : Nat} {s₀ s₁ s₂ : World α × Graph α}
    (h₁ : Given start s₀ a s₁) (h₂ : Given tip s₁ b s₂) {g' : Graph α}
    (hjoints : g'.joints = s₂.2.joints) (stiffness damping rest : α) :
    (s₂.1.link a b stiffness damping rest).Ready ∧
      Fitted (s₂.1.link a b stiffness damping rest) g' := by
  obtain ⟨-, hab, ha, hb⟩ := h₁.ends hne h₂
  have hc : World.Changes (fun _ => True) s₂.1 _ :=
    (World.Change.link a b hab ha hb stiffness damping rest).changes
  have hfitted := h₂.fitted
  exact ⟨hc.ready h₂.ready, hjoints ▸ hfitted.cells, hjoints ▸ hfitted.points,
    hjoints ▸ hfitted.alive⟩

omit [Scalar α] in
/-- After two cells are asked for, there are their joints and those that were there. -/
theorem Given.joints {start tip : Cell} {a b : Nat} {s₀ s₁ s₂ : World α × Graph α}
    (h₁ : Given start s₀ a s₁) (h₂ : Given tip s₁ b s₂) (c : Cell) :
    (s₂.2.joint? c).isSome ↔ (s₀.2.joint? c).isSome ∨ c = start ∨ c = tip := by
  by_cases hc : c = tip
  · simp [hc, h₂.joint]
  · rw [h₂.others c hc]
    by_cases hc' : c = start
    · simp [hc', h₁.joint]
    · simp [h₁.others c hc', hc, hc']

/-- What comes of a segment between two cells: the joints that were missing, each of them a new
point, and a new strand. -/
structure Strung (s : Segment α) (start tip : Cell) (was : World α × Graph α) (serial : Nat)
    (now : World α × Graph α) : Prop where
  ready : now.1.Ready
  fitted : Fitted now.1 now.2
  scale : now.2.scale = was.2.scale
  grew : was.1.Grew now.1
  count : now.1.count = was.1.count + [start, tip].countP fun c => (was.2.joint? c).isNone
  joints : ∀ c, (now.2.joint? c).isSome ↔ (was.2.joint? c).isSome ∨ c = start ∨ c = tip
  kept : ∀ c id, was.2.joint? c = some id → now.2.joint? c = some id
  fresh : ∀ c id, was.2.joint? c = none → now.2.joint? c = some id → was.1.slots.size ≤ id
  springs : now.1.springs.size = was.1.springs.size + 1
  new : was.1.links.size ≤ serial
  strand : ∃ a b stiffness damping, now.2.joint? start = some a ∧ now.2.joint? tip = some b ∧
    now.1.bond? serial = some ⟨a, b, stiffness, damping, s.length * was.2.scale⟩

/-- Two joints and a strand between them. -/
theorem Strung.of_given {s : Segment α} {start tip : Cell} (hne : start ≠ tip) {a b : Nat}
    {s₀ s₁ : World α × Graph α} {w₂ : World α} {g₂ g' : Graph α} (h₁ : Given start s₀ a s₁)
    (h₂ : Given tip s₁ b (w₂, g₂)) (hjoints : g'.joints = g₂.joints) (hscale : g'.scale = g₂.scale)
    (stiffness damping : α) :
    Strung s start tip s₀ w₂.links.size
      (w₂.link a b stiffness damping (s.length * s₀.2.scale), g') := by
  have hjoint? (c : Cell) : g'.joint? c = g₂.joint? c := by simp only [joint?, hjoints]
  obtain ⟨hstart, hab, ha, hb⟩ := h₁.ends hne h₂
  have htip : s₁.2.joint? tip = s₀.2.joint? tip := h₁.others tip hne.symm
  have hgrew := h₁.grew.trans h₂.grew
  obtain ⟨hready, hfitted⟩ := h₁.link hne h₂ hjoints stiffness damping (s.length * s₀.2.scale)
  refine ⟨hready, hfitted, hscale.trans (h₂.scale.trans h₁.scale),
    hgrew.trans (World.grew_link w₂ a b _ _ _), ?_, ?_, ?_, ?_, ?_, hgrew.springs, a, b, stiffness,
    damping, ?_, ?_, ?_⟩
  · have hcount : w₂.count = _ := h₂.count
    rw [htip, h₁.count, Nat.add_right_comm] at hcount
    simpa [World.link, World.count, List.countP_cons, Nat.add_assoc] using hcount
  · intro c
    rw [hjoint?]
    exact h₁.joints h₂ c
  · intro c id hid
    rw [hjoint?]
    exact h₂.kept c id (h₁.kept c id hid)
  · intro c id hnone hid
    rw [hjoint?] at hid
    cases hmid : s₁.2.joint? c with
    | none => exact h₁.grew.points.trans (h₂.fresh c id hmid hid)
    | some i =>
      cases hid.symm.trans (h₂.kept c i hmid)
      exact h₁.fresh c id hnone hmid
  · have hsprings : w₂.springs = _ := h₂.springs.trans h₁.springs
    rw [← hsprings]
    exact Array.size_push _
  · rw [hjoint?, hstart]
  · rw [hjoint?, h₂.joint]
  · rw [World.bond?_link, if_pos rfl]

/-- A segment between two cells gets its joints and a spring between them, if its depth can be read
and the world ever had room. What more is known of a joint that is asked for, is known of both. -/
theorem meets_materialize_linked_of {s : Segment α}
    (asked : Cell → World α × Graph α → Nat → World α × Graph α → Prop)
    (hgiven : ∀ cell was id now, asked cell was id now → Given cell was id now)
    (hjoint : ∀ w g cell spot mass, w.Ready → Fitted w g → Meets (· = (w, g))
      (jointAt cell spot mass s.isRoot) (fun _ => False) fun id t => asked cell (w, g) id t)
    (hw : w.Ready) (hf : Fitted w g) {start tip : Cell} (hcells : s.cells = .ok (start, tip))
    (hne : start ≠ tip) {depth : α} (hdepth : Scalar.ofInt s.depth = .ok depth)
    (index : Option Int) :
    Meets (· = (w, g)) (materialize s index) (fun _ => False) fun made t =>
      ∃ a b s₁ w₂ g₂ stiffness rest, asked start (w, g) a s₁ ∧ asked tip s₁ b (w₂, g₂) ∧
        (¬ s.length * g.scale < 0 → rest = s.length * g.scale) ∧ made = some w₂.links.size ∧
        t.1 = w₂.link a b stiffness World.defaultDamping rest ∧
        t.2.joints = g₂.joints ∧ t.2.scale = g₂.scale := by
  apply meets_materialize_between hcells hne (fun a t => asked start (w, g) a t)
    fun a b t => ∃ s, asked start (w, g) a s ∧ asked tip s b t
  case hdepth =>
    intro e he
    cases hdepth.symm.trans he
  case hstart => exact fun spot mass => hjoint w g start spot mass hw hf
  case hseen =>
    intro a t e ha he
    have ha := hgiven _ _ _ _ ha
    obtain ⟨p, hread⟩ := ha.ready.particle_of_alive (ha.fitted.alive_of_joint? ha.joint)
    cases hread.symm.trans he
  case htip =>
    intro a spot mass
    refine Meets.each fun t ha => ?_
    have hstart := hgiven _ _ _ _ ha
    have htip := hjoint t.1 t.2 tip spot mass hstart.ready hstart.fitted
    exact htip.weaken fun _ _ hb => ⟨t, ha, hb⟩
  case hspring =>
    intro a b w' g' stiffness hends
    obtain ⟨t, ha, hb⟩ := hends
    have hend := hgiven _ _ _ _ hb
    obtain ⟨-, hab, halive, halive'⟩ := (hgiven _ _ _ _ ha).ends hne hend
    refine (meets_join hend.ready.toSound halive halive' hab _ _ _).weaken fun made t' ht => ?_
    obtain ⟨rfl, rest, hrest, rfl⟩ := ht
    exact ⟨fun _ => ⟨a, b, t, w', g', _, rest, ha, hb, hrest, rfl, rfl, rfl, rfl⟩,
      fun _ _ _ _ => ⟨a, b, t, w', g', _, rest, ha, hb, hrest, rfl, rfl, rfl, rfl⟩⟩

/-- A segment between two cells gets its joints and a spring between them, if its depth can be read
and the world ever had room. -/
theorem meets_materialize_linked (hw : w.Ready) (hf : Fitted w g) {s : Segment α} {start tip : Cell}
    (hcells : s.cells = .ok (start, tip)) (hne : start ≠ tip) {depth : α}
    (hdepth : Scalar.ofInt s.depth = .ok depth) (index : Option Int) :
    Meets (· = (w, g)) (materialize s index) (fun _ => False) fun made t =>
      ∃ a b s₁ w₂ g₂ stiffness rest, Given start (w, g) a s₁ ∧ Given tip s₁ b (w₂, g₂) ∧
        (¬ s.length * g.scale < 0 → rest = s.length * g.scale) ∧ made = some w₂.links.size ∧
        t.1 = w₂.link a b stiffness World.defaultDamping rest ∧
        t.2.joints = g₂.joints ∧ t.2.scale = g₂.scale :=
  meets_materialize_linked_of Given (fun _ _ _ _ h => h)
    (fun _ _ cell spot mass hw hf => meets_jointAt_given hw hf cell spot mass s.isRoot)
    hw hf hcells hne hdepth index

/-- A segment between two cells is strung, if its depth can be read and the world ever had room. -/
theorem meets_materialize_strung (hw : w.Ready) (hf : Fitted w g) {s : Segment α}
    (hlength : ¬ s.length * g.scale < 0) {start tip : Cell} (hcells : s.cells = .ok (start, tip))
    (hne : start ≠ tip) {depth : α} (hdepth : Scalar.ofInt s.depth = .ok depth)
    (index : Option Int) :
    Meets (· = (w, g)) (materialize s index) (fun _ => False)
      fun made t => ∃ serial, made = some serial ∧ Strung s start tip (w, g) serial t := by
  refine (meets_materialize_linked hw hf hcells hne hdepth index).weaken fun made t ht => ?_
  obtain ⟨a, b, s₁, w₂, g₂, stiffness, rest, ha, hb, hrest, rfl, hlinked, hjoints, hscale⟩ := ht
  rw [hrest hlength] at hlinked
  obtain ⟨w', g'⟩ := t
  obtain rfl : w' = _ := hlinked
  exact ⟨_, rfl, .of_given hne ha hb hjoints hscale _ _⟩

/-- A segment whose cells and depth can be read is built, if the world ever had room. -/
theorem meets_materialize_fitted {s : Segment α} (hcells : Gives s.cells)
    (hdepth : Gives (Scalar.ofInt s.depth : Except Fault α)) (index : Option Int) :
    Meets (fun t => t.1.Ready ∧ Fitted t.1 t.2) (materialize s index) (fun _ => False)
      fun _ t => t.1.Ready ∧ Fitted t.1 t.2 := by
  obtain ⟨⟨start, tip⟩, hcells⟩ := hcells
  obtain ⟨depth, hdepth⟩ := hdepth
  refine Meets.each fun t ht => ?_
  obtain ⟨w, g⟩ := t
  by_cases hne : start = tip
  · subst tip
    rw [materialize_within hcells]
    exact Meets.bind (.note _) fun _ => .pure fun _ he => he ▸ ht
  refine (meets_materialize_linked ht.1 ht.2 hcells hne hdepth index).weaken fun made t' ht' => ?_
  obtain ⟨a, b, s₁, w₂, g₂, stiffness, rest, ha, hb, -, -, hlinked, hjoints, -⟩ := ht'
  rw [hlinked]
  exact ha.link hne hb hjoints _ _ _

/-- In a world without any room, nothing gets its first joint. -/
theorem meets_materialize_crowded (hroom : w.capacity = 0) {s : Segment α} {start tip : Cell}
    (hcells : s.cells = .ok (start, tip)) (hne : start ≠ tip) (hjoint : g.joint? start = none)
    (index : Option Int) :
    Meets (· = (w, g)) (materialize s index) (· = (w, g)) fun _ _ => False := by
  have hpoint (spot : Vec α) (mass : α) (fixed : Bool) : Meets (· = (w, g))
      (inWorld (World.addPoint spot mass fixed)) (· = (w, g)) fun _ _ => False := by
    intro s hs
    subst hs
    obtain ⟨notes, he⟩ := World.addPoint_apply spot mass fixed w
    have hfull : w.capacity ≤ w.count := by omega
    rw [World.roomy_of_capacity_eq_zero hroom, if_pos hfull] at he
    rw [inWorld_result, inWorld_state, he]
    exact ⟨fun _ _ => rfl, fun _ h => by cases h⟩
  have hnone (spot : Vec α) (mass : α) (fixed : Bool) :
      Meets (· = (w, g)) (jointAt start spot mass fixed) (· = (w, g)) fun _ _ => False := by
    apply meets_jointAt_of
    case hnew => exact fun _ => hpoint spot mass fixed
    case hlost => exact fun _ _ _ _ _ => rfl
    case hfound =>
      intro id hj
      cases hjoint.symm.trans hj
    case hpinned =>
      intro id p hj
      cases hjoint.symm.trans hj
  apply meets_materialize_between hcells hne (fun _ _ => False) fun _ _ _ => False
  case hdepth => exact fun _ _ => rfl
  case hstart => exact fun spot mass => hnone spot mass s.isRoot
  case hseen => exact fun _ _ _ h => h.elim
  case htip => exact fun _ _ _ _ h => h.elim
  case hspring => exact fun _ _ _ _ _ h => h.elim

/-- What comes of a segment: nothing where it cannot be read or stays within one cell, else a
strand, unless its depth is out of range or the world never had room for a point. -/
structure Outcome (s : Segment α) (was : World α × Graph α)
    (report : Report (Note α) (World α × Graph α) (Option Nat)) : Prop where
  unreadable : ∀ e, s.cells = .error e → report.result = .error e ∧ report.state = was
  collapsed : ∀ cell, s.cells = .ok (cell, cell) → report.result = .ok none ∧ report.state = was
  strung : ∀ start tip, s.cells = .ok (start, tip) → start ≠ tip →
    (Scalar.ofInt s.depth : Except Fault α).isOk → 1 ≤ was.1.capacity →
    ∃ serial, report.result = .ok (some serial) ∧ Strung s start tip was serial report.state
  refused : ∀ start tip, s.cells = .ok (start, tip) → start ≠ tip →
    ¬ ((Scalar.ofInt s.depth : Except Fault α).isOk ∧ 1 ≤ was.1.capacity) →
    (∃ e, report.result = .error e) ∧ report.state = was

theorem Outcome.cases {s : Segment α} {was : World α × Graph α}
    {report : Report (Note α) (World α × Graph α) (Option Nat)} (h : Outcome s was report) :
    (∃ e, report.result = .error e ∧ report.state = was) ∨
    (∃ cell, s.cells = .ok (cell, cell) ∧ report.result = .ok none ∧ report.state = was) ∨
    ∃ start tip serial, s.cells = .ok (start, tip) ∧ start ≠ tip ∧
      report.result = .ok (some serial) ∧ Strung s start tip was serial report.state := by
  cases hcells : s.cells with
  | error e => exact .inl ⟨e, h.unreadable e hcells⟩
  | ok ends =>
    obtain ⟨start, tip⟩ := ends
    by_cases hne : start = tip
    · subst tip
      exact .inr (.inl ⟨start, rfl, h.collapsed start hcells⟩)
    · by_cases hcan : (Scalar.ofInt s.depth : Except Fault α).isOk ∧ 1 ≤ was.1.capacity
      · obtain ⟨serial, hok, hstrung⟩ := h.strung start tip hcells hne hcan.1 hcan.2
        exact .inr (.inr ⟨start, tip, serial, rfl, hne, hok, hstrung⟩)
      · obtain ⟨⟨e, he⟩, hsame⟩ := h.refused start tip hcells hne hcan
        exact .inl ⟨e, he, hsame⟩

theorem materialize_outcome (hw : w.Sound) (hf : Fitted w g) (s : Segment α)
    (hlength : ¬ s.length * g.scale < 0) (index : Option Int) :
    Outcome s (w, g) (materialize s index (w, g)) where
  unreadable e h := by
    rw [materialize_unread h]
    exact ⟨rfl, rfl⟩
  collapsed cell h := by
    rw [materialize_within h]
    exact ⟨rfl, rfl⟩
  strung start tip h hne hdepth hroom := by
    cases hd : (Scalar.ofInt s.depth : Except Fault α) with
    | error e =>
      rw [hd] at hdepth
      cases hdepth
    | ok depth =>
      obtain ⟨made, hmade, serial, rfl, hstrung⟩ :=
        (meets_materialize_strung ⟨hw, hroom⟩ hf hlength h hne hd index).returned rfl
      exact ⟨serial, hmade, hstrung⟩
  refused start tip h hne hnot := by
    by_cases hroom : w.capacity = 0
    · have hjoint : g.joint? start = none := by
        cases hj : g.joint? start with
        | none => rfl
        | some id =>
          have hpos := hw.capacity_pos (hf.alive_of_joint? hj)
          omega
      obtain ⟨e, he, hsame⟩ := (meets_materialize_crowded hroom h hne hjoint index).stopped rfl
      exact ⟨⟨e, he⟩, hsame⟩
    · cases hd : (Scalar.ofInt s.depth : Except Fault α) with
      | error e =>
        rw [materialize_unmeasured h hne hd]
        exact ⟨⟨e, rfl⟩, rfl⟩
      | ok depth =>
        rw [hd] at hnot
        exact absurd ⟨rfl, Nat.pos_of_ne_zero hroom⟩ hnot

/-- A body that is built in a world. Others may use the world meanwhile, as long as they leave the
joints alive. The segments are those that were asked for and did not stop the builder. -/
inductive Site (scale : α) : List (Segment α) → World α → Graph α → Prop where
  | start {w : World α} (hw : w.Reached) (origin : Vec α) : Site scale [] w (.new origin scale)
  | segment {past : List (Segment α)} {w : World α} {g : Graph α} (h : Site scale past w g)
      (s : Segment α) (index : Option Int) (hok : (materialize s index (w, g)).result.isOk) :
      Site scale (past ++ [s]) (materialize s index (w, g)).state.1
        (materialize s index (w, g)).state.2
  | stopped {past : List (Segment α)} {w : World α} {g : Graph α} (h : Site scale past w g)
      (s : Segment α) (index : Option Int) (hstop : ¬ (materialize s index (w, g)).result.isOk) :
      Site scale past (materialize s index (w, g)).state.1 (materialize s index (w, g)).state.2
  | step {past : List (Segment α)} {w : World α} {g : Graph α} (h : Site scale past w g) (dt : α) :
      Site scale past (w.step dt) g
  | edit {past : List (Segment α)} {w : World α} {g : Graph α} (h : Site scale past w g)
      (e : Edit α {p : Point α // w.Sees p} Spring)
      (hstay : ∀ j ∈ g.joints, (e.run Subtype.val id w).state.isAlive j.2) :
      Site scale past (e.run Subtype.val id w).state g

/-- The joints of a body are those that its segments need. -/
structure Jointed (scale : α) (past : List (Segment α)) (w : World α) (g : Graph α) : Prop where
  sound : w.Sound
  fitted : Fitted w g
  scale : g.scale = scale
  needed : ∀ cell, (g.joint? cell).isSome ↔ ∃ s ∈ past, s.Needs cell

namespace Jointed

variable {scale : α} {past : List (Segment α)} {s : Segment α}

theorem moved {w' : World α} (h : Jointed scale past w g) (hs : w'.Sound)
    (hstay : ∀ j ∈ g.joints, w'.isAlive j.2) : Jointed scale past w' g :=
  ⟨hs, h.fitted.world hstay, h.scale, h.needed⟩

theorem collapsed (h : Jointed scale past w g) {cell : Cell} (hcells : s.cells = .ok (cell, cell)) :
    Jointed scale (past ++ [s]) w g where
  sound := h.sound
  fitted := h.fitted
  scale := h.scale
  needed c := by
    simp [h.needed, or_and_right, exists_or, Segment.not_needs hcells c]

theorem strung (h : Jointed scale past w g) {start tip : Cell} (hcells : s.cells = .ok (start, tip))
    (hne : start ≠ tip) {serial : Nat} {t : World α × Graph α}
    (hs : Strung s start tip (w, g) serial t) : Jointed scale (past ++ [s]) t.1 t.2 where
  sound := hs.ready.toSound
  fitted := hs.fitted
  scale := hs.scale.trans h.scale
  needed c := by
    rw [hs.joints]
    simp [h.needed, or_and_right, exists_or, Segment.needs_iff hcells hne c]

end Jointed

variable [Scalar.Lawful α] {scale : α} {past : List (Segment α)}

theorem Jointed.outcome (hscale : 0 < scale) (h : Jointed scale past w g) (s : Segment α)
    (index : Option Int) : Outcome s (w, g) (materialize s index (w, g)) := by
  refine materialize_outcome h.sound h.fitted s ?_ index
  rw [h.scale]
  exact Scalar.Lawful.not_mul_lt_zero (Scalar.Lawful.not_hypot_lt_zero _ _) hscale

theorem Site.jointed (hscale : 0 < scale) (h : Site scale past w g) : Jointed scale past w g := by
  induction h with
  | start hw origin => exact ⟨hw.sound, .new _ origin scale, rfl, by simp [joint?, Graph.new]⟩
  | @segment past w g _ s index hok ih =>
    obtain ⟨e, he, -⟩ | ⟨cell, hcells, -, hsame⟩ | ⟨start, tip, serial, hcells, hne, -, hstrung⟩ :=
      (ih.outcome hscale s index).cases
    · rw [he] at hok
      cases hok
    · rw [hsame]
      exact ih.collapsed hcells
    · exact ih.strung hcells hne hstrung
  | @stopped past w g _ s index hstop ih =>
    obtain ⟨-, -, hsame⟩ | ⟨-, -, hok, -⟩ | ⟨_, _, _, -, -, hok, -⟩ :=
      (ih.outcome hscale s index).cases
    · rw [hsame]
      exact ih
    · exact absurd (by rw [hok]; rfl) hstop
    · exact absurd (by rw [hok]; rfl) hstop
  | @step past w g _ dt ih =>
    have hmoved := World.moved_step dt w
    refine ih.moved (hmoved.sound ih.sound) fun j hj => ?_
    rw [hmoved.isAlive]
    exact ih.fitted.alive j hj
  | @edit past w g _ e hstay ih =>
    have hc : World.Changes (fun _ => True) w _ :=
      World.changes_run ih.sound id Subtype.property e fun _ _ _ _ => trivial
    exact ih.moved (hc.sound ih.sound) hstay

/-- Whatever segments a body is built of, in whatever order: it has a joint just in the cells that a
segment between two cells begins or ends in, different cells have different joints, all of them
points alive, and the next segment becomes one new strand between the joints of its cells, or
nothing if it stays within one cell. -/
theorem joints_exact (hscale : 0 < scale) (h : Site scale past w g) (s : Segment α)
    (index : Option Int) :
    Fitted w g ∧ g.scale = scale ∧
      (∀ cell, cell ∈ g.joints.map (·.1) ↔ ∃ s ∈ past, s.Needs cell) ∧
      (∀ c c' id id', g.joint? c = some id → g.joint? c' = some id' → (id = id' ↔ c = c')) ∧
      Outcome s (w, g) (materialize s index (w, g)) := by
  have hj := h.jointed hscale
  refine ⟨hj.fitted, hj.scale, fun cell => ?_, fun _ _ _ _ hc hc' => hj.fitted.joint_eq hc hc',
    hj.outcome hscale s index⟩
  rw [← joint?_isSome, hj.needed]

end

/-- A trunk, and a branch that leaves its tip but for a rounding. -/
def stem : Segment Float := ⟨⟨0, 0⟩, ⟨0, -10.0⟩, 0, 1, 0, [], true⟩

def branch : Segment Float := ⟨⟨0.001, -10.002⟩, ⟨5.0, -15.0⟩, 1, 0.5, 0, [], false⟩

def plot : World Float := World.new 0 Setting.default 1

def stemmed : World Float × Graph Float := (materialize stem (some 0) (plot, .new ⟨0, 0⟩ 2.0)).state

/-- The branch leaves from the joint at the tip of the trunk. -/
theorem joints_exact_branch :
    (0 : Float) < 2.0 ∧ Site 2.0 [stem] (stemmed.1.step 0.5) stemmed.2 ∧
      branch.cells.toOption = some (⟨0, -1000⟩, ⟨500, -1500⟩) ∧
      stemmed.2.joint? ⟨0, -1000⟩ = some 1 ∧ stemmed.2.joint? ⟨500, -1500⟩ = none ∧
      Fitted (stemmed.1.step 0.5) stemmed.2 ∧ stemmed.2.scale = 2.0 ∧
      (∀ cell, cell ∈ stemmed.2.joints.map (·.1) ↔ ∃ s ∈ [stem], s.Needs cell) ∧
      (∀ c c' id id', stemmed.2.joint? c = some id → stemmed.2.joint? c' = some id' →
        (id = id' ↔ c = c')) ∧
      Outcome branch (stemmed.1.step 0.5, stemmed.2)
        (materialize branch none (stemmed.1.step 0.5, stemmed.2)) := by
  have hscale : (0 : Float) < 2.0 := by decide +kernel
  have hok : (materialize stem (some 0) (plot, .new ⟨0, 0⟩ 2.0)).result.isOk := by decide +kernel
  have hplot : plot.Reached := .new 0 Setting.default 1
  have hstart : Site 2.0 [] plot (.new ⟨0, 0⟩ 2.0) := .start hplot ⟨0, 0⟩
  have hstem : Site 2.0 [stem] stemmed.1 stemmed.2 := by
    unfold stemmed
    exact hstart.segment stem (some 0) hok
  have hsite : Site 2.0 [stem] (stemmed.1.step 0.5) stemmed.2 := hstem.step 0.5
  exact ⟨hscale, hsite, by decide +kernel, by decide +kernel, by decide +kernel,
    joints_exact hscale hsite branch none⟩

end Graph
end Arboretum
