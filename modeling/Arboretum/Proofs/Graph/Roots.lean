import Arboretum.Proofs.Graph.Strands
import Arboretum.Proofs.World.Nature

/-!
Fixed means rooted. Where nobody else pins or removes points, the joint of a cell is pinned just if
a root begins or ends there, in whatever order the segments come, and a root that comes late pins
the joints that it finds loose where they are.
-/
namespace Arboretum

open Arboretum.Action

variable {α : Type}

/-- A point pinned where it is, unless it is pinned already. -/
def Particle.rooted (p : Particle α) : Particle α :=
  if p.pinned then p else { p with pinned := true, previous := p.position }

theorem Particle.rooted_of_pinned {p : Particle α} (h : p.pinned = true) : p.rooted = p :=
  if_pos h

theorem Particle.rooted_of_loose {p : Particle α} (h : p.pinned = false) :
    p.rooted = { p with pinned := true, previous := p.position } := by
  unfold rooted
  rw [h]
  rfl

theorem Particle.pinned_rooted (p : Particle α) : p.rooted.pinned = true := by
  cases h : p.pinned with
  | false => rw [rooted_of_loose h]
  | true => rw [rooted_of_pinned h, h]

/-! ### Calls of others -/

/-- Does a call neither pin nor remove a point? -/
def Edit.spares {P S : Type} : Edit α P S → Bool
  | pin _ => false
  | removePoint _ => false
  | _ => true

namespace World

variable {w : World α}

/-- A call that neither pins nor removes a point leaves all points pinned or loose as they are. -/
theorem pinned?_run [Scalar α] {P S : Type} (hw : w.Sound) (point : P → Point α)
    (spring : S → Spring) {e : Edit α P S} (he : e.spares) {id : Nat} (hid : w.isAlive id) :
    (e.run point spring w).state.pinned? id = w.pinned? id := by
  cases e <;> simp only [Edit.run, Action.map_apply]
  case addPoint spot mass pinned =>
    obtain ⟨notes, hadd⟩ := addPoint_apply spot mass pinned w
    rw [hadd]
    split
    · exact pinned?_roomy hw id
    · rename_i hroom
      have hold : id ≠ w.roomy.slots.size := by
        rw [(same_roomy w).points]
        exact Nat.ne_of_lt (isAlive_lt hid)
      rw [pinned?_seat hw.roomy (Nat.lt_of_not_le hroom), if_neg hold]
      exact pinned?_roomy hw id
  case pin => cases he
  case push p force =>
    rw [push_apply]
    split
    · rw [pushSlot_eq_touch, pinned?, particle?_touch]
      split
      · rw [Option.map_map]
        rfl
      · rfl
    · rfl
  case removePoint => cases he
  case addSpring a b stiffness rest damping =>
    obtain ⟨notes, hadd⟩ := addSpring_apply (a.map point) (b.map point) stiffness rest damping w
    rw [hadd]
    split
    · rfl
    · rfl
  case removeSpring s =>
    rw [removeSpring_apply]
    split
    · rfl
    · rfl

end World

namespace Graph

section
variable [Scalar α] {w : World α} {g : Graph α}

/-! ### Segments -/

/-- What asking for the joint of a cell does to the points: the one that is there is pinned if it
has to be, and a new one is as it was asked for. -/
structure Fastened (fixed : Bool) (cell : Cell) (was : World α × Graph α) (id : Nat)
    (now : World α × Graph α) : Prop extends Given cell was id now where
  old : ∀ x < was.1.slots.size, now.1.particle? x = (was.1.particle? x).map fun p =>
    if fixed ∧ was.2.joint? cell = some x then p.rooted else p
  new : was.2.joint? cell = none → now.1.pinned? id = some fixed

theorem meets_jointAt_fastened (hw : w.Ready) (hf : Fitted w g) (cell : Cell) (spot : Vec α)
    (mass : α) (fixed : Bool) :
    Meets (· = (w, g)) (jointAt cell spot mass fixed) (fun _ => False)
      fun id t => Fastened fixed cell (w, g) id t := by
  suffices hpoints : Meets (· = (w, g)) (jointAt cell spot mass fixed) (fun _ => False) fun id t =>
      (∀ x < w.slots.size, t.1.particle? x = (w.particle? x).map fun p =>
        if fixed ∧ g.joint? cell = some x then p.rooted else p) ∧
          (g.joint? cell = none → t.1.pinned? id = some fixed) from
    ((meets_jointAt_given hw hf cell spot mass fixed).and hpoints).weaken
      fun _ _ h => ⟨h.1, h.2.1, h.2.2⟩
  apply meets_jointAt_of
  case hnew =>
    intro hj
    refine (meets_addPoint_ready hw spot mass fixed).weaken fun id t ht => ?_
    obtain ⟨rfl, rfl⟩ := ht
    refine ⟨fun x hx => ?_, fun _ => ?_⟩
    · rw [World.particle?_added hw, if_neg (Nat.ne_of_lt hx), hj]
      simp
    · rw [World.pinned?, World.particle?_added hw, if_pos rfl]
      rfl
  case hlost =>
    intro id e hj _ he
    obtain ⟨p, hread⟩ := hw.particle_of_alive (hf.alive_of_joint? hj)
    cases hread.symm.trans he
  case hfound =>
    intro id hj hdone
    refine ⟨fun x _ => ?_, fun hnone => by cases hj.symm.trans hnone⟩
    cases hx : w.particle? x with
    | none => rfl
    | some p =>
      rw [Option.map_some]
      split
      · rename_i hboth
        obtain ⟨q, hread, hpinned⟩ := hdone hboth.1
        cases hj.symm.trans hboth.2
        rw [World.particle, hx] at hread
        cases hread
        rw [Particle.rooted_of_pinned hpinned]
      · rfl
  case hpinned =>
    intro id p hj hfixed hread hloose
    obtain ⟨slot, hslot⟩ := World.isAlive_iff.mp (hf.alive_of_joint? hj)
    refine .returns fun s hs => ?_
    subst hs
    rw [inWorld_result, inWorld_state, pin_point hw.toSound hslot]
    refine ⟨(), rfl, fun x _ => ?_, fun hnone => by cases hj.symm.trans hnone⟩
    rw [World.particle?_pinSlot hw.toSound hslot]
    cases hx : w.particle? x with
    | none => rfl
    | some q =>
      rw [Option.map_some, Option.map_some]
      by_cases hid : x = id
      · subst x
        rw [World.particle, hx] at hread
        cases hread
        rw [if_pos rfl, if_pos ⟨hfixed, hj⟩, Particle.rooted_of_loose hloose]
      · have hother : ¬ (fixed = true ∧ g.joint? cell = some x) := by
          intro hboth
          cases hj.symm.trans hboth.2
          exact hid rfl
        rw [if_neg hid, if_neg hother]

/-- What comes of a segment: the joints that it needs, those that were missing pinned just if it is
a root. If it is one, it pins those that are there; all other points are as they were. -/
structure Planted (s : Segment α) (was now : World α × Graph α) : Prop where
  sound : now.1.Sound
  fitted : Fitted now.1 now.2
  joints : ∀ c, (now.2.joint? c).isSome ↔ (was.2.joint? c).isSome ∨ s.Needs c
  kept : ∀ c id, was.2.joint? c = some id → now.2.joint? c = some id
  new : ∀ c id, was.2.joint? c = none → now.2.joint? c = some id →
    now.1.pinned? id = some s.isRoot
  rooted : ∀ c id, s.isRoot → s.Needs c → was.2.joint? c = some id →
    now.1.particle? id = (was.1.particle? id).map Particle.rooted
  rest : ∀ id < was.1.slots.size, ¬ (s.isRoot ∧ ∃ c, s.Needs c ∧ was.2.joint? c = some id) →
    now.1.particle? id = was.1.particle? id

omit [Scalar α] in
/-- What asking for two joints does to the points that were there. -/
theorem Fastened.both {fixed : Bool} {start tip : Cell} (hne : start ≠ tip) {a b : Nat}
    {s₀ s₁ s₂ : World α × Graph α} (h₁ : Fastened fixed start s₀ a s₁)
    (h₂ : Fastened fixed tip s₁ b s₂) {x : Nat} (hx : x < s₀.1.slots.size) :
    s₂.1.particle? x = (s₀.1.particle? x).map fun p =>
      if fixed ∧ (s₀.2.joint? start = some x ∨ s₀.2.joint? tip = some x) then p.rooted else p := by
  rw [h₂.old x (Nat.lt_of_lt_of_le hx h₁.grew.points), h₁.old x hx, h₁.others tip hne.symm,
    Option.map_map]
  congr 1
  funext p
  have htwice : p.rooted.rooted = p.rooted := Particle.rooted_of_pinned p.pinned_rooted
  cases fixed with
  | false => simp
  | true =>
    by_cases hstart : s₀.2.joint? start = some x
    · by_cases htip : s₀.2.joint? tip = some x
      · simp [hstart, htip, htwice]
      · simp [hstart, htip]
    · simp [hstart]

omit [Scalar α] in
/-- A joint that was missing is new, and as it was asked for. -/
theorem Fastened.missing {fixed : Bool} {start tip : Cell} (hne : start ≠ tip) {a b : Nat}
    {s₀ s₁ s₂ : World α × Graph α} (h₁ : Fastened fixed start s₀ a s₁)
    (h₂ : Fastened fixed tip s₁ b s₂) {c : Cell} {id : Nat} (hnone : s₀.2.joint? c = none)
    (hid : s₂.2.joint? c = some id) : s₂.1.pinned? id = some fixed := by
  by_cases htip : c = tip
  · subst c
    cases h₂.joint.symm.trans hid
    exact h₂.new ((h₁.others tip hne.symm).trans hnone)
  have hmid : s₁.2.joint? c = some id := (h₂.others c htip).symm.trans hid
  by_cases hstart : c = start
  · subst c
    cases h₁.joint.symm.trans hmid
    have hother : ¬ (fixed ∧ s₁.2.joint? tip = some a) := by
      intro hboth
      exact hne ((h₁.fitted.joint_eq hmid hboth.2).mp rfl)
    have hlt := World.isAlive_lt (h₁.fitted.alive_of_joint? hmid)
    rw [World.pinned?, h₂.old a hlt]
    simp only [if_neg hother, Option.map_id']
    exact h₁.new hnone
  · rw [h₁.others c hstart, hnone] at hmid
    cases hmid

/-- Two joints and a strand between them. -/
theorem Planted.of_fastened {s : Segment α} {start tip : Cell}
    (hcells : s.cells = .ok (start, tip)) (hne : start ≠ tip) {a b : Nat}
    {s₀ s₁ : World α × Graph α} (hf : Fitted s₀.1 s₀.2) {w₂ : World α} {g₂ g' : Graph α}
    (h₁ : Fastened s.isRoot start s₀ a s₁) (h₂ : Fastened s.isRoot tip s₁ b (w₂, g₂))
    (hjoints : g'.joints = g₂.joints) (stiffness damping rest : α) :
    Planted s s₀ (w₂.link a b stiffness damping rest, g') := by
  have hjoint? (c : Cell) : g'.joint? c = g₂.joint? c := by simp only [joint?, hjoints]
  have hneeds := Segment.needs_iff hcells hne
  obtain ⟨hready, hfitted⟩ :=
    h₁.toGiven.link hne h₂.toGiven hjoints stiffness damping rest
  refine ⟨hready.toSound, hfitted, fun c => ?_, fun c id hid => ?_, fun c id hnone hid => ?_,
    fun c id hroot hc hid => ?_, fun id hlt hrest => ?_⟩
  · rw [hjoint?, hneeds]
    exact h₁.toGiven.joints h₂.toGiven c
  · rw [hjoint?]
    exact h₂.kept c id (h₁.kept c id hid)
  · rw [hjoint?] at hid
    exact h₁.missing hne h₂ hnone hid
  · have hboth := h₁.both hne h₂ (World.isAlive_lt (hf.alive_of_joint? hid))
    have hmine : s.isRoot ∧ (s₀.2.joint? start = some id ∨ s₀.2.joint? tip = some id) := by
      rcases (hneeds c).mp hc with rfl | rfl
      · exact ⟨hroot, .inl hid⟩
      · exact ⟨hroot, .inr hid⟩
    simp only [if_pos hmine] at hboth
    exact hboth
  · have hboth := h₁.both hne h₂ hlt
    have hother : ¬ (s.isRoot ∧ (s₀.2.joint? start = some id ∨ s₀.2.joint? tip = some id)) := by
      rintro ⟨hroot, hid | hid⟩
      · exact hrest ⟨hroot, start, (hneeds start).mpr (.inl rfl), hid⟩
      · exact hrest ⟨hroot, tip, (hneeds tip).mpr (.inr rfl), hid⟩
    simp only [if_neg hother, Option.map_id'] at hboth
    exact hboth

theorem Planted.collapsed (hw : w.Sound) (hf : Fitted w g) {s : Segment α} {cell : Cell}
    (hcells : s.cells = .ok (cell, cell)) : Planted s (w, g) (w, g) where
  sound := hw
  fitted := hf
  joints c := by simp [Segment.not_needs hcells c]
  kept _ _ h := h
  new c id hnone hid := by cases hnone.symm.trans hid
  rooted c _ _ hc _ := absurd hc (Segment.not_needs hcells c)
  rest _ _ _ := rfl

/-- A segment between two cells is planted, if its depth can be read and the world ever had room. -/
theorem meets_materialize_planted (hw : w.Ready) (hf : Fitted w g) {s : Segment α}
    {start tip : Cell} (hcells : s.cells = .ok (start, tip)) (hne : start ≠ tip) {depth : α}
    (hdepth : Scalar.ofInt s.depth = .ok depth) (index : Option Int) :
    Meets (· = (w, g)) (materialize s index) (fun _ => False) fun _ t => Planted s (w, g) t := by
  refine (meets_materialize_linked_of (Fastened s.isRoot) (fun _ _ _ _ h => h.toGiven)
    (fun _ _ cell spot mass hw hf => meets_jointAt_fastened hw hf cell spot mass s.isRoot)
    hw hf hcells hne hdepth index).weaken fun made t ht => ?_
  obtain ⟨a, b, s₁, w₂, g₂, stiffness, rest, ha, hb, -, -, hlinked, hjoints, -⟩ := ht
  obtain ⟨w', g'⟩ := t
  obtain rfl : w' = _ := hlinked
  exact .of_fastened hcells hne hf ha hb hjoints _ _ _

/-- A segment is planted, or its builder stops and nothing has happened. -/
theorem meets_materialize_or_stopped (hw : w.Sound) (hf : Fitted w g) (s : Segment α)
    (index : Option Int) : Meets (· = (w, g)) (materialize s index) (· = (w, g))
      fun _ t => Planted s (w, g) t := by
  cases hcells : s.cells with
  | error e =>
    rw [materialize_unread hcells]
    exact .fail fun _ h => h
  | ok ends =>
    obtain ⟨start, tip⟩ := ends
    by_cases hne : start = tip
    · subst tip
      rw [materialize_within hcells]
      exact Meets.bind (.note _) fun _ => .pure fun t ht => ht ▸ .collapsed hw hf hcells
    by_cases hroom : w.capacity = 0
    · have hjoint : g.joint? start = none := by
        cases hj : g.joint? start with
        | none => rfl
        | some id =>
          have hpos := hw.capacity_pos (hf.alive_of_joint? hj)
          omega
      exact (meets_materialize_crowded hroom hcells hne hjoint index).weaken fun _ _ h => h.elim
    cases hdepth : (Scalar.ofInt s.depth : Except Fault α) with
    | error e =>
      rw [materialize_unmeasured hcells hne hdepth]
      exact .fail fun _ h => h
    | ok depth =>
      have hready : w.Ready := ⟨hw, Nat.pos_of_ne_zero hroom⟩
      exact (meets_materialize_planted hready hf hcells hne hdepth index).stop fun _ h => h.elim

/-! ### Bodies -/

/-- A body that is built in a world in which nobody else pins or removes points. The segments are
those that were asked for and did not stop the builder. -/
inductive Undisturbed : List (Segment α) → World α → Graph α → Prop where
  | start {w : World α} (hw : w.Reached) (origin : Vec α) (scale : α) :
    Undisturbed [] w (.new origin scale)
  | segment {past : List (Segment α)} {w : World α} {g : Graph α} (h : Undisturbed past w g)
      (s : Segment α) (index : Option Int) (hok : (materialize s index (w, g)).result.isOk) :
      Undisturbed (past ++ [s]) (materialize s index (w, g)).state.1
        (materialize s index (w, g)).state.2
  | stopped {past : List (Segment α)} {w : World α} {g : Graph α} (h : Undisturbed past w g)
      (s : Segment α) (index : Option Int) (hstop : ¬ (materialize s index (w, g)).result.isOk) :
      Undisturbed past (materialize s index (w, g)).state.1 (materialize s index (w, g)).state.2
  | step {past : List (Segment α)} {w : World α} {g : Graph α} (h : Undisturbed past w g) (dt : α) :
      Undisturbed past (w.step dt) g
  | edit {past : List (Segment α)} {w : World α} {g : Graph α} (h : Undisturbed past w g)
      (e : Edit α {p : Point α // w.Sees p} Spring) (he : e.spares) :
      Undisturbed past (e.run Subtype.val id w).state g

/-- The joints of a body are those that its segments need, and those that its roots need are
pinned. -/
structure Rooted (past : List (Segment α)) (w : World α) (g : Graph α) : Prop
    extends Jointed g.scale past w g where
  rooted : ∀ cell id, g.joint? cell = some id →
    (w.pinned? id = some true ↔ ∃ s ∈ past, s.isRoot ∧ s.Needs cell)

namespace Rooted

variable {past : List (Segment α)} {s : Segment α}

/-- What leaves all points alive pinned or loose as they are, keeps a body rooted. -/
theorem world {w' : World α} (h : Rooted past w g) (hs : w'.Sound)
    (hpinned : ∀ id, w.isAlive id → w'.pinned? id = w.pinned? id) : Rooted past w' g where
  toJointed := by
    refine h.moved hs fun j hj => ?_
    have halive := h.fitted.alive j hj
    rw [← World.pinned?_isSome hs, hpinned j.2 halive, World.pinned?_isSome h.sound]
    exact halive
  rooted cell id hid := by
    rw [hpinned id (h.fitted.alive_of_joint? hid)]
    exact h.rooted cell id hid

theorem segment (h : Rooted past w g) {t : World α × Graph α} (hs : Planted s (w, g) t) :
    Rooted (past ++ [s]) t.1 t.2 where
  sound := hs.sound
  fitted := hs.fitted
  scale := rfl
  needed c := by
    rw [hs.joints, h.needed]
    simp [or_and_right, exists_or]
  rooted c id hid := by
    have hsplit : (∃ r ∈ past ++ [s], r.isRoot ∧ r.Needs c) ↔
        (∃ r ∈ past, r.isRoot ∧ r.Needs c) ∨ s.isRoot ∧ s.Needs c := by
      simp [or_and_right, exists_or]
    rw [hsplit]
    cases hwas : g.joint? c with
    | none =>
      -- No segment before this one needed the cell.
      have hnone : ¬ ∃ r ∈ past, r.Needs c := by simp [← h.needed, hwas]
      have hneeds : s.Needs c := by simpa [hwas, hid] using hs.joints c
      rw [hs.new c id hwas hid]
      constructor
      · exact fun hroot => .inr ⟨Option.some.inj hroot, hneeds⟩
      · rintro (⟨r, hr, -, hc⟩ | ⟨hroot, -⟩)
        · exact (hnone ⟨r, hr, hc⟩).elim
        · rw [hroot]
    | some i =>
      cases hid.symm.trans (hs.kept c i hwas)
      have hlt := World.isAlive_lt (h.fitted.alive_of_joint? hwas)
      by_cases hroot : s.isRoot ∧ s.Needs c
      · obtain ⟨p, hp⟩ := Option.isSome_iff_exists.mp
          ((h.sound.particle?_isSome id).trans (h.fitted.alive_of_joint? hwas))
        have hpinned : t.1.pinned? id = some true := by
          rw [World.pinned?, hs.rooted c id hroot.1 hroot.2 hwas, hp, Option.map_some,
            Option.map_some, p.pinned_rooted]
        simp [hpinned, hroot]
      · have hother : ¬ (s.isRoot ∧ ∃ d, s.Needs d ∧ g.joint? d = some id) := by
          rintro ⟨hr, d, hd, hjoint⟩
          exact hroot ⟨hr, (h.fitted.joint_eq hjoint hwas).mp rfl ▸ hd⟩
        rw [World.pinned?, hs.rest id hlt hother, or_iff_left hroot]
        exact h.rooted c id hwas

/-- A joint is alive, and pinned just if a root needs it. -/
theorem joint (h : Rooted past w g) {cell : Cell} {id : Nat} (hid : g.joint? cell = some id) :
    ∃ p, w.particle? id = some p ∧
      (p.pinned = true ↔ ∃ s ∈ past, s.isRoot ∧ s.Needs cell) := by
  have halive := h.fitted.alive_of_joint? hid
  obtain ⟨p, hp⟩ := Option.isSome_iff_exists.mp ((h.sound.particle?_isSome id).trans halive)
  refine ⟨p, hp, ?_⟩
  rw [← h.rooted cell id hid, World.pinned?, hp, Option.map_some, Option.some.injEq]

/-- Two bodies of the same segments have the same cells pinned and the same cells loose. -/
theorem alike {past' : List (Segment α)} {w' : World α} {g' : Graph α} (h : Rooted past w g)
    (h' : Rooted past' w' g') (hsame : ∀ s, s ∈ past ↔ s ∈ past') (cell : Cell) :
    (g.joint? cell).bind w.pinned? = (g'.joint? cell).bind w'.pinned? := by
  have hneeded : (g.joint? cell).isSome ↔ (g'.joint? cell).isSome := by
    rw [h.needed, h'.needed]
    simp only [hsame]
  cases hid : g.joint? cell with
  | none =>
    rw [hid] at hneeded
    have hnone : g'.joint? cell = none :=
      Option.not_isSome_iff_eq_none.mp fun hsome => by cases hneeded.mpr hsome
    rw [hnone]
    rfl
  | some id =>
    rw [hid] at hneeded
    obtain ⟨id', hid'⟩ := Option.isSome_iff_exists.mp (hneeded.mp rfl)
    obtain ⟨p, hp, hpinned⟩ := h.joint hid
    obtain ⟨p', hp', hpinned'⟩ := h'.joint hid'
    have hboth : p.pinned = p'.pinned := by
      rw [Bool.eq_iff_iff, hpinned, hpinned']
      simp only [hsame]
    simp [hid', World.pinned?, hp, hp', hboth]

/-- A root that comes late pins a joint that is there where it is. -/
theorem late (h : Rooted past w g) (index : Option Int) {cell : Cell} {id : Nat} {p : Particle α}
    (hroot : s.isRoot) (hneeds : s.Needs cell)
    (hdepth : Gives (Scalar.ofInt s.depth : Except Fault α)) (hid : g.joint? cell = some id)
    (hp : w.particle? id = some p) :
    ∃ made, (materialize s index (w, g)).result = .ok made ∧
      (materialize s index (w, g)).state.2.joint? cell = some id ∧
      (materialize s index (w, g)).state.1.particle? id = some p.rooted := by
  have ⟨start, tip, hcells, hne, _⟩ := hneeds
  obtain ⟨depth, hdepth⟩ := hdepth
  have hready : w.Ready := ⟨h.sound, h.sound.capacity_pos (h.fitted.alive_of_joint? hid)⟩
  obtain ⟨made, hmade, hplanted⟩ :=
    (meets_materialize_planted hready h.fitted hcells hne hdepth index).returned rfl
  refine ⟨made, hmade, hplanted.kept cell id hid, ?_⟩
  rw [hplanted.rooted cell id hroot hneeds hid, hp, Option.map_some]

end Rooted

variable {past : List (Segment α)}

theorem Undisturbed.rooted (h : Undisturbed past w g) : Rooted past w g := by
  induction h with
  | start hw origin scale =>
    exact ⟨⟨hw.sound, .new _ origin scale, rfl, by simp [joint?, Graph.new]⟩,
      by simp [joint?, Graph.new]⟩
  | @segment past w g _ s index hok ih =>
    obtain ⟨made, hmade⟩ : ∃ made, (materialize s index (w, g)).result = .ok made := by
      cases hr : (materialize s index (w, g)).result with
      | error e =>
        rw [hr] at hok
        cases hok
      | ok made => exact ⟨made, rfl⟩
    exact ih.segment ((meets_materialize_or_stopped ih.sound ih.fitted s index _ rfl).2 made hmade)
  | @stopped past w g _ s index hstop ih =>
    have hsame : (materialize s index (w, g)).state = (w, g) := by
      cases hr : (materialize s index (w, g)).result with
      | error e => exact (meets_materialize_or_stopped ih.sound ih.fitted s index _ rfl).1 e hr
      | ok made =>
        rw [hr] at hstop
        exact absurd rfl hstop
    rw [hsame]
    exact ih
  | @step past w g _ dt ih =>
    have hmoved := World.moved_step dt w
    exact ih.world (hmoved.sound ih.sound) fun id _ => hmoved.pinned? id
  | @edit past w g _ e he ih =>
    have hc : World.Changes (fun _ => True) w _ :=
      World.changes_run ih.sound id Subtype.property e fun _ _ _ _ => trivial
    exact ih.world (hc.sound ih.sound) fun _ hid =>
      World.pinned?_run ih.sound Subtype.val id he hid

/-- Fixed means rooted: a cell has a joint just if a segment between two cells begins or ends there,
and the joint is pinned just if one of these segments is a root. The order of the segments does not
matter, and a root that comes late pins a joint that was loose where it is. -/
theorem fixed_iff_rooted (h : Undisturbed past w g) :
    (∀ cell, (g.joint? cell).isSome ↔ ∃ s ∈ past, s.Needs cell) ∧
    (∀ cell id, g.joint? cell = some id → ∃ p, w.particle? id = some p ∧
      (p.pinned = true ↔ ∃ s ∈ past, s.isRoot ∧ s.Needs cell)) ∧
    (∀ past' w' g', Undisturbed past' w' g' → past.Perm past' → ∀ cell,
      (g.joint? cell).bind w.pinned? = (g'.joint? cell).bind w'.pinned?) ∧
    ∀ (s : Segment α) index cell id p, s.isRoot → s.Needs cell →
      Gives (Scalar.ofInt s.depth : Except Fault α) → g.joint? cell = some id →
      w.particle? id = some p →
      ∃ made, (materialize s index (w, g)).result = .ok made ∧
        (materialize s index (w, g)).state.2.joint? cell = some id ∧
        (materialize s index (w, g)).state.1.particle? id = some p.rooted := by
  have hr := h.rooted
  exact ⟨hr.needed, fun _ _ hid => hr.joint hid,
    fun _ _ _ h' hperm cell => hr.alike h'.rooted (fun _ => hperm.mem_iff) cell,
    fun s index _ _ _ hroot hneeds hdepth hid hp => hr.late index hroot hneeds hdepth hid hp⟩

end

/-- A branch that was built before its trunk. -/
def branched : World Float × Graph Float := (materialize branch none (plot, .new ⟨0, 0⟩ 2.0)).state

/-- The trunk pins the joint that the branch leaves from, and not the one at the tip of the
branch. -/
theorem fixed_iff_rooted_branched :
    Undisturbed [branch] (branched.1.step 0.5) branched.2 ∧ stem.isRoot ∧ stem.Needs ⟨0, -1000⟩ ∧
    branched.2.joint? ⟨0, -1000⟩ = some 0 ∧ (branched.1.step 0.5).pinned? 0 = some false ∧
    (materialize stem none (branched.1.step 0.5, branched.2)).state.1.pinned? 0 = some true ∧
    (materialize stem none (branched.1.step 0.5, branched.2)).state.1.pinned? 1 = some false := by
  have hok : (materialize branch none (plot, .new ⟨0, 0⟩ 2.0)).result.isOk := by decide +kernel
  have hstart : Undisturbed [] plot (.new ⟨0, 0⟩ (2.0 : Float)) :=
    .start (.new 0 Setting.default 1) ⟨0, 0⟩ 2.0
  have hbranch : Undisturbed [branch] branched.1 branched.2 := by
    unfold branched
    exact hstart.segment branch none hok
  have hswaying : Undisturbed [branch] (branched.1.step 0.5) branched.2 := hbranch.step 0.5
  have hneeds : stem.Needs ⟨0, -1000⟩ :=
    ⟨⟨0, 0⟩, ⟨0, -1000⟩, by decide +kernel, by decide, .inr rfl⟩
  have hjoint : branched.2.joint? ⟨0, -1000⟩ = some 0 := by decide +kernel
  have hloose : (branched.1.step 0.5).pinned? 0 = some false := by decide +kernel
  obtain ⟨p, hp, -⟩ := Option.map_eq_some_iff.mp hloose
  obtain ⟨-, -, -, hlate⟩ := fixed_iff_rooted hswaying
  obtain ⟨made, hmade, -, hrooted⟩ :=
    hlate stem none ⟨0, -1000⟩ 0 p rfl hneeds ⟨0, rfl⟩ hjoint hp
  refine ⟨hswaying, rfl, hneeds, hjoint, hloose, ?_, by decide +kernel⟩
  rw [World.pinned?, hrooted, Option.map_some, p.pinned_rooted]

end Graph
end Arboretum
