import Arboretum.Proofs.Action
import Arboretum.Proofs.World.Step

/-!
What each operation answers and the world that it leaves, given what its caller holds.
-/
namespace Arboretum.World

open Arboretum.Action

variable {α : Type} {w : World α}

/-- The number and slot of a holder's point, if it is one of this world and alive. -/
def seated? (w : World α) (p : Point α) : Option (Nat × Nat) :=
  if w.owns p then (w.slot? p.id).map (p.id, ·) else none

/-- A world with room for another point, unless it never had room for any. -/
def roomy (w : World α) : World α := if w.count = w.capacity then w.double else w

/-- Two holders' points that a spring of this world can join: their numbers and positions. -/
def joinable? (w : World α) : Option (Point α) → Option (Point α) →
    Option ((Nat × Vec α) × (Nat × Vec α))
  | some p, some q =>
    match p.seat, q.seat with
    | some (_, spotP), some (_, spotQ) =>
      if p.home = w.tag ∧ q.home = w.tag ∧ p.id ≠ q.id then some ((p.id, spotP), (q.id, spotQ))
      else none
    | _, _ => none
  | _, _ => none

section
variable [Scalar α]

/-- The mass that a point gets. -/
def massOf (asked : α) : α := if asked ≤ 0 then leastMass else asked

theorem addPoint_apply (spot : Vec α) (mass : α) (pinned : Bool) (w : World α) :
    ∃ notes, addPoint spot mass pinned w =
      if w.roomy.capacity ≤ w.roomy.count then
        ⟨.error (.noSlot w.roomy.count w.roomy.capacity), w.roomy, notes⟩
      else ⟨.ok w.slots.size, w.roomy.seat (.atRest spot (massOf mass) pinned), notes⟩ := by
  unfold addPoint massOf roomy
  by_cases hm : mass ≤ 0 <;> by_cases hc : w.count = w.capacity
  · by_cases hr : w.double.capacity ≤ w.double.count <;>
      simp [hm, hc, hr, Except.map]
  · by_cases hr : w.capacity ≤ w.count <;> simp [hm, hc, hr, Except.map]
  · by_cases hr : w.double.capacity ≤ w.double.count <;>
      simp [hm, hc, hr, Except.map]
  · by_cases hr : w.capacity ≤ w.count <;> simp [hm, hc, hr, Except.map]

/-- The stiffness that a spring gets. -/
def stiffnessOf (asked : α) : α := Scalar.least (Scalar.greatest asked 0) maxStiffness

theorem addSpring_apply (a b : Option (Point α)) (stiffness : α) (rest : Option α) (damping : α)
    (w : World α) : ∃ notes, addSpring a b stiffness rest damping w =
      match w.joinable? a b with
      | some ((idA, spotA), (idB, spotB)) =>
        ⟨.ok (some w.links.size), w.link idA idB (stiffnessOf stiffness) damping
          (restLength spotA spotB rest), notes⟩
      | none => ⟨.ok none, w, notes⟩ := by
  unfold addSpring joinable?
  cases a with
  | none => simp
  | some p =>
    cases b with
    | none => simp
    | some q =>
      cases hp : p.seat <;> cases hq : q.seat <;> simp only [hp, hq]
      · simp
      · simp
      · simp
      · by_cases hh : p.home = w.tag <;> by_cases hk : q.home = w.tag <;>
          by_cases hid : p.id = q.id <;> simp [Point.same, hh, hk, hid, Except.map, stiffnessOf]

theorem push_apply (p : Option (Point α)) (force : Vec α) (w : World α) :
    push p force w = match p.bind w.seated? with
      | some (_, slot) => ⟨.ok true, w.pushSlot slot force, []⟩
      | none => ⟨.ok false, w, [(.strangerPushed p, w)]⟩ := by
  unfold push
  cases p with
  | none => simp [Except.map]
  | some p => cases ho : w.owns p <;> cases hs : w.slot? p.id <;> simp [seated?, ho, hs, Except.map]

theorem push_returns (p : Option (Point α)) (force : Vec α) (w : World α) :
    ∃ done, (push p force w).result = .ok done := by
  rw [push_apply]
  split
  · exact ⟨true, rfl⟩
  · exact ⟨false, rfl⟩

end

theorem pin_apply (p : Point α) (w : World α) : pin p w = match p.slot with
    | .error e => ⟨.error e, w, []⟩
    | .ok slot =>
      if w.capacity ≤ slot then ⟨.error (.noSlot slot w.capacity), w, []⟩
      else ⟨.ok (), w.pinSlot slot, []⟩ := by
  unfold pin
  cases p.slot with
  | error e => simp
  | ok slot => by_cases h : w.capacity ≤ slot <;> simp [h]

theorem removePoint_apply (p : Option (Point α)) (w : World α) :
    removePoint p w = match p.bind w.seated? with
      | some (id, slot) => ⟨.ok true, w.without id slot, []⟩
      | none => ⟨.ok false, w, [(.strangerRemoved p, w)]⟩ := by
  unfold removePoint
  cases p with
  | none => simp [Except.map]
  | some p =>
    cases ho : w.owns p <;> cases hs : w.slot? p.id <;>
      simp [seated?, ho, hs, without, Except.map]

theorem removeSpring_apply (s : Option Spring) (w : World α) :
    removeSpring s w = match s.bind w.listed? with
      | some (serial, place) => ⟨.ok true, w.unlink serial place, []⟩
      | none => ⟨.ok false, w, [(.strangeSpringRemoved, w)]⟩ := by
  unfold removeSpring
  cases h : s.bind w.listed? <;> simp [h, Except.map]

/-! ### Points and springs as their holders see them -/

section
variable {w : World α}

theorem point_seat (w : World α) (id : Nat) :
    (w.point id).seat =
      (w.particle? id).bind fun p => (w.slot? id).map fun slot => (slot, p.position) := by
  unfold point particle?
  cases hs : w.slot? id with
  | none => rfl
  | some slot => cases hr : w.rows[slot]? <;> simp [hr]

theorem point_isAlive (h : Sound w) (id : Nat) : (w.point id).isAlive = w.isAlive id := by
  have hp := h.particle?_isSome id
  rw [Point.isAlive, point_seat]
  cases hr : w.particle? id <;> cases hs : w.slot? id <;> simp_all [isAlive]

theorem point_slot (h : Sound w) (id : Nat) :
    (w.point id).slot = (w.slot? id).elim (.error (.removedPoint id)) .ok := by
  have hp := h.particle?_isSome id
  have hid : (w.point id).id = id := rfl
  rw [Point.slot, point_seat, hid]
  cases hr : w.particle? id <;> cases hs : w.slot? id <;> simp_all [isAlive]

theorem seated?_point (h : Sound w) (id : Nat) :
    w.seated? (w.point id) = (w.slot? id).map (id, ·) := by
  have ha := point_isAlive h id
  unfold seated? owns
  rw [ha]
  cases hs : w.slot? id <;> simp [point, isAlive, hs]

/-- A holder's point of this world is seated where its number is, whoever else it was shown to. -/
theorem slot?_of_seated? {p : Point α} {id slot : Nat} (hp : w.seated? p = some (id, slot)) :
    p.id = id ∧ p.home = w.tag ∧ w.slot? id = some slot := by
  unfold seated? at hp
  split at hp
  · rename_i ho
    obtain ⟨q, hs, he⟩ := Option.map_eq_some_iff.mp hp
    cases he
    simp only [owns, Bool.and_eq_true, beq_iff_eq] at ho
    exact ⟨rfl, ho.1, hs⟩
  · cases hp

theorem place?_of_listed? (h : Sound w) {s : Spring} {serial place : Nat}
    (hs : w.listed? s = some (serial, place)) :
    s.serial = serial ∧ s.home = w.tag ∧ w.place? serial = some place := by
  unfold listed? at hs
  cases hp : s.place with
  | none => simp [hp] at hs
  | some q =>
    simp only [hp] at hs
    split at hs
    · rename_i hl
      cases hs
      simp only [Bool.and_eq_true, beq_iff_eq] at hl
      exact ⟨rfl, hl.1, (h.places _ _).mp hl.2⟩
    · cases hs

theorem listed?_spring (h : Sound w) (serial : Nat) :
    w.listed? (w.spring serial) = (w.place? serial).map (serial, ·) := by
  unfold listed? spring
  cases hp : w.place? serial with
  | none => rfl
  | some place => simp [(h.places place serial).mpr hp]

theorem joinable?_point (h : Sound w) (a b : Nat) :
    w.joinable? (some (w.point a)) (some (w.point b)) =
      (w.particle? a).bind fun p => (w.particle? b).bind fun q =>
        if a = b then none else some ((a, p.position), (b, q.position)) := by
  have hpa := h.particle?_isSome a
  have hpb := h.particle?_isSome b
  simp only [joinable?, point_seat]
  cases ha : w.particle? a <;> cases hb : w.particle? b <;> cases hsa : w.slot? a <;>
    cases hsb : w.slot? b <;> simp_all [isAlive, point]

end

end Arboretum.World
