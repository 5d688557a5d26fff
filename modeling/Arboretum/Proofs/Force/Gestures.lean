import Arboretum.Force.Attractor
import Arboretum.Proofs.Action
import Arboretum.Proofs.Binary64.Arithmetic
import Mathlib.Algebra.Group.Nat.Even
import Mathlib.Data.List.Induction

/-!
An attractor follows the gestures of its pointer. It pulls while a press that was made while it was
enabled has not been let go of, at the place where the pointer is; and no number that it is given,
not even one that is none, takes its strength or its radius beyond their limits.
-/
namespace Arboretum

/-- Between two limits a number is kept within them, also if it cannot be compared to them. -/
theorem Scalar.clamp_within {α : Type} [Scalar α] [Scalar.Lawful α] {low high : α}
    (h : low ≤ high) (a : α) : low ≤ clamp a low high ∧ clamp a low high ≤ high := by
  obtain ⟨hlow, hhigh⟩ := Lawful.le_self h
  have hleast : least high a ≤ high := by
    unfold least
    split
    · rename_i hbelow
      exact Lawful.le_of_lt hbelow
    · exact hhigh
  unfold clamp greatest
  split
  · rename_i habove
    exact ⟨Lawful.le_of_lt habove, hleast⟩
  · exact ⟨hlow, h⟩

namespace Attractor

variable {α : Type}

/-- What is asked of an attractor. -/
inductive Gesture (α : Type) where
  | press (spot : Vec α)
  | move (spot : Vec α)
  | release
  | toggle
  | setStrength (s : α)
  | setRadius (r : α)

namespace Gesture

/-- Where the pointer is after a gesture, if the gesture moves it. -/
def spot? : Gesture α → Option (Vec α)
  | press spot | move spot => some spot
  | _ => none

def isToggle : Gesture α → Bool
  | toggle => true
  | _ => false

/-- Does a gesture let go of what the pointer holds? -/
def letsGo : Gesture α → Bool
  | release | toggle => true
  | _ => false

def act [Scalar α] : Gesture α → Action (Note α) (Attractor α) Unit
  | press spot => Action.modify (Attractor.press spot)
  | move spot => Action.modify (Attractor.move spot)
  | release => Action.modify Attractor.release
  | toggle => do let _ ← Attractor.toggle
  | setStrength s => Attractor.setStrength s
  | setRadius r => Attractor.setRadius r

end Gesture

/-- An attractor after some gestures. -/
def after [Scalar α] (a : Attractor α) (gestures : List (Gesture α)) : Attractor α :=
  gestures.foldl (fun a g => (g.act a).state) a

/-- An attractor is enabled at first, so it is after an even number of toggles. -/
def Enabled (gestures : List (Gesture α)) : Prop := Even (gestures.countP (·.isToggle))

/-- A press made while the attractor was enabled has not been let go of. -/
def Holds (gestures : List (Gesture α)) : Prop :=
  ∃ before spot later, gestures = before ++ .press spot :: later ∧ Enabled before ∧
    ∀ g ∈ later, g.letsGo = false

/-- Where the pointer is, once it has been anywhere. -/
def place? (gestures : List (Gesture α)) : Option (Vec α) :=
  (gestures.filterMap Gesture.spot?).getLast?

/-! ### Histories of gestures -/

variable {gestures : List (Gesture α)} {g : Gesture α}

theorem enabled_concat (gestures : List (Gesture α)) (g : Gesture α) :
    Enabled (gestures ++ [g]) ↔ (Enabled gestures ↔ g.isToggle = false) := by
  unfold Enabled
  rw [List.countP_append, Nat.even_add, List.countP_singleton]
  cases g.isToggle <;> simp

theorem enabled_of_quiet {before later : List (Gesture α)} (h : Enabled before)
    (hlater : ∀ g ∈ later, g.letsGo = false) : Enabled (before ++ later) := by
  induction later using List.reverseRecOn with
  | nil => rwa [List.append_nil]
  | append_singleton later g ih =>
    obtain ⟨hlater, hg⟩ := List.forall_mem_append.mp hlater
    have hquiet : g.isToggle = false := by
      cases g with
      | toggle => cases hg _ (List.mem_singleton_self _)
      | press | move | release | setStrength | setRadius => rfl
    rw [← List.append_assoc, enabled_concat]
    exact iff_of_true (ih hlater) hquiet

/-- What is held is held by an attractor that is enabled. -/
theorem Holds.enabled (h : Holds gestures) : Enabled gestures := by
  obtain ⟨before, spot, later, rfl, hbefore, hlater⟩ := h
  exact enabled_of_quiet hbefore (List.forall_mem_cons.mpr ⟨rfl, hlater⟩)

theorem holds_concat (gestures : List (Gesture α)) (g : Gesture α) : Holds (gestures ++ [g]) ↔
    (∃ spot, g = .press spot ∧ Enabled gestures) ∨ (Holds gestures ∧ g.letsGo = false) := by
  constructor
  · rintro ⟨before, spot, later, heq, hbefore, hlater⟩
    rcases List.eq_nil_or_concat later with rfl | ⟨later, last, rfl⟩
    · obtain ⟨rfl, hlast⟩ := List.append_inj' heq rfl
      cases hlast
      exact .inl ⟨spot, rfl, hbefore⟩
    · rw [List.concat_eq_append, ← List.cons_append, ← List.append_assoc] at heq
      obtain ⟨rfl, hlast⟩ := List.append_inj' heq rfl
      cases hlast
      rw [List.concat_eq_append] at hlater
      obtain ⟨hlater, hg⟩ := List.forall_mem_append.mp hlater
      exact .inr ⟨⟨before, spot, later, rfl, hbefore, hlater⟩, hg g (List.mem_singleton_self g)⟩
  · rintro (⟨spot, rfl, henabled⟩ | ⟨⟨before, spot, later, rfl, hbefore, hlater⟩, hg⟩)
    · exact ⟨gestures, spot, [], rfl, henabled, by simp⟩
    · refine ⟨before, spot, later ++ [g], by simp, hbefore, ?_⟩
      exact List.forall_mem_append.mpr ⟨hlater, by simpa using hg⟩

theorem place?_concat (gestures : List (Gesture α)) (g : Gesture α) :
    place? (gestures ++ [g]) = g.spot?.or (place? gestures) := by
  unfold place?
  rw [List.filterMap_append, List.getLast?_append]
  cases g <;> rfl

theorem Holds.place? (h : Holds gestures) : (place? gestures).isSome := by
  obtain ⟨before, spot, later, rfl, -, -⟩ := h
  simp [Attractor.place?, Gesture.spot?]

/-! ### What they leave -/

variable [Scalar α] {a : Attractor α}

/-- What a gesture makes of an attractor. -/
def Gesture.leave : Gesture α → Attractor α → Attractor α
  | press spot, a => a.press spot
  | move spot, a => a.move spot
  | release, a => a.release
  | toggle, a => { a with enabled := !a.enabled, held := !a.enabled && a.held }
  | setStrength s, a => { a with strength := boundStrength s }
  | setRadius r, a => { a with radius := boundRadius r }

/-- No gesture can fail. -/
theorem Gesture.act_apply (g : Gesture α) (a : Attractor α) :
    ∃ notes, g.act a = ⟨.ok (), g.leave a, notes⟩ := by
  cases g <;> exact ⟨_, rfl⟩

theorem after_concat (a : Attractor α) (gestures : List (Gesture α)) (g : Gesture α) :
    a.after (gestures ++ [g]) = g.leave (a.after gestures) := by
  obtain ⟨notes, hact⟩ := g.act_apply (a.after gestures)
  rw [after, List.foldl_concat, ← after, hact]

/-- What an attractor remembers of the gestures. -/
structure Remembers (gestures : List (Gesture α)) (a : Attractor α) : Prop where
  enabled : a.enabled = true ↔ Enabled gestures
  held : a.held = true ↔ Holds gestures
  place : ∀ spot, place? gestures = some spot → a.spot = spot

theorem Remembers.leave (h : Remembers gestures a) (g : Gesture α) :
    Remembers (gestures ++ [g]) (g.leave a) where
  enabled := by
    rw [enabled_concat, ← h.enabled]
    cases g <;> simp [Gesture.leave, Gesture.isToggle, press, move, release]
  held := by
    have hheld : a.held = true → a.enabled = true := fun hheld =>
      h.enabled.mpr (h.held.mp hheld).enabled
    rw [holds_concat, ← h.enabled, ← h.held]
    cases g with
    | press spot => simpa [Gesture.leave, Gesture.letsGo, press] using hheld
    | toggle => simpa [Gesture.leave, Gesture.letsGo] using mt hheld
    | move | release | setStrength | setRadius =>
      simp [Gesture.leave, Gesture.letsGo, move, release]
  place := by
    rw [place?_concat]
    cases g with
    | press | move => simp [Gesture.leave, Gesture.spot?, press, move]
    | release | toggle | setStrength | setRadius => exact h.place

theorem remembers_after (strength radius cap : α) (gestures : List (Gesture α)) :
    Remembers gestures ((new strength radius cap).after gestures) := by
  induction gestures using List.reverseRecOn with
  | nil => exact ⟨by simp [after, new, Enabled], by simp [after, new, Holds], by simp [place?]⟩
  | append_singleton gestures g ih =>
    rw [after_concat]
    exact ih.leave g

/-- What an attractor keeps to, whatever it is given: its cap and its limits. -/
structure Bounded (cap : α) (a : Attractor α) : Prop where
  cap : a.cap = cap
  strength : 0.0001 ≤ a.strength ∧ a.strength ≤ 0.5
  radius : 10.0 ≤ a.radius ∧ a.radius ≤ 200.0

theorem bounded_after [Scalar.Lawful α] (hstrength : (0.0001 : α) ≤ 0.5)
    (hradius : (10.0 : α) ≤ 200.0) (strength radius cap : α) (gestures : List (Gesture α)) :
    Bounded cap ((new strength radius cap).after gestures) := by
  have hstrong := Scalar.clamp_within hstrength
  have hwide := Scalar.clamp_within hradius
  induction gestures using List.reverseRecOn with
  | nil => exact ⟨rfl, hstrong strength, hwide radius⟩
  | append_singleton gestures g ih =>
    rw [after_concat]
    cases g with
    | press | move | release | toggle => exact ⟨ih.cap, ih.strength, ih.radius⟩
    | setStrength s => exact ⟨ih.cap, hstrong s, ih.radius⟩
    | setRadius r => exact ⟨ih.cap, ih.strength, hwide r⟩

/-- Whatever machine numbers an attractor is made with and given, infinite ones and those that are
none included: it is enabled after an even number of toggles; it pulls exactly while it is enabled
and a press that was made while it was enabled has not been followed by a release or a toggle; it
then pulls from the place of the last press or move, with the strength and the radius that it has;
and these are always within their limits. -/
theorem follows_gestures (strength radius cap : Float) (gestures : List (Gesture Float)) :
    let a := (new strength radius cap).after gestures
    (a.enabled = true ↔ Enabled gestures) ∧
    (a.sources ≠ [] ↔ Enabled gestures ∧ Holds gestures) ∧
    (a.sources ≠ [] → ∃ spot, place? gestures = some spot ∧
      a.sources = [⟨spot, a.radius, a.strength, cap⟩]) ∧
    (0.0001 ≤ a.strength ∧ a.strength ≤ 0.5) ∧ 10.0 ≤ a.radius ∧ a.radius ≤ 200.0 := by
  intro a
  have hremembers : Remembers gestures a := remembers_after strength radius cap gestures
  have hbounded : Bounded cap a :=
    bounded_after (by decide +kernel) (by decide +kernel) strength radius cap gestures
  have hsources : a.sources ≠ [] ↔ Enabled gestures ∧ Holds gestures := by
    rw [← hremembers.enabled, ← hremembers.held]
    cases he : a.enabled <;> cases hh : a.held <;> simp [sources, he, hh]
  refine ⟨hremembers.enabled, hsources, fun hpulls => ?_, hbounded.strength, hbounded.radius⟩
  obtain ⟨henabled, hholds⟩ := hsources.mp hpulls
  obtain ⟨spot, hspot⟩ := Option.isSome_iff_exists.mp hholds.place?
  refine ⟨spot, hspot, ?_⟩
  simp [sources, hremembers.enabled.mpr henabled, hremembers.held.mpr hholds,
    hremembers.place spot hspot, hbounded.cap]

/-- Switched off and on while it is held, an attractor has let go. -/
example : ((new (0.0 / 0.0) (1.0 / 0.0) 0.1 : Attractor Float).after
    [.press ⟨1.0, 2.0⟩, .toggle, .toggle, .move ⟨3.0, 4.0⟩]).sources.length = 0 := by
  decide +kernel

end Attractor
end Arboretum
