import Arboretum.Proofs.Binary64.Words
import Arboretum.Proofs.World.Edit
import Mathlib.Logic.Function.Basic

/-!
Worlds side by side, each of which may be handed the holders of another's points and springs.
-/
namespace Arboretum

open Float.Model (UnpackedFloat)

namespace Binary64

/-- What is not at most zero is above it, unless it is not a number. -/
theorem pos_of_not_le {a : Float} (h : Scalar.isNaN a = false) (hle : ¬ a ≤ 0) : 0 < a := by
  have hz : (0 : Float).toModel.unpack = .zero .positive := rfl
  change (!(a.toModel.unpack.beq a.toModel.unpack)) = false at h
  rw [le_iff, hz] at hle
  rw [lt_iff, hz]
  generalize a.toModel.unpack = u at h hle ⊢
  cases u with
  | notANumber => cases h
  | infinity sign =>
    cases sign with
    | positive => rfl
    | negative => exact absurd rfl hle
  | zero sign => exact absurd rfl hle
  | finite sign m e hm =>
    cases sign with
    | positive => rfl
    | negative => exact absurd rfl hle

end Binary64

namespace World

theorem massOf_pos {asked : Float} (h : Scalar.isNaN asked = false) : 0 < massOf asked := by
  unfold massOf
  split
  · have hleast : 0 < (leastMass : Float) := by decide
    exact hleast
  · rename_i hle
    exact Binary64.pos_of_not_le h hle

/-- The points alive weigh something. -/
def Heavy (w : World Float) : Prop := ∀ id p, w.particle? id = some p → 0 < p.mass

/-- How a world that had `initial` rows at first is laid out between any two operations. -/
structure Tidy (initial : Nat) (w : World Float) : Prop where
  room : w.count ≤ w.capacity
  doubled : ∃ k, w.capacity = initial * 2 ^ k
  bodies : ∀ slot id, w.bodies[slot]? = some id →
    w.owns (w.point id) ∧ (w.point id).slot? = some slot ∧ id < w.slots.size
  distinct : w.bodies.toList.Nodup
  heavy : ∀ slot < w.count, ∃ p, w.rows[slot]? = some p ∧ 0 < p.mass
  springs : ∀ place serial, w.springs[place]? = some serial →
    w.spring serial = ⟨w.tag, serial, some place⟩ ∧ serial < w.links.size ∧
    ∃ bond, w.bond? serial = some bond ∧ bond.a ≠ bond.b ∧ bond.a ∈ w.bodies ∧ bond.b ∈ w.bodies
  springsDistinct : w.springs.toList.Nodup
  removed : ∀ id, w.isAlive id = false →
    (w.point id).slot? = none ∧ id ∉ w.bodies ∧
    ∀ serial ∈ w.springs, ∀ bond, w.bond? serial = some bond → bond.meets id = false
  springsRemoved : ∀ serial, w.springIsAlive serial = false →
    (w.spring serial).place = none ∧ serial ∉ w.springs

variable {w : World Float}

theorem point_slot? (h : Sound w) (id : Nat) : (w.point id).slot? = w.slot? id := by
  have hp := h.particle?_isSome id
  rw [Point.slot?, point_seat]
  cases hr : w.particle? id <;> cases hs : w.slot? id <;> simp_all [isAlive]

theorem Sound.tidy (h : Sound w) (hw : Heavy w) {initial : Nat}
    (hk : ∃ k, w.capacity = initial * 2 ^ k) : Tidy initial w where
  room := h.room
  doubled := hk
  bodies := by
    intro slot id he
    have hs := (h.seats slot id).mp he
    refine ⟨?_, (point_slot? h id).trans hs, slot?_lt hs⟩
    rw [owns, point_isAlive h, Bool.and_eq_true]
    exact ⟨beq_self_eq_true w.tag, by simp [isAlive, hs]⟩
  distinct := indexed_nodup h.seats
  heavy := by
    intro slot hlt
    have hrow : slot < w.rows.size := Nat.lt_of_lt_of_le hlt h.room
    refine ⟨_, Array.getElem?_eq_getElem hrow, ?_⟩
    have hs := (h.seats slot _).mp (Array.getElem?_eq_getElem hlt)
    exact hw w.bodies[slot] _ (by simp [particle?, hs, hrow])
  springs := by
    intro place serial he
    have hp := (h.places place serial).mp he
    have hsome : (w.bond? serial).isSome := by simp [bond?_isSome, springIsAlive, hp]
    obtain ⟨bond, hb⟩ := Option.isSome_iff_exists.mp hsome
    obtain ⟨hne, ha, hb'⟩ := h.ends serial bond hb
    refine ⟨by simp [spring, hp], place?_lt hp, bond, hb, hne, ?_, ?_⟩
    · exact (mem_bodies h _).mpr ha
    · exact (mem_bodies h _).mpr hb'
  springsDistinct := indexed_nodup h.places
  removed := by
    intro id hdead
    refine ⟨?_, fun hm => ?_, fun serial _ bond hb => ?_⟩
    · rw [point_slot? h]
      simpa [isAlive] using hdead
    · rw [(mem_bodies h id).mp hm] at hdead
      cases hdead
    · obtain ⟨_, ha, hb'⟩ := h.ends serial bond hb
      rw [Bond.meets, Bool.or_eq_false_iff, beq_eq_false_iff_ne, beq_eq_false_iff_ne]
      refine ⟨fun he => ?_, fun he => ?_⟩
      · rw [he, hdead] at ha
        cases ha
      · rw [he, hdead] at hb'
        cases hb'
  springsRemoved := by
    intro serial hdead
    refine ⟨by simpa [springIsAlive, spring] using hdead, fun hm => ?_⟩
    rw [(mem_springs h serial).mp hm] at hdead
    cases hdead

end World

/-- What happens to worlds kept side by side. The holders are of points and springs of any of
them. -/
inductive Move where
  | edit (i : Nat) (e : Edit Float (Nat × Nat) (Nat × Nat))
  | step (i : Nat) (dt : Float)

namespace Move

/-- A move on one world, with what the holders see of theirs. -/
def act : Move → (Nat → World Float) → Except Fault Answer × (Nat → World Float)
  | .edit i e, ws =>
    let report := e.run (fun h => (ws h.1).point h.2) (fun h => (ws h.1).spring h.2) (ws i)
    (report.result, Function.update ws i report.state)
  | .step i dt, ws => (.ok .nothing, Function.update ws i ((ws i).step dt))

/-- Does a move ask for no point whose mass is not a number? -/
def Weighed (m : Move) : Prop :=
  ∀ i spot mass pinned, m = .edit i (.addPoint spot mass pinned) → Scalar.isNaN mass = false

/-- Each of the worlds has its own tag and its tables agree. -/
def Apart (ws : Nat → World Float) : Prop := ∀ i, (ws i).tag = i ∧ (ws i).Sound

open World

theorem changes_act {ws : Nat → World Float} (hws : Apart ws) {m : Move} (hm : m.Weighed)
    (j : Nat) : Changes (0 < ·.mass) (ws j) ((m.act ws).2 j) := by
  have hother : ∀ i w, i ≠ j → Function.update ws i w j = ws j :=
    fun i w hij => Function.update_of_ne (Ne.symm hij) w ws
  cases m with
  | edit i e =>
    by_cases hij : i = j
    · subst i
      simp only [act, Function.update_self]
      refine changes_run (hws j).2 _ ?_ e ?_
      · -- a holder that names this world as its home is of this world
        rintro ⟨k, id⟩ hh
        have hk : k = j := by
          rw [← (hws k).1, ← (hws j).1]
          exact hh
        rw [hk]
        rfl
      · intro spot mass pinned he
        exact massOf_pos (hm j spot mass pinned (by rw [he]))
    · simp only [act, hother i _ hij]
      exact .none
  | step i dt =>
    by_cases hij : i = j
    · subst i
      simp only [act, Function.update_self]
      exact (Change.moved (moved_step dt (ws j))).changes
    · simp only [act, hother i _ hij]
      exact .none

theorem apart_act {ws : Nat → World Float} (hws : Apart ws) {m : Move} (hm : m.Weighed) :
    Apart (m.act ws).2 := by
  intro j
  have hc := changes_act hws hm j
  exact ⟨(hc.onward (hws j).2).tag.trans (hws j).1, hc.sound (hws j).2⟩

/-- The worlds after some moves. -/
def after (ms : List Move) (ws : Nat → World Float) : Nat → World Float := (history act ms ws).2

theorem after_append (before later : List Move) (ws : Nat → World Float) :
    after (before ++ later) ws = after later (after before ws) :=
  history_append act before later ws

theorem changes_after {ws : Nat → World Float} (hws : Apart ws) {ms : List Move}
    (hms : ∀ m ∈ ms, m.Weighed) :
    Apart (after ms ws) ∧ ∀ j, Changes (0 < ·.mass) (ws j) (after ms ws j) := by
  refine history_keeps
    (fun ws' => Apart ws' ∧ ∀ j, Changes (0 < ·.mass) (ws j) (ws' j)) ?_
    ⟨hws, fun _ => .none⟩
  rintro m hm ws' ⟨hws', hc⟩
  exact ⟨apart_act hws' (hms m hm), fun j => (hc j).trans (changes_act hws' (hms m hm) j)⟩

/-- A removal that is answered with success was of a point of that world, which is gone. -/
theorem removed_act {ws : Nat → World Float} (hws : Apart ws) {i : Nat} {h : Nat × Nat}
    (ha : (act (.edit i (.removePoint (some h))) ws).1 = .ok (.flag true)) :
    h.1 = i ∧ h.2 < (ws i).slots.size ∧
      ((act (.edit i (.removePoint (some h))) ws).2 i).isAlive h.2 = false := by
  simp only [act, Edit.run, Action.map_apply, removePoint_apply, Function.update_self] at ha ⊢
  cases hs : (some h |>.map fun h => (ws h.1).point h.2).bind (ws i).seated? with
  | none =>
    rw [hs] at ha
    simp [Except.map] at ha
  | some found =>
    obtain ⟨id, slot⟩ := found
    obtain ⟨hid, hhome, hslot⟩ := slot?_of_seated? (w := ws i) (p := (ws h.1).point h.2) hs
    have hwhose : h.1 = i := by
      rw [← (hws h.1).1, ← (hws i).1]
      exact hhome
    have hnum : h.2 = id := hid
    refine ⟨hwhose, hnum ▸ slot?_lt hslot, ?_⟩
    simp [isAlive, slot?_without (hws i).2 hslot, hnum]

theorem springRemoved_act {ws : Nat → World Float} (hws : Apart ws) {i : Nat} {h : Nat × Nat}
    (ha : (act (.edit i (.removeSpring (some h))) ws).1 = .ok (.flag true)) :
    h.1 = i ∧ h.2 < (ws i).links.size ∧
      ((act (.edit i (.removeSpring (some h))) ws).2 i).springIsAlive h.2 = false := by
  simp only [act, Edit.run, Action.map_apply, removeSpring_apply, Function.update_self] at ha ⊢
  cases hs : (some h |>.map fun h => (ws h.1).spring h.2).bind (ws i).listed? with
  | none =>
    rw [hs] at ha
    simp [Except.map] at ha
  | some found =>
    obtain ⟨serial, place⟩ := found
    obtain ⟨hserial, hhome, hplace⟩ :=
      place?_of_listed? (w := ws i) (hws i).2 (s := (ws h.1).spring h.2) hs
    have hwhose : h.1 = i := by
      rw [← (hws h.1).1, ← (hws i).1]
      exact hhome
    have hnum : h.2 = serial := hserial
    refine ⟨hwhose, hnum ▸ place?_lt hplace, ?_⟩
    simp [springIsAlive, place?_unlink (hws i).2 hplace, hnum]

theorem onward_after {ws : Nat → World Float} (hws : Apart ws) {ms : List Move}
    (hms : ∀ m ∈ ms, m.Weighed) (i : Nat) : Onward (ws i) (after ms ws i) :=
  ((changes_after hws hms).2 i).onward (hws i).2

theorem tidy_of_changes (tag : Nat) (setting : Setting Float) (initial : Nat) {w : World Float}
    (h : Changes (0 < ·.mass) (World.new tag setting initial) w) : w.Tidy initial := by
  have hnew := Sound.new tag setting initial
  have hheavy : Heavy (World.new tag setting initial) := by
    intro id p hp
    simp [particle?, slot?, World.new] at hp
  have hstep : ∀ w₁ w₂, Sound w₁ ∧ Heavy w₁ → Change (0 < ·.mass) w₁ w₂ → Sound w₂ ∧ Heavy w₂ := by
    rintro w₁ w₂ ⟨hs, hw⟩ hc
    exact ⟨hc.sound hs, hc.masses hs hw⟩
  obtain ⟨hs, hw⟩ := h.keep (fun w => Sound w ∧ Heavy w) ⟨hnew, hheavy⟩ hstep
  have hk := h.capacity hnew
  exact hs.tidy hw (by simpa [World.new, World.capacity] using hk)

/-- Whatever is asked of worlds with whoever's holders, each of them stays tidy, and a point or
spring that was removed is never alive again. -/
theorem tidy_after (setting : Nat → Setting Float) (initial : Nat → Nat)
    {ms : List Move} (hms : ∀ m ∈ ms, m.Weighed) :
    let start := fun i => World.new i (setting i) (initial i)
    (∀ i, (after ms start i).Tidy (initial i)) ∧
      (∀ before later, ms = before ++ later →
        ∀ i, Onward (after before start i) (after ms start i)) ∧
      (∀ before later i h, ms = before ++ .edit i (.removePoint (some h)) :: later →
        (act (.edit i (.removePoint (some h))) (after before start)).1 = .ok (.flag true) →
        h.1 = i ∧ (after ms start i).isAlive h.2 = false) ∧
      ∀ before later i h, ms = before ++ .edit i (.removeSpring (some h)) :: later →
        (act (.edit i (.removeSpring (some h))) (after before start)).1 = .ok (.flag true) →
        h.1 = i ∧ (after ms start i).springIsAlive h.2 = false := by
  intro start
  have hstart : Apart start := fun i => ⟨rfl, .new i (setting i) (initial i)⟩
  refine ⟨fun i => ?_, ?_, ?_, ?_⟩
  · exact tidy_of_changes i (setting i) (initial i) ((changes_after hstart hms).2 i)
  · rintro before later rfl i
    rw [List.forall_mem_append] at hms
    rw [after_append]
    exact onward_after (changes_after hstart hms.1).1 hms.2 i
  · rintro before later i h rfl hanswer
    rw [List.forall_mem_append, List.forall_mem_cons] at hms
    obtain ⟨hbefore, hmove, hlater⟩ := hms
    have hap := (changes_after hstart hbefore).1
    obtain ⟨hwhose, hid, hdead⟩ := removed_act hap hanswer
    have hnow := (changes_act hap hmove i).onward (hap i).2
    have hon := onward_after (apart_act hap hmove) hlater i
    rw [after_append]
    refine ⟨hwhose, Bool.eq_false_iff.mpr fun ha => ?_⟩
    have hback := hon.gone h.2 (Nat.lt_of_lt_of_le hid hnow.points) ha
    rw [hdead] at hback
    cases hback
  · rintro before later i h rfl hanswer
    rw [List.forall_mem_append, List.forall_mem_cons] at hms
    obtain ⟨hbefore, hmove, hlater⟩ := hms
    have hap := (changes_after hstart hbefore).1
    obtain ⟨hwhose, hserial, hdead⟩ := springRemoved_act hap hanswer
    have hnow := (changes_act hap hmove i).onward (hap i).2
    have hon := onward_after (apart_act hap hmove) hlater i
    rw [after_append]
    refine ⟨hwhose, Bool.eq_false_iff.mpr fun ha => ?_⟩
    have hback := hon.springGone h.2 (Nat.lt_of_lt_of_le hserial hnow.springs) ha
    rw [hdead] at hback
    cases hback

/-- Two worlds with room for one point, and holders of each handed to the other. -/
def exchanged : List Move :=
  [.edit 0 (.addPoint ⟨0, 0⟩ 1 false), .edit 1 (.addPoint ⟨1, 0⟩ 0 true),
    .edit 0 (.addPoint ⟨0, 1⟩ 2 false), .edit 1 (.pin (0, 1)), .edit 1 (.removePoint (some (0, 0))),
    .edit 0 (.addSpring (some (0, 0)) (some (0, 1)) 1 none 0.5),
    .edit 0 (.addSpring (some (0, 0)) (some (1, 0)) 1 none 0.5), .step 0 0.5,
    .edit 0 (.removePoint (some (0, 0)))]

theorem tidy_after_exchanged : (∀ m ∈ exchanged, m.Weighed) ∧
    ∀ i, (after exchanged (fun i => World.new i Setting.default 1) i).Tidy 1 := by
  have hweighed : ∀ m ∈ exchanged, m.Weighed := by
    intro m hm i spot mass pinned he
    subst he
    simp only [exchanged, List.mem_cons, edit.injEq, Edit.addPoint.injEq, List.not_mem_nil,
      reduceCtorEq, and_false, or_false] at hm
    obtain ⟨_, _, rfl, _⟩ | ⟨_, _, rfl, _⟩ | ⟨_, _, rfl, _⟩ := hm <;> decide
  exact ⟨hweighed, (tidy_after (fun _ => Setting.default) (fun _ => 1) hweighed).1⟩

end Move
end Arboretum
