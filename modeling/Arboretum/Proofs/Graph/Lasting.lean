import Arboretum.Graph.Release
import Arboretum.Proofs.Graph.Rules
import Arboretum.Proofs.World.Edit

/-!
What every change of a world keeps, building and releasing bodies in it keeps, whatever the bodies
are.
-/
namespace Arboretum

open Arboretum.Action

variable {α : Type}

namespace World

/-- A property of sound worlds that no change takes away. -/
structure Lasting (kept : World α → Prop) : Prop where
  sound : ∀ w, kept w → w.Sound
  change : ∀ w w', kept w → Change (fun _ => True) w w' → kept w'

variable {kept : World α → Prop}

theorem Lasting.changes (h : Lasting kept) {w w' : World α} (hw : kept w)
    (hc : Changes (fun _ => True) w w') : kept w' :=
  hc.keep kept hw h.change

theorem lasting_ready : Lasting (α := α) Ready where
  sound _ h := h.toSound
  change _ _ h hc := hc.changes.ready h

/-- What a world was set up with lasts. -/
theorem lasting_setting (setting : Setting α) :
    Lasting fun w : World α => w.Ready ∧ w.setting = setting where
  sound _ h := h.1.toSound
  change _ _ h hc := ⟨hc.changes.ready h.1, hc.changes.setting.trans h.2⟩

/-- A sound world that has given out a number to a point. -/
structure Gave (id : Nat) (w : World α) : Prop where
  sound : w.Sound
  given : id < w.slots.size

theorem lasting_gave (id : Nat) : Lasting (α := α) (Gave id) where
  sound _ h := h.sound
  change _ _ h hc := ⟨hc.sound h.sound, Nat.lt_of_lt_of_le h.given (hc.onward h.sound).points⟩

theorem Lasting.pin (h : Lasting kept) (p : Point α) : Keeps kept (pin p) :=
  fun w hw => h.changes hw (changes_pin p w)

theorem Lasting.removePoint (h : Lasting kept) (p : Option (Point α)) :
    Keeps kept (removePoint p) :=
  fun w hw => h.changes hw (changes_removePoint p w)

theorem Lasting.removeSpring (h : Lasting kept) (s : Option Spring) :
    Keeps kept (removeSpring s) :=
  fun w hw => h.changes hw (changes_removeSpring (h.sound w hw) s)

section
variable [Scalar α]

theorem Lasting.addPoint (h : Lasting kept) (spot : Vec α) (mass : α) (pinned : Bool) :
    Keeps kept (addPoint spot mass pinned) :=
  fun w hw => h.changes hw (changes_addPoint spot mass pinned trivial w)

theorem Lasting.push (h : Lasting kept) (p : Option (Point α)) (force : Vec α) :
    Keeps kept (push p force) :=
  fun w hw => h.changes hw (changes_push p force w)

theorem Lasting.step (h : Lasting kept) (dt : α) {w : World α} (hw : kept w) : kept (w.step dt) :=
  h.change w _ hw (.moved (moved_step dt w))

theorem Lasting.addSpring (h : Lasting kept) {w : World α} (hw : kept w) (a b : Option Nat)
    (stiffness : α) (rest : Option α) (damping : α) :
    kept (addSpring (a.map w.point) (b.map w.point) stiffness rest damping w).state := by
  have hsees : ∀ c : Option Nat, ∀ p ∈ c.map w.point, w.Sees p := by
    intro c p hp
    obtain ⟨id, _, rfl⟩ := Option.map_eq_some_iff.mp hp
    exact fun _ => rfl
  exact h.changes hw (changes_addSpring (hsees a) (hsees b) stiffness rest damping)

end
end World

/-- Does a segment lead from one cell into another? -/
def Segment.spans [Scalar α] (s : Segment α) : Except Fault Bool := do
  let startCell ← Cell.of s.start
  let tipCell ← Cell.of s.tip
  if startCell = tipCell then return false
  let _ : α ← Scalar.ofInt s.depth
  return true

theorem Segment.spans_eq [Scalar α] (s : Segment α) : s.spans = do
    let ends ← s.cells
    if ends.1 = ends.2 then return false
    let _ : α ← Scalar.ofInt s.depth
    return true := by
  unfold Segment.spans Segment.cells
  cases Cell.of s.start with
  | error e => rfl
  | ok start =>
    cases Cell.of s.tip with
    | error e => rfl
    | ok tip => rfl

namespace Graph

variable {kept : World α → Prop}

/-- What an operation on the world keeps, building keeps of its world. -/
theorem keeps_inWorld {ρ : Type} {x : Action (Note α) (World α) ρ} (h : Keeps kept x) :
    Keeps (fun s : World α × Graph α => kept s.1) (inWorld x) :=
  fun s hs => h s.1 hs

theorem keeps_record (f : Graph α → Graph α) :
    Keeps (fun s : World α × Graph α => kept s.1) (record f) := fun _ hs => hs

variable (h : World.Lasting kept)
include h

theorem keeps_dropSpring (serial : Nat) :
    Keeps (fun s : World α × Graph α => kept s.1) (dropSpring serial) := by
  unfold dropSpring
  refine .bind .read fun s => ?_
  dsimp only
  split
  · exact .bind (keeps_inWorld (h.removeSpring _)) fun _ => .pure _
  · exact .pure _

theorem keeps_dropPoint (id : Nat) :
    Keeps (fun s : World α × Graph α => kept s.1) (dropPoint id) := by
  unfold dropPoint
  refine .bind .read fun s => ?_
  dsimp only
  split
  · exact .bind (keeps_inWorld (h.removePoint _)) fun _ => .pure _
  · exact .pure _

theorem lasting_release : Keeps (fun s : World α × Graph α => kept s.1) release := by
  unfold release
  refine .bind .read fun s => ?_
  refine .bind (.forEach _ fun serial _ => keeps_dropSpring h serial) fun _ => ?_
  exact .bind (.forEach _ fun id _ => keeps_dropPoint h id) fun _ => keeps_record _

variable [Scalar α]

theorem lasting_jointAt (cell : Cell) (spot : Vec α) (mass : α) (fixed : Bool) :
    Keeps (fun s => kept s.1) (jointAt cell spot mass fixed) := by
  apply Meets.keeps
  refine Meets.each fun s hs => ?_
  apply meets_jointAt_of
  case hnew => exact fun _ => (keeps_inWorld (h.addPoint spot mass fixed)).meets.one hs
  case hlost => exact fun _ _ _ _ _ => hs
  case hfound => exact fun _ _ _ => hs
  case hpinned => exact fun id _ _ _ _ _ => (keeps_inWorld (h.pin (s.1.point id))).meets.one hs

/-- Joining points by what the builder has just seen of them. -/
theorem lasting_join {w : World α} (hw : kept w) (g : Graph α) (a b : Nat) (stiffness : α)
    (rest : Option α) (damping : α) :
    Meets (· = (w, g))
      (inWorld (World.addSpring (some (w.point a)) (some (w.point b)) stiffness rest damping))
      (fun s => kept s.1) fun _ s => kept s.1 := by
  intro s hs
  subst hs
  have hk := h.addSpring hw (some a) (some b) stiffness rest damping
  exact ⟨fun _ _ => hk, fun _ _ => hk⟩

/-- A segment stops what builds it before anything is built, or builds nothing, or gets a joint at
its start first; what that brings about, the rest of the work on the segment keeps. -/
theorem materialize_cases (s : Segment α) (index : Option Int) :
    (∃ e, s.spans = .error e ∧ materialize s index = fail e) ∨
    (s.spans = .ok false ∧ ∃ n : Note α, materialize s index = do Action.note n; return none) ∨
    (s.spans = .ok true ∧ ∀ pre : World α × Graph α → Prop,
      (∀ cell spot mass, Meets pre (jointAt cell spot mass s.isRoot) (fun s => kept s.1)
        fun _ s => kept s.1) →
      Meets pre (materialize s index) (fun s => kept s.1) fun _ s => kept s.1) := by
  rw [Segment.spans_eq]
  cases hcells : s.cells with
  | error e => exact .inl ⟨e, rfl, materialize_unread hcells index⟩
  | ok ends =>
  obtain ⟨start, tip⟩ := ends
  by_cases hne : start = tip
  · subst tip
    exact .inr (.inl ⟨if_pos rfl, _, materialize_within hcells index⟩)
  cases hdepth : (Scalar.ofInt s.depth : Except Fault α) with
  | error e => exact .inl ⟨e, if_neg hne, materialize_unmeasured hcells hne hdepth index⟩
  | ok depth =>
  refine .inr (.inr ⟨if_neg hne, fun pre hstart => Meets.each fun t ht => ?_⟩)
  apply meets_materialize_between hcells hne (fun _ s => kept s.1) fun _ _ s => kept s.1
  case hdepth =>
    intro e he
    cases hdepth.symm.trans he
  case hstart => exact fun spot mass => (hstart start spot mass).one ht
  case hseen => exact fun _ _ _ ha _ => ha
  case htip => exact fun _ spot mass => (lasting_jointAt h tip spot mass s.isRoot).meets
  case hspring =>
    intro a b w g stiffness hw
    apply (lasting_join h hw g a b stiffness _ _).weaken
    exact fun _ _ hk => ⟨fun _ => hk, fun _ _ _ _ => hk⟩

theorem lasting_materialize (s : Segment α) (index : Option Int) :
    Keeps (fun s => kept s.1) (materialize s index) := by
  apply keeps_materialize_of fun _ s => kept s.1
  case hforget => exact fun _ _ _ hs => hs
  case hjoint => exact fun _ cell spot mass => (lasting_jointAt h cell spot mass s.isRoot).meets
  case hspring =>
    intro a b w g stiffness rest hw
    exact (lasting_join h hw g a b stiffness rest _).weaken fun _ _ hk => ⟨hk, fun _ _ _ => hk⟩

theorem lasting_brace (a b : Segment α) : Keeps (fun s => kept s.1) (brace a b) := by
  apply keeps_brace_of
  intro w g _ _ p q stiffness rest hw _
  exact (lasting_join h hw g p q stiffness _ _).weaken fun _ _ hk => ⟨hk, fun _ _ => hk⟩

theorem lasting_addBraces (segments : List (Segment α)) :
    Keeps (fun s => kept s.1) (addBraces segments) := keeps_addBraces_of (lasting_brace h)

theorem lasting_hang (index : PointIndex α Nat) (f : Fruit α) :
    Keeps (fun s => kept s.1) (hang index f) := by
  apply Meets.keeps
  refine Meets.each fun s hs => ?_
  apply meets_hang_of fun _ _ s => kept s.1
  case hunhung => exact fun _ => hs
  case hpoint => exact fun _ _ => (keeps_inWorld (h.addPoint _ _ _)).meets.one hs
  case hspring =>
    intro joint point w g hw
    refine (lasting_join h hw g joint point _ _ _).weaken fun _ t hk => ⟨fun _ => ?_, fun _ _ => hk⟩
    exact (keeps_inWorld (h.removePoint _)).meets.one hk

theorem lasting_hangAll (fruits : List (Fruit α)) :
    Keeps (fun s => kept s.1) (hangAll fruits) := by
  apply Meets.keeps
  refine Meets.each fun s hs => ?_
  apply meets_hangAll_of
  case hnone => exact fun _ => hs
  case hstop => exact fun _ _ => hs
  case hall =>
    intro _ index _ _ _
    have hall : Keeps (fun s => kept s.1) (forEach fruits (hang index)) :=
      .forEach _ fun f _ => lasting_hang h index f
    exact hall.meets.one hs

end Graph
end Arboretum
