import Arboretum.Proofs.Garden.Rotation
import Arboretum.Proofs.Growth.Record

/-!
A diary of a garden: which plants came, when they came, and which of them have gone since. It is
written beside the garden and changes nothing about it.
-/
namespace Arboretum

open Arboretum.Action

variable {α : Type}

/-- A plant that came into a bed, and when it came. -/
structure Birth (α : Type) where
  time : α
  /-- How many resets there were before. -/
  era : Nat
  plant : Plant α

/-- A planting of the schedule that was tried, with the garden at that moment and the answer. -/
structure Try (α : Type) where
  garden : Garden α
  spot : Vec α
  entry : Pending α
  answer : Option (Plant α)

/-- What has happened to the plants of a garden. They are numbered as they came. -/
structure Diary (α : Type) where
  births : List (Birth α)
  /-- How many resets there were. -/
  era : Nat
  /-- The plants in the bed. -/
  bed : List Nat
  /-- The plants that have left the bed, in that order. -/
  gone : List Nat
  /-- The plants that had to make room for another one, each with all that were in the bed then. -/
  evictions : List (Nat × List Nat)
  tries : List (Try α)

namespace Diary

def blank : Diary α := ⟨[], 0, [], [], [], []⟩

/-- After a planting; a full bed has lost its first plant. -/
def planted (g : Garden α) (answer : Option (Plant α)) (d : Diary α) : Diary α :=
  match answer with
  | none => d
  | some p =>
    { d with
      births := d.births ++ [⟨g.clock.seconds, d.era, p⟩]
      bed := d.bed.drop g.surplus ++ [d.births.length]
      gone := d.gone ++ d.bed.take g.surplus
      evictions := d.evictions ++ (d.bed.take g.surplus).map (·, d.bed) }

/-- After a planting of the schedule. -/
def tried (spot : Vec α) (entry : Pending α) (g : Garden α) (answer : Option (Plant α))
    (d : Diary α) : Diary α :=
  { d.planted g answer with tries := d.tries ++ [⟨g, spot, entry, answer⟩] }

/-- After the turns of the plants; those that failed have left. -/
def tended [Scalar α] (dt : α) (g : Garden α) (d : Diary α) : Diary α :=
  let turns := d.bed.zip (Garden.turns dt g.world g.plants)
  { d with
    bed := (turns.filter fun t => !t.2.fails dt).map (·.1)
    gone := d.gone ++ (turns.filter fun t => t.2.fails dt).map (·.1) }

def cleared (d : Diary α) : Diary α := { d with bed := [], gone := d.gone ++ d.bed }

def reset (d : Diary α) : Diary α := { d.cleared with era := d.era + 1 }

end Diary

namespace Garden

/-- An operation of a garden with a diary beside it. -/
abbrev Watch (α ρ : Type) : Type := Action (Entry α) (Garden α × Diary α) ρ

variable {ρ : Type}

/-- After an operation its answer is put in the diary, with the garden before it in view. -/
def watching (x : Tending α ρ) (entry : Garden α → ρ → Diary α → Diary α) : Watch α ρ := do
  let (g, _) ← Action.read
  let a ← x.onFst
  Action.modify fun (t, d) => (t, entry g a d)
  return a

theorem watching_of_ok {x : Tending α ρ} {g : Garden α} {a : ρ} (h : (x g).result = .ok a)
    (entry : Garden α → ρ → Diary α → Diary α) (d : Diary α) :
    (watching x entry (g, d)).result = .ok a ∧
      (watching x entry (g, d)).state = ((x g).state, entry g a d) := by
  have hx : (x.onFst (g, d)).result = .ok a := h
  unfold watching
  rw [read_bind]
  dsimp only
  rw [bind_of_ok hx]
  exact ⟨rfl, rfl⟩

theorem watching_of_error {x : Tending α ρ} {g : Garden α} {e : Fault}
    (h : (x g).result = .error e) (entry : Garden α → ρ → Diary α → Diary α) (d : Diary α) :
    (watching x entry (g, d)).state = ((x g).state, d) := by
  have hx : (x.onFst (g, d)).result = .error e := h
  unfold watching
  rw [read_bind]
  dsimp only
  rw [bind_of_error hx]
  rfl

theorem keeps_watching {kept : Garden α × Diary α → Prop} {x : Tending α ρ}
    {entry : Garden α → ρ → Diary α → Diary α}
    (hend : ∀ g d a, kept (g, d) → (x g).result = .ok a → kept ((x g).state, entry g a d))
    (hstop : ∀ g d e, kept (g, d) → (x g).result = .error e → kept ((x g).state, d)) :
    Keeps kept (watching x entry) := by
  rintro ⟨g, d⟩ h
  cases hr : (x g).result with
  | error e =>
    rw [watching_of_error hr]
    exact hstop g d e h hr
  | ok a =>
    rw [(watching_of_ok hr entry d).2]
    exact hend g d a h hr

theorem mirrors_watching (x : Tending α ρ) (entry : Garden α → ρ → Diary α → Diary α) :
    Mirrors Prod.fst (watching x entry) x := by
  intro s
  have hwrite : Mirrors Prod.fst
      (do let a ← x.onFst; Action.modify fun t => (t.1, entry s.1 a t.2); return a : Watch α ρ)
      (x >>= Pure.pure) :=
    (Mirrors.onFst x).bind fun a t => rfl
  rw [bind_pure] at hwrite
  exact hwrite s

variable [Scalar α]

/-- What follows in a tick when the plants have had their turns. -/
def moveOn (dt : α) : Tending α Unit := do
  let g ← Action.read
  let points ← Action.ofExcept g.movable
  applyForces points
  Action.modify fun g => { g with world := g.world.step dt, clock := g.clock.advance dt }

def watchNext (entry : Pending α) (rest : List (Pending α)) : Watch α Unit := do
  let spot ← (site rest).onFst
  let planted ← watching (createPlant spot entry.kind none) (Diary.tried spot entry)
  if planted.isNone then (say .plantingSkipped).onFst

def watchDue (now : α) : List (Pending α) → Watch α Unit
  | [] => return
  | entry :: rest => do
    if entry.due ≤ now then
      watchNext entry rest
      watchDue now rest

def watchTick (dt : α) : Watch α Unit := do
  let (g, _) ← Action.read
  watchDue g.clock.seconds g.pending
  watching (tendAll dt) fun g _ d => d.tended dt g
  (moveOn dt).onFst

theorem watchNext_of_ok {g : Garden α} {entry : Pending α} {rest : List (Pending α)} {spot : Vec α}
    {answer : Option (Plant α)} (hspot : (site rest g).result = .ok spot)
    (hanswer : (createPlant spot entry.kind none (site rest g).state).result = .ok answer)
    (d : Diary α) : (watchNext entry rest (g, d)).result = .ok () ∧
      (watchNext entry rest (g, d)).state =
        ((createPlant spot entry.kind none (site rest g).state).state,
          d.tried spot entry (site rest g).state answer) := by
  have hsite : ((site rest).onFst (g, d) : Report _ (Garden α × Diary α) _).result = .ok spot :=
    hspot
  have hmoved : ((site rest).onFst (g, d) : Report _ (Garden α × Diary α) _).state =
    ((site rest g).state, d) := rfl
  obtain ⟨hplanted, hstate⟩ := watching_of_ok hanswer (Diary.tried spot entry) d
  unfold watchNext
  rw [bind_of_ok hsite, hmoved, bind_of_ok hplanted, hstate]
  cases answer <;> exact ⟨rfl, rfl⟩

theorem mirrors_watchNext (entry : Pending α) (rest : List (Pending α)) :
    Mirrors Prod.fst (watchNext entry rest) (plantNext entry rest) := by
  refine (Mirrors.onFst _).bind fun spot => (mirrors_watching _ _).bind fun planted => ?_
  split
  · exact .onFst _
  · exact .pure ()

theorem mirrors_watchDue (now : α) (entries : List (Pending α)) :
    Mirrors Prod.fst (watchDue now entries) (plantDue now entries) := by
  induction entries with
  | nil => exact .pure ()
  | cons entry rest ih =>
    rw [plantDue_cons, watchDue]
    split
    · exact (mirrors_watchNext entry rest).bind fun _ => ih
    · exact .pure ()

theorem mirrors_watchTick (dt : α) : Mirrors Prod.fst (watchTick dt) (update dt) := by
  intro s
  have htick := (mirrors_watchDue s.1.clock.seconds s.1.pending).bind fun _ =>
    (mirrors_watching (tendAll dt) fun g _ d => d.tended dt g).bind fun _ => .onFst (moveOn dt)
  exact htick s

end Garden

namespace Deed

open Garden

variable [Scalar α]

/-- A deed with a diary beside the garden. -/
def watched : Deed α → Watch α Unit
  | plant spot kind grammar => do
    let _ ← watching (createPlant spot kind grammar) Diary.planted
  | clear => watching Garden.clear fun _ _ d => d.cleared
  | reset => watching Garden.reset fun _ _ d => d.reset
  | tick dt => watchTick dt
  | d => d.act.onFst

/-- Keeping a diary changes nothing about what is done. -/
theorem mirrors_watched (d : Deed α) : Mirrors Prod.fst d.watched d.act := by
  cases d with
  | plant spot kind grammar => exact (mirrors_watching _ _).bind fun _ => .pure ()
  | clear => exact mirrors_watching _ _
  | reset => exact mirrors_watching _ _
  | tick dt => exact mirrors_watchTick dt
  | _ => exact .onFst _

/-- The diary after a deed. -/
def entered (d : Deed α) (g : Garden α) (diary : Diary α) : Diary α :=
  (d.watched (g, diary)).state.2

theorem watched_state (d : Deed α) (g : Garden α) (diary : Diary α) :
    (d.watched (g, diary)).state = ((d.act g).state, d.entered g diary) :=
  Prod.ext (d.mirrors_watched.state (g, diary)) rfl

end Deed
end Arboretum
