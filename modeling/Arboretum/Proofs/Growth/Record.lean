import Arboretum.Growth
import Arboretum.Proofs.Action

/-!
What a crew has been told to do. A crew that keeps a record of its work does that work as it would
without one, so that a plan can be judged by the record.
-/
namespace Arboretum

open Arboretum.Action

variable {α σ ν τ ρ ρ' : Type}

namespace Action

/-- An operation that returns takes one state to another. -/
def Ends (x : Action ν σ ρ) (s t : σ) : Prop := ∃ a notes, x s = ⟨.ok a, t, notes⟩

theorem Meets.ends {pre stopped : σ → Prop} {post : σ → Prop} {x : Action ν σ ρ} {s t : σ}
    (hx : Meets pre x stopped fun _ => post) (hs : pre s) (h : Ends x s t) : post t := by
  obtain ⟨a, notes, h⟩ := h
  have hpost := (hx s hs).2 a (by rw [h])
  rwa [h] at hpost

theorem Ends.state_eq {x : Action ν σ ρ} {s t : σ} (h : Ends x s t) : (x s).state = t := by
  obtain ⟨a, notes, h⟩ := h
  rw [h]

theorem Ends.of_isOk {x : Action ν σ ρ} {s : σ} (h : (x s).result.isOk = true) :
    Ends x s (x s).state := by
  rcases hx : x s with ⟨_ | a, t, notes⟩
  · rw [hx] at h
    cases h
  · exact ⟨a, notes, by rw [hx]⟩

theorem Ends.of_cons {ι : Type} {i : ι} {xs : List ι} {f : ι → Action ν σ ρ} {s u : σ}
    (h : Ends (Action.forEach (i :: xs) f) s u) :
    ∃ t, Ends (f i) s t ∧ Ends (Action.forEach xs f) t u := by
  obtain ⟨as, notes, h⟩ := h
  unfold Action.forEach at h
  rw [bind_apply] at h
  rcases hi : f i s with ⟨_ | a, t, before⟩
  · rw [hi] at h
    cases h
  · refine ⟨t, ⟨a, before, hi⟩, ?_⟩
    rw [hi] at h
    dsimp only at h
    rw [bind_apply] at h
    rcases hxs : Action.forEach xs f t with ⟨_ | rest, v, after⟩
    · rw [hxs] at h
      cases h
    · rw [hxs] at h
      cases h
      exact ⟨rest, after, hxs⟩

/-- What every use of an operation on a list keeps. -/
theorem Meets.forEach {ι : Type} {kept stopped : σ → Prop} {f : ι → Action ν σ ρ}
    (h : ∀ i, Meets kept (f i) stopped fun _ => kept) (xs : List ι) :
    Meets kept (Action.forEach xs f) stopped fun _ => kept :=
  .forEach_mem fun i _ => h i

/-- An operation does on a larger state what another one does on the part in view. -/
def Mirrors (view : τ → σ) (x : Action ν τ ρ) (y : Action ν σ ρ) : Prop :=
  ∀ t, (x t).within view = y (view t)

namespace Mirrors

variable {view : τ → σ} {x : Action ν τ ρ} {y : Action ν σ ρ}

theorem pure (a : ρ) : Mirrors view (Pure.pure a : Action ν τ ρ) (Pure.pure a) := fun _ => rfl

theorem note (n : ν) : Mirrors view (Action.note n) (Action.note n) := fun _ => rfl

theorem ofExcept (r : Except Fault ρ) :
    Mirrors view (Action.ofExcept r : Action ν τ ρ) (Action.ofExcept r) := fun _ => rfl

/-- An operation on the first part of a pair is in view there. -/
theorem onFst (y : Action ν σ ρ) : Mirrors Prod.fst (y.onFst : Action ν (σ × τ) ρ) y := by
  rintro ⟨s, t⟩
  simp [Action.onFst, on, Report.within, Function.comp_def]

theorem bind (h : Mirrors view x y) {f : ρ → Action ν τ ρ'} {g : ρ → Action ν σ ρ'}
    (hf : ∀ a, Mirrors view (f a) (g a)) : Mirrors view (x >>= f) (y >>= g) := by
  intro t
  have hx := h t
  rw [bind_apply, bind_apply]
  rcases hr : x t with ⟨_ | a, u, before⟩
  · rw [hr] at hx
    rw [← hx]
    rfl
  · rw [hr] at hx
    rw [← hx]
    have hfa := hf a u
    simp only [Report.within] at hfa ⊢
    rw [← hfa, List.map_append]

theorem forEach {ι : Type} (xs : List ι) {f : ι → Action ν τ ρ} {g : ι → Action ν σ ρ}
    (hf : ∀ i, Mirrors view (f i) (g i)) :
    Mirrors view (Action.forEach xs f) (Action.forEach xs g) := by
  induction xs with
  | nil => exact .pure []
  | cons i xs ih =>
    refine bind (hf i) fun a => ?_
    refine bind ih fun rest => ?_
    exact .pure (a :: rest)

theorem result (h : Mirrors view x y) (t : τ) : (x t).result = (y (view t)).result :=
  congrArg Report.result (h t)

theorem state (h : Mirrors view x y) (t : τ) : view (x t).state = (y (view t)).state :=
  congrArg Report.state (h t)

/-- What the operation in view returns, the one on the larger state returns too. -/
theorem returns (h : Mirrors view x y) {t : τ} {s : σ} {a : ρ} {notes : List (ν × σ)}
    (hy : y (view t) = ⟨.ok a, s, notes⟩) : ∃ u later, x t = ⟨.ok a, u, later⟩ ∧ view u = s := by
  have hresult : (x t).result = .ok a := (h.result t).trans (congrArg Report.result hy)
  have hstate : view (x t).state = s := (h.state t).trans (congrArg Report.state hy)
  exact ⟨_, _, congrArg (Report.mk · (x t).state (x t).notes) hresult, hstate⟩

theorem ends (h : Mirrors view x y) {t : τ} {s : σ} (hy : Ends y (view t) s) :
    ∃ u, Ends x t u ∧ view u = s := by
  obtain ⟨a, notes, hy⟩ := hy
  obtain ⟨u, later, hx, hview⟩ := h.returns hy
  exact ⟨u, ⟨a, later, hx⟩, hview⟩

end Mirrors
end Action

namespace Growth

theorem meets_plan {before : Growth α × σ → Prop} {stopped : Growth α × σ → Prop} :
    Meets before (plan : Plan α σ (Growth α)) stopped fun g t => g = t.1 ∧ before t :=
  .returns fun t ht => ⟨t.1, rfl, rfl, ht⟩

/-- One piece of work that a crew is told to do. -/
inductive Task (α : Type) where
  | segment (s : Segment α) (index : Nat)
  | braces (segments : List (Segment α))
  | fruits (fruits : List (Fruit α))

namespace Task

def number? : Task α → Option Nat
  | segment _ index => some index
  | _ => none

def isBraces : Task α → Bool
  | braces _ => true
  | _ => false

def isFruits : Task α → Bool
  | fruits _ => true
  | _ => false

end Task

/-- The numbers of the segments that a record says were built, oldest first. -/
def numbers (done : List (Task α)) : List Nat := done.filterMap Task.number?

/-- Work that is written down when it is done. -/
def written (task : Task α) (x : Action (Note α) σ ρ) : Action (Note α) (List (Task α) × σ) ρ := do
  let a ← x.onSnd
  Action.modify fun (done, t) => (done ++ [task], t)
  return a

/-- A crew that writes down what it has done, oldest first. -/
def recording (crew : Crew α σ) : Crew α (List (Task α) × σ) where
  build s index := written (.segment s index) (crew.build s index)
  brace segments := written (.braces segments) (crew.brace segments)
  hang fruits := written (.fruits fruits) (crew.hang fruits)

/-- A crew that only counts what it builds. -/
def tally : Crew α Nat where
  build _ _ := Action.modify (· + 1)
  brace _ := return 0
  hang fruits := return fruits.length

/-- A plan and the state of its crew, without the record. -/
def unrecorded (p : Growth α × List (Task α) × σ) : Growth α × σ := (p.1, p.2.2)

variable {crew : Crew α σ}

theorem mirrors_plan : Mirrors unrecorded (plan : Plan α (List (Task α) × σ) (Growth α)) plan :=
  fun _ => rfl

theorem mirrors_record (f : Growth α → Growth α) :
    Mirrors unrecorded (record f : Plan α (List (Task α) × σ) Unit) (record f) := fun _ => rfl

/-- Writing down what was done changes nothing that can be seen without the record. -/
theorem mirrors_written (task : Task α) (x : Action (Note α) σ ρ) :
    Mirrors unrecorded (written task x).onSnd x.onSnd := by
  rintro ⟨g, done, s⟩
  simp only [written, onSnd, on, unrecorded, Report.within, bind_apply]
  rcases x s with ⟨_ | a, t, notes⟩
  · simp
  · simp

theorem mirrors_build (index : Nat) :
    Mirrors unrecorded (build (recording crew) index) (build crew index) := by
  unfold build
  refine mirrors_plan.bind fun g => ?_
  cases g.segments[index]? with
  | none => exact .pure ()
  | some s => exact (mirrors_written _ _).bind fun _ => mirrors_record _

theorem mirrors_placeRoots :
    Mirrors unrecorded (placeRoots (recording crew)) (placeRoots crew) := by
  unfold placeRoots
  refine mirrors_plan.bind fun g => ?_
  split
  · refine (Mirrors.note _).bind fun _ => ?_
    exact .pure 0
  · refine (Mirrors.forEach g.roots mirrors_build).bind fun _ => ?_
    refine (mirrors_record _).bind fun _ => ?_
    exact .pure g.roots.length

theorem mirrors_buildBatch (budget : Int) (done left : Nat) :
    Mirrors unrecorded (buildBatch (recording crew) budget done left)
      (buildBatch crew budget done left) := by
  induction left generalizing done with
  | zero => exact .pure done
  | succ left ih =>
    unfold buildBatch
    refine mirrors_plan.bind fun g => ?_
    dsimp only
    split
    · split
      · refine (mirrors_build g.cursor).bind fun _ => ?_
        exact (mirrors_record _).bind fun _ => ih _
      · exact (mirrors_record _).bind fun _ => ih _
    · exact .pure done

variable [Scalar α]

theorem mirrors_advance : Mirrors unrecorded (advance (recording crew)) (advance crew) := by
  unfold advance buildDue brace hang
  refine mirrors_plan.bind fun g => ?_
  split
  · exact .pure 0
  refine (mirrors_record gain).bind fun _ => ?_
  refine Mirrors.bind ?_ fun done => ?_
  · refine mirrors_plan.bind fun g => ?_
    split
    · exact (Mirrors.ofExcept _).bind fun target => mirrors_buildBatch _ 0 _
    · exact .pure 0
  refine Mirrors.bind ?_ fun _ => ?_
  · refine mirrors_plan.bind fun g => ?_
    split
    · refine (mirrors_written _ _).bind fun made => ?_
      exact (mirrors_record _).bind fun _ => .note _
    · exact .pure ()
  refine Mirrors.bind ?_ fun _ => .pure done
  refine mirrors_plan.bind fun g => ?_
  split
  · refine (mirrors_written _ _).bind fun hung => ?_
    refine (mirrors_record _).bind fun _ => ?_
    exact (Mirrors.note _).bind fun _ => mirrors_record _
  · exact .pure ()

/-- What is asked of a plan. -/
inductive Call where
  | roots
  | tick
  deriving DecidableEq, Repr

def Call.use (crew : Crew α σ) : Call → Plan α σ Nat
  | roots => placeRoots crew
  | tick => advance crew

/-- Uses of a plan one after the other. One that fails is the last. -/
def uses (crew : Crew α σ) (calls : List Call) : Plan α σ (List Nat) :=
  forEach calls (Call.use crew)

/-- Whatever is asked of a plan, its crew can keep a record. -/
theorem mirrors_uses (calls : List Call) :
    Mirrors unrecorded (uses (recording crew) calls) (uses crew calls) := by
  refine .forEach calls fun call => ?_
  cases call with
  | roots => exact mirrors_placeRoots
  | tick => exact mirrors_advance

end Growth
end Arboretum
