import Arboretum.Proofs.Growth.Books

/-!
Plans that are used on, whether or not a call fails. A property of a plan and of the record of its
crew that no single step takes away holds after every call, also after one that stopped half-way.
-/
namespace Arboretum

open Arboretum.Action

/-- What mirrors an operation mirrors an attempt at it. -/
theorem Action.Mirrors.attempt {ν σ τ ρ : Type} {view : τ → σ} {x : Action ν τ ρ}
    {y : Action ν σ ρ} (h : Mirrors view x y) : Mirrors view x.attempt y.attempt := by
  intro t
  unfold Action.attempt
  rw [← h t]
  rfl

namespace Growth

variable {α σ : Type} {crew : Crew α σ} {kept : Growth α → List (Task α) → Prop}

/-! ### Placing the roots -/

theorem keeps_building {index : Nat}
    (h : ∀ g done s, kept g done → g.segments[index]? = some s →
      kept (g.mark index) (done ++ [.segment s index])) :
    Keeps (Recorded kept) (build (recording crew) index) := by
  refine Meets.keeps ?_
  unfold build
  refine meets_recorded_plan fun g => ?_
  cases hs : g.segments[index]? with
  | none => exact .pure fun _ hp => hp.2
  | some s =>
    refine Meets.bind (meets_written (fun now r => kept (now.mark index) r)
      (fun _ _ _ hp => hp.2) ?_) fun _ => meets_writing kept fun _ _ hp => hp
    rintro _ r ⟨rfl, hp⟩
    exact h g r s hp hs

/-- What no segment takes away when it is built, placing the roots keeps, also where it stops. -/
theorem keeps_placing (hbuilt : ∀ g done s index, kept g done → g.segments[index]? = some s →
      kept (g.mark index) (done ++ [.segment s index]))
    (hrooted : ∀ g done, kept g done → kept { g with stage := .rooted } done) :
    Keeps (Recorded kept) (placeRoots (recording crew)) := by
  refine Meets.keeps ?_
  unfold placeRoots
  refine meets_recorded_plan fun g => ?_
  split
  · exact Meets.bind (.note _) fun _ => .pure fun _ hp => hp.2
  · have hroots : Keeps (Recorded kept) (forEach g.roots (build (recording crew))) :=
      .forEach _ fun index _ => keeps_building fun g r s => hbuilt g r s index
    refine Meets.bind (hroots.meets.of_pre fun _ hp => hp.2) fun _ => ?_
    exact Meets.bind (meets_writing kept hrooted) fun _ => .pure fun _ hp => hp

/-! ### Ticks -/

/-- A property of a plan and a record that no step of a tick takes away, whatever was built
before. -/
structure Hardy [Scalar α] (kept : Growth α → List (Task α) → Prop) : Prop where
  built : ∀ g done s, kept g done → g.segments[g.cursor]? = some s →
    g.isBuilt g.cursor = false → kept (g.mark g.cursor) (done ++ [.segment s g.cursor])
  passed : ∀ g done, kept g done → kept { g with cursor := g.cursor + 1 } done
  braced : ∀ g done, kept g done → g.bracesDue = true →
    kept { g with braced := true, stage := .braced } (done ++ [.braces g.builtSegments])
  hung : ∀ g done, kept g done → g.fruitsDue = true →
    kept { g with fruited := true, stage := .steady } (done ++ [.fruits g.fruits])

namespace Hardy

variable [Scalar α] (h : Hardy kept)
include h

theorem keeps_batch (budget : Int) (done left : Nat) :
    Keeps (Recorded kept) (buildBatch (recording crew) budget done left) := by
  induction left generalizing done with
  | zero => exact .pure done
  | succ left ih =>
    refine Meets.keeps ?_
    unfold buildBatch
    refine meets_recorded_plan fun g => ?_
    dsimp only
    split
    · rename_i hdue
      simp only [Bool.and_eq_true, decide_eq_true_eq] at hdue
      split
      · rename_i hnew
        simp only [Bool.not_eq_true'] at hnew
        refine Meets.bind (meets_recording kept (fun _ _ _ hp => hp.2) ?_) fun _ => ?_
        · rintro _ r ⟨rfl, hp⟩
          have hs := Array.getElem?_eq_getElem hdue.2
          exact ⟨_, hs, h.built g r _ hp hs hnew⟩
        · exact Meets.bind (meets_writing kept h.passed) fun _ => (ih _).meets
      · exact Meets.bind (meets_writing kept fun now r hp => h.passed now r hp.2) fun _ =>
          (ih _).meets
    · exact .pure fun _ hp => hp.2

theorem keeps_due : Keeps (Recorded kept) (buildDue (recording crew)) := by
  refine Meets.keeps ?_
  unfold buildDue
  refine meets_recorded_plan fun g => ?_
  split
  · refine Meets.bind (Meets.ofExcept _ fun _ hp => hp.2) fun target => ?_
    exact (h.keeps_batch _ _ _).meets.of_pre fun _ hp => hp.2.2
  · exact .pure fun _ hp => hp.2

/-- What no step of a tick takes away holds after the tick, whatever became of it. -/
theorem advance (crew : Crew α σ) {p : Growth α × List (Task α) × σ}
    (hsteady : p.1.stage = .steady → kept p.1 p.2.1) (hgain : kept p.1.gain p.2.1) :
    Recorded kept (advance (recording crew) p).state := by
  rw [advance_apply]
  split
  · rename_i hstage
    exact hsteady hstage
  · have hwork : Keeps (Recorded kept) (work (recording crew)) := by
      unfold work
      refine h.keeps_due.bind fun done => ?_
      refine (keeps_brace crew h.braced).bind fun _ => ?_
      exact (keeps_hang crew h.hung).bind fun _ => .pure done
    exact hwork (p.1.gain, p.2) hgain

end Hardy

/-! ### Calls -/

/-- Uses of a plan one after the other, also after one that has failed. -/
def tries [Scalar α] (crew : Crew α σ) (calls : List Call) : Plan α σ (List (Except Fault Nat)) :=
  forEach calls fun call => (call.use crew).attempt

variable [Scalar α]

theorem tries_cons (call : Call) (calls : List Call) (p : Growth α × σ) :
    (tries crew (call :: calls) p).state = (tries crew calls (call.use crew p).state).state := by
  have hfirst : ((call.use crew).attempt p).result = .ok (call.use crew p).result := rfl
  rw [tries, forEach, bind_of_ok hfirst]
  simp only [← map_eq_pure_bind, map_apply]
  rfl

/-- What every call keeps, calls one after the other keep. -/
theorem keeps_tries (held : Growth α × σ → Prop)
    (h : ∀ call, Keeps held (Call.use crew call)) (calls : List Call) :
    Keeps held (tries crew calls) := by
  intro p hp
  induction calls generalizing p with
  | nil => exact hp
  | cons call calls ih =>
    rw [tries_cons]
    exact ih _ (h call p hp)

theorem mirrors_use (call : Call) :
    Mirrors unrecorded (call.use (recording crew)) (call.use crew) := by
  cases call with
  | roots => exact mirrors_placeRoots
  | tick => exact mirrors_advance

/-- Also a crew whose plan is used on after failures can keep a record. -/
theorem mirrors_tries (crew : Crew α σ) (calls : List Call) :
    Mirrors unrecorded (tries (recording crew) calls) (tries crew calls) :=
  .forEach calls fun call => (mirrors_use call).attempt

end Growth
end Arboretum
