import Arboretum.Proofs.Growth.Record

/-!
A plan goes its own way. What a crew does and answers changes nothing in the growth of a plant, as
long as the crew does not stop it; so that two crews that do each task alike come to the same with
the same plan.
-/
namespace Arboretum

open Arboretum.Action

variable {α ν σ τ ρ ρ' μ μ' : Type}

namespace Action

/-- Where the first of two operations returns, so does the second, with an answer that goes with the
first one's, and from states that go together they come to states that do. -/
def Follows (goes : τ → σ → Prop) (x : Action ν τ ρ) (y : Action ν σ ρ') (agree : ρ → ρ' → Prop) :
    Prop :=
  ∀ t s, goes t s → ∀ a, (x t).result = .ok a →
    ∃ b, agree a b ∧ (y s).result = .ok b ∧ goes (x t).state (y s).state

namespace Follows

variable {goes : τ → σ → Prop} {x : Action ν τ ρ} {y : Action ν σ ρ'} {agree : ρ → ρ' → Prop}

theorem pure {a : ρ} {b : ρ'} (h : agree a b) :
    Follows goes (Pure.pure a : Action ν τ ρ) (Pure.pure b) agree := by
  intro t s hts c hc
  cases hc
  exact ⟨b, h, rfl, hts⟩

theorem note (n m : ν) : Follows goes (Action.note n) (Action.note m) fun _ _ => True :=
  fun _ _ hts a _ => ⟨a, trivial, rfl, hts⟩

theorem ofExcept (r : Except Fault ρ) :
    Follows goes (Action.ofExcept r : Action ν τ ρ) (Action.ofExcept r) Eq :=
  fun _ _ hts a ha => ⟨a, rfl, ha, hts⟩

theorem bind (h : Follows goes x y agree) {f : ρ → Action ν τ μ} {g : ρ' → Action ν σ μ'}
    {agree' : μ → μ' → Prop} (hf : ∀ a b, agree a b → Follows goes (f a) (g b) agree') :
    Follows goes (x >>= f) (y >>= g) agree' := by
  intro t s hts c hc
  obtain ⟨a, hx, hfa⟩ := of_bind_ok hc
  obtain ⟨b, hab, hy, hstates⟩ := h t s hts a hx
  rw [bind_of_ok hx, bind_of_ok hy]
  exact hf a b hab _ _ hstates c hfa

theorem forEach {ι : Type} {f : ι → Action ν τ ρ} {g : ι → Action ν σ ρ'}
    (h : ∀ i, Follows goes (f i) (g i) fun _ _ => True) (xs : List ι) :
    Follows goes (Action.forEach xs f) (Action.forEach xs g) fun _ _ => True := by
  induction xs with
  | nil => exact .pure trivial
  | cons i xs ih => exact (h i).bind fun _ _ _ => ih.bind fun _ _ _ => .pure trivial

theorem ends (h : Follows goes x y agree) {t u : τ} {s : σ} (hts : goes t s) (hx : Ends x t u) :
    Ends y s (y s).state ∧ goes u (y s).state := by
  obtain ⟨a, notes, hx⟩ := hx
  obtain ⟨b, -, hy, hstates⟩ := h t s hts a (by rw [hx])
  rw [hx] at hstates
  exact ⟨⟨b, (y s).notes, congrArg (Report.mk · (y s).state (y s).notes) hy⟩, hstates⟩

end Follows
end Action

/-- A crew that has nothing to do. -/
def Crew.idle : Crew α Unit where
  build _ _ := return
  brace _ := return 0
  hang _ := return 0

/-- A crew that does each task as another one does it, on states that go together. -/
structure Crew.Follows (goes : σ → τ → Prop) (crew : Crew α σ) (other : Crew α τ) : Prop where
  build (s : Segment α) (index : Nat) :
    Action.Follows goes (crew.build s index) (other.build s index) fun _ _ => True
  brace (segments : List (Segment α)) :
    Action.Follows goes (crew.brace segments) (other.brace segments) fun _ _ => True
  hang (fruits : List (Fruit α)) :
    Action.Follows goes (crew.hang fruits) (other.hang fruits) fun _ _ => True

/-- To have nothing to do is the same as any work in which nothing is compared. -/
theorem Crew.follows_idle (crew : Crew α σ) : crew.Follows (fun _ _ => True) Crew.idle where
  build _ _ _ _ _ _ _ := ⟨(), trivial, rfl, trivial⟩
  brace _ _ _ _ _ _ := ⟨0, trivial, rfl, trivial⟩
  hang _ _ _ _ _ _ := ⟨0, trivial, rfl, trivial⟩

namespace Growth

/-- One growth, with crews whose states go together. -/
def Beside (goes : σ → τ → Prop) (p : Growth α × σ) (q : Growth α × τ) : Prop :=
  p.1 = q.1 ∧ goes p.2 q.2

variable {goes : σ → τ → Prop} {crew : Crew α σ} {other : Crew α τ}

theorem follows_plan :
    Follows (Beside goes) (plan : Plan α σ (Growth α)) (plan : Plan α τ (Growth α)) Eq := by
  intro p q hpq g hg
  cases hg
  exact ⟨q.1, hpq.1, rfl, hpq⟩

theorem follows_record (f : Growth α → Growth α) :
    Follows (Beside goes) (record f : Plan α σ Unit) (record f : Plan α τ Unit)
      fun _ _ => True :=
  fun _ _ hpq a _ => ⟨a, trivial, rfl, congrArg f hpq.1, hpq.2⟩

/-- A crew at work leaves the growth to the plan. -/
theorem follows_onSnd {x : Action (Note α) σ ρ} {y : Action (Note α) τ ρ'}
    {agree : ρ → ρ' → Prop} (h : Follows goes x y agree) :
    Follows (Beside (α := α) goes) x.onSnd y.onSnd agree := by
  intro p q hpq a ha
  obtain ⟨b, hab, hy, hstates⟩ := h p.2 q.2 hpq.2 a ha
  exact ⟨b, hab, hy, hpq.1, hstates⟩

variable (h : crew.Follows goes other)
include h

theorem follows_build (index : Nat) :
    Follows (Beside goes) (build crew index) (build other index) fun _ _ => True := by
  unfold build
  refine follows_plan.bind fun g _ hg => ?_
  subst hg
  cases g.segments[index]? with
  | none => exact .pure trivial
  | some s => exact (follows_onSnd (h.build s index)).bind fun _ _ _ => follows_record _

theorem follows_placeRoots :
    Follows (Beside goes) (placeRoots crew) (placeRoots other) Eq := by
  unfold placeRoots
  refine follows_plan.bind fun g _ hg => ?_
  subst hg
  split
  · exact (Follows.note _ _).bind fun _ _ _ => .pure rfl
  · refine (Follows.forEach (follows_build h) g.roots).bind fun _ _ _ => ?_
    exact (follows_record _).bind fun _ _ _ => .pure rfl

theorem follows_buildBatch (budget : Int) (done left : Nat) :
    Follows (Beside goes) (buildBatch crew budget done left) (buildBatch other budget done left)
      Eq := by
  induction left generalizing done with
  | zero => exact .pure rfl
  | succ left ih =>
    unfold buildBatch
    refine follows_plan.bind fun g _ hg => ?_
    subst hg
    dsimp only
    split
    · split
      · refine (follows_build h g.cursor).bind fun _ _ _ => ?_
        exact (follows_record _).bind fun _ _ _ => ih _
      · exact (follows_record _).bind fun _ _ _ => ih _
    · exact .pure rfl

theorem follows_hang : Follows (Beside goes) (hang crew) (hang other) fun _ _ => True := by
  unfold hang
  refine follows_plan.bind fun g _ hg => ?_
  subst hg
  split
  · refine (follows_onSnd (h.hang g.fruits)).bind fun _ _ _ => ?_
    refine (follows_record _).bind fun _ _ _ => ?_
    exact (Follows.note _ _).bind fun _ _ _ => follows_record _
  · exact .pure trivial

variable [Scalar α]

theorem follows_buildDue : Follows (Beside goes) (buildDue crew) (buildDue other) Eq := by
  unfold buildDue
  refine follows_plan.bind fun g _ hg => ?_
  subst hg
  split
  · refine (Follows.ofExcept _).bind fun target _ htarget => ?_
    subst htarget
    exact follows_buildBatch h _ 0 _
  · exact .pure rfl

theorem follows_brace : Follows (Beside goes) (brace crew) (brace other) fun _ _ => True := by
  unfold brace
  refine follows_plan.bind fun g _ hg => ?_
  subst hg
  split
  · refine (follows_onSnd (h.brace g.builtSegments)).bind fun _ _ _ => ?_
    exact (follows_record _).bind fun _ _ _ => .note _ _
  · exact .pure trivial

/-- A tick of growth that is not stopped comes to the same whoever builds. -/
theorem follows_advance : Follows (Beside goes) (advance crew) (advance other) Eq := by
  unfold advance
  refine follows_plan.bind fun g _ hg => ?_
  subst hg
  split
  · exact .pure rfl
  refine (follows_record gain).bind fun _ _ _ => ?_
  refine (follows_buildDue h).bind fun done _ hdone => ?_
  subst hdone
  refine (follows_brace h).bind fun _ _ _ => ?_
  exact (follows_hang h).bind fun _ _ _ => .pure rfl

theorem follows_use (call : Call) :
    Follows (Beside goes) (call.use crew) (call.use other) Eq := by
  cases call with
  | roots => exact follows_placeRoots h
  | tick => exact follows_advance h

omit h

/-- The growth that a tick gives a plant by itself. -/
def advanced (g : Growth α) : Growth α := (advance Crew.idle (g, ())).state.1

theorem advance_advanced {p : Growth α × σ} {n : Nat} (h : (advance crew p).result = .ok n) :
    (advance crew p).state.1 = p.1.advanced := by
  obtain ⟨_, _, _, hgrowth, _⟩ :=
    follows_advance crew.follows_idle p (p.1, ()) ⟨rfl, trivial⟩ n h
  exact hgrowth

end Growth
end Arboretum
