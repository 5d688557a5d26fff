import Arboretum.Fault

/-!
Operations on a state that may stop and that write notes. An operation that stops leaves the state
as it was at that moment, so what a failed operation changed can be seen.
-/
namespace Arboretum

/-- What an operation leaves: its outcome, the state then, and the notes written, oldest first, each
with the state at that moment. -/
structure Report (ν σ ρ : Type) where
  result : Except Fault ρ
  state : σ
  notes : List (ν × σ)

/-- A report on a part, as a report on the whole around it. -/
def Report.within {ν σ τ ρ : Type} (whole : σ → τ) (r : Report ν σ ρ) : Report ν τ ρ :=
  ⟨r.result, whole r.state, r.notes.map fun (n, s) => (n, whole s)⟩

def Action (ν σ ρ : Type) : Type := σ → Report ν σ ρ

namespace Action

variable {ν μ σ τ ρ ρ' : Type}

def pure (a : ρ) : Action ν σ ρ := fun s => ⟨.ok a, s, []⟩

def bind (x : Action ν σ ρ) (f : ρ → Action ν σ ρ') : Action ν σ ρ' := fun s =>
  match x s with
  | ⟨.error e, s, before⟩ => ⟨.error e, s, before⟩
  | ⟨.ok a, s, before⟩ =>
    match f a s with
    | ⟨r, s, after⟩ => ⟨r, s, before ++ after⟩

instance : Monad (Action ν σ) where
  pure := pure
  bind := bind

@[simp] theorem pure_apply (a : ρ) (s : σ) : (Pure.pure a : Action ν σ ρ) s = ⟨.ok a, s, []⟩ := rfl

/-- What follows an operation that succeeds starts from the state that it left. -/
theorem bind_ok {x : Action ν σ ρ} {s t : σ} {a : ρ} {before : List (ν × σ)}
    (h : x s = ⟨.ok a, t, before⟩) (f : ρ → Action ν σ ρ') :
    (x >>= f) s = ⟨(f a t).result, (f a t).state, before ++ (f a t).notes⟩ := by
  simp only [Bind.bind, bind, h]

/-- Nothing follows an operation that stops. -/
theorem bind_error {x : Action ν σ ρ} {s t : σ} {e : Fault} {before : List (ν × σ)}
    (h : x s = ⟨.error e, t, before⟩) (f : ρ → Action ν σ ρ') :
    (x >>= f) s = ⟨.error e, t, before⟩ := by
  simp only [Bind.bind, bind, h]

/-- An operation that starts with another returns only if both do. -/
theorem of_bind_ok {x : Action ν σ ρ} {f : ρ → Action ν σ ρ'} {s : σ} {b : ρ'}
    (h : ((x >>= f) s).result = .ok b) :
    ∃ a, (x s).result = .ok a ∧ (f a (x s).state).result = .ok b := by
  rcases hx : x s with ⟨r, t, before⟩
  cases r with
  | error e => rw [bind_error hx] at h; cases h
  | ok a => rw [bind_ok hx] at h; exact ⟨a, rfl, h⟩

theorem eq_of_apply {x y : Action ν σ ρ} (h : ∀ s, x s = y s) : x = y := funext h

instance : LawfulMonad (Action ν σ) := .mk' (Action ν σ)
  (by
    intro _ x
    refine eq_of_apply fun s => ?_
    rcases hx : x s with ⟨_ | a, t, before⟩
    · exact bind_error hx _
    · exact (bind_ok hx _).trans (congrArg (Report.mk _ _) (List.append_nil before)))
  (by
    intro _ _ a f
    exact eq_of_apply fun s => bind_ok (pure_apply a s) f)
  (by
    intro _ _ _ x f g
    refine eq_of_apply fun s => ?_
    rcases hx : x s with ⟨_ | a, t, before⟩
    · rw [bind_error hx, bind_error (bind_error hx f)]
    · rw [bind_ok hx]
      rcases hf : f a t with ⟨_ | b, u, after⟩
      · rw [bind_error hf, bind_error ((bind_ok hx f).trans (by rw [hf]))]
      · rw [bind_ok hf, bind_ok ((bind_ok hx f).trans (by rw [hf])), List.append_assoc])

def fail (e : Fault) : Action ν σ ρ := fun s => ⟨.error e, s, []⟩

def ofExcept (r : Except Fault ρ) : Action ν σ ρ := fun s => ⟨r, s, []⟩

def read : Action ν σ σ := fun s => ⟨.ok s, s, []⟩

def modify (f : σ → σ) : Action ν σ Unit := fun s => ⟨.ok (), f s, []⟩

def note (n : ν) : Action ν σ Unit := fun s => ⟨.ok (), s, [(n, s)]⟩

/-- Runs an operation and hands its outcome on as a value, so that it cannot stop its caller. -/
def attempt (x : Action ν σ ρ) : Action ν σ (Except Fault ρ) := fun s =>
  match x s with
  | ⟨r, s, notes⟩ => ⟨.ok r, s, notes⟩

/-- Hands the notes of an operation on with its outcome. One that stops keeps them as notes. -/
def collect (x : Action ν σ ρ) : Action ν σ (ρ × List ν) := fun s =>
  match x s with
  | ⟨.ok a, s, notes⟩ => ⟨.ok (a, notes.map (·.1)), s, []⟩
  | ⟨.error e, s, notes⟩ => ⟨.error e, s, notes⟩

/-- Rewrites the notes of an operation, with the state at their time in view. -/
def mapNotes (f : ν → σ → μ) (x : Action ν σ ρ) : Action μ σ ρ := fun s =>
  match x s with
  | ⟨r, s, notes⟩ => ⟨r, s, notes.map fun (n, s) => (f n s, s)⟩

/-- Puts notes down one after the other. The first that cannot be put down makes an end there, with
the state at that moment. -/
def write (line : ν → Except Fault μ) (result : Except Fault ρ) (state : σ) :
    List (ν × σ) → Report μ σ ρ
  | [] => ⟨result, state, []⟩
  | (n, moment) :: later =>
    match line n with
    | .error fault => ⟨.error fault, moment, []⟩
    | .ok text =>
      let rest := write line result state later
      { rest with notes := (text, moment) :: rest.notes }

/-- An operation whose notes are put down as it goes. One that cannot be put down stops it. -/
def written (line : ν → Except Fault μ) (x : Action ν σ ρ) : Action μ σ ρ := fun s =>
  match x s with
  | ⟨result, state, notes⟩ => write line result state notes

/-- Drops the notes that are not wanted. -/
def filterNotes (wanted : ν → Bool) (x : Action ν σ ρ) : Action ν σ ρ := fun s =>
  match x s with
  | ⟨r, s, notes⟩ => ⟨r, s, notes.filter fun (n, _) => wanted n⟩

/-- Runs an operation on a part of a larger state. -/
def on (get : τ → σ) (set : σ → τ → τ) (x : Action ν σ ρ) : Action ν τ ρ := fun t =>
  (x (get t)).within (set · t)

def onFst (x : Action ν σ ρ) : Action ν (σ × τ) ρ := on (·.1) (fun s t => (s, t.2)) x

def onSnd (x : Action ν τ ρ) : Action ν (σ × τ) ρ := on (·.2) (fun t s => (s.1, t)) x

/-- Runs an operation for each element in turn and collects what they return. -/
def forEach (xs : List ρ) (f : ρ → Action ν σ ρ') : Action ν σ (List ρ') :=
  match xs with
  | [] => Pure.pure []
  | x :: xs => do
    let a ← f x
    let rest ← forEach xs f
    return a :: rest

/-- Runs an operation a number of times and collects what it returns. -/
def times (x : Action ν σ ρ) : Nat → Action ν σ (List ρ)
  | 0 => Pure.pure []
  | n + 1 => do
    let a ← x
    let rest ← times x n
    return a :: rest

end Action
end Arboretum
