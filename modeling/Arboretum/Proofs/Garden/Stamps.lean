import Arboretum.Proofs.Garden.Ownership

/-!
The stamps of the notes of a tick. The clock moves on at the end, after the last note, so that all
of them bear the reading at which the tick began: whether they can be put down is known beforehand.
-/
namespace Arboretum

open Arboretum.Action

variable {α ρ ρ' : Type}

namespace Garden

/-- An operation that leaves the journal's clock alone and stamps every note with it. -/
def Stamps (x : Tending α ρ) : Prop :=
  ∀ g, (x g).state.journalClock = g.journalClock ∧
    ∀ n ∈ (x g).notes, ∃ note, n.1 = Entry.stamp g.journalClock note

namespace Stamps

theorem silent {x : Tending α ρ} (hclock : ∀ g, (x g).state.journalClock = g.journalClock)
    (hnotes : ∀ g, (x g).notes = []) : Stamps x := by
  intro g
  refine ⟨hclock g, fun n hn => ?_⟩
  rw [hnotes] at hn
  cases hn

theorem pure (a : ρ) : Stamps (Pure.pure a : Tending α ρ) := silent (fun _ => rfl) fun _ => rfl

theorem fail (e : Fault) : Stamps (Action.fail e : Tending α ρ) :=
  silent (fun _ => rfl) fun _ => rfl

theorem ofExcept (r : Except Fault ρ) : Stamps (Action.ofExcept r : Tending α ρ) :=
  silent (fun _ => rfl) fun _ => rfl

theorem read : Stamps (Action.read : Tending α (Garden α)) := silent (fun _ => rfl) fun _ => rfl

theorem modify {f : Garden α → Garden α} (hf : ∀ g, (f g).journalClock = g.journalClock) :
    Stamps (Action.modify f) := silent hf fun _ => rfl

theorem tending {σ : Type} {get : Garden α → σ} {set : σ → Garden α → Garden α}
    (x : Action (Note α) σ ρ)
    (hset : ∀ s g, (set s g).journalClock = g.journalClock := by intro s g; rfl) :
    Stamps (tending get set x) := by
  intro g
  refine ⟨hset _ g, fun n hn => ?_⟩
  obtain ⟨m, hm, rfl⟩ := List.mem_map.mp hn
  obtain ⟨⟨note, s⟩, hk, rfl⟩ := List.mem_map.mp hm
  exact ⟨note, congrArg (Entry.stamp · note) (hset s g)⟩

theorem say (n : Note α) : Stamps (say n) := by
  intro g
  refine ⟨rfl, fun m hm => ⟨n, ?_⟩⟩
  exact congrArg Prod.fst (List.mem_singleton.mp hm)

theorem bind {x : Tending α ρ} {f : ρ → Tending α ρ'} (hx : Stamps x) (hf : ∀ a, Stamps (f a)) :
    Stamps (x >>= f) := by
  intro g
  obtain ⟨hclock, hnotes⟩ := hx g
  cases hr : (x g).result with
  | error e =>
    rw [bind_of_error hr]
    exact ⟨hclock, hnotes⟩
  | ok a =>
    obtain ⟨hclock', hnotes'⟩ := hf a (x g).state
    rw [bind_of_ok hr]
    rw [hclock] at hclock' hnotes'
    exact ⟨hclock', fun n hn => (List.mem_append.mp hn).elim (hnotes n) (hnotes' n)⟩

theorem attempt {x : Tending α ρ} (hx : Stamps x) : Stamps x.attempt := hx

/-- What is stamped can be put down where the clock's reading can. -/
theorem told {line : Entry α → Except Fault String} {x : Tending α ρ} (hx : Stamps x)
    {g : Garden α} (hline : ∀ n, (line (Entry.stamp g.journalClock n)).isOk) : Told line x g := by
  intro n hn
  obtain ⟨note, he⟩ := (hx g).2 n hn
  rw [he]
  exact hline note

end Stamps

theorem stamps_retire (p : Plant α) : Stamps (retire p) := by
  unfold retire
  refine .bind (.tending _) ?_
  intro answer
  obtain ⟨outcome, q⟩ := answer
  cases outcome with
  | ok _ => exact .modify fun _ => rfl
  | error cause => exact .bind (.say _) fun _ => .modify fun _ => rfl

variable [Scalar α]

theorem stamps_createPlant (spot : Vec α) (kind : Option String) (grammar : Option (Grammar α)) :
    Stamps (createPlant spot kind grammar) := by
  have hchoice : Stamps (choice kind grammar) := by
    unfold choice pickKind
    split
    · exact .pure _
    · exact .pure _
    · refine .bind (.bind .read fun g => ?_) fun _ => .pure _
      split
      · exact .pure _
      · exact .bind (.tending _) fun _ => .pure _
  have hevict : Stamps (evictOldest (α := α)) := by
    unfold evictOldest
    refine .bind .read fun g => ?_
    split
    · exact .fail _
    · exact .bind (.say _) fun _ => .bind (.modify fun _ => rfl) fun _ => stamps_retire _
  have hgrow : ∀ seed, Stamps (grow spot seed) := fun seed =>
    .bind .read fun _ => .tending _
  rw [createPlant_eq]
  refine .bind .read fun g => ?_
  split
  · exact .pure _
  refine .bind hchoice fun choice => ?_
  unfold settle
  refine .bind (hgrow _).attempt fun outcome => ?_
  cases outcome with
  | error cause => exact .bind (.say _) fun _ => .pure _
  | ok p =>
    dsimp only
    split
    · exact .bind hevict fun _ => .bind (.modify fun _ => rfl) fun _ => .pure _
    · exact .bind (.modify fun _ => rfl) fun _ => .pure _

theorem stamps_plantDue (now : α) (entries : List (Pending α)) :
    Stamps (plantDue now entries) := by
  induction entries with
  | nil => exact .pure _
  | cons entry rest ih =>
    have hsite : Stamps (site rest) :=
      .bind (.modify fun _ => rfl) fun _ => .bind .read fun _ =>
        .bind (.tending _) fun _ => .pure _
    rw [plantDue_cons]
    split
    · refine .bind (.bind hsite fun spot => ?_) fun _ => ih
      refine .bind (stamps_createPlant spot _ _) fun planted => ?_
      split
      · exact .say _
      · exact .pure _
    · exact .pure _

theorem stamps_tendFrom (dt : α) (before after : List (Plant α)) :
    Stamps (tendFrom dt before after) := by
  induction after generalizing before with
  | nil => exact .pure _
  | cons p after ih =>
    unfold tendFrom
    refine .bind (.tending _) ?_
    intro answer
    obtain ⟨outcome, q⟩ := answer
    cases outcome with
    | ok _ => exact ih _
    | error cause =>
      exact .bind (.say _) fun _ => .bind (.modify fun _ => rfl) fun _ =>
        .bind (stamps_retire q) fun _ => ih _

theorem stamps_applyForces (points : List Nat) : Stamps (applyForces (α := α) points) := by
  have hwind : Stamps (do
      Garden.tending (fun g : Garden α => (g.wind, g.draws))
        (fun s g => { g with wind := s.1, draws := s.2 }) Wind.update
      let g ← Action.read
      let _ ← inWorld (g.wind.apply points g.clock.ticks)) :=
    .bind (.tending _) fun _ => .bind .read fun _ =>
      .bind (.tending _) fun _ => .pure _
  unfold applyForces
  refine .bind .read fun g => ?_
  dsimp only
  split
  · exact .bind (.tending _) fun _ => .bind (.modify fun _ => rfl) fun _ => hwind
  · exact hwind

/-- A tick, up to where the world and the clock move on. -/
def prepare (dt : α) : Tending α Unit := do
  let g ← Action.read
  plantDue g.clock.seconds g.pending
  tendAll dt
  let g ← Action.read
  let points ← Action.ofExcept g.movable
  applyForces points

theorem update_eq (dt : α) : update dt = (do
    prepare dt
    Action.modify fun g => { g with world := g.world.step dt, clock := g.clock.advance dt }) := by
  unfold update prepare
  simp only [bind_assoc]

theorem stamps_prepare (dt : α) : Stamps (prepare dt) :=
  .bind .read fun _ => .bind (stamps_plantDue _ _) fun _ =>
    .bind (.bind .read fun _ => stamps_tendFrom dt _ _) fun _ => .bind .read fun _ =>
      .bind (.ofExcept _) fun _ => stamps_applyForces _

/-- The clock moves on after the last note of a tick. -/
theorem told_update {line : Entry α → Except Fault String} {g : Garden α}
    (hline : ∀ n, (line (Entry.stamp g.journalClock n)).isOk) (dt : α) :
    Told line (update dt) g := by
  have hnotes : (update dt g).notes = (prepare dt g).notes := by
    rw [update_eq]
    cases hr : (prepare dt g).result with
    | error e => rw [bind_of_error hr]
    | ok done =>
      rw [bind_of_ok hr]
      exact List.append_nil _
  unfold Told
  rw [hnotes]
  exact (stamps_prepare dt).told hline

end Garden
/-- Whether a note can be put down depends on its stamp only. -/
theorem Entry.line_isOk (reading : Option (Float × Nat)) (n m : Note Float) :
    (line ⟨reading, n⟩).isOk = (line ⟨reading, m⟩).isOk := by
  have hstamp : stampOf ⟨reading, n⟩ = stampOf ⟨reading, m⟩ := rfl
  unfold line
  rw [hstamp]
  cases stampOf ⟨reading, m⟩ with
  | error e => rfl
  | ok stamp => rfl

end Arboretum
