import Arboretum.Force.Wind
import Arboretum.Plant
import Arboretum.Proofs.Action

/-!
Whatever is drawn only moves on along the stream: what one draw keeps of its source, a grammar, a
walk and a planting keep. How far it moves on is a matter of how many numbers were drawn.
-/
namespace Arboretum

open Arboretum.Action

variable {α ν : Type}

/-- A property of a source that a draw does not take away. -/
def Draws.Steady (kept : Draws α → Prop) : Prop :=
  ∀ d, kept d → kept { d with taken := d.taken + 1 }

theorem Draws.steady_stream (stream : Nat → α) : Draws.Steady fun d => d.draw = stream :=
  fun _ hd => hd

/-- What is chosen depends on the number drawn only. -/
theorem Draws.choose_result {β : Type} [Scalar α] {xs : List β} {outside : Fault} {d d' : Draws α}
    (h : d.draw d.taken = d'.draw d'.taken) :
    (choose xs outside d : Report ν (Draws α) β).result =
      (choose xs outside d' : Report ν (Draws α) β).result := by
  unfold choose
  simp only [bind_apply, next, ofExcept_apply, h]
  cases Scalar.floor (d'.draw d'.taken * (xs.length : α)) with
  | error e => rfl
  | ok place =>
    cases hplace : isPlace place <;> cases hentry : entry? xs place <;> simp [hplace, hentry]

/-! ### How many -/

namespace Draws

/-- A source from which so many numbers more have been taken. -/
def after (d : Draws α) (n : Nat) : Draws α := { d with taken := d.taken + n }

@[simp] theorem after_zero (d : Draws α) : d.after 0 = d := rfl

@[simp] theorem after_after (d : Draws α) (m n : Nat) : (d.after m).after n = d.after (m + n) := by
  simp [after, Nat.add_assoc]

theorem eq_zero_of_after {d : Draws α} {n : Nat} (h : d.after n = d) : n = 0 := by
  have htaken : d.taken + n = d.taken := congrArg taken h
  omega

variable {stopped : Draws α → Prop} {d : Draws α}

theorem meets_next_one :
    Meets (· = d) (next : Action ν (Draws α) α) stopped fun _ d' => d' = d.after 1 :=
  .returns fun _ hd => ⟨_, rfl, congrArg (after · 1) hd⟩

theorem meets_uniform_one [Scalar α] (low high : α) :
    Meets (· = d) (uniform low high : Action ν (Draws α) α) stopped fun _ d' => d' = d.after 1 :=
  meets_next_one.bind fun _ => .pure fun _ hd => hd

end Draws

/-- A shift of a colour draws its hue, its saturation and its brightness. -/
theorem Colour.meets_shift_three [Scalar α] {d : Draws α} (colour : Colour) :
    Meets (· = d) (colour.shift : Action ν (Draws α) Colour) (fun _ => True)
      fun _ d' => d' = d.after 3 := by
  have hdraw (n : Nat) (low high : α) : Meets (· = d.after n)
      (Draws.uniform low high : Action ν (Draws α) α) (fun _ => True)
      fun _ d' => d' = d.after (n + 1) := by
    rw [← Draws.after_after]
    exact Draws.meets_uniform_one low high
  have hread {ρ : Type} {pre : Draws α → Prop} (x : Except Fault ρ) :
      Meets pre (Action.ofExcept x : Action ν (Draws α) ρ) (fun _ => True) fun _ => pre :=
    (Meets.ofExcept x fun _ _ => trivial).weaken fun _ _ h => h.2
  refine (hread _).bind fun _ => (hread _).bind fun _ => ?_
  refine (hdraw 0 _ _).bind fun _ => (hdraw 1 _ _).bind fun _ => (hdraw 2 _ _).bind fun _ => ?_
  exact (hread _).bind fun _ => hread _

/-! ### What is kept -/

variable {kept : Draws α → Prop} (h : Draws.Steady kept)
include h

namespace Draws

theorem keeps_next : Keeps kept (next : Action ν (Draws α) α) := h

variable [Scalar α]

theorem keeps_uniform (low high : α) : Keeps kept (uniform low high : Action ν (Draws α) α) :=
  .bind (keeps_next h) fun _ => .pure _

theorem keeps_integer (low high : Int) : Keeps kept (integer low high : Action ν (Draws α) Int) :=
  .bind (keeps_next h) fun _ => .bind (.ofExcept _) fun _ => .pure _

theorem keeps_choose {β : Type} (xs : List β) (outside : Fault) :
    Keeps kept (choose xs outside : Action ν (Draws α) β) := by
  unfold choose
  refine .bind (keeps_next h) fun u => .bind (.ofExcept _) fun place => ?_
  dsimp only
  split
  · refine .bind (.fail _) fun _ => ?_
    split
    · exact .pure _
    · exact .fail _
  · split
    · exact .pure _
    · exact .fail _

end Draws

variable [Scalar α]

theorem Colour.keeps_shift (colour : Colour) :
    Keeps kept (colour.shift : Action ν (Draws α) Colour) :=
  .bind (.ofExcept _) fun _ => .bind (.ofExcept _) fun _ =>
    .bind (Draws.keeps_uniform h _ _) fun _ => .bind (Draws.keeps_uniform h _ _) fun _ =>
      .bind (Draws.keeps_uniform h _ _) fun _ => .bind (.ofExcept _) fun _ => .ofExcept _

omit [Scalar α] in
theorem Generator.keeps_ask (g : Generator α) :
    Keeps kept (g.ask : Action ν (Draws α) (Value α)) := by
  intro d hd
  have htaken (took : Nat) : kept { d with taken := d.taken + took } := by
    induction took with
    | zero => exact hd
    | succ took ih => exact h _ ih
  exact htaken _

theorem Rule.keeps_replace (symbol : Char) (rule : Rule α) : Keeps kept (rule.replace symbol) := by
  unfold replace
  split
  · exact .pure _
  · exact .bind (Draws.keeps_next h) fun _ => .pure _
  · refine .bind (Generator.keeps_ask h _) fun option => ?_
    split
    · exact .pure _
    · exact .bind (.note _) fun _ => .pure _

namespace Grammar

theorem keeps_replaceAll (g : Grammar α) (word : List Char) : Keeps kept (g.replaceAll word) := by
  induction word with
  | nil => exact .pure _
  | cons symbol word ih =>
    have hsymbol : Keeps kept (g.replaceSymbol symbol) := by
      unfold replaceSymbol
      split
      · exact Rule.keeps_replace h symbol _
      · exact .pure _
    exact .bind hsymbol fun _ => .bind ih fun _ => .pure _

theorem keeps_generations (g : Grammar α) (word : List Char) (generation left : Nat) :
    Keeps kept (g.generations word generation left) := by
  induction left generalizing word generation with
  | zero => exact .pure _
  | succ left ih =>
    unfold generations
    refine .bind (keeps_replaceAll h g word) fun new => ?_
    split
    · exact .bind (.note _) fun _ => .pure _
    · exact ih _ _

theorem keeps_expand (g : Grammar α) : Keeps kept g.expand :=
  .bind (keeps_generations h g _ _ _) fun _ => .pure _

end Grammar

namespace Walk

theorem keeps_follow (t : Traits α) (w : Walk α) (symbol : Char) :
    Keeps kept (w.follow t symbol : Action ν (Draws α) (Walk α)) := by
  have hturn : Keeps kept (w.turn : Action ν (Draws α) α) :=
    .bind (Draws.keeps_uniform h _ _) fun _ => .pure _
  have hfruit : Keeps kept (w.bearFruit t : Action ν (Draws α) (Walk α)) := by
    unfold bearFruit
    refine .bind (Draws.keeps_next h) fun luck => ?_
    split
    · exact .bind (Draws.keeps_uniform h _ _) fun _ => .pure _
    · exact .pure _
  unfold follow
  split
  · exact .ofExcept _
  · exact .ofExcept _
  · exact .bind (.ofExcept _) fun _ => .pure _
  · exact .bind hturn fun _ => .pure _
  · exact .bind hturn fun _ => .pure _
  · exact .pure _
  · exact .pure _
  · exact .pure _
  · split
    · exact .pure _
    · exact .pure _
  · exact .pure _
  · exact .pure _
  · exact hfruit
  · split
    · exact .bind (Colour.keeps_shift h _) fun _ => .pure _
    · exact .pure _
  · exact .pure _

theorem keeps_followAll (t : Traits α) (w : Walk α) (word : List Char) :
    Keeps kept (w.followAll t word : Action ν (Draws α) (Walk α)) := by
  induction word generalizing w with
  | nil => exact .pure _
  | cons symbol word ih => exact .bind (keeps_follow h t w symbol) fun w => ih w

theorem keeps_ofGrammar (g : Grammar α) : Keeps kept (ofGrammar g) :=
  .bind (Grammar.keeps_expand h g) fun _ => .bind (keeps_followAll h _ _ _) fun _ => .pure _

end Walk

theorem Wind.keeps_update :
    Keeps (fun s => kept s.2) (update : Action (Note α) (Wind α × Draws α) Unit) := by
  have hluck : Keeps (fun s => kept s.2)
      (Draws.next.onSnd : Action (Note α) (Wind α × Draws α) α) := fun s hs => h s.2 hs
  have htarget (low high : α) : Keeps (fun s => kept s.2)
      ((Draws.uniform low high).onSnd : Action (Note α) (Wind α × Draws α) α) :=
    fun s hs => Draws.keeps_uniform (ν := Note α) h low high s.2 hs
  unfold update
  refine .bind .read fun state => ?_
  obtain ⟨w, d⟩ := state
  dsimp only
  split
  · refine .bind (.modify fun _ hs => hs) fun _ => .bind hluck fun luck => ?_
    split
    · exact .bind (htarget _ _) fun _ => .modify fun _ hs => hs
    · exact .pure _
  · exact .pure _

theorem Seed.keeps_choose (seed : Seed α) : Keeps kept seed.choose := by
  unfold choose
  split
  · exact .pure _
  · exact .bind (Draws.keeps_choose h _ _) fun _ => .bind (Draws.keeps_uniform h _ _) fun _ =>
      .pure _
  · unfold Preset.named
    split
    · exact .bind (.pure _) fun _ => .pure _
    · exact .bind (.bind (.note _) fun _ => .pure _) fun _ => .pure _

namespace Plant

theorem keeps_sow (order : Planting α) : Keeps kept (sow order) := by
  have hscale : Keeps kept (drawScale order) := by
    unfold drawScale
    split
    · exact .pure _
    · exact Draws.keeps_uniform h _ _
  exact .bind (Draws.keeps_integer h _ _) fun _ => .bind (Seed.keeps_choose h _) fun _ =>
    .bind (Walk.keeps_ofGrammar h _) fun _ => .bind hscale fun _ => .bind (.ofExcept _) fun _ =>
      .pure _

theorem keeps_draws (order : Planting α) : Keeps (fun s => kept s.2) (plant order) := by
  unfold plant
  refine .bind (fun s hs => keeps_sow h order s.2 hs) fun p => ?_
  refine .bind (fun s hs => hs) ?_
  intro state
  obtain ⟨outcome, p⟩ := state
  exact .bind (.ofExcept _) fun _ => .bind (.note _) fun _ => .pure _

end Plant
end Arboretum
