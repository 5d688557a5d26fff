import Arboretum.Binary64
import Arboretum.Proofs.Grammar.Brackets
import Mathlib.Logic.Function.Iterate

/-!
Expansion as rewriting. Where every rule is a word, a generation puts the word of each symbol in its
place, all symbols at once and without a draw, and a production is the first part of the generation
that overshoots the limit, or of the last one.
-/
namespace Arboretum

open Arboretum.Action

variable {α : Type}

/-! ### Words -/

/-- A rule that is a word. -/
def Rule.isFixed : Rule α → Bool
  | .fixed _ => true
  | _ => false

namespace Grammar

/-- Every rule is a word. -/
def Literal (g : Grammar α) : Prop := ∀ entry ∈ g.rules, entry.2.isFixed

instance (g : Grammar α) : Decidable g.Literal :=
  inferInstanceAs (Decidable (∀ entry ∈ g.rules, entry.2.isFixed))

/-- The word of a symbol's rule; a symbol without one is its own word. -/
def image (g : Grammar α) (symbol : Char) : List Char :=
  match g.rule? symbol with
  | some (.fixed word) => word
  | _ => [symbol]

/-- All symbols of a word replaced at once. -/
def rewrite (g : Grammar α) (word : List Char) : List Char := word.flatMap g.image

/-- The generation that ends an expansion: the first that overshoots the limit, or the last. -/
def ending (g : Grammar α) (word : List Char) (iterations : Nat) : Nat :=
  ((List.range' 1 iterations).find? fun n => maxLength < (g.rewrite^[n] word).length).getD
    iterations

variable {g : Grammar α} {word : List Char}

theorem Literal.rule?_fixed (h : g.Literal) {symbol : Char} {rule : Rule α}
    (hrule : g.rule? symbol = some rule) : ∃ word, rule = .fixed word := by
  have hfixed := h _ (rule?_mem hrule)
  cases rule with
  | fixed word => exact ⟨word, rfl⟩
  | weighted choices => cases hfixed
  | generator f => cases hfixed

/-- An expansion ends with its first generation, or where the rest of it does. -/
theorem ending_succ (left : Nat) : g.ending word (left + 1) =
    if maxLength < (g.rewrite word).length then 1 else g.ending (g.rewrite word) left + 1 := by
  unfold ending
  rw [List.range'_succ]
  by_cases hlong : maxLength < (g.rewrite word).length
  · rw [if_pos hlong, List.find?_cons_of_pos (by simpa using hlong)]
    rfl
  · have hlater : List.range' (1 + 1) left = (List.range' 1 left).map (1 + ·) :=
      (List.map_add_range' 1 left 1).symm
    rw [if_neg hlong, List.find?_cons_of_neg (by simpa using hlong), hlater, List.find?_map]
    simp only [Function.comp_def, Nat.add_comm 1, Function.iterate_succ_apply]
    exact Option.getD_map (· + 1) left _

/-! ### Expansion -/

variable [Scalar α]

theorem Literal.replaceSymbol (h : g.Literal) (symbol : Char) :
    g.replaceSymbol symbol = Pure.pure (g.image symbol) := by
  unfold Grammar.replaceSymbol image
  cases hrule : g.rule? symbol with
  | none => rfl
  | some rule =>
    obtain ⟨word, rfl⟩ := h.rule?_fixed hrule
    rfl

/-- A generation looks at no draw, and what it puts in is not rewritten again. -/
theorem Literal.replaceAll (h : g.Literal) (word : List Char) :
    g.replaceAll word = Pure.pure (g.rewrite word) := by
  induction word with
  | nil => rfl
  | cons symbol word ih =>
    unfold Grammar.replaceAll
    rw [h.replaceSymbol, ih]
    rfl

/-- Generations take their word to the one that ends them; of it, the first part counts. -/
theorem Literal.generations (h : g.Literal) (word : List Char) (generation left : Nat)
    (d : Draws α) : ∃ new, (g.generations word generation left d).result = .ok new ∧
      (g.generations word generation left d).state = d ∧
      new.take maxLength = (g.rewrite^[g.ending word left] word).take maxLength := by
  induction left generalizing word generation with
  | zero => exact ⟨word, rfl, rfl, rfl⟩
  | succ left ih =>
    unfold Grammar.generations
    rw [h.replaceAll, pure_bind, ending_succ]
    by_cases hlong : maxLength < (g.rewrite word).length
    · rw [if_pos hlong, if_pos hlong]
      exact ⟨_, rfl, rfl, by simp [List.take_take]⟩
    · rw [if_neg hlong, if_neg hlong]
      exact ih (g.rewrite word) (generation + 1)

/-- A production never exceeds the limit. -/
theorem length_expand {d : Draws α} {word : List Char} (h : (g.expand d).result = .ok word) :
    word.length ≤ maxLength := by
  obtain ⟨whole, -, htake⟩ := of_bind_ok h
  cases htake
  exact List.length_take_le maxLength whole

/-- An expansion by words is rewriting, repeated and cut, and takes no draw. No expansion exceeds
the limit. -/
theorem expand_iterates (g : Grammar α) (d : Draws α) :
    (g.Literal →
      (g.expand d).result =
        .ok ((g.rewrite^[g.ending g.start g.iterations] g.start).take maxLength) ∧
      (g.expand d).state = d) ∧
    ∀ word, (g.expand d).result = .ok word → word.length ≤ maxLength := by
  refine ⟨fun h => ?_, fun word hword => length_expand hword⟩
  obtain ⟨new, hnew, hstate, htake⟩ := h.generations g.start 0 g.iterations d
  unfold Grammar.expand
  rw [bind_of_ok hnew, ← htake]
  exact ⟨rfl, hstate⟩

/-- A grammar of four generations, the third of which overshoots the limit. -/
def thicket : Grammar Float :=
  { (Preset.simple.grammar : Grammar Float) with
    start := "AF".toList
    rules := [("A", .fixed []), ("F", .fixed (List.replicate 13 'F'))]
    iterations := 4 }

theorem expand_iterates_thicket : thicket.Literal ∧ thicket.ending thicket.start 4 = 3 ∧
    (thicket.expand (.seeded 0)).result = .ok (List.replicate 2000 'F') := by
  have hliteral : thicket.Literal := by decide
  have hend : thicket.ending thicket.start 4 = 3 := by decide +kernel
  have hword : (thicket.rewrite^[3] thicket.start).take maxLength = List.replicate 2000 'F' := by
    decide +kernel
  refine ⟨hliteral, hend, ?_⟩
  rw [((expand_iterates thicket (.seeded 0)).1 hliteral).1, ← hword, ← hend]
  rfl

end Grammar

/-- Every kind of plant is grown by words. -/
theorem Preset.literal [Scalar α] (p : Preset) : (p.grammar : Grammar α).Literal := by
  intro entry hentry
  obtain ⟨word, -, rfl⟩ := List.mem_map.mp hentry
  rfl

end Arboretum
