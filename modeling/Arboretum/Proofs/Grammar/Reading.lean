import Arboretum.Proofs.Action
import Arboretum.Grammar
import Mathlib.Data.List.Forall2

/-!
How rules are read. What is asked for is kept as a rule, or refused with a note that says why,
unless one of its weights is out of range: there the reading stops.
-/
namespace Arboretum

open Arboretum.Action

variable {α σ : Type} [Scalar α]

namespace Value

theorem ofInt_error_iff {n : Int} {e : Fault} : (Scalar.ofInt n : Except Fault α) = .error e ↔
    e = .tooLarge ∧ Scalar.isInfinite (n : α) := by
  unfold Scalar.ofInt
  by_cases hlarge : Scalar.isInfinite (n : α)
  · rw [if_pos hlarge]
    exact ⟨fun h => ⟨(Except.error.inj h).symm, hlarge⟩, fun h => congrArg Except.error h.1.symm⟩
  · rw [if_neg hlarge]
    exact ⟨nofun, fun h => (hlarge h.2).elim⟩

/-- Only an integer can be too large to be read as a number. -/
theorem toScalar?_error_iff {v : Value α} {e : Fault} :
    v.toScalar? = .error e ↔
      e = .tooLarge ∧ ∃ n : Int, v = .integer n ∧ Scalar.isInfinite (n : α) := by
  cases v with
  | integer n =>
    rw [toScalar?, map_error_iff, ofInt_error_iff]
    simp
  | text _ => simp [toScalar?]
  | number _ => simp [toScalar?]
  | truth _ => simp [toScalar?]
  | nothing => simp [toScalar?]
  | list _ => simp [toScalar?]
  | table _ => simp [toScalar?]
  | function _ => simp [toScalar?]

/-- An entry of two parts, the second of which is an integer beyond the range of numbers. -/
def Overflows (entry : Value α) : Prop :=
  ∃ first, ∃ n : Int, entry.parts = some [first, .integer n] ∧ first.isWritable ∧
    Scalar.isInfinite (n : α)

variable [Written α]

omit [Scalar α] in
theorem written?_eq_some {v : Value α} {word : String} :
    v.written? = some word ↔ v.isWritable ∧ v.word = word := by
  unfold written?
  split <;> simp_all

omit [Scalar α] in
/-- A text is written as it stands. -/
theorem written?_text (word : String) : (text word : Value α).written? = some word := by
  have hwritable : (text word : Value α).isWritable := by
    unfold isWritable
    rfl
  exact written?_eq_some.mpr ⟨hwritable, rfl⟩

/-- An entry of two parts that weighs a word: the first can be written, and the second is a
number. -/
def Weighs (entry : Value α) (choice : List Char × α) : Prop :=
  ∃ first second word, entry.parts = some [first, second] ∧ first.written? = some word ∧
    second.toScalar? = .ok (some choice.2) ∧ choice.1 = word.toList

/-- A list of weighted words, up to an entry with a weight out of range. -/
inductive Overlarge : List (Value α) → Prop where
  | here {entry : Value α} {entries : List (Value α)} :
      entry.Overflows → Overlarge (entry :: entries)
  | later {entry : Value α} {entries : List (Value α)} {choice : List Char × α} :
      entry.Weighs choice → Overlarge entries → Overlarge (entry :: entries)

end Value

namespace Rule

variable [Written α]

/-! ### Entries -/

/-- An entry of two parts is read part by part. -/
theorem choice?_of_parts {entry first second : Value α} {word : String}
    (hparts : entry.parts = some [first, second]) (hword : first.written? = some word) :
    choice? entry = second.toScalar?.map (Option.map (word.toList, ·)) := by
  unfold choice?
  rw [hparts]
  simp only [hword]
  cases second.toScalar? <;> rfl

theorem choice?_parts {entry : Value α} (h : choice? entry ≠ .ok none) :
    ∃ first second word, entry.parts = some [first, second] ∧ first.written? = some word := by
  unfold choice? at h
  split at h
  · rename_i first second hparts
    cases hword : first.written? with
    | none => simp [hword] at h
    | some word => exact ⟨first, second, word, hparts, hword⟩
  · exact (h rfl).elim

theorem choice?_some_iff {entry : Value α} {choice : List Char × α} :
    choice? entry = .ok (some choice) ↔ entry.Weighs choice := by
  constructor
  · intro h
    have hread : choice? entry ≠ .ok none := by simp [h]
    obtain ⟨first, second, word, hparts, hword⟩ := choice?_parts hread
    rw [choice?_of_parts hparts hword, map_some_iff] at h
    obtain ⟨weight, hweight, rfl⟩ := h
    exact ⟨first, second, word, hparts, hword, hweight, rfl⟩
  · rintro ⟨first, second, word, hparts, hword, hweight, hchoice⟩
    rw [choice?_of_parts hparts hword, map_some_iff]
    exact ⟨choice.2, hweight, congrArg (·, choice.2) hchoice.symm⟩

theorem choice?_error_iff {entry : Value α} {e : Fault} :
    choice? entry = .error e ↔ e = .tooLarge ∧ entry.Overflows := by
  constructor
  · intro h
    have hread : choice? entry ≠ .ok none := by simp [h]
    obtain ⟨first, second, word, hparts, hword⟩ := choice?_parts hread
    rw [choice?_of_parts hparts hword, map_error_iff] at h
    obtain ⟨rfl, n, rfl, hlarge⟩ := Value.toScalar?_error_iff.mp h
    exact ⟨rfl, first, n, hparts, (Value.written?_eq_some.mp hword).1, hlarge⟩
  · rintro ⟨rfl, first, n, hparts, hwritable, hlarge⟩
    rw [choice?_of_parts hparts (Value.written?_eq_some.mpr ⟨hwritable, rfl⟩), map_error_iff]
    exact Value.toScalar?_error_iff.mpr ⟨rfl, n, rfl, hlarge⟩

/-! ### Lists -/

section
variable {entry : Value α} {entries : List (Value α)} {choices : List (List Char × α)} {e : Fault}

/-- What a list is read as, by its first entry and the rest. -/
theorem choices?_cons : choices? (entry :: entries) =
    match choice? entry with
    | .error e => .error e
    | .ok none => .ok none
    | .ok (some choice) => (choices? entries).map (Option.map (choice :: ·)) := by
  rw [choices?]
  rcases choice? entry with e | _ | choice
  · rfl
  · rfl
  · cases choices? entries <;> rfl

/-- A list is read as weighted words where each of its entries weighs one. -/
theorem choices?_some_iff :
    choices? entries = .ok (some choices) ↔ List.Forall₂ Value.Weighs entries choices := by
  induction entries generalizing choices with
  | nil =>
    rw [List.forall₂_nil_left_iff]
    exact ⟨fun h => by cases h; rfl, fun h => h ▸ rfl⟩
  | cons entry entries ih =>
    simp only [List.forall₂_cons_left_iff, ← choice?_some_iff, ← ih]
    rw [choices?_cons]
    rcases choice? entry with fault | _ | choice
    · exact ⟨nofun, nofun⟩
    · exact ⟨nofun, nofun⟩
    · dsimp only
      rw [map_some_iff]
      constructor
      · rintro ⟨rest, hrest, rfl⟩
        exact ⟨choice, rest, rfl, hrest, rfl⟩
      · rintro ⟨_, rest, h, hrest, rfl⟩
        cases h
        exact ⟨rest, hrest, rfl⟩

theorem overlarge_cons_iff : Value.Overlarge (entry :: entries) ↔
    entry.Overflows ∨ (∃ choice, entry.Weighs choice) ∧ Value.Overlarge entries := by
  constructor
  · rintro (hover | ⟨hweighs, hlarge⟩)
    · exact .inl hover
    · exact .inr ⟨⟨_, hweighs⟩, hlarge⟩
  · rintro (hover | ⟨⟨_, hweighs⟩, hlarge⟩)
    · exact .here hover
    · exact .later hweighs hlarge

/-- The reading of a list stops where a weight is out of range. -/
theorem choices?_error_iff :
    choices? entries = .error e ↔ e = .tooLarge ∧ Value.Overlarge entries := by
  induction entries with
  | nil => exact ⟨nofun, nofun⟩
  | cons entry entries ih =>
    simp only [overlarge_cons_iff, and_or_left, ← choice?_error_iff, ← choice?_some_iff,
      and_left_comm (a := e = .tooLarge), ← ih]
    rw [choices?_cons]
    rcases choice? entry with fault | _ | choice
    · simp
    · simp
    · simp [map_error_iff]

end

/-! ### Rules -/

/-- What may be kept: a word, a function, or a list of weighted words with no negative weight. -/
inductive Of : Value α → Rule α → Prop where
  | word (s : String) : Of (.text s) (.fixed s.toList)
  | function (answer : (Nat → α) → Except Fault (Value α) × Nat) :
      Of (.function answer) (.generator ⟨answer⟩)
  | weights {entries : List (Value α)} {choices : List (List Char × α)} :
      List.Forall₂ Value.Weighs entries choices → (∀ choice ∈ choices, ¬ choice.2 < 0) →
      Of (.list entries) (.weighted choices)

/-- Why nothing is kept. -/
inductive Refused (grammar symbol : String) : Value α → Note α → Prop where
  | notPairs {entries : List (Value α)} :
      (∀ choices, ¬ List.Forall₂ Value.Weighs entries choices) →
      Refused grammar symbol (.list entries) (.ruleNotPairs grammar symbol)
  | negative {entries : List (Value α)} {choices : List (List Char × α)}
      {choice : List Char × α} : List.Forall₂ Value.Weighs entries choices → choice ∈ choices →
      choice.2 < 0 → Refused grammar symbol (.list entries) (.ruleNegative grammar symbol)
  | unsupported {value : Value α} : (∀ word, value ≠ .text word) →
      (∀ answer, value ≠ .function answer) → (∀ entries, value ≠ .list entries) →
      Refused grammar symbol value (.ruleUnsupported grammar symbol value.kind)

/-- What is remarked on of a rule that is kept. -/
def remarks (grammar symbol : String) : Rule α → List (Note α)
  | weighted choices =>
    if 1 + tolerance < total choices then [.ruleOverweight grammar symbol (total choices)] else []
  | _ => []

section
variable {grammar symbol : String} {value : Value α} {rule : Rule α} {note : Note α} {s : σ}

/-- What is refused is not kept. -/
theorem Refused.not_of (h : Refused grammar symbol value note) (rule : Rule α) :
    ¬ Of value rule := by
  intro hrule
  cases hrule with
  | word text => cases h with | unsupported hword _ _ => exact hword _ rfl
  | function answer => cases h with | unsupported _ hfunction _ => exact hfunction _ rfl
  | weights hweighs hnone =>
    cases h with
    | notPairs hno => exact hno _ hweighs
    | negative hweighs' hmem hbelow =>
      have hsame := choices?_some_iff.mpr hweighs
      rw [choices?_some_iff.mpr hweighs'] at hsame
      cases hsame
      exact hnone _ hmem hbelow
    | unsupported _ _ hlist => exact hlist _ rfl

theorem ofValue_of_weighs {entries : List (Value α)} {choices : List (List Char × α)}
    (h : List.Forall₂ Value.Weighs entries choices) :
    ofValue grammar symbol (.list entries) s = keep grammar symbol choices s := by
  rw [ofValue, choices?_some_iff.mpr h]
  rfl

omit [Written α] in
theorem keep_of_negative {choices : List (List Char × α)} (h : ∃ c ∈ choices, c.2 < 0) :
    (keep grammar symbol choices s : Report (Note α) σ _) =
      ⟨.ok none, s, [(.ruleNegative grammar symbol, s)]⟩ := by
  unfold keep
  rw [if_pos (by simpa using h)]
  rfl

omit [Written α] in
theorem keep_of_none_negative {choices : List (List Char × α)} (h : ∀ c ∈ choices, ¬ c.2 < 0) :
    (keep grammar symbol choices s : Report (Note α) σ _) =
      ⟨.ok (some (weighted choices)), s,
        ((weighted choices).remarks grammar symbol).map (·, s)⟩ := by
  have hquiet : (choices.any fun c => decide (c.2 < 0)) ≠ true := by simpa using h
  unfold keep remarks
  rw [if_neg hquiet]
  by_cases hover : 1 + tolerance < total choices
  · simp only [if_pos hover]
    rfl
  · simp only [if_neg hover]
    rfl

/-- A value is kept with its remarks, or refused with a note, or stops the reading. -/
theorem ofValue_cases (grammar symbol : String) (value : Value α) (s : σ) :
    (∃ rule, Of value rule ∧ ofValue grammar symbol value s =
      ⟨.ok (some rule), s, (rule.remarks grammar symbol).map (·, s)⟩) ∨
    (∃ note, Refused grammar symbol value note ∧
      ofValue grammar symbol value s = ⟨.ok none, s, [(note, s)]⟩) ∨
    ∃ entries, value = .list entries ∧ Value.Overlarge entries ∧
      ofValue grammar symbol value s = ⟨.error .tooLarge, s, []⟩ := by
  cases value with
  | text word => exact .inl ⟨_, .word word, rfl⟩
  | function answer => exact .inl ⟨_, .function answer, rfl⟩
  | list entries =>
    cases hread : choices? entries with
    | error e =>
      obtain ⟨rfl, hlarge⟩ := choices?_error_iff.mp hread
      refine .inr (.inr ⟨entries, rfl, hlarge, ?_⟩)
      rw [ofValue, hread]
      rfl
    | ok choices? =>
      cases choices? with
      | none =>
        have hno (choices) (h : List.Forall₂ Value.Weighs entries choices) : False := by
          rw [choices?_some_iff.mpr h] at hread
          cases hread
        refine .inr (.inl ⟨_, .notPairs hno, ?_⟩)
        rw [ofValue, hread]
        rfl
      | some choices =>
        have hweighs := choices?_some_iff.mp hread
        rw [ofValue_of_weighs hweighs]
        by_cases hnegative : ∃ c ∈ choices, c.2 < 0
        · obtain ⟨choice, hmem, hbelow⟩ := hnegative
          exact .inr (.inl ⟨_, .negative hweighs hmem hbelow, keep_of_negative ⟨_, hmem, hbelow⟩⟩)
        · have hnone : ∀ c ∈ choices, ¬ c.2 < 0 := fun c hc hbelow => hnegative ⟨c, hc, hbelow⟩
          exact .inl ⟨_, .weights hweighs hnone, keep_of_none_negative hnone⟩
  | integer _ => exact .inr (.inl ⟨_, .unsupported nofun nofun nofun, rfl⟩)
  | number _ => exact .inr (.inl ⟨_, .unsupported nofun nofun nofun, rfl⟩)
  | truth _ => exact .inr (.inl ⟨_, .unsupported nofun nofun nofun, rfl⟩)
  | nothing => exact .inr (.inl ⟨_, .unsupported nofun nofun nofun, rfl⟩)
  | table _ => exact .inr (.inl ⟨_, .unsupported nofun nofun nofun, rfl⟩)

/-- The reading of a value stops where a weight is out of range. -/
theorem ofValue_error_iff {e : Fault} :
    (ofValue grammar symbol value s).result = .error e ↔
      e = .tooLarge ∧ ∃ entries, value = .list entries ∧ Value.Overlarge entries := by
  constructor
  · intro h
    rcases ofValue_cases grammar symbol value s with
      ⟨_, _, hreport⟩ | ⟨_, _, hreport⟩ | ⟨entries, hvalue, hlarge, hreport⟩
    · rw [hreport] at h
      cases h
    · rw [hreport] at h
      cases h
    · rw [hreport] at h
      exact ⟨(Except.error.inj h).symm, entries, hvalue, hlarge⟩
  · rintro ⟨rfl, entries, rfl, hlarge⟩
    rw [ofValue, choices?_error_iff.mpr ⟨rfl, hlarge⟩]
    rfl

end

end Rule
end Arboretum
