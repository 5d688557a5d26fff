import Mathlib.MeasureTheory.Measure.Lebesgue.Basic
import Arboretum.Proofs.Draws
import Arboretum.Proofs.Exact
import Arboretum.Proofs.Grammar.Drafts

/-!
Weighted words in exact arithmetic. The weights of a rule lie side by side from zero on, and a draw
chooses the word in whose part it falls; where it falls beyond them, the symbol stays.
-/
namespace Arboretum

open Arboretum.Action MeasureTheory

namespace Rule

variable {choices first last : List (List Char × ℝ)} {u low : ℝ}

/-- What the first words weigh together. -/
def below (choices : List (List Char × ℝ)) (n : ℕ) : ℝ := ((choices.take n).map (·.2)).sum

/-- Where a draw falls: at an entry that it stops at after passing those before it, or through them
all. -/
def Falls (choices : List (List Char × ℝ)) (u : ℝ) : Option (Fin choices.length) → Prop
  | some i => chosen u 0 (choices.take i) = none ∧
      chosen u 0 (choices.take (i + 1)) = some choices[i].1
  | none => chosen u 0 choices = none

/-! ### Sums -/

theorem below_zero : below choices 0 = 0 := rfl

theorem below_succ (i : Fin choices.length) :
    below choices (i + 1) = below choices i + choices[i].2 := by
  rw [below, List.take_succ_eq_append_getElem i.isLt, List.map_append, List.sum_append]
  simp [below]

theorem below_mono (hweights : ∀ c ∈ choices, 0 ≤ c.2) : Monotone (below choices) := by
  apply monotone_nat_of_le_succ
  intro n
  by_cases hn : n < choices.length
  · rw [below_succ ⟨n, hn⟩]
    exact le_add_of_nonneg_right (hweights _ (List.getElem_mem hn))
  · have hend := not_lt.mp hn
    rw [below, below, List.take_of_length_le hend, List.take_of_length_le (hend.trans n.le_succ)]

/-! ### Draws -/

/-- Entries that let a draw pass leave it to those after them. -/
theorem chosen_append : chosen u low (first ++ last) =
    (chosen u low first).or (chosen u (low + (first.map (·.2)).sum) last) := by
  induction first generalizing low with
  | nil => simp [chosen]
  | cons choice first ih =>
    obtain ⟨word, weight⟩ := choice
    by_cases hstop : u < low + weight
    · simp [chosen, hstop]
    · simp [chosen, hstop, ih, add_assoc]

/-- A draw passes entries where it reaches what they weigh together. -/
theorem chosen_eq_none_iff (hlow : low ≤ u) (hweights : ∀ c ∈ choices, 0 ≤ c.2) :
    chosen u low choices = none ↔ low + (choices.map (·.2)).sum ≤ u := by
  induction choices generalizing low with
  | nil => simpa [chosen] using hlow
  | cons choice choices ih =>
    obtain ⟨word, weight⟩ := choice
    obtain ⟨-, hrest⟩ := List.forall_mem_cons.mp hweights
    have hsum : 0 ≤ (choices.map (·.2)).sum := List.sum_nonneg (List.forall_mem_map.mpr hrest)
    by_cases hstop : u < low + weight
    · simp [chosen, hstop]
      linarith
    · simp [chosen, hstop, ih (not_lt.mp hstop) hrest, add_assoc]

section
variable (hu : 0 ≤ u) (hweights : ∀ c ∈ choices, 0 ≤ c.2)
include hu hweights

theorem chosen_take_eq_none_iff (n : ℕ) :
    chosen u 0 (choices.take n) = none ↔ below choices n ≤ u := by
  rw [chosen_eq_none_iff hu fun c hc => hweights c (List.mem_of_mem_take hc), zero_add, below]

theorem falls_none_iff : Falls choices u none ↔ below choices choices.length ≤ u := by
  rw [← chosen_take_eq_none_iff hu hweights, List.take_length, Falls]

/-- A draw stops at an entry where it reaches what those before it weigh, and not what they weigh
with it. -/
theorem falls_some_iff (i : Fin choices.length) :
    Falls choices u (some i) ↔ below choices i ≤ u ∧ u < below choices (i + 1) := by
  rw [Falls, chosen_take_eq_none_iff hu hweights]
  refine and_congr_right fun hreached => ?_
  have hpassed := (chosen_take_eq_none_iff hu hweights i).mpr hreached
  rw [List.take_succ_eq_append_getElem i.isLt, chosen_append, hpassed, Option.none_or, zero_add,
    below_succ]
  simp [chosen, below]

/-- Every draw falls somewhere. -/
theorem exists_falls : ∃ outcome, Falls choices u outcome := by
  by_cases hthrough : below choices choices.length ≤ u
  · exact ⟨none, (falls_none_iff hu hweights).mpr hthrough⟩
  · -- It stops before the first sum that it does not reach.
    have hstops : ∃ n, u < below choices n := ⟨_, not_le.mp hthrough⟩
    have hend : Nat.find hstops ≤ choices.length := Nat.find_min' hstops (not_le.mp hthrough)
    have hfound := Nat.find_spec hstops
    cases hfirst : Nat.find hstops with
    | zero =>
      rw [hfirst, below_zero] at hfound
      exact absurd hu (not_le.mpr hfound)
    | succ n =>
      have hreached : below choices n ≤ u := not_lt.mp (Nat.find_min hstops (by omega))
      rw [hfirst] at hfound
      exact ⟨some ⟨n, by omega⟩, (falls_some_iff hu hweights _).mpr ⟨hreached, hfound⟩⟩

/-- No draw falls in two places. -/
theorem falls_unique {outcome outcome' : Option (Fin choices.length)}
    (h : Falls choices u outcome) (h' : Falls choices u outcome') : outcome = outcome' := by
  have hmono := below_mono hweights
  have hsome (i : Fin choices.length) := falls_some_iff hu hweights i
  have hover {i : Fin choices.length} (hi : Falls choices u (some i)) {n : ℕ} (hn : i < n) :
      ¬ below choices n ≤ u :=
    fun hreached => absurd (((hsome i).mp hi).2.trans_le (hmono hn)) (not_lt.mpr hreached)
  cases outcome with
  | none =>
    cases outcome' with
    | none => rfl
    | some j => exact (hover h' j.isLt ((falls_none_iff hu hweights).mp h)).elim
  | some i =>
    cases outcome' with
    | none => exact (hover h i.isLt ((falls_none_iff hu hweights).mp h')).elim
    | some j =>
      rcases lt_trichotomy i j with hlt | rfl | hlt
      · exact (hover h hlt ((hsome j).mp h').1).elim
      · rfl
      · exact (hover h' hlt ((hsome i).mp h).1).elim

end

/-- The word of the entry that a draw stops at is chosen. -/
theorem Falls.chosen {outcome : Option (Fin choices.length)} (h : Falls choices u outcome) :
    chosen u 0 choices = outcome.map fun i => choices[i].1 := by
  cases outcome with
  | none => exact h
  | some i =>
    have hchosen : Rule.chosen u 0 (choices.take (i + 1) ++ choices.drop (i + 1)) =
        some choices[i].1 := by
      rw [chosen_append, h.2, Option.some_or]
    rwa [List.take_append_drop] at hchosen

end Rule

namespace Grammar

open Rule

theorem replaceSymbol_weighted {g : Grammar ℝ} {symbol : Char} {choices : List (List Char × ℝ)}
    (hrule : g.rule? symbol = some (.weighted choices)) (d : Draws ℝ) :
    g.replaceSymbol symbol d =
      ⟨.ok ((chosen (d.draw d.taken) 0 choices).getD [symbol]), d.after 1, []⟩ := by
  rw [replaceSymbol, hrule]
  rfl

/-- A weighted rule of a checked draft has no negative weights. -/
theorem weights_nonneg {σ : Type} [Written ℝ] {draft : Draft ℝ} {s : σ} {g : Grammar ℝ}
    (hg : (ofDraft draft s).result = .ok g) {symbol : Char} {choices : List (List Char × ℝ)}
    (hrule : g.rule? symbol = some (.weighted choices)) : ∀ c ∈ choices, 0 ≤ c.2 := by
  obtain ⟨notes, hsifted, -⟩ := ofDraft_sifted hg
  obtain ⟨value, -, hof⟩ := hsifted.of_mem (rule?_mem hrule)
  cases hof with
  | weights _ hnone => exact fun c hc => not_lt.mp (hnone c hc)

/-- The draws that stop at an entry are an interval, cut off at one. -/
theorem setOf_falls {choices : List (List Char × ℝ)} (hweights : ∀ c ∈ choices, 0 ≤ c.2)
    (i : Fin choices.length) : {u | 0 ≤ u ∧ u < 1 ∧ Falls choices u (some i)} =
      Set.Ico (min (below choices i) 1) (min (below choices (i + 1)) 1) := by
  have hlow : below choices 0 ≤ below choices i := below_mono hweights i.val.zero_le
  rw [below_zero] at hlow
  ext u
  simp only [Set.mem_ofPred_eq, Set.mem_Ico, lt_min_iff, min_le_iff]
  constructor
  · rintro ⟨hu, hone, hfalls⟩
    obtain ⟨hreached, hstops⟩ := (falls_some_iff hu hweights i).mp hfalls
    exact ⟨.inl hreached, hstops, hone⟩
  · rintro ⟨hreached | hbeyond, hstops, hone⟩
    · have hu := hlow.trans hreached
      exact ⟨hu, hone, (falls_some_iff hu hweights i).mpr ⟨hreached, hstops⟩⟩
    · exact absurd hone (not_lt.mpr hbeyond)

/-- The weights of a rule that is kept split the unit interval. A replacement takes one draw, which
stops at the entry in whose part it lies, or falls through them all and leaves the symbol. -/
theorem weights_split {σ : Type} [Written ℝ] {draft : Draft ℝ} {s : σ} {g : Grammar ℝ}
    (hg : (ofDraft draft s).result = .ok g) {symbol : Char} {choices : List (List Char × ℝ)}
    (hrule : g.rule? symbol = some (.weighted choices)) :
    (∀ d : Draws ℝ, 0 ≤ d.draw d.taken → d.draw d.taken < 1 →
      (g.replaceSymbol symbol d).state = d.after 1 ∧
      (∃! outcome, Falls choices (d.draw d.taken) outcome) ∧
      ∀ outcome, Falls choices (d.draw d.taken) outcome →
        (g.replaceSymbol symbol d).result =
          .ok ((outcome.map fun i => choices[i].1).getD [symbol])) ∧
    (∀ u, 0 ≤ u → u < 1 → (Falls choices u none ↔ below choices choices.length ≤ u) ∧
      ∀ i : Fin choices.length,
        (Falls choices u (some i) ↔ below choices i ≤ u ∧ u < below choices (i + 1)) ∧
        (choices[i].2 = 0 → ¬ Falls choices u (some i))) ∧
    ∀ i : Fin choices.length,
      {u | 0 ≤ u ∧ u < 1 ∧ Falls choices u (some i)} =
        Set.Ico (min (below choices i) 1) (min (below choices (i + 1)) 1) ∧
      volume {u | 0 ≤ u ∧ u < 1 ∧ Falls choices u (some i)} =
        ENNReal.ofReal (min (below choices (i + 1)) 1 - min (below choices i) 1) := by
  have hweights := weights_nonneg hg hrule
  refine ⟨fun d hd _ => ?_, fun u hu _ => ⟨falls_none_iff hu hweights, fun i => ?_⟩, fun i => ?_⟩
  · rw [replaceSymbol_weighted hrule]
    refine ⟨rfl, ?_, fun outcome h => by rw [h.chosen]⟩
    obtain ⟨outcome, h⟩ := exists_falls hd hweights
    exact ⟨outcome, h, fun _ h' => falls_unique hd hweights h' h⟩
  · refine ⟨falls_some_iff hu hweights i, fun hzero hfalls => ?_⟩
    obtain ⟨hreached, hstops⟩ := (falls_some_iff hu hweights i).mp hfalls
    rw [below_succ, hzero, add_zero] at hstops
    exact absurd hreached (not_le.mpr hstops)
  · rw [setOf_falls hweights, Real.volume_Ico]
    exact ⟨rfl, rfl⟩

/-- Two words with a gap after them, and one between them that weighs nothing. -/
noncomputable def gapped : Draft ℝ :=
  { (Draft.default : Draft ℝ) with
    rules := [("F", .list [.list [.text "A", .number 0.25], .list [.text "B", .integer 0],
      .list [.text "C", .number 0.5]])] }

noncomputable def gap : List (List Char × ℝ) := [(['A'], 0.25), (['B'], 0), (['C'], 0.5)]

noncomputable def gappy : Grammar ℝ :=
  { gapped with start := gapped.start.toList, rules := [("F", .weighted gap)], iterations := 2 }

theorem ofDraft_gapped [Written ℝ] :
    (ofDraft gapped () : Report (Note ℝ) Unit _).result = .ok gappy := by
  have hzero : (Value.integer 0 : Value ℝ).toScalar? = .ok (some 0) := by
    simp [Value.toScalar?, Scalar.ofInt_real, Except.map]
  have hweighs : List.Forall₂ Value.Weighs [.list [.text "A", .number 0.25],
      .list [.text "B", .integer 0], .list [.text "C", .number 0.5]] gap :=
    .cons ⟨_, _, "A", rfl, Value.written?_text _, rfl, rfl⟩ <|
      .cons ⟨_, _, "B", rfl, Value.written?_text _, hzero, rfl⟩ <|
        .cons ⟨_, _, "C", rfl, Value.written?_text _, rfl, rfl⟩ .nil
  have hnone : ∀ c ∈ gap, ¬ c.2 < 0 := by
    norm_num [gap]
  have hrule : ofValue "custom" "F" (.list [.list [.text "A", .number 0.25],
      .list [.text "B", .integer 0], .list [.text "C", .number 0.5]]) () =
      ⟨.ok (some (.weighted gap)), (), _⟩ :=
    (ofValue_of_weighs hweighs).trans (keep_of_none_negative hnone)
  have hkept : (keptRules "custom" gapped.rules () : Report (Note ℝ) Unit _).result =
      .ok [("F", .weighted gap)] := by
    rw [gapped, keptRules_cons hrule]
    rfl
  have hcount : gapped.iterations.toCount = .ok 2 := rfl
  rw [ofDraft_of_count hcount]
  exact map_ok_iff.mpr ⟨_, hkept, rfl⟩

/-- No number is written in these rules. -/
abbrev unwritten : Written ℝ := ⟨fun _ => ""⟩

theorem weights_split_gapped :
    (@ofDraft ℝ Unit _ unwritten gapped ()).result = .ok gappy ∧
      gappy.rule? 'F' = some (.weighted gap) ∧
      ∃ nothing last : Fin gap.length, nothing.val = 1 ∧ last.val = 2 ∧
        (∀ u, 0 ≤ u → u < 1 → (Falls gap u none ↔ below gap 3 ≤ u) ∧
          ¬ Falls gap u (some nothing)) ∧
        volume {u | 0 ≤ u ∧ u < 1 ∧ Falls gap u (some last)} =
          ENNReal.ofReal (min (below gap 3) 1 - min (below gap 2) 1) := by
  have hrule : gappy.rule? 'F' = some (.weighted gap) := by
    simp [gappy, rule?]
  have hgapped := @ofDraft_gapped unwritten
  have hlength : gap.length = 3 := rfl
  obtain ⟨-, hfalls, hvolume⟩ := @weights_split Unit unwritten gapped () gappy hgapped 'F' gap hrule
  refine ⟨hgapped, hrule, ⟨1, by omega⟩, ⟨2, by omega⟩, rfl, rfl, fun u hu hone => ?_, ?_⟩
  · exact ⟨(hfalls u hu hone).1, ((hfalls u hu hone).2 ⟨1, by omega⟩).2 rfl⟩
  · exact (hvolume ⟨2, by omega⟩).2

end Grammar
end Arboretum
