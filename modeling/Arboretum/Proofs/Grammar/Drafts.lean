import Arboretum.Binary64
import Arboretum.Decimal.Shortest
import Arboretum.Proofs.Grammar.Brackets
import Arboretum.Proofs.Grammar.Reading

/-!
Drafts with rules of any kind. The check of a draft keeps what can be a rule and drops the rest,
each with one note; only a weight out of range stops it. What is expanded then passes over every
symbol that has no rule, and over every symbol whose generator answers with something else than a
word.
-/
namespace Arboretum

open Arboretum.Action

variable {α σ : Type} [Scalar α]

namespace Grammar

/-! ### Rules -/

section
variable [Written α]

/-- What is kept of a table of rules, and what is noted: the remarks on a rule that is kept, and one
note for each value that is not. -/
inductive Sifted (grammar : String) :
    List (String × Value α) → List (String × Rule α) → List (Note α) → Prop where
  | nil : Sifted grammar [] [] []
  | kept {symbol : String} {value : Value α} {rule : Rule α} {table : List (String × Value α)}
      {rules : List (String × Rule α)} {notes : List (Note α)} :
      Rule.Of value rule → Sifted grammar table rules notes →
      Sifted grammar ((symbol, value) :: table) ((symbol, rule) :: rules)
        (rule.remarks grammar symbol ++ notes)
  | dropped {symbol : String} {value : Value α} {note : Note α} {table : List (String × Value α)}
      {rules : List (String × Rule α)} {notes : List (Note α)} :
      (∀ rule, ¬ Rule.Of value rule) → Rule.Refused grammar symbol value note →
      Sifted grammar table rules notes →
      Sifted grammar ((symbol, value) :: table) rules (note :: notes)

variable {grammar : String} {table : List (String × Value α)} {rules : List (String × Rule α)}
  {s : σ}

/-- What is kept was asked for. -/
theorem Sifted.of_mem {notes : List (Note α)} (h : Sifted grammar table rules notes)
    {symbol : String} {rule : Rule α} (hmem : (symbol, rule) ∈ rules) :
    ∃ value, (symbol, value) ∈ table ∧ Rule.Of value rule := by
  induction h with
  | nil => cases hmem
  | kept hrule _ ih =>
    rcases List.mem_cons.mp hmem with hfirst | hlater
    · cases hfirst
      exact ⟨_, List.mem_cons_self, hrule⟩
    · obtain ⟨value, hvalue, hof⟩ := ih hlater
      exact ⟨value, List.mem_cons_of_mem _ hvalue, hof⟩
  | dropped _ _ _ ih =>
    obtain ⟨value, hvalue, hof⟩ := ih hmem
    exact ⟨value, List.mem_cons_of_mem _ hvalue, hof⟩

/-- A table is read on where a value of it has been read. -/
theorem keptRules_cons {symbol : String} {value : Value α} {rule? : Option (Rule α)}
    {notes : List (Note α × σ)} (h : Rule.ofValue grammar symbol value s = ⟨.ok rule?, s, notes⟩) :
    keptRules grammar ((symbol, value) :: table) s =
      ⟨(keptRules grammar table s).result.map ((rule?.map (symbol, ·)).toList ++ ·),
        (keptRules grammar table s).state, notes ++ (keptRules grammar table s).notes⟩ := by
  rw [keptRules, bind_ok h]
  cases htable : (keptRules grammar table s).result with
  | error e =>
    rw [bind_of_error htable]
    rfl
  | ok kept =>
    rw [bind_of_ok htable]
    cases rule? <;> simp [Except.map]

theorem keptRules_sifted (h : (keptRules grammar table s).result = .ok rules) :
    Sifted grammar table rules ((keptRules grammar table s).notes.map (·.1)) := by
  induction table generalizing rules s with
  | nil =>
    cases h
    exact .nil
  | cons entry table ih =>
    obtain ⟨symbol, value⟩ := entry
    rcases Rule.ofValue_cases grammar symbol value s with
      ⟨rule, hrule, hreport⟩ | ⟨note, hrefused, hreport⟩ | ⟨_, _, _, hreport⟩
    · rw [keptRules_cons hreport] at h ⊢
      obtain ⟨rest, hrest, rfl⟩ := map_ok_iff.mp h
      have hnotes : ((rule.remarks grammar symbol).map (·, s)).map (·.1) =
          rule.remarks grammar symbol := by
        simp [Function.comp_def]
      rw [List.map_append, hnotes]
      exact .kept hrule (ih hrest)
    · rw [keptRules_cons hreport] at h ⊢
      obtain ⟨rest, hrest, rfl⟩ := map_ok_iff.mp h
      exact .dropped hrefused.not_of hrefused (ih hrest)
    · unfold keptRules at h
      rw [bind_error hreport] at h
      cases h

theorem keptRules_error_iff {e : Fault} : (keptRules grammar table s).result = .error e ↔
    e = .tooLarge ∧
      ∃ symbol entries, (symbol, .list entries) ∈ table ∧ Value.Overlarge entries := by
  induction table generalizing s with
  | nil => exact ⟨nofun, fun ⟨_, _, _, h, _⟩ => absurd h List.not_mem_nil⟩
  | cons entry table ih =>
    obtain ⟨symbol, value⟩ := entry
    have hlater (rule? : Option (Rule α)) (notes : List (Note α × σ))
        (hreport : Rule.ofValue grammar symbol value s = ⟨.ok rule?, s, notes⟩) :
        (keptRules grammar ((symbol, value) :: table) s).result = .error e ↔
        e = .tooLarge ∧ ∃ symbol' entries, (symbol', .list entries) ∈ (symbol, value) :: table ∧
          Value.Overlarge entries := by
      have hread (entries) (hvalue : value = .list entries) : ¬ Value.Overlarge entries := by
        intro hlarge
        have hstop : (Rule.ofValue grammar symbol value s).result = .error .tooLarge :=
          Rule.ofValue_error_iff.mpr ⟨rfl, entries, hvalue, hlarge⟩
        rw [hreport] at hstop
        cases hstop
      rw [keptRules_cons hreport, map_error_iff, ih]
      refine and_congr_right fun _ => ⟨?_, ?_⟩
      · rintro ⟨symbol', entries, hmem, hlarge⟩
        exact ⟨symbol', entries, List.mem_cons_of_mem _ hmem, hlarge⟩
      · rintro ⟨symbol', entries, hmem, hlarge⟩
        rcases List.mem_cons.mp hmem with hfirst | hmem
        · exact (hread entries (Prod.ext_iff.mp hfirst).2.symm hlarge).elim
        · exact ⟨symbol', entries, hmem, hlarge⟩
    rcases Rule.ofValue_cases grammar symbol value s with
      ⟨rule, -, hreport⟩ | ⟨note, -, hreport⟩ | ⟨entries, rfl, hlarge, hreport⟩
    · exact hlater _ _ hreport
    · exact hlater _ _ hreport
    · unfold keptRules
      rw [bind_error hreport]
      exact ⟨fun h => ⟨(Except.error.inj h).symm, symbol, entries, List.mem_cons_self, hlarge⟩,
        fun h => congrArg Except.error h.1.symm⟩

/-- A draft whose count of generations can be read is checked rule by rule. -/
theorem ofDraft_of_count {draft : Draft α} {asked : Int} (h : draft.iterations.toCount = .ok asked)
    (s : σ) : ofDraft draft s =
      ⟨(keptRules draft.name draft.rules s).result.map fun rules =>
          { draft with
            start := draft.start.toList
            rules := rules
            iterations := (max 0 (min asked maxIterations)).toNat },
        (keptRules draft.name draft.rules s).state,
        (if max 0 (min asked maxIterations) ≠ asked then
          [(.iterationsClamped draft.name asked (max 0 (min asked maxIterations)), s)]
        else []) ++ (keptRules draft.name draft.rules s).notes⟩ := by
  unfold ofDraft
  rw [h, ofExcept_ok, pure_bind]
  by_cases hclamped : max 0 (min asked maxIterations) ≠ asked
  · simp only [if_pos hclamped, ← map_eq_pure_bind]
    rw [bind_of_ok rfl, note_apply, map_apply]
  · simp only [if_neg hclamped, ← map_eq_pure_bind]
    rw [map_apply, List.nil_append]

/-- The check of a draft stops at a count of generations that is none, or at a weight out of
range. -/
theorem ofDraft_error_iff {draft : Draft α} {e : Fault} :
    (ofDraft draft s).result = .error e ↔ draft.iterations.toCount = .error e ∨
      (∃ asked, draft.iterations.toCount = .ok asked) ∧ e = .tooLarge ∧
        ∃ symbol entries, (symbol, .list entries) ∈ draft.rules ∧ Value.Overlarge entries := by
  rw [← @keptRules_error_iff α σ _ _ draft.name draft.rules s e]
  cases hcount : draft.iterations.toCount with
  | error fault =>
    unfold ofDraft
    rw [hcount, bind_of_error rfl]
    simp
  | ok asked =>
    rw [ofDraft_of_count hcount, map_error_iff]
    simp

theorem ofDraft_sifted {draft : Draft α} {g : Grammar α} (h : (ofDraft draft s).result = .ok g) :
    ∃ notes, Sifted draft.name draft.rules g.rules notes ∧
      ((ofDraft draft s).notes.map (·.1) = notes ∨ ∃ asked kept,
        (ofDraft draft s).notes.map (·.1) = .iterationsClamped draft.name asked kept :: notes) := by
  obtain ⟨asked, hcount, -⟩ := of_bind_ok h
  have hcount : draft.iterations.toCount = .ok asked := hcount
  rw [ofDraft_of_count hcount] at h ⊢
  obtain ⟨rules, hrules, rfl⟩ := map_ok_iff.mp h
  refine ⟨_, keptRules_sifted hrules, ?_⟩
  by_cases hclamped : max 0 (min asked maxIterations) ≠ asked
  · simp only [if_pos hclamped]
    exact .inr ⟨asked, _, rfl⟩
  · simp only [if_neg hclamped]
    exact .inl rfl

end

/-! ### Expansion -/

/-- A symbol that stays as it is: it has no rule, or its function answers, from the draws that are
left, with what is no word. -/
inductive Passes (g : Grammar α) (symbol : Char) (d : Draws α) : Prop where
  | unruled : (∀ rule, (String.singleton symbol, rule) ∉ g.rules) → Passes g symbol d
  | wordless {f : Generator α} {answer : Value α} : g.rule? symbol = some (.generator f) →
      (f.ask d : Report (Note α) _ _).result = .ok answer → (∀ word, answer ≠ .text word) →
      Passes g symbol d

/-- The words of an expansion, generation by generation, with the draws that are left then. -/
inductive Reaches (g : Grammar α) (d : Draws α) : Nat → List Char → Draws α → Prop where
  | start : Reaches g d 0 g.start d
  | next {n : Nat} {word new : List Char} {d' : Draws α} : Reaches g d n word d' →
      n < g.iterations → n = 0 ∨ word.length ≤ maxLength →
      (g.replaceAll word d').result = .ok new →
      Reaches g d (n + 1) new (g.replaceAll word d').state

/-- The pieces of which a generation is made: one for each symbol, put in its place by its rule from
the draws that are left there, and the symbol itself where it passes. -/
structure Pieced (g : Grammar α) (word : List Char) (d : Draws α) (new : List Char)
    (pieces : List (List Char)) : Prop where
  joined : new = pieces.flatten
  length : pieces.length = word.length
  put : ∀ place symbol, word[place]? = some symbol → ∃ piece, pieces[place]? = some piece ∧
    (g.replaceSymbol symbol (g.replaceAll (word.take place) d).state).result = .ok piece
  passed : ∀ place symbol, word[place]? = some symbol →
    g.Passes symbol (g.replaceAll (word.take place) d).state → pieces[place]? = some [symbol]

variable {g : Grammar α} {symbol : Char} {word new : List Char} {d : Draws α} {e : Fault}

omit [Scalar α] in
theorem rule?_eq_none (h : ∀ rule, (String.singleton symbol, rule) ∉ g.rules) :
    g.rule? symbol = none := by
  cases hrule : g.rule? symbol with
  | none => rfl
  | some rule => exact (h rule (rule?_mem hrule)).elim

theorem Passes.replaceSymbol (h : g.Passes symbol d) :
    (g.replaceSymbol symbol d).result = .ok [symbol] := by
  unfold Grammar.replaceSymbol
  cases h with
  | unruled hno =>
    rw [rule?_eq_none hno]
    rfl
  | wordless hrule hanswer hword =>
    rw [hrule]
    dsimp only
    rw [Rule.replace, bind_of_ok hanswer]
    split
    · exact (hword _ rfl).elim
    · rfl

/-- A symbol stops an expansion only where its function stops. -/
theorem replaceSymbol_error_iff : (g.replaceSymbol symbol d).result = .error e ↔
    ∃ f, g.rule? symbol = some (.generator f) ∧
      (f.ask d : Report (Note α) _ _).result = .error e := by
  unfold Grammar.replaceSymbol
  rcases g.rule? symbol with _ | word | choices | f
  · exact ⟨nofun, nofun⟩
  · exact ⟨nofun, nofun⟩
  · exact ⟨nofun, nofun⟩
  · dsimp only
    rw [Rule.replace]
    cases hanswer : (f.ask d : Report (Note α) _ _).result with
    | error fault =>
      rw [bind_of_error hanswer]
      simp [hanswer]
    | ok answer =>
      rw [bind_of_ok hanswer]
      refine ⟨fun h => ?_, fun h => ?_⟩
      · split at h <;> cases h
      · obtain ⟨f', hf, hstop⟩ := h
        cases hf
        rw [hanswer] at hstop
        cases hstop

theorem replaceAll_concat (word : List Char) (symbol : Char) :
    g.replaceAll (word ++ [symbol]) =
      g.replaceAll word >>= fun new => (new ++ ·) <$> g.replaceSymbol symbol := by
  induction word with
  | nil =>
    simp [replaceAll]
  | cons first word ih =>
    simp [replaceAll, ih]

/-- One symbol more, with its piece. -/
theorem Pieced.concat {pieces : List (List Char)} {piece : List Char}
    (h : Pieced g word d new pieces)
    (hpiece : (g.replaceSymbol symbol (g.replaceAll word d).state).result = .ok piece) :
    Pieced g (word ++ [symbol]) d (new ++ piece) (pieces ++ [piece]) := by
  have hput (place : Nat) (symbol' : Char) (hsymbol : (word ++ [symbol])[place]? = some symbol') :
      ∃ piece', (pieces ++ [piece])[place]? = some piece' ∧
        (g.replaceSymbol symbol' (g.replaceAll ((word ++ [symbol]).take place) d).state).result =
          .ok piece' := by
    have hplace : place < word.length + 1 := by
      simpa using (List.getElem?_eq_some_iff.mp hsymbol).1
    rcases Nat.lt_succ_iff_lt_or_eq.mp hplace with hbefore | rfl
    · rw [List.getElem?_append_left hbefore] at hsymbol
      rw [List.getElem?_append_left (h.length ▸ hbefore), List.take_append_of_le_length hbefore.le]
      exact h.put place symbol' hsymbol
    · rw [List.getElem?_concat_length] at hsymbol
      cases hsymbol
      rw [← h.length, List.getElem?_concat_length, h.length, List.take_left]
      exact ⟨piece, rfl, hpiece⟩
  refine ⟨?_, by simp [h.length], hput, fun place symbol' hsymbol hpasses => ?_⟩
  · rw [h.joined, List.flatten_append, List.flatten_singleton]
  · obtain ⟨piece', hplace, hresult⟩ := hput place symbol' hsymbol
    rw [hpasses.replaceSymbol] at hresult
    cases hresult
    exact hplace

theorem replaceAll_pieced (h : (g.replaceAll word d).result = .ok new) :
    ∃ pieces, Pieced g word d new pieces := by
  induction word using List.reverseRecOn generalizing new with
  | nil =>
    cases h
    exact ⟨[], rfl, rfl, nofun, nofun⟩
  | append_singleton word symbol ih =>
    rw [replaceAll_concat] at h
    obtain ⟨first, hfirst, hlast⟩ := of_bind_ok h
    rw [map_apply, map_ok_iff] at hlast
    obtain ⟨piece, hpiece, rfl⟩ := hlast
    obtain ⟨pieces, hpieces⟩ := ih hfirst
    exact ⟨pieces ++ [piece], hpieces.concat hpiece⟩

/-- A generation stops exactly where the function of one of its symbols stops. -/
theorem replaceAll_error_iff : (g.replaceAll word d).result = .error e ↔
    ∃ before symbol after f, word = before ++ symbol :: after ∧
      (g.replaceAll before d).result.isOk ∧ g.rule? symbol = some (.generator f) ∧
      (f.ask (g.replaceAll before d).state : Report (Note α) _ _).result = .error e := by
  constructor
  · intro h
    induction word using List.reverseRecOn with
    | nil => cases h
    | append_singleton word last ih =>
      cases hword : (g.replaceAll word d).result with
      | error fault =>
        rw [replaceAll_concat, bind_of_error hword] at h
        cases h
        obtain ⟨before, symbol, after, f, rfl, hok, hrule, hstop⟩ := ih hword
        exact ⟨before, symbol, after ++ [last], f, by simp, hok, hrule, hstop⟩
      | ok new =>
        rw [replaceAll_concat, bind_of_ok hword, map_apply] at h
        obtain ⟨f, hrule, hstop⟩ := replaceSymbol_error_iff.mp (map_error_iff.mp h)
        exact ⟨word, last, [], f, rfl, by rw [hword]; rfl, hrule, hstop⟩
  · rintro ⟨before, symbol, after, f, rfl, hok, hrule, hstop⟩
    induction after using List.reverseRecOn with
    | nil =>
      rw [replaceAll_concat, bind_of_ok (eq_ok_of_isOk hok []), map_apply]
      exact map_error_iff.mpr (replaceSymbol_error_iff.mpr ⟨f, hrule, hstop⟩)
    | append_singleton after last ih =>
      rw [← List.cons_append, ← List.append_assoc, replaceAll_concat, bind_of_error ih]

/-! ### Generations -/

/-- Generations end with the last one or with one that overshoots the limit, or stop in between. -/
theorem generations_reach {n left : Nat} {d' : Draws α} (hleft : n + left = g.iterations)
    (hword : Reaches g d n word d') (hroom : n = 0 ∨ word.length ≤ maxLength) :
    (∀ out, (g.generations word n left d').result = .ok out →
      ∃ n' word' d'', Reaches g d n' word' d'' ∧ (n' = g.iterations ∨ maxLength < word'.length) ∧
        out.take maxLength = word'.take maxLength) ∧
    ∀ e, (g.generations word n left d').result = .error e →
      ∃ n' word' d'', Reaches g d n' word' d'' ∧ (g.replaceAll word' d'').result = .error e := by
  induction left generalizing n word d' with
  | zero =>
    constructor
    · intro out hout
      cases hout
      exact ⟨n, word, d', hword, .inl hleft, rfl⟩
    · intro e he
      cases he
  | succ left ih =>
    unfold generations
    cases hnew : (g.replaceAll word d').result with
    | error fault =>
      rw [bind_of_error hnew]
      constructor
      · intro out hout
        cases hout
      · intro e he
        cases he
        exact ⟨n, word, d', hword, hnew⟩
    | ok new =>
      have hnext := hword.next (by omega) hroom hnew
      rw [bind_of_ok hnew]
      by_cases hlong : maxLength < new.length
      · rw [if_pos hlong]
        constructor
        · intro out hout
          cases hout
          exact ⟨n + 1, new, _, hnext, .inr hlong, by simp [List.take_take]⟩
        · intro e he
          cases he
      · rw [if_neg hlong]
        exact ih (by omega) hnext (.inr (not_lt.mp hlong))

/-- A draft is checked unless its count of generations is none or a weight is out of range. What can
be a rule is kept, and everything else is dropped with one note. Each generation of the grammar then
puts a piece in the place of each symbol, and the symbol itself where it passes; only a function
that stops can stop an expansion. -/
theorem ofDraft_sifts [Written α] (draft : Draft α) (s : σ) :
    (∀ e, (ofDraft draft s).result = .error e ↔ draft.iterations.toCount = .error e ∨
      (∃ asked, draft.iterations.toCount = .ok asked) ∧ e = .tooLarge ∧
        ∃ symbol entries, (symbol, .list entries) ∈ draft.rules ∧ Value.Overlarge entries) ∧
    ∀ g, (ofDraft draft s).result = .ok g →
      (∃ notes, Sifted draft.name draft.rules g.rules notes ∧
        ((ofDraft draft s).notes.map (·.1) = notes ∨ ∃ asked kept,
          (ofDraft draft s).notes.map (·.1) =
            .iterationsClamped draft.name asked kept :: notes)) ∧
      ∀ d,
        (∀ n word d' new, Reaches g d n word d' → (g.replaceAll word d').result = .ok new →
          ∃ pieces, Pieced g word d' new pieces) ∧
        (∀ out, (g.expand d).result = .ok out → ∃ n word d', Reaches g d n word d' ∧
          (n = g.iterations ∨ maxLength < word.length) ∧ out = word.take maxLength) ∧
        ∀ e, (g.expand d).result = .error e → ∃ n word d', Reaches g d n word d' ∧
          ∃ before symbol after f, word = before ++ symbol :: after ∧
            g.rule? symbol = some (.generator f) ∧
            (f.ask (g.replaceAll before d').state : Report (Note α) _ _).result = .error e := by
  refine ⟨fun e => ofDraft_error_iff, fun g hg => ⟨ofDraft_sifted hg, fun d => ⟨?_, ?_, ?_⟩⟩⟩
  · intro n word d' new _ hnew
    exact replaceAll_pieced hnew
  · intro out hout
    obtain ⟨whole, hwhole, htake⟩ := of_bind_ok hout
    cases htake
    exact (generations_reach (Nat.zero_add _) .start (.inl rfl)).1 whole hwhole
  · intro e he
    have hstop : (g.generations g.start 0 g.iterations d).result = .error e := by
      unfold Grammar.expand at he
      cases hwhole : (g.generations g.start 0 g.iterations d).result with
      | error fault =>
        rw [bind_of_error hwhole] at he
        exact he
      | ok whole =>
        rw [bind_of_ok hwhole] at he
        cases he
    obtain ⟨n, word, d', hword, hfault⟩ :=
      (generations_reach (Nat.zero_add _) .start (.inl rfl)).2 e hstop
    obtain ⟨before, symbol, after, f, hsplit, -, hrule, hask⟩ := replaceAll_error_iff.mp hfault
    exact ⟨n, word, d', hword, before, symbol, after, f, hsplit, hrule, hask⟩

/-- A word, a list that weighs too much, a list that does not weigh all of its words, a list with a
negative weight, and what is no rule at all. -/
def motley : Draft Float :=
  { Draft.default with
    rules := [("F", .text "FG"),
      ("G", .list [.list [.text "A", .text "0.75"], .list [.integer 7, .truth true]]),
      ("A", .list [.list [.text "B", .number 0.5], .text "ABC"]),
      ("B", .list [.list [.text "F", .integer (-1)]]),
      ("C", .nothing)] }

def sifting : Report (Note Float) Unit (Grammar Float) := ofDraft motley ()

def sifted : Grammar Float := sifting.result.toOption.getD Preset.simple.grammar

theorem ofDraft_sifts_motley : sifting.result = .ok sifted ∧ sifted.rules.map (·.1) = ["F", "G"] ∧
    (sifting.notes.map (·.1)).length = 4 ∧
    ∃ notes, Sifted "custom" motley.rules sifted.rules notes ∧
      (sifting.notes.map (·.1) = notes ∨ ∃ asked kept,
        sifting.notes.map (·.1) = .iterationsClamped "custom" asked kept :: notes) := by
  have hok : sifting.result = .ok sifted := eq_ok_of_isOk (by decide +kernel) _
  exact ⟨hok, by decide +kernel, by decide +kernel, ((ofDraft_sifts motley ()).2 sifted hok).1⟩

/-- A weight that is an integer too large. -/
def swollen : Draft Float :=
  { Draft.default with rules := [("F", .list [.list [.text "A", .integer (tenTo 400)]])] }

/-- The rule is not dropped. -/
theorem ofDraft_swollen : swollen.iterations.toCount = .ok 2 ∧
    (ofDraft swollen () : Report (Note Float) Unit _).result = .error .tooLarge := by
  have hlarge : Scalar.isInfinite (((tenTo 400 : Nat) : Int) : Float) := by decide +kernel
  have hover : (Value.list [.text "A", .integer (tenTo 400)] : Value Float).Overflows :=
    ⟨.text "A", tenTo 400, rfl, by decide +kernel, hlarge⟩
  have hrule : ∃ symbol entries,
      (symbol, .list entries) ∈ swollen.rules ∧ Value.Overlarge entries :=
    ⟨"F", _, List.mem_singleton_self _, .here hover⟩
  exact ⟨rfl, ofDraft_error_iff.mpr (.inr ⟨⟨2, rfl⟩, rfl, hrule⟩)⟩

end Grammar
end Arboretum
