import Arboretum.Grammar.Preset
import Arboretum.Proofs.Action
import Mathlib.Data.List.Infix

/-!
Brackets in productions. Where brackets have no rule and every word that a rule yields is balanced,
a generation keeps the balance, and a cut leaves a word in which no bracket closes before it opens.
-/
namespace Arboretum

open Arboretum.Action

variable {α : Type}

/-! ### Words -/

/-- However far a word is read, it closes no more brackets than it opened or were open before. -/
def Opened (before : Nat) (word : List Char) : Prop :=
  ∀ part, part <+: word → part.count ']' ≤ before + part.count '['

instance (before : Nat) (word : List Char) : Decidable (Opened before word) :=
  decidable_of_iff (∀ part ∈ word.inits, part.count ']' ≤ before + part.count '[')
    (by simp [Opened])

/-- Every bracket of a word has its partner. -/
structure Balanced (word : List Char) : Prop where
  opened : Opened 0 word
  closed : word.count ']' = word.count '['

instance (word : List Char) : Decidable (Balanced word) :=
  decidable_of_iff (Opened 0 word ∧ word.count ']' = word.count '[')
    ⟨fun h => ⟨h.1, h.2⟩, fun h => ⟨h.opened, h.closed⟩⟩

/-- A part of two words in a row is a part of the first, or the first and a part of the second. -/
theorem prefix_append_cases {first last part : List Char} (h : part <+: first ++ last) :
    part <+: first ∨ ∃ more, more <+: last ∧ part = first ++ more := by
  rcases List.prefix_or_prefix_of_prefix h (List.prefix_append first last) with hpart | hpart
  · exact .inl hpart
  · obtain ⟨more, rfl⟩ := hpart
    exact .inr ⟨more, (List.prefix_append_right_inj first).mp h, rfl⟩

namespace Opened

variable {n : Nat} {symbol : Char} {word : List Char}

theorem nil : Opened n [] := by
  intro part hpart
  simp [List.prefix_nil.mp hpart]

theorem of_prefix {part : List Char} (h : Opened n word) (hpart : part <+: word) :
    Opened n part :=
  fun p hp => h p (hp.trans hpart)

/-- A word follows another where it is opened from where the other ends. -/
theorem append {first last : List Char} {m : Nat} (hfirst : Opened n first)
    (hend : m + first.count ']' = n + first.count '[') (hlast : Opened m last) :
    Opened n (first ++ last) := by
  intro part hpart
  rcases prefix_append_cases hpart with hpart | ⟨more, hmore, rfl⟩
  · exact hfirst part hpart
  · have := hlast more hmore
    simp only [List.count_append]
    omega

/-- What is left of a word is opened from where its first part ends. -/
theorem rest {first last : List Char} {m : Nat} (h : Opened n (first ++ last))
    (hend : m + first.count ']' = n + first.count '[') : Opened m last := by
  intro part hpart
  have := h (first ++ part) ((List.prefix_append_right_inj first).mpr hpart)
  simp only [List.count_append] at this
  omega

/-- A bracket closes only where one is open. -/
theorem pos_of_close (h : Opened n (']' :: word)) : 0 < n := by
  have := h [']'] ⟨word, rfl⟩
  simp at this
  omega

end Opened

namespace Balanced

theorem nil : Balanced [] := ⟨.nil, rfl⟩

/-- A balanced word opens no bracket and closes none of those around it. -/
theorem opened_from {word : List Char} (h : Balanced word) (n : Nat) : Opened n word := by
  intro part hpart
  have := h.opened part hpart
  omega

end Balanced

/-! ### Rules -/

/-- A word that a rule may put in the place of a symbol. -/
inductive Rule.Yields : Rule α → List Char → Prop where
  | fixed {word : List Char} : Yields (.fixed word) word
  | weighted {choices : List (List Char × α)} {choice : List Char × α} :
      choice ∈ choices → Yields (.weighted choices) choice.1
  | generator {g : Generator α} {stream : Nat → α} {word : String} :
      (g.answer stream).1 = .ok (.text word) → Yields (.generator g) word.toList

/-- A grammar that leaves brackets alone and has balanced words only. -/
structure Grammar.Bracketed (g : Grammar α) : Prop where
  opening : g.rule? '[' = none
  closing : g.rule? ']' = none
  start : Balanced g.start
  rules : ∀ symbol rule, g.rule? symbol = some rule → ∀ word, rule.Yields word → Balanced word

/-- A rule that is found is one of the grammar's rules, under its symbol. -/
theorem Grammar.rule?_mem {g : Grammar α} {symbol : Char} {rule : Rule α}
    (h : g.rule? symbol = some rule) : (String.singleton symbol, rule) ∈ g.rules := by
  obtain ⟨entry, hentry, hrule⟩ := Option.map_eq_some_iff.mp h
  have hname : entry.1 = String.singleton symbol := by
    simpa using List.find?_some hentry
  rw [← hname, ← hrule]
  exact List.mem_of_find?_eq_some hentry

/-- It is enough to look at the rules one by one. -/
theorem Grammar.Bracketed.of_rules {g : Grammar α} (hstart : Balanced g.start)
    (hrules : ∀ symbol rule, (symbol, rule) ∈ g.rules →
      symbol ≠ "[" ∧ symbol ≠ "]" ∧ ∀ word, rule.Yields word → Balanced word) : g.Bracketed :=
  ⟨Option.eq_none_iff_forall_ne_some.mpr fun _ h => (hrules _ _ (rule?_mem h)).1 rfl,
    Option.eq_none_iff_forall_ne_some.mpr fun _ h => (hrules _ _ (rule?_mem h)).2.1 rfl, hstart,
    fun _ _ h => (hrules _ _ (rule?_mem h)).2.2⟩

variable [Scalar α]

/-- The grammars that plants are grown from have balanced words only. -/
theorem Preset.bracketed (p : Preset) : (p.grammar : Grammar α).Bracketed := by
  have hwords : Balanced p.start.toList ∧ ∀ entry ∈ p.words,
      entry.1 ≠ "[" ∧ entry.1 ≠ "]" ∧ Balanced entry.2.toList := by
    cases p <;> decide
  apply Grammar.Bracketed.of_rules hwords.1
  intro symbol rule hrule
  obtain ⟨entry, hentry, heq⟩ := List.mem_map.mp hrule
  cases heq
  obtain ⟨hopen, hclose, hbalanced⟩ := hwords.2 entry hentry
  refine ⟨hopen, hclose, fun word hword => ?_⟩
  cases hword
  exact hbalanced

/-- A draw chooses one of the weighted words. -/
theorem Rule.chosen_mem {draw below : α} {choices : List (List Char × α)} {word : List Char}
    (h : chosen draw below choices = some word) : ∃ c ∈ choices, c.1 = word := by
  induction choices generalizing below with
  | nil => cases h
  | cons c choices ih =>
    unfold chosen at h
    split at h
    · exact ⟨c, List.mem_cons_self, Option.some.inj h⟩
    · obtain ⟨c', hc, hword⟩ := ih h
      exact ⟨c', List.mem_cons_of_mem c hc, hword⟩

/-- A symbol is replaced by what its rule yields, or stays. -/
theorem Rule.replace_yields (symbol : Char) (rule : Rule α) {d : Draws α} {word : List Char}
    (h : (rule.replace symbol d).result = .ok word) : word = [symbol] ∨ rule.Yields word := by
  cases rule with
  | fixed fixed =>
    cases h
    exact .inr .fixed
  | weighted choices =>
    simp only [replace, bind_apply, Draws.next, pure_apply, Except.ok.injEq] at h
    cases hc : chosen (d.draw d.taken) 0 choices with
    | none =>
      rw [hc] at h
      exact .inl h.symm
    | some found =>
      rw [hc] at h
      obtain ⟨c, hmem, hword⟩ := chosen_mem hc
      rw [← h, Option.getD_some, ← hword]
      exact .inr (.weighted hmem)
  | generator g =>
    obtain ⟨answer, hask, hrest⟩ := of_bind_ok h
    split at hrest
    · cases hrest
      exact .inr (.generator hask)
    · obtain ⟨_, -, hkept⟩ := of_bind_ok hrest
      cases hkept
      exact .inl rfl

namespace Grammar

variable {g : Grammar α}

/-- A bracket stays; another symbol stays too, or a balanced word takes its place. -/
theorem Bracketed.replaceSymbol (h : g.Bracketed) {symbol : Char} {d : Draws α} {new : List Char}
    (hnew : (g.replaceSymbol symbol d).result = .ok new) :
    new = [symbol] ∨ symbol ≠ '[' ∧ symbol ≠ ']' ∧ Balanced new := by
  unfold Grammar.replaceSymbol at hnew
  cases hrule : g.rule? symbol with
  | none =>
    rw [hrule] at hnew
    cases hnew
    exact .inl rfl
  | some rule =>
    rw [hrule] at hnew
    rcases rule.replace_yields symbol hnew with hkept | hyields
    · exact .inl hkept
    · refine .inr ⟨?_, ?_, h.rules symbol rule hrule new hyields⟩
      · intro hopen
        rw [hopen, h.opening] at hrule
        cases hrule
      · intro hclose
        rw [hclose, h.closing] at hrule
        cases hrule

/-- One symbol's replacement opens and closes what the symbol did. -/
theorem Bracketed.symbol_opened (h : g.Bracketed) {n : Nat} {symbol : Char} {word new : List Char}
    {d : Draws α} (hword : Opened n (symbol :: word))
    (hnew : (g.replaceSymbol symbol d).result = .ok new) :
    Opened n new ∧ new.count ']' + [symbol].count '[' = [symbol].count ']' + new.count '[' := by
  rcases h.replaceSymbol hnew with rfl | ⟨hopen, hclose, hbalanced⟩
  · exact ⟨hword.of_prefix ⟨word, rfl⟩, rfl⟩
  · refine ⟨hbalanced.opened_from n, ?_⟩
    rw [List.count_singleton, List.count_singleton, hbalanced.closed]
    simp [hopen, hclose]

/-- A generation opens and closes brackets as the word before it does. -/
theorem Bracketed.replaceAll (h : g.Bracketed) {n : Nat} {word new : List Char} {d : Draws α}
    (hword : Opened n word) (hnew : (g.replaceAll word d).result = .ok new) :
    Opened n new ∧ new.count ']' + word.count '[' = word.count ']' + new.count '[' := by
  induction word generalizing n d new with
  | nil =>
    cases hnew
    exact ⟨.nil, rfl⟩
  | cons symbol word ih =>
    obtain ⟨first, hfirst, hrest⟩ := of_bind_ok hnew
    obtain ⟨last, hlast, hboth⟩ := of_bind_ok hrest
    cases hboth
    obtain ⟨hopened, hcount⟩ := h.symbol_opened hword hfirst
    have hfew : first.count ']' ≤ n + first.count '[' := hopened first (List.prefix_refl first)
    -- The rest of both words starts from the brackets that are open after the symbol.
    have hend : n + first.count '[' - first.count ']' + first.count ']' = n + first.count '[' :=
      Nat.sub_add_cancel hfew
    have hwords : Opened n ([symbol] ++ word) := hword
    have htail : Opened (n + first.count '[' - first.count ']') word := hwords.rest (by omega)
    obtain ⟨hopened', hcount'⟩ := ih htail hlast
    apply And.intro (hopened.append hend hopened')
    rw [← List.singleton_append]
    simp only [List.count_append]
    omega

theorem Bracketed.balanced_replaceAll (h : g.Bracketed) {word new : List Char} {d : Draws α}
    (hword : Balanced word) (hnew : (g.replaceAll word d).result = .ok new) : Balanced new := by
  obtain ⟨hopened, hcount⟩ := h.replaceAll hword.opened hnew
  have := hword.closed
  exact ⟨hopened, by omega⟩

/-! ### Productions -/

/-- A report says that a generation was too long and has been cut. -/
def TellsCut (g : Grammar α) {ρ : Type} (r : Report (Note α) (Draws α) ρ) : Prop :=
  ∃ length generation,
    Note.productionCut g.name length generation maxLength ∈ r.notes.map (·.1)

/-- A generation was cut, or the start was and there was no generation. -/
def Cut (g : Grammar α) (d : Draws α) : Prop :=
  TellsCut g (g.expand d) ∨ g.iterations = 0 ∧ maxLength < g.start.length

/-- A run of generations ends with a balanced word within the limit, or tells of a cut. -/
theorem Bracketed.generations (h : g.Bracketed) {word : List Char} {generation left : Nat}
    {d : Draws α} {new : List Char} (hword : Balanced word)
    (hroom : left = 0 → word.length ≤ maxLength)
    (hnew : (g.generations word generation left d).result = .ok new) :
    Balanced new ∧ new.length ≤ maxLength ∨
      Opened 0 new ∧ TellsCut g (g.generations word generation left d) := by
  induction left generalizing word generation d with
  | zero =>
    cases hnew
    exact .inl ⟨hword, hroom rfl⟩
  | succ left ih =>
    unfold Grammar.generations at hnew ⊢
    obtain ⟨next, hnext, hrest⟩ := of_bind_ok hnew
    have hbalanced := h.balanced_replaceAll hword hnext
    rw [bind_of_ok hnext]
    by_cases hlong : maxLength < next.length
    · rw [if_pos hlong] at hrest ⊢
      cases hrest
      apply Or.inr
      apply And.intro (hbalanced.opened.of_prefix (List.take_prefix _ _))
      exact ⟨next.length, generation + 1, by simp⟩
    · rw [if_neg hlong] at hrest ⊢
      rcases ih hbalanced (fun _ => not_lt.mp hlong) hrest with hwhole | ⟨hopened, hcut⟩
      · exact .inl hwhole
      · obtain ⟨length, at', hmem⟩ := hcut
        exact .inr ⟨hopened, length, at', by simp [hmem]⟩

/-- A production closes no bracket that is not open, and is balanced unless it was cut. -/
theorem Bracketed.expand (h : g.Bracketed) {d : Draws α} {word : List Char}
    (hword : (g.expand d).result = .ok word) : Opened 0 word ∧ (¬ g.Cut d → Balanced word) := by
  obtain ⟨whole, hwhole, htake⟩ := of_bind_ok hword
  cases htake
  have hnotes : (g.expand d).notes = (g.generations g.start 0 g.iterations d).notes := by
    unfold Grammar.expand
    rw [bind_of_ok hwhole]
    exact List.append_nil _
  by_cases hlong : g.iterations = 0 ∧ maxLength < g.start.length
  · rw [hlong.1] at hwhole
    cases hwhole
    exact ⟨h.start.opened.of_prefix (List.take_prefix _ _), fun hcut => (hcut (.inr hlong)).elim⟩
  · have hroom : g.iterations = 0 → g.start.length ≤ maxLength := by
      intro hnone
      exact not_lt.mp fun hlt => hlong ⟨hnone, hlt⟩
    rcases h.generations h.start hroom hwhole with ⟨hbalanced, hshort⟩ | ⟨hopened, hcut⟩
    · rw [List.take_of_length_le hshort]
      exact ⟨hbalanced.opened, fun _ => hbalanced⟩
    · refine ⟨hopened.of_prefix (List.take_prefix _ _), fun hwhole => (hwhole (.inl ?_)).elim⟩
      unfold TellsCut at hcut ⊢
      rw [hnotes]
      exact hcut

end Grammar
end Arboretum
