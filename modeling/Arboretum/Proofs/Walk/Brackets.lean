import Arboretum.Binary64
import Arboretum.Proofs.Grammar.Brackets
import Arboretum.Proofs.Walk.Stride

/-!
Brackets along a walk. The saved pens are as many as the brackets that are open, so the walk along a
word of a grammar with balanced words always finds the pen that a closing bracket asks for.
-/
namespace Arboretum.Walk

open Arboretum.Action

variable {α ν : Type} [Scalar α] {t : Traits α} {w w' : Walk α} {d : Draws α}

/-- A symbol saves a pen for a bracket that it opens, and gives one back for one that it closes. -/
theorem follow_depth {symbol : Char} {word : List Char} (h : Opened w.saved.length (symbol :: word))
    (hw : (w.follow t symbol d : Report ν _ _).result = .ok w') :
    w'.saved.length + [symbol].count ']' = w.saved.length + [symbol].count '[' := by
  obtain ⟨_, _, hstep, -⟩ := (meets_follow_stride t w d symbol _ rfl).2 w' hw
  rw [hstep.saved, length_savedAfter]
  by_cases hopen : symbol = '['
  · subst hopen
    rfl
  by_cases hclose : symbol = ']'
  · subst hclose
    exact Nat.sub_add_cancel h.pos_of_close
  · simp [depthAfter, hopen, hclose]

/-- After a walk there are as many saved pens more as its word opens brackets more than it closes
them. -/
theorem followAll_depth {word : List Char} (h : Opened w.saved.length word)
    (hw : (w.followAll t word d : Report ν _ _).result = .ok w') :
    w'.saved.length + word.count ']' = w.saved.length + word.count '[' := by
  induction word generalizing w d with
  | nil =>
    cases hw
    rfl
  | cons symbol word ih =>
    obtain ⟨next, hnext, hrest⟩ := of_bind_ok hw
    have hstep := follow_depth h hnext
    have hwords : Opened w.saved.length ([symbol] ++ word) := h
    have hend := ih (hwords.rest hstep) hrest
    rw [← List.singleton_append]
    simp only [List.count_append]
    omega

theorem along_depth {word : List Char} (h : Opened 0 word)
    (hw : (along t word d : Report ν _ _).result = .ok w) :
    w.saved.length + word.count ']' = word.count '[' := by
  have hstart : Opened (start t).saved.length word := h
  have hdepth := followAll_depth hstart hw
  rw [hdepth]
  exact Nat.zero_add _

/-- The walk along two words in a row is the walk along the first, and on along the second. -/
theorem followAll_append (first last : List Char) :
    (w.followAll t (first ++ last) : Action ν (Draws α) (Walk α)) =
      w.followAll t first >>= fun w' => w'.followAll t last := by
  induction first generalizing w with
  | nil => rfl
  | cons symbol first ih => simp only [List.cons_append, followAll, ih, bind_assoc]

/-- Along a production of a grammar with balanced words no bracket closes that is not open, so a
walk that comes to one has a pen to go back to. Where nothing was cut, all brackets close again. -/
theorem brackets_meet {g : Grammar α} (hg : g.Bracketed) {word : List Char}
    (hword : (g.expand d).result = .ok word) :
    (∀ part, part <+: word → part.count ']' ≤ part.count '[') ∧
    (¬ g.Cut d → Balanced word) ∧
    ∀ (t : Traits α) (d' : Draws α) (w : Walk α),
      (∀ before after, word = before ++ ']' :: after →
        (along t before d' : Report ν _ _).result = .ok w → w.saved ≠ []) ∧
      (¬ g.Cut d → (along t word d' : Report ν _ _).result = .ok w → w.saved = []) := by
  obtain ⟨hopened, hwhole⟩ := hg.expand hword
  refine ⟨fun part hpart => by simpa using hopened part hpart, hwhole, fun t d' w => ⟨?_, ?_⟩⟩
  · intro before after hsplit hw hempty
    have hdepth := along_depth (hopened.of_prefix ⟨']' :: after, hsplit.symm⟩) hw
    have hopen : Opened w.saved.length (']' :: after) := (hsplit ▸ hopened).rest (by omega)
    have := hopen.pos_of_close
    simp [hempty] at this
  · intro hcut hw
    have hdepth := along_depth hopened hw
    have hclosed := (hwhole hcut).closed
    apply List.eq_nil_of_length_eq_zero
    omega

/-- A stem that may fork once. -/
def fork : Grammar Float :=
  { Preset.simple.grammar with
    start := "F[F]".toList
    rules := [("F", .weighted [("F[+F]".toList, 0.5)])]
    iterations := 1 }

theorem brackets_meet_fork :
    fork.Bracketed ∧ (fork.expand (.cycle #[0.25, 0.75])).result = .ok "F[+F][F]".toList ∧
    (∀ part, part <+: "F[+F][F]".toList → part.count ']' ≤ part.count '[') := by
  have hg : fork.Bracketed := by
    apply Grammar.Bracketed.of_rules (by decide)
    intro symbol rule hrule
    obtain ⟨rfl, rfl⟩ : symbol = "F" ∧ rule = .weighted [("F[+F]".toList, 0.5)] := by
      simpa [fork] using hrule
    refine ⟨by decide, by decide, fun word hword => ?_⟩
    cases hword with
    | weighted hchoice =>
      obtain rfl := List.mem_singleton.mp hchoice
      decide
  have hword : (fork.expand (.cycle #[0.25, 0.75])).result = .ok "F[+F][F]".toList := by
    decide +kernel
  exact ⟨hg, hword, (brackets_meet (ν := Unit) hg hword).1⟩

end Arboretum.Walk
