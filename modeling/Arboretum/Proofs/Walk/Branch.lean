import Arboretum.Proofs.Upright
import Arboretum.Proofs.Walk.Passage

/-!
Branches. A balanced word between two brackets leaves the pen as it found it, and the saved pens;
only the angle step keeps what the branch made of it. What a walk draws later does not depend on
what it drew before, so a branch that neither bends nor draws at random can be cut off, and the rest
of the skeleton stays.
-/
namespace Arboretum

open Arboretum.Action

namespace Walk

variable {α ν : Type} [Scalar α] {t : Traits α} {w w' : Walk α} {d : Draws α} {symbol : Char}
  {word : List Char}

/-- A word between brackets. -/
def branch (word : List Char) : List Char := '[' :: word ++ [']']

/-! ### The pens saved below a branch -/

/-- So many pens are saved above these. -/
def Above (n : Nat) (base : List (Pen α)) (w : Walk α) : Prop :=
  ∃ top, w.saved = top ++ base ∧ top.length = n

theorem Above.step {n : Nat} {base : List (Pen α)} {lines : List (Segment α)}
    {harvest : List (Fruit α)} (habove : Above n base w) (hopened : Opened n (symbol :: word))
    (hstep : Stride w symbol lines harvest w') :
    ∃ m, Above m base w' ∧ m + [symbol].count ']' = n + [symbol].count '[' := by
  obtain ⟨top, htop, rfl⟩ := habove
  have hsaved := hstep.saved
  -- Only a bracket that closes could reach below, and there is one open above.
  by_cases hopen : symbol = '['
  · subst hopen
    refine ⟨top.length + 1, ⟨w.pen :: top, ?_, rfl⟩, rfl⟩
    rw [hsaved, savedAfter, htop, List.cons_append]
  by_cases hclose : symbol = ']'
  · subst hclose
    cases top with
    | nil => exact absurd hopened.pos_of_close (Nat.lt_irrefl 0)
    | cons pen rest =>
      refine ⟨rest.length, ⟨rest, ?_, rfl⟩, rfl⟩
      rw [hsaved, savedAfter, htop, List.cons_append, List.tail_cons]
  · refine ⟨top.length, ⟨top, ?_, rfl⟩, by simp [hopen, hclose]⟩
    simp [hsaved, savedAfter, htop]

/-- A word that does not close what was open before it leaves the pens saved there. -/
theorem Above.followAll {n : Nat} {base : List (Pen α)} (habove : Above n base w)
    (hopened : Opened n word) (hw : (w.followAll t word d : Report ν _ _).result = .ok w') :
    ∃ m, Above m base w' ∧ m + word.count ']' = n + word.count '[' := by
  induction word generalizing w d n with
  | nil =>
    cases hw
    exact ⟨n, habove, rfl⟩
  | cons symbol word ih =>
    obtain ⟨next, hnext, hrest⟩ := of_bind_ok hw
    obtain ⟨_, _, hstep, -⟩ := (meets_follow_stride t w d symbol _ rfl).2 _ hnext
    obtain ⟨m, hm, hcount⟩ := habove.step hopened hstep
    have hwords : Opened n ([symbol] ++ word) := hopened
    obtain ⟨k, hk, hcount'⟩ := ih hm (hwords.rest hcount) hrest
    refine ⟨k, hk, ?_⟩
    rw [← List.singleton_append, List.count_append, List.count_append]
    omega

/-! ### A branch -/

/-- The walk at the start of a branch. -/
def opened (w : Walk α) : Walk α :=
  { w with
    saved := w.pen :: w.saved
    pen := { w.pen with thickness := w.pen.thickness * 0.75 } }

theorem followAll_opened (part : List Char) :
    (w.followAll t ('[' :: part) : Action ν (Draws α) (Walk α)) = w.opened.followAll t part :=
  rfl

theorem followAll_branch : (w.followAll t (branch word) : Action ν (Draws α) (Walk α)) =
    w.opened.followAll t word >>= fun w' => w'.follow t ']' := by
  rw [branch, followAll_concat, followAll_opened]

theorem branch_restores (hword : Balanced word)
    (hw : (w.followAll t (branch word) d : Report ν _ _).result = .ok w') :
    w'.pen = w.pen ∧ w'.saved = w.saved := by
  rw [followAll_branch] at hw
  obtain ⟨inner, hinner, hclose⟩ := of_bind_ok hw
  -- Nothing is left above the pen that the branch saved when its last bracket takes it back.
  have hopened : Above 0 (w.pen :: w.saved) w.opened := ⟨[], rfl, rfl⟩
  obtain ⟨m, ⟨top, htop, hm⟩, hcount⟩ := hopened.followAll hword.opened hinner
  have hclosed := hword.closed
  have hnone : top = [] := List.eq_nil_of_length_eq_zero (by omega)
  rw [hnone, List.nil_append] at htop
  unfold follow at hclose
  simp only [htop] at hclose
  cases hclose
  exact ⟨rfl, rfl⟩

/-- A branch stops a walk only inside its brackets. -/
theorem branch_error_iff {e : Fault} :
    (w.followAll t (branch word) d : Report ν _ _).result = .error e ↔
      (w.opened.followAll t word d : Report ν _ _).result = .error e := by
  rw [followAll_branch]
  cases hword : (w.opened.followAll t word d : Report ν _ _).result with
  | error fault => rw [bind_of_error hword]
  | ok inner =>
    rw [bind_of_ok hword, follow_error_iff]
    refine ⟨fun h => ?_, nofun⟩
    cases h with
    | astray hsymbol => simp at hsymbol

/-! ### What was drawn before -/

/-- The walk with these segments drawn before its own. -/
def preceded (earlier : Array (Segment α)) (w : Walk α) : Walk α :=
  { w with segments := earlier ++ w.segments }

theorem draw_preceded (earlier : Array (Segment α)) (stepLength : α) :
    (w.preceded earlier).draw stepLength = preceded earlier <$> w.draw stepLength := by
  have hpen : (w.preceded earlier).forward stepLength = w.forward stepLength := rfl
  unfold draw
  rw [hpen]
  cases w.forward stepLength with
  | error fault => rfl
  | ok pen =>
    let drawn (segments : Array (Segment α)) : Except Fault (Walk α) :=
      .ok { w with pen := pen, segments := segments }
    exact congrArg drawn Array.push_append

/-- What a symbol does, it does after anything that was drawn before. -/
theorem follow_preceded (earlier : Array (Segment α)) :
    ((w.preceded earlier).follow t symbol : Action ν (Draws α) (Walk α)) =
      preceded earlier <$> w.follow t symbol := by
  have hdraw : (Action.ofExcept ((w.preceded earlier).draw t.stepLength) :
      Action ν (Draws α) (Walk α)) =
        preceded earlier <$> Action.ofExcept (w.draw t.stepLength) := by
    funext d
    rw [draw_preceded, map_apply]
    rfl
  unfold follow
  split
  · exact hdraw
  · exact hdraw
  · rw [map_bind]
    rfl
  · rw [map_bind]
    rfl
  · rw [map_bind]
    rfl
  · rfl
  · rfl
  · rfl
  · cases hsaved : w.saved with
    | nil => simp [preceded, hsaved]
    | cons pen saved => simp [preceded, hsaved]
  · rfl
  · rfl
  · unfold bearFruit
    rw [map_bind]
    congr 1
    funext luck
    split
    · rw [map_bind]
      rfl
    · rfl
  · split
    · rw [map_bind]
      rfl
    · rfl
  · rfl

theorem followAll_preceded (earlier : Array (Segment α)) (word : List Char) :
    ((w.preceded earlier).followAll t word : Action ν (Draws α) (Walk α)) =
      preceded earlier <$> w.followAll t word := by
  induction word generalizing w with
  | nil => rfl
  | cons symbol word ih =>
    simp only [followAll, follow_preceded, map_bind, bind_map_left, ih]

theorem foldl_bend {angleStep : α} (hnarrow : '<' ∉ word) (hwide : '>' ∉ word) :
    word.foldl bend angleStep = angleStep := by
  induction word generalizing angleStep with
  | nil => rfl
  | cons symbol word ih =>
    obtain ⟨hne, hnarrow⟩ := not_or.mp (mt List.mem_cons.mpr hnarrow)
    obtain ⟨hne', hwide⟩ := not_or.mp (mt List.mem_cons.mpr hwide)
    have hsame : bend angleStep symbol = angleStep := by
      unfold bend
      split <;> simp_all
    rw [List.foldl_cons, hsame, ih hnarrow hwide]

theorem branch_angleStep {angleStep : α} :
    (branch word).foldl bend angleStep = word.foldl bend angleStep := by
  rw [branch, List.foldl_append]
  rfl

theorem countP_branch : (branch word).countP isStroke = word.countP isStroke := by
  simp [branch, isStroke]

/-- A branch that neither bends nor draws at random leaves its segments only. -/
theorem branch_quiet (hword : Balanced word) (hnarrow : '<' ∉ word) (hwide : '>' ∉ word)
    (hw : (w.followAll t (branch word) d : Report ν _ _).result = .ok w')
    (hdraws : (w.followAll t (branch word) d : Report ν _ _).state = d) :
    ∃ inside : Array (Segment α), inside.size = word.countP isStroke ∧
      w' = { w with segments := w.segments ++ inside } := by
  obtain ⟨hpen, hsaved⟩ := branch_restores hword hw
  obtain ⟨lines, harvest, hpassage⟩ := followAll_passage hw
  have hnone : ((branch word).map (drawsOf t)).sum + harvest.length = 0 :=
    Draws.eq_zero_of_after (hpassage.draws.symm.trans hdraws)
  have hharvest : harvest = [] := List.eq_nil_of_length_eq_zero (by omega)
  have hfruits : w'.fruits = w.fruits := by
    apply Array.toList_inj.mp
    rw [hpassage.fruits, hharvest, List.append_nil]
  have hangle : w'.angleStep = w.angleStep := by
    rw [hpassage.angleStep, branch_angleStep, foldl_bend hnarrow hwide]
  have hsegments : w'.segments = w.segments ++ lines.toArray := by
    apply Array.toList_inj.mp
    rw [hpassage.segments, Array.toList_append]
  refine ⟨lines.toArray, ?_, ?_⟩
  · rw [List.size_toArray, ← hpassage.drawn.length_eq, List.length_findIdxs, countP_branch]
  · rw [← hsegments, ← hpen, ← hsaved, ← hangle, ← hfruits]

/-- Two walks apart only in what was drawn before end apart only in that. -/
theorem followAll_apart (first inside : Array (Segment α)) (hw : w.segments = first)
    (after : List Char) : ∃ outcome : Report ν (Draws α) (Walk α),
      ({ w with segments := first ++ inside }.followAll t after d : Report ν _ _).result =
        outcome.result.map (preceded (first ++ inside)) ∧
      ({ w with segments := first ++ inside }.followAll t after d : Report ν _ _).state =
        outcome.state ∧
      (w.followAll t after d : Report ν _ _).result = outcome.result.map (preceded first) ∧
      (w.followAll t after d : Report ν _ _).state = outcome.state := by
  subst hw
  have hmore : { w with segments := w.segments ++ inside } =
      ({ w with segments := #[] } : Walk α).preceded (w.segments ++ inside) := by
    rw [preceded, Array.append_empty]
  have hfirst : w = ({ w with segments := #[] } : Walk α).preceded w.segments := by
    rw [preceded, Array.append_empty]
  refine ⟨({ w with segments := #[] } : Walk α).followAll t after d, ?_⟩
  rw [hmore, followAll_preceded, map_apply]
  refine ⟨rfl, rfl, ?_⟩
  have hmap : (w.followAll t after : Action ν (Draws α) (Walk α)) =
      preceded w.segments <$> ({ w with segments := #[] } : Walk α).followAll t after := by
    rw [← followAll_preceded, ← hfirst]
  rw [hmap, map_apply]
  exact ⟨rfl, rfl⟩

/-- What a branch leaves of a walk, and what it changes. -/
structure Restored (w : Walk α) (d : Draws α) (word : List Char) (w' : Walk α) (d' : Draws α) :
    Prop where
  pen : w'.pen = w.pen
  saved : w'.saved = w.saved
  angleStep : w'.angleStep = word.foldl bend w.angleStep
  segments : ∃ lines, w'.segments.toList = w.segments.toList ++ lines
  fruits : ∃ harvest, w'.fruits.toList = w.fruits.toList ++ harvest
  draws : ∃ n, d' = d.after n

/-- A balanced branch leaves the pen and the saved pens as it found them, whatever it does between
its brackets, and stops a walk only at a symbol there. A production can do without a branch that
neither bends nor draws at random: what lies outside it is drawn in the same way. -/
theorem branch_leaves_pen (hword : Balanced word) (t : Traits α) :
    (∀ (w : Walk α) (d : Draws α),
      (∀ w', (w.followAll t (branch word) d : Report ν _ _).result = .ok w' →
        Restored w d word w' (w.followAll t (branch word) d : Report ν _ _).state) ∧
      ∀ e, (w.followAll t (branch word) d : Report ν _ _).result = .error e ↔
        ∃ part symbol rest w', word = part ++ symbol :: rest ∧
          (w.followAll t ('[' :: part) d : Report ν _ _).result = .ok w' ∧
          Halts ν t w' (w.followAll t ('[' :: part) d : Report ν _ _).state symbol e) ∧
    ∀ (before : List Char) (d : Draws α) (w : Walk α), '<' ∉ word → '>' ∉ word →
      (along t (before ++ branch word) d : Report ν _ _).result = .ok w →
      (along t (before ++ branch word) d : Report ν _ _).state =
        (along t before d : Report ν _ _).state →
      ∃ first inside : Array (Segment α),
        first.size = before.countP isStroke ∧ inside.size = word.countP isStroke ∧
        ∀ after, ∃ outcome : Report ν (Draws α) (Walk α),
          (along t (before ++ branch word ++ after) d : Report ν _ _).result =
            outcome.result.map (preceded (first ++ inside)) ∧
          (along t (before ++ branch word ++ after) d : Report ν _ _).state = outcome.state ∧
          (along t (before ++ after) d : Report ν _ _).result =
            outcome.result.map (preceded first) ∧
          (along t (before ++ after) d : Report ν _ _).state = outcome.state := by
  refine ⟨fun w d => ⟨fun w' hw => ?_, fun e => ?_⟩, ?_⟩
  · obtain ⟨hpen, hsaved⟩ := branch_restores hword hw
    obtain ⟨lines, harvest, hpassage⟩ := followAll_passage hw
    exact ⟨hpen, hsaved, hpassage.angleStep.trans branch_angleStep, ⟨lines, hpassage.segments⟩,
      ⟨harvest, hpassage.fruits⟩, _, hpassage.draws⟩
  · rw [branch_error_iff]
    exact followAll_error_iff
  · intro before d w hnarrow hwide hw hdraws
    unfold along at hw hdraws ⊢
    rw [followAll_append] at hw hdraws
    obtain ⟨w₁, hbefore, hbranch⟩ := of_bind_ok hw
    rw [bind_of_ok hbefore] at hdraws
    obtain ⟨inside, hinside, rfl⟩ := branch_quiet hword hnarrow hwide hbranch hdraws
    obtain ⟨lines, _, hpassage⟩ := followAll_passage hbefore
    -- Where the branch ends, the walk with it and the walk without it are apart by its segments.
    refine ⟨w₁.segments, inside, ?_, hinside, fun after => ?_⟩
    · have hlines : w₁.segments.toList = lines := hpassage.segments
      rw [← Array.length_toList, hlines, ← hpassage.drawn.length_eq, List.length_findIdxs]
    · have hwhole : ((start t).followAll t (before ++ branch word) d : Report ν _ _).result =
          .ok { w₁ with segments := w₁.segments ++ inside } := by
        rw [followAll_append, bind_of_ok hbefore]
        exact hbranch
      have hstate : ((start t).followAll t (before ++ branch word) d : Report ν _ _).state =
          ((start t).followAll t before d : Report ν _ _).state := by
        rw [followAll_append, bind_of_ok hbefore]
        exact hdraws
      rw [followAll_append (before ++ branch word), bind_of_ok hwhole, hstate,
        followAll_append before after, bind_of_ok hbefore]
      exact followAll_apart w₁.segments inside rfl after

end Walk

namespace Upright

open Walk

/-- A word with a branch of its own, and a pen that grows thicker after it. -/
def twig : List Char := ['F', '[', '!', 'F', ']', '\"']

def budding : Report (Note Upright) (Draws Upright) (Walk Upright) :=
  along (.default 20.0) (['F'] ++ branch twig) (.cycle #[])

def budded : Walk Upright := budding.result.toOption.getD (.start (.default 20.0))

/-- The stem without its twig. -/
theorem branch_leaves_pen_twig :
    Balanced twig ∧ '<' ∉ twig ∧ '>' ∉ twig ∧ budding.result = .ok budded ∧
      budding.state = (along (.default 20.0) ['F'] (.cycle #[]) : Report (Note Upright) _ _).state ∧
      ∃ first inside : Array (Segment Upright), first.size = 1 ∧ inside.size = 2 ∧
        ∀ after, ∃ outcome : Report (Note Upright) (Draws Upright) (Walk Upright),
          (along (.default 20.0) (['F'] ++ branch twig ++ after) (.cycle #[]) :
            Report (Note Upright) _ _).result = outcome.result.map (preceded (first ++ inside)) ∧
          (along (.default 20.0) (['F'] ++ branch twig ++ after) (.cycle #[]) :
            Report (Note Upright) _ _).state = outcome.state ∧
          (along (.default 20.0) (['F'] ++ after) (.cycle #[]) : Report (Note Upright) _ _).result =
            outcome.result.map (preceded first) ∧
          (along (.default 20.0) (['F'] ++ after) (.cycle #[]) : Report (Note Upright) _ _).state =
            outcome.state := by
  have hword : Balanced twig := by decide
  have hnarrow : '<' ∉ twig := by decide
  have hwide : '>' ∉ twig := by decide
  have hwalk : budding.result = .ok budded :=
    eq_ok_of_isOk (by decide +kernel) _
  exact ⟨hword, hnarrow, hwide, hwalk, rfl,
    (branch_leaves_pen hword (.default 20.0)).2 ['F'] (.cycle #[]) budded hnarrow hwide hwalk rfl⟩

end Upright
end Arboretum
