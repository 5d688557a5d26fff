import Arboretum.Proofs.Upright
import Arboretum.Proofs.Walk.Brackets
import Mathlib.Data.List.Forall2

/-!
What a walk leaves on its way. A walk along a word adds up what its symbols do, and stops where one
of them cannot be followed.
-/
namespace Arboretum

open Arboretum.Action

namespace Walk

variable {α ν : Type} [Scalar α] {t : Traits α} {w w' : Walk α} {d d' : Draws α} {symbol : Char}

/-! ### A word -/

theorem followAll_concat (word : List Char) (symbol : Char) :
    (w.followAll t (word ++ [symbol]) : Action ν (Draws α) (Walk α)) =
      w.followAll t word >>= fun w' => w'.follow t symbol := by
  rw [followAll_append]
  simp only [followAll, bind_pure]

section
variable (ν) (t w d)

/-- Where a walk along a word stands before the symbol at a place. -/
def Stood (word : List Char) (place : Nat) (before : Walk α) : Prop :=
  place < word.length ∧ (w.followAll t (word.take place) d : Report ν _ _).result = .ok before

/-- What a walk along a word does: the segments it leaves were drawn at the strokes of the word, and
the fruits at some of its stars, each from where the walk stood there. -/
structure Passage (word : List Char) (lines : List (Segment α)) (harvest : List (Fruit α))
    (w' : Walk α) (d' : Draws α) : Prop where
  depth : w'.saved.length = word.foldl depthAfter w.saved.length
  angleStep : w'.angleStep = word.foldl bend w.angleStep
  segments : w'.segments.toList = w.segments.toList ++ lines
  fruits : w'.fruits.toList = w.fruits.toList ++ harvest
  drawn : List.Forall₂
    (fun place s => ∃ before, Stood ν t w d word place before ∧ DrawnFrom before s)
    (word.findIdxs isStroke) lines
  borne : ∃ places, places.Sublist (word.findIdxs (· == '*')) ∧
    List.Forall₂ (fun place f => ∃ before, Stood ν t w d word place before ∧
      f.position = before.pen.position) places harvest
  draws : d' = d.after ((word.map (drawsOf t)).sum + harvest.length)

end

theorem Stood.append {word : List Char} {place : Nat} {before : Walk α}
    (h : Stood ν t w d word place before) (more : List Char) :
    Stood ν t w d (word ++ more) place before := by
  obtain ⟨hplace, hbefore⟩ := h
  refine ⟨by simp; omega, ?_⟩
  rwa [List.take_append_of_le_length hplace.le]

/-- A walk that has got to the end of a word stood there before the symbol that comes next. -/
theorem stood_end {word : List Char} (h : (w.followAll t word d : Report ν _ _).result = .ok w')
    (symbol : Char) : Stood ν t w d (word ++ [symbol]) word.length w' :=
  ⟨by simp, by simpa using h⟩

theorem findIdxs_concat (p : Char → Bool) (word : List Char) (symbol : Char) :
    (word ++ [symbol]).findIdxs p =
      word.findIdxs p ++ List.replicate ([symbol].countP p) word.length := by
  cases h : p symbol <;> simp [List.findIdxs_append, h]

theorem forall₂_replicate {β γ : Type} {related : β → γ → Prop} {b : β} {xs : List γ}
    (h : ∀ x ∈ xs, related b x) : List.Forall₂ related (List.replicate xs.length b) xs := by
  rw [← List.map_const', List.forall₂_map_left_iff, List.forall₂_same]
  exact h

/-- One symbol more. -/
theorem Passage.concat {word : List Char} {lines more : List (Segment α)}
    {harvest picked : List (Fruit α)} {w'' : Walk α}
    (h : Passage ν t w d word lines harvest w' d')
    (hw : (w.followAll t word d : Report ν _ _).result = .ok w')
    (hstep : Stride w' symbol more picked w'') :
    Passage ν t w d (word ++ [symbol]) (lines ++ more) (harvest ++ picked) w''
      (d'.after (drawsOf t symbol + picked.length)) where
  depth := by
    rw [List.foldl_append, ← h.depth, hstep.saved, length_savedAfter]
    rfl
  angleStep := by
    rw [List.foldl_append, ← h.angleStep, hstep.angleStep]
    rfl
  segments := by rw [hstep.segments, h.segments, List.append_assoc]
  fruits := by rw [hstep.fruits, h.fruits, List.append_assoc]
  drawn := by
    rw [findIdxs_concat]
    refine List.rel_append (h.drawn.imp ?_) ?_
    · intro place s hs
      obtain ⟨before, hbefore, hs⟩ := hs
      exact ⟨before, hbefore.append _, hs⟩
    · rw [← hstep.strokes]
      exact forall₂_replicate fun s hs => ⟨w', stood_end hw symbol, hstep.drawn s hs⟩
  borne := by
    obtain ⟨places, hplaces, hborne⟩ := h.borne
    refine ⟨places ++ List.replicate picked.length word.length, ?_, ?_⟩
    · rw [findIdxs_concat]
      exact hplaces.append ((List.replicate_sublist_replicate _).mpr hstep.fruitful)
    · refine List.rel_append (hborne.imp ?_) ?_
      · intro place f hf
        obtain ⟨before, hbefore, hf⟩ := hf
        exact ⟨before, hbefore.append _, hf⟩
      · exact forall₂_replicate fun f hf => ⟨w', stood_end hw symbol, hstep.borne f hf⟩
  draws := by
    rw [h.draws, Draws.after_after]
    congr 1
    simp
    omega

/-- A walk that comes to the end of a word has done what is said of it. -/
theorem followAll_passage {word : List Char}
    (h : (w.followAll t word d : Report ν _ _).result = .ok w') :
    ∃ lines harvest, Passage ν t w d word lines harvest w'
      (w.followAll t word d : Report ν _ _).state := by
  -- The word grows at its end: a place then still means the same part of the word before it.
  induction word using List.reverseRecOn generalizing w' with
  | nil =>
    cases h
    exact ⟨[], [], rfl, rfl, (List.append_nil _).symm, (List.append_nil _).symm, .nil,
      ⟨[], List.Sublist.refl _, .nil⟩, rfl⟩
  | append_singleton word symbol ih =>
    rw [followAll_concat] at h ⊢
    obtain ⟨mid, hmid, hlast⟩ := of_bind_ok h
    obtain ⟨lines, harvest, hpassage⟩ := ih hmid
    obtain ⟨more, picked, hstep, hdraws⟩ :=
      (meets_follow_stride t mid (w.followAll t word d).state symbol _ rfl).2 _ hlast
    rw [bind_of_ok hmid]
    refine ⟨lines ++ more, harvest ++ picked, ?_⟩
    rw [hdraws]
    exact hpassage.concat hmid hstep

/-! ### Stops -/

/-- A walk stops exactly where the walk to a symbol of its word ends and the symbol cannot be
followed. -/
theorem followAll_error_iff {word : List Char} {e : Fault} :
    (w.followAll t word d : Report ν _ _).result = .error e ↔
      ∃ before symbol after w', word = before ++ symbol :: after ∧
        (w.followAll t before d : Report ν _ _).result = .ok w' ∧
        Halts ν t w' (w.followAll t before d : Report ν _ _).state symbol e := by
  constructor
  · intro h
    induction word using List.reverseRecOn with
    | nil => cases h
    | append_singleton word last ih =>
      cases hword : (w.followAll t word d : Report ν _ _).result with
      | error fault =>
        rw [followAll_concat, bind_of_error hword] at h
        cases h
        obtain ⟨before, symbol, after, w', rfl, hw, hhalt⟩ := ih hword
        exact ⟨before, symbol, after ++ [last], w', by simp, hw, hhalt⟩
      | ok w' =>
        rw [followAll_concat, bind_of_ok hword] at h
        exact ⟨word, last, [], w', rfl, hword, follow_error_iff.mp h⟩
  · rintro ⟨before, symbol, after, w', rfl, hw, hhalt⟩
    rw [followAll_append, bind_of_ok hw]
    simp only [followAll]
    rw [bind_of_error (follow_error_iff.mpr hhalt)]

/-! ### From the start -/

/-- The brackets that are open after a word. -/
def depth (word : List Char) : Nat := word.foldl depthAfter 0

omit [Scalar α] in
/-- The draws of a word, apart from the sizes of its fruits. -/
theorem sum_drawsOf (t : Traits α) (word : List Char) :
    (word.map (drawsOf t)).sum = word.count '+' + word.count '-' + word.count '*' +
      if t.colourVaries then 3 * word.count 'c' else 0 := by
  induction word with
  | nil => simp
  | cons symbol word ih =>
    have hsplit (c : Char) : (symbol :: word).count c = [symbol].count c + word.count c := by
      rw [← List.count_append, List.singleton_append]
    have hsymbol : drawsOf t symbol = [symbol].count '+' + [symbol].count '-' +
        [symbol].count '*' + if t.colourVaries then 3 * [symbol].count 'c' else 0 := by
      unfold drawsOf
      split <;> simp_all [List.count_singleton]
    rw [List.map_cons, List.sum_cons, ih, hsymbol]
    simp only [hsplit]
    split <;> omega

/-- What a walk along a word from the start accounts for: a segment for each stroke, as deep as the
brackets that were open then and a root where none was and the pen stood low; a fruit for some of
the stars, where the pen stood; and every draw. -/
structure Accounts (ν : Type) (t : Traits α) (word : List Char) (d : Draws α) (w : Walk α)
    (d' : Draws α) : Prop where
  segments : List.Forall₂
    (fun place (s : Segment α) =>
      ∃ before, (along t (word.take place) d : Report ν _ _).result = .ok before ∧
      s.start = before.pen.position ∧ s.depth = depth (word.take place) ∧
      (s.isRoot ↔ depth (word.take place) = 0 ∧ rootLine ≤ s.start.y))
    (word.findIdxs isStroke) w.segments.toList
  fruits : ∃ places, places.Sublist (word.findIdxs (· == '*')) ∧ List.Forall₂
    (fun place (f : Fruit α) =>
      ∃ before, (along t (word.take place) d : Report ν _ _).result = .ok before ∧
      f.position = before.pen.position) places w.fruits.toList
  draws : d' = d.after (word.count '+' + word.count '-' + word.count '*' + w.fruits.size +
    if t.colourVaries then 3 * word.count 'c' else 0)

/-- A walk accounts for every symbol of its word, or stops at one that cannot be followed. -/
theorem along_accounts (t : Traits α) (word : List Char) (d : Draws α) :
    (∀ w, (along t word d : Report ν _ _).result = .ok w →
      Accounts ν t word d w (along t word d : Report ν _ _).state) ∧
    ∀ e, (along t word d : Report ν _ _).result = .error e ↔
      ∃ before symbol after w, word = before ++ symbol :: after ∧
        (along t before d : Report ν _ _).result = .ok w ∧
        Halts ν t w (along t before d : Report ν _ _).state symbol e := by
  refine ⟨fun w hw => ?_, fun e => followAll_error_iff⟩
  -- At the start nothing is drawn and nothing is saved, so the passage is the whole account.
  obtain ⟨lines, harvest, hpassage⟩ := followAll_passage hw
  have hsegments : w.segments.toList = lines := hpassage.segments
  have hfruits : w.fruits.toList = harvest := hpassage.fruits
  refine ⟨?_, ?_, ?_⟩
  · rw [hsegments]
    refine hpassage.drawn.imp fun place s hs => ?_
    obtain ⟨before, hbefore, hs⟩ := hs
    obtain ⟨_, _, hpart⟩ := followAll_passage hbefore.2
    have hdepth : before.saved.length = depth (word.take place) := hpart.depth
    refine ⟨before, hbefore.2, hs.start, by rw [hs.depth, hdepth], ?_⟩
    rw [hs.isRoot, hs.start, ← hdepth, Bool.and_eq_true, decide_eq_true_iff,
      List.isEmpty_iff_length_eq_zero]
  · obtain ⟨places, hplaces, hborne⟩ := hpassage.borne
    rw [hfruits]
    refine ⟨places, hplaces, hborne.imp fun place f hf => ?_⟩
    obtain ⟨before, hbefore, hf⟩ := hf
    exact ⟨before, hbefore.2, hf⟩
  · rw [← Array.length_toList, hfruits]
    refine hpassage.draws.trans (congrArg d.after ?_)
    rw [sum_drawsOf]
    omega

end Walk

namespace Upright

open Walk

def fruitful : Walk.Traits Upright := { Walk.Traits.default 20.0 with fruitProbability := 1 }

/-- A word with a bracket too many and a symbol without a meaning. -/
def tangle : List Char := ['F', ']', 'F', '[', '*', 'G', 'x', '!', ']', 'F']

def tangling : Report (Note Upright) (Draws Upright) (Walk Upright) :=
  along fruitful tangle (.cycle #[0.5])

def tangled : Walk Upright := tangling.result.toOption.getD (.start fruitful)

theorem along_accounts_tangle :
    tangling.result = .ok tangled ∧ tangle.findIdxs isStroke = [0, 2, 5, 9] ∧
      tangled.fruits.size = 1 ∧
      Accounts (Note Upright) fruitful tangle (.cycle #[0.5]) tangled tangling.state := by
  have hwalk : tangling.result = .ok tangled :=
    eq_ok_of_isOk (by decide +kernel) _
  exact ⟨hwalk, by decide, by decide +kernel,
    (along_accounts fruitful tangle (.cycle #[0.5])).1 tangled hwalk⟩

end Upright
end Arboretum
