import Arboretum.Proofs.Draws

/-!
What one symbol does to a walk. It adds at most one segment and at most one fruit, where the pen
stands, saves a pen or takes one back, bends the angle step, and moves the source on by draws that
only the symbol and the fruit decide. It stops the walk only at a heading without a direction, or at
a colour that cannot be shifted.
-/
namespace Arboretum.Walk

open Arboretum.Action

variable {α ν : Type} [Scalar α] {t : Traits α} {w w' : Walk α} {d d' : Draws α} {symbol : Char}

/-! ### Changes -/

/-- The symbols that draw a segment. -/
def isStroke (symbol : Char) : Bool := symbol == 'F' || symbol == 'G'

/-- The angle step after a symbol. -/
def bend (angleStep : α) : Char → α
  | '<' => angleStep * 0.8
  | '>' => angleStep * 1.25
  | _ => angleStep

/-- The pens that are saved after a symbol. -/
def savedAfter (w : Walk α) : Char → List (Pen α)
  | '[' => w.pen :: w.saved
  | ']' => w.saved.tail
  | _ => w.saved

/-- How many brackets are open after a symbol; one that closes where none is open is passed over. -/
def depthAfter (depth : Nat) : Char → Nat
  | '[' => depth + 1
  | ']' => depth - 1
  | _ => depth

/-- The draws that a symbol takes, apart from the size of a fruit. -/
def drawsOf (t : Traits α) : Char → Nat
  | '+' | '-' | '*' => 1
  | 'c' => if t.colourVaries then 3 else 0
  | _ => 0

omit [Scalar α] in
theorem length_savedAfter : (w.savedAfter symbol).length = depthAfter w.saved.length symbol := by
  unfold savedAfter depthAfter
  split <;> simp

/-- A segment drawn from where a walk stands. -/
structure DrawnFrom (w : Walk α) (s : Segment α) : Prop where
  start : s.start = w.pen.position
  depth : s.depth = w.saved.length
  isRoot : s.isRoot = (w.saved.isEmpty && decide (rootLine ≤ w.pen.position.y))

/-- What one symbol does to a walk. -/
structure Stride (w : Walk α) (symbol : Char) (lines : List (Segment α)) (harvest : List (Fruit α))
    (w' : Walk α) : Prop where
  saved : w'.saved = w.savedAfter symbol
  angleStep : w'.angleStep = bend w.angleStep symbol
  segments : w'.segments.toList = w.segments.toList ++ lines
  fruits : w'.fruits.toList = w.fruits.toList ++ harvest
  strokes : lines.length = [symbol].countP isStroke
  drawn : ∀ s ∈ lines, DrawnFrom w s
  fruitful : harvest.length ≤ [symbol].count '*'
  borne : ∀ f ∈ harvest, f.position = w.pen.position

namespace Stride

/-- What leaves no segment and no fruit. -/
theorem plain {pen : Pen α} {saved : List (Pen α)} {angleStep : α}
    (hsymbol : isStroke symbol = false) (hsaved : saved = w.savedAfter symbol)
    (hangle : angleStep = bend w.angleStep symbol) :
    Stride w symbol [] [] { w with pen := pen, saved := saved, angleStep := angleStep } where
  saved := hsaved
  angleStep := hangle
  segments := (List.append_nil _).symm
  fruits := (List.append_nil _).symm
  strokes := by simp [hsymbol]
  drawn := by simp
  fruitful := Nat.zero_le _
  borne := by simp

theorem draw {stepLength : α} (hsymbol : symbol = 'F' ∨ symbol = 'G')
    (h : w.draw stepLength = .ok w') : ∃ s, Stride w symbol [s] [] w' := by
  unfold Walk.draw at h
  cases hpen : w.forward stepLength with
  | error fault =>
    rw [hpen] at h
    cases h
  | ok pen =>
    rw [hpen] at h
    cases h
    refine ⟨_, ?_, ?_, Array.toList_push, (List.append_nil _).symm, ?_, ?_, by simp, by simp⟩
    · rcases hsymbol with rfl | rfl <;> rfl
    · rcases hsymbol with rfl | rfl <;> rfl
    · rcases hsymbol with rfl | rfl <;> rfl
    · intro s hs
      cases List.mem_singleton.mp hs
      exact ⟨rfl, rfl, rfl⟩

/-- A fruit hangs where the pen stands. -/
theorem fruit (size : α) (colour : Colour) :
    Stride w '*' [] [⟨w.pen.position, size, colour, w.pen.heading⟩]
      { w with fruits := w.fruits.push ⟨w.pen.position, size, colour, w.pen.heading⟩ } where
  saved := rfl
  angleStep := rfl
  segments := (List.append_nil _).symm
  fruits := Array.toList_push
  strokes := rfl
  drawn := by simp
  fruitful := Nat.le_refl _
  borne := by simp

end Stride

/-- The report on one symbol. -/
def Strode (t : Traits α) (w : Walk α) (d : Draws α) (symbol : Char) (w' : Walk α) (d' : Draws α) :
    Prop :=
  ∃ segments fruits, Stride w symbol segments fruits w' ∧
    d' = d.after (drawsOf t symbol + fruits.length)

theorem meets_bearFruit_stride :
    Meets (· = d) (w.bearFruit t : Action ν (Draws α) (Walk α)) (fun _ => True)
      (Strode t w d '*') := by
  refine Draws.meets_next_one.bind fun luck => ?_
  split
  · refine (Draws.meets_uniform_one 5.0 12.0).bind fun size => .pure fun _ hd => ?_
    exact ⟨[], [_], .fruit size t.fruitColour, hd.trans (Draws.after_after d 1 1)⟩
  · exact .pure fun _ hd => ⟨[], [], .plain rfl rfl rfl, hd⟩

/-- A symbol does what is said of it, and takes as many draws. -/
theorem meets_follow_stride (t : Traits α) (w : Walk α) (d : Draws α) (symbol : Char) :
    Meets (· = d) (w.follow t symbol : Action ν (Draws α) (Walk α)) (fun _ => True)
      (Strode t w d symbol) := by
  -- A stroke, a turn, and whatever leaves nothing but a changed pen; the symbols follow one by one.
  have hdraw (symbol : Char) (hsymbol : symbol = 'F' ∨ symbol = 'G') :
      Meets (· = d) (Action.ofExcept (w.draw t.stepLength) : Action ν (Draws α) (Walk α))
        (fun _ => True) (Strode t w d symbol) := by
    refine (Meets.ofExcept _ fun _ _ => trivial).weaken fun w' d' hw => ?_
    obtain ⟨s, hs⟩ := Stride.draw hsymbol hw.1
    refine ⟨[s], [], hs, ?_⟩
    rcases hsymbol with rfl | rfl <;> exact hw.2
  have hturn (f : α → Pen α) (symbol : Char) (hsymbol : symbol = '+' ∨ symbol = '-') :
      Meets (· = d) (w.turn >>= fun a => Pure.pure { w with pen := f a } :
        Action ν (Draws α) (Walk α)) (fun _ => True) (Strode t w d symbol) := by
    have hangle : Meets (· = d) (w.turn : Action ν (Draws α) α) (fun _ => True)
        fun _ d' => d' = d.after 1 :=
      (Draws.meets_uniform_one 0.8 3.0).answer
    refine hangle.bind fun _ => .pure fun _ hd => ⟨[], [], ?_, ?_⟩
    · rcases hsymbol with rfl | rfl <;> exact .plain rfl rfl rfl
    · rcases hsymbol with rfl | rfl <;> exact hd
  have hspot {w' : Walk α} {symbol : Char} (hstep : Stride w symbol [] [] w')
      (hfree : drawsOf t symbol = 0) :
      Meets (· = d) (Pure.pure w' : Action ν (Draws α) (Walk α)) (fun _ => True)
        (Strode t w d symbol) :=
    .pure fun _ hd => ⟨[], [], hstep, by simpa [hfree] using hd⟩
  unfold follow
  split
  · exact hdraw 'F' (.inl rfl)
  · exact hdraw 'G' (.inr rfl)
  · refine (Meets.ofExcept _ fun _ _ => trivial).bind fun pen => .pure fun _ hd => ?_
    exact ⟨[], [], .plain rfl rfl rfl, hd.2⟩
  · exact hturn _ '+' (.inl rfl)
  · exact hturn _ '-' (.inr rfl)
  · exact hspot (.plain rfl rfl rfl) rfl
  · exact hspot (.plain rfl rfl rfl) rfl
  · exact hspot (.plain rfl rfl rfl) rfl
  · split
    · rename_i hsaved
      exact hspot (.plain rfl (by simp [savedAfter, hsaved]) rfl) rfl
    · rename_i pen saved hsaved
      exact hspot (.plain rfl (by simp [savedAfter, hsaved]) rfl) rfl
  · exact hspot (.plain rfl rfl rfl) rfl
  · exact hspot (.plain rfl rfl rfl) rfl
  · exact meets_bearFruit_stride
  · split
    · rename_i hvaries
      refine (Colour.meets_shift_three _).bind fun colour => .pure fun _ hd => ?_
      exact ⟨[], [], .plain rfl rfl rfl, by simpa [drawsOf, hvaries] using hd⟩
    · rename_i hvaries
      exact hspot (.plain rfl rfl rfl) (by simp [drawsOf, hvaries])
  · have hneither : symbol ≠ 'F' ∧ symbol ≠ 'G' := ⟨‹_›, ‹_›⟩
    have hstroke : isStroke symbol = false := by simp [isStroke, hneither]
    have hsaved : w.saved = w.savedAfter symbol := by simp [savedAfter, *]
    have hangle : w.angleStep = bend w.angleStep symbol := by simp [bend, *]
    have hfree : drawsOf t symbol = 0 := by simp [drawsOf, *]
    exact hspot (.plain hstroke hsaved hangle) hfree

/-! ### Stops -/

section
variable (ν) (t w d)

/-- Why a symbol cannot be followed. -/
inductive Halts : Char → Fault → Prop where
  | astray {symbol : Char} : symbol ∈ ['F', 'G', 'f'] → Scalar.isInfinite w.pen.heading →
    Halts symbol .noDirection
  | discoloured {e : Fault} : t.colourVaries →
    (w.pen.colour.shift d : Report ν (Draws α) Colour).result = .error e → Halts 'c' e

end

/-- A pen moves on unless its heading has no direction. -/
theorem forward_error_iff {stepLength : α} {e : Fault} :
    w.forward stepLength = .error e ↔ Scalar.isInfinite w.pen.heading ∧ e = .noDirection := by
  unfold forward Scalar.direction
  by_cases hlost : Scalar.isInfinite w.pen.heading
  · rw [if_pos hlost]
    exact ⟨fun h => ⟨hlost, (Except.error.inj h).symm⟩, fun h => congrArg Except.error h.2.symm⟩
  · rw [if_neg hlost]
    exact ⟨nofun, fun h => (hlost h.1).elim⟩

theorem draw_error_iff {stepLength : α} {e : Fault} :
    w.draw stepLength = .error e ↔ Scalar.isInfinite w.pen.heading ∧ e = .noDirection := by
  rw [← @forward_error_iff α _ w stepLength e]
  unfold draw
  cases w.forward stepLength with
  | error fault =>
    exact ⟨fun h => congrArg _ (Except.error.inj h), fun h => congrArg _ (Except.error.inj h)⟩
  | ok pen => exact ⟨nofun, nofun⟩

/-- A symbol stops a walk only where it has to move a pen without a direction, or to shift a colour
that cannot be shifted. -/
theorem follow_error_iff {e : Fault} :
    (w.follow t symbol d : Report ν _ _).result = .error e ↔ Halts ν t w d symbol e := by
  constructor
  · intro h
    have hastray (symbol : Char) (hsymbol : symbol ∈ ['F', 'G', 'f'])
        (h : Scalar.isInfinite w.pen.heading ∧ e = .noDirection) : Halts ν t w d symbol e := by
      rw [h.2]
      exact .astray hsymbol h.1
    unfold follow at h
    split at h
    · exact hastray _ (by simp) (draw_error_iff.mp h)
    · exact hastray _ (by simp) (draw_error_iff.mp h)
    · cases hpen : w.forward t.stepLength with
      | error fault =>
        rw [hpen] at h
        cases h
        exact hastray _ (by simp) (forward_error_iff.mp hpen)
      | ok pen =>
        rw [hpen] at h
        cases h
    · cases h
    · cases h
    · cases h
    · cases h
    · cases h
    · cases hsaved : w.saved <;> simp [hsaved] at h
    · cases h
    · cases h
    · unfold bearFruit at h
      rw [bind_of_ok rfl] at h
      split at h <;> cases h
    · by_cases hvaries : t.colourVaries
      · rw [if_pos hvaries] at h
        cases hshift : (w.pen.colour.shift d : Report ν (Draws α) Colour).result with
        | error fault =>
          rw [bind_of_error hshift] at h
          cases h
          exact .discoloured hvaries hshift
        | ok colour =>
          rw [bind_of_ok hshift] at h
          cases h
      · rw [if_neg hvaries] at h
        cases h
    · cases h
  · intro h
    cases h with
    | astray hsymbol hlost =>
      have hpen : w.forward t.stepLength = .error .noDirection := forward_error_iff.mpr ⟨hlost, rfl⟩
      have hdraw : w.draw t.stepLength = .error .noDirection := draw_error_iff.mpr ⟨hlost, rfl⟩
      rcases (by simpa using hsymbol : symbol = 'F' ∨ symbol = 'G' ∨ symbol = 'f') with
        rfl | rfl | rfl
      · exact hdraw
      · exact hdraw
      · have hlift : (w.follow t 'f' : Action ν (Draws α) (Walk α)) =
            Action.ofExcept (w.forward t.stepLength) >>= fun pen =>
              Pure.pure { w with pen := pen } :=
          rfl
        rw [hlift, hpen]
        rfl
    | discoloured hvaries hshift =>
      have hcolour : (w.follow t 'c' : Action ν (Draws α) (Walk α)) =
          w.pen.colour.shift >>= fun colour =>
            Pure.pure { w with pen := { w.pen with colour := colour } } :=
        if_pos hvaries
      rw [hcolour, bind_of_error hshift]

end Arboretum.Walk
