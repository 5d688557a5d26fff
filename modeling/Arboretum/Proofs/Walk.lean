import Arboretum.Proofs.Action
import Arboretum.Walk

/-!
Where a pen can be. Along a word that never lifts the pen, each segment starts at the origin or at
the tip of an earlier one, and those of the trunk start at the origin or at the tip of an earlier
one of the trunk, whatever the brackets of the word are.
-/
namespace Arboretum

open Arboretum.Action

variable {α ν : Type}

/-- The place is the origin, or the tip of one of the segments. -/
def Met [Scalar α] (segments : List (Segment α)) (place : Vec α) : Prop :=
  place = ⟨0, 0⟩ ∨ ∃ s ∈ segments, s.tip = place

def trunk (segments : List (Segment α)) : List (Segment α) := segments.filter (·.depth == 0)

/-- A segment goes on from an earlier one; one of the trunk, from an earlier one of the trunk. -/
def GoesOn [Scalar α] (before : List (Segment α)) (s : Segment α) : Prop :=
  Met before s.start ∧ (s.depth = 0 → Met (trunk before) s.start)

theorem trunk_append (segments more : List (Segment α)) :
    trunk (segments ++ more) = trunk segments ++ trunk more := List.filter_append ..

variable [Scalar α]

theorem Met.mono {segments more : List (Segment α)} {place : Vec α} (h : Met segments place)
    (hsub : segments ⊆ more) : Met more place :=
  h.imp id fun ⟨s, hs, htip⟩ => ⟨s, hsub hs, htip⟩

namespace Walk

/-- The pen that a walk returns to when every bracket is closed. -/
def lowest (w : Walk α) : Pen α := w.saved.getLast?.getD w.pen

/-- Every pen stands at the tip of a segment, and the lowest at the tip of one of the trunk. -/
structure Joined (w : Walk α) : Prop where
  chain : Timely GoesOn w.segments.toList
  pen : Met w.segments.toList w.pen.position
  saved : ∀ pen ∈ w.saved, Met w.segments.toList pen.position
  lowest : Met (trunk w.segments.toList) w.lowest.position

theorem Joined.start (t : Traits α) : Joined (start t) where
  chain := .nil
  pen := .inl rfl
  saved := by simp [Walk.start]
  lowest := .inl rfl

variable {w : Walk α}

/-- What is done on the spot changes nothing of where the pens are. -/
theorem Joined.onTheSpot (h : Joined w) {pen : Pen α} (hplace : pen.position = w.pen.position)
    (angleStep : α) (fruits : Array (Fruit α)) :
    Joined { w with pen := pen, angleStep := angleStep, fruits := fruits } where
  chain := h.chain
  pen := by
    rw [hplace]
    exact h.pen
  saved := h.saved
  lowest := by
    have hlowest := h.lowest
    unfold Walk.lowest at hlowest ⊢
    cases hsaved : w.saved.getLast? with
    | none => simpa [hsaved, hplace] using hlowest
    | some last => simpa [hsaved] using hlowest

theorem Joined.save (h : Joined w) (thickness : α) :
    Joined { w with saved := w.pen :: w.saved, pen := { w.pen with thickness := thickness } } where
  chain := h.chain
  pen := h.pen
  saved := by
    intro pen hpen
    rcases List.mem_cons.mp hpen with rfl | hpen
    · exact h.pen
    · exact h.saved pen hpen
  lowest := by
    have hlowest := h.lowest
    unfold Walk.lowest at hlowest ⊢
    simpa [List.getLast?_cons] using hlowest

theorem Joined.restore (h : Joined w) {pen : Pen α} {saved : List (Pen α)}
    (hsaved : w.saved = pen :: saved) : Joined { w with pen := pen, saved := saved } where
  chain := h.chain
  pen := h.saved pen (by simp [hsaved])
  saved p hp := h.saved p (by simp [hsaved, hp])
  lowest := by
    have hlowest := h.lowest
    unfold Walk.lowest at hlowest ⊢
    simpa [hsaved, List.getLast?_cons] using hlowest

/-- A segment is drawn from where the pen stands to where it moves. -/
theorem of_draw {stepLength : α} {w' : Walk α} (h : w.draw stepLength = .ok w') :
    ∃ pen s, w' = { w with pen := pen, segments := w.segments.push s } ∧
      s.start = w.pen.position ∧ s.tip = pen.position ∧ s.depth = w.saved.length := by
  unfold Walk.draw at h
  cases hpen : w.forward stepLength with
  | error fault =>
    rw [hpen] at h
    cases h
  | ok pen =>
    rw [hpen] at h
    cases h
    exact ⟨pen, _, rfl, rfl, rfl, rfl⟩

theorem Joined.draw (h : Joined w) {stepLength : α} {w' : Walk α}
    (hdraw : w.draw stepLength = .ok w') : Joined w' := by
  obtain ⟨pen, s, rfl, hstart, htip, hdepth⟩ := of_draw hdraw
  have hlowest := h.lowest
  unfold Walk.lowest at hlowest
  refine ⟨?_, ?_, ?_, ?_⟩
  · rw [Array.toList_push]
    refine h.chain.concat ⟨hstart ▸ h.pen, fun htrunk => ?_⟩
    have hnone : w.saved = [] := by
      rw [hdepth] at htrunk
      exact List.length_eq_zero_iff.mp (Int.natCast_eq_zero.mp htrunk)
    rw [hnone] at hlowest
    rw [hstart]
    exact hlowest
  · rw [Array.toList_push]
    exact .inr ⟨s, by simp, htip⟩
  · intro p hp
    rw [Array.toList_push]
    exact (h.saved p hp).mono (List.subset_append_left _ _)
  · rw [Array.toList_push, trunk_append]
    unfold Walk.lowest
    cases hsaved : w.saved.getLast? with
    | none =>
      -- No bracket is open: the segment belongs to the trunk.
      have hzero : s.depth = 0 := by simp [hdepth, List.getLast?_eq_none_iff.mp hsaved]
      exact .inr ⟨s, by simp [trunk, hzero], htip⟩
    | some last =>
      rw [hsaved] at hlowest
      exact hlowest.mono (List.subset_append_left _ _)

/-- Whatever comes before, the rest of an operation ends as it should. -/
theorem meets_after {σ ρ ρ' : Type} (x : Action ν σ ρ) {f : ρ → Action ν σ ρ'} {post : ρ' → Prop}
    (hf : ∀ a, Meets (fun _ => True) (f a) (fun _ => True) fun b _ => post b) :
    Meets (fun _ => True) (x >>= f) (fun _ => True) fun b _ => post b :=
  Meets.bind (fun _ _ => ⟨fun _ _ => trivial, fun _ _ => trivial⟩) hf

variable {t : Traits α}

theorem meets_bearFruit (h : Joined w) :
    Meets (fun _ => True) (w.bearFruit t : Action ν (Draws α) (Walk α)) (fun _ => True)
      fun w' _ => Joined w' := by
  refine meets_after _ fun luck => ?_
  split
  · exact meets_after _ fun size => .pure fun _ _ => h.onTheSpot (by rfl) _ _
  · exact .pure fun _ _ => h

/-- A symbol that does not lift the pen leaves every pen at a tip. -/
theorem meets_follow {symbol : Char} (hsymbol : symbol ≠ 'f') (h : Joined w) :
    Meets (fun _ => True) (w.follow t symbol : Action ν (Draws α) (Walk α)) (fun _ => True)
      fun w' _ => Joined w' := by
  unfold follow
  split
  · exact (Meets.ofExcept _ fun _ _ => trivial).weaken fun _ _ hw => h.draw hw.1
  · exact (Meets.ofExcept _ fun _ _ => trivial).weaken fun _ _ hw => h.draw hw.1
  · exact absurd rfl hsymbol
  · exact meets_after _ fun angle => .pure fun _ _ => h.onTheSpot (by rfl) _ _
  · exact meets_after _ fun angle => .pure fun _ _ => h.onTheSpot (by rfl) _ _
  · exact .pure fun _ _ => h.onTheSpot (by rfl) _ _
  · exact .pure fun _ _ => h.onTheSpot (by rfl) _ _
  · exact .pure fun _ _ => h.save _
  · split
    · exact .pure fun _ _ => h
    · rename_i pen saved hsaved
      exact .pure fun _ _ => h.restore hsaved
  · exact .pure fun _ _ => h.onTheSpot (by rfl) _ _
  · exact .pure fun _ _ => h.onTheSpot (by rfl) _ _
  · exact meets_bearFruit h
  · split
    · exact meets_after _ fun colour => .pure fun _ _ => h.onTheSpot (by rfl) _ _
    · exact .pure fun _ _ => h
  · exact .pure fun _ _ => h

theorem meets_followAll {word : List Char} (hword : 'f' ∉ word) (h : Joined w) :
    Meets (fun _ => True) (w.followAll t word : Action ν (Draws α) (Walk α)) (fun _ => True)
      fun w' _ => Joined w' := by
  induction word generalizing w with
  | nil => exact .pure fun _ _ => h
  | cons symbol word ih =>
    rw [List.mem_cons, not_or] at hword
    refine Meets.bind (meets_follow (Ne.symm hword.1) h) fun w' => ?_
    refine Meets.assume (Joined w') (fun _ hw => hw) fun hw => ?_
    exact (ih hword.2 hw).of_pre fun _ _ => trivial

/-- Along a word that does not lift the pen, every segment goes on from an earlier one. -/
theorem along_chain {word : List Char} (hword : 'f' ∉ word) {draws : Draws α} {w : Walk α}
    (h : (along t word draws : Report ν _ _).result = .ok w) :
    Timely GoesOn w.segments.toList :=
  ((meets_followAll hword (Joined.start t) draws trivial).2 w h).chain

end Walk
end Arboretum
