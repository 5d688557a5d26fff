import Arboretum.Proofs.Action
import Arboretum.Proofs.Exact
import Arboretum.Proofs.Quadtree
import Mathlib.Tactic.Linarith

/-!
In exact arithmetic the quarters of a box cover it without gap or overlap, so that an index of
points neither loses nor doubles what it takes. It takes every point in its box that does not come
to lie too deep.
-/
namespace Arboretum

variable {α β : Type}

namespace Quadtree

section
variable [Scalar α]

/-- The points of a node lie in its box, its quarters are those of its box, and it was full when it
was split. -/
inductive Formed (capacity : Nat) : Quadtree α β → Prop where
  | leaf {box : Box α} {held : List (Vec α × β)} (inside : ∀ q ∈ held, box.contains q.1)
    (room : held.length ≤ capacity) : Formed capacity (.leaf box held)
  | split {box : Box α} {held : List (Vec α × β)} {a b c d : Quadtree α β}
    (inside : ∀ q ∈ held, box.contains q.1) (full : held.length = capacity)
    (upperRight : a.box = box.upperRight) (upperLeft : b.box = box.upperLeft)
    (lowerRight : c.box = box.lowerRight) (lowerLeft : d.box = box.lowerLeft)
    (ha : Formed capacity a) (hb : Formed capacity b) (hc : Formed capacity c)
    (hd : Formed capacity d) : Formed capacity (.split box held a b c d)

variable {capacity : Nat} {p : Vec α × β} {t : Quadtree α β}

theorem Formed.empty (box : Box α) : Formed (β := β) capacity (.leaf box []) :=
  .leaf (fun _ hq => absurd hq List.not_mem_nil) (Nat.zero_le capacity)

/-- Where nodes hold something, a point comes to rest in the first new node that it lies in. -/
theorem sprout_eq (hc : 0 < capacity) (depth : Nat) (box : Box α) :
    sprout capacity p depth box =
      if box.contains p.1 then (true, .leaf box [p]) else (false, .leaf box []) := by
  unfold sprout
  cases box.contains p.1 <;> simp [hc]

@[simp] theorem box_sprout (hc : 0 < capacity) (depth : Nat) (box : Box α) :
    (sprout capacity p depth box).2.box = box := by
  rw [sprout_eq hc]
  split <;> rfl

theorem Formed.sprout (hc : 0 < capacity) (depth : Nat) (box : Box α) :
    Formed capacity (sprout capacity p depth box).2 := by
  rw [sprout_eq hc]
  split
  · rename_i hp
    refine .leaf (fun q hq => ?_) hc
    rw [List.mem_singleton.mp hq]
    exact hp
  · exact .empty box

theorem box_offer (box : Box α) (held : List (Vec α × β)) (insert : Box α → Bool × Quadtree α β) :
    (offer box held insert).2.box = box := by
  unfold offer
  dsimp only
  repeat' split
  all_goals rfl

theorem offer_taken (box : Box α) (held : List (Vec α × β))
    (insert : Box α → Bool × Quadtree α β) :
    (offer box held insert).1 =
      ((insert box.upperRight).1 || (insert box.upperLeft).1 || (insert box.lowerRight).1 ||
        (insert box.lowerLeft).1) := by
  unfold offer
  cases ha : (insert box.upperRight).1 <;> cases hb : (insert box.upperLeft).1 <;>
    cases hc : (insert box.lowerRight).1 <;> simp [ha, hb, hc]

theorem Formed.offer {box : Box α} {held : List (Vec α × β)}
    {insert : Box α → Bool × Quadtree α β} (inside : ∀ q ∈ held, box.contains q.1)
    (full : held.length = capacity) (hbox : ∀ b, (insert b).2.box = b)
    (hinsert : ∀ b, Formed capacity (insert b).2) :
    Formed capacity (offer box held insert).2 := by
  unfold Quadtree.offer
  dsimp only
  split
  · exact .split inside full (hbox _) rfl rfl rfl (hinsert _) (.empty _) (.empty _) (.empty _)
  split
  · exact .split inside full (hbox _) (hbox _) rfl rfl (hinsert _) (hinsert _) (.empty _)
      (.empty _)
  split
  · exact .split inside full (hbox _) (hbox _) (hbox _) rfl (hinsert _) (hinsert _) (hinsert _)
      (.empty _)
  · exact .split inside full (hbox _) (hbox _) (hbox _) (hbox _) (hinsert _) (hinsert _)
      (hinsert _) (hinsert _)

theorem box_insert (capacity : Nat) (p : Vec α × β) (t : Quadtree α β) :
    (t.insert capacity p).2.box = t.box := by
  cases t with
  | leaf box held =>
    unfold insert
    split
    · rfl
    split
    · rfl
    · exact box_offer box held _
  | split box held a b c d =>
    unfold insert
    dsimp only
    repeat' split
    all_goals rfl

/-- Inserting keeps a tree in form. -/
theorem Formed.insert (hc : 0 < capacity) (h : Formed capacity t) (p : Vec α × β) :
    Formed capacity (t.insert capacity p).2 := by
  induction h with
  | @leaf box held inside room =>
    unfold Quadtree.insert
    split
    · exact .leaf inside room
    rename_i hp
    split
    · rename_i hlt
      refine .leaf (fun q hq => ?_) (by simpa using hlt)
      rcases List.mem_append.mp hq with hq | hq
      · exact inside q hq
      · rw [List.mem_singleton.mp hq]
        simpa using hp
    · rename_i hfull
      exact .offer inside (Nat.le_antisymm room (Nat.le_of_not_lt hfull)) (box_sprout hc _)
        (.sprout hc _)
  | @split box held a b c d inside full hA hB hC hD ha hb hc' hd iha ihb ihc ihd =>
    have hA' := (box_insert capacity p a).trans hA
    have hB' := (box_insert capacity p b).trans hB
    have hC' := (box_insert capacity p c).trans hC
    have hD' := (box_insert capacity p d).trans hD
    unfold Quadtree.insert
    split
    · exact .split inside full hA hB hC hD ha hb hc' hd
    rw [if_neg (Nat.not_lt_of_ge full.ge)]
    dsimp only
    split
    · exact .split inside full hA' hB hC hD iha hb hc' hd
    split
    · exact .split inside full hA' hB' hC hD iha ihb hc' hd
    split
    · exact .split inside full hA' hB' hC' hD iha ihb ihc hd
    · exact .split inside full hA' hB' hC' hD' iha ihb ihc ihd

/-- Every node that hands a point on is full. -/
theorem Formed.descent_le (h : Formed capacity t) (p : Vec α) :
    capacity * t.descent capacity p ≤ t.items.length := by
  induction h with
  | @leaf box held inside room =>
    unfold descent items
    split
    · rename_i hp
      simp only [Bool.and_eq_true, decide_eq_true_eq] at hp
      simpa using hp.2
    · exact Nat.zero_le _
  | @split box held a b c d inside full hA hB hC hD ha hb hc hd iha ihb ihc ihd =>
    unfold descent items
    split
    · simp only [Nat.mul_add, Nat.mul_one, ← Nat.mul_max_mul_left, List.length_append]
      omega
    · exact Nat.zero_le _

end

end Quadtree

namespace Box

variable {b : Box ℝ} {p : Vec ℝ}

theorem contains_iff : b.contains p = true ↔
    (b.centre.x - b.half.x ≤ p.x ∧ p.x < b.centre.x + b.half.x) ∧
      (b.centre.y - b.half.y ≤ p.y ∧ p.y < b.centre.y + b.half.y) := by
  simp only [contains, Bool.and_eq_true, decide_eq_true_eq, and_assoc]

theorem meets_iff {range : Box ℝ} : b.meets range = true ↔
    (range.centre.x - range.half.x ≤ b.centre.x + b.half.x ∧
      b.centre.x - b.half.x ≤ range.centre.x + range.half.x) ∧
      (range.centre.y - range.half.y ≤ b.centre.y + b.half.y ∧
        b.centre.y - b.half.y ≤ range.centre.y + range.half.y) := by
  simp only [meets, Bool.not_eq_true', Bool.or_eq_false_iff, decide_eq_false_iff_not, not_lt,
    and_assoc]

/-- A point of two boxes shows that they meet. -/
theorem meets_of_contains {range : Box ℝ} (hb : b.contains p = true)
    (hr : range.contains p = true) : b.meets range = true := by
  rw [contains_iff] at hb hr
  rw [meets_iff]
  refine ⟨⟨?_, ?_⟩, ⟨?_, ?_⟩⟩ <;> linarith

/-- The half of an interval from its middle on. -/
theorem upper_half {c h k m x : ℝ} (hm : m = c + k) (hk : k + k = h) :
    (m - k ≤ x ∧ x < m + k) ↔ (c - h ≤ x ∧ x < c + h) ∧ c ≤ x := by
  subst hm hk
  constructor
  · rintro ⟨hl, hr⟩
    refine ⟨⟨?_, ?_⟩, ?_⟩ <;> linarith
  · rintro ⟨⟨hl, hr⟩, hm⟩
    constructor <;> linarith

/-- The half of an interval before its middle. -/
theorem lower_half {c h k m x : ℝ} (hm : m = c - k) (hk : k + k = h) :
    (m - k ≤ x ∧ x < m + k) ↔ (c - h ≤ x ∧ x < c + h) ∧ x < c := by
  subst hm hk
  constructor
  · rintro ⟨hl, hr⟩
    refine ⟨⟨?_, ?_⟩, ?_⟩ <;> linarith
  · rintro ⟨⟨hl, hr⟩, hm⟩
    constructor <;> linarith

/-- Two quarters side by side are as wide as the box, two above each other as high. -/
theorem quarter_half (b : Box ℝ) (right down : ℝ) :
    (b.quarter right down).half.x + (b.quarter right down).half.x = b.half.x ∧
      (b.quarter right down).half.y + (b.quarter right down).half.y = b.half.y := by
  have htwo : ∀ h : ℝ, h / 2.0 + h / 2.0 = h := fun h => by linarith
  exact ⟨htwo b.half.x, htwo b.half.y⟩

theorem quarter_upper (c h : ℝ) : c + 1 * h = c + h := by rw [one_mul]

theorem quarter_lower (c h : ℝ) : c + -1 * h = c - h := by
  rw [neg_one_mul, sub_eq_add_neg]

theorem upperRight_contains : b.upperRight.contains p = true ↔
    b.contains p = true ∧ b.centre.x ≤ p.x ∧ p.y < b.centre.y := by
  obtain ⟨hx, hy⟩ := b.quarter_half 1 (-1)
  rw [contains_iff (b := b), ← and_and_and_comm, ← upper_half (quarter_upper b.centre.x _) hx,
    ← lower_half (quarter_lower b.centre.y _) hy]
  exact contains_iff

theorem upperLeft_contains : b.upperLeft.contains p = true ↔
    b.contains p = true ∧ p.x < b.centre.x ∧ p.y < b.centre.y := by
  obtain ⟨hx, hy⟩ := b.quarter_half (-1) (-1)
  rw [contains_iff (b := b), ← and_and_and_comm, ← lower_half (quarter_lower b.centre.x _) hx,
    ← lower_half (quarter_lower b.centre.y _) hy]
  exact contains_iff

theorem lowerRight_contains : b.lowerRight.contains p = true ↔
    b.contains p = true ∧ b.centre.x ≤ p.x ∧ b.centre.y ≤ p.y := by
  obtain ⟨hx, hy⟩ := b.quarter_half 1 1
  rw [contains_iff (b := b), ← and_and_and_comm, ← upper_half (quarter_upper b.centre.x _) hx,
    ← upper_half (quarter_upper b.centre.y _) hy]
  exact contains_iff

theorem lowerLeft_contains : b.lowerLeft.contains p = true ↔
    b.contains p = true ∧ p.x < b.centre.x ∧ b.centre.y ≤ p.y := by
  obtain ⟨hx, hy⟩ := b.quarter_half (-1) 1
  rw [contains_iff (b := b), ← and_and_and_comm, ← lower_half (quarter_lower b.centre.x _) hx,
    ← upper_half (quarter_upper b.centre.y _) hy]
  exact contains_iff

/-- The quarters of a box cover it. -/
theorem contains_quarters (b : Box ℝ) (p : Vec ℝ) :
    (b.upperRight.contains p || b.upperLeft.contains p || b.lowerRight.contains p ||
      b.lowerLeft.contains p) = b.contains p := by
  rw [Bool.eq_iff_iff]
  simp only [Bool.or_eq_true, upperRight_contains, upperLeft_contains, lowerRight_contains,
    lowerLeft_contains]
  have hx := lt_or_ge p.x b.centre.x
  have hy := lt_or_ge p.y b.centre.y
  tauto

end Box

namespace Quadtree

variable {capacity : Nat} {p : Vec ℝ × β} {t : Quadtree ℝ β}

/-- All points of a tree lie in its box. -/
theorem Formed.inside (h : Formed capacity t) : ∀ q ∈ t.items, t.box.contains q.1 = true := by
  induction h with
  | leaf inside room => exact inside
  | @split box held a b c d inside full hA hB hC hD ha hb hc hd iha ihb ihc ihd =>
    rw [hA] at iha
    rw [hB] at ihb
    rw [hC] at ihc
    rw [hD] at ihd
    intro q hq
    simp only [items, List.mem_append] at hq
    rcases hq with (((hq | hq) | hq) | hq) | hq
    · exact inside q hq
    · exact (Box.upperRight_contains.mp (iha q hq)).1
    · exact (Box.upperLeft_contains.mp (ihb q hq)).1
    · exact (Box.lowerRight_contains.mp (ihc q hq)).1
    · exact (Box.lowerLeft_contains.mp (ihd q hq)).1

/-- A tree takes exactly the points of its box. -/
theorem Formed.insert_taken (hc : 0 < capacity) (h : Formed capacity t) (p : Vec ℝ × β) :
    (t.insert capacity p).1 = t.box.contains p.1 := by
  induction h with
  | @leaf b held inside room =>
    unfold Quadtree.insert
    cases hp : b.contains p.1 with
    | false => exact hp.symm
    | true =>
      simp only [Bool.not_true, Bool.false_eq_true, if_false]
      split
      · exact hp.symm
      · have hsprout : ∀ b : Box ℝ, (Quadtree.sprout capacity p maxDepth b).1 = b.contains p.1 := by
          intro b
          rw [sprout_eq hc]
          cases hb : b.contains p.1 <;> rfl
        rw [offer_taken, hsprout, hsprout, hsprout, hsprout]
        exact Box.contains_quarters b p.1
  | @split b held a₁ a₂ a₃ a₄ inside full h₁ h₂ h₃ h₄ _ _ _ _ ih₁ ih₂ ih₃ ih₄ =>
    rw [h₁] at ih₁
    rw [h₂] at ih₂
    rw [h₃] at ih₃
    rw [h₄] at ih₄
    have hquarters := Box.contains_quarters b p.1
    rw [← ih₁, ← ih₂, ← ih₃, ← ih₄] at hquarters
    unfold Quadtree.insert
    cases hp : b.contains p.1 with
    | false => exact hp.symm
    | true =>
      rw [hp] at hquarters
      simp only [Bool.not_true, Bool.false_eq_true, if_false]
      split
      · exact hp.symm
      -- the answer is that of the first quarter that takes the point
      refine Eq.trans ?_ (hquarters.trans hp.symm)
      cases (a₁.insert capacity p).1 <;> cases (a₂.insert capacity p).1 <;>
        cases (a₃.insert capacity p).1 <;> rfl

/-- A query finds what a tree holds in the range, in the order in which the tree holds it. -/
theorem Formed.query_eq (h : Formed capacity t) (range : Box ℝ) :
    t.query range = t.items.filter fun q => range.contains q.1 := by
  -- where a box does not meet the range, none of its points is in the range
  have hpruned : ∀ {t : Quadtree ℝ β}, Formed capacity t → ¬ t.box.meets range = true →
      (t.items.filter fun q => range.contains q.1) = [] := fun h hm =>
    List.filter_eq_nil_iff.mpr fun q hq hr => hm (Box.meets_of_contains (h.inside q hq) hr)
  induction h with
  | @leaf b held inside room =>
    unfold query
    split
    · rfl
    · rename_i hm
      exact (hpruned (.leaf inside room) hm).symm
  | @split b held a₁ a₂ a₃ a₄ inside full h₁ h₂ h₃ h₄ f₁ f₂ f₃ f₄ ih₁ ih₂ ih₃ ih₄ =>
    unfold query
    split
    · rw [ih₁, ih₂, ih₃, ih₄]
      simp only [items, List.filter_append]
      rfl
    · rename_i hm
      exact (hpruned (.split inside full h₁ h₂ h₃ h₄ f₁ f₂ f₃ f₄) hm).symm

end Quadtree
end Arboretum
