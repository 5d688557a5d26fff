import Arboretum.Quadtree

/-!
What an index of points holds, and that a search returns nothing else.
-/
namespace Arboretum

variable {α β : Type}

namespace Quadtree

/-- The points that a tree holds. -/
def items : Quadtree α β → List (Vec α × β)
  | leaf _ held => held
  | split _ held a b c d => held ++ a.items ++ b.items ++ c.items ++ d.items

variable [Scalar α] {p q : Vec α × β}

/-- A point that was taken is held beside what was held before; otherwise nothing changes. -/
def Adds (p : Vec α × β) (before : List (Vec α × β)) (after : Bool × Quadtree α β) : Prop :=
  after.2.items.Perm (if after.1 then p :: before else before)

theorem adds_offer {insert : Box α → Bool × Quadtree α β} (hi : ∀ box, Adds p [] (insert box))
    (box : Box α) (held : List (Vec α × β)) : Adds p held (offer box held insert) := by
  have ha := hi box.upperRight
  have hb := hi box.upperLeft
  have hc := hi box.lowerRight
  have hd := hi box.lowerLeft
  have hlast : (held ++ [p]).Perm (p :: held) := List.perm_append_comm
  unfold Adds offer at *
  rcases ea : insert box.upperRight with ⟨_ | _, a⟩
  · rcases eb : insert box.upperLeft with ⟨_ | _, b⟩
    · rcases ec : insert box.lowerRight with ⟨_ | _, c⟩
      · rcases ed : insert box.lowerLeft with ⟨_ | _, d⟩
        · simp_all [items]
        · simp_all [items]
      · simp_all [items]
    · simp_all [items]
  · simp_all [items]

theorem adds_sprout (capacity : Nat) (p : Vec α × β) (depth : Nat) (box : Box α) :
    Adds p [] (sprout capacity p depth box) := by
  induction depth generalizing box with
  | zero =>
    unfold sprout
    split
    · exact .nil
    · split
      · exact .refl [p]
      · exact .nil
  | succ depth ih =>
    unfold sprout
    split
    · exact .nil
    · split
      · exact .refl [p]
      · exact adds_offer ih box []

/-- A point that is taken is added to what is held, and nothing is lost or doubled. -/
theorem adds_insert (capacity : Nat) (p : Vec α × β) (t : Quadtree α β) :
    Adds p t.items (t.insert capacity p) := by
  induction t with
  | leaf box held =>
    unfold insert
    split
    · exact .refl held
    · split
      · exact List.perm_append_comm
      · exact adds_offer (adds_sprout capacity p maxDepth) box held
  | split box held a b c d iha ihb ihc ihd =>
    unfold Adds at iha ihb ihc ihd ⊢
    unfold insert
    split
    · exact .refl _
    split
    · have hlast : (held ++ [p]).Perm (p :: held) := List.perm_append_comm
      exact (((hlast.append_right _).append_right _).append_right _).append_right _
    -- the quarters before the one that takes the point refuse it and hold what they held
    rcases ea : insert capacity p a with ⟨_ | _, a'⟩ <;> rw [ea] at iha
    · have ha := iha.append_left held
      rcases eb : insert capacity p b with ⟨_ | _, b'⟩ <;> rw [eb] at ihb
      · have hb := ha.append ihb
        rcases ec : insert capacity p c with ⟨_ | _, c'⟩ <;> rw [ec] at ihc
        · have hc := hb.append ihc
          rcases ed : insert capacity p d with ⟨_ | _, d'⟩ <;> rw [ed] at ihd
          · exact hc.append ihd
          · exact (hc.append ihd).trans List.perm_middle
        · exact ((hb.append ihc).trans List.perm_middle).append_right _
      · exact (((ha.append ihb).trans List.perm_middle).append_right _).append_right _
    · exact ((((iha.append_left held).trans List.perm_middle).append_right _).append_right
        _).append_right _

theorem mem_insert {capacity : Nat} {t : Quadtree α β} :
    q ∈ (t.insert capacity p).2.items ↔ q ∈ t.items ∨ ((t.insert capacity p).1 ∧ q = p) := by
  rw [(adds_insert capacity p t).mem_iff]
  cases (t.insert capacity p).1 <;> simp [or_comm]

theorem mem_of_query {range : Box α} {t : Quadtree α β} (h : q ∈ t.query range) :
    q ∈ t.items := by
  induction t with
  | leaf box held =>
    unfold query at h
    split at h
    · exact (List.mem_filter.mp h).1
    · cases h
  | split box held a b c d iha ihb ihc ihd =>
    unfold query at h
    split at h
    · simp only [List.mem_append, items] at h ⊢
      have hheld : q ∈ within range held → q ∈ held := fun hm => (List.mem_filter.mp hm).1
      grind
    · cases h

theorem closest_mem {place : Vec α} {ps : List (Vec α × β)} (h : closest place ps = some q) :
    q ∈ ps := by
  cases ps with
  | nil => cases h
  | cons p ps =>
    simp only [closest, Option.some.injEq] at h
    subst h
    induction ps generalizing p with
    | nil => exact List.mem_cons_self
    | cons r ps ih =>
      simp only [List.foldl_cons]
      split
      · exact List.mem_cons_of_mem p (ih r)
      · have hm := ih p
        simp only [List.mem_cons] at hm ⊢
        rcases hm with he | hm
        · exact .inl he
        · exact .inr (.inr hm)

theorem searchFrom_mem {t : Quadtree α β} {place : Vec α} {covering half : α} {fuel : Nat}
    (h : t.searchFrom place covering half fuel = some q) : q ∈ t.items := by
  induction fuel generalizing half with
  | zero => cases h
  | succ fuel ih =>
    unfold searchFrom at h
    split at h
    · rename_i best hbest
      split at h
      · cases h
        exact mem_of_query (closest_mem hbest)
      · exact ih h
    · split at h
      · cases h
      · exact ih h

end Quadtree

/-- There is a box around any points, if there are any. -/
theorem Box.around_of_ne_nil [Scalar α] (padding : α) {ps : List (Vec α)} (h : ps ≠ []) :
    ∃ box, Box.around padding ps = .ok box := by
  cases ps with
  | nil => exact absurd rfl h
  | cons p ps => exact ⟨_, rfl⟩

namespace PointIndex

variable [Scalar α] {t : PointIndex α β}

theorem mem_insertAll {t' : PointIndex α β} {ps : List (Vec α × β)} (h : t.insertAll ps = .ok t')
    {q : Vec α × β} (hq : q ∈ t'.tree.items) : q ∈ t.tree.items ∨ q ∈ ps := by
  induction ps generalizing t with
  | nil =>
    cases h
    exact .inl hq
  | cons p ps ih =>
    unfold insertAll offer at h
    split at h
    · cases h
    · rcases ih h with hm | hm
      · rcases Quadtree.mem_insert.mp hm with hm | ⟨_, rfl⟩
        · exact .inl hm
        · exact .inr List.mem_cons_self
      · exact .inr (List.mem_cons_of_mem p hm)

/-- The nearest of some points is one of them. -/
theorem nearest_mem {box : Box α} {capacity : Nat} {ps : List (Vec α × β)}
    (h : (empty box capacity).insertAll ps = .ok t) {place : Vec α} {half : α} {q : Vec α × β}
    (hq : t.nearest place half = some q) : q ∈ ps := by
  unfold nearest at hq
  split at hq
  · cases hq
  · rcases mem_insertAll h (Quadtree.searchFrom_mem hq) with hm | hm
    · cases hm
    · exact hm

end PointIndex
end Arboretum
