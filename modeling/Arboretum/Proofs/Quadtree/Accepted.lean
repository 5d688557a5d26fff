import Arboretum.Proofs.Quadtree.Tiling

/-!
Insertions one after the other, in exact arithmetic. The index holds what it accepted, each as often
as it was accepted. It accepts what lies in its box, up to the depth at which insertion gives up;
many equal points reach that depth.
-/
namespace Arboretum

variable {α β : Type}

namespace Quadtree

variable {capacity : Nat} {p : Vec ℝ}

/-- A quarter that a point is not in holds no copy of it. -/
theorem Formed.empty_of_elsewhere {t : Quadtree ℝ β} (h : Formed capacity t)
    (hp : ∀ q ∈ t.items, q.1 = p) (hbox : ¬ t.box.contains p = true) : t.items.length = 0 := by
  refine List.length_eq_zero_iff.mpr (List.eq_nil_iff_forall_not_mem.mpr fun q hq => hbox ?_)
  have hin := h.inside q hq
  rwa [hp q hq] at hin

theorem descent_split {b : Box ℝ} {held : List (Vec ℝ × β)} (a₁ a₂ a₃ a₄ : Quadtree ℝ β)
    (full : held.length = capacity) (hbox : b.contains p = true) :
    (split b held a₁ a₂ a₃ a₄).descent capacity p =
      1 + max (max (a₁.descent capacity p) (a₂.descent capacity p))
        (max (a₃.descent capacity p) (a₄.descent capacity p)) := by
  rw [descent, hbox, full]
  simp

/-- Copies of one point fill node after node, each inside the one before. -/
theorem Formed.length_lt_of_copies (hc : 0 < capacity) {t : Quadtree ℝ β} (h : Formed capacity t)
    (hp : ∀ q ∈ t.items, q.1 = p) (hbox : t.box.contains p = true) :
    t.items.length < capacity * (t.descent capacity p + 1) := by
  induction h with
  | @leaf b held inside room =>
    replace hbox : b.contains p = true := hbox
    rw [descent, hbox]
    by_cases hfull : capacity ≤ held.length
    · simp only [items, hfull, decide_true, Bool.and_self, if_true]
      omega
    · simp only [items, hfull, decide_false, Bool.and_false, Bool.false_eq_true, if_false]
      omega
  | @split b held a₁ a₂ a₃ a₄ inside full h₁ h₂ h₃ h₄ f₁ f₂ f₃ f₄ ih₁ ih₂ ih₃ ih₄ =>
    replace hbox : b.contains p = true := hbox
    have hp₁ : ∀ q ∈ a₁.items, q.1 = p := fun q hq => hp q (by simp [items, hq])
    have hp₂ : ∀ q ∈ a₂.items, q.1 = p := fun q hq => hp q (by simp [items, hq])
    have hp₃ : ∀ q ∈ a₃.items, q.1 = p := fun q hq => hp q (by simp [items, hq])
    have hp₄ : ∀ q ∈ a₄.items, q.1 = p := fun q hq => hp q (by simp [items, hq])
    have e₁ := f₁.empty_of_elsewhere hp₁
    have e₂ := f₂.empty_of_elsewhere hp₂
    have e₃ := f₃.empty_of_elsewhere hp₃
    have e₄ := f₄.empty_of_elsewhere hp₄
    specialize ih₁ hp₁
    specialize ih₂ hp₂
    specialize ih₃ hp₃
    specialize ih₄ hp₄
    rw [h₁, Box.upperRight_contains] at e₁ ih₁
    rw [h₂, Box.upperLeft_contains] at e₂ ih₂
    rw [h₃, Box.lowerRight_contains] at e₃ ih₃
    rw [h₄, Box.lowerLeft_contains] at e₄ ih₄
    have hstep : ∀ d, d ≤ max (max (a₁.descent capacity p) (a₂.descent capacity p))
        (max (a₃.descent capacity p) (a₄.descent capacity p)) →
        capacity + capacity * (d + 1) ≤
          capacity * ((Quadtree.split b held a₁ a₂ a₃ a₄).descent capacity p + 1) := by
      intro d hd
      rw [descent_split _ _ _ _ full hbox, add_comm, ← Nat.mul_succ]
      exact Nat.mul_le_mul_left capacity (by omega)
    have s₁ := hstep (a₁.descent capacity p) (by omega)
    have s₂ := hstep (a₂.descent capacity p) (by omega)
    have s₃ := hstep (a₃.descent capacity p) (by omega)
    have s₄ := hstep (a₄.descent capacity p) (by omega)
    simp only [items, List.length_append, full]
    -- the point lies in one quarter, and the other three hold nothing
    have hx := lt_or_ge p.x b.centre.x
    have hy := lt_or_ge p.y b.centre.y
    grind

end Quadtree

namespace PointIndex

/-- The points that were taken, by the answers. -/
def accepted (es : List (Vec α × β)) (answers : List (Except Fault Bool)) : List (Vec α × β) :=
  (es.zip answers).filterMap fun
    | (e, .ok true) => some e
    | _ => none

theorem accepted_cons (e : Vec α × β) (es : List (Vec α × β)) (answer : Except Fault Bool)
    (answers : List (Except Fault Bool)) :
    accepted (e :: es) (answer :: answers) = accepted [e] [answer] ++ accepted es answers := by
  unfold accepted
  rw [List.zip_cons_cons, ← List.singleton_append, List.filterMap_append]
  rfl

section
variable [Scalar α]

/-- Adds a point and tells whether it was taken. An index that gives up stays as it was. -/
def add (e : Vec α × β) (t : PointIndex α β) : Except Fault Bool × PointIndex α β :=
  match t.offer e.1 e.2 with
  | .ok (taken, t) => (.ok taken, t)
  | .error fault => (.error fault, t)

/-- An index over a box, in form, that holds certain points. -/
structure Holds (box : Box α) (capacity : Nat) (entries : List (Vec α × β))
    (t : PointIndex α β) : Prop where
  room : t.capacity = capacity
  frame : t.tree.box = box
  formed : t.tree.Formed capacity
  size : t.size = t.tree.items.length
  items : t.tree.items.Perm entries

variable {box : Box α} {capacity : Nat} {entries : List (Vec α × β)} {t : PointIndex α β}

theorem holds_empty (box : Box α) (capacity : Nat) :
    Holds (β := β) box capacity [] (empty box capacity) :=
  ⟨rfl, rfl, .empty box, rfl, .nil⟩

theorem add_of_buries {e : Vec α × β} (h : t.tree.buries t.capacity e.1 = true) :
    add e t = (.error .tooDeep, t) := by
  unfold add offer
  rw [if_pos h]

theorem add_of_not_buries {e : Vec α × β} (h : ¬ t.tree.buries t.capacity e.1 = true) :
    add e t = (.ok (t.insert e.1 e.2).1, (t.insert e.1 e.2).2) := by
  unfold add offer
  rw [if_neg h]

theorem Holds.of_insert (hc : 0 < capacity) (h : Holds box capacity entries t) (e : Vec α × β) :
    Holds box capacity (if (t.insert e.1 e.2).1 then e :: entries else entries)
      (t.insert e.1 e.2).2 := by
  obtain ⟨rfl, rfl, hformed, hsize, hitems⟩ := h
  have hadds := Quadtree.adds_insert t.capacity e t.tree
  refine ⟨rfl, Quadtree.box_insert t.capacity e t.tree, hformed.insert hc e, ?_, ?_⟩
  · have hlen := hadds.length_eq
    unfold insert
    cases ht : (t.tree.insert t.capacity e).1 <;> simp_all
  · refine hadds.trans ?_
    unfold insert
    cases ht : (t.tree.insert t.capacity e).1
    · exact hitems
    · exact hitems.cons e

/-- Of few points none comes to lie too deep. -/
theorem Holds.not_buries (hc : 0 < capacity) (h : Holds box capacity entries t)
    (hfew : entries.length < capacity * (Quadtree.maxNesting + 1)) (p : Vec α) :
    ¬ t.tree.buries t.capacity p = true := by
  have hdescent := h.formed.descent_le p
  rw [h.items.length_eq] at hdescent
  have hroom : t.tree.descent capacity p < Quadtree.maxNesting + 1 :=
    Nat.lt_of_mul_lt_mul_left (a := capacity) (Nat.lt_of_le_of_lt hdescent hfew)
  rw [h.room, Quadtree.buries, if_neg (Nat.ne_of_gt hc), decide_eq_true_eq]
  exact Nat.not_lt.mpr (Nat.le_of_lt_succ hroom)

theorem Holds.insertAll (hc : 0 < capacity) (es : List (Vec α × β))
    (h : Holds box capacity entries t)
    (hfew : entries.length + es.length ≤ capacity * (Quadtree.maxNesting + 1)) :
    ∃ t', t.insertAll es = .ok t' := by
  induction es generalizing t entries with
  | nil => exact ⟨t, rfl⟩
  | cons e es ih =>
    rw [List.length_cons] at hfew
    have hnot := h.not_buries hc (by omega) e.1
    have hnext := h.of_insert hc e
    unfold PointIndex.insertAll offer
    rw [if_neg hnot]
    refine ih hnext ?_
    split
    · rw [List.length_cons]
      omega
    · omega

/-- Whatever is offered, an index can only give up because it lies too deep. -/
theorem tooDeep_of_insertAll (es : List (Vec α × β)) {t : PointIndex α β} {e : Fault}
    (h : t.insertAll es = .error e) : e = .tooDeep := by
  induction es generalizing t with
  | nil => cases h
  | cons d es ih =>
    unfold PointIndex.insertAll offer at h
    split at h
    · cases h
      rfl
    · exact ih h

theorem Holds.of_add (hc : 0 < capacity) (h : Holds box capacity entries t) (e : Vec α × β) :
    Holds box capacity (accepted [e] [(add e t).1] ++ entries) (add e t).2 := by
  by_cases hb : t.tree.buries t.capacity e.1 = true
  · rw [add_of_buries hb]
    exact h
  · rw [add_of_not_buries hb]
    have hins := h.of_insert hc e
    cases ht : (t.insert e.1 e.2).1 <;> rw [ht] at hins <;> exact hins

/-- After a run an index holds what it held and what it accepted. -/
theorem Holds.of_history (hc : 0 < capacity) (es : List (Vec α × β))
    (h : Holds box capacity entries t) :
    Holds box capacity (accepted es (history add es t).1 ++ entries)
      (history add es t).2 := by
  induction es generalizing t entries with
  | nil => exact h
  | cons e es ih =>
    have hrest := ih (h.of_add hc e)
    simp only [history]
    rw [accepted_cons]
    exact { hrest with items := hrest.items.trans (by
      rw [List.append_assoc]
      exact List.perm_append_comm_assoc ..) }

/-- The answers to insertions into an empty index, and the index after them. -/
def filled (box : Box α) (capacity : Nat) (es : List (Vec α × β)) :
    List (Except Fault Bool) × PointIndex α β :=
  history add es (empty box capacity)

theorem holds_filled (hc : 0 < capacity) (box : Box α) (es : List (Vec α × β)) :
    Holds box capacity (accepted es (filled box capacity es).1) (filled box capacity es).2 := by
  have h := (holds_empty box capacity).of_history hc es
  rwa [List.append_nil] at h

end

variable {box : Box ℝ} {capacity : Nat} {entries : List (Vec ℝ × β)} {t : PointIndex ℝ β}

theorem Holds.insert_taken (hc : 0 < capacity) (h : Holds box capacity entries t) (e : Vec ℝ × β) :
    (t.insert e.1 e.2).1 = box.contains e.1 := by
  rw [← h.frame, ← h.formed.insert_taken hc e, ← h.room]
  rfl

/-- An index takes exactly the points of its box, unless they would come to lie too deep. -/
theorem Holds.add_answer (hc : 0 < capacity) (h : Holds box capacity entries t) (e : Vec ℝ × β) :
    (add e t).1 = if Quadtree.maxNesting < t.tree.descent capacity e.1 then .error .tooDeep
      else .ok (box.contains e.1) := by
  have hburies : t.tree.buries t.capacity e.1 = true ↔
      Quadtree.maxNesting < t.tree.descent capacity e.1 := by
    rw [h.room, Quadtree.buries, if_neg (Nat.ne_of_gt hc), decide_eq_true_iff]
  split
  · rename_i hdeep
    rw [add_of_buries (hburies.mpr hdeep)]
  · rename_i hdeep
    rw [add_of_not_buries (mt hburies.mp hdeep), h.insert_taken hc e]

/-- Too few points to lie too deep are answered by the box alone. -/
theorem Holds.answers (hc : 0 < capacity) (es : List (Vec ℝ × β))
    (h : Holds box capacity entries t)
    (hfew : entries.length + es.length ≤ capacity * (Quadtree.maxNesting + 1)) :
    (history add es t).1 = es.map fun e => .ok (box.contains e.1) := by
  induction es generalizing t entries with
  | nil => rfl
  | cons e es ih =>
    rw [List.length_cons] at hfew
    have hroom : t.tree.descent capacity e.1 < Quadtree.maxNesting + 1 := by
      refine Nat.lt_of_mul_lt_mul_left (a := capacity) ?_
      have hdescent := h.formed.descent_le e.1
      rw [h.items.length_eq] at hdescent
      omega
    have hanswer := h.add_answer hc e
    rw [if_neg (Nat.not_lt.mpr (Nat.le_of_lt_succ hroom))] at hanswer
    have hnext := ih (h.of_add hc e) (by
      rw [hanswer]
      cases box.contains e.1 <;> simp [accepted] <;> omega)
    simp only [history, List.map_cons, hanswer, hnext]

/-- After any run of insertions the size counts what was accepted, and a query finds what was
accepted in its range, each point as often as it was accepted. The next point is accepted exactly
when it lies in the box, unless more full nodes than the index can nest would hand it on; that
takes more points than those nodes hold. -/
theorem loses_and_doubles_nothing (hc : 1 ≤ capacity) (box : Box ℝ) (es : List (Vec ℝ × β)) :
    (filled box capacity es).2.size = (accepted es (filled box capacity es).1).length ∧
      (∀ range, ((filled box capacity es).2.query range).Perm
        ((accepted es (filled box capacity es).1).filter fun q => range.contains q.1)) ∧
      (∀ e, (add e (filled box capacity es).2).1 =
        if Quadtree.maxNesting < (filled box capacity es).2.tree.descent capacity e.1 then
          .error .tooDeep
        else .ok (box.contains e.1)) ∧
      (es.length ≤ capacity * (Quadtree.maxNesting + 1) →
        (filled box capacity es).1 = es.map fun e => .ok (box.contains e.1)) := by
  have h := holds_filled hc box es
  refine ⟨?_, fun range => ?_, h.add_answer hc, fun hfew => ?_⟩
  · rw [h.size, h.items.length_eq]
  · rw [query, h.formed.query_eq]
    exact h.items.filter _
  · refine (holds_empty box capacity).answers hc es ?_
    rwa [List.length_nil, Nat.zero_add]

/-- Two copies are both held; a point on the right edge is not in the box. -/
theorem loses_and_doubles_nothing_copies :
    let e : Vec ℝ × Unit := (⟨0, 0⟩, ())
    let edge : Vec ℝ × Unit := (⟨8, 0⟩, ())
    let box : Box ℝ := ⟨⟨0, 0⟩, ⟨8, 8⟩⟩
    1 ≤ 1 ∧ (filled box 1 [e, edge, e]).1 = [.ok true, .ok false, .ok true] ∧
      (filled box 1 [e, edge, e]).2.size = 2 ∧
      ((filled box 1 [e, edge, e]).2.query box).Perm [e, e] := by
  intro e edge box
  have hin : box.contains e.1 = true := Box.contains_iff.mpr (by norm_num [e, box])
  have hout : box.contains edge.1 = false :=
    Bool.eq_false_iff.mpr fun h => absurd (Box.contains_iff.mp h) (by norm_num [edge, box])
  obtain ⟨hsize, hquery, -, hanswers⟩ := loses_and_doubles_nothing (le_refl 1) box [e, edge, e]
  replace hanswers := hanswers (by decide)
  simp only [List.map_cons, List.map_nil, hin, hout] at hanswers
  have haccepted : accepted [e, edge, e] (filled box 1 [e, edge, e]).1 = [e, e] := by
    rw [hanswers]
    rfl
  rw [haccepted] at hsize hquery
  refine ⟨le_refl 1, hanswers, hsize, ?_⟩
  simpa [hin] using hquery box

/-- A copy of all the points that an index holds lies too deep just if a chain of nodes is full. -/
theorem Holds.buries_copies (hc : 0 < capacity) (h : Holds box capacity entries t) {p : Vec ℝ}
    (hbox : box.contains p = true) (hcopies : ∀ q ∈ entries, q.1 = p) :
    t.tree.buries t.capacity p = true ↔
      capacity * (Quadtree.maxNesting + 1) ≤ entries.length := by
  have hlow := h.formed.descent_le p
  have hhigh := h.formed.length_lt_of_copies hc
    (fun q hq => hcopies q (h.items.mem_iff.mp hq)) (h.frame ▸ hbox)
  rw [h.items.length_eq] at hlow hhigh
  rw [h.room, Quadtree.buries, if_neg (Nat.ne_of_gt hc), decide_eq_true_iff]
  constructor
  · exact fun hdeep => (Nat.mul_le_mul_left capacity hdeep).trans hlow
  · intro hfull
    have hdeep : Quadtree.maxNesting + 1 < t.tree.descent capacity p + 1 :=
      Nat.lt_of_mul_lt_mul_left (a := capacity) (hfull.trans_lt hhigh)
    exact Nat.lt_of_succ_lt_succ hdeep

/-- Of copies of one point an index takes as many as a chain of nodes holds, and no more. -/
theorem Holds.copies (hc : 0 < capacity) (h : Holds box capacity entries t) {e : Vec ℝ × β}
    (hbox : box.contains e.1 = true) (hcopies : ∀ q ∈ entries, q.1 = e.1) (n : Nat) :
    (history add (List.replicate n e) t).1 =
      List.replicate (min n (capacity * (Quadtree.maxNesting + 1) - entries.length)) (.ok true) ++
        List.replicate (n - (capacity * (Quadtree.maxNesting + 1) - entries.length))
          (.error .tooDeep) := by
  induction n generalizing t entries with
  | zero => simp [history]
  | succ n ih =>
    have hburies := h.buries_copies hc hbox hcopies
    have hnext := h.of_add hc e
    rw [List.replicate_succ]
    simp only [history]
    by_cases hroom : entries.length < capacity * (Quadtree.maxNesting + 1)
    · have hanswer : (add e t).1 = .ok true := by
        rw [add_of_not_buries (mt hburies.mp (Nat.not_le_of_gt hroom)), h.insert_taken hc e, hbox]
      rw [hanswer] at hnext ⊢
      have hlen : (accepted [e] [.ok true] ++ entries).length = entries.length + 1 := by
        simp [accepted]
      rw [ih hnext (by simpa [accepted] using hcopies), hlen,
        show min (n + 1) (capacity * (Quadtree.maxNesting + 1) - entries.length) =
          min n (capacity * (Quadtree.maxNesting + 1) - (entries.length + 1)) + 1 by omega,
        show n + 1 - (capacity * (Quadtree.maxNesting + 1) - entries.length) =
          n - (capacity * (Quadtree.maxNesting + 1) - (entries.length + 1)) by omega]
      rfl
    · have hfull : capacity * (Quadtree.maxNesting + 1) ≤ entries.length := Nat.le_of_not_lt hroom
      rw [add_of_buries (hburies.mpr hfull)] at hnext ⊢
      rw [ih hnext hcopies, show (accepted [e] [.error .tooDeep] ++ entries) = entries from rfl,
        Nat.sub_eq_zero_of_le hfull, Nat.min_zero, Nat.min_zero]
      rfl

/-- An index over a box around one place gives up on more points there than a chain of nodes
holds. -/
theorem Holds.insertAll_copies (hc : 0 < capacity) (es : List (Vec ℝ × β))
    (h : Holds box capacity entries t) {p : Vec ℝ} (hbox : box.contains p = true)
    (hcopies : ∀ q ∈ entries, q.1 = p) (hmore : ∀ e ∈ es, e.1 = p)
    (hroom : entries.length ≤ capacity * (Quadtree.maxNesting + 1))
    (hmany : capacity * (Quadtree.maxNesting + 1) < entries.length + es.length) :
    t.insertAll es = .error .tooDeep := by
  induction es generalizing t entries with
  | nil => exact absurd hmany (Nat.not_lt_of_ge hroom)
  | cons e es ih =>
    have he : e.1 = p := hmore e List.mem_cons_self
    have hburies := h.buries_copies hc hbox hcopies
    rw [← he] at hburies
    unfold PointIndex.insertAll offer
    by_cases hfull : capacity * (Quadtree.maxNesting + 1) ≤ entries.length
    · rw [if_pos (hburies.mpr hfull)]
      rfl
    · have hnext := h.of_insert hc e
      rw [if_pos ((h.insert_taken hc e).trans (he ▸ hbox))] at hnext
      rw [if_neg (mt hburies.mp hfull)]
      refine ih hnext ?_ (fun d hd => hmore d (List.mem_cons_of_mem e hd)) ?_ ?_
      · exact List.forall_mem_cons.mpr ⟨he, hcopies⟩
      · exact Nat.lt_of_not_le hfull
      · rw [List.length_cons] at hmany ⊢
        omega

/-- Six hundred copies of one point are more than nodes of capacity one can nest. -/
theorem copies_too_deep :
    let e : Vec ℝ × Unit := (⟨0, 0⟩, ())
    let box : Box ℝ := ⟨⟨0, 0⟩, ⟨8, 8⟩⟩
    box.contains e.1 = true ∧ .error .tooDeep ∈ (filled box 1 (List.replicate 600 e)).1 := by
  intro e box
  have hbox : box.contains e.1 = true := by
    rw [Box.contains_iff]
    norm_num [e, box]
  have hanswers := (holds_empty box 1).copies Nat.one_pos hbox
    (fun _ hq => absurd hq List.not_mem_nil) 600
  refine ⟨hbox, ?_⟩
  rw [filled, hanswers]
  exact List.mem_append_right _ (List.mem_replicate.mpr ⟨by decide, rfl⟩)

end PointIndex
end Arboretum
