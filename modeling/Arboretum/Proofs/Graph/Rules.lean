import Arboretum.Graph.Brace
import Arboretum.Graph.Fruit
import Arboretum.Proofs.Action
import Arboretum.Proofs.Quadtree

/-!
What each operation of a builder comes down to. What is shown of the points, pins and springs that
an operation asks for holds of the operation by its rule here, whatever else it reads on the way.
-/
namespace Arboretum

open Arboretum.Action

variable {α : Type}

/-- The cells of a segment's start and tip. -/
def Segment.cells [Scalar α] (s : Segment α) : Except Fault (Cell × Cell) := do
  let start ← Cell.of s.start
  let tip ← Cell.of s.tip
  return (start, tip)

theorem Segment.of_cells [Scalar α] {s : Segment α} {start tip : Cell}
    (h : s.cells = .ok (start, tip)) : Cell.of s.start = .ok start ∧ Cell.of s.tip = .ok tip := by
  obtain ⟨_, hstart, h⟩ := bind_ok_iff.mp h
  obtain ⟨_, htip, h⟩ := bind_ok_iff.mp h
  cases h
  exact ⟨hstart, htip⟩

namespace Graph

/-! ### What a body keeps -/

section
variable {g : Graph α} {x : Nat}

theorem joint?_mem {cell : Cell} {id : Nat} (h : g.joint? cell = some id) :
    id ∈ g.allPoints := by
  obtain ⟨j, hj, rfl⟩ := Option.map_eq_some_iff.mp h
  exact List.mem_append_left _ (List.mem_map_of_mem (List.mem_of_find?_eq_some hj))

theorem mem_allPoints_joint {cell : Cell} {id : Nat} :
    x ∈ { g with joints := g.joints ++ [(cell, id)] }.allPoints ↔ x ∈ g.allPoints ∨ x = id := by
  simp only [allPoints, List.map_append, List.mem_append, List.map_cons, List.map_nil,
    List.mem_singleton]
  exact or_right_comm

theorem mem_allPoints_hanging {hanging : Hanging α} :
    x ∈ { g with hangings := g.hangings ++ [hanging] }.allPoints ↔
      x ∈ g.allPoints ∨ x = hanging.point := by
  simp only [allPoints, List.map_append, List.mem_append, List.map_cons, List.map_nil,
    List.mem_singleton]
  exact or_assoc.symm

theorem mem_allSprings_hanging {hanging : Hanging α} :
    x ∈ { g with hangings := g.hangings ++ [hanging] }.allSprings ↔
      x ∈ g.allSprings ∨ x = hanging.spring := by
  simp only [allSprings, List.map_append, List.mem_append, List.map_cons, List.map_nil,
    List.mem_singleton]
  exact or_assoc.symm

theorem mem_allSprings_brace {pair : Nat × Nat} {serial : Nat} :
    x ∈ { g with braced := pair :: g.braced, braces := g.braces ++ [serial] }.allSprings ↔
      x ∈ g.allSprings ∨ x = serial := by
  simp only [allSprings, List.mem_append, List.mem_singleton]
  rw [← or_assoc, or_right_comm]

theorem mem_put {κ β : Type} [BEq κ] {key : κ} {value : β} {entries : List (κ × β)}
    {e : κ × β} (h : e ∈ put key value entries) : e.2 = value ∨ ∃ d ∈ entries, d.2 = e.2 := by
  induction entries with
  | nil =>
    rw [put, List.mem_singleton] at h
    exact .inl (by rw [h])
  | cons d rest ih =>
    unfold put at h
    split at h
    · rcases List.mem_cons.mp h with rfl | h
      · exact .inl rfl
      · exact .inr ⟨e, List.mem_cons_of_mem d h, rfl⟩
    · rcases List.mem_cons.mp h with rfl | h
      · exact .inr ⟨_, List.mem_cons_self, rfl⟩
      · rcases ih h with hv | ⟨c, hc, he⟩
        · exact .inl hv
        · exact .inr ⟨c, List.mem_cons_of_mem d hc, he⟩

/-- A new strand may take the place of another. -/
theorem mem_allSprings_strand {i : Int} {serial : Nat} {s : Segment α}
    (h : x ∈ { g with strands := put i (serial, s) g.strands }.allSprings) :
    x ∈ g.allSprings ∨ x = serial := by
  simp only [allSprings, List.mem_append, List.mem_map] at h ⊢
  rcases h with (⟨e, he, rfl⟩ | h) | h
  · rcases mem_put he with hv | ⟨d, hd, he⟩
    · exact .inr (by rw [hv])
    · exact .inl (.inl (.inl ⟨d, hd, by rw [he]⟩))
  · exact .inl (.inl (.inr h))
  · exact .inl (.inr h)

end

/-! ### Reading and calling the world -/

@[simp] theorem inWorld_result {ρ : Type} (x : Action (Note α) (World α) ρ)
    (s : World α × Graph α) : (inWorld x s).result = (x s.1).result := rfl

@[simp] theorem inWorld_state {ρ : Type} (x : Action (Note α) (World α) ρ)
    (s : World α × Graph α) : (inWorld x s).state = ((x s.1).state, s.2) := rfl

@[simp] theorem inWorld_notes {ρ : Type} (x : Action (Note α) (World α) ρ)
    (s : World α × Graph α) :
    (inWorld x s).notes = (x s.1).notes.map fun (n, w) => (n, (w, s.2)) := rfl

theorem meets_reading {ρ : Type} {f : World α × Graph α → Build α ρ}
    {kept : World α × Graph α → Prop} {post : ρ → World α × Graph α → Prop}
    {s : World α × Graph α} (h : Meets (· = s) (f s) kept post) :
    Meets (· = s) (reading >>= f) kept post := by
  rintro t rfl
  exact h t rfl

variable [Scalar α] {kept : World α × Graph α → Prop} {w : World α} {g : Graph α}

/-! ### Joints -/

/-- The joint of a cell is a new point, or the one that is there. If it has to be fixed, one that is
there is read, and pinned if it is loose. -/
theorem meets_jointAt_of {cell : Cell} {spot : Vec α} {mass : α} {fixed : Bool}
    {post : Nat → World α × Graph α → Prop}
    (hnew : g.joint? cell = none →
      Meets (· = (w, g)) (inWorld (World.addPoint spot mass fixed)) kept
        fun id t => post id (t.1, { t.2 with joints := t.2.joints ++ [(cell, id)] }))
    (hlost : ∀ id e, g.joint? cell = some id → fixed → w.particle id = .error e → kept (w, g))
    (hfound : ∀ id, g.joint? cell = some id →
      (fixed → ∃ p, w.particle id = .ok p ∧ p.pinned) → post id (w, g))
    (hpinned : ∀ id p, g.joint? cell = some id → fixed → w.particle id = .ok p →
      p.pinned = false →
      Meets (· = (w, g)) (inWorld (World.pin (w.point id))) kept fun _ => post id) :
    Meets (· = (w, g)) (jointAt cell spot mass fixed) kept post := by
  unfold jointAt
  apply meets_reading
  dsimp only
  cases hj : g.joint? cell with
  | none =>
    exact (hnew hj).bind fun id => Meets.answer (.modify fun _ h => h)
  | some id =>
    dsimp only
    split
    · rename_i hfixed
      refine Meets.ofExcept_bind (fun e => hlost id e hj hfixed) fun p hp => ?_
      split
      · rename_i hloose
        exact (hpinned id p hj hfixed hp (by simpa using hloose)).answer
      · rename_i hdone
        exact .pure fun t ht => ht ▸ hfound id hj fun _ => ⟨p, hp, by simpa using hdone⟩
    · rename_i hloose
      exact .pure fun t ht => ht ▸ hfound id hj fun hfixed => absurd hfixed hloose

/-! ### Segments -/

/-- A segment whose ends cannot be read stops its builder. -/
theorem materialize_unread {s : Segment α} {e : Fault} (h : s.cells = .error e)
    (index : Option Int) : materialize s index = fail e := by
  unfold Segment.cells at h
  unfold materialize
  cases hstart : Cell.of s.start with
  | error e' =>
    rw [hstart] at h
    cases h
    rfl
  | ok start =>
    cases htip : Cell.of s.tip with
    | error e' =>
      rw [hstart, htip] at h
      cases h
      rfl
    | ok tip =>
      rw [hstart, htip] at h
      cases h

/-- A segment within one cell has no strand. -/
theorem materialize_within {s : Segment α} {cell : Cell} (h : s.cells = .ok (cell, cell))
    (index : Option Int) : materialize s index = do
      Action.note (.segmentCollapsed index cell)
      return none := by
  obtain ⟨hstart, htip⟩ := Segment.of_cells h
  unfold materialize
  rw [hstart, htip]
  simp only [ofExcept_ok, pure_bind, if_pos]

theorem materialize_unmeasured {s : Segment α} {start tip : Cell}
    (hcells : s.cells = .ok (start, tip)) (hne : start ≠ tip) {e : Fault}
    (hdepth : (Scalar.ofInt s.depth : Except Fault α) = .error e) (index : Option Int) :
    materialize s index = fail e := by
  obtain ⟨hstart, htip⟩ := Segment.of_cells hcells
  unfold materialize
  rw [hstart, htip, hdepth]
  simp only [ofExcept_ok, pure_bind, if_neg hne]
  exact eq_of_apply fun _ => rfl

/-- A segment between two cells asks for their joints, the one at the start first, and for a strand
between them. -/
theorem meets_materialize_between {s : Segment α} {start tip : Cell} {index : Option Int}
    {post : Option Nat → World α × Graph α → Prop} (hcells : s.cells = .ok (start, tip))
    (hne : start ≠ tip) (started : Nat → World α × Graph α → Prop)
    (ended : Nat → Nat → World α × Graph α → Prop)
    (hdepth : ∀ e, (Scalar.ofInt s.depth : Except Fault α) = .error e → kept (w, g))
    (hstart : ∀ spot mass, Meets (· = (w, g)) (jointAt start spot mass s.isRoot) kept started)
    (hseen : ∀ a t e, started a t → t.1.particle a = .error e → kept t)
    (htip : ∀ a spot mass, Meets (started a) (jointAt tip spot mass s.isRoot) kept (ended a))
    (hspring : ∀ a b w' g' stiffness, ended a b (w', g') → Meets (· = (w', g'))
      (inWorld (World.addSpring (some (w'.point a)) (some (w'.point b)) stiffness
        (some (s.length * g.scale)) World.defaultDamping)) kept fun made t =>
        (made = none ∨ index = none → post made t) ∧
          ∀ serial i, made = some serial → index = some i →
            post made (t.1, { t.2 with strands := put i (serial, s) t.2.strands })) :
    Meets (· = (w, g)) (materialize s index) kept post := by
  obtain ⟨hs, ht⟩ := Segment.of_cells hcells
  unfold materialize
  rw [hs, ht]
  simp only [ofExcept_ok, pure_bind, if_neg hne]
  apply meets_reading
  dsimp only
  refine Meets.ofExcept_bind hdepth fun depth _ => ?_
  refine (hstart _ _).bind fun a => Meets.each fun t₁ h₁ => ?_
  apply meets_reading
  refine Meets.ofExcept_bind (fun e => hseen a t₁ e h₁) fun now _ => ?_
  refine ((htip a _ _).one h₁).bind fun b => Meets.each fun t₂ h₂ => ?_
  apply meets_reading
  refine (hspring a b t₂.1 t₂.2 _ h₂).bind fun made => ?_
  cases made with
  | none => exact Meets.bind (Meets.note _) fun _ => .pure fun _ h => h.1 (.inl rfl)
  | some serial =>
    cases index with
    | none => exact .pure fun _ h => h.1 (.inr rfl)
    | some i => exact Meets.answer (.modify fun _ h => h.2 serial i rfl rfl)

/-- What asking for joints keeps, and a strand between two of them, building a segment keeps. What
is kept may say of some points that the builder knows them. -/
theorem keeps_materialize_of {s : Segment α} {index : Option Int}
    (known : List Nat → World α × Graph α → Prop)
    (hforget : ∀ id ids t, known (id :: ids) t → known ids t)
    (hjoint : ∀ ids cell spot mass, Meets (known ids) (jointAt cell spot mass s.isRoot) (known ids)
      fun id => known (id :: ids))
    (hspring : ∀ a b w g stiffness rest, known [b, a] (w, g) → Meets (· = (w, g))
      (inWorld (World.addSpring (some (w.point a)) (some (w.point b)) stiffness rest
        World.defaultDamping)) (known []) fun made t => known [] t ∧
          ∀ serial i, made = some serial →
            known [] (t.1, { t.2 with strands := put i (serial, s) t.2.strands })) :
    Keeps (known []) (materialize s index) := by
  cases hcells : s.cells with
  | error e =>
    rw [materialize_unread hcells]
    exact .fail e
  | ok ends =>
    obtain ⟨start, tip⟩ := ends
    by_cases hne : start = tip
    · subst tip
      rw [materialize_within hcells]
      exact .bind (.note _) fun _ => .pure _
    apply Meets.keeps
    refine Meets.each fun t ht => ?_
    apply meets_materialize_between hcells hne (fun a => known [a]) fun a b => known [b, a]
    case hdepth => exact fun _ _ => ht
    case hstart => exact fun spot mass => (hjoint [] start spot mass).one ht
    case hseen => exact fun a t _ ha _ => hforget a [] t ha
    case htip =>
      intro a spot mass
      exact (hjoint [a] tip spot mass).stop fun t ha => hforget a [] t ha
    case hspring =>
      intro a b w' g' stiffness hends
      refine (hspring a b w' g' stiffness _ hends).weaken fun made t h => ⟨fun _ => h.1, ?_⟩
      exact fun serial i hmade _ => h.2 serial i hmade

/-! ### Braces -/

/-- Is one of two segments too short, at the scale of a body, to have a direction? -/
def Short (g : Graph α) (a b : Segment α) : Prop :=
  a.length * g.scale < leastLength ∨ b.length * g.scale < leastLength

/-- There is nothing to hold between the tips of two segments, or it is held. -/
def Settled (a b : Segment α) (g : Graph α) : Prop :=
  ∃ tipA tipB, Cell.of a.tip = .ok tipA ∧ Cell.of b.tip = .ok tipB ∧
    ∀ p q, g.joint? tipA = some p → g.joint? tipB = some q →
      p = q ∨ (min p q, max p q) ∈ g.braced ∨ Short g a b

/-- Two joints that a brace can hold at a length, since none does yet. -/
structure Open (g : Graph α) (a b : Segment α) (tipA tipB : Cell) (p q : Nat) (rest : α) :
    Prop where
  cells : Cell.of a.tip = .ok tipA ∧ Cell.of b.tip = .ok tipB
  joints : g.joint? tipA = some p ∧ g.joint? tipB = some q
  apart : p ≠ q
  free : (min p q, max p q) ∉ g.braced
  long : ¬ Short g a b
  length : g.braceLength a b = .ok rest

/-- A brace passes over an opening that is settled, and asks for a spring across one that is not. -/
theorem meets_brace_of {a b : Segment α} {post : Braced → World α × Graph α → Prop}
    (hstop : ∀ e, Cell.of a.tip = .error e ∨ Cell.of b.tip = .error e ∨ ¬ Settled a b g ∧
      (g.braceLength a b = .error e ∨ (Scalar.ofInt a.depth : Except Fault α) = .error e) →
      kept (w, g))
    (hsettled : ∀ outcome, outcome.serial? = none → Settled a b g → post outcome (w, g))
    (hopen : ∀ tipA tipB p q stiffness rest, Open g a b tipA tipB p q rest → Meets (· = (w, g))
      (inWorld (World.addSpring (some (w.point p)) (some (w.point q)) stiffness (some rest)
        World.defaultDamping)) kept fun made t =>
        (made = none → post .passed t) ∧
          ∀ serial, made = some serial → post (.made serial) (t.1, { t.2 with
            braced := (min p q, max p q) :: t.2.braced, braces := t.2.braces ++ [serial] })) :
    Meets (· = (w, g)) (brace a b) kept post := by
  unfold brace
  apply meets_reading
  simp only [map_eq_pure_bind, bind_assoc, pure_bind]
  refine Meets.ofExcept_bind (fun e he => hstop e (.inl he)) fun tipA hA => ?_
  refine Meets.ofExcept_bind (fun e he => hstop e (.inr (.inl he))) fun tipB hB => ?_
  have hpassed {outcome : Braced} (hnone : outcome.serial? = none)
      (hheld : ∀ p q, g.joint? tipA = some p → g.joint? tipB = some q →
        p = q ∨ (min p q, max p q) ∈ g.braced ∨ Short g a b) :
      Meets (· = (w, g)) (Pure.pure outcome : Build α Braced) kept post :=
    .pure fun t ht => ht ▸ hsettled outcome hnone ⟨tipA, tipB, hA, hB, hheld⟩
  split
  · rename_i p q hp hq
    split
    · rename_i hheld
      have hheld : p = q ∨ (min p q, max p q) ∈ g.braced := by simpa using hheld
      refine hpassed rfl fun p' q' hp' hq' => ?_
      cases hp.symm.trans hp'
      cases hq.symm.trans hq'
      exact hheld.imp_right .inl
    rename_i hfree
    have hfree : p ≠ q ∧ (min p q, max p q) ∉ g.braced := by simpa using hfree
    split
    · rename_i hshort
      have hshort : Short g a b := by simpa [Short] using hshort
      exact hpassed rfl fun _ _ _ _ => .inr (.inr hshort)
    rename_i hlong
    have hlong : ¬ Short g a b := by simpa [Short] using hlong
    have hloose : ¬ Settled a b g := by
      intro hsettled
      obtain ⟨cellA, cellB, hA', hB', hheld⟩ := hsettled
      cases hA.symm.trans hA'
      cases hB.symm.trans hB'
      exact (hheld p q hp hq).elim hfree.1 fun hheld => hheld.elim hfree.2 hlong
    refine Meets.ofExcept_bind (fun e he => hstop e (.inr (.inr ⟨hloose, .inl he⟩)))
      fun rest hrest => ?_
    refine Meets.ofExcept_bind (fun e he => hstop e (.inr (.inr ⟨hloose, .inr he⟩)))
      fun depth _ => ?_
    have hstill : Open g a b tipA tipB p q rest :=
      ⟨⟨hA, hB⟩, ⟨hp, hq⟩, hfree.1, hfree.2, hlong, hrest⟩
    refine (hopen tipA tipB p q _ rest hstill).bind fun made => ?_
    cases made with
    | none => exact .pure fun _ h => h.1 rfl
    | some serial => exact Meets.answer (.modify fun _ h => h.2 serial rfl)
  · rename_i hnone
    exact hpassed rfl fun p q hp hq => (hnone p q hp hq).elim

/-- What a spring across an opening keeps, a brace keeps. -/
theorem keeps_brace_of {a b : Segment α}
    (hopen : ∀ w g tipA tipB p q stiffness rest, kept (w, g) → Open g a b tipA tipB p q rest →
      Meets (· = (w, g)) (inWorld (World.addSpring (some (w.point p)) (some (w.point q)) stiffness
        (some rest) World.defaultDamping)) kept fun made t => kept t ∧
          ∀ serial, made = some serial → kept (t.1, { t.2 with
            braced := (min p q, max p q) :: t.2.braced, braces := t.2.braces ++ [serial] })) :
    Keeps kept (brace a b) := by
  apply Meets.keeps
  refine Meets.each fun t ht => ?_
  apply meets_brace_of
  case hstop => exact fun _ _ => ht
  case hsettled => exact fun _ _ _ => ht
  case hopen =>
    intro tipA tipB p q stiffness rest hstill
    exact (hopen t.1 t.2 tipA tipB p q stiffness rest ht hstill).weaken fun made t h =>
      ⟨fun _ => h.1, h.2⟩

/-- The braces of some segments are those of their openings, one after the other. -/
theorem meets_addBraces_of {segments : List (Segment α)}
    {post : List Nat → World α × Graph α → Prop}
    (hstop : ∀ e, grouped [] segments = .error e → kept (w, g))
    (hall : ∀ groups, grouped [] segments = .ok groups → Meets (· = (w, g))
      (forEach (g.openings groups) fun (a, b) => brace a b) kept
        fun outcomes => post (outcomes.filterMap Braced.serial?)) :
    Meets (· = (w, g)) (addBraces segments) kept post := by
  unfold addBraces
  refine Meets.ofExcept_bind hstop fun groups hgroups => ?_
  apply meets_reading
  refine (hall groups hgroups).bind fun outcomes => ?_
  dsimp only
  split
  · exact Meets.answer (.note _)
  · exact .pure fun _ h => h

theorem keeps_addBraces_of {segments : List (Segment α)} (h : ∀ a b, Keeps kept (brace a b)) :
    Keeps kept (addBraces segments) := by
  apply Meets.keeps
  refine Meets.each fun t ht => ?_
  apply meets_addBraces_of
  case hstop => exact fun _ _ => ht
  case hall =>
    intro groups _
    have hall : Keeps kept (forEach (t.2.openings groups) fun (a, b) => brace a b) :=
      .forEach _ fun pair _ => h pair.1 pair.2
    exact hall.meets.one ht

/-! ### Fruits -/

/-- A fruit that finds a joint asks for a point of its own and a spring between them; without the
spring the point is taken out again. -/
theorem meets_hang_of {index : PointIndex α Nat} {f : Fruit α}
    {post : Option (Hanging α) → World α × Graph α → Prop}
    (seated : Nat → Nat → World α × Graph α → Prop)
    (hunhung : index.nearest (g.toWorld f.position) PointIndex.defaultHalf = none →
      post none (w, g))
    (hpoint : ∀ q, index.nearest (g.toWorld f.position) PointIndex.defaultHalf = some q →
      Meets (· = (w, g)) (inWorld (World.addPoint (g.toWorld f.position) fruitMass false)) kept
        (seated q.2))
    (hspring : ∀ joint point w' g', seated joint point (w', g') → Meets (· = (w', g'))
      (inWorld (World.addSpring (some (w'.point joint)) (some (w'.point point)) fruitStiffness
        (some (f.size * g.scale * 1.2)) World.defaultDamping)) kept fun made t =>
        (made = none → Meets (· = t) (inWorld (World.removePoint (some (t.1.point point)))) kept
          fun _ => post none) ∧
        ∀ spring, made = some spring → post (some ⟨f, point, spring⟩)
          (t.1, { t.2 with hangings := t.2.hangings ++ [⟨f, point, spring⟩] })) :
    Meets (· = (w, g)) (hang index f) kept post := by
  unfold hang
  apply meets_reading
  dsimp only
  cases hn : index.nearest (g.toWorld f.position) PointIndex.defaultHalf with
  | none => exact Meets.bind (Meets.note _) fun _ => .pure fun t ht => ht ▸ hunhung hn
  | some q =>
    refine (hpoint q hn).bind fun point => Meets.each fun t₁ h₁ => ?_
    apply meets_reading
    refine (hspring q.2 point t₁.1 t₁.2 h₁).bind fun made => ?_
    cases made with
    | none =>
      refine Meets.each fun t₂ h₂ => ?_
      apply meets_reading
      exact (h₂.1 rfl).answer
    | some spring => exact Meets.answer (.modify fun _ h => h.2 spring rfl)

omit [Scalar α] in
/-- The anchors of a body are its joints alive, each where it is now. -/
theorem mem_anchors {q : Vec α × Nat} : q ∈ anchors w g ↔
    ∃ j ∈ g.joints, ∃ p, w.particle? j.2 = some p ∧ (p.position, j.2) = q := by
  simp only [anchors, List.mem_filterMap, Option.map_eq_some_iff]

/-- A joint that an index of anchors finds is a joint alive. -/
theorem joint_of_nearest {box : Box α} {index : PointIndex α Nat}
    (hindex : (PointIndex.empty box PointIndex.defaultCapacity).insertAll (anchors w g) = .ok index)
    {place : Vec α} {q : Vec α × Nat}
    (hq : index.nearest place PointIndex.defaultHalf = some q) :
    q.2 ∈ g.joints.map (·.2) ∧ (w.particle? q.2).isSome := by
  obtain ⟨j, hj, p, hp, rfl⟩ := mem_anchors.mp (PointIndex.nearest_mem hindex hq)
  exact ⟨List.mem_map_of_mem hj, by rw [hp]; rfl⟩

/-- Fruits are hung one after the other, from joints that an index finds. -/
theorem meets_hangAll_of {fruits : List (Fruit α)}
    {post : List (Hanging α) → World α × Graph α → Prop}
    (hnone : fruits = [] ∨ g.joints = [] → post [] (w, g))
    (hstop : ∀ e, (Box.around 1 ((anchors w g).map (·.1)) >>= fun box =>
      (PointIndex.empty box PointIndex.defaultCapacity).insertAll (anchors w g)) = .error e →
      kept (w, g))
    (hall : ∀ box index, g.joints ≠ [] → Box.around 1 ((anchors w g).map (·.1)) = .ok box →
      (PointIndex.empty box PointIndex.defaultCapacity).insertAll (anchors w g) = .ok index →
      Meets (· = (w, g)) (forEach fruits (hang index)) kept
        fun hangings => post (hangings.filterMap id)) :
    Meets (· = (w, g)) (hangAll fruits) kept post := by
  unfold hangAll
  split
  · rename_i hf
    exact .pure fun t ht => ht ▸ hnone (.inl (List.isEmpty_iff.mp hf))
  apply meets_reading
  dsimp only
  split
  · rename_i hj
    have hbare : post [] (w, g) := hnone (.inr (List.isEmpty_iff.mp hj))
    exact Meets.bind (.note _) fun _ => .pure fun t ht => ht ▸ hbare
  rename_i hj
  have hj : g.joints ≠ [] := by simpa using hj
  refine Meets.ofExcept_bind (fun e he => hstop e (by rw [he]; rfl)) fun box hbox => ?_
  refine Meets.ofExcept_bind (fun e he => hstop e (by rw [hbox]; exact he))
    fun index hindex => ?_
  exact (hall box index hj hbox hindex).answer

end Graph
end Arboretum
