import Arboretum.Plant.Frame
import Arboretum.Proofs.Plant.Tending
import Arboretum.Proofs.Sorting
import Mathlib.Data.List.Forall2

/-!
What a frame shows of a plant. Every strand that is alive has one view. Of a plant that is reared
these are the segments that were built between two cells, but for those whose strand was cut; the
views are in the order of depth, and within one depth in that of the skeleton.
-/
namespace Arboretum

open Arboretum.Action

variable {α : Type}

/-- What a reading gives of every element of a list. -/
theorem mapM_forall₂ {β γ : Type} {R : β → γ → Prop} {f : β → Except Fault γ} {xs : List β}
    (h : ∀ x ∈ xs, ∃ y, f x = .ok y ∧ R x y) : ∃ ys, xs.mapM f = .ok ys ∧ List.Forall₂ R xs ys := by
  induction xs with
  | nil => exact ⟨[], rfl, .nil⟩
  | cons x xs ih =>
    obtain ⟨⟨y, hy, hxy⟩, hxs⟩ := List.forall_mem_cons.mp h
    obtain ⟨ys, hys, hall⟩ := ih hxs
    refine ⟨y :: ys, ?_, .cons hxy hall⟩
    rw [List.mapM_cons, hy, hys]
    rfl

theorem filterMap_forall₂ {β γ : Type} {R : β → γ → Prop} {f : β → Option γ} {xs : List β}
    (h : ∀ x ∈ xs, ∃ y, f x = some y ∧ R x y) : List.Forall₂ R xs (xs.filterMap f) := by
  induction xs with
  | nil => exact .nil
  | cons x xs ih =>
    obtain ⟨⟨y, hy, hxy⟩, hxs⟩ := List.forall_mem_cons.mp h
    rw [List.filterMap_cons_some hy]
    exact .cons hxy (ih hxs)

variable [Scalar α]

/-- How much is revealed of a segment of the skeleton can be told. -/
theorem Growth.gives_segmentRatio (hzero : Gives (Scalar.ofInt 0 : Except Fault α)) {g : Growth α}
    {index : Nat} (h : index < g.total) : Gives (g.segmentRatio index) := by
  unfold segmentRatio
  split
  · exact .ok _
  refine Gives.map ?_ _
  unfold Scalar.quotient
  split
  · rwa [Int.tdiv_eq_zero_of_lt (Int.natCast_nonneg index) (Int.ofNat_lt.mpr h)]
  · exact .ok _

namespace Plant

variable {cut : List Nat} {w : World α} {p : Plant α}

/-- A segment of a skeleton with its number comes before another one in a frame. -/
def Earlier (x y : Nat × Segment α) : Prop :=
  x.2.depth < y.2.depth ∨ x.2.depth = y.2.depth ∧ x.1 < y.1

/-- A view shows a segment between its joints, wherever they are now. It is one of a tip if nothing
that is shown goes on from there. -/
structure Depicts (w : World α) (p : Plant α) (shown : List (Nat × Segment α))
    (x : Nat × Segment α) (v : SegmentView α) : Prop where
  start : ∃ a row, p.graph.JointOf x.2.start a ∧ w.particle? a = some row ∧ v.start = row.position
  tip : ∃ b row, p.graph.JointOf x.2.tip b ∧ w.particle? b = some row ∧ v.tip = row.position
  depth : v.depth = x.2.depth
  thickness : v.thickness = p.stemThickness * x.2.thickness
  colour : v.colour = x.2.colour
  growth : p.growth.segmentRatio x.1 = .ok v.growth
  isTip : v.isTip ↔ ∀ y ∈ shown, Cell.of y.2.start ≠ Cell.of x.2.tip

/-- A view shows a fruit at its point. -/
structure Bears (w : World α) (p : Plant α) (h : Hanging α) (v : FruitView α) : Prop where
  position : ∃ row, w.particle? h.point = some row ∧ v.position = row.position
  size : v.size = h.fruit.size * p.scale
  colour : v.colour = h.fruit.colour
  growth : v.growth = p.growth.fruitRatio

/-- A segment that has been built between two cells, and not been cut. -/
def Stands (cut : List Nat) (p : Plant α) (x : Nat × Segment α) : Prop :=
  p.growth.segments[x.1]? = some x.2 ∧ p.growth.isBuilt x.1 ∧ x.2.Spans ∧
    ∀ e ∈ p.graph.strands, e.1 = x.1 → e.2.1 ∉ cut

/-- What a frame shows, in its order. -/
def shown (w : World α) (p : Plant α) : List (Nat × Segment α) :=
  (p.strandsByDepth w).map fun e => (e.1.toNat, e.2.2)

variable {done : List (Growth.Task α)}

/-- The strands of a body are in the order of the skeleton, as far as they are equally deep. -/
theorem strands_ascend (hranked : Growth.Ranked p.growth done)
    (hbody : Graph.Comprises cut (Growth.strung done) (Growth.picked done) (w, p.graph)) :
    p.graph.strands.Pairwise fun e f => e.2.2.depth = f.2.2.depth → e.1 < f.1 := by
  have hnumbers := hranked.ascending.sublist (Growth.strung_sublist done)
  rw [List.pairwise_map] at hnumbers
  have hpairs : (p.graph.strands.map fun e => (e.1, e.2.2)).Pairwise fun x y =>
      x.2.depth = y.2.depth → x.1 < y.1 := by
    rw [hbody.strands, List.pairwise_map]
    refine hnumbers.imp_of_mem fun ht hu hascends hdepth => ?_
    have hs := hranked.books.faithful _ _ (Growth.mem_strung.mp ht).1
    have hs' := hranked.books.faithful _ _ (Growth.mem_strung.mp hu).1
    exact Int.ofNat_lt.mpr (hascends _ _ hs hs' hdepth)
  exact List.pairwise_map.mp hpairs

omit [Scalar α] in
theorem mem_strandsByDepth {e : Int × Nat × Segment α} :
    e ∈ p.strandsByDepth w ↔ e ∈ p.graph.strands ∧ w.springIsAlive e.2.1 := by
  rw [strandsByDepth, (List.mergeSort_perm _ _).mem_iff, List.mem_filter]

/-- A frame is in the order of depth, and of the skeleton within one depth. -/
theorem shown_pairwise (hranked : Growth.Ranked p.growth done)
    (hbody : Graph.Comprises cut (Growth.strung done) (Growth.picked done) (w, p.graph)) :
    (p.shown w).Pairwise Earlier := by
  -- a stable sort by depth leaves the strands of one depth in the order in which they were built
  have hascend := (strands_ascend hranked hbody).filter fun e => w.springIsAlive e.2.1
  have hsorted := pairwise_mergeSort_key (fun e : Int × Nat × Segment α => e.2.2.depth) hascend
  rw [shown, List.pairwise_map]
  refine hsorted.imp_of_mem fun {e f} he hf hlt => hlt.imp_right fun heq => ⟨heq.1, ?_⟩
  obtain ⟨i, hi, -⟩ := hbody.numbered (mem_strandsByDepth.mp he).1
  obtain ⟨j, hj, -⟩ := hbody.numbered (mem_strandsByDepth.mp hf).1
  have hlt := heq.2
  rw [← hi, ← hj] at hlt ⊢
  exact Int.ofNat_lt.mp hlt

/-- A strand that is alive has a view. -/
theorem viewSegment_depicts (hzero : Gives (Scalar.ofInt 0 : Except Fault α)) (hw : w.Sound)
    {index serial : Nat} {s : Segment α} (hleads : Graph.Leads (w, p.graph) serial s)
    (halive : w.springIsAlive serial) (hlt : index < p.growth.total) (hspans : s.Spans)
    {starts : List Cell}
    (hstarts : ∀ c, c ∈ starts ↔ ∃ y ∈ p.shown w, Cell.of y.2.start = .ok c) :
    ∃ v, p.viewSegment w starts (index, serial, s) = .ok v ∧
      Depicts w p (p.shown w) (index, s) v := by
  obtain ⟨bond, hbond⟩ := Option.isSome_iff_exists.mp ((w.bond?_isSome serial).trans halive)
  obtain ⟨hstart, htip⟩ := hleads.joins bond hbond
  obtain ⟨l, hl, -, rfl⟩ := World.bond?_eq_some.mp hbond
  obtain ⟨-, ha, hb⟩ := hw.ends serial _ hbond
  obtain ⟨a, hrowA⟩ := Option.isSome_iff_exists.mp ((hw.particle?_isSome l.a).trans ha)
  obtain ⟨b, hrowB⟩ := Option.isSome_iff_exists.mp ((hw.particle?_isSome l.b).trans hb)
  obtain ⟨ratio, hratio⟩ := Growth.gives_segmentRatio hzero hlt
  obtain ⟨_, tip, hcells, -⟩ := hspans
  have hcell := (Segment.of_cells hcells).2
  have hview : p.viewSegment w starts (index, serial, s) = .ok {
      start := a.position
      tip := b.position
      depth := s.depth
      thickness := p.stemThickness * s.thickness
      colour := s.colour
      growth := ratio
      isTip := !starts.contains tip } := by
    simp only [viewSegment, hl, World.particle, hrowA, hrowB, hratio, hcell]
    rfl
  refine ⟨_, hview, ⟨l.a, a, hstart, hrowA, rfl⟩, ⟨l.b, b, htip, hrowB, rfl⟩, rfl, rfl, rfl, hratio,
    ?_⟩
  rw [Bool.not_eq_true', ← Bool.not_eq_true, List.contains_iff_mem, hstarts, hcell]
  exact not_exists.trans (forall_congr' fun _ => not_and)

/-- The cells where the segments that stand begin can be told. -/
theorem starts_read (hspans : ∀ y ∈ p.shown w, y.2.Spans) :
    ∃ starts, (p.strandsByDepth w).mapM (fun e => Cell.of e.2.2.start) = .ok starts ∧
      ∀ c, c ∈ starts ↔ ∃ y ∈ p.shown w, Cell.of y.2.start = .ok c := by
  have hread : ∀ e ∈ p.strandsByDepth w, ∃ c, Cell.of e.2.2.start = .ok c ∧
      Cell.of e.2.2.start = .ok c := by
    intro e he
    obtain ⟨start, tip, hcells, -⟩ := hspans _ (List.mem_map_of_mem he)
    exact ⟨start, (Segment.of_cells hcells).1, (Segment.of_cells hcells).1⟩
  obtain ⟨starts, hstarts, hcells⟩ := mapM_forall₂ hread
  refine ⟨starts, hstarts, fun c => ?_⟩
  have hsame : (p.shown w).map (fun y => Cell.of y.2.start) = starts.map Except.ok := by
    rw [shown, List.map_map, ← List.forall₂_eq_eq_eq, List.forall₂_map_left_iff,
      List.forall₂_map_right_iff]
    exact hcells
  rw [← List.mem_map, hsame, List.mem_map_of_injective fun _ _ h => Except.ok.inj h]

/-- Every strand that is alive has a view. -/
theorem views_read (hzero : Gives (Scalar.ofInt 0 : Except Fault α))
    (hranked : Growth.Ranked p.growth done)
    (hbody : Graph.Outlines (Growth.strung done) (w, p.graph)) {starts : List Cell}
    (hstarts : ∀ c, c ∈ starts ↔ ∃ y ∈ p.shown w, Cell.of y.2.start = .ok c) :
    ∃ views, (p.strandsByDepth w).mapM (p.viewSegment w starts) = .ok views ∧
      List.Forall₂ (Depicts w p (p.shown w)) (p.shown w) views := by
  have hone : ∀ e ∈ p.strandsByDepth w, ∃ v, p.viewSegment w starts e = .ok v ∧
      Depicts w p (p.shown w) (e.1.toNat, e.2.2) v := by
    intro e he
    obtain ⟨hmem, halive⟩ := mem_strandsByDepth.mp he
    obtain ⟨i, hi, hstrung⟩ := hbody.numbered e hmem
    obtain ⟨hbuilt, hspans⟩ := Growth.mem_strung.mp hstrung
    have hs := hranked.books.faithful _ _ hbuilt
    obtain ⟨index, serial, s⟩ := e
    cases hi
    exact viewSegment_depicts hzero hbody.sound (hbody.leads _ hmem) halive
      (Array.getElem?_eq_some_iff.mp hs).1 hspans hstarts
  obtain ⟨views, hviews, hdepicts⟩ := mapM_forall₂ hone
  exact ⟨views, hviews, List.forall₂_map_left_iff.mpr hdepicts⟩

theorem frame_of_views (hdrill : p.drill = Drill.none) (hliving : p.destroyed = false)
    {starts : List Cell} {views : List (SegmentView α)}
    (hstarts : (p.strandsByDepth w).mapM (fun e => Cell.of e.2.2.start) = .ok starts)
    (hviews : (p.strandsByDepth w).mapM (p.viewSegment w starts) = .ok views) :
    p.frame w = .ok {
      id := p.id
      kind := p.kind
      growth := p.growth.growth
      stemThickness := p.stemThickness
      leafColour := p.grammar.leafColour
      segments := views
      fruits := p.graph.hangings.filterMap (p.viewFruit w) } := by
  simp only [frame, hdrill, Drill.none, Drill.check, checkAlive, hliving, hstarts, hviews,
    Bool.false_eq_true, if_false, Bind.bind, Except.bind]
  rfl

/-- What a frame shows of a plant are the segments of which a strand is alive. -/
theorem Drawable.mem_shown_iff (h : Drawable w p) (x : Nat × Segment α) : x ∈ p.shown w ↔
    ∃ serial, ((x.1 : Int), serial, x.2) ∈ p.graph.strands ∧ w.springIsAlive serial := by
  obtain ⟨done, -, hbody⟩ := h.outlined
  rw [shown, List.mem_map]
  constructor
  · rintro ⟨e, he, rfl⟩
    obtain ⟨hmem, halive⟩ := mem_strandsByDepth.mp he
    obtain ⟨i, hi, -⟩ := hbody.numbered e hmem
    obtain ⟨index, serial, s⟩ := e
    cases hi
    exact ⟨serial, hmem, halive⟩
  · rintro ⟨serial, hmem, halive⟩
    exact ⟨_, mem_strandsByDepth.mpr ⟨hmem, halive⟩, rfl⟩

theorem Drawable.of_shown (h : Drawable w p) {x : Nat × Segment α} (hx : x ∈ p.shown w) :
    p.growth.segments[x.1]? = some x.2 ∧ x.2.Spans := by
  obtain ⟨serial, hmem, -⟩ := (h.mem_shown_iff x).mp hx
  obtain ⟨done, hranked, hbody⟩ := h.outlined
  obtain ⟨i, hi, hstrung⟩ := hbody.numbered _ hmem
  cases Int.ofNat_inj.mp hi
  obtain ⟨hbuilt, hspans⟩ := Growth.mem_strung.mp hstrung
  exact ⟨hranked.books.faithful _ _ hbuilt, hspans⟩

/-- A plant with no other strands than those of its segments can be drawn: every strand alive has
one view. -/
theorem Drawable.drawn (h : Drawable w p) (hzero : Gives (Scalar.ofInt 0 : Except Fault α)) :
    ∃ f, p.frame w = .ok f ∧ List.Forall₂ (Depicts w p (p.shown w)) (p.shown w) f.segments ∧
      f.fruits = p.graph.hangings.filterMap (p.viewFruit w) := by
  obtain ⟨starts, hread, hstarts⟩ := starts_read fun y hy => (h.of_shown hy).2
  obtain ⟨done, hranked, hbody⟩ := h.outlined
  obtain ⟨views, hviews, hdepicts⟩ := views_read hzero hranked hbody hstarts
  exact ⟨_, frame_of_views h.drill h.living hread hviews, hdepicts, rfl⟩

/-- A frame shows what stands. -/
theorem Tidy.mem_shown (h : Tidy cut w p) (x : Nat × Segment α) :
    x ∈ p.shown w ↔ p.Stands cut x := by
  obtain ⟨done, hranked, hbody⟩ := h.tracked
  have honce := hranked.books.once.sublist (Growth.strung_sublist done)
  constructor
  · intro hx
    obtain ⟨hs, hspans⟩ := h.drawable.of_shown hx
    obtain ⟨serial, hmem, halive⟩ := (h.drawable.mem_shown_iff x).mp hx
    obtain ⟨i, hi, hstrung⟩ := hbody.numbered hmem
    cases Int.ofNat_inj.mp hi
    have hmark : p.growth.isBuilt x.1 :=
      (hranked.books.marks _).mpr (Growth.mem_numbers.mpr ⟨_, (Growth.mem_strung.mp hstrung).1⟩)
    refine ⟨hs, hmark, hspans, fun e he hsame => ?_⟩
    cases hbody.strand_unique honce hmem he hsame.symm
    exact (hbody.tied _ hmem).isAlive.mp halive
  · rintro ⟨hs, hmark, hspans, huncut⟩
    obtain ⟨t, ht⟩ := Growth.mem_numbers.mp ((hranked.books.marks _).mp hmark)
    cases hs.symm.trans (hranked.books.faithful t _ ht)
    obtain ⟨serial, hmem⟩ := hbody.strand_of_strung (Growth.mem_strung.mpr ⟨ht, hspans⟩)
    have halive := (hbody.tied _ hmem).isAlive.mpr (huncut _ hmem rfl)
    exact (h.drawable.mem_shown_iff x).mpr ⟨serial, hmem, halive⟩

/-- A plant whose body keeps to its plan can be drawn: every segment that stands has one view, and
every fruit that hangs. -/
theorem Tidy.drawn (h : Tidy cut w p) (hzero : Gives (Scalar.ofInt 0 : Except Fault α)) :
    ∃ f, p.frame w = .ok f ∧ (p.shown w).Pairwise Earlier ∧
      (∀ x, x ∈ p.shown w ↔ p.Stands cut x) ∧
      List.Forall₂ (Depicts w p (p.shown w)) (p.shown w) f.segments ∧
      List.Forall₂ (Bears w p) p.graph.hangings f.fruits ∧
      (p.graph.hangings.map (·.fruit)).Sublist p.growth.fruits := by
  obtain ⟨f, hframe, hdepicts, hfruits⟩ := h.drawable.drawn hzero
  obtain ⟨done, hranked, hbody⟩ := h.tracked
  have hborne : List.Forall₂ (Bears w p) p.graph.hangings f.fruits := by
    rw [hfruits]
    refine filterMap_forall₂ fun k hk => ?_
    obtain ⟨row, hrow⟩ :=
      Option.isSome_iff_exists.mp ((hbody.sound.particle?_isSome k.point).trans (hbody.hung k hk))
    exact ⟨⟨row.position, _, _, _⟩, by rw [viewFruit, hrow]; rfl, ⟨row, hrow, rfl⟩, rfl, rfl, rfl⟩
  have hhung := hbody.fruits
  rw [hranked.hung] at hhung
  refine ⟨f, hframe, shown_pairwise hranked hbody, h.mem_shown, hdepicts, hborne, ?_⟩
  split at hhung
  · exact hhung
  · exact hhung.trans (List.nil_sublist _)

end Plant

open Plant in
/-- A plant that is reared can be drawn. There is one view for every segment that has been built
between two cells and not been cut by others, in the order of depth, and within one depth in that
of the skeleton; it is one of a tip where no such segment goes on. And there is one view for every
fruit that hangs, in the order of the fruits. -/
theorem Reared.frame_complete {cut : List Nat} {w : World α} {p : Plant α} (h : Reared cut w p)
    (hzero : Gives (Scalar.ofInt 0 : Except Fault α)) :
    ∃ f order, p.frame w = .ok f ∧ order.Pairwise Earlier ∧ (∀ x, x ∈ order ↔ p.Stands cut x) ∧
      List.Forall₂ (Depicts w p order) order f.segments ∧
      List.Forall₂ (Bears w p) p.graph.hangings f.fruits ∧
      (p.graph.hangings.map (·.fruit)).Sublist p.growth.fruits := by
  obtain ⟨f, hf⟩ := h.tidy.drawn hzero
  exact ⟨f, p.shown w, hf⟩

namespace Upright

/-- A stem of two segments, with a deeper one between them that bears a fruit. -/
def sprig : Grammar Upright :=
  { astray with name := "sprig", start := ['F', '[', 'F', '*', ']', 'F'], fruitProbability := 1.0 }

def sprouting : Report (Note Upright) (World Upright × Draws Upright) (Plant Upright) :=
  Plant.plant ⟨⟨100.0, 590.0⟩, .grammar sprig, 0.5, 1.0, some 1.0, (1.0, 1.0), false⟩
    (.new 0 Setting.default World.defaultCapacity, Draws.cycle #[0.5])

def tick (s : World Upright × Plant Upright) : World Upright × Plant Upright :=
  (Plant.update 0.5 s).state

/-- The sprig after three ticks, with the depths of its strands and how many fruits hang. -/
def grown : Option ((World Upright × Plant Upright) × List Int × Nat) :=
  sprouting.result.toOption.map fun p =>
    let s := tick (tick (tick (sprouting.state.1, p)))
    (s, s.2.graph.strands.map (·.2.2.depth), s.2.graph.hangings.length)

theorem frame_complete_sprig : ∃ (w : World Upright) (p : Plant Upright), Reared [] w p ∧
    Gives (Scalar.ofInt 0 : Except Fault Upright) ∧
    p.graph.strands.map (·.2.2.depth) = [0, 0, 1] ∧ p.graph.hangings.length = 1 ∧
    ∃ f order, p.frame w = .ok f ∧ order.Pairwise Plant.Earlier ∧
      (∀ x, x ∈ order ↔ p.Stands [] x) ∧
      List.Forall₂ (Plant.Depicts w p order) order f.segments ∧
      List.Forall₂ (Plant.Bears w p) p.graph.hangings f.fruits ∧
      (p.graph.hangings.map (·.fruit)).Sublist p.growth.fruits := by
  have hgrown : grown.map (·.2) = some ([0, 0, 1], 1) := by decide +kernel
  obtain ⟨⟨s, depths, hangings⟩, hs, hcount⟩ := Option.map_eq_some_iff.mp hgrown
  obtain ⟨p, hp, hend⟩ := Option.map_eq_some_iff.mp hs
  cases hend
  obtain ⟨hdepths, hhangings⟩ := Prod.mk.inj hcount
  have hplanted : sprouting.result = .ok p := by
    cases hr : sprouting.result with
    | error e =>
      rw [hr] at hp
      cases hp
    | ok q =>
      rw [hr] at hp
      cases hp
      rfl
  have hsprout : Reared [] sprouting.state.1 p := by
    unfold sprouting at hplanted ⊢
    exact .planted (.new _ _ _) hplanted
  have hreared := ((hsprout.update 0.5).update 0.5).update 0.5
  have hzero : Gives (Scalar.ofInt 0 : Except Fault Upright) :=
    ⟨_, eq_ok_of_isOk (by decide +kernel) 0⟩
  exact ⟨_, _, hreared, hzero, hdepths, hhangings, hreared.frame_complete hzero⟩

end Upright
end Arboretum
