import Arboretum.Proofs.Exact
import Arboretum.Drawing.Plant
import Arboretum.Proofs.Growth.Reveal
import Arboretum.Proofs.Plant.Ripening
import Arboretum.Proofs.Plant.Views
import Arboretum.Proofs.Session.Frames

/-!
What is drawn of a plant that is fully grown. In exact arithmetic every segment of it shows, but the
last tenth of the skeleton stays as it was when the plant stopped growing: those segments are drawn
in part, the less of them the later they come, and have no leaves.
-/
namespace Arboretum

/-- What goes for whatever stands beside an element of another list. -/
theorem forall_mem_of_forall₂ {β γ : Type} {R : β → γ → Prop} {good : γ → Prop} {xs : List β}
    {ys : List γ} (h : List.Forall₂ R xs ys) (hgood : ∀ x y, R x y → good y) :
    ∀ y ∈ ys, good y := by
  induction h with
  | nil => exact nofun
  | cons hxy _ ih => exact List.forall_mem_cons.mpr ⟨hgood _ _ hxy, ih⟩

/-! ### How much shows -/

/-- The share of a fully grown plant's segment that is revealed: for all but the last tenth of the
skeleton all of it. -/
noncomputable def fullShare (total index : ℕ) : ℝ :=
  min 1 ((1 - index / total) / Growth.fadeFraction)

theorem Growth.fadeFraction_real : (Growth.fadeFraction : ℝ) = 1 / 10 := by
  norm_num [Growth.fadeFraction]

theorem fullShare_pos {total index : ℕ} (h : index < total) : 0 < fullShare total index := by
  have htotal : (0 : ℝ) < total := Nat.cast_pos.mpr (Nat.zero_lt_of_lt h)
  have hpart : (index : ℝ) / total < 1 := by
    rw [div_lt_one htotal]
    exact Nat.cast_lt.mpr h
  rw [fullShare, Growth.fadeFraction_real]
  exact lt_min zero_lt_one (div_pos (sub_pos.mpr hpart) (by norm_num))

theorem Growth.share_grown {g : Growth ℝ} (hgrown : g.growth = 1) {index : ℕ}
    (h : index < g.total) : g.share index = fullShare g.total index := by
  have hgrows : ¬ (1 : ℝ) ≤ 0 := not_le.mpr zero_lt_one
  unfold share
  rw [hgrown, if_neg hgrows, div_one, Scalar.clamp_real]
  exact max_eq_right (fullShare_pos h).le

theorem fullShare_le (total index : ℕ) : fullShare total index ≤ 1 := min_le_left _ _

/-- A segment is whole unless it is one of the last tenth. -/
theorem fullShare_eq_one {total index : ℕ} (h : index < total) :
    fullShare total index = 1 ↔ 10 * index ≤ 9 * total := by
  have htotal : (0 : ℝ) < total := Nat.cast_pos.mpr (Nat.zero_lt_of_lt h)
  have hparts : (1 : ℝ) ≤ (1 - index / total) / (1 / 10) ↔ (10 * index : ℝ) ≤ 9 * total := by
    rw [le_div_iff₀ (by norm_num)]
    constructor
    · intro hwhole
      have hpart : (index : ℝ) / total ≤ 9 / 10 := by linarith
      rw [div_le_div_iff₀ htotal (by norm_num)] at hpart
      linarith
    · intro hearly
      have hpart : (index : ℝ) / total ≤ 9 / 10 := by
        rw [div_le_div_iff₀ htotal (by norm_num)]
        linarith
      linarith
  rw [fullShare, min_eq_left_iff, Growth.fadeFraction_real, hparts]
  exact_mod_cast Iff.rfl

/-! ### What is drawn of it -/

namespace Drawing

/-- What is drawn of a segment of a grown plant: all of it, with a leaf if it is the tip of a deep
branch, or its beginning, as far as it is revealed. -/
def Drawn (leafColour : Colour) (v : SegmentView ℝ) (d : Drawing ℝ) : Prop :=
  ∃ width, d = if v.growth = 1 then
      .line v.colour v.start v.tip width ::
        (if v.isTip ∧ leafDepth ≤ v.depth then leaf leafColour v.tip v.start else [])
    else [.line v.colour v.start (v.start + (v.tip - v.start).scale v.growth) width]

theorem segment_drawn (leafColour : Colour) {v : SegmentView ℝ} (hpos : 0 < v.growth)
    (hle : v.growth ≤ 1) : ∃ d, segment true leafColour v = .ok d ∧ Drawn leafColour v d := by
  obtain ⟨width, hwidth⟩ : Gives (lineWidth (v.thickness *
      Scalar.greatest (remap (v.depth : ℝ) 0 5.0 1 0.3) 0 * v.growth)) :=
    (Gives.nearest _).map _
  unfold segment
  rw [if_neg (not_le.mpr hpos), Scalar.ofInt_real]
  simp only [bind, Except.bind, hwidth]
  split
  · rename_i hwhole
    refine ⟨_, rfl, width, ?_⟩
    rw [if_pos (le_antisymm hle hwhole)]
    by_cases hleaf : v.isTip = true ∧ leafDepth ≤ v.depth
    · simp [hleaf]
    · rw [if_neg hleaf, if_neg (by simpa using hleaf)]
  · rename_i hpart
    refine ⟨_, rfl, width, ?_⟩
    rw [if_neg fun hwhole => hpart hwhole.ge, Scalar.clamp_of_mem hpos.le hle]
    rfl

end Drawing

namespace Plant

variable {cut : List Nat} {w : World ℝ} {p : Plant ℝ}

theorem growth_of_frame {f : Frame ℝ} (h : p.frame w = .ok f) : f.growth = p.growth.growth := by
  obtain ⟨_, -, h⟩ := bind_ok_iff.mp h
  obtain ⟨_, -, h⟩ := bind_ok_iff.mp h
  obtain ⟨_, -, h⟩ := bind_ok_iff.mp h
  obtain ⟨_, -, h⟩ := bind_ok_iff.mp h
  cases h
  rfl

/-- How much a view shows of a segment of a grown plant with so many segments. -/
structure Fades (total : ℕ) (x : ℕ × Segment ℝ) (v : SegmentView ℝ) : Prop where
  growth : v.growth = fullShare total x.1
  pos : 0 < v.growth
  whole : v.growth = 1 ↔ 10 * x.1 ≤ 9 * total

theorem Depicts.fades {order : List (ℕ × Segment ℝ)} {x : ℕ × Segment ℝ} {v : SegmentView ℝ}
    (h : Depicts w p order x v) (hgrown : p.growth.growth = 1) (hlt : x.1 < p.growth.total) :
    Fades p.growth.total x v := by
  have hshare : v.growth = fullShare p.growth.total x.1 := by
    rw [← Growth.share_grown hgrown hlt]
    exact Except.ok.inj (h.growth.symm.trans (Growth.segmentRatio_real hlt))
  refine ⟨hshare, ?_, ?_⟩
  · rw [hshare]
    exact fullShare_pos hlt
  · rw [hshare]
    exact fullShare_eq_one hlt

theorem Fades.le {total : ℕ} {x : ℕ × Segment ℝ} {v : SegmentView ℝ} (h : Fades total x v) :
    v.growth ≤ 1 := h.growth.trans_le (fullShare_le _ _)

theorem Fades.whole_of_few {total : ℕ} {x : ℕ × Segment ℝ} {v : SegmentView ℝ}
    (h : Fades total x v) (hlt : x.1 < total) (hfew : total ≤ 10) : v.growth = 1 :=
  h.whole.mpr (by omega)

end Plant

namespace Drawing

/-- A frame whose views all show something is drawn view by view, and then its fruits. -/
theorem plant_drawn {f : Frame ℝ} (hleaves : leafReveal < f.growth)
    (hviews : ∀ v ∈ f.segments, 0 < v.growth ∧ v.growth ≤ 1) :
    ∃ drawings fruits, plant f = .ok (drawings.flatten ++ fruits) ∧
      List.Forall₂ (Drawn f.leafColour) f.segments drawings := by
  obtain ⟨drawings, hdrawings, hdrawn⟩ := mapM_forall₂ fun v hv =>
    segment_drawn f.leafColour (hviews v hv).1 (hviews v hv).2
  obtain ⟨fruits, hfruits⟩ : Gives (f.fruits.mapM fruit) := .mapM fun v _ => gives_fruit v
  have hbears : Growth.fruitReveal < f.growth :=
    lt_trans (by norm_num [Growth.fruitReveal, leafReveal]) hleaves
  refine ⟨drawings, fruits.flatten, ?_, hdrawn⟩
  unfold plant
  simp only [hleaves, decide_true, hbears, if_true, hdrawings, hfruits, bind, Except.bind]
  rfl

end Drawing

open Plant in
/-- In exact arithmetic, for a plant that is fully grown and has all its segments built, whatever
others have done with it: there is a view of every segment of which a strand is alive, and of every
segment between two cells, but for the strands that were cut, if others have left the points of the
plant. Of the segment with the number `index` of `total`, counted from zero, it shows ten times
`1 - index / total`, or all of it where that is more: always something, and all of it exactly if no
more than nine tenths of the skeleton come before it. So a skeleton of ten segments or fewer is
shown to the end. A view that shows all of its segment is drawn as the segment, with a leaf if it is
the tip of a deep branch; any other view as the part that shows, without a leaf. -/
theorem Tended.drawn_in_part {w : World ℝ} {p : Plant ℝ} (h : Tended w p)
    (hgrown : p.growth.growth = 1) (hbuilt : ∀ i < p.growth.total, p.growth.isBuilt i = true) :
    ∃ f order drawings fruits, p.frame w = .ok f ∧
      (∀ x, x ∈ order ↔
        ∃ serial, ((x.1 : Int), serial, x.2) ∈ p.graph.strands ∧ w.springIsAlive serial) ∧
      (∀ x ∈ order, p.growth.segments[x.1]? = some x.2) ∧
      (∀ cut, Reared cut w p → ∀ x, x ∈ order ↔ p.growth.segments[x.1]? = some x.2 ∧ x.2.Spans ∧
        ∀ e ∈ p.graph.strands, e.1 = x.1 → e.2.1 ∉ cut) ∧
      List.Forall₂ (Depicts w p order) order f.segments ∧
      List.Forall₂ (Fades p.growth.total) order f.segments ∧
      (p.growth.total ≤ 10 → ∀ v ∈ f.segments, v.growth = 1) ∧
      Drawing.plant f = .ok (drawings.flatten ++ fruits) ∧
      List.Forall₂ (Drawing.Drawn f.leafColour) f.segments drawings := by
  have hdrawable := h.drawable
  obtain ⟨f, hframe, hdepicts, -⟩ := hdrawable.drawn ⟨_, Scalar.ofInt_real 0⟩
  have hlt : ∀ x ∈ p.shown w, x.1 < p.growth.total := fun x hx =>
    (Array.getElem?_eq_some_iff.mp (hdrawable.of_shown hx).1).1
  have hfades : List.Forall₂ (fun x v => x.1 < p.growth.total ∧ Fades p.growth.total x v)
      (p.shown w) f.segments :=
    ((List.forall₂_and_left _ _).mpr ⟨hlt, hdepicts⟩).imp fun x v hx =>
      ⟨hx.1, hx.2.fades hgrown hx.1⟩
  have hviews : ∀ v ∈ f.segments,
      (0 < v.growth ∧ v.growth ≤ 1) ∧ (p.growth.total ≤ 10 → v.growth = 1) :=
    forall_mem_of_forall₂ hfades fun x v hx =>
      ⟨⟨hx.2.pos, hx.2.le⟩, hx.2.whole_of_few hx.1⟩
  have hleaves : Drawing.leafReveal < f.growth := by
    rw [growth_of_frame hframe, hgrown]
    norm_num [Drawing.leafReveal]
  obtain ⟨drawings, fruits, hplant, hdrawn⟩ :=
    Drawing.plant_drawn hleaves fun v hv => (hviews v hv).1
  refine ⟨f, p.shown w, drawings, fruits, hframe, hdrawable.mem_shown_iff,
    fun x hx => (hdrawable.of_shown hx).1, fun cut hreared x => ?_, hdepicts,
    hfades.imp fun _ _ hx => hx.2, fun hfew v hv => (hviews v hv).2 hfew, hplant, hdrawn⟩
  rw [hreared.tidy.mem_shown]
  constructor
  · exact fun hx => ⟨hx.1, hx.2.2⟩
  · exact fun hx => ⟨hx.1, hbuilt _ (Array.getElem?_eq_some_iff.mp hx.1).1, hx.2⟩

/-- Draws that are all zero. -/
def zeroes : Draws ℝ := ⟨fun _ => 0, 0⟩

open Plant in
theorem Tended.drawn_in_part_mast :
    ∃ q, (Plant.plant (mastOrder 11) (clearing, zeroes)).result = .ok q ∧
      let s := (Plant.update 0
        ((Plant.plant (mastOrder 11) (clearing, zeroes)).state.1, q)).state
      Tended s.1 s.2 ∧ s.2.growth.growth = 1 ∧
      (∀ i < s.2.growth.total, s.2.growth.isBuilt i = true) ∧ s.2.growth.total = 11 ∧
      Reared [] s.1 s.2 ∧
      ∃ f order drawings fruits, s.2.frame s.1 = .ok f ∧
        (∀ x, x ∈ order ↔ ∃ serial,
          ((x.1 : Int), serial, x.2) ∈ s.2.graph.strands ∧ s.1.springIsAlive serial) ∧
        (∀ x ∈ order, s.2.growth.segments[x.1]? = some x.2) ∧
        (∀ cut, Reared cut s.1 s.2 → ∀ x, x ∈ order ↔
          s.2.growth.segments[x.1]? = some x.2 ∧ x.2.Spans ∧
            ∀ e ∈ s.2.graph.strands, e.1 = x.1 → e.2.1 ∉ cut) ∧
        List.Forall₂ (Depicts s.1 s.2 order) order f.segments ∧
        List.Forall₂ (Fades s.2.growth.total) order f.segments ∧
        (s.2.growth.total ≤ 10 → ∀ v ∈ f.segments, v.growth = 1) ∧
        Drawing.plant f = .ok (drawings.flatten ++ fruits) ∧
        List.Forall₂ (Drawing.Drawn f.leafColour) f.segments drawings := by
  obtain ⟨q, hq, hreared, hsegments, hgrown, hbuilt⟩ :=
    mast_ripens (n := 11) (by decide) zeroes 0
  have htotal := (congrArg Array.size hsegments).trans (Walk.size_mast 11)
  exact ⟨q, hq, hreared.tended, hgrown, hbuilt, htotal, hreared,
    hreared.tended.drawn_in_part hgrown hbuilt⟩

/-- The segments of a mast lie between cells. -/
theorem Walk.mast_spans {n k : Nat} (hk : k < n) :
    ∃ s, (mast n).segments[k]? = some s ∧ s.Spans := by
  let t : Traits ℝ := .ofGrammar (.mast n)
  have hcell (k : Nat) : Cell.of (height t k) = .ok ⟨0, -(10 * k) * 100⟩ := by
    have hplace : height t k = ⟨((0 : ℤ) : ℝ), ((-(10 * k) : ℤ) : ℝ)⟩ := by
      have hstep : t.stepLength = 10 := by
        norm_num [t, Traits.ofGrammar]
      unfold height
      push_cast
      rw [hstep, mul_comm]
    rw [hplace, Cell.of_whole, Int.zero_mul]
  have hcells : (rung t k).cells =
      .ok (⟨0, -(10 * k) * 100⟩, ⟨0, -(10 * (k + 1 : Nat)) * 100⟩) := by
    unfold Segment.cells rung
    rw [hcell, hcell]
    rfl
  refine ⟨rung t k, ?_, _, _, hcells, fun hsame => ?_⟩
  · exact Array.getElem?_ofFn.trans (dif_pos hk)
  · have hlevel := congrArg Cell.y hsame
    dsimp only at hlevel
    omega

/-- Every segment of a ripe mast shows as much as it ever will. -/
theorem Reared.mast_shown {w : World ℝ} {p : Plant ℝ} (h : Reared [] w p) {n k : Nat}
    (hripe : Growth.Ripe (Walk.mast n).segments p.growth) (hk : k < n) :
    ∃ f, p.frame w = .ok f ∧ ∃ v ∈ f.segments, v.growth = fullShare n k := by
  obtain ⟨hsegments, hgrown, hbuilt⟩ := hripe
  have htotal : p.growth.total = n := (congrArg Array.size hsegments).trans (Walk.size_mast n)
  obtain ⟨s, hs, hspans⟩ := Walk.mast_spans hk
  rw [← hsegments] at hs
  obtain ⟨f, hframe, hdepicts, -⟩ := h.tidy.drawable.drawn ⟨_, Scalar.ofInt_real 0⟩
  have hshown : (k, s) ∈ p.shown w :=
    (h.tidy.mem_shown _).mpr ⟨hs, hbuilt k (htotal ▸ hk), hspans, fun _ _ _ => List.not_mem_nil⟩
  obtain ⟨i, hi, hplace⟩ := List.getElem_of_mem hshown
  have hview := (hdepicts.get hi (hdepicts.length_eq ▸ hi)).fades hgrown
  rw [List.get_eq_getElem, hplace, htotal] at hview
  exact ⟨f, hframe, _, List.getElem_mem _, (hview hk).growth⟩

/-- The last segment of a mast of eleven is not shown to its end. -/
theorem Reared.mast_fades :
    ∃ q, (Plant.plant (Plant.mastOrder 11) (Plant.clearing, zeroes)).result = .ok q ∧
      let s := (Plant.update 0
        ((Plant.plant (Plant.mastOrder 11) (Plant.clearing, zeroes)).state.1, q)).state
      s.2.growth.growth = 1 ∧ (∀ i < s.2.growth.total, s.2.growth.isBuilt i = true) ∧
      ∃ f, s.2.frame s.1 = .ok f ∧ ∃ v ∈ f.segments, v.growth = 10 / 11 := by
  obtain ⟨q, hq, hreared, hripe⟩ := Plant.mast_ripens (n := 11) (by decide) zeroes 0
  have hpart : fullShare 11 10 = 10 / 11 := by
    norm_num [fullShare, Growth.fadeFraction_real]
  rw [← hpart]
  exact ⟨q, hq, hripe.2.1, hripe.2.2, hreared.mast_shown hripe (by decide)⟩

end Arboretum
