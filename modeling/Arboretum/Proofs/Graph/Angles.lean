import Mathlib.Data.Real.Basic
import Arboretum.Proofs.Graph.Rules
import Arboretum.Proofs.Walk.Passage
import Arboretum.Proofs.World.Settling

/-!
A brace holds the opening that was drawn. In exact arithmetic each segment of a walk lies along the
heading that it notes, so that two segments from one point, whatever turns lie between them, open by
the difference of their headings, and the side opposite that angle is the distance of their tips.
-/
namespace Arboretum

open Arboretum.Action

/-! ### Segments along their headings -/

namespace Segment

/-- A segment of a length that lies along its heading. -/
def Along (length : ℝ) (s : Segment ℝ) : Prop :=
  s.tip = s.start + (⟨Real.cos s.heading, Real.sin s.heading⟩ : Vec ℝ).scale length

variable {length : ℝ} {a b : Segment ℝ}

theorem Along.length_eq (h : Along length a) (hlength : 0 ≤ length) : a.length = length := by
  have hsquare : (a.tip.x - a.start.x) ^ 2 + (a.tip.y - a.start.y) ^ 2 = length ^ 2 := by
    rw [h, Vec.add_x, Vec.add_y, Vec.scale_x, Vec.scale_y]
    linear_combination length ^ 2 * Real.cos_sq_add_sin_sq a.heading
  rw [Segment.length, Vec.distance_real, hsquare, Real.sqrt_sq hlength]

end Segment

/-- The radicand of the side opposite the angle between two headings is the square of the way
between the ends of two sides along them. -/
theorem oppositeSquare_headings (a b x y : ℝ) :
    oppositeSquare a b (Scalar.abs (x - y)) =
      (a * Real.cos x - b * Real.cos y) ^ 2 + (a * Real.sin x - b * Real.sin y) ^ 2 := by
  have hcos : Scalar.cos (Scalar.abs (x - y)) =
      Real.cos x * Real.cos y + Real.sin x * Real.sin y := by
    rw [Scalar.abs_real, ← Real.cos_sub]
    exact Real.cos_abs (x - y)
  unfold oppositeSquare
  rw [hcos]
  norm_num
  linear_combination -a ^ 2 * Real.cos_sq_add_sin_sq x - b ^ 2 * Real.cos_sq_add_sin_sq y

/-- The side opposite an angle is no shorter than the difference of the other sides, and no longer
than their sum. -/
theorem oppositeSquare_between {a b : ℝ} (ha : 0 ≤ a) (hb : 0 ≤ b) (angle : ℝ) :
    (a - b) ^ 2 ≤ oppositeSquare a b angle ∧ oppositeSquare a b angle ≤ (a + b) ^ 2 := by
  have hab := mul_nonneg ha hb
  have hhigh : Scalar.cos angle ≤ 1 := Real.cos_le_one angle
  have hlow : -1 ≤ Scalar.cos angle := Real.neg_one_le_cos angle
  unfold oppositeSquare
  norm_num
  constructor
  · nlinarith [mul_le_mul_of_nonneg_left hhigh hab]
  · nlinarith [mul_le_mul_of_nonneg_left hlow hab]

namespace Walk

variable {ν : Type} {t : Traits ℝ} {w w' : Walk ℝ} {d : Draws ℝ} {symbol : Char}

theorem forward_real (stepLength : ℝ) (w : Walk ℝ) : w.forward stepLength = .ok { w.pen with
    position := w.pen.position +
      (⟨Real.cos w.pen.heading, Real.sin w.pen.heading⟩ : Vec ℝ).scale stepLength } := by
  unfold forward Scalar.direction
  rw [Scalar.isInfinite_real]
  rfl

/-- A segment is drawn along the heading of the pen. -/
theorem draw_along {stepLength : ℝ} (h : w.draw stepLength = .ok w') :
    ∃ s, w'.segments = w.segments.push s ∧ s.Along stepLength := by
  unfold draw at h
  rw [forward_real] at h
  cases h
  exact ⟨_, rfl, rfl⟩

/-- A symbol that leaves a segment draws it. -/
theorem segments_follow {α : Type} [Scalar α] {t : Traits α} {w w' : Walk α} {d : Draws α}
    (h : (w.follow t symbol d : Report ν _ _).result = .ok w') :
    w'.segments = w.segments ∨ w.draw t.stepLength = .ok w' := by
  by_cases hstroke : isStroke symbol = true
  · have hsymbol : symbol = 'F' ∨ symbol = 'G' := by simpa [isStroke] using hstroke
    rcases hsymbol with rfl | rfl
    · exact .inr h
    · exact .inr h
  · obtain ⟨lines, _, hstep, _⟩ := (meets_follow_stride t w d symbol d rfl).2 w' h
    have hnone : lines = [] := by
      rw [← List.length_eq_zero_iff, hstep.strokes]
      simp [hstroke]
    have hsame := hstep.segments
    rw [hnone, List.append_nil] at hsame
    exact .inl (Array.toList_inj.mp hsame)

theorem follow_along (h : (w.follow t symbol d : Report ν _ _).result = .ok w')
    (hw : ∀ s ∈ w.segments, s.Along t.stepLength) : ∀ s ∈ w'.segments, s.Along t.stepLength := by
  rcases segments_follow h with hsame | hdraw
  · rwa [hsame]
  · obtain ⟨s, hsegments, hs⟩ := draw_along hdraw
    rw [hsegments]
    intro r hr
    rcases Array.mem_push.mp hr with hr | rfl
    · exact hw r hr
    · exact hs

/-- Every segment of a walk lies along its heading: what turns, saved pens and closed brackets do
to the pen, they do to the heading that its next segment notes. -/
theorem segments_along {word : List Char}
    (h : (along t word d : Report ν _ _).result = .ok w) :
    ∀ s ∈ w.segments, s.Along t.stepLength := by
  unfold along at h
  induction word using List.reverseRecOn generalizing w with
  | nil =>
    cases h
    intro s hs
    exact absurd hs (Array.not_mem_empty s)
  | append_singleton word symbol ih =>
    rw [followAll_concat] at h
    obtain ⟨before, hbefore, hlast⟩ := of_bind_ok h
    exact follow_along hlast (ih hbefore)

end Walk

/-! ### Braces -/

namespace Graph

variable {g : Graph ℝ} {a b : Segment ℝ} {length : ℝ}

theorem distance_toWorld (g : Graph ℝ) (hscale : 0 ≤ g.scale) (p q : Vec ℝ) :
    (g.toWorld p).distance (g.toWorld q) = g.scale * p.distance q := by
  have hsquare : (g.origin.x + q.x * g.scale - (g.origin.x + p.x * g.scale)) ^ 2 +
      (g.origin.y + q.y * g.scale - (g.origin.y + p.y * g.scale)) ^ 2 =
        g.scale ^ 2 * ((q.x - p.x) ^ 2 + (q.y - p.y) ^ 2) := by
    ring
  rw [Vec.distance_real, Vec.distance_real]
  unfold toWorld
  rw [hsquare, Real.sqrt_mul (sq_nonneg _), Real.sqrt_sq hscale]

/-- The radicand of a brace is the square of the scaled distance of the tips. -/
theorem oppositeSquare_opening (ha : a.Along length) (hb : b.Along length)
    (hstart : a.start = b.start) (hlength : 0 ≤ length) :
    oppositeSquare (a.length * g.scale) (b.length * g.scale)
      (Scalar.abs (a.heading - b.heading)) = (g.scale * a.tip.distance b.tip) ^ 2 := by
  have hdistance : a.tip.distance b.tip ^ 2 =
      (b.tip.x - a.tip.x) ^ 2 + (b.tip.y - a.tip.y) ^ 2 :=
    Real.sq_sqrt (add_nonneg (sq_nonneg _) (sq_nonneg _))
  rw [oppositeSquare_headings, ha.length_eq hlength, hb.length_eq hlength, mul_pow, hdistance,
    ha, hb, hstart]
  simp only [Vec.add_x, Vec.add_y, Vec.scale_x, Vec.scale_y]
  ring

/-- A brace that is made is as long as its opening. -/
theorem meets_brace_rest {w : World ℝ} {target : ℝ} (hlength : g.braceLength a b = .ok target)
    (htarget : 0 ≤ target) : Meets (· = (w, g)) (brace a b) (fun _ => True) fun outcome t =>
      ∀ serial, outcome = .made serial → (t.1.bond? serial).map (·.rest) = some target := by
  apply meets_brace_of
  case hstop => exact fun _ _ => trivial
  case hsettled =>
    intro outcome hnone _ serial hmade
    rw [hmade] at hnone
    cases hnone
  case hopen =>
    intro tipA tipB p q stiffness rest hopen
    obtain rfl : rest = target := Except.ok.inj (hopen.length.symm.trans hlength)
    refine .returns fun s hs => ?_
    subst hs
    obtain ⟨notes, he⟩ := World.addSpring_apply (some (w.point p)) (some (w.point q)) stiffness
      (some rest) World.defaultDamping w
    rw [inWorld_result, inWorld_state, he]
    rcases w.joinable? (some (w.point p)) (some (w.point q)) with _ | ⟨⟨i, spotP⟩, ⟨j, spotQ⟩⟩
    · exact ⟨_, rfl, fun _ _ hmade => by (cases hmade), fun _ hmade => by (cases hmade)⟩
    · refine ⟨_, rfl, fun hnone => by (cases hnone), fun serial hserial made hmade => ?_⟩
      cases hserial
      cases hmade
      have hrest : World.restLength spotP spotQ (some rest) = rest := if_neg (not_lt.mpr htarget)
      rw [World.bond?_link, if_pos rfl, Option.map_some, hrest]

/-- A spring of the length that its ends are apart corrects nothing. -/
theorem correct_at_rest {wire : Wire ℝ} {p q : Particle ℝ}
    (h : p.position.distance q.position = wire.rest) : wire.correct p q = 0 := by
  unfold Wire.correct
  simp only [Vec.norm_sub, h, sub_self, zero_div, zero_mul, Vec.scale_zero]

/-- A brace holds the opening of any two segments of a walk that start at one point, by whatever
turns their headings differ: it is as long as their tips are apart at the scale of the body, which
is the side opposite the angle without any help from a radicand that is kept from being negative,
and lies between the difference and the sum of the scaled segments. A brace that is made has that
length, and where the tips are as drawn it corrects nothing. -/
theorem braces_hold_openings {ν : Type} {t : Walk.Traits ℝ} (hstep : 0 < t.stepLength)
    {word : List Char} {d : Draws ℝ} {w : Walk ℝ}
    (hwalk : (Walk.along t word d : Report ν _ _).result = .ok w) {a b : Segment ℝ}
    (ha : a ∈ w.segments) (hb : b ∈ w.segments) (hstart : a.start = b.start)
    {g : Graph ℝ} (hscale : 0 < g.scale) :
    let target := g.scale * a.tip.distance b.tip
    g.braceLength a b = .ok target ∧
    0 ≤ oppositeSquare (a.length * g.scale) (b.length * g.scale)
      (Scalar.abs (a.heading - b.heading)) ∧
    |a.length * g.scale - b.length * g.scale| ≤ target ∧
    target ≤ a.length * g.scale + b.length * g.scale ∧
    (∀ (u : World ℝ) (serial : Nat), (brace a b (u, g)).result = .ok (.made serial) →
      ((brace a b (u, g)).state.1.bond? serial).map (·.rest) = some target) ∧
    ∀ (wire : Wire ℝ) (p q : Particle ℝ), wire.rest = target →
      p.position = g.toWorld a.tip → q.position = g.toWorld b.tip → wire.correct p q = 0 := by
  have halong := Walk.segments_along hwalk
  have hsquare := oppositeSquare_opening (g := g) (halong a ha) (halong b hb) hstart hstep.le
  have htarget : 0 ≤ g.scale * a.tip.distance b.tip := mul_nonneg hscale.le (Real.sqrt_nonneg _)
  have hlengthA : 0 ≤ a.length * g.scale := mul_nonneg (Real.sqrt_nonneg _) hscale.le
  have hlengthB : 0 ≤ b.length * g.scale := mul_nonneg (Real.sqrt_nonneg _) hscale.le
  obtain ⟨hlow, hhigh⟩ :=
    oppositeSquare_between hlengthA hlengthB (Scalar.abs (a.heading - b.heading))
  rw [hsquare] at hlow hhigh
  have hbrace : g.braceLength a b = .ok (g.scale * a.tip.distance b.tip) := by
    unfold braceLength oppositeSide
    rw [Scalar.isInfinite_real, hsquare, Scalar.greatest_real, max_eq_right (sq_nonneg _)]
    exact congrArg Except.ok (Real.sqrt_sq htarget)
  refine ⟨hbrace, ?_, ?_, ?_, fun u serial hmade => ?_, fun wire p q hrest hp hq => ?_⟩
  · rw [hsquare]
    exact sq_nonneg _
  · exact abs_le_of_sq_le_sq hlow htarget
  · exact le_of_sq_le_sq hhigh (add_nonneg hlengthA hlengthB)
  · exact (meets_brace_rest hbrace htarget (u, g) rfl).2 _ hmade serial rfl
  · apply correct_at_rest
    rw [hp, hq, distance_toWorld g hscale.le, hrest]

/-- A stem that stands up, and beside it one that is turned by more than five full turns. -/
noncomputable def pronged : Report (Note ℝ) (Draws ℝ) (Walk ℝ) :=
  Walk.along (.default 18.0) ['[', 'F', ']', '+', 'F'] (.cycle #[0.5])

theorem braces_hold_openings_forked :
    ∃ w a b, 0 < (Walk.Traits.default 18.0 : Walk.Traits ℝ).stepLength ∧ pronged.result = .ok w ∧
      a ∈ w.segments ∧ b ∈ w.segments ∧ a.start = b.start ∧ b.heading - a.heading = 171 / 5 ∧
      (0 : ℝ) < (Graph.new ⟨3, 4⟩ 2).scale ∧
      (Graph.new ⟨3, 4⟩ 2).braceLength a b = .ok (2 * a.tip.distance b.tip) := by
  have hstep : 0 < (Walk.Traits.default 18.0 : Walk.Traits ℝ).stepLength := by
    norm_num [Walk.Traits.default]
  have hscale : (0 : ℝ) < (Graph.new ⟨3, 4⟩ 2).scale := by norm_num [Graph.new]
  have hwalk : ∃ w, pronged.result = .ok w ∧ ∃ a b, w.segments = #[a, b] ∧ a.start = b.start ∧
      b.heading - a.heading = 171 / 5 := by
    have hdraw : (Draws.uniform (4 / 5) 3 (Draws.cycle #[1 / 2]) : Report (Note ℝ) _ ℝ).result =
        .ok (19 / 10) := by
      norm_num [Draws.uniform, Draws.next, Draws.cycle, Except.map]
    unfold pronged
    norm_num [Walk.along, Walk.start, Walk.followAll, Walk.follow, Walk.draw, Walk.forward_real,
      Walk.turn, hdraw, Except.map, Walk.Traits.default]
    exact ⟨_, _, ⟨rfl, rfl⟩, rfl, add_sub_cancel_left _ _⟩
  obtain ⟨w, hw, a, b, hsegments, hstart, hturn⟩ := hwalk
  have ha : a ∈ w.segments := by simp [hsegments]
  have hb : b ∈ w.segments := by simp [hsegments]
  exact ⟨w, a, b, hstep, hw, ha, hb, hstart, hturn, hscale,
    (braces_hold_openings hstep hw ha hb hstart hscale).1⟩

end Graph
end Arboretum
