import Arboretum.Proofs.Graph.Grid
import Arboretum.Proofs.Walk
import Arboretum.Proofs.Walk.Passage
import Mathlib.Topology.UnitInterval

/-!
The colours of a walk. In exact arithmetic a shift takes a colour with channels from 0 to 255 to
another one: the way there and back leads through parts of a whole, by hue, saturation and value.
What shifts keep of a colour, every pen and every segment of a walk keeps of the first one.
-/
namespace Arboretum

open Arboretum.Action

/-- What lies between two whole numbers is rounded to one that does. -/
theorem Scalar.nearest_mem {v : ℝ} {low high : ℤ} (h : v ∈ Set.Icc (low : ℝ) high) :
    ∃ n, nearest v = .ok n ∧ n ∈ Set.Icc low high := by
  obtain ⟨n, hn, hhalf⟩ := nearest_half v
  have hdistance : |v - n| ≤ 1 / 2 := hhalf.elim le_of_lt fun he => he.1.le
  obtain ⟨hbelow, habove⟩ := abs_le.mp hdistance
  obtain ⟨hlow, hhigh⟩ := h
  have hfirst : (low : ℝ) < n + 1 := by linarith
  have hlast : (n : ℝ) < high + 1 := by linarith
  exact ⟨n, hn, Int.lt_add_one_iff.mp (by exact_mod_cast hfirst),
    Int.lt_add_one_iff.mp (by exact_mod_cast hlast)⟩

/-! ### Parts of a whole -/

namespace Colour

/-- Three channels, each from 0 to 255. -/
def Valid (colour : Colour) : Prop :=
  colour.length = 3 ∧ ∀ channel ∈ colour, channel ∈ Set.Icc 0 255

instance (colour : Colour) : Decidable colour.Valid :=
  inferInstanceAs (Decidable (_ ∧ ∀ channel ∈ colour, _ ≤ _ ∧ _ ≤ _))

/-- A red, a green and a blue that are parts of a whole, from none to all of it. -/
structure Rgb.Proper (c : Rgb ℝ) : Prop where
  red : c.red ∈ unitInterval
  green : c.green ∈ unitInterval
  blue : c.blue ∈ unitInterval

/-- A hue, a saturation and a value that are parts of a whole; the hue is not all of it. -/
structure Hsv.Proper (c : Hsv ℝ) : Prop where
  hue : c.hue ∈ Set.Ico 0 1
  saturation : c.saturation ∈ unitInterval
  value : c.value ∈ unitInterval

theorem part_mem {channel : Int} (h : channel ∈ Set.Icc 0 255) :
    ∃ x : ℝ, part channel = .ok x ∧ x ∈ unitInterval := by
  refine ⟨channel / 255.0, ?_, unitInterval.div_mem ?_ (by norm_num) ?_⟩
  · unfold part
    rw [Scalar.ofInt_real]
    rfl
  · exact_mod_cast h.1
  · norm_num
    exact_mod_cast h.2

theorem toRgb_proper {colour : Colour} (h : colour.Valid) :
    ∃ rgb : Rgb ℝ, colour.toRgb = .ok rgb ∧ rgb.Proper := by
  obtain ⟨hlength, hrange⟩ := h
  obtain ⟨red, green, blue, rfl⟩ := List.length_eq_three.mp hlength
  obtain ⟨r, hr, hred⟩ := part_mem (hrange red (by simp))
  obtain ⟨g, hg, hgreen⟩ := part_mem (hrange green (by simp))
  obtain ⟨b, hb, hblue⟩ := part_mem (hrange blue (by simp))
  refine ⟨⟨r, g, b⟩, ?_, hred, hgreen, hblue⟩
  unfold toRgb
  simp only [List.take, List.mapM_cons, List.mapM_nil, hr, hg, hb]
  rfl

/-- A colour has a saturation: where two of its parts differ, the largest is not zero. -/
theorem Rgb.toHsv_proper {c : Rgb ℝ} (h : c.Proper) :
    ∃ hsv, c.toHsv = .ok hsv ∧ hsv.Proper := by
  have htop : max (max c.red c.green) c.blue ∈ unitInterval :=
    ⟨h.blue.1.trans (le_max_right _ _), max_le (max_le h.red.2 h.green.2) h.blue.2⟩
  have hbottom : 0 ≤ min (min c.red c.green) c.blue :=
    le_min (le_min h.red.1 h.green.1) h.blue.1
  have hle : min (min c.red c.green) c.blue ≤ max (max c.red c.green) c.blue :=
    (min_le_right _ _).trans (le_max_right _ _)
  unfold toHsv
  dsimp only
  simp only [Scalar.greatest_real, Scalar.least_real]
  generalize max (max c.red c.green) c.blue = top at *
  generalize min (min c.red c.green) c.blue = bottom at *
  split
  · exact ⟨_, rfl, ⟨le_refl 0, zero_lt_one⟩, unitInterval.zero_mem, htop⟩
  · rename_i hdiffer
    have hlt : bottom < top := hle.lt_of_ne (by simpa using hdiffer)
    have hpos : ¬ (top == 0) = true := by simpa using (hbottom.trans_lt hlt).ne'
    rw [if_neg hpos]
    refine ⟨_, rfl, ?_, ?_, htop⟩
    · rw [Scalar.floorMod_one_real]
      exact ⟨Int.fract_nonneg _, Int.fract_lt_one _⟩
    · exact unitInterval.div_mem (sub_nonneg.mpr hle) htop.1 (sub_le_self top hbottom)

/-- In each of the six sectors of the hue the three parts are the value, or some part of it. -/
theorem Hsv.toRgb_proper {c : Hsv ℝ} (h : c.Proper) : ∃ rgb, c.toRgb = .ok rgb ∧ rgb.Proper := by
  unfold toRgb
  dsimp only
  split
  · exact ⟨_, rfl, h.value, h.value, h.value⟩
  · have hturn : ¬ c.hue * 6.0 < 0 := not_lt.mpr (mul_nonneg h.hue.1 (by norm_num))
    have hsector : Scalar.truncate (c.hue * 6.0) = .ok ⌊c.hue * 6.0⌋ := if_neg hturn
    rw [hsector]
    have hrest : c.hue * 6.0 - ⌊c.hue * 6.0⌋ ∈ unitInterval := unitInterval.fract_mem _
    have hless {x : ℝ} (hx : x ∈ unitInterval) : c.value * (1 - c.saturation * x) ∈ unitInterval :=
      unitInterval.mul_mem h.value
        (Set.Icc.one_sub_mem (unitInterval.mul_mem h.saturation hx))
    have hleast : c.value * (1 - c.saturation) ∈ unitInterval := by
      simpa using hless unitInterval.one_mem
    have hfalling := hless hrest
    have hrising := hless (Set.Icc.one_sub_mem hrest)
    refine ⟨_, rfl, ?_⟩
    split
    · exact ⟨h.value, hrising, hleast⟩
    · exact ⟨hfalling, h.value, hleast⟩
    · exact ⟨hleast, h.value, hrising⟩
    · exact ⟨hleast, hfalling, h.value⟩
    · exact ⟨hrising, hleast, h.value⟩
    · exact ⟨h.value, hleast, hfalling⟩

theorem ofRgb_valid {rgb : Rgb ℝ} (h : rgb.Proper) :
    ∃ colour, ofRgb rgb = .ok colour ∧ colour.Valid := by
  have hchannel {x : ℝ} (hx : x ∈ unitInterval) :
      ∃ n, Scalar.nearest (x * 255.0) = .ok n ∧ n ∈ Set.Icc 0 255 := by
    apply Scalar.nearest_mem
    obtain ⟨hlow, hhigh⟩ := hx
    norm_num
    constructor <;> linarith
  obtain ⟨r, hr, hred⟩ := hchannel h.red
  obtain ⟨g, hg, hgreen⟩ := hchannel h.green
  obtain ⟨b, hb, hblue⟩ := hchannel h.blue
  refine ⟨[r, g, b], ?_, rfl, ?_⟩
  · unfold ofRgb
    rw [hr, hg, hb]
    rfl
  · simpa only [List.forall_mem_cons] using ⟨hred, hgreen, hblue, nofun⟩

variable {ν : Type}

/-- A shift of a valid colour gives a valid colour, whatever is drawn. -/
theorem meets_shift_valid {colour : Colour} (h : colour.Valid) :
    Meets (fun _ => True) (colour.shift : Action ν (Draws ℝ) Colour) (fun _ => False)
      fun shifted _ => shifted.Valid := by
  obtain ⟨rgb, hrgb, hparts⟩ := toRgb_proper h
  obtain ⟨hsv, hhsv, hhue⟩ := Rgb.toHsv_proper hparts
  have hdraw (low high : ℝ) : Meets (fun _ => True)
      (Draws.uniform low high : Action ν (Draws ℝ) ℝ) (fun _ => False) fun _ _ => True :=
    .returns fun _ _ => ⟨_, rfl, trivial⟩
  unfold shift
  rw [hrgb, ofExcept_ok, pure_bind, hhsv, ofExcept_ok, pure_bind]
  refine (hdraw _ _).bind fun turn => (hdraw _ _).bind fun more => (hdraw _ _).bind fun light => ?_
  have hmoved : Hsv.Proper ⟨Scalar.floorMod (hsv.hue + turn / 360.0) 1,
      Scalar.clamp (hsv.saturation + more / 100.0) 0 1,
      Scalar.clamp (hsv.value + light / 100.0) 0 1⟩ := by
    refine ⟨?_, Scalar.clamp_mem zero_le_one _, Scalar.clamp_mem zero_le_one _⟩
    rw [Scalar.floorMod_one_real]
    exact ⟨Int.fract_nonneg _, Int.fract_lt_one _⟩
  obtain ⟨shifted, hshifted, hparts⟩ := Hsv.toRgb_proper hmoved
  obtain ⟨result, hresult, hvalid⟩ := ofRgb_valid hparts
  dsimp only
  rw [hshifted, ofExcept_ok, pure_bind, hresult]
  exact .pure fun _ _ => hvalid

end Colour

/-! ### Along a walk -/

namespace Walk

variable {α ν : Type} [Scalar α] {good : Colour → Prop} {t : Traits α} {w : Walk α}

/-- Every colour that a walk has at hand, or has drawn with, is a good one. -/
structure Tinted (good : Colour → Prop) (w : Walk α) : Prop where
  pen : good w.pen.colour
  saved : ∀ pen ∈ w.saved, good pen.colour
  segments : ∀ s ∈ w.segments.toList, good s.colour

theorem Tinted.start (h : good t.stemColour) : Tinted good (start t) := ⟨h, nofun, nofun⟩

omit [Scalar α] in
/-- What leaves no segment leaves the colours of those there are. -/
theorem Tinted.plain (h : Tinted good w) {pen : Pen α} {saved : List (Pen α)} {angleStep : α}
    {fruits : Array (Fruit α)} (hpen : good pen.colour) (hsaved : ∀ p ∈ saved, good p.colour) :
    Tinted good
      { w with pen := pen, saved := saved, angleStep := angleStep, fruits := fruits } :=
  ⟨hpen, hsaved, h.segments⟩

theorem colour_of_forward {stepLength : α} {pen : Pen α}
    (h : w.forward stepLength = .ok pen) : pen.colour = w.pen.colour := by
  unfold forward at h
  cases hdirection : Scalar.direction w.pen.heading with
  | error fault =>
    rw [hdirection] at h
    cases h
  | ok direction =>
    rw [hdirection] at h
    cases h
    rfl

theorem Tinted.draw (h : Tinted good w) {stepLength : α} {w' : Walk α}
    (hdraw : w.draw stepLength = .ok w') : Tinted good w' := by
  unfold Walk.draw at hdraw
  cases hpen : w.forward stepLength with
  | error fault =>
    rw [hpen] at hdraw
    cases hdraw
  | ok pen =>
    rw [hpen] at hdraw
    cases hdraw
    have hcolour : good pen.colour := colour_of_forward hpen ▸ h.pen
    refine ⟨hcolour, h.saved, ?_⟩
    rw [Array.toList_push]
    intro s hs
    rcases List.mem_append.mp hs with hs | hs
    · exact h.segments s hs
    · cases List.mem_singleton.mp hs
      exact hcolour

section
variable (hshift : ∀ colour, good colour → Meets (fun _ => True)
  (colour.shift : Action ν (Draws α) Colour) (fun _ => True) fun shifted _ => good shifted)
include hshift

/-- What a shift keeps of a colour, a symbol keeps of all colours of a walk. -/
theorem meets_follow_tinted (symbol : Char) (h : Tinted good w) :
    Meets (fun _ => True) (w.follow t symbol : Action ν (Draws α) (Walk α)) (fun _ => True)
      fun w' _ => Tinted good w' := by
  unfold follow
  split
  · exact (Meets.ofExcept _ fun _ _ => trivial).weaken fun _ _ hw => h.draw hw.1
  · exact (Meets.ofExcept _ fun _ _ => trivial).weaken fun _ _ hw => h.draw hw.1
  · refine (Meets.ofExcept _ fun _ _ => trivial).bind fun pen => .pure fun _ hpen => ?_
    exact h.plain (colour_of_forward hpen.1 ▸ h.pen) h.saved
  · exact meets_after _ fun angle => .pure fun _ _ => h.plain h.pen h.saved
  · exact meets_after _ fun angle => .pure fun _ _ => h.plain h.pen h.saved
  · exact .pure fun _ _ => h.plain h.pen h.saved
  · exact .pure fun _ _ => h.plain h.pen h.saved
  · exact .pure fun _ _ => h.plain h.pen (List.forall_mem_cons.mpr ⟨h.pen, h.saved⟩)
  · split
    · exact .pure fun _ _ => h
    · rename_i pen saved hsaved
      obtain ⟨hpen, hrest⟩ := List.forall_mem_cons.mp (hsaved ▸ h.saved)
      exact .pure fun _ _ => h.plain hpen hrest
  · exact .pure fun _ _ => h.plain h.pen h.saved
  · exact .pure fun _ _ => h.plain h.pen h.saved
  · refine meets_after _ fun luck => ?_
    split
    · exact meets_after _ fun size => .pure fun _ _ => h.plain h.pen h.saved
    · exact .pure fun _ _ => h
  · split
    · exact (hshift _ h.pen).bind fun colour => .pure fun _ hgood => h.plain hgood h.saved
    · exact .pure fun _ _ => h
  · exact .pure fun _ _ => h

theorem meets_followAll_tinted (word : List Char) (h : Tinted good w) :
    Meets (fun _ => True) (w.followAll t word : Action ν (Draws α) (Walk α)) (fun _ => True)
      fun w' _ => Tinted good w' := by
  induction word generalizing w with
  | nil => exact .pure fun _ _ => h
  | cons symbol word ih =>
    refine (meets_follow_tinted hshift symbol h).bind fun w' => ?_
    refine Meets.assume (Tinted good w') (fun _ hw => hw) fun hw => ?_
    exact (ih hw).of_pre fun _ _ => trivial

end

/-- In exact arithmetic a valid colour can be shifted, whatever is drawn, to a valid colour. A walk
that starts with one therefore comes to the end of any word, and draws every segment with one. -/
theorem colours_valid {colour : Colour} (h : colour.Valid) :
    (∀ d : Draws ℝ, ∃ shifted,
      (colour.shift d : Report ν _ _).result = .ok shifted ∧ shifted.Valid) ∧
    ∀ (t : Traits ℝ) (word : List Char) (d : Draws ℝ), t.stemColour = colour → ∃ w,
      (along t word d : Report ν _ _).result = .ok w ∧ ∀ s ∈ w.segments.toList, s.colour.Valid := by
  refine ⟨fun d => (Colour.meets_shift_valid h).returned trivial, ?_⟩
  rintro t word d rfl
  have htinted (part : List Char) {w : Walk ℝ}
      (hw : (along t part d : Report ν _ _).result = .ok w) : Tinted Colour.Valid w :=
    (meets_followAll_tinted (fun c hc => (Colour.meets_shift_valid hc).stop nofun) part
      (.start h) d trivial).2 w hw
  cases hwalk : (along t word d : Report ν _ _).result with
  | ok w => exact ⟨w, rfl, (htinted word hwalk).segments⟩
  | error e =>
    -- Nothing stops the walk: no heading is infinite, and every colour at hand can be shifted.
    obtain ⟨before, symbol, after, w, -, hbefore, hhalt⟩ := followAll_error_iff.mp hwalk
    cases hhalt with
    | astray _ hlost => simp [Scalar.isInfinite_real] at hlost
    | discoloured _ hshift =>
      obtain ⟨shifted, hok, -⟩ :=
        (Colour.meets_shift_valid (htinted before hbefore).pen).returned trivial
      cases hshift.symm.trans hok

theorem colours_valid_default :
    Grammar.defaultStemColour.Valid ∧
    (∃ shifted, (Grammar.defaultStemColour.shift (.cycle #[(0.5 : ℝ)]) : Report Unit _ _).result =
      .ok shifted ∧ shifted.Valid) ∧
    ∃ w, (along { Traits.default (20 : ℝ) with colourVaries := true } ['c', 'F', '[', 'c', 'F']
      (.cycle #[0.5]) : Report Unit _ _).result = .ok w ∧
        ∀ s ∈ w.segments.toList, s.colour.Valid := by
  have hstem : Grammar.defaultStemColour.Valid := by decide
  obtain ⟨hshift, hwalk⟩ := colours_valid (ν := Unit) hstem
  exact ⟨hstem, hshift _, hwalk _ _ _ rfl⟩

end Walk
end Arboretum
