import Arboretum.Proofs.Garden.Sowing
import Arboretum.Proofs.Growth.Finish
import Arboretum.Proofs.Plant.Rearing
import Arboretum.Proofs.Walk.Passage

/-!
Plants that ripen at once. In exact arithmetic, and in a world with room for points, a plant that
gains all its growth in a tick, and may build its whole skeleton in a batch, is fully grown and all
built after its first tick.
-/
namespace Arboretum

open Arboretum.Action

namespace Growth

/-! ### Building without end -/

section
variable {α σ : Type} {crew : Crew α σ} {kept : σ → Prop}
  (hbuild : ∀ s i, Meets kept (crew.build s i) (fun _ => False) fun _ => kept)
include hbuild

theorem meets_buildBatch_kept (budget : Int) (n left : Nat) :
    Meets (fun t => kept t.2) (buildBatch crew budget n left) (fun _ => False)
      fun _ t => kept t.2 := by
  induction left generalizing n with
  | zero => exact .pure fun _ ht => ht
  | succ left ih =>
    unfold buildBatch
    refine meets_plan.bind fun g => .of_pre ?_ fun _ ht => ht.2
    dsimp only
    split
    · split
      · exact (meets_build_kept hbuild _).bind fun _ =>
          Meets.bind (.modify fun _ ht => ht) fun _ => ih _
      · exact Meets.bind (.modify fun _ ht => ht) fun _ => ih _
    · exact .pure fun _ ht => ht

theorem meets_recorded_build (s : Segment α) (index : Nat) :
    Meets (fun t => kept t.2) ((recording crew).build s index) (fun _ => False)
      fun _ t => kept t.2 := by
  have hone : Meets (fun t : List (Task α) × σ => kept t.2) (crew.build s index).onSnd
      (fun _ => False) fun _ t => kept t.2 := fun t ht => hbuild s index t.2 ht
  exact hone.bind fun _ => Meets.bind (.modify fun _ ht => ht) fun _ => .pure fun _ ht => ht

end

variable {σ : Type} {crew : Crew ℝ σ} {kept : σ → Prop}

/-- A crew that no segment can stop builds what is due. -/
theorem meets_buildDue_kept
    (hbuild : ∀ s i, Meets kept (crew.build s i) (fun _ => False) fun _ => kept) :
    Meets (fun t => kept t.2) (buildDue crew) (fun _ => False) fun _ t => kept t.2 := by
  unfold buildDue
  refine meets_plan.bind fun g => .of_pre ?_ fun _ ht => ht.2
  split
  · exact (Gives.floor _).meets.bind fun _ => meets_buildBatch_kept hbuild _ _ _
  · exact .pure fun _ ht => ht

/-! ### Plans -/

/-- A plan that has not been ticked yet. -/
structure Early (new g : Growth ℝ) (done : List (Task ℝ)) : Prop where
  books : Books g done
  segments : g.segments = new.segments
  divisor : g.divisor = new.divisor
  growth : g.growth = new.growth
  rate : g.rate = new.rate

theorem Early.rooting (new : Growth ℝ) : Rooting (Early new) where
  books _ _ h := h.books
  built _ _ _ _ h _ _ hs hnew := ⟨h.books.mark hs hnew, h.segments, h.divisor, h.growth, h.rate⟩

/-- A plan whose roots have been placed still awaits its first tick. -/
theorem Early.placed {new : Growth ℝ} (hbooks : Books new []) (hseeded : new.stage = .seeded)
    {s : List (Task ℝ) × σ} (hnone : s.1 = []) {count : Nat}
    (hplaced : (placeRoots (recording crew) (new, s)).result = .ok count) :
    Recorded (fun g done => Early new g done ∧ g.stage = .rooted)
      (placeRoots (recording crew) (new, s)).state := by
  have hnew : Early new new s.1 := ⟨hnone ▸ hbooks, rfl, rfl, rfl, rfl⟩
  obtain ⟨hstage, hkept | ⟨was, -, hkept, hroot⟩⟩ := (meets_placeRoots (rooting new).seeded crew
    (new, s) ⟨⟨hnew, hseeded⟩, fun _ => hnone⟩).2 count hplaced
  · exact absurd hkept.2 hstage
  · obtain ⟨hbooks, hsegments, hdivisor, hgrowth, hrate⟩ := hkept.1
    unfold Recorded
    rw [hroot]
    exact ⟨⟨hbooks.restage rfl rfl rfl rfl, hsegments, hdivisor, hgrowth, hrate⟩, rfl⟩

/-- A skeleton that is fully grown and all built. -/
def Ripe (segments : Array (Segment ℝ)) (g : Growth ℝ) : Prop :=
  g.segments = segments ∧ g.growth = 1 ∧ ∀ i < g.total, g.isBuilt i = true

theorem Share.ripe {was now : Growth ℝ} {first done : List (Task ℝ)} {n : Nat}
    (h : Share was n now) (hbatch : Batch was first n now done) (hbooks : Books was first)
    (hgrown : was.growth = 1) (hall : was.total ≤ was.batchSize) : Ripe was.segments now := by
  have htotal : now.total = was.total := congrArg Array.size hbatch.segments
  refine ⟨hbatch.segments, hbatch.growth.trans hgrown, ?_⟩
  rcases h.batch hgrown with hend | hfull
  · exact fun i hi => hbatch.books.passed i (Nat.lt_of_lt_of_le hi hend)
  · have hcount := hbatch.count hbooks
    have hfull : now.count = now.total := by
      have hle := hbatch.books.count_le
      omega
    exact fun i hi => (hbatch.books.marks i).mpr (hbatch.books.all_of_full hfull i hi)

/-- A tick that comes to the full growth, and may build the whole skeleton, does so, whatever
becomes of the braces and the fruits. -/
theorem advance_ripe (hbuild : ∀ s i, Meets kept (crew.build s i) (fun _ => False) fun _ => kept)
    {p : Growth ℝ × σ} {done : List (Task ℝ)} (hbooks : Books p.1 done)
    (hstage : p.1.stage ≠ .steady) (hgain : p.1.gain.growth = 1)
    (hall : p.1.total ≤ p.1.batchSize) (hkept : kept p.2) :
    Ripe p.1.segments (advance crew p).state.1 := by
  -- What stands is judged by a record, so the crew keeps one; it builds the same.
  have hview : unrecorded (advance (recording crew) (p.1, done, p.2)).state =
      (advance crew p).state := mirrors_advance.state (p.1, done, p.2)
  have hgainbooks : Books p.1.gain done := hbooks.restage rfl rfl rfl rfl
  obtain ⟨n, hn, -⟩ := (meets_buildDue_kept (meets_recorded_build hbuild)).returned
    (s := (p.1.gain, done, p.2)) hkept
  obtain ⟨hbatch, hshare⟩ := (meets_buildDue crew hgainbooks _ ⟨rfl, rfl⟩).2 n hn
  have hripe : Recorded (fun g _ => Ripe p.1.segments g)
      (buildDue (recording crew) (p.1.gain, done, p.2)).state :=
    hshare.ripe hbatch hgainbooks hgain hall
  have hbrace : Keeps (Recorded fun g _ => Ripe p.1.segments g) (brace (recording crew)) :=
    keeps_brace crew fun _ _ hp _ => hp
  have hhang : Keeps (Recorded fun g _ => Ripe p.1.segments g) (hang (recording crew)) :=
    keeps_hang crew fun _ _ hp _ => hp
  rw [← hview, advance_apply, if_neg hstage]
  unfold work
  rw [bind_of_ok hn]
  exact (hbrace.bind fun _ => hhang.bind fun _ => .pure n) _ hripe

end Growth

/-! ### Plants -/

namespace Plant

theorem update_growth {p : Plant ℝ} (hdrill : p.drill = Drill.none) (hliving : p.destroyed = false)
    (dt : ℝ) (w : World ℝ) : (update dt (w, p)).state.2.growth =
      (Growth.advance crew (p.growth, (w, p.graph))).state.1 := by
  have hready : Drill.check p.drill.update = .ok () := by
    rw [hdrill]
    rfl
  have halive : p.checkAlive "updated" = .ok () := by
    rw [checkAlive, hliving]
    rfl
  unfold update
  rw [read_bind]
  dsimp only
  rw [hready, halive, ofExcept_ok, pure_bind, pure_bind]
  cases hgrown : (growing (Growth.advance crew) (w, p)).result with
  | error e =>
    rw [bind_of_error hgrown]
    rfl
  | ok n =>
    rw [bind_of_ok hgrown]
    split <;> rfl

/-- What is sown so that it needs one tick and one batch is ripe after its first tick. -/
theorem ripens {w : World ℝ} (hw : w.Reached) (hroom : w.Ready) {order : Planting ℝ} {d : Draws ℝ}
    {p : Plant ℝ} (hp : (sow order d).result = .ok p) (hrate : 1 ≤ p.growth.rate)
    (hall : p.growth.total ≤ p.growth.batchSize) (dt : ℝ) :
    ∃ q, (plant order (w, d)).result = .ok q ∧
      let s := (update dt ((plant order (w, d)).state.1, q)).state
      Reared [] s.1 s.2 ∧ Growth.Ripe p.growth.segments s.2.growth := by
  obtain ⟨⟨segments, fruits, hnew⟩, -⟩ := of_sow_ok hp
  have hq : (plant order (w, d)).result = .ok _ := eq_ok_of_isOk (plant_of_sown hroom hp) p
  generalize (plant order (w, d)).result.toOption.getD p = q at hq
  have hreared : Reared [] (plant order (w, d)).state.1 q := .planted hw hq
  obtain ⟨p₀, hp₀, hplaced⟩ := of_plant_ok hq
  cases hp.symm.trans hp₀
  obtain ⟨count, hcount, hfertile⟩ := roots_returned hroom hp
  have hrooted : (Growth.placeRoots crew (p.growth, (w, p.graph))).state =
      (q.growth, ((plant order (w, d)).state.1, q.graph)) :=
    congrArg (fun s : World ℝ × Plant ℝ => (s.2.growth, (s.1, s.2.graph))) hplaced
  -- The books of the first tick are those that the roots leave.
  have hgrowth : (Growth.placeRoots (Growth.recording crew)
      (p.growth, [], w, p.graph)).state.1 = q.growth :=
    congrArg Prod.fst ((Growth.mirrors_placeRoots.state (p.growth, [], w, p.graph)).trans hrooted)
  obtain ⟨hearly, hstage⟩ := Growth.Early.placed (s := ([], w, p.graph)) (.new hnew)
    (sown_of_sow hp).stage rfl ((Growth.mirrors_placeRoots.result _).trans hcount)
  rw [hgrowth] at hearly hstage
  rw [hrooted] at hfertile
  refine ⟨q, hq, hreared.update dt, ?_⟩
  rw [update_growth hreared.tidy.drill hreared.tidy.living, ← hearly.segments]
  refine Growth.advance_ripe meets_crew_build hearly.books ?_ ?_ ?_ hfertile
  · rw [hstage]
    decide
  · have hstart : p.growth.growth = 0 := by
      obtain ⟨_, hnew⟩ := Growth.of_new hnew
      rw [hnew]
    have hgain : q.growth.gain.growth = min 1 (q.growth.growth + q.growth.rate) :=
      Scalar.least_real _ _
    rw [hgain, hearly.growth, hearly.rate, hstart, zero_add, min_eq_left hrate]
  · rw [Growth.batchSize_eq hearly.segments hearly.divisor]
    exact (congrArg Array.size hearly.segments).trans_le hall

end Plant

/-! ### Masts -/

/-- A plant of one straight trunk. -/
def Grammar.mast (n : Nat) : Grammar ℝ where
  name := "mast"
  start := List.replicate n 'F'
  rules := []
  angle := 0
  iterations := 0
  fruitProbability := 0
  colourVaries := false
  stemColour := defaultStemColour
  leafColour := defaultLeafColour
  fruitColour := defaultFruitColour
  stemThickness := 1

theorem Grammar.expand_mast {n : Nat} (hn : n ≤ maxLength) (d : Draws ℝ) :
    (mast n).expand d = ⟨.ok (List.replicate n 'F'), d, []⟩ := by
  have hkept : (List.replicate n 'F').take maxLength = List.replicate n 'F' :=
    List.take_of_length_le (by simpa using hn)
  calc (mast n).expand d = ⟨.ok ((List.replicate n 'F').take maxLength), d, []⟩ := rfl
    _ = _ := by rw [hkept]

namespace Walk

variable {ν : Type} (t : Traits ℝ)

/-- How high a walk gets with so many steps straight up. -/
def height (k : Nat) : Vec ℝ := ⟨0, -(k * t.stepLength)⟩

/-- A segment that is drawn straight up. -/
noncomputable def rung (k : Nat) : Segment ℝ where
  start := height t k
  tip := height t (k + 1)
  depth := 0
  thickness := 1
  heading := (start t).pen.heading
  colour := t.stemColour
  isRoot := decide (rootLine ≤ (height t k).y)

/-- A walk that has gone straight up so far. -/
noncomputable def climbed (k : Nat) : Walk ℝ :=
  { start t with
    pen := { (start t).pen with position := height t k }
    segments := Array.ofFn fun i : Fin k => rung t i }

theorem start_climbed : start t = climbed t 0 := by
  have hfoot : height t 0 = ⟨0, 0⟩ := by
    simp [height]
  unfold climbed
  rw [hfoot]
  rfl

theorem forward_climbed (k : Nat) :
    (climbed t k).forward t.stepLength = .ok (climbed t (k + 1)).pen := by
  have hup : Scalar.direction (climbed t k).pen.heading = .ok ((0 : ℝ), -1) := by
    have hheading : (climbed t k).pen.heading = -(Real.pi / 2) := by
      have hhalf : (climbed t k).pen.heading = -Real.pi / 2.0 := rfl
      rw [hhalf]
      norm_num
      ring
    have hcos : Scalar.cos (-(Real.pi / 2)) = (0 : ℝ) :=
      (Real.cos_neg _).trans Real.cos_pi_div_two
    have hsin : Scalar.sin (-(Real.pi / 2)) = (-1 : ℝ) :=
      (Real.sin_neg _).trans (congrArg Neg.neg Real.sin_pi_div_two)
    unfold Scalar.direction
    rw [Scalar.isInfinite_real, hheading, hcos, hsin]
    rfl
  have hheight : (⟨(height t k).x + 0 * t.stepLength, (height t k).y + -1 * t.stepLength⟩ : Vec ℝ) =
      height t (k + 1) := by
    unfold height
    push_cast
    congr 1 <;> ring
  unfold forward
  rw [hup]
  exact congrArg (fun p => Except.ok { (climbed t k).pen with position := p }) hheight

theorem draw_climbed (k : Nat) :
    (climbed t k).draw t.stepLength = .ok (climbed t (k + 1)) := by
  have hsegments : (climbed t (k + 1)).segments = (climbed t k).segments.push (rung t k) :=
    Array.ofFn_succ
  unfold draw
  rw [forward_climbed]
  change Except.ok { climbed t k with
    pen := (climbed t (k + 1)).pen, segments := (climbed t k).segments.push (rung t k) } = _
  rw [← hsegments]
  rfl

/-- A walk along strokes alone goes straight up. -/
theorem along_strokes (k : Nat) (d : Draws ℝ) :
    (along t (List.replicate k 'F') d : Report ν _ _) = ⟨.ok (climbed t k), d, []⟩ := by
  unfold along
  induction k with
  | zero =>
    rw [← start_climbed]
    rfl
  | succ k ih =>
    have hstroke : ((climbed t k).follow t 'F' d : Report ν _ _) =
        ⟨(climbed t k).draw t.stepLength, d, []⟩ := rfl
    rw [List.replicate_succ', followAll_concat, bind_ok ih, hstroke, draw_climbed]
    rfl

/-- The walk that draws a mast. -/
noncomputable def mast (n : Nat) : Walk ℝ := climbed (Traits.ofGrammar (.mast n)) n

theorem size_mast (n : Nat) : (mast n).segments.size = n := Array.size_ofFn

theorem ofGrammar_mast {n : Nat} (hn : n ≤ Grammar.maxLength) (d : Draws ℝ) :
    ofGrammar (Grammar.mast n) d = ⟨.ok (List.replicate n 'F', mast n), d, []⟩ := by
  unfold ofGrammar
  rw [bind_ok (Grammar.expand_mast hn d), bind_ok (along_strokes _ n d)]
  rfl

end Walk

namespace Plant

/-- An order for a mast that grows in one tick. -/
noncomputable def mastOrder (n : Nat) : Planting ℝ where
  spot := ⟨0, 0⟩
  seed := .grammar (.mast n)
  rate := 1
  divisor := 1
  scale := some 1
  scaleRange := defaultScaleRange
  ownsWorld := false

theorem sow_mast {n : Nat} (hn : n ≤ Grammar.maxLength) (d : Draws ℝ) :
    ∃ p, (sow (mastOrder n) d).result = .ok p ∧
      p.growth.segments = (Walk.mast n).segments ∧ p.growth.rate = 1 ∧ p.growth.divisor = 1 := by
  have hdraw : Meets (fun _ => True) (Draws.integer 1000 9999 : Action (Note ℝ) (Draws ℝ) Int)
      (fun _ => False) fun _ _ => True := Draws.meets_integer (fun _ _ => trivial) 1000 9999
  obtain ⟨id, hid, -⟩ := hdraw.returned (s := d) trivial
  have hseed : (mastOrder n).seed.choose =
      (Pure.pure (Grammar.mast n, 1) : Action (Note ℝ) (Draws ℝ) _) := rfl
  have hscale : drawScale (mastOrder n) = Pure.pure 1 := rfl
  obtain ⟨g, hg, hplan⟩ : ∃ g, Growth.new (Walk.mast n).segments
      (Walk.mast n).fruits.toList (mastOrder n).rate (mastOrder n).divisor = .ok g ∧
      g.segments = (Walk.mast n).segments ∧ g.rate = 1 ∧ g.divisor = 1 := by
    have hsign : ¬ (mastOrder n).divisor < 0 := not_lt.mpr zero_le_one
    have hone : Scalar.truncate (mastOrder n).divisor = .ok 1 := by
      unfold Scalar.truncate
      rw [if_neg hsign]
      exact congrArg Except.ok Int.floor_one
    unfold Growth.new
    rw [hone]
    exact ⟨_, rfl, rfl, rfl, rfl⟩
  unfold sow
  rw [bind_of_ok hid, hseed, pure_bind, hscale]
  dsimp only
  rw [bind_ok (Walk.ofGrammar_mast hn _), pure_bind, hg]
  exact ⟨_, rfl, hplan⟩

/-- An empty world with room for points. -/
noncomputable def clearing : World ℝ := World.new 0 Setting.default 1

/-- A mast is ripe after a tick. -/
theorem mast_ripens {n : Nat} (hn : n ≤ Grammar.maxLength) (d : Draws ℝ) (dt : ℝ) :
    ∃ q, (plant (mastOrder n) (clearing, d)).result = .ok q ∧
      let s := (update dt ((plant (mastOrder n) (clearing, d)).state.1, q)).state
      Reared [] s.1 s.2 ∧ Growth.Ripe (Walk.mast n).segments s.2.growth := by
  obtain ⟨p, hp, hsegments, hrate, hdivisor⟩ := sow_mast hn d
  have hreached : clearing.Reached := .new 0 Setting.default 1
  have hroom : clearing.Ready := .new 0 Setting.default (by decide)
  rw [← hsegments]
  refine ripens hreached hroom hp hrate.ge ?_ dt
  rw [Growth.batchSize, hdivisor, Nat.div_one]
  exact Nat.le_max_right _ _

end Plant
end Arboretum
