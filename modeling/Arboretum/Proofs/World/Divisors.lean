import Arboretum.Proofs.World.Settling
import Arboretum.Force.Apply

/-!
What a step of a world and a pull on its points divide by. In exact arithmetic all of it is above
zero, whatever was asked of the world before. That nothing is left out of account is shown by
putting another division in the place of the division: where the two agree at what is listed here,
the step and the pull cannot tell them apart.
-/
namespace Arboretum

/-- The real numbers with another division. -/
@[reducible] noncomputable def dividing (div : ℝ → ℝ → ℝ) : Scalar ℝ :=
  { (inferInstance : Scalar ℝ) with div }

/-- A division that is the usual one at a divisor. -/
def Usual (div : ℝ → ℝ → ℝ) (divisor : ℝ) : Prop := ∀ a, div a divisor = a / divisor

/-- A spring that moves when it is relaxed has an end that is not pinned. -/
noncomputable def Wire.isLoose (rows : Array (Particle ℝ)) (w : Wire ℝ) : Bool :=
  !((row rows w.a).pinned && (row rows w.b).pinned)

/-- How readily the two ends of a spring give way together. -/
noncomputable def Wire.yield (rows : Array (Particle ℝ)) (w : Wire ℝ) : ℝ :=
  (row rows w.a).yield + (row rows w.b).yield

/-- The length that a spring is taken to have. -/
noncomputable def Wire.span (rows : Array (Particle ℝ)) (w : Wire ℝ) : ℝ :=
  Scalar.upper ((row rows w.b).position - (row rows w.a).position).norm minLength

/-- The lengths that springs are taken to have, in each pass and in the damping after the last. -/
noncomputable def spans (passes : Nat) (wires : List (Wire ℝ)) (rows : Array (Particle ℝ)) :
    List ℝ :=
  (List.range (passes + 1)).flatMap fun pass =>
    let relaxed := Nat.repeat (relaxPass (wires.map fun w => (w, w.shares rows))) pass rows
    wires.map (·.span relaxed)

/-- What relaxing springs divides by, apart from masses. -/
noncomputable def springDivisors (passes : Nat) (wires : List (Wire ℝ))
    (rows : Array (Particle ℝ)) : List ℝ :=
  (wires.filter (·.isLoose rows)).map (·.yield rows) ++ spans passes wires rows

/-- What a step of a world divides by: the masses of the points alive, and what relaxing its springs
divides by once the points have moved on. -/
noncomputable def World.divisors (dt : ℝ) (w : World ℝ) : List ℝ :=
  w.seated.map (·.2.mass) ++
    springDivisors w.setting.passes w.freshWires (w.mapLive (.drift w.setting dt)).rows

/-- What a pull on a point divides its distance by. -/
noncomputable def Pull.reach (s : Pull ℝ) (p : Vec ℝ) : ℝ :=
  let distance := (s.centre - p).norm
  if distance ≤ leastDistance then 1 else distance

/-- What pulling points divides by: the radii of the fields that have one, and the distances of the
points that are free. -/
noncomputable def World.pullDivisors (w : World ℝ) (points : List Nat) (sources : List (Pull ℝ)) :
    List ℝ :=
  (sources.filter fun s => !s.isVoid).flatMap fun s =>
    s.radius :: (w.free points).map fun (_, p) => s.reach p.position

/-! ### They are above zero -/

section

variable {rows : Array (Particle ℝ)} {w : Wire ℝ}

theorem Wire.yield_pos (ha : 0 < (row rows w.a).mass) (hb : 0 < (row rows w.b).mass)
    (h : w.isLoose rows = true) : 0 < w.yield rows := by
  refine Particle.yield_add_pos ha hb fun ⟨hpa, hpb⟩ => ?_
  simp [isLoose, hpa, hpb] at h

theorem Wire.isLoose_of_yield (h : 0 < w.yield rows) : w.isLoose rows = true := by
  unfold isLoose
  by_contra hpinned
  simp only [Bool.not_eq_true, Bool.not_eq_false', Bool.and_eq_true] at hpinned
  simp [yield, Particle.yield, hpinned.1, hpinned.2] at h

theorem Wire.span_pos (rows : Array (Particle ℝ)) (w : Wire ℝ) : 0 < w.span rows := by
  unfold span Scalar.upper
  split
  · rename_i h
    exact minLength_pos.trans_le h
  · rw [Scalar.isNaN_real]
    exact minLength_pos

theorem mem_springDivisors {passes : Nat} {wires : List (Wire ℝ)} {divisor : ℝ} :
    divisor ∈ springDivisors passes wires rows ↔
      (∃ w ∈ wires, w.isLoose rows = true ∧ w.yield rows = divisor) ∨
      ∃ pass ≤ passes, ∃ w ∈ wires, w.span
        (Nat.repeat (relaxPass (wires.map fun w => (w, w.shares rows))) pass rows) = divisor := by
  simp [springDivisors, spans, and_assoc]

theorem Pull.reach_pos (s : Pull ℝ) (p : Vec ℝ) : 0 < s.reach p := by
  have hleast : (0 : ℝ) < leastDistance := minLength_pos
  unfold reach
  dsimp only
  split
  · exact zero_lt_one
  · rename_i h
    exact hleast.trans (not_le.mp h)

end

namespace World

variable {w : World ℝ}

/-- The masses of the points alive are those of the rows in use. -/
theorem row_mass (h : Sound w) {good : ℝ → Prop}
    (hgood : ∀ mass ∈ w.seated.map (·.2.mass), good mass) {i : Nat} (hi : i < w.count) :
    good (Wire.row w.rows i).mass := by
  have hmasses (id : Nat) (p : Particle ℝ) (hp : w.particle? id = some p) : good p.mass := by
    have hbody : id ∈ w.bodies := by
      rw [mem_bodies h, ← h.particle?_isSome, hp]
      rfl
    refine hgood _ (List.mem_map.mpr ⟨(id, p), List.mem_filterMap.mpr ⟨id, ?_, ?_⟩, rfl⟩)
    · exact Array.mem_toList_iff.mpr hbody
    · rw [hp]
      rfl
  exact row_of_particle? h hmasses hi

theorem drift_mass (h : Sound w) (dt : ℝ) {i : Nat} (hi : i < w.count) :
    (Wire.row (w.mapLive (.drift w.setting dt)).rows i).mass = (Wire.row w.rows i).mass := by
  rw [row_mapLive h _ hi]
  rfl

theorem divisors_pos (hw : Reached w) (dt : ℝ) : ∀ divisor ∈ w.divisors dt, 0 < divisor := by
  have h := hw.sound
  have hmasses : ∀ mass ∈ w.seated.map (·.2.mass), 0 < mass := by
    intro mass hmass
    obtain ⟨⟨id, p⟩, hseated, rfl⟩ := List.mem_map.mp hmass
    obtain ⟨id, -, hp⟩ := List.mem_filterMap.mp hseated
    obtain ⟨p, hp, heq⟩ := Option.map_eq_some_iff.mp hp
    cases heq
    exact hw.masses massOf_pos_real id p hp
  have hrow : ∀ {i : Nat}, i < w.count →
      0 < (Wire.row (w.mapLive (.drift w.setting dt)).rows i).mass := fun hi => by
    rw [drift_mass h dt hi]
    exact row_mass h hmasses hi
  intro divisor hdivisor
  rcases List.mem_append.mp hdivisor with hmass | hspring
  · exact hmasses divisor hmass
  · rcases mem_springDivisors.mp hspring with ⟨x, hx, hloose, rfl⟩ | ⟨pass, -, x, -, rfl⟩
    · obtain ⟨ha, hb⟩ := freshWires_lt h hx
      exact Wire.yield_pos (hrow ha) (hrow hb) hloose
    · exact Wire.span_pos _ x

theorem pullDivisors_pos (w : World ℝ) (points : List Nat) (sources : List (Pull ℝ)) :
    ∀ divisor ∈ w.pullDivisors points sources, 0 < divisor := by
  intro divisor hdivisor
  obtain ⟨s, hs, hdivisor⟩ := List.mem_flatMap.mp hdivisor
  rcases List.mem_cons.mp hdivisor with rfl | hreach
  · have hradius := (List.mem_filter.mp hs).2
    simpa [Pull.isVoid] using hradius
  · obtain ⟨⟨id, p⟩, -, rfl⟩ := List.mem_map.mp hreach
    exact s.reach_pos p.position

end World

/-! ### Nothing is left out -/

section

variable {div : ℝ → ℝ → ℝ} {rows : Array (Particle ℝ)} {p q : Particle ℝ}

theorem Vec.divideBy_dividing {divisor : ℝ} (h : Usual div divisor) (v : Vec ℝ) :
    @divideBy ℝ (dividing div) v divisor = v.divideBy divisor :=
  congrArg₂ Vec.mk (h v.x) (h v.y)

theorem Particle.drift_dividing (h : Usual div p.mass) (s : Setting ℝ) (dt : ℝ) :
    @drift ℝ (dividing div) s dt p = p.drift s dt := by
  have hforce := Vec.divideBy_dividing h p.force
  unfold drift
  rw [hforce]
  rfl

theorem Particle.yield_dividing (h : Usual div p.mass) :
    @yield ℝ (dividing div) p = p.yield := by
  unfold yield
  split
  · rfl
  · exact h 1

theorem Shares.between_dividing (hp : Usual div p.mass) (hq : Usual div q.mass)
    (h : 0 < p.yield + q.yield → Usual div (p.yield + q.yield)) :
    @between ℝ (dividing div) p q = between p q := by
  unfold between
  rw [Particle.yield_dividing hp, Particle.yield_dividing hq]
  dsimp only
  split
  · rename_i hpos
    exact congrArg₂ Shares.mk (h hpos _) (h hpos _)
  · rfl

theorem Wire.shares_dividing {w : Wire ℝ} (ha : Usual div (row rows w.a).mass)
    (hb : Usual div (row rows w.b).mass) (h : w.isLoose rows = true → Usual div (w.yield rows)) :
    @shares ℝ (dividing div) rows w = w.shares rows :=
  Shares.between_dividing ha hb fun hpos => h (isLoose_of_yield hpos)

theorem Wire.relax_dividing {w : Wire ℝ} (h : Usual div (w.span rows)) (s : Shares ℝ) :
    @relax ℝ (dividing div) rows w s = w.relax rows s := by
  have hcorrect : @correct ℝ (dividing div) w (row rows w.a) (row rows w.b) =
      w.correct (row rows w.a) (row rows w.b) :=
    congrArg (fun stretch => ((row rows w.b).position - (row rows w.a).position).scale
      (stretch * w.stiffness)) (h _)
  exact congrArg (fun c : Vec ℝ => Nudge.mk w.a w.b (c.scale s.a) ((-c).scale s.b)) hcorrect

theorem Wire.damp_dividing {w : Wire ℝ} (h : Usual div (w.span rows)) (s : Shares ℝ) :
    @damp ℝ (dividing div) rows w s = w.damp rows s := by
  let relative := ((row rows w.b).position - (row rows w.b).previous) -
    ((row rows w.a).position - (row rows w.a).previous)
  have himpulse : @impulse ℝ (dividing div) w (row rows w.a) (row rows w.b) =
      w.impulse (row rows w.a) (row rows w.b) :=
    congrArg (fun normal : Vec ℝ => normal.scale (relative.dot normal * w.damping))
      (Vec.divideBy_dividing h _)
  exact congrArg (fun i : Vec ℝ => Nudge.mk w.a w.b ((-i).scale s.a) (i.scale s.b)) himpulse

theorem relaxPass_dividing {wires : List (Wire ℝ × Shares ℝ)}
    (h : ∀ x ∈ wires, Usual div (x.1.span rows)) :
    @relaxPass ℝ (dividing div) wires rows = relaxPass wires rows :=
  congrArg (nudgeAll Particle.shift · rows)
    (List.map_congr_left fun x hx => Wire.relax_dividing (h x hx) x.2)

theorem dampPass_dividing {wires : List (Wire ℝ × Shares ℝ)}
    (h : ∀ x ∈ wires, Usual div (x.1.span rows)) :
    @dampPass ℝ (dividing div) wires rows = dampPass wires rows :=
  congrArg (nudgeAll Particle.shiftPrevious · rows)
    (List.map_congr_left fun x hx => Wire.damp_dividing (h x hx) x.2)

theorem relaxSprings_dividing {passes : Nat} {wires : List (Wire ℝ)}
    (hmasses : ∀ w ∈ wires, Usual div (Wire.row rows w.a).mass ∧
      Usual div (Wire.row rows w.b).mass)
    (h : ∀ divisor ∈ springDivisors passes wires rows, Usual div divisor) :
    @relaxSprings ℝ (dividing div) passes wires rows = relaxSprings passes wires rows := by
  have hshares : (wires.map fun w => (w, @Wire.shares ℝ (dividing div) rows w)) =
      wires.map fun w => (w, w.shares rows) := by
    refine List.map_congr_left fun w hw => congrArg (w, ·) ?_
    obtain ⟨ha, hb⟩ := hmasses w hw
    exact Wire.shares_dividing ha hb fun hloose =>
      h _ (mem_springDivisors.mpr (.inl ⟨w, hw, hloose, rfl⟩))
  have hspans : ∀ pass ≤ passes, ∀ x ∈ wires.map fun w => (w, w.shares rows), Usual div
      (x.1.span (Nat.repeat (relaxPass (wires.map fun w => (w, w.shares rows))) pass rows)) := by
    intro pass hpass x hx
    obtain ⟨w, hw, rfl⟩ := List.mem_map.mp hx
    exact h _ (mem_springDivisors.mpr (.inr ⟨pass, hpass, w, hw, rfl⟩))
  have hpasses : ∀ pass ≤ passes,
      Nat.repeat (@relaxPass ℝ (dividing div) (wires.map fun w => (w, w.shares rows))) pass rows =
        Nat.repeat (relaxPass (wires.map fun w => (w, w.shares rows))) pass rows := by
    intro pass hpass
    induction pass with
    | zero => rfl
    | succ pass ih =>
      have hbefore := Nat.le_of_succ_le hpass
      rw [Nat.repeat, ih hbefore, relaxPass_dividing (hspans pass hbefore)]
      rfl
  unfold relaxSprings
  rw [hshares]
  dsimp only
  rw [hpasses passes le_rfl, dampPass_dividing (hspans passes le_rfl)]

namespace World

variable {w : World ℝ}

/-- What is done to the points alive depends on their rows only. -/
theorem mapLive_congr (h : Sound w) {f g : Particle ℝ → Particle ℝ}
    (hfg : ∀ i < w.count, f (Wire.row w.rows i) = g (Wire.row w.rows i)) :
    w.mapLive f = w.mapLive g := by
  have hrows : (w.rows.mapIdx fun i p => if i < w.count then f p else p) =
      w.rows.mapIdx fun i p => if i < w.count then g p else p := by
    refine Array.ext_getElem? fun i => ?_
    rw [Array.getElem?_mapIdx, Array.getElem?_mapIdx]
    by_cases hi : i < w.count
    · have hrow := hfg i hi
      have hsize : i < w.rows.size := Nat.lt_of_lt_of_le hi h.room
      rw [Wire.row, Array.getD_eq_getD_getElem?, Array.getElem?_eq_getElem hsize,
        Option.getD_some] at hrow
      simp [hi, Array.getElem?_eq_getElem hsize, hrow]
    · simp [hi]
  exact congrArg (fun rows => { w with rows }) hrows

theorem relax_dividing (h : Sound w)
    (hmasses : ∀ i < w.count, Usual div (Wire.row w.rows i).mass)
    (hsprings : ∀ divisor ∈ springDivisors w.setting.passes w.freshWires w.rows,
      Usual div divisor) : @relax ℝ (dividing div) w = w.relax := by
  have hrows : @relaxSprings ℝ (dividing div) w.setting.passes w.currentWires w.rows =
      relaxSprings w.setting.passes w.currentWires w.rows := by
    rw [h.currentWires]
    refine relaxSprings_dividing (fun x hx => ?_) hsprings
    obtain ⟨ha, hb⟩ := freshWires_lt h hx
    exact ⟨hmasses _ ha, hmasses _ hb⟩
  exact congrArg (fun rows => if w.springs.isEmpty then w
    else { w with rows, wires := some w.currentWires }) hrows

theorem step_dividing (h : Sound w) {dt : ℝ} (hd : ∀ divisor ∈ w.divisors dt, Usual div divisor) :
    @step ℝ (dividing div) dt w = w.step dt := by
  obtain ⟨hmasses, hsprings⟩ := List.forall_mem_append.mp hd
  have hrow : ∀ i < w.count, Usual div (Wire.row w.rows i).mass := fun i hi =>
    row_mass h hmasses hi
  have hmoved := moved_mapLive w (Particle.drift_nature w.setting dt)
  have hdrift : w.mapLive (@Particle.drift ℝ (dividing div) w.setting dt) =
      w.mapLive (.drift w.setting dt) :=
    mapLive_congr h fun i hi => Particle.drift_dividing (hrow i hi) w.setting dt
  have hrelax : @relax ℝ (dividing div) (w.mapLive (.drift w.setting dt)) =
      (w.mapLive (.drift w.setting dt)).relax := by
    refine relax_dividing (hmoved.sound h) (fun i hi => ?_) ?_
    · rw [drift_mass h dt hi]
      exact hrow i hi
    · rw [hmoved.freshWires]
      exact hsprings
  unfold step
  rw [hdrift, hrelax]
  rfl

end World

namespace Pull

variable {s : Pull ℝ} {sources : List (Pull ℝ)} {spot : Vec ℝ}

theorem direction_dividing (h : Usual div (s.reach spot)) :
    @direction ℝ (dividing div) s spot = s.direction spot := by
  unfold reach at h
  dsimp only at h
  split at h
  · rename_i hcentre
    exact (if_pos hcentre).trans (if_pos hcentre).symm
  · rename_i hcentre
    have haway := Vec.divideBy_dividing h (s.centre - spot)
    exact (if_neg hcentre).trans (haway.trans (if_neg hcentre).symm)

theorem forceAt_dividing (hradius : Usual div s.radius) (hreach : Usual div (s.reach spot)) :
    @forceAt ℝ (dividing div) s spot = s.forceAt spot := by
  have hmagnitude : @magnitude ℝ (dividing div) s (s.centre - spot).norm =
      s.magnitude (s.centre - spot).norm :=
    congrArg (fun part => Scalar.lower (s.strength * (1 - part)) s.cap) (hradius _)
  exact congrArg₂ (fun (d : Vec ℝ) m => if (s.centre - spot).norm < s.radius then some (d.scale m)
    else none) (direction_dividing hreach) hmagnitude

theorem total_dividing (h : ∀ s ∈ sources, s.isVoid = false →
    Usual div s.radius ∧ Usual div (s.reach spot)) :
    @total ℝ (dividing div) sources spot = total sources spot := by
  refine List.foldl_ext _ _ _ fun sum s hs => ?_
  by_cases hvoid : s.isVoid = true
  · exact (if_pos hvoid).trans (if_pos hvoid).symm
  · obtain ⟨hradius, hreach⟩ := h s hs (Bool.eq_false_iff.mpr hvoid)
    rw [forceAt_dividing hradius hreach]
    rfl

end Pull

namespace World

variable {w : World ℝ}

theorem pull_dividing {points : List Nat} {sources : List (Pull ℝ)}
    (h : ∀ divisor ∈ w.pullDivisors points sources, Usual div divisor) :
    @pull ℝ (dividing div) points sources w = pull points sources w := by
  have htotal : ∀ x ∈ w.free points, @Pull.total ℝ (dividing div) sources x.2.position =
      Pull.total sources x.2.position := by
    refine fun x hx => Pull.total_dividing fun s hs hvoid => ?_
    have hsource : s ∈ sources.filter fun s => !s.isVoid :=
      List.mem_filter.mpr ⟨hs, by simp [hvoid]⟩
    constructor
    · exact h _ (List.mem_flatMap.mpr ⟨s, hsource, List.mem_cons_self⟩)
    · exact h _ (List.mem_flatMap.mpr ⟨s, hsource,
        List.mem_cons_of_mem _ (List.mem_map.mpr ⟨x, hx, rfl⟩)⟩)
  have hforces : ((w.free points).map fun x =>
        (x.1, @Pull.total ℝ (dividing div) sources x.2.position)) =
      (w.free points).map fun x => (x.1, Pull.total sources x.2.position) :=
    List.map_congr_left fun x hx => congrArg (x.1, ·) (htotal x hx)
  have hpulls : @pulls ℝ (dividing div) w points sources = w.pulls points sources :=
    congrArg (List.filter _) hforces
  unfold pull
  rw [Action.read_bind, Action.read_bind, hpulls]
  rfl

/-- Nothing that a step of a world divides by is zero or below it, whatever calls and steps led to
the world, and neither is anything that a pull on its points divides by. The masses of the points
alive are above zero, whatever masses were asked for. So is what the ends of a spring add up to in
giving way, unless both are pinned, and then nothing is divided by it. So are the lengths that
springs are taken to have in each pass, the radii of the fields that act, and the distances to them.
These are all the divisors there are: with any division that is the usual one there, the step and
the pull come out the same. -/
theorem divides_by_positive (hw : Reached w) (dt : ℝ) (points : List Nat)
    (sources : List (Pull ℝ)) :
    (∀ divisor ∈ w.divisors dt, 0 < divisor) ∧
    (∀ divisor ∈ w.pullDivisors points sources, 0 < divisor) ∧
    ∀ div : ℝ → ℝ → ℝ,
      ((∀ divisor ∈ w.divisors dt, Usual div divisor) →
        @step ℝ (dividing div) dt w = w.step dt) ∧
      ((∀ divisor ∈ w.pullDivisors points sources, Usual div divisor) →
        @pull ℝ (dividing div) points sources w = pull points sources w) :=
  ⟨divisors_pos hw dt, pullDivisors_pos w points sources, fun _ =>
    ⟨step_dividing hw.sound, pull_dividing⟩⟩

/-- Two points without a mass in one spot, which a spring joins, and two pinned ones, which another
does. -/
noncomputable def knot : World ℝ :=
  (history perform
    [.addPoint ⟨0, 0⟩ 0 false, .addPoint ⟨0, 0⟩ (-1) false,
      .addSpring (some 0) (some 1) 1 (some 1) defaultDamping,
      .addPoint ⟨1, 0⟩ 1 true, .addPoint ⟨1, 0⟩ 1 true,
      .addSpring (some 2) (some 3) 1 (some 0) defaultDamping]
    (World.new 0 Setting.default 1)).2

theorem divides_by_positive_knot : Reached knot ∧
    knot.particle? 0 = some (.atRest ⟨0, 0⟩ leastMass false) ∧
    knot.particle? 1 = some (.atRest ⟨0, 0⟩ leastMass false) ∧
    (knot.bond? 0).map (fun bond => (bond.a, bond.b)) = some (0, 1) ∧
    (knot.bond? 1).map (fun bond => (bond.a, bond.b)) = some (2, 3) ∧
    (∀ divisor ∈ knot.divisors 1, 0 < divisor) ∧
    ∀ divisor ∈ knot.pullDivisors [0, 1, 2] [⟨0, 60, 1 / 5, 1 / 10⟩, ⟨0, 0, 1, 1⟩],
      0 < divisor := by
  have hw : Reached knot := reached_history (.new 0 _ 1) _
  have hstore : knot.store = _ :=
    store_history (.new 0 (Setting.default : Setting ℝ) (Nat.le_refl 1)) _
  rw [store_new] at hstore
  have hpoint (id : Nat) : knot.particle? id = _ := congrArg (fun st => st.points id) hstore
  have hbond (serial : Nat) : knot.bond? serial = _ := congrArg (fun st => st.bonds serial) hstore
  have htables : knot.particle? 0 = some (.atRest ⟨0, 0⟩ leastMass false) ∧
      knot.particle? 1 = some (.atRest ⟨0, 0⟩ leastMass false) ∧
      (knot.bond? 0).map (fun bond => (bond.a, bond.b)) = some (0, 1) ∧
      (knot.bond? 1).map (fun bond => (bond.a, bond.b)) = some (2, 3) := by
    simp [hpoint, hbond, history, Store.perform, Store.empty, Store.joinable?,
      Function.update_apply, massOf]
  obtain ⟨hfirst, hsecond, hjoined, hpinned⟩ := htables
  obtain ⟨hstep, hpull, -⟩ :=
    divides_by_positive hw 1 [0, 1, 2] [⟨0, 60, 1 / 5, 1 / 10⟩, ⟨0, 0, 1, 1⟩]
  exact ⟨hw, hfirst, hsecond, hjoined, hpinned, hstep, hpull⟩

end World

end

end Arboretum
