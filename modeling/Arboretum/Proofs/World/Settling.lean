import Mathlib.Data.Real.Basic
import Arboretum.Proofs.World.Momentum
import Arboretum.Proofs.World.Pinned

/-!
A spring by itself settles. In exact arithmetic, each pass leaves of the gap between its length and
its rest length the part that its stiffness does not close, along the line between its ends, and
what damping takes away is velocity along that line.
-/
namespace Arboretum

namespace Vec

theorem norm_sub (a b : Vec ℝ) : (b - a).norm = a.distance b := by
  rw [distance_real]
  change √((b.x - a.x) * (b.x - a.x) + (b.y - a.y) * (b.y - a.y)) = _
  simp only [pow_two]

theorem norm_sq (a : Vec ℝ) : a.norm * a.norm = a.dot a :=
  Real.mul_self_sqrt (add_nonneg (mul_self_nonneg a.x) (mul_self_nonneg a.y))

theorem norm_scale (a : Vec ℝ) {k : ℝ} (hk : 0 ≤ k) : (a.scale k).norm = a.norm * k := by
  have hdot : (a.scale k).dot (a.scale k) = a.dot a * (k * k) := by
    simp only [dot, scale_x, scale_y]
    ring
  change √((a.scale k).dot (a.scale k)) = √(a.dot a) * k
  rw [hdot, Real.sqrt_mul' _ (mul_self_nonneg k), Real.sqrt_mul_self hk]

theorem scale_add (a : Vec ℝ) (k l : ℝ) : a.scale (k + l) = a.scale k + a.scale l := by
  ext <;> simp [mul_add]

theorem scale_zero (a : Vec ℝ) : a.scale 0 = 0 := by
  ext <;> simp

theorem divideBy_eq_scale (a : Vec ℝ) (k : ℝ) : a.divideBy k = a.scale k⁻¹ := rfl

end Vec

theorem minLength_pos : (0 : ℝ) < minLength := by
  unfold minLength
  norm_num

theorem upper_minLength {length : ℝ} (h : minLength ≤ length) :
    Scalar.upper length minLength = length := if_pos h

/-! ### The ends of one spring -/

/-- The direction from one particle to another. -/
noncomputable def Particle.heading (p q : Particle ℝ) : Vec ℝ :=
  (q.position - p.position).divideBy (p.position.distance q.position)

/-- How fast one particle leaves another. -/
noncomputable def Particle.parting (p q : Particle ℝ) : Vec ℝ :=
  (q.position - q.previous) - (p.position - p.previous)

/-- Two particles give way together unless both are pinned. -/
theorem Particle.yield_add_pos {p q : Particle ℝ} (hp : 0 < p.mass) (hq : 0 < q.mass)
    (hloose : ¬ (p.pinned = true ∧ q.pinned = true)) : 0 < p.yield + q.yield := by
  unfold Particle.yield
  split
  · rename_i hpp
    have hqq : ¬ q.pinned = true := fun hqq => hloose ⟨hpp, hqq⟩
    rw [if_neg hqq]
    positivity
  · split
    · positivity
    · positivity

theorem Shares.between_sum {p q : Particle ℝ} (hp : 0 < p.mass) (hq : 0 < q.mass)
    (hloose : ¬ (p.pinned = true ∧ q.pinned = true)) :
    (Shares.between p q).a + (Shares.between p q).b = 1 := by
  have htotal := Particle.yield_add_pos hp hq hloose
  unfold Shares.between
  simp only [htotal, if_true]
  rw [← add_div, div_self htotal.ne']

namespace Wire

variable {w : Wire ℝ} {p q : Particle ℝ}

/-- How long a spring is after some passes. -/
noncomputable def lengthAfter (w : Wire ℝ) (length : ℝ) (k : Nat) : ℝ :=
  w.rest + (1 - w.stiffness) ^ k * (length - w.rest)

theorem lengthAfter_zero (w : Wire ℝ) (length : ℝ) : w.lengthAfter length 0 = length := by
  simp [lengthAfter]

theorem lengthAfter_succ (w : Wire ℝ) (length : ℝ) (k : Nat) : w.lengthAfter length (k + 1) =
    w.lengthAfter length k - (w.lengthAfter length k - w.rest) * w.stiffness := by
  unfold lengthAfter
  ring

/-- What can be relied on of a spring that has room to settle. -/
structure Roomy (w : Wire ℝ) (length : ℝ) : Prop where
  soft : 0 ≤ w.stiffness
  stiff : w.stiffness ≤ 1
  rest : minLength ≤ w.rest
  length : minLength ≤ length

theorem Roomy.factor {length : ℝ} (h : w.Roomy length) (k : Nat) :
    0 ≤ (1 - w.stiffness) ^ k ∧ (1 - w.stiffness) ^ k ≤ 1 :=
  ⟨pow_nonneg (sub_nonneg.mpr h.stiff) k,
    pow_le_one₀ (sub_nonneg.mpr h.stiff) (sub_le_self 1 h.soft)⟩

/-- A spring does not overshoot its rest length. -/
theorem Roomy.between {length : ℝ} (h : w.Roomy length) (k : Nat) :
    w.lengthAfter length k ∈ Set.uIcc w.rest length := by
  obtain ⟨hlow, hhigh⟩ := h.factor k
  unfold Wire.lengthAfter
  rcases le_total w.rest length with hle | hle
  · have hgap := sub_nonneg.mpr hle
    refine Set.mem_uIcc.mpr (.inl ⟨le_add_of_nonneg_right (mul_nonneg hlow hgap), ?_⟩)
    linarith [mul_le_of_le_one_left hgap hhigh]
  · have hgap := sub_nonneg.mpr hle
    refine Set.mem_uIcc.mpr (.inr ⟨?_, ?_⟩)
    · linarith [mul_le_of_le_one_left hgap hhigh]
    · linarith [mul_nonneg hlow hgap]

/-- So it never gets too short to have a direction. -/
theorem Roomy.lengthAfter {length : ℝ} (h : w.Roomy length) (k : Nat) :
    minLength ≤ w.lengthAfter length k :=
  (le_inf h.rest h.length).trans (h.between k).1

/-- What some passes close of the way between the ends. -/
noncomputable def closed (w : Wire ℝ) (p q : Particle ℝ) (k : Nat) : Vec ℝ :=
  let length := p.position.distance q.position
  (q.position - p.position).scale ((length - w.lengthAfter length k) / length)

/-- The ends of a spring after some passes in which nothing else moves them. -/
noncomputable def drawn (w : Wire ℝ) (s : Shares ℝ) (p q : Particle ℝ) (k : Nat) :
    Particle ℝ × Particle ℝ :=
  (p.shift ((w.closed p q k).scale s.a), q.shift ((-w.closed p q k).scale s.b))

section
variable {s : Shares ℝ} (h : w.Roomy (p.position.distance q.position)) (hs : s.a + s.b = 1)
include h hs

/-- The way between the ends keeps its direction. -/
theorem drawn_delta (k : Nat) :
    (w.drawn s p q k).2.position - (w.drawn s p q k).1.position =
      (q.position - p.position).scale
        (w.lengthAfter (p.position.distance q.position) k / p.position.distance q.position) := by
  have hpos := minLength_pos.trans_le h.length
  have hshares : s.b = 1 - s.a := by linarith
  ext <;>
    simp only [drawn, closed, Particle.shift, Vec.add_x, Vec.add_y, Vec.sub_x, Vec.sub_y,
      Vec.neg_x, Vec.neg_y, Vec.scale_x, Vec.scale_y, hshares] <;>
    field_simp <;> ring

theorem drawn_distance (k : Nat) :
    (w.drawn s p q k).1.position.distance (w.drawn s p q k).2.position =
      w.lengthAfter (p.position.distance q.position) k := by
  have hpos := minLength_pos.trans_le h.length
  have hafter := minLength_pos.trans_le (h.lengthAfter k)
  rw [← Vec.norm_sub, drawn_delta h hs, Vec.norm_scale _ (div_nonneg hafter.le hpos.le),
    Vec.norm_sub, mul_div_cancel₀ _ hpos.ne']

/-- A pass closes its part of what is left. -/
theorem closed_succ (k : Nat) : w.closed p q (k + 1) =
    w.closed p q k + w.correct (w.drawn s p q k).1 (w.drawn s p q k).2 := by
  have hpos := minLength_pos.trans_le h.length
  have hafter := minLength_pos.trans_le (h.lengthAfter k)
  unfold correct
  dsimp only
  rw [Vec.norm_sub, drawn_delta h hs, drawn_distance h hs, upper_minLength (h.lengthAfter k),
    Vec.scale_scale, closed, closed, ← Vec.scale_add, lengthAfter_succ]
  congr 1
  field_simp
  ring

/-- A pass takes the ends on as one more pass would have. -/
theorem drawn_succ (k : Nat) :
    let correction := w.correct (w.drawn s p q k).1 (w.drawn s p q k).2
    w.drawn s p q (k + 1) = ((w.drawn s p q k).1.shift (correction.scale s.a),
      (w.drawn s p q k).2.shift ((-correction).scale s.b)) := by
  dsimp only
  have hclosed := closed_succ h hs k
  generalize w.correct (w.drawn s p q k).1 (w.drawn s p q k).2 = correction at hclosed
  simp only [drawn, hclosed, adds_shift.add, ← Vec.add_scale, neg_add]

end
end Wire

/-- What passes over a spring that nothing else moves the ends of bring about. -/
structure Settles (bond : Bond ℝ) (k : Nat) (p q p' q' : Particle ℝ) : Prop where
  length : p'.position.distance q'.position =
    bond.rest + (1 - bond.stiffness) ^ k * (p.position.distance q.position - bond.rest)
  between : p'.position.distance q'.position ∈ Set.uIcc bond.rest (p.position.distance q.position)
  heading : p'.heading q' = p.heading q
  pinnedA : p.pinned = true → p'.position = p.position
  pinnedB : q.pinned = true → q'.position = q.position
  balance : p.pinned = false → q.pinned = false →
    (p'.position - p.position).scale p.mass + (q'.position - q.position).scale q.mass = 0

/-- What damping brings about: of the velocity of the ends against each other it takes its part of
what is along the spring. -/
structure Damps (damping : ℝ) (p q p' q' : Particle ℝ) : Prop where
  still : p'.position = p.position ∧ q'.position = q.position
  along : (p'.parting q').dot (p.heading q) = (1 - damping) * (p.parting q).dot (p.heading q)
  across : p'.parting q' - (p.heading q).scale ((p'.parting q').dot (p.heading q)) =
    p.parting q - (p.heading q).scale ((p.parting q).dot (p.heading q))

theorem Wire.settles {w : Wire ℝ} {p q : Particle ℝ}
    (h : w.Roomy (p.position.distance q.position)) (hp : 0 < p.mass) (hq : 0 < q.mass)
    (hloose : ¬ (p.pinned = true ∧ q.pinned = true)) {bond : Bond ℝ} (hrest : w.rest = bond.rest)
    (hstiff : w.stiffness = bond.stiffness) (k : Nat) :
    Settles bond k p q (w.drawn (.between p q) p q k).1 (w.drawn (.between p q) p q k).2 := by
  have hs := Shares.between_sum hp hq hloose
  obtain ⟨hpa, hqb⟩ := Shares.between_pinned p q
  have hpos := minLength_pos.trans_le h.length
  have hafter := minLength_pos.trans_le (h.lengthAfter k)
  constructor
  case length =>
    rw [Wire.drawn_distance h hs, Wire.lengthAfter, hrest, hstiff]
  case between =>
    rw [Wire.drawn_distance h hs, ← hrest]
    exact h.between k
  case heading =>
    unfold Particle.heading
    rw [Wire.drawn_delta h hs, Wire.drawn_distance h hs, Vec.divideBy_eq_scale,
      Vec.divideBy_eq_scale, Vec.scale_scale]
    congr 1
    field_simp
  case pinnedA =>
    intro hpinned
    simp [Wire.drawn, Particle.shift, hpa hpinned, Vec.scale_zero]
  case pinnedB =>
    intro hpinned
    simp [Wire.drawn, Particle.shift, hqb hpinned, Vec.scale_zero]
  case balance =>
    intro hfree hfree'
    have hshares := Shares.between_mass hfree hfree' hp hq
    simp only [Wire.drawn, Particle.shift, add_sub_cancel_left, Vec.neg_scale, Vec.scale_scale,
      hshares]
    exact add_neg_cancel _

theorem Wire.damps {w : Wire ℝ} {p q : Particle ℝ} (h : minLength ≤ p.position.distance q.position)
    {s : Shares ℝ} (hs : s.a + s.b = 1) :
    Damps w.damping p q (p.shiftPrevious ((-w.impulse p q).scale s.a))
      (q.shiftPrevious ((w.impulse p q).scale s.b)) := by
  have hpos := minLength_pos.trans_le h
  have himpulse : w.impulse p q =
      (p.heading q).scale ((p.parting q).dot (p.heading q) * w.damping) := by
    unfold Wire.impulse
    dsimp only
    rw [Vec.norm_sub, upper_minLength h]
    rfl
  have hunit : (p.heading q).dot (p.heading q) = 1 := by
    have hsq := Vec.norm_sq (q.position - p.position)
    rw [Vec.norm_sub] at hsq
    unfold Particle.heading Vec.divideBy
    simp only [Vec.dot, div_mul_div_comm, ← add_div] at hsq ⊢
    rw [← hsq, div_self (mul_pos hpos hpos).ne']
  have hparting : (p.shiftPrevious ((-w.impulse p q).scale s.a)).parting
      (q.shiftPrevious ((w.impulse p q).scale s.b)) = p.parting q - w.impulse p q := by
    have hshares : s.b = 1 - s.a := by linarith
    unfold Particle.parting Particle.shiftPrevious
    ext <;> simp [hshares] <;> ring
  have halong : (p.parting q - w.impulse p q).dot (p.heading q) =
      (1 - w.damping) * (p.parting q).dot (p.heading q) := by
    have hdot (a b c : Vec ℝ) : (a - b).dot c = a.dot c - b.dot c := by
      simp only [Vec.dot, Vec.sub_x, Vec.sub_y]
      ring
    have hscale (a c : Vec ℝ) (k : ℝ) : (a.scale k).dot c = k * a.dot c := by
      simp only [Vec.dot, Vec.scale_x, Vec.scale_y]
      ring
    rw [himpulse, hdot, hscale, hunit]
    ring
  refine ⟨⟨rfl, rfl⟩, ?_, ?_⟩
  · rw [hparting, halong]
  · rw [hparting, halong, himpulse, sub_sub, ← Vec.scale_add]
    congr 2
    ring

/-! ### A spring by itself -/

/-- A spring with two ends, at which no other spring of a list ends. -/
structure Alone (x : Wire ℝ × Shares ℝ) (wires : List (Wire ℝ × Shares ℝ)) : Prop where
  ends : x.1.a ≠ x.1.b
  others : ∃ before after, wires = before ++ x :: after ∧
    ∀ y ∈ before ++ after, ∀ slot, slot = x.1.a ∨ slot = x.1.b → y.1.a ≠ slot ∧ y.1.b ≠ slot

section
variable {x : Wire ℝ × Shares ℝ} {wires : List (Wire ℝ × Shares ℝ)} {rows : Array (Particle ℝ)}

/-- Of all nudges, that of the spring alone moves its ends. -/
theorem Alone.displacement (h : Alone x wires) (act : Wire ℝ × Shares ℝ → Nudge ℝ)
    (hact : ∀ y, (act y).a = y.1.a ∧ (act y).b = y.1.b) :
    displacement (wires.map act) x.1.a = (act x).shiftA ∧
      displacement (wires.map act) x.1.b = (act x).shiftB := by
  obtain ⟨before, after, rfl, hothers⟩ := h.others
  have honly {slot : Nat} (hslot : slot = x.1.a ∨ slot = x.1.b) :
      Arboretum.displacement ((before ++ x :: after).map act) slot = (act x).on slot := by
    have hnone {ys : List (Wire ℝ × Shares ℝ)} (hys : ∀ y ∈ ys, y ∈ before ++ after) :
        ((ys.map act).map (·.on slot)).sum = 0 := by
      apply List.sum_eq_zero
      intro d hd
      obtain ⟨n, hn, rfl⟩ := List.mem_map.mp hd
      obtain ⟨y, hy, rfl⟩ := List.mem_map.mp hn
      obtain ⟨ha, hb⟩ := hothers y (hys y hy) slot hslot
      rw [← (hact y).1] at ha
      rw [← (hact y).2] at hb
      rw [Nudge.on, if_neg ha, if_neg hb, add_zero]
    rw [Arboretum.displacement, List.map_append, List.map_append, List.sum_append, List.map_cons,
      List.map_cons, List.sum_cons, hnone fun y hy => List.mem_append_left _ hy,
      hnone fun y hy => List.mem_append_right _ hy, zero_add, add_zero]
  rw [honly (.inl rfl), honly (.inr rfl)]
  simp [Nudge.on, hact, h.ends, h.ends.symm]

/-- Where nudges take the ends of a spring that is alone. -/
theorem Alone.row_nudgeAll (h : Alone x wires) {move : Vec ℝ → Particle ℝ → Particle ℝ}
    (hmove : Adds move) (act : Wire ℝ × Shares ℝ → Nudge ℝ)
    (hact : ∀ y, (act y).a = y.1.a ∧ (act y).b = y.1.b) (ha : x.1.a < rows.size)
    (hb : x.1.b < rows.size) :
    Wire.row (nudgeAll move (wires.map act) rows) x.1.a =
        move (act x).shiftA (Wire.row rows x.1.a) ∧
      Wire.row (nudgeAll move (wires.map act) rows) x.1.b =
        move (act x).shiftB (Wire.row rows x.1.b) := by
  obtain ⟨hA, hB⟩ := h.displacement act hact
  rw [Arboretum.row_nudgeAll hmove _ ha, Arboretum.row_nudgeAll hmove _ hb, hA, hB]
  exact ⟨rfl, rfl⟩

theorem size_relaxPasses (wires : List (Wire ℝ × Shares ℝ)) (rows : Array (Particle ℝ)) (k : Nat) :
    (Nat.repeat (relaxPass wires) k rows).size = rows.size := by
  induction k with
  | zero => rfl
  | succ k ih => exact (size_nudgeAll Particle.shift_nature _ _).trans ih

/-- Passes take the ends of a spring that is alone where they take those of a single spring. -/
theorem Alone.relaxPasses (h : Alone x wires) (ha : x.1.a < rows.size) (hb : x.1.b < rows.size)
    (hs : x.2.a + x.2.b = 1)
    (hroomy : x.1.Roomy
      ((Wire.row rows x.1.a).position.distance (Wire.row rows x.1.b).position)) (k : Nat) :
    let drawn := x.1.drawn x.2 (Wire.row rows x.1.a) (Wire.row rows x.1.b) k
    Wire.row (Nat.repeat (relaxPass wires) k rows) x.1.a = drawn.1 ∧
      Wire.row (Nat.repeat (relaxPass wires) k rows) x.1.b = drawn.2 := by
  dsimp only
  induction k with
  | zero =>
    have hclosed : x.1.closed (Wire.row rows x.1.a) (Wire.row rows x.1.b) 0 = 0 := by
      unfold Wire.closed
      dsimp only
      rw [Wire.lengthAfter_zero, sub_self, zero_div, Vec.scale_zero]
    simp [Wire.drawn, hclosed, adds_shift.zero, Nat.repeat]
  | succ k ih =>
    obtain ⟨hA, hB⟩ := ih
    have hsize := size_relaxPasses wires rows k
    have hpass := h.row_nudgeAll adds_shift
      (fun y => y.1.relax (Nat.repeat (relaxPass wires) k rows) y.2) (fun _ => ⟨rfl, rfl⟩)
      (hsize ▸ ha) (hsize ▸ hb)
    rw [Wire.drawn_succ hroomy hs]
    dsimp only
    rw [← hA, ← hB]
    exact hpass

/-- Among all springs of a step, one that is alone settles and is damped. -/
theorem Alone.settles {w : Wire ℝ} (h : Alone (w, w.shares rows) wires) (ha : w.a < rows.size)
    (hb : w.b < rows.size) {p q : Particle ℝ} (hp : Wire.row rows w.a = p)
    (hq : Wire.row rows w.b = q) (hroomy : w.Roomy (p.position.distance q.position))
    (hmassA : 0 < p.mass) (hmassB : 0 < q.mass) (hloose : ¬ (p.pinned = true ∧ q.pinned = true))
    {bond : Bond ℝ} (hrest : w.rest = bond.rest) (hstiff : w.stiffness = bond.stiffness) (k : Nat) :
    let drawn := Nat.repeat (relaxPass wires) k rows
    let damped := dampPass wires drawn
    Settles bond k p q (Wire.row drawn w.a) (Wire.row drawn w.b) ∧
      Damps w.damping (Wire.row drawn w.a) (Wire.row drawn w.b) (Wire.row damped w.a)
        (Wire.row damped w.b) := by
  dsimp only
  have hshares : w.shares rows = .between p q := by rw [Wire.shares, hp, hq]
  have hs := Shares.between_sum hmassA hmassB hloose
  rw [hshares] at h
  have hsize := size_relaxPasses wires rows k
  obtain ⟨hA, hB⟩ := h.relaxPasses ha hb hs (by rwa [hp, hq]) k
  dsimp only at hA hB
  rw [hp, hq] at hA hB
  have hsettles := Wire.settles hroomy hmassA hmassB hloose hrest hstiff k
  have hlength := hroomy.lengthAfter k
  rw [← Wire.drawn_distance hroomy hs k, ← hA, ← hB] at hlength
  rw [← hA, ← hB] at hsettles
  obtain ⟨hdampA, hdampB⟩ := h.row_nudgeAll adds_shiftPrevious
    (fun y => y.1.damp (Nat.repeat (relaxPass wires) k rows) y.2) (fun _ => ⟨rfl, rfl⟩)
    (hsize ▸ ha) (hsize ▸ hb)
  refine ⟨hsettles, ?_⟩
  unfold dampPass
  dsimp only at hdampA hdampB
  rw [hdampA, hdampB]
  exact Wire.damps hlength hs

end

namespace World

section
variable {α : Type} [Scalar α]

/-- The springs of a step, with the shares that their ends take. -/
def shared (w : World α) : List (Wire α × Shares α) :=
  w.currentWires.map fun x => (x, x.shares w.rows)

/-- A world after some passes over its springs. -/
def passed (w : World α) (k : Nat) : World α :=
  { w with rows := Nat.repeat (relaxPass w.shared) k w.rows }

/-- A world after some passes over its springs and the damping that follows them. -/
def damped (w : World α) (k : Nat) : World α :=
  { w with rows := dampPass w.shared (w.passed k).rows }

/-- Relaxing a world comes down to its passes and the damping. -/
theorem rows_relax_damped {w : World α} (h : Sound w) :
    w.relax.rows = (w.damped w.setting.passes).rows := by
  rw [rows_relax h, ← h.currentWires]
  rfl

end

variable {w u : World ℝ} {serial : Nat} {bond : Bond ℝ}

theorem particle?_row (u : World ℝ) {id slot : Nat} (hs : u.slot? id = some slot)
    (hlt : slot < u.rows.size) : u.particle? id = some (Wire.row u.rows slot) := by
  rw [particle?, hs, Option.bind_some, Wire.row, Array.getD_eq_getD_getElem?,
    Array.getElem?_eq_getElem hlt, Option.getD_some]

/-- Where no other spring meets the ends of a spring, it is alone among those of a step. -/
theorem alone_shared (h : Sound u) (hbond : u.bond? serial = some bond)
    (halone : ∀ s b, u.bond? s = some b → b.meets bond.a ∨ b.meets bond.b → s = serial) {a b : Nat}
    (ha : u.slot? bond.a = some a) (hb : u.slot? bond.b = some b) {wire : Wire ℝ}
    (hwire : wire = ⟨a, b, bond.rest, bond.stiffness, bond.damping⟩) :
    Alone (wire, wire.shares u.rows) u.shared := by
  subst hwire
  have hmem : serial ∈ u.springs.toList := by
    rw [Array.mem_toList_iff, mem_springs h, ← bond?_isSome, hbond]
    rfl
  obtain ⟨before, after, hsplit⟩ := List.append_of_mem hmem
  have hnodup := indexed_nodup h.places
  rw [hsplit, List.nodup_middle] at hnodup
  constructor
  case ends =>
    intro hsame
    dsimp only at hsame
    exact (h.ends serial bond hbond).1 (h.slot_unique ha (hsame ▸ hb))
  case others =>
    refine ⟨(before.filterMap u.wire?).map fun x => (x, x.shares u.rows),
      (after.filterMap u.wire?).map fun x => (x, x.shares u.rows), ?_, fun y hy slot hslot => ?_⟩
    · rw [shared, h.currentWires, freshWires_eq, hsplit, List.filterMap_append,
        List.filterMap_cons_some (wire?_of_bond? hbond ha hb), List.map_append, List.map_cons]
    · rw [← List.map_append, ← List.filterMap_append] at hy
      obtain ⟨x, hx, rfl⟩ := List.mem_map.mp hy
      obtain ⟨s, hs, hx⟩ := List.mem_filterMap.mp hx
      have hother : s ≠ serial := fun he => (List.nodup_cons.mp hnodup).1 (he ▸ hs)
      have hlisted : s ∈ u.springs := by
        rw [← Array.mem_toList_iff, hsplit]
        exact List.perm_middle.mem_iff.mpr (List.mem_cons_of_mem serial hs)
      obtain ⟨bond', a', b', hbond', ha', hb', hwire⟩ := h.wire? hlisted
      cases hx.symm.trans hwire
      have hneither : bond'.meets bond.a = false ∧ bond'.meets bond.b = false := by
        constructor
        · exact Bool.eq_false_iff.mpr fun hm => hother (halone s bond' hbond' (.inl hm))
        · exact Bool.eq_false_iff.mpr fun hm => hother (halone s bond' hbond' (.inr hm))
      simp only [Bond.meets, Bool.or_eq_false_iff, beq_eq_false_iff_ne] at hneither
      obtain ⟨⟨haa, hba⟩, hab, hbb⟩ := hneither
      have hapart {id id' slot slot' : Nat} (hne : id ≠ id') (hs : u.slot? id = some slot)
          (hs' : u.slot? id' = some slot') : slot ≠ slot' :=
        fun he => hne (h.slot_unique hs (he ▸ hs'))
      rcases hslot with rfl | rfl
      · exact ⟨hapart haa ha' ha, hapart hba hb' ha⟩
      · exact ⟨hapart hab ha' hb, hapart hbb hb' hb⟩

theorem stiffnessOf_real (asked : ℝ) : 0 ≤ stiffnessOf asked ∧ stiffnessOf asked ≤ 1 := by
  unfold stiffnessOf maxStiffness
  rw [Scalar.least_real, Scalar.greatest_real]
  exact ⟨le_min (le_max_right _ _) zero_le_one, min_le_right _ _⟩

/-- A spring whose ends meet no other spring, and are not both pinned, settles: with each pass of a
step, wherever the points have come to by then, it is left with the part of the way to its rest
length that its stiffness does not close. It keeps its direction, a pinned end stays, and ends that
are both free move in the inverse proportion of their masses. The damping that follows takes away
its part of the velocity along the spring and none of that across. -/
theorem spring_settles (hw : Reached w) (hu : Moved w u) (hbond : u.bond? serial = some bond)
    (halone : ∀ s b, u.bond? s = some b → b.meets bond.a ∨ b.meets bond.b → s = serial)
    {p q : Particle ℝ} (hp : u.particle? bond.a = some p) (hq : u.particle? bond.b = some q)
    (hloose : ¬ (p.pinned = true ∧ q.pinned = true))
    (hlength : minLength ≤ p.position.distance q.position) (hrest : minLength ≤ bond.rest)
    (k : Nat) :
    (0 ≤ bond.stiffness ∧ bond.stiffness ≤ 1) ∧
    u.relax.rows = (u.damped u.setting.passes).rows ∧
    ∃ p' q', (u.passed k).particle? bond.a = some p' ∧ (u.passed k).particle? bond.b = some q' ∧
      Settles bond k p q p' q' ∧
      ∃ p'' q'', (u.damped k).particle? bond.a = some p'' ∧
        (u.damped k).particle? bond.b = some q'' ∧ Damps bond.damping p' q' p'' q'' := by
  have hsound := hu.sound hw.sound
  have hstiff : 0 ≤ bond.stiffness ∧ bond.stiffness ≤ 1 :=
    hw.stiffnesses (fun s => 0 ≤ s ∧ s ≤ 1) stiffnessOf_real serial bond (hu.bond? serial ▸ hbond)
  have hmass {id : Nat} {r : Particle ℝ} (hr : u.particle? id = some r) : 0 < r.mass := by
    obtain ⟨r', hr', he⟩ := hu.particle? hr
    rw [← he]
    exact hw.masses massOf_pos_real id r' hr'
  obtain ⟨-, halive, halive'⟩ := hsound.ends serial bond hbond
  obtain ⟨a, ha⟩ := isAlive_iff.mp halive
  obtain ⟨b, hb⟩ := isAlive_iff.mp halive'
  obtain ⟨wire, hwire⟩ : ∃ wire : Wire ℝ,
      wire = ⟨a, b, bond.rest, bond.stiffness, bond.damping⟩ := ⟨_, rfl⟩
  have halone := alone_shared hsound hbond halone ha hb hwire
  have hroomy : wire.Roomy (p.position.distance q.position) := by
    subst wire
    exact ⟨hstiff.1, hstiff.2, hrest, hlength⟩
  subst wire
  have hltA := hsound.slot_lt_capacity ha
  have hltB := hsound.slot_lt_capacity hb
  obtain ⟨hsettles, hdamps⟩ := halone.settles hltA hltB (row_of_slot? ha hp) (row_of_slot? hb hq)
    hroomy (hmass hp) (hmass hq) hloose rfl rfl k
  have hsize : (u.passed k).rows.size = u.rows.size := size_relaxPasses u.shared u.rows k
  have hsize' : (u.damped k).rows.size = u.rows.size :=
    (size_nudgeAll Particle.shiftPrevious_nature _ _).trans hsize
  refine ⟨hstiff, rows_relax_damped hsound, _, _, ?_, ?_, hsettles, _, _, ?_, ?_, hdamps⟩
  · exact particle?_row (u.passed k) ha (hsize ▸ hltA)
  · exact particle?_row (u.passed k) hb (hsize ▸ hltB)
  · exact particle?_row (u.damped k) ha (hsize' ▸ hltA)
  · exact particle?_row (u.damped k) hb (hsize' ▸ hltB)

/-- A point that hangs from a pinned one by a spring of more than twice its rest length. -/
noncomputable def pendulum : World ℝ :=
  (history perform
    [.addPoint ⟨0, 0⟩ 1 true, .addPoint ⟨33, 56⟩ 1 false,
      .addSpring (some 0) (some 1) (1 / 13) (some 26) defaultDamping]
    (World.new 0 Setting.default 1)).2

/-- A pass closes a thirteenth of the way to the rest length, and leaves the pinned end where it
is. -/
theorem spring_settles_pendulum : Reached pendulum ∧
    pendulum.bond? 0 = some ⟨0, 1, 1 / 13, defaultDamping, 26⟩ ∧
    (∀ s b, pendulum.bond? s = some b → b.meets 0 ∨ b.meets 1 → s = 0) ∧
    ∃ p' q', (pendulum.passed 1).particle? 0 = some p' ∧ (pendulum.passed 1).particle? 1 = some q' ∧
      p'.position = ⟨0, 0⟩ ∧ p'.position.distance q'.position = 62 := by
  have hw : Reached pendulum := reached_history (.new 0 _ 1) _
  have hready : Ready (World.new 0 (Setting.default : Setting ℝ) 1) := .new 0 _ (Nat.le_refl 1)
  have hstore : pendulum.store = _ := store_history hready _
  rw [store_new] at hstore
  have hbonds (s : Nat) : pendulum.bond? s = _ := congrArg (fun st => st.bonds s) hstore
  have hpoints (id : Nat) : pendulum.particle? id = _ := congrArg (fun st => st.points id) hstore
  simp [history, Store.perform, Store.empty, Store.joinable?, Function.update_apply]
    at hbonds hpoints
  have hstiff : stiffnessOf (13⁻¹ : ℝ) = 1 / 13 := by
    unfold stiffnessOf maxStiffness
    rw [Scalar.least_real, Scalar.greatest_real]
    norm_num
  have hbond : pendulum.bond? 0 = some ⟨0, 1, 1 / 13, defaultDamping, 26⟩ := by
    rw [hbonds, if_pos rfl, hstiff]
    norm_num [restLength]
  have halone : ∀ s b, pendulum.bond? s = some b → b.meets 0 ∨ b.meets 1 → s = 0 := by
    intro s b hb _
    rw [hbonds] at hb
    split at hb
    · assumption
    · cases hb
  have hlength : (⟨0, 0⟩ : Vec ℝ).distance ⟨33, 56⟩ = 65 := by
    rw [Vec.distance_real, show ((33 : ℝ) - 0) ^ 2 + (56 - 0) ^ 2 = 65 ^ 2 by norm_num]
    exact Real.sqrt_sq (by norm_num)
  have hmin : (minLength : ℝ) ≤ 26 := by
    unfold minLength
    norm_num
  obtain ⟨-, -, p', q', hp', hq', hsettles, -⟩ := spring_settles hw (.refl _) hbond halone
    (hpoints 0) (hpoints 1) (by simp [Particle.atRest]) (by
      change minLength ≤ (⟨0, 0⟩ : Vec ℝ).distance ⟨33, 56⟩
      rw [hlength]
      linarith) hmin 1
  refine ⟨hw, hbond, halone, p', q', hp', hq', hsettles.pinnedA rfl, ?_⟩
  rw [hsettles.length]
  change 26 + (1 - 1 / 13) ^ 1 * ((⟨0, 0⟩ : Vec ℝ).distance ⟨33, 56⟩ - 26) = 62
  rw [hlength]
  norm_num

end World
end Arboretum
