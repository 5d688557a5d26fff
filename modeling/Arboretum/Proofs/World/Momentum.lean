import Arboretum.Proofs.World.Nudges
import Arboretum.Proofs.World.Restrict
import Mathlib.Algebra.BigOperators.Group.Finset.Basic
import Mathlib.Tactic.FieldSimp

/-!
Springs conserve momentum in exact arithmetic. What a spring gives one end it takes from the other,
each by its share, so that a step moves the weighted sum of the points by their velocities and
accelerations alone.
-/
namespace Arboretum

open Finset (range)

/-- What nudges a slot more than the mass of its end allows for is made up for at the other end. -/
def Nudge.Balanced (mass : Nat → ℝ) (n : Nudge ℝ) : Prop :=
  n.shiftA.scale (mass n.a) + n.shiftB.scale (mass n.b) = 0

/-- A vector of each of the first rows, weighted by mass, summed up. -/
noncomputable def weighed (count : Nat) (f : Particle ℝ → Vec ℝ) (rows : Array (Particle ℝ)) :
    Vec ℝ :=
  ∑ i ∈ range count, (f (Wire.row rows i)).scale (Wire.row rows i).mass

/-- Balanced nudges of the first rows move them by nothing altogether. -/
theorem sum_displacement {count : Nat} {mass : Nat → ℝ} {nudges : List (Nudge ℝ)}
    (h : ∀ n ∈ nudges, n.a < count ∧ n.b < count ∧ n.Balanced mass) :
    ∑ i ∈ range count, (displacement nudges i).scale (mass i) = 0 := by
  induction nudges with
  | nil => simp [displacement]
  | cons n rest ih =>
    obtain ⟨ha, hb, hbalanced⟩ := h n List.mem_cons_self
    have hfirst : ∑ i ∈ range count, (n.on i).scale (mass i) = 0 := by
      have hends : ∀ i, (n.on i).scale (mass i) =
          (if n.a = i then n.shiftA.scale (mass i) else 0) +
            (if n.b = i then n.shiftB.scale (mass i) else 0) := by
        intro i
        rw [Nudge.on, Vec.add_scale]
        split <;> split <;> simp
      simp only [hends, Finset.sum_add_distrib, Finset.sum_ite_eq, Finset.mem_range, ha, hb,
        if_true]
      exact hbalanced
    have hcons : ∀ i, displacement (n :: rest) i = n.on i + displacement rest i := by
      intro i
      rw [displacement, List.map_cons, List.sum_cons, displacement]
    simp only [hcons, Vec.add_scale, Finset.sum_add_distrib, hfirst, zero_add]
    exact ih fun m hm => h m (List.mem_cons_of_mem n hm)

/-- Rows of the same masses whose positions, and previous positions, have the same weighted sum. -/
structure SameCentre (count : Nat) (rows rows' : Array (Particle ℝ)) : Prop where
  size : rows'.size = rows.size
  mass : ∀ i, i < count → (Wire.row rows' i).mass = (Wire.row rows i).mass
  position : weighed count (·.position) rows' = weighed count (·.position) rows
  previous : weighed count (·.previous) rows' = weighed count (·.previous) rows

theorem SameCentre.refl (count : Nat) (rows : Array (Particle ℝ)) : SameCentre count rows rows :=
  ⟨rfl, fun _ _ => rfl, rfl, rfl⟩

theorem SameCentre.trans {count : Nat} {rows₁ rows₂ rows₃ : Array (Particle ℝ)}
    (h : SameCentre count rows₁ rows₂) (h' : SameCentre count rows₂ rows₃) :
    SameCentre count rows₁ rows₃ where
  size := h'.size.trans h.size
  mass i hi := (h'.mass i hi).trans (h.mass i hi)
  position := h'.position.trans h.position
  previous := h'.previous.trans h.previous

/-- What a move does to a vector of a particle: it moves it, or leaves it. -/
def Carries (move : Vec ℝ → Particle ℝ → Particle ℝ) (f : Particle ℝ → Vec ℝ) : Prop :=
  (∀ d p, f (move d p) = f p + d) ∨ ∀ d p, f (move d p) = f p

section
variable {count : Nat} {rows : Array (Particle ℝ)} {nudges : List (Nudge ℝ)}
  {move : Vec ℝ → Particle ℝ → Particle ℝ} {f : Particle ℝ → Vec ℝ}

theorem row_nudgeAll (hmove : Adds move) (nudges : List (Nudge ℝ)) {i : Nat} (hi : i < rows.size) :
    Wire.row (nudgeAll move nudges rows) i = move (displacement nudges i) (Wire.row rows i) := by
  simp only [Wire.row, Array.getD_eq_getD_getElem?, getElem?_nudgeAll hmove,
    Array.getElem?_eq_getElem hi, Option.map_some, Option.getD_some]

/-- Balanced nudges keep a weighted sum, whether they move its vectors or not. -/
theorem weighed_nudgeAll (hmove : Adds move) (hnature : ∀ d p, (move d p).nature = p.nature)
    (hf : Carries move f) (hcount : count ≤ rows.size)
    (h : ∀ n ∈ nudges, n.a < count ∧ n.b < count ∧ n.Balanced fun i => (Wire.row rows i).mass) :
    weighed count f (nudgeAll move nudges rows) = weighed count f rows := by
  have hrow : ∀ i ∈ range count, Wire.row (nudgeAll move nudges rows) i =
      move (displacement nudges i) (Wire.row rows i) := fun i hi =>
    row_nudgeAll hmove nudges (Nat.lt_of_lt_of_le (Finset.mem_range.mp hi) hcount)
  have hmass : ∀ d p, (move d p).mass = p.mass := fun d p => congrArg Prod.fst (hnature d p)
  cases hf with
  | inl hmoves =>
    have hsum : weighed count f (nudgeAll move nudges rows) =
        ∑ i ∈ range count, ((f (Wire.row rows i)).scale (Wire.row rows i).mass +
          (displacement nudges i).scale (Wire.row rows i).mass) := by
      refine Finset.sum_congr rfl fun i hi => ?_
      rw [hrow i hi, hmoves, hmass]
      exact Vec.add_scale _ _ _
    rw [hsum, Finset.sum_add_distrib, sum_displacement h, add_zero]
    rfl
  | inr hstays =>
    refine Finset.sum_congr rfl fun i hi => ?_
    rw [hrow i hi, hstays, hmass]

theorem sameCentre_nudgeAll (hmove : Adds move) (hnature : ∀ d p, (move d p).nature = p.nature)
    (hposition : Carries move (·.position)) (hprevious : Carries move (·.previous))
    (hcount : count ≤ rows.size)
    (h : ∀ n ∈ nudges, n.a < count ∧ n.b < count ∧ n.Balanced fun i => (Wire.row rows i).mass) :
    SameCentre count rows (nudgeAll move nudges rows) where
  size := size_nudgeAll hnature nudges rows
  mass i hi := by
    rw [row_nudgeAll hmove nudges (Nat.lt_of_lt_of_le hi hcount)]
    exact congrArg Prod.fst (hnature _ _)
  position := weighed_nudgeAll hmove hnature hposition hcount h
  previous := weighed_nudgeAll hmove hnature hprevious hcount h

end

/-- A spring between two of the first rows, and shares by which neither mass gains on the other. -/
structure Fair (count : Nat) (mass : Nat → ℝ) (x : Wire ℝ × Shares ℝ) : Prop where
  a : x.1.a < count
  b : x.1.b < count
  shares : x.2.a * mass x.1.a = x.2.b * mass x.1.b

theorem Fair.balanced {count : Nat} {mass : Nat → ℝ} {w : Wire ℝ} {s : Shares ℝ}
    (h : Fair count mass (w, s)) (d : Vec ℝ) :
    Nudge.Balanced mass ⟨w.a, w.b, d.scale s.a, (-d).scale s.b⟩ ∧
      Nudge.Balanced mass ⟨w.a, w.b, (-d).scale s.a, d.scale s.b⟩ := by
  have hshares := h.shares
  simp only [Nudge.Balanced, Vec.neg_scale, Vec.scale_scale] at hshares ⊢
  rw [hshares]
  exact ⟨add_neg_cancel _, neg_add_cancel _⟩

/-- Two particles that are free share a correction in the inverse proportion of their masses. -/
theorem Shares.between_mass {p q : Particle ℝ} (hp : p.pinned = false) (hq : q.pinned = false)
    (hmp : 0 < p.mass) (hmq : 0 < q.mass) :
    (Shares.between p q).a * p.mass = (Shares.between p q).b * q.mass := by
  have htotal : 0 < 1 / p.mass + 1 / q.mass := by positivity
  simp only [Shares.between, Particle.yield, hp, hq, Bool.false_eq_true, if_false, htotal, if_true]
  field_simp

section
variable {count : Nat} {rows : Array (Particle ℝ)} {wires : List (Wire ℝ × Shares ℝ)}

theorem sameCentre_relaxPass (hcount : count ≤ rows.size)
    (h : ∀ x ∈ wires, Fair count (fun i => (Wire.row rows i).mass) x) :
    SameCentre count rows (relaxPass wires rows) := by
  refine sameCentre_nudgeAll adds_shift Particle.shift_nature (.inl fun _ _ => rfl)
    (.inr fun _ _ => rfl) hcount ?_
  intro n hn
  obtain ⟨⟨w, s⟩, hx, rfl⟩ := List.mem_map.mp hn
  have hfair := h _ hx
  exact ⟨hfair.a, hfair.b, (hfair.balanced _).1⟩

theorem sameCentre_dampPass (hcount : count ≤ rows.size)
    (h : ∀ x ∈ wires, Fair count (fun i => (Wire.row rows i).mass) x) :
    SameCentre count rows (dampPass wires rows) := by
  refine sameCentre_nudgeAll adds_shiftPrevious Particle.shiftPrevious_nature
    (.inr fun _ _ => rfl) (.inl fun _ _ => rfl) hcount ?_
  intro n hn
  obtain ⟨⟨w, s⟩, hx, rfl⟩ := List.mem_map.mp hn
  have hfair := h _ hx
  exact ⟨hfair.a, hfair.b, (hfair.balanced _).2⟩

theorem SameCentre.fair {rows' : Array (Particle ℝ)} (h : SameCentre count rows rows')
    (hw : ∀ x ∈ wires, Fair count (fun i => (Wire.row rows i).mass) x) :
    ∀ x ∈ wires, Fair count (fun i => (Wire.row rows' i).mass) x := by
  intro x hx
  have hfair := hw x hx
  refine ⟨hfair.a, hfair.b, ?_⟩
  simp only [h.mass _ hfair.a, h.mass _ hfair.b]
  exact hfair.shares

/-- Neither relaxing nor damping springs between free points moves the weighted sum of the points,
nor that of where they were. -/
theorem sameCentre_relaxSprings (passes : Nat) {wires : List (Wire ℝ)} (hcount : count ≤ rows.size)
    (hends : ∀ w ∈ wires, w.a < count ∧ w.b < count)
    (hfree : ∀ i < count, (Wire.row rows i).pinned = false ∧ 0 < (Wire.row rows i).mass) :
    SameCentre count rows (relaxSprings passes wires rows) := by
  have hfair : ∀ x ∈ wires.map fun w => (w, w.shares rows),
      Fair count (fun i => (Wire.row rows i).mass) x := by
    intro x hx
    obtain ⟨w, hw, rfl⟩ := List.mem_map.mp hx
    obtain ⟨ha, hb⟩ := hends w hw
    obtain ⟨hpa, hma⟩ := hfree _ ha
    obtain ⟨hpb, hmb⟩ := hfree _ hb
    exact ⟨ha, hb, Shares.between_mass hpa hpb hma hmb⟩
  have hpasses : SameCentre count rows
      (Nat.repeat (relaxPass (wires.map fun w => (w, w.shares rows))) passes rows) := by
    induction passes with
    | zero => exact .refl count rows
    | succ n ih => exact ih.trans (sameCentre_relaxPass (ih.size ▸ hcount) (ih.fair hfair))
  exact hpasses.trans (sameCentre_dampPass (hpasses.size ▸ hcount) (hpasses.fair hfair))

end

/-- Where a point goes by itself in a step: on with what friction leaves of its displacement, and by
its acceleration. -/
noncomputable def Particle.alone (s : Setting ℝ) (dt : ℝ) (p : Particle ℝ) : Vec ℝ :=
  p.position + (p.position - p.previous).scale (1 - s.friction) +
    ((s.gravity + (p.force.scale forceScale).divideBy p.mass).scale dt).scale dt

theorem Particle.drift_alone (s : Setting ℝ) (dt : ℝ) {p : Particle ℝ} (hp : p.pinned = false) :
    (p.drift s dt).position = p.alone s dt := by
  have hforce : (p.force.divideBy p.mass).scale forceScale =
      (p.force.scale forceScale).divideBy p.mass := by
    simp only [Vec.divideBy, Vec.scale, div_mul_eq_mul_div]
  simp only [drift, hp, Bool.false_eq_true, if_false, alone, hforce]

namespace World

variable {w : World ℝ}

/-- A vector of each point alive, summed up. -/
noncomputable def total (w : World ℝ) (f : Particle ℝ → Vec ℝ) : Vec ℝ :=
  (w.seated.map fun (_, p) => f p).sum

theorem row_of_slot? {id slot : Nat} {p : Particle ℝ} (hs : w.slot? id = some slot)
    (hp : w.particle? id = some p) : Wire.row w.rows slot = p := by
  rw [particle?, hs, Option.bind_some] at hp
  rw [Wire.row, Array.getD_eq_getD_getElem?, hp, Option.getD_some]

/-- The points alive are those of the slots in use. -/
theorem total_eq_weighed (h : Sound w) (f : Particle ℝ → Vec ℝ) :
    w.total (fun p => (f p).scale p.mass) = weighed w.count f w.rows := by
  have hseat : ∀ id ∈ w.bodies.toList, ((w.particle? id).map (id, ·)).isSome := by
    intro id hid
    rw [Option.isSome_map, h.particle?_isSome, ← mem_bodies h, ← Array.mem_toList_iff]
    exact hid
  have hrows : (w.seated.map fun (_, p) => (f p).scale p.mass) =
      (List.range w.count).map fun i => (f (Wire.row w.rows i)).scale (Wire.row w.rows i).mass := by
    apply List.ext_getElem?
    intro i
    rw [List.getElem?_map, seated, getElem?_filterMap_of_isSome hseat, Array.getElem?_toList,
      List.getElem?_map]
    cases hi : w.bodies[i]? with
    | none =>
      have hout : (List.range w.count).length ≤ i := by
        rw [List.length_range]
        exact Array.getElem?_eq_none_iff.mp hi
      rw [List.getElem?_eq_none hout]
      rfl
    | some id =>
      have hs := (h.seats i id).mp hi
      obtain ⟨p, hp⟩ := Option.isSome_iff_exists.mp
        ((h.particle?_isSome id).trans (isAlive_iff.mpr ⟨i, hs⟩))
      rw [List.getElem?_range (h.slot_lt hs), Option.bind_some, hp, Option.map_some,
        Option.map_some, Option.map_some, row_of_slot? hs hp]
  rw [total, hrows]
  rfl

/-- The springs as the solver sees them end in slots in use. -/
theorem freshWires_lt (h : Sound w) {x : Wire ℝ} (hx : x ∈ w.freshWires) :
    x.a < w.count ∧ x.b < w.count := by
  rw [freshWires_eq, List.mem_filterMap] at hx
  obtain ⟨serial, _, hx⟩ := hx
  simp only [wire?, Option.bind_eq_bind, Option.bind_eq_some_iff] at hx
  obtain ⟨l, _, a, ha, b, hb, hx⟩ := hx
  cases hx
  exact ⟨h.slot_lt ha, h.slot_lt hb⟩

theorem massOf_pos_real (asked : ℝ) : 0 < massOf asked := by
  unfold massOf leastMass
  split
  · norm_num
  · rename_i h
    exact not_le.mp h

theorem row_mapLive (h : Sound w) (f : Particle ℝ → Particle ℝ) {i : Nat} (hi : i < w.count) :
    Wire.row (w.mapLive f).rows i = f (Wire.row w.rows i) := by
  have hsize : i < w.rows.size := Nat.lt_of_lt_of_le hi h.room
  simp only [Wire.row, Array.getD_eq_getD_getElem?, mapLive, Array.getElem?_mapIdx, hi, if_true,
    Array.getElem?_eq_getElem hsize, Option.map_some, Option.getD_some]

/-- What is known of the points alive is known of the rows in use. -/
theorem row_of_particle? (h : Sound w) {good : Particle ℝ → Prop}
    (hgood : ∀ id p, w.particle? id = some p → good p) {i : Nat} (hi : i < w.count) :
    good (Wire.row w.rows i) := by
  have hs := (h.seats i _).mp (Array.getElem?_eq_getElem hi)
  obtain ⟨p, hp⟩ := Option.isSome_iff_exists.mp
    ((h.particle?_isSome _).trans (isAlive_iff.mpr ⟨i, hs⟩))
  rw [row_of_slot? hs hp]
  exact hgood _ p hp

/-- Without bounds and pinned points, the springs keep the centre that the points come to by
themselves. -/
theorem sameCentre_step (hw : Reached w) (hbounds : w.setting.bounds = none)
    (hfree : ∀ id p, w.particle? id = some p → p.pinned = false) (dt : ℝ) :
    SameCentre w.count (w.mapLive (.drift w.setting dt)).rows (w.step dt).rows := by
  have h := hw.sound
  have hmoved := moved_mapLive w (Particle.drift_nature w.setting dt)
  have hdrifted : ∀ {i : Nat}, i < w.count → Wire.row (w.mapLive (.drift w.setting dt)).rows i =
      (Wire.row w.rows i).drift w.setting dt := fun hi => row_mapLive h _ hi
  by_cases hempty : w.count = 0
  · rw [hempty]
    exact ⟨by rw [(moved_step dt w).size_rows, hmoved.size_rows], fun i hi => by omega, rfl, rfl⟩
  · have hstill : (w.step dt).rows = (w.mapLive (.drift w.setting dt)).relax.rows := by
      have hsetting := (hmoved.trans (moved_relax _)).setting
      unfold step confine
      rw [if_neg hempty, hsetting, hbounds]
    rw [hstill, rows_relax (hmoved.sound h), hmoved.freshWires]
    apply sameCentre_relaxSprings
    · rw [hmoved.size_rows]
      exact h.room
    · exact fun x hx => freshWires_lt h hx
    · intro i hi
      rw [hdrifted hi]
      exact ⟨row_of_particle? h hfree hi, row_of_particle? h (hw.masses massOf_pos_real) hi⟩

/-- In a step without bounds, springs move the weighted sum of free points by nothing: it goes where
the points go by themselves, and the weighted sum of where they were is that of where they are. -/
theorem step_conserves_momentum (hw : Reached w) (hbounds : w.setting.bounds = none)
    (hfree : ∀ id p, w.particle? id = some p → p.pinned = false) (dt : ℝ) :
    (w.step dt).total (fun p => p.position.scale p.mass) =
        w.total (fun p => (p.alone w.setting dt).scale p.mass) ∧
      (w.step dt).total (fun p => p.previous.scale p.mass) =
        w.total (fun p => p.position.scale p.mass) ∧
      ∀ id, ((w.step dt).particle? id).map (·.mass) = (w.particle? id).map (·.mass) := by
  have h := hw.sound
  have hstep := moved_step dt w
  have hcount : (w.step dt).count = w.count := congrArg Array.size hstep.bodies
  have hcentre := sameCentre_step hw hbounds hfree dt
  rw [total_eq_weighed (hstep.sound h), total_eq_weighed (hstep.sound h), total_eq_weighed h,
    total_eq_weighed h, hcount, hcentre.position, hcentre.previous]
  refine ⟨?_, ?_, fun id => ?_⟩
  · refine Finset.sum_congr rfl fun i hi => ?_
    have hlt := Finset.mem_range.mp hi
    have halone := Particle.drift_alone w.setting dt (row_of_particle? h hfree hlt)
    rw [row_mapLive h _ hlt]
    exact congrArg (Vec.scale · _) halone
  · refine Finset.sum_congr rfl fun i hi => ?_
    rw [row_mapLive h _ (Finset.mem_range.mp hi)]
    rfl
  · have hnature := congrArg (Option.map Prod.fst) (hstep.nature id)
    rwa [Option.map_map, Option.map_map] at hnature

/-- Two points that a stretched spring joins, one of them pushed. -/
noncomputable def dumbbell : World ℝ :=
  (history perform
    [.addPoint ⟨0, 0⟩ 1 false, .addPoint ⟨12, 0⟩ 3 false,
      .addSpring (some 0) (some 1) 1 (some 4) defaultDamping, .push (some 1) ⟨0, 6⟩]
    (World.new 0 Setting.default 1)).2

theorem step_conserves_momentum_dumbbell :
    Reached dumbbell ∧ dumbbell.setting.bounds = none ∧
      (∀ id p, dumbbell.particle? id = some p → p.pinned = false) ∧
      (dumbbell.bond? 0).map (fun bond => (bond.a, bond.b)) = some (0, 1) ∧
      (dumbbell.step 1).total (fun p => p.position.scale p.mass) =
        dumbbell.total (fun p => (p.alone dumbbell.setting 1).scale p.mass) := by
  have hw : Reached dumbbell := reached_history (.new 0 _ 1) _
  have hready : Ready (World.new 0 (Setting.default : Setting ℝ) 1) := .new 0 _ (Nat.le_refl 1)
  have hbounds : dumbbell.setting.bounds = none :=
    congrArg Setting.bounds (setting_history hready _)
  have hstore : dumbbell.store = _ := store_history hready _
  rw [store_new] at hstore
  have hfree : ∀ id p, dumbbell.particle? id = some p → p.pinned = false := by
    intro id p hp
    have hpoints : dumbbell.particle? id = _ := congrArg (fun st => st.points id) hstore
    simp [hp, history, Store.perform, Store.empty, Store.joinable?, Store.change, Option.filter,
      Function.update_apply] at hpoints
    split at hpoints
    · cases hpoints
      rfl
    · split at hpoints
      · cases hpoints
        rfl
      · cases hpoints
  refine ⟨hw, hbounds, hfree, ?_, (step_conserves_momentum hw hbounds hfree 1).1⟩
  have hbond : dumbbell.bond? 0 = _ := congrArg (fun st => st.bonds 0) hstore
  rw [hbond]
  simp [history, Store.perform, Store.empty, Store.joinable?, Store.change, Option.filter,
    Function.update_apply]

end World
end Arboretum
