import Arboretum.Proofs.Exact
import Arboretum.Proofs.World.Shows

/-!
Pinned points in exact arithmetic. Neither their velocity nor the springs at them move them; only
the bounds do, which take in every point at the end of a step.
-/
namespace Arboretum

variable {α : Type}

/-- Where a step leaves a point that nothing but the bounds moves. -/
def Setting.held [Scalar α] (s : Setting α) (spot : Vec α) : Vec α :=
  match s.bounds with
  | some b => ⟨Scalar.confine b.low.x b.high.x spot.x, Scalar.confine b.low.y b.high.y spot.y⟩
  | none => spot

/-- Is a spot within the bounds, ends included? -/
structure Bounds.Has [Scalar α] (b : Bounds α) (spot : Vec α) : Prop where
  left : b.low.x ≤ spot.x
  right : spot.x ≤ b.high.x
  below : b.low.y ≤ spot.y
  above : spot.y ≤ b.high.y

/-- A pinned particle at a spot. -/
structure Particle.Stays (spot : Vec α) (p : Particle α) : Prop where
  pinned : p.pinned = true
  position : p.position = spot

/-- A slot whose row is pinned at a spot. -/
def Fast (spot : Vec α) (rows : Array (Particle α)) (slot : Nat) : Prop :=
  ∃ p, rows[slot]? = some p ∧ p.Stays spot

theorem Scalar.confine_real (low high a : ℝ) :
    Scalar.confine low high a = min (max low a) high := by
  unfold Scalar.confine
  simp only [Scalar.isNaN_real, Bool.false_eq_true, if_false]
  rw [max_def_lt, min_def_lt]

theorem Setting.held_of_has {s : Setting ℝ} {spot : Vec ℝ}
    (h : ∀ b, s.bounds = some b → b.Has spot) : s.held spot = spot := by
  unfold held
  cases hb : s.bounds with
  | none => rfl
  | some b =>
    have hin := h b hb
    simp only [Scalar.confine_real, max_eq_right hin.left, min_eq_left hin.right,
      max_eq_right hin.below, min_eq_left hin.above]

/-- What the bounds have taken in once, they leave where it is. -/
theorem Setting.held_held (s : Setting ℝ) (spot : Vec ℝ) : s.held (s.held spot) = s.held spot := by
  unfold held
  cases s.bounds with
  | none => rfl
  | some b =>
    have hconfine : ∀ low high a : ℝ, min (max low (min (max low a) high)) high =
        min (max low a) high := by
      intro low high a
      rcases le_total low high with h | h
      · rw [max_eq_right (le_min (le_max_left low a) h), min_eq_left (min_le_right _ _)]
      · rw [min_eq_right (h.trans (le_max_left low a)),
          min_eq_right (h.trans (le_max_left low high))]
    simp only [Scalar.confine_real, hconfine]

theorem Fast.modify {spot : Vec α} {rows : Array (Particle α)} {slot i : Nat}
    {f : Particle α → Particle α} (h : Fast spot rows slot)
    (hf : i = slot → ∀ p, p.Stays spot → (f p).Stays spot) : Fast spot (rows.modify i f) slot := by
  obtain ⟨p, hrow, hp⟩ := h
  unfold Fast
  rw [Array.getElem?_modify]
  by_cases hi : i = slot
  · rw [if_pos hi, hrow]
    exact ⟨f p, rfl, hf hi p hp⟩
  · rw [if_neg hi]
    exact ⟨p, hrow, hp⟩

theorem Fast.foldl {ι : Type} {spot : Vec α} {rows : Array (Particle α)} {slot : Nat}
    {target : ι → Nat} {move : ι → Particle α → Particle α} {xs : List ι} (h : Fast spot rows slot)
    (hf : ∀ x ∈ xs, target x = slot → ∀ p, p.Stays spot → (move x p).Stays spot) :
    Fast spot (xs.foldl (fun rows x => rows.modify (target x) (move x)) rows) slot := by
  induction xs generalizing rows with
  | nil => exact h
  | cons x rest ih =>
    exact ih (h.modify (hf x List.mem_cons_self)) fun y hy => hf y (List.mem_cons_of_mem x hy)

/-- Nudges that spare whoever stays at a spot leave the row of a slot there. -/
theorem Fast.nudgeAll {spot : Vec α} {rows : Array (Particle α)} {slot : Nat}
    {move : Vec α → Particle α → Particle α} {nudges : List (Nudge α)} (h : Fast spot rows slot)
    (hA : ∀ n ∈ nudges, n.a = slot → ∀ p, p.Stays spot → (move n.shiftA p).Stays spot)
    (hB : ∀ n ∈ nudges, n.b = slot → ∀ p, p.Stays spot → (move n.shiftB p).Stays spot) :
    Fast spot (nudgeAll move nudges rows) slot := by
  have hfirst := h.foldl hA
  exact hfirst.foldl hB

section
variable {spot : Vec ℝ} {rows : Array (Particle ℝ)} {slot : Nat} {p : Particle ℝ}

theorem Particle.Stays.drift (h : p.Stays spot) (s : Setting ℝ) (dt : ℝ) :
    (p.drift s dt).Stays spot := by
  refine ⟨h.pinned, ?_⟩
  simp [Particle.drift, h.pinned, h.position]

/-- A shift of which a point takes no part is none. -/
theorem Particle.Stays.shift (h : p.Stays spot) (d : Vec ℝ) : (p.shift (d.scale 0)).Stays spot := by
  refine ⟨h.pinned, ?_⟩
  rw [← h.position]
  simp only [Particle.shift, Vec.scale, mul_zero]
  change (⟨p.position.x + 0, p.position.y + 0⟩ : Vec ℝ) = p.position
  rw [add_zero, add_zero]

theorem Particle.Stays.shiftPrevious (h : p.Stays spot) (d : Vec ℝ) :
    (p.shiftPrevious d).Stays spot := ⟨h.pinned, h.position⟩

/-- A pinned end takes no part of a correction. -/
theorem Shares.between_pinned (p q : Particle ℝ) :
    (p.pinned = true → (Shares.between p q).a = 0) ∧
      (q.pinned = true → (Shares.between p q).b = 0) := by
  unfold Shares.between
  dsimp only
  constructor
  · intro hp
    split
    · simp [Particle.yield, hp]
    · rfl
  · intro hq
    split
    · simp [Particle.yield, hq]
    · rfl

/-- The shares of springs that were worked out when a slot was pinned. -/
def Spared (slot : Nat) (wires : List (Wire ℝ × Shares ℝ)) : Prop :=
  ∀ w ∈ wires, (w.1.a = slot → w.2.a = 0) ∧ (w.1.b = slot → w.2.b = 0)

theorem Fast.spared (h : Fast spot rows slot) (wires : List (Wire ℝ)) :
    Spared slot (wires.map fun w => (w, w.shares rows)) := by
  obtain ⟨p, hrow, hp⟩ := h
  have hread : Wire.row rows slot = p := by simp [Wire.row, hrow]
  intro pair hmem
  obtain ⟨w, _, he⟩ := List.mem_map.mp hmem
  subst he
  obtain ⟨hA, hB⟩ := Shares.between_pinned (Wire.row rows w.a) (Wire.row rows w.b)
  constructor
  · intro ha
    exact hA (by rw [ha, hread, hp.pinned])
  · intro hb
    exact hB (by rw [hb, hread, hp.pinned])

theorem Fast.relaxPass {wires : List (Wire ℝ × Shares ℝ)} (hs : Spared slot wires)
    (h : Fast spot rows slot) : Fast spot (relaxPass wires rows) slot := by
  apply h.nudgeAll
  · intro n hn ha p hp
    obtain ⟨⟨w, s⟩, hmem, he⟩ := List.mem_map.mp hn
    subst he
    have hnone : s.a = 0 := (hs _ hmem).1 ha
    simp only [Wire.relax, hnone]
    exact hp.shift _
  · intro n hn hb p hp
    obtain ⟨⟨w, s⟩, hmem, he⟩ := List.mem_map.mp hn
    subst he
    have hnone : s.b = 0 := (hs _ hmem).2 hb
    simp only [Wire.relax, hnone]
    exact hp.shift _

/-- However far springs are stretched and however stiff they are. -/
theorem Fast.relaxSprings (h : Fast spot rows slot) (passes : Nat) (wires : List (Wire ℝ)) :
    Fast spot (relaxSprings passes wires rows) slot := by
  have hpasses : Fast spot (Nat.repeat (Arboretum.relaxPass (wires.map fun w => (w, w.shares rows)))
      passes rows) slot := by
    induction passes with
    | zero => exact h
    | succ n ih => exact ih.relaxPass (h.spared wires)
  exact hpasses.nudgeAll (fun _ _ _ _ hp => hp.shiftPrevious _) fun _ _ _ _ hp => hp.shiftPrevious _

end

namespace World

/-- A point that is alive and pinned at a spot. -/
def Fixed (w : World α) (id : Nat) (spot : Vec α) : Prop :=
  ∃ p, w.particle? id = some p ∧ p.Stays spot

theorem particle?_mapLive {w : World α} (h : Sound w) (f : Particle α → Particle α) (id : Nat) :
    (w.mapLive f).particle? id = (w.particle? id).map f := by
  unfold particle?
  change (w.slot? id).bind _ = _
  cases hs : w.slot? id with
  | none => rfl
  | some slot => simp [mapLive, h.slot_lt hs]

section
variable {w : World α} {id : Nat} {spot : Vec α}

theorem fixed_iff : w.Fixed id spot ↔ ∃ slot, w.slot? id = some slot ∧ Fast spot w.rows slot := by
  constructor
  · intro h
    obtain ⟨p, hp, hstays⟩ := h
    obtain ⟨slot, hs, hrow⟩ := Option.bind_eq_some_iff.mp hp
    exact ⟨slot, hs, p, hrow, hstays⟩
  · intro h
    obtain ⟨slot, hs, p, hrow, hstays⟩ := h
    exact ⟨p, Option.bind_eq_some_iff.mpr ⟨slot, hs, hrow⟩, hstays⟩

theorem Fixed.mapLive (hw : Sound w) {spot' : Vec α} {f : Particle α → Particle α}
    (h : w.Fixed id spot) (hf : ∀ p, p.Stays spot → (f p).Stays spot') :
    (w.mapLive f).Fixed id spot' := by
  obtain ⟨p, hp, hstays⟩ := h
  refine ⟨f p, ?_, hf p hstays⟩
  rw [particle?_mapLive hw, hp, Option.map_some]

theorem Fixed.touch (h : w.Fixed id spot) (slot : Nat) {f : Particle α → Particle α}
    (hf : ∀ p, p.Stays spot → (f p).Stays spot) : (w.touch slot f).Fixed id spot := by
  obtain ⟨p, hp, hstays⟩ := h
  unfold Fixed
  rw [particle?_touch, hp]
  split
  · exact ⟨f p, rfl, hf p hstays⟩
  · exact ⟨p, rfl, hstays⟩

theorem Fixed.pinSlot (h : w.Fixed id spot) (slot : Nat) : (w.pinSlot slot).Fixed id spot := by
  rw [pinSlot_eq_touch]
  apply h.touch
  intro p hp
  exact ⟨rfl, hp.position⟩

theorem Fixed.lt (h : w.Fixed id spot) : id < w.slots.size := by
  obtain ⟨slot, hs, _⟩ := fixed_iff.mp h
  exact slot?_lt hs

variable [Scalar α]

theorem particle?_confine (hw : Sound w) (id : Nat) : w.confine.particle? id =
    (w.particle? id).map fun p => { p with position := w.setting.held p.position } := by
  unfold World.confine Setting.held
  cases w.setting.bounds with
  | none => exact Option.map_id'.symm
  | some b => exact particle?_mapLive hw (.confine b) id

theorem Fixed.confine (hw : Sound w) (h : w.Fixed id spot) :
    w.confine.Fixed id (w.setting.held spot) := by
  obtain ⟨p, hp, hpinned, rfl⟩ := h
  exact ⟨_, (particle?_confine hw id).trans (congrArg _ hp), hpinned, rfl⟩

/-- A step leaves every point where the bounds hold it. -/
theorem position_step (hw : Sound w) (dt : α) {p : Particle α}
    (hp : (w.step dt).particle? id = some p) : ∃ place, p.position = w.setting.held place := by
  have hslot : (w.step dt).slot? id ≠ none := by
    intro hnone
    unfold particle? at hp
    rw [hnone] at hp
    cases hp
  obtain ⟨slot, hs⟩ := Option.ne_none_iff_exists'.mp hslot
  rw [(moved_step dt w).slot?] at hs
  have hcount : w.count ≠ 0 := Nat.ne_of_gt (Nat.zero_lt_of_lt (hw.slot_lt hs))
  have hmoved : Moved w (w.mapLive (.drift w.setting dt)).relax :=
    (moved_mapLive w (Particle.drift_nature w.setting dt)).trans (moved_relax _)
  unfold World.step at hp
  rw [if_neg hcount, particle?_confine (hmoved.sound hw), hmoved.setting] at hp
  obtain ⟨q, -, rfl⟩ := Option.map_eq_some_iff.mp hp
  exact ⟨q.position, rfl⟩

theorem Fixed.pushSlot (h : w.Fixed id spot) (slot : Nat) (force : Vec α) :
    (w.pushSlot slot force).Fixed id spot := by
  rw [pushSlot_eq_touch]
  apply h.touch
  intro p hp
  exact ⟨hp.pinned, hp.position⟩

theorem Fixed.addPoint (hw : Sound w) (h : w.Fixed id spot) (place : Vec α) (mass : α)
    (pinned : Bool) : (World.addPoint place mass pinned w).state.Fixed id spot := by
  obtain ⟨notes, he⟩ := addPoint_apply place mass pinned w
  have hroomy : w.roomy.Fixed id spot := by
    unfold Fixed
    rw [show w.roomy.particle? = w.particle? from congrArg Store.points (store_roomy hw)]
    exact h
  rw [he]
  split
  · exact hroomy
  · rename_i hroom
    unfold Fixed
    rw [particle?_seat hw.roomy (Nat.lt_of_not_le hroom), if_neg (Nat.ne_of_lt hroomy.lt)]
    exact hroomy

/-- No call moves or frees a pinned point that it leaves alive. -/
theorem Fixed.run {P S : Type} (hw : Sound w) (h : w.Fixed id spot) (point : P → Point α)
    (spring : S → Spring) (e : Edit α P S) (halive : (e.run point spring w).state.isAlive id) :
    (e.run point spring w).state.Fixed id spot := by
  cases e with
  | addPoint place mass pinned =>
    rw [Edit.run, Action.map_apply]
    exact h.addPoint hw place mass pinned
  | pin p =>
    rw [Edit.run, Action.map_apply, pin_apply]
    split
    · exact h
    · split
      · exact h
      · exact h.pinSlot _
  | push p force =>
    rw [Edit.run, Action.map_apply, push_apply]
    split
    · exact h.pushSlot _ force
    · exact h
  | removePoint p =>
    rw [Edit.run, Action.map_apply, removePoint_apply] at halive ⊢
    split at halive
    · rename_i gone slot hp
      obtain ⟨q, _, hq⟩ := Option.bind_eq_some_iff.mp hp
      have hs := (slot?_of_seated? hq).2.2
      have hpoint := particle?_without hw hs id
      rw [← (hw.without hs).particle?_isSome, hpoint] at halive
      unfold Fixed
      rw [hpoint]
      split at halive
      · cases halive
      · rename_i hne
        rw [if_neg hne]
        exact h
    · exact h
  | addSpring a b stiffness rest damping =>
    obtain ⟨notes, he⟩ := addSpring_apply (a.map point) (b.map point) stiffness rest damping w
    rw [Edit.run, Action.map_apply, he]
    split
    · exact h
    · exact h
  | removeSpring s =>
    rw [Edit.run, Action.map_apply, removeSpring_apply]
    split
    · exact h
    · exact h

end

section
variable {w w' : World ℝ} {id : Nat} {spot : Vec ℝ}

theorem Fixed.relax (hw : Sound w) (h : w.Fixed id spot) : w.relax.Fixed id spot := by
  obtain ⟨slot, hs, hfast⟩ := fixed_iff.mp h
  rw [fixed_iff, (moved_relax w).slot?, rows_relax hw]
  exact ⟨slot, hs, hfast.relaxSprings _ _⟩

/-- A step takes a pinned point within the bounds and leaves it otherwise. -/
theorem Fixed.step (hw : Sound w) (h : w.Fixed id spot) (dt : ℝ) :
    (w.step dt).Fixed id (w.setting.held spot) := by
  obtain ⟨slot, hs, _⟩ := fixed_iff.mp h
  have hcount : w.count ≠ 0 := Nat.ne_of_gt (Nat.zero_lt_of_lt (hw.slot_lt hs))
  have hdrift := moved_mapLive w (Particle.drift_nature w.setting dt)
  have hdrifted := h.mapLive hw fun p hp => hp.drift w.setting dt
  have hrelaxed := hdrifted.relax (hdrift.sound hw)
  have hrelax := hdrift.trans (moved_relax _)
  have hconfined := hrelaxed.confine (hrelax.sound hw)
  rw [hrelax.setting] at hconfined
  unfold World.step
  rw [if_neg hcount]
  exact hconfined

end

/-- What a world comes to by calls and steps, and whether there was a step among them. -/
inductive Later [Scalar α] (w : World α) : Bool → World α → Prop
  | now : Later w false w
  | edit {stepped : Bool} {w' : World α} (h : Later w stepped w')
      (e : Edit α {p : Point α // w'.Sees p} Spring) :
      Later w stepped (e.run Subtype.val id w').state
  | step {stepped : Bool} {w' : World α} (h : Later w stepped w') (dt : α) :
      Later w true (w'.step dt)

section
variable [Scalar α] {w w' : World α} {stepped : Bool}

theorem Later.changes (h : Later w stepped w') (hw : Sound w) :
    Changes (fun _ => True) w w' := by
  induction h with
  | now => exact .none
  | edit _ e ih =>
    exact ih.trans (changes_run (ih.sound hw) _ Subtype.property e fun _ _ _ _ => trivial)
  | step _ dt ih => exact .more ih (.moved (moved_step dt _))

end

/-- Where a point pinned at a spot is later. -/
noncomputable def rest (s : Setting ℝ) (spot : Vec ℝ) (stepped : Bool) : Vec ℝ :=
  if stepped then s.held spot else spot

/-- A point that is pinned stays where it is until the first step, and from then on where that step
left it, for as long as it is alive. -/
theorem Fixed.later {w w' : World ℝ} {stepped : Bool} {x : Nat} {spot : Vec ℝ} (hw : Sound w)
    (h : w.Fixed x spot) (hl : Later w stepped w') (halive : w'.isAlive x) :
    w'.Fixed x (rest w.setting spot stepped) := by
  have hlt := h.lt
  -- numbers are not given out again, so a point alive now was alive all the way
  induction hl with
  | now => exact h
  | @edit stepped w₁ hl e ih =>
    have hc := hl.changes hw
    have hlt₁ : x < w₁.slots.size := Nat.lt_of_lt_of_le hlt (hc.onward hw).points
    have hrun : Changes (fun _ => True) w₁ _ :=
      changes_run (hc.sound hw) id Subtype.property e fun _ _ _ _ => trivial
    have halive₁ := (hrun.onward (hc.sound hw)).gone x hlt₁ halive
    exact (ih halive₁).run (hc.sound hw) _ _ e halive
  | @step stepped w₁ hl dt ih =>
    have hc := hl.changes hw
    have halive₁ : w₁.isAlive x := (moved_step dt w₁).isAlive x ▸ halive
    have hstep := (ih halive₁).step (hc.sound hw) dt
    rw [hc.setting] at hstep
    cases stepped with
    | false => exact hstep
    | true =>
      rw [rest, if_pos rfl, Setting.held_held] at hstep
      exact hstep

section
variable {w : World ℝ}

theorem fixed_pin (hw : Sound w) {id : Nat} {p : Particle ℝ} (hp : w.particle? id = some p) :
    (pin (w.point id) w).result = .ok () ∧ (pin (w.point id) w).state.Fixed id p.position := by
  obtain ⟨slot, hs, hrow⟩ := Option.bind_eq_some_iff.mp hp
  have hcap := Nat.not_le_of_gt (hw.slot_lt_capacity hs)
  rw [pin_apply, point_slot hw, hs]
  simp only [Option.elim_some, capacity, hcap, if_false, true_and]
  refine ⟨{ p with pinned := true, previous := p.position }, ?_, rfl, rfl⟩
  rw [pinSlot_eq_touch, particle?_touch, if_pos hs, hp, Option.map_some]

theorem fixed_addPoint (hw : Sound w) {spot : Vec ℝ} {mass : ℝ} {id : Nat}
    (hid : (addPoint spot mass true w).result = .ok id) :
    (addPoint spot mass true w).state.Fixed id spot := by
  obtain ⟨notes, he⟩ := addPoint_apply spot mass true w
  rw [he] at hid ⊢
  split at hid
  · cases hid
  · rename_i hroom
    cases hid
    rw [if_neg hroom]
    refine ⟨.atRest spot (massOf mass) true, ?_, rfl, rfl⟩
    have hsize : w.roomy.slots.size = w.slots.size := congrArg Store.nextPoint (store_roomy hw)
    rw [particle?_seat hw.roomy (Nat.lt_of_not_le hroom), hsize]
    exact if_pos rfl

/-- Whatever the world comes to by forces, springs, new and removed points and steps, a point stays
pinned as long as it is alive, where it is until the first step and where the bounds put it from
then on. Within the bounds, or without any, that is one place. -/
def StaysPut (w : World ℝ) (id : Nat) (spot : Vec ℝ) : Prop :=
  ∀ stepped w', Later w stepped w' → w'.isAlive id →
    w'.Fixed id (rest w.setting spot stepped) ∧
      ((∀ b, w.setting.bounds = some b → b.Has spot) → w'.Fixed id spot)

theorem Fixed.staysPut (hw : Sound w) {id : Nat} {spot : Vec ℝ} (h : w.Fixed id spot) :
    w.StaysPut id spot := by
  intro stepped w' hl halive
  have hlater := h.later hw hl halive
  refine ⟨hlater, fun hin => ?_⟩
  rw [rest, Setting.held_of_has hin, ite_self] at hlater
  exact hlater

/-- In every world that can be reached, a point stays put that is made pinned, and so does one that
is pinned later, where it is then. -/
theorem pinned_stays (hw : Reached w) :
    (∀ spot mass id, (addPoint spot mass true w).result = .ok id →
      (addPoint spot mass true w).state.StaysPut id spot) ∧
    ∀ id p, w.particle? id = some p →
      (pin (w.point id) w).result = .ok () ∧ (pin (w.point id) w).state.StaysPut id p.position := by
  have hs := hw.sound
  constructor
  · intro spot mass id hid
    have hc : Changes (fun _ => True) w _ := changes_addPoint spot mass true trivial w
    exact (fixed_addPoint hs hid).staysPut (hc.sound hs)
  · intro id p hp
    obtain ⟨hok, hfixed⟩ := fixed_pin hs hp
    exact ⟨hok, hfixed.staysPut (hs.pin _)⟩

end

/-- A world with bounds. -/
noncomputable def fenced : World ℝ :=
  World.new 0 ⟨⟨0, -95⟩, 0, 4, some ⟨⟨0, 0⟩, ⟨10, 10⟩⟩⟩ 1

theorem ready_fenced : Ready fenced := .new 0 _ (Nat.le_refl 1)

theorem addPoint_fenced (spot : Vec ℝ) : (addPoint spot 1 true fenced).result = .ok 0 := by
  obtain ⟨notes, he⟩ := addPoint_apply spot 1 true fenced
  rw [he, if_neg (Nat.not_le_of_gt (count_roomy_lt ready_fenced))]
  rfl

theorem pinned_stays_pushed :
    let w := (addPoint ⟨5, 5⟩ 1 true fenced).state
    let w' := ((push (some (w.point 0)) ⟨300, 400⟩ w).state).step 1
    Reached fenced ∧ (addPoint ⟨5, 5⟩ 1 true fenced).result = .ok 0 ∧ Later w true w' ∧
      w'.isAlive 0 ∧ w'.Fixed 0 ⟨5, 5⟩ := by
  intro w w'
  have hw : Reached fenced := .new 0 _ 1
  have hid := addPoint_fenced ⟨5, 5⟩
  have hc : Changes (fun _ => True) fenced w := changes_addPoint ⟨5, 5⟩ 1 true trivial fenced
  have hsound := hc.sound hw.sound
  have hpush : Later w false (push (some (w.point 0)) ⟨300, 400⟩ w).state := by
    have hedit := Later.now.edit (.push (some ⟨w.point 0, fun _ => rfl⟩) ⟨300, 400⟩)
    rw [Edit.run, Action.map_apply] at hedit
    exact hedit
  have halive : w'.isAlive 0 := by
    obtain ⟨slot, hs, _⟩ := fixed_iff.mp (fixed_addPoint hw.sound hid)
    rw [(moved_step 1 _).isAlive, (moved_push hsound 0 _).isAlive]
    exact isAlive_iff.mpr ⟨slot, hs⟩
  have hin : ∀ b, w.setting.bounds = some b → b.Has ⟨5, 5⟩ := by
    intro b hb
    rw [hc.setting] at hb
    cases hb
    constructor <;> norm_num
  exact ⟨hw, hid, hpush.step 1, halive,
    ((pinned_stays hw).1 ⟨5, 5⟩ 1 0 hid true w' (hpush.step 1) halive).2 hin⟩

/-- A point that is made pinned out of the bounds is taken into them by the first step. -/
theorem pinned_moved : Reached fenced ∧ (addPoint ⟨-5, 5⟩ 1 true fenced).result = .ok 0 ∧
    (addPoint ⟨-5, 5⟩ 1 true fenced).state.Fixed 0 ⟨-5, 5⟩ ∧
    ((addPoint ⟨-5, 5⟩ 1 true fenced).state.step 1).Fixed 0 ⟨0, 5⟩ ∧
    ¬ ((addPoint ⟨-5, 5⟩ 1 true fenced).state.step 1).Fixed 0 ⟨-5, 5⟩ := by
  have hw : Reached fenced := .new 0 _ 1
  have hid := addPoint_fenced ⟨-5, 5⟩
  have hc : Changes (fun _ => True) fenced _ := changes_addPoint ⟨-5, 5⟩ 1 true trivial fenced
  have hfixed := fixed_addPoint hw.sound hid
  have hstep := hfixed.step (hc.sound hw.sound) 1
  have hheld : fenced.setting.held ⟨-5, 5⟩ = ⟨0, 5⟩ := by
    simp only [Setting.held, fenced, World.new, Scalar.confine_real]
    norm_num
  rw [hc.setting, hheld] at hstep
  refine ⟨hw, hid, hfixed, hstep, fun hback => ?_⟩
  obtain ⟨p, hp, hstays⟩ := hstep
  obtain ⟨q, hq, hstays'⟩ := hback
  rw [hp] at hq
  cases hq
  have hx := congrArg Vec.x (hstays.position.symm.trans hstays'.position)
  norm_num at hx

end World
end Arboretum
