import Arboretum.Proofs.World.Store

/-!
Two worlds that show the same points, with springs of their own at other points. What moves a point
comes from the point itself and from the springs at it, so that the points stay the same in both
worlds through steps and forces.
-/
namespace Arboretum

/-- The second list has what the first one has, apart from what is left out. -/
inductive Picks {β γ : Type} (skip : β → Prop) (same : β → γ → Prop) : List β → List γ → Prop where
  | nil : Picks skip same [] []
  | skip {x : β} {xs : List β} {ys : List γ} (hx : skip x) (rest : Picks skip same xs ys) :
    Picks skip same (x :: xs) ys
  | pick {x : β} {y : γ} {xs : List β} {ys : List γ} (hxy : same x y)
    (rest : Picks skip same xs ys) : Picks skip same (x :: xs) (y :: ys)

namespace Picks

variable {β β' γ γ' σ τ : Type} {skip : β → Prop} {same : β → γ → Prop} {xs : List β} {ys : List γ}

theorem map {skip' : β' → Prop} {same' : β' → γ' → Prop} {f : β → β'} {g : γ → γ'}
    (h : Picks skip same xs ys) (hskip : ∀ x, skip x → skip' (f x))
    (hsame : ∀ x y, same x y → same' (f x) (g y)) :
    Picks skip' same' (xs.map f) (ys.map g) := by
  induction h with
  | nil => exact .nil
  | skip hx _ ih => exact .skip (hskip _ hx) ih
  | pick hxy _ ih => exact .pick (hsame _ _ hxy) ih

/-- Two runs stay related if what is left out does not matter to the second one. -/
theorem foldl (related : σ → τ → Prop) {f : σ → β → σ} {g : τ → γ → τ}
    (h : Picks skip same xs ys) (hskip : ∀ x s t, skip x → related s t → related (f s x) t)
    (hsame : ∀ x y s t, same x y → related s t → related (f s x) (g t y)) {s : σ} {t : τ}
    (hst : related s t) : related (xs.foldl f s) (ys.foldl g t) := by
  induction h generalizing s t with
  | nil => exact hst
  | skip hx _ ih => exact ih (hskip _ _ _ hx hst)
  | pick hxy _ ih => exact ih (hsame _ _ _ _ hxy hst)

/-- Leaving out by a test, and then reading each entry. -/
theorem filterMap {ι : Type} {mine : ι → Bool} {f : ι → Option β} {g : ι → Option γ} {is : List ι}
    (hmine : ∀ i ∈ is, mine i = true → ∃ x y, f i = some x ∧ g i = some y ∧ same x y)
    (hother : ∀ i ∈ is, mine i = false → ∃ x, f i = some x ∧ skip x) :
    Picks skip same (is.filterMap f) ((is.filter mine).filterMap g) := by
  induction is with
  | nil => exact .nil
  | cons i is ih =>
    have hrest := ih (fun j hj => hmine j (List.mem_cons_of_mem i hj))
      (fun j hj => hother j (List.mem_cons_of_mem i hj))
    cases hi : mine i with
    | true =>
      obtain ⟨x, y, hf, hg, hxy⟩ := hmine i List.mem_cons_self hi
      rw [List.filterMap_cons_some hf, List.filter_cons_of_pos hi, List.filterMap_cons_some hg]
      exact .pick hxy hrest
    | false =>
      obtain ⟨x, hf, hx⟩ := hother i List.mem_cons_self hi
      rw [List.filterMap_cons_some hf, List.filter_cons_of_neg (by simp [hi])]
      exact .skip hx hrest

end Picks

variable {α : Type}

/-! ### Two tables with some rows in common -/

/-- No slot has two twins. -/
structure OneToOne (twin : Nat → Nat → Prop) : Prop where
  left : ∀ {i j j'}, twin i j → twin i j' → j = j'
  right : ∀ {i i' j}, twin i j → twin i' j → i = i'

/-- Twin slots hold the same row. -/
def Agree (twin : Nat → Nat → Prop) (rows rows' : Array (Particle α)) : Prop :=
  ∀ i j, twin i j → rows[i]? = rows'[j]?

/-- Neither of two slots has a twin. -/
def Lone (twin : Nat → Nat → Prop) (a b : Nat) : Prop := ∀ j, ¬ twin a j ∧ ¬ twin b j

/-- The same spring between twin slots. -/
structure Wire.Alike (twin : Nat → Nat → Prop) (w v : Wire α) : Prop where
  a : twin w.a v.a
  b : twin w.b v.b
  rest : w.rest = v.rest
  stiffness : w.stiffness = v.stiffness
  damping : w.damping = v.damping

/-- The same nudge on twin slots. -/
structure Nudge.Alike (twin : Nat → Nat → Prop) (n m : Nudge α) : Prop where
  a : twin n.a m.a
  b : twin n.b m.b
  shiftA : n.shiftA = m.shiftA
  shiftB : n.shiftB = m.shiftB

section
variable {twin : Nat → Nat → Prop} {rows rows' : Array (Particle α)} {i j : Nat}

theorem Agree.modify (hone : OneToOne twin) (h : Agree twin rows rows') (hij : twin i j)
    (f : Particle α → Particle α) : Agree twin (rows.modify i f) (rows'.modify j f) := by
  intro i' j' ht
  have hslot : i = i' ↔ j = j' :=
    ⟨fun he => hone.left hij (he ▸ ht), fun he => hone.right hij (he ▸ ht)⟩
  rw [Array.getElem?_modify, Array.getElem?_modify, h i' j' ht]
  simp only [hslot]

theorem Agree.modify_lone (h : Agree twin rows rows') (hi : ∀ j, ¬ twin i j)
    (f : Particle α → Particle α) : Agree twin (rows.modify i f) rows' := by
  intro i' j' ht
  have hne : i ≠ i' := fun he => hi j' (he ▸ ht)
  rw [Array.getElem?_modify, if_neg hne]
  exact h i' j' ht

/-- Nudges alike keep twin rows the same, whatever is done to rows without a twin. -/
theorem Agree.nudgeAll (hone : OneToOne twin) (h : Agree twin rows rows')
    {move : Vec α → Particle α → Particle α} {ns ms : List (Nudge α)}
    (hn : Picks (fun n => Lone twin n.a n.b) (Nudge.Alike twin) ns ms) :
    Agree twin (nudgeAll move ns rows) (nudgeAll move ms rows') := by
  have hfirst := hn.foldl (Agree twin) (f := fun rows n => rows.modify n.a (move n.shiftA))
    (g := fun rows n => rows.modify n.a (move n.shiftA))
    (fun n _ _ hlone ha => ha.modify_lone (fun j => (hlone j).1) _)
    (fun n m _ _ hal ha => hal.shiftA ▸ ha.modify hone hal.a _) h
  exact hn.foldl (Agree twin)
    (fun n _ _ hlone ha => ha.modify_lone (fun j => (hlone j).2) _)
    (fun n m _ _ hal ha => hal.shiftB ▸ ha.modify hone hal.b _) hfirst

variable [Scalar α]

theorem Agree.row (h : Agree twin rows rows') (hij : twin i j) :
    Wire.row rows i = Wire.row rows' j := by
  simp only [Wire.row, Array.getD_eq_getD_getElem?, h i j hij]

variable {w v : Wire α}

theorem Wire.Alike.shares (hw : w.Alike twin v) (h : Agree twin rows rows') :
    w.shares rows = v.shares rows' := by
  rw [Wire.shares, Wire.shares, h.row hw.a, h.row hw.b]

theorem Wire.Alike.relax (hw : w.Alike twin v) (h : Agree twin rows rows') (s : Shares α) :
    (w.relax rows s).Alike twin (v.relax rows' s) := by
  refine ⟨hw.a, hw.b, ?_, ?_⟩ <;>
    simp only [Wire.relax, Wire.correct, h.row hw.a, h.row hw.b, hw.rest, hw.stiffness]

theorem Wire.Alike.damp (hw : w.Alike twin v) (h : Agree twin rows rows') (s : Shares α) :
    (w.damp rows s).Alike twin (v.damp rows' s) := by
  refine ⟨hw.a, hw.b, ?_, ?_⟩ <;>
    simp only [Wire.damp, Wire.impulse, h.row hw.a, h.row hw.b, hw.damping]

/-- Springs with their shares, as a pass takes them. -/
def SharesAlike (twin : Nat → Nat → Prop) (p q : Wire α × Shares α) : Prop :=
  p.1.Alike twin q.1 ∧ p.2 = q.2

variable {ws vs : List (Wire α × Shares α)}

theorem Agree.relaxPass (hone : OneToOne twin) (h : Agree twin rows rows')
    (hw : Picks (fun p => Lone twin p.1.a p.1.b) (SharesAlike twin) ws vs) :
    Agree twin (relaxPass ws rows) (relaxPass vs rows') := by
  refine h.nudgeAll hone (hw.map (fun _ hlone => hlone) ?_)
  rintro ⟨w, s⟩ ⟨v, t⟩ ⟨hal, hs⟩
  cases hs
  exact hal.relax h s

theorem Agree.dampPass (hone : OneToOne twin) (h : Agree twin rows rows')
    (hw : Picks (fun p => Lone twin p.1.a p.1.b) (SharesAlike twin) ws vs) :
    Agree twin (dampPass ws rows) (dampPass vs rows') := by
  refine h.nudgeAll hone (hw.map (fun _ hlone => hlone) ?_)
  rintro ⟨w, s⟩ ⟨v, t⟩ ⟨hal, hs⟩
  cases hs
  exact hal.damp h s

/-- The springs between twin slots act on them as if the others were not there. -/
theorem Agree.relaxSprings (hone : OneToOne twin) (h : Agree twin rows rows') (passes : Nat)
    {ws vs : List (Wire α)} (hw : Picks (fun w => Lone twin w.a w.b) (Wire.Alike twin) ws vs) :
    Agree twin (relaxSprings passes ws rows) (relaxSprings passes vs rows') := by
  have hshares : Picks (fun p => Lone twin p.1.a p.1.b) (SharesAlike twin)
      (ws.map fun w => (w, w.shares rows)) (vs.map fun v => (v, v.shares rows')) :=
    hw.map (fun _ hlone => hlone) fun _ _ hal => ⟨hal, hal.shares h⟩
  refine Agree.dampPass hone ?_ hshares
  induction passes with
  | zero => exact h
  | succ n ih => exact ih.relaxPass hone hshares

end

namespace World

/-! ### Two worlds with corresponding points -/

section
variable {w w' v v' : World α} {pair : Nat → Nat → Prop}

/-- The slots of corresponding points of two worlds. -/
def Seats (pair : Nat → Nat → Prop) (w v : World α) (i j : Nat) : Prop :=
  ∃ id id', pair id id' ∧ w.slot? id = some i ∧ v.slot? id' = some j

/-- Two worlds with the same setting, of which corresponding points are the same. -/
structure Corresponds (pair : Nat → Nat → Prop) (w v : World α) : Prop where
  whole : Sound w
  part : Sound v
  setting : v.setting = w.setting
  particles : ∀ id id', pair id id' → v.particle? id' = w.particle? id

namespace Corresponds

theorem oneToOne (h : Corresponds pair w v) (hpair : OneToOne pair) :
    OneToOne (Seats pair w v) where
  left := by
    rintro i j j' ⟨id, id', hp, hi, hj⟩ ⟨x, x', hp', hx, hx'⟩
    cases h.whole.slot_unique hi hx
    cases hpair.left hp hp'
    exact Option.some.inj (hj.symm.trans hx')
  right := by
    rintro i i' j ⟨id, id', hp, hi, hj⟩ ⟨x, x', hp', hx, hx'⟩
    cases h.part.slot_unique hj hx'
    cases hpair.right hp hp'
    exact Option.some.inj (hi.symm.trans hx)

theorem alive (h : Corresponds pair w v) {id id' : Nat} (hp : pair id id') :
    v.isAlive id' = w.isAlive id := by
  rw [← h.whole.particle?_isSome, ← h.part.particle?_isSome, h.particles id id' hp]

theorem agree (h : Corresponds pair w v) : Agree (Seats pair w v) w.rows v.rows := by
  rintro i j ⟨id, id', hp, hi, hj⟩
  have hsame := h.particles id id' hp
  simp only [particle?, hi, hj, Option.bind_some] at hsame
  exact hsame.symm

theorem seats (hw : Moved w w') (hv : Moved v v') : Seats pair w' v' = Seats pair w v := by
  funext i j
  simp only [Seats, hw.slot?, hv.slot?]

/-- What moves corresponding points alike keeps them the same. -/
theorem moved (h : Corresponds pair w v) (hw : Moved w w') (hv : Moved v v')
    (hp : ∀ id id', pair id id' → v'.particle? id' = w'.particle? id) :
    Corresponds pair w' v' where
  whole := hw.sound h.whole
  part := hv.sound h.part
  setting := by rw [hv.setting, hw.setting, h.setting]
  particles := hp

/-- Where the rows of corresponding points are the same, the points are. -/
theorem of_agree (h : Corresponds pair w v) (hw : Moved w w') (hv : Moved v v')
    (hr : Agree (Seats pair w v) w'.rows v'.rows) : Corresponds pair w' v' := by
  refine h.moved hw hv fun id id' hp => ?_
  have halive := h.alive hp
  unfold isAlive at halive
  unfold particle?
  rw [hw.slot?, hv.slot?]
  cases hi : w.slot? id with
  | none =>
    have hj : v.slot? id' = none := by simpa [hi] using halive
    rw [hj]
    rfl
  | some i =>
    rw [hi] at halive
    obtain ⟨j, hj⟩ := Option.isSome_iff_exists.mp halive
    rw [hj]
    exact (hr i j ⟨id, id', hp, hi, hj⟩).symm

theorem mapLive (h : Corresponds pair w v) {f : Particle α → Particle α}
    (hf : ∀ p, (f p).nature = p.nature) : Corresponds pair (w.mapLive f) (v.mapLive f) := by
  refine h.of_agree (moved_mapLive w hf) (moved_mapLive v hf) ?_
  rintro i j ⟨id, id', hp, hi, hj⟩
  have hrow := h.agree i j ⟨id, id', hp, hi, hj⟩
  simp only [World.mapLive, Array.getElem?_mapIdx, h.whole.slot_lt hi, h.part.slot_lt hj, hrow]

variable [Scalar α]

theorem confine (h : Corresponds pair w v) : Corresponds pair w.confine v.confine := by
  unfold World.confine
  rw [h.setting]
  cases w.setting.bounds with
  | none => exact h
  | some b => exact h.mapLive (Particle.confine_nature b)

/-- A step keeps corresponding points the same if its springs do. -/
theorem step (h : Corresponds pair w v) (dt : α)
    (hrelax : ∀ w' v', Moved w w' → Moved v v' → Corresponds pair w' v' →
      Corresponds pair w'.relax v'.relax) : Corresponds pair (w.step dt) (v.step dt) := by
  by_cases hempty : w.count = 0 ∨ v.count = 0
  · -- neither world then has a point that corresponds to one of the other
    refine h.of_agree (moved_step dt w) (moved_step dt v) ?_
    rintro i j ⟨id, id', hp, hi, hj⟩
    have hw := h.whole.slot_lt hi
    have hv := h.part.slot_lt hj
    omega
  · rw [not_or] at hempty
    have hw := moved_mapLive w (Particle.drift_nature w.setting dt)
    have hv := moved_mapLive v (Particle.drift_nature w.setting dt)
    have hdrift := h.mapLive (Particle.drift_nature w.setting dt)
    unfold World.step
    rw [if_neg hempty.1, if_neg hempty.2, h.setting]
    exact (hrelax _ _ hw hv hdrift).confine

end Corresponds
end

/-! ### Points of a set, and springs of their own at the others -/

variable {A : Nat → Bool} {w w' v v' : World α}

/-- The slots of a point of a set in two worlds. -/
def Twins (A : Nat → Bool) (w v : World α) (i j : Nat) : Prop :=
  ∃ id, A id = true ∧ w.slot? id = some i ∧ v.slot? id = some j

/-- A world shows a set of another one's points as they are there, with the springs at them. -/
structure Shows (A : Nat → Bool) (w v : World α) : Prop where
  whole : Sound w
  part : Sound v
  setting : v.setting = w.setting
  particles : ∀ id, A id = true → v.particle? id = w.particle? id
  wires : Picks (fun x => Lone (Twins A w v) x.a x.b) (Wire.Alike (Twins A w v))
    w.freshWires v.freshWires

/-- A point of a set corresponds to itself. -/
def Among (A : Nat → Bool) (id id' : Nat) : Prop := A id = true ∧ id = id'

theorem among_oneToOne (A : Nat → Bool) : OneToOne (Among A) where
  left h h' := h.2.symm.trans h'.2
  right h h' := h.2.trans h'.2.symm

theorem twins_eq_seats (A : Nat → Bool) (w v : World α) : Twins A w v = Seats (Among A) w v := by
  funext i j
  apply propext
  constructor
  · intro h
    obtain ⟨id, hid, hi, hj⟩ := h
    exact ⟨id, id, ⟨hid, rfl⟩, hi, hj⟩
  · intro h
    obtain ⟨id, _, ⟨hid, rfl⟩, hi, hj⟩ := h
    exact ⟨id, hid, hi, hj⟩

theorem Shows.corresponds (h : Shows A w v) : Corresponds (Among A) w v where
  whole := h.whole
  part := h.part
  setting := h.setting
  particles id _ hid := hid.2 ▸ h.particles id hid.1

/-- As long as the points of the set correspond, the springs at them stay as they are. -/
theorem Shows.of_corresponds (h : Shows A w v) (hw : Moved w w') (hv : Moved v v')
    (hc : Corresponds (Among A) w' v') : Shows A w' v' where
  whole := hc.whole
  part := hc.part
  setting := hc.setting
  particles id hid := hc.particles id id ⟨hid, rfl⟩
  wires := by
    rw [twins_eq_seats, Corresponds.seats hw hv, ← twins_eq_seats, hw.freshWires, hv.freshWires]
    exact h.wires

section
variable [Scalar α]

theorem relaxSprings_nil (passes : Nat) (rows : Array (Particle α)) :
    relaxSprings passes [] rows = rows := by
  have hpasses : Nat.repeat (relaxPass []) passes rows = rows := by
    induction passes with
    | zero => rfl
    | succ n ih => exact ih
  exact hpasses

omit [Scalar α] in
/-- The springs that are kept are those that would be worked out. -/
theorem Sound.currentWires (h : Sound w) : w.currentWires = w.freshWires := by
  unfold World.currentWires
  cases hw : w.wires with
  | none => rfl
  | some wires => exact h.wired wires hw

/-- A world without springs is relaxed like any other: nothing happens. -/
theorem rows_relax (h : Sound w) :
    w.relax.rows = relaxSprings w.setting.passes w.freshWires w.rows := by
  unfold relax
  split
  · rename_i hnone
    have hfresh : w.freshWires = [] := by
      rw [freshWires, Array.isEmpty_iff.mp hnone]
      rfl
    rw [hfresh, relaxSprings_nil]
  · rw [h.currentWires]

/-- The springs at the points of the set move them in both worlds alike. -/
theorem Shows.relax (h : Shows A w v) : Corresponds (Among A) w.relax v.relax := by
  have hone := h.corresponds.oneToOne (among_oneToOne A)
  have hwires := h.wires
  rw [twins_eq_seats] at hwires
  refine h.corresponds.of_agree (moved_relax w) (moved_relax v) ?_
  rw [rows_relax h.whole, rows_relax h.part, h.setting]
  exact h.corresponds.agree.relaxSprings hone _ hwires

/-- A step keeps showing the points of the set. -/
theorem Shows.step (h : Shows A w v) (dt : α) : Shows A (w.step dt) (v.step dt) := by
  apply h.of_corresponds (moved_step dt w) (moved_step dt v)
  apply h.corresponds.step
  intro w' v' hw hv hc
  exact (h.of_corresponds hw hv hc).relax

end

end World

/-! ### Runs of steps and forces -/

/-- A row with more force on it. -/
def Particle.pushed {α : Type} [Scalar α] (force : Vec α) (p : Particle α) : Particle α :=
  { p with force := p.force + force }

/-- What moves points: a step, or a force on a point. -/
inductive Motion (α : Type) where
  | step (dt : α)
  | push (id : Nat) (force : Vec α)

/-- Is a motion one of a set of points? Time passes for all of them. -/
def Motion.concerns {α : Type} (A : Nat → Bool) : Motion α → Bool
  | step _ => true
  | push id _ => A id

def Motion.act {α : Type} [Scalar α] : Motion α → World α → World α
  | step dt, w => w.step dt
  | push id force, w => (World.push (some (w.point id)) force w).state

namespace World

variable [Scalar α] {A : Nat → Bool} {w v : World α}

/-- A world after some motions. -/
def follow (w : World α) (motions : List (Motion α)) : World α :=
  motions.foldl (fun w m => m.act w) w

theorem push_state (h : Sound w) (id : Nat) (force : Vec α) :
    (push (some (w.point id)) force w).state =
      match w.slot? id with
      | some slot => w.touch slot (Particle.pushed force)
      | none => w := by
  rw [push_apply, Option.bind_some, seated?_point h]
  cases w.slot? id <;> rfl

theorem moved_push (h : Sound w) (id : Nat) (force : Vec α) :
    Moved w (push (some (w.point id)) force w).state := by
  rw [push_state h]
  cases w.slot? id with
  | none => exact .refl w
  | some slot => exact moved_touch w slot fun _ => rfl

theorem particle?_push (h : Sound w) (id : Nat) (force : Vec α) (x : Nat) :
    (push (some (w.point id)) force w).state.particle? x =
      if x = id then (w.particle? x).map (Particle.pushed force) else w.particle? x := by
  have hslot : ∀ slot, w.slot? id = some slot → (w.slot? x = some slot ↔ x = id) := fun slot hs =>
    ⟨fun hx => h.slot_unique hx hs, fun hx => hx ▸ hs⟩
  rw [push_state h]
  cases hs : w.slot? id with
  | none =>
    have hnone : w.particle? id = none := by rw [particle?, hs, Option.bind_none]
    by_cases hx : x = id
    · rw [if_pos hx, hx, hnone, Option.map_none]
    · exact (if_neg hx).symm
  | some slot =>
    refine (particle?_touch w slot _ x).trans ?_
    simp only [hslot slot hs]

/-- A force on corresponding points keeps them the same. -/
theorem Corresponds.pushed {pair : Nat → Nat → Prop} (h : Corresponds pair w v)
    (hpair : OneToOne pair) {id id' : Nat} (hid : pair id id') (force : Vec α) :
    Corresponds pair (push (some (w.point id)) force w).state
      (push (some (v.point id')) force v).state := by
  refine h.moved (moved_push h.whole id force) (moved_push h.part id' force) fun x x' hx => ?_
  have hwhich : x = id ↔ x' = id' :=
    ⟨fun he => hpair.left hx (he ▸ hid), fun he => hpair.right hx (he ▸ hid)⟩
  rw [particle?_push h.whole, particle?_push h.part, h.particles x x' hx]
  simp only [hwhich]

theorem Shows.pushed (h : Shows A w v) {id : Nat} (hid : A id = true) (force : Vec α) :
    Shows A (push (some (w.point id)) force w).state (push (some (v.point id)) force v).state :=
  h.of_corresponds (moved_push h.whole id force) (moved_push h.part id force)
    (h.corresponds.pushed (among_oneToOne A) ⟨hid, rfl⟩ force)

/-- A force on another point changes nothing for the points of the set. -/
theorem Shows.pushed_other (h : Shows A w v) {id : Nat} (hid : A id = false) (force : Vec α) :
    Shows A (push (some (w.point id)) force w).state v := by
  have hmoved := moved_push h.whole id force
  refine h.of_corresponds hmoved (.refl v) (h.corresponds.moved hmoved (.refl v) ?_)
  rintro x _ ⟨hx, rfl⟩
  have hne : x ≠ id := fun he => by simp [← he, hx] at hid
  rw [particle?_push h.whole, if_neg hne, h.particles x hx]

theorem moved_act (h : Sound w) (m : Motion α) : Moved w (m.act w) := by
  cases m with
  | step dt => exact moved_step dt w
  | push id force => exact moved_push h id force

theorem moved_follow (h : Sound w) (motions : List (Motion α)) : Moved w (w.follow motions) := by
  induction motions generalizing w with
  | nil => exact .refl w
  | cons m ms ih => exact (moved_act h m).trans (ih ((moved_act h m).sound h))

/-- The points of a set are shown as they are throughout, whatever happens to the others. -/
theorem Shows.follow (h : Shows A w v) (motions : List (Motion α)) :
    Shows A (w.follow motions) (v.follow (motions.filter (·.concerns A))) := by
  induction motions generalizing w v with
  | nil => exact h
  | cons m ms ih =>
    cases m with
    | step dt => exact ih (h.step dt)
    | push id force =>
      cases hid : A id with
      | true =>
        rw [List.filter_cons_of_pos (show (Motion.push id force).concerns A = true from hid)]
        exact ih (h.pushed hid force)
      | false =>
        rw [List.filter_cons_of_neg (by simp [Motion.concerns, hid])]
        exact ih (h.pushed_other hid force)

end World
end Arboretum
