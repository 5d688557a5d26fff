import Arboretum.Proofs.World.Operation
import Mathlib.Algebra.Group.Nat.Defs

/-!
The calls that change a world, and the few ways in which they do. Every call that is made with what
holders see at the time is one of these changes, so that what each of them keeps, all calls keep.
-/
namespace Arboretum

/-- A call on a world, by holders of points and springs. -/
inductive Edit (α P S : Type) where
  | addPoint (spot : Vec α) (mass : α) (pinned : Bool)
  | pin (p : P)
  | push (p : Option P) (force : Vec α)
  | removePoint (p : Option P)
  | addSpring (a b : Option P) (stiffness : α) (rest : Option α) (damping : α)
  | removeSpring (s : Option S)

inductive Answer where
  | nothing
  | flag (done : Bool)
  | point (id : Nat)
  | spring (serial : Option Nat)
  deriving DecidableEq, Repr

/-- Makes a call, with what the holders see. -/
def Edit.run {α P S : Type} [Scalar α] (point : P → Point α) (spring : S → Spring) :
    Edit α P S → Action (Note α) (World α) Answer
  | addPoint spot mass pinned => Answer.point <$> World.addPoint spot mass pinned
  | pin p => (fun _ => Answer.nothing) <$> World.pin (point p)
  | push p force => Answer.flag <$> World.push (p.map point) force
  | removePoint p => Answer.flag <$> World.removePoint (p.map point)
  | addSpring a b stiffness rest damping =>
    Answer.spring <$> World.addSpring (a.map point) (b.map point) stiffness rest damping
  | removeSpring s => Answer.flag <$> World.removeSpring (s.map spring)

namespace World

variable {α : Type} {w w' : World α} {fresh : Particle α → Prop}

/-- One change of a world; `fresh` is what is known of the rows of new points. -/
inductive Change (fresh : Particle α → Prop) (w : World α) : World α → Prop where
  | double : Change fresh w w.double
  | seat (p : Particle α) (hp : fresh p) (hroom : w.count < w.capacity) : Change fresh w (w.seat p)
  | touch (slot : Nat) (f : Particle α → Particle α) (hf : ∀ p, (f p).mass = p.mass) :
    Change fresh w (w.touch slot f)
  | without (id slot : Nat) (hs : w.slot? id = some slot) : Change fresh w (w.without id slot)
  | link (a b : Nat) (hne : a ≠ b) (ha : w.isAlive a) (hb : w.isAlive b)
    (stiffness damping rest : α) : Change fresh w (w.link a b stiffness damping rest)
  | unlink (serial place : Nat) (hp : w.place? serial = some place) :
    Change fresh w (w.unlink serial place)
  | moved {w' : World α} (hm : Moved w w') : Change fresh w w'

/-- Any number of changes. -/
inductive Changes (fresh : Particle α → Prop) (w : World α) : World α → Prop where
  | none : Changes fresh w w
  | more {w₁ w₂ : World α} (h : Changes fresh w w₁) (hc : Change fresh w₁ w₂) : Changes fresh w w₂

theorem Change.changes (h : Change fresh w w') : Changes fresh w w' := .more .none h

theorem Changes.trans {w₁ w₂ w₃ : World α} (h : Changes fresh w₁ w₂)
    (h' : Changes fresh w₂ w₃) : Changes fresh w₁ w₃ := by
  induction h' with
  | none => exact h
  | more _ hc ih => exact .more ih hc

/-- What every change keeps, any number of them keeps. -/
theorem Changes.keep (kept : World α → Prop) (h : Changes fresh w w') (hw : kept w)
    (hc : ∀ w₁ w₂, kept w₁ → Change fresh w₁ w₂ → kept w₂) : kept w' := by
  induction h with
  | none => exact hw
  | more _ hc' ih => exact hc _ _ ih hc'

theorem Change.sound (hs : Sound w) (h : Change fresh w w') : Sound w' := by
  cases h with
  | double => exact hs.double
  | seat p _ hroom => exact hs.seat hroom p
  | touch slot f _ => exact hs.touch slot f
  | without id slot hslot => exact hs.without hslot
  | link a b hne ha hb stiffness damping rest => exact hs.link hne ha hb stiffness damping rest
  | unlink serial place hp => exact hs.unlink hp
  | moved hm => exact hm.sound hs

theorem Changes.sound (h : Changes fresh w w') (hs : Sound w) : Sound w' :=
  h.keep Sound hs fun _ _ hs hc => hc.sound hs

/-- What is known of the masses of new points is known of all masses. -/
theorem Change.masses {good : α → Prop} (hs : Sound w)
    (hw : ∀ id p, w.particle? id = some p → good p.mass)
    (h : Change (fun p => good p.mass) w w') : ∀ id p, w'.particle? id = some p → good p.mass := by
  intro id p hp
  cases h with
  | double => exact hw id p (particle?_double hs id ▸ hp)
  | seat q hq hroom =>
    rw [particle?_seat hs hroom] at hp
    split at hp
    · cases hp
      exact hq
    · exact hw id p hp
  | touch slot f hf =>
    rw [particle?_touch] at hp
    split at hp
    · obtain ⟨q, hr, rfl⟩ := Option.map_eq_some_iff.mp hp
      rw [hf]
      exact hw id q hr
    · exact hw id p hp
  | without gone slot hslot =>
    rw [particle?_without hs hslot] at hp
    split at hp
    · cases hp
    · exact hw id p hp
  | link => exact hw id p hp
  | unlink => exact hw id p hp
  | moved hm =>
    obtain ⟨q, hr, hq⟩ := hm.particle? hp
    rw [← hq]
    exact hw id q hr

/-- The room of a world is only ever doubled. -/
theorem Change.capacity (h : Change fresh w w') (hs : Sound w) :
    w'.capacity = w.capacity ∨ w'.capacity = w.capacity * 2 := by
  cases h with
  | double => exact .inr (Array.size_append.trans (Nat.mul_two _).symm)
  | seat p _ _ => exact .inl Array.size_setIfInBounds
  | touch slot f _ => exact .inl Array.size_modify
  | without id slot _ => exact .inl (rows_size_without hs id slot)
  | link => exact .inl rfl
  | unlink => exact .inl rfl
  | moved hm => exact .inl hm.size_rows

theorem Changes.capacity (h : Changes fresh w w') (hs : Sound w) :
    ∃ k, w'.capacity = w.capacity * 2 ^ k := by
  induction h with
  | none => exact ⟨0, (Nat.mul_one _).symm⟩
  | more hc hlast ih =>
    obtain ⟨k, hk⟩ := ih
    rcases hlast.capacity (hc.sound hs) with he | he
    · exact ⟨k, he.trans hk⟩
    · exact ⟨k + 1, by rw [he, hk, Nat.pow_succ, Nat.mul_assoc]⟩

/-- A later state of a world: no number is taken back, and what is gone does not return. -/
structure Onward (w w' : World α) : Prop where
  tag : w'.tag = w.tag
  points : w.slots.size ≤ w'.slots.size
  springs : w.links.size ≤ w'.links.size
  gone : ∀ id < w.slots.size, w'.isAlive id → w.isAlive id
  springGone : ∀ serial < w.links.size, w'.springIsAlive serial → w.springIsAlive serial

theorem Onward.refl (w : World α) : Onward w w :=
  ⟨rfl, Nat.le_refl _, Nat.le_refl _, fun _ _ h => h, fun _ _ h => h⟩

theorem Onward.trans {w₁ w₂ w₃ : World α} (h : Onward w₁ w₂) (h' : Onward w₂ w₃) :
    Onward w₁ w₃ where
  tag := h'.tag.trans h.tag
  points := Nat.le_trans h.points h'.points
  springs := Nat.le_trans h.springs h'.springs
  gone id hid ha := h.gone id hid (h'.gone id (Nat.lt_of_lt_of_le hid h.points) ha)
  springGone s hs ha :=
    h.springGone s hs (h'.springGone s (Nat.lt_of_lt_of_le hs h.springs) ha)

theorem onward_without (hs : Sound w) {id slot : Nat} (hslot : w.slot? id = some slot) :
    Onward w (w.without id slot) where
  tag := tag_without w id slot
  points := Nat.le_of_eq (slots_size_without hs id slot).symm
  springs := Nat.le_of_eq (links_size_without w id slot).symm
  gone x _ ha := by
    rw [← (hs.without hslot).particle?_isSome, particle?_without hs hslot] at ha
    rw [← hs.particle?_isSome]
    split at ha
    · cases ha
    · exact ha
  springGone s _ ha := by
    rw [← bond?_isSome, bond?_without hs] at ha
    rw [← bond?_isSome]
    exact Option.isSome_of_isSome_filter _ _ ha

theorem Change.onward (h : Change fresh w w') (hs : Sound w) : Onward w w' := by
  cases h with
  | double => exact ⟨rfl, Nat.le_refl _, Nat.le_refl _, fun _ _ h => h, fun _ _ h => h⟩
  | seat p _ _ =>
    refine ⟨rfl, by simp [World.seat], Nat.le_refl _, ?_, fun _ _ h => h⟩
    intro id hid ha
    simpa [isAlive, slot?_seat, Nat.ne_of_lt hid] using ha
  | touch slot f _ => exact ⟨rfl, Nat.le_refl _, Nat.le_refl _, fun _ _ h => h, fun _ _ h => h⟩
  | without id slot hslot => exact onward_without hs hslot
  | link a b _ _ _ stiffness damping rest =>
    refine ⟨rfl, Nat.le_refl _, by simp [World.link], fun _ _ h => h, ?_⟩
    intro s hlt ha
    simpa [springIsAlive, place?_link, Nat.ne_of_lt hlt] using ha
  | unlink serial place hp =>
    refine ⟨rfl, Nat.le_refl _, Nat.le_of_eq (links_size_unlink w serial place).symm,
      fun _ _ h => h, ?_⟩
    intro s _ ha
    rw [← bond?_isSome, bond?_unlink hs hp] at ha
    rw [← bond?_isSome]
    split at ha
    · cases ha
    · exact ha
  | moved hm =>
    refine ⟨hm.tag, Nat.le_of_eq (by rw [hm.slots]), Nat.le_of_eq (by rw [hm.links]),
      fun id _ ha => ?_, fun s _ ha => ?_⟩
    · exact (hm.isAlive id).symm.trans ha
    · simpa only [springIsAlive, place?, hm.links] using ha

theorem Changes.onward (h : Changes fresh w w') (hs : Sound w) : Onward w w' := by
  induction h with
  | none => exact .refl w
  | more hc hlast ih => exact ih.trans (hlast.onward (hc.sound hs))

/-- A spring that is still alive joins what it joined. -/
theorem Change.bond? (h : Change fresh w w') (hs : Sound w) {serial : Nat}
    (hlt : serial < w.links.size) (halive : w'.springIsAlive serial) :
    w'.bond? serial = w.bond? serial := by
  rw [← bond?_isSome] at halive
  cases h with
  | double | seat | touch => rfl
  | without id slot _ =>
    rw [bond?_without hs] at halive ⊢
    cases hb : w.bond? serial with
    | none => rfl
    | some bond =>
      rw [hb] at halive
      cases hm : !bond.meets id with
      | false => simp [Option.filter, hm] at halive
      | true => simp [Option.filter, hm]
  | link a b _ _ _ stiffness damping rest => rw [bond?_link, if_neg (Nat.ne_of_lt hlt)]
  | unlink gone place hp =>
    rw [bond?_unlink hs hp] at halive ⊢
    split at halive
    · cases halive
    · rename_i hne
      rw [if_neg hne]
  | moved hm => exact hm.bond? serial

theorem Changes.bond? (h : Changes fresh w w') (hs : Sound w) {serial : Nat}
    (hlt : serial < w.links.size) (halive : w'.springIsAlive serial) :
    w'.bond? serial = w.bond? serial := by
  induction h with
  | none => rfl
  | @more w₁ w₂ hc hlast ih =>
    have honward := hc.onward hs
    have hlt₁ := Nat.lt_of_lt_of_le hlt honward.springs
    have hsound := hc.sound hs
    have halive₁ := (hlast.onward hsound).springGone serial hlt₁ halive
    exact (hlast.bond? hsound hlt₁ halive).trans (ih halive₁)

theorem Changes.setting (h : Changes fresh w w') : w'.setting = w.setting := by
  induction h with
  | none => rfl
  | more _ hc ih =>
    refine Eq.trans ?_ ih
    cases hc with
    | without id slot _ => exact setting_unlinkAll _ _
    | moved hm => exact hm.setting
    | double | seat | touch | link | unlink => rfl

/-- A sound world that had room for a point at first, and so can make room for any number. -/
structure Ready (w : World α) : Prop extends Sound w where
  spacious : 1 ≤ w.capacity

theorem Ready.new [Scalar α] (tag : Nat) (setting : Setting α) {capacity : Nat}
    (h : 1 ≤ capacity) : Ready (World.new tag setting capacity) :=
  ⟨.new tag setting capacity, by simpa [World.new, World.capacity] using h⟩

theorem Changes.ready (h : Changes fresh w w') (hw : Ready w) : Ready w' where
  toSound := h.sound hw.toSound
  spacious := by
    obtain ⟨k, hk⟩ := h.capacity hw.toSound
    rw [hk]
    exact Nat.mul_pos hw.spacious (Nat.two_pow_pos k)

/-- Does a holder of a point of this world see it as it is? -/
def Sees (w : World α) (p : Point α) : Prop := p.home = w.tag → p = w.point p.id

theorem isAlive_of_seat {p : Point α} (hp : w.Sees p) (hh : p.home = w.tag)
    (hs : p.seat.isSome) : w.isAlive p.id := by
  rw [hp hh, point_seat] at hs
  unfold isAlive
  cases hslot : w.slot? p.id with
  | none => cases hr : w.particle? p.id <;> simp [hslot, hr] at hs
  | some slot => rfl

theorem pinSlot_eq_touch (w : World α) (slot : Nat) :
    w.pinSlot slot = w.touch slot fun p => { p with pinned := true, previous := p.position } := rfl

theorem changes_roomy (w : World α) : Changes fresh w w.roomy := by
  unfold roomy
  split
  · exact Change.double.changes
  · exact .none

theorem Sound.roomy (h : Sound w) : Sound w.roomy := by
  have hc : Changes (fun _ => True) w w.roomy := changes_roomy w
  exact hc.sound h

/-- A world that had room for a point can always make room for another. -/
theorem count_roomy_lt (h : Ready w) : w.roomy.count < w.roomy.capacity := by
  have hroom := h.spacious
  unfold roomy
  split
  · rename_i hfull
    have hdouble : w.double.capacity = w.capacity + w.capacity := Array.size_append
    have hcount : w.double.count = w.count := rfl
    omega
  · rename_i hfree
    exact Nat.lt_of_le_of_ne h.room hfree

theorem particle?_roomy (h : Sound w) (id : Nat) : w.roomy.particle? id = w.particle? id := by
  unfold roomy
  split
  · exact particle?_double h id
  · rfl

/-- Where room is made for a new point, the others are as they were. -/
theorem particle?_added (h : Ready w) (p : Particle α) (id : Nat) :
    (w.roomy.seat p).particle? id = if id = w.slots.size then some p else w.particle? id := by
  have hsize : w.roomy.slots.size = w.slots.size := by
    unfold roomy
    split
    · rfl
    · rfl
  rw [particle?_seat h.toSound.roomy (count_roomy_lt h), hsize, particle?_roomy h.toSound]

theorem changes_pin (p : Point α) (w : World α) : Changes fresh w (pin p w).state := by
  rw [pin_apply]
  split
  · exact .none
  · split
    · exact .none
    · rw [pinSlot_eq_touch]
      refine (Change.touch _ _ ?_).changes
      exact fun _ => rfl

theorem Sound.pin (h : Sound w) (p : Point α) : Sound (pin p w).state := by
  have hc : Changes (fun _ => True) w _ := changes_pin p w
  exact hc.sound h

theorem changes_removePoint (p : Option (Point α)) (w : World α) :
    Changes fresh w (removePoint p w).state := by
  rw [removePoint_apply]
  split
  · rename_i id slot hp
    obtain ⟨q, rfl, hq⟩ := Option.bind_eq_some_iff.mp hp
    exact (Change.without id slot (slot?_of_seated? hq).2.2).changes
  · exact .none

theorem changes_removeSpring (hw : Sound w) (s : Option Spring) :
    Changes fresh w (removeSpring s w).state := by
  rw [removeSpring_apply]
  split
  · rename_i serial place hs
    obtain ⟨q, rfl, hq⟩ := Option.bind_eq_some_iff.mp hs
    exact (Change.unlink serial place (place?_of_listed? hw hq).2.2).changes
  · exact .none

/-- Two points can be joined only if they are different, of this world and alive. -/
theorem of_joinable? {a b : Option (Point α)} {idA idB : Nat} {spotA spotB : Vec α}
    (ha : ∀ p ∈ a, w.Sees p) (hb : ∀ p ∈ b, w.Sees p)
    (hj : w.joinable? a b = some ((idA, spotA), (idB, spotB))) :
    idA ≠ idB ∧ w.isAlive idA ∧ w.isAlive idB := by
  unfold joinable? at hj
  split at hj
  · rename_i p q
    split at hj
    · rename_i slotP spotP slotQ spotQ hp hq
      split at hj
      · rename_i hh
        cases hj
        exact ⟨hh.2.2, isAlive_of_seat (ha p rfl) hh.1 (by simp [hp]),
          isAlive_of_seat (hb q rfl) hh.2.1 (by simp [hq])⟩
      · cases hj
    · cases hj
  · cases hj

section
variable [Scalar α]

theorem pushSlot_eq_touch (w : World α) (slot : Nat) (force : Vec α) :
    w.pushSlot slot force = w.touch slot fun p => { p with force := p.force + force } := rfl

theorem changes_addPoint (spot : Vec α) (mass : α) (pinned : Bool)
    (hf : fresh (.atRest spot (massOf mass) pinned)) (w : World α) :
    Changes fresh w (addPoint spot mass pinned w).state := by
  obtain ⟨notes, he⟩ := addPoint_apply spot mass pinned w
  rw [he]
  split
  · exact changes_roomy w
  · rename_i hroom
    exact .more (changes_roomy w) (.seat _ hf (Nat.lt_of_not_le hroom))

theorem changes_push (p : Option (Point α)) (force : Vec α) (w : World α) :
    Changes fresh w (push p force w).state := by
  rw [push_apply]
  split
  · rw [pushSlot_eq_touch]
    refine (Change.touch _ _ ?_).changes
    exact fun _ => rfl
  · exact .none

theorem Sound.push (h : Sound w) (p : Option (Point α)) (force : Vec α) :
    Sound (push p force w).state := by
  have hc : Changes (fun _ => True) w _ := changes_push p force w
  exact hc.sound h

theorem changes_addSpring {a b : Option (Point α)} (ha : ∀ p ∈ a, w.Sees p)
    (hb : ∀ p ∈ b, w.Sees p) (stiffness : α) (rest : Option α) (damping : α) :
    Changes fresh w (addSpring a b stiffness rest damping w).state := by
  obtain ⟨notes, he⟩ := addSpring_apply a b stiffness rest damping w
  rw [he]
  split
  · rename_i hj
    obtain ⟨hne, haA, hbB⟩ := of_joinable? ha hb hj
    exact (Change.link _ _ hne haA hbB _ _ _).changes
  · exact .none

/-- Whoever calls with what they see now changes a world in the known ways only. -/
theorem changes_run {P S : Type} (hw : Sound w) {point : P → Point α} (spring : S → Spring)
    (hp : ∀ p, w.Sees (point p)) (e : Edit α P S)
    (hf : ∀ spot mass pinned, e = .addPoint spot mass pinned →
      fresh (.atRest spot (massOf mass) pinned)) :
    Changes fresh w (e.run point spring w).state := by
  have hsees : ∀ p : Option P, ∀ q ∈ p.map point, w.Sees q := by
    intro p q hq
    obtain ⟨r, _, rfl⟩ := Option.map_eq_some_iff.mp hq
    exact hp r
  cases e <;> simp only [Edit.run, Action.map_apply]
  case addPoint spot mass pinned => exact changes_addPoint spot mass pinned (hf _ _ _ rfl) w
  case pin p => exact changes_pin _ w
  case push p force => exact changes_push _ force w
  case removePoint p => exact changes_removePoint _ w
  case addSpring a b stiffness rest damping =>
    exact changes_addSpring (hsees a) (hsees b) stiffness rest damping
  case removeSpring s => exact changes_removeSpring hw _

/-- A world that any calls and steps lead to. A caller that names a point of this world sees it as
it is. -/
inductive Reached : World α → Prop where
  | new (tag : Nat) (setting : Setting α) (capacity : Nat) : Reached (.new tag setting capacity)
  | edit {w : World α} (h : Reached w) (e : Edit α {p : Point α // w.Sees p} Spring) :
    Reached (e.run Subtype.val id w).state
  | step {w : World α} (h : Reached w) (dt : α) : Reached (w.step dt)

theorem Reached.sound {w : World α} (h : Reached w) : Sound w := by
  induction h with
  | new tag setting capacity => exact .new tag setting capacity
  | edit _ e ih =>
    have hc : Changes (fun _ => True) _ _ :=
      changes_run ih id Subtype.property e fun _ _ _ _ => trivial
    exact hc.sound ih
  | step _ dt ih => exact (moved_step dt _).sound ih

/-- What is known of every mass that a point may get is known of the masses of all points. -/
theorem Reached.masses {w : World α} (h : Reached w) {good : α → Prop}
    (hgood : ∀ asked, good (massOf asked)) : ∀ id p, w.particle? id = some p → good p.mass := by
  have hmore : ∀ w w' : World α, Changes (fun p => good p.mass) w w' → Sound w →
      (∀ id p, w.particle? id = some p → good p.mass) →
      ∀ id p, w'.particle? id = some p → good p.mass := by
    intro w w' hc hs hw
    have hkept := hc.keep (fun w => Sound w ∧ ∀ id p, w.particle? id = some p → good p.mass)
      ⟨hs, hw⟩ fun _ _ ⟨hs, hw⟩ hc => ⟨hc.sound hs, hc.masses hs hw⟩
    exact hkept.2
  induction h with
  | new tag setting capacity => simp [particle?, slot?, World.new]
  | @edit w h e ih =>
    have hc : Changes (fun p => good p.mass) w _ :=
      changes_run h.sound id Subtype.property e fun _ mass _ _ => hgood mass
    exact hmore _ _ hc h.sound ih
  | @step w h dt ih => exact hmore _ _ (Change.moved (moved_step dt w)).changes h.sound ih

/-- A call makes a spring of the stiffness that it asks for, or makes none. -/
theorem bond?_run {P S : Type} (hw : Sound w) (point : P → Point α) (spring : S → Spring)
    (e : Edit α P S) {serial : Nat} {bond : Bond α}
    (hb : (e.run point spring w).state.bond? serial = some bond) :
    w.bond? serial = some bond ∨ ∃ asked, bond.stiffness = stiffnessOf asked := by
  cases e <;> simp only [Edit.run, Action.map_apply] at hb
  case addPoint spot mass pinned =>
    obtain ⟨notes, he⟩ := addPoint_apply spot mass pinned w
    have hroomy : w.roomy.bond? serial = w.bond? serial := by
      unfold roomy
      split
      · rfl
      · rfl
    rw [he] at hb
    split at hb
    · exact .inl (hroomy ▸ hb)
    · exact .inl (hroomy ▸ hb)
  case pin p =>
    rw [pin_apply] at hb
    split at hb
    · exact .inl hb
    · split at hb
      · exact .inl hb
      · exact .inl hb
  case push p force =>
    rw [push_apply] at hb
    split at hb
    · exact .inl hb
    · exact .inl hb
  case removePoint p =>
    rw [removePoint_apply] at hb
    split at hb
    · rw [bond?_without hw] at hb
      exact .inl (Option.eq_some_of_filter_eq_some hb)
    · exact .inl hb
  case addSpring a b stiffness rest damping =>
    obtain ⟨notes, he⟩ := addSpring_apply (a.map point) (b.map point) stiffness rest damping w
    rw [he] at hb
    split at hb
    · rw [bond?_link] at hb
      split at hb
      · cases hb
        exact .inr ⟨stiffness, rfl⟩
      · exact .inl hb
    · exact .inl hb
  case removeSpring s =>
    rw [removeSpring_apply] at hb
    split at hb
    · rename_i gone place hs
      obtain ⟨q, -, hq⟩ := Option.bind_eq_some_iff.mp hs
      rw [bond?_unlink hw (place?_of_listed? hw hq).2.2] at hb
      split at hb
      · cases hb
      · exact .inl hb
    · exact .inl hb

/-- What is known of every stiffness that a spring may get is known of all springs. -/
theorem Reached.stiffnesses {w : World α} (h : Reached w) (good : α → Prop)
    (hgood : ∀ asked, good (stiffnessOf asked)) :
    ∀ serial bond, w.bond? serial = some bond → good bond.stiffness := by
  induction h with
  | new tag setting capacity => simp [bond?, World.new]
  | edit h e ih =>
    intro serial bond hb
    rcases bond?_run h.sound Subtype.val id e hb with hold | ⟨asked, hnew⟩
    · exact ih serial bond hold
    · rw [hnew]
      exact hgood asked
  | step _ dt ih =>
    intro serial bond hb
    exact ih serial bond ((moved_step dt _).bond? serial ▸ hb)

end
end World
end Arboretum
