import Arboretum.Proofs.World.Restrict

/-!
Calls that are handed a point or a spring of another world. Most of them are refused. Pinning and
reading a force ask for the slot only, and find in it whatever this world has there.
-/
namespace Arboretum

variable {α : Type}

/-- Is a call handed a point or a spring of some kind? -/
def Edit.Hands {P S : Type} (point : P → Prop) (spring : S → Prop) : Edit α P S → Prop
  | addPoint .. => False
  | pin p => point p
  | push p _ => ∃ q ∈ p, point q
  | removePoint p => ∃ q ∈ p, point q
  | addSpring a b .. => (∃ q ∈ a, point q) ∨ ∃ q ∈ b, point q
  | removeSpring s => ∃ t ∈ s, spring t

theorem Edit.Hands.imp {P S : Type} {point point' : P → Prop} {spring spring' : S → Prop}
    {e : Edit α P S} (h : e.Hands point spring) (hp : ∀ p, point p → point' p)
    (hs : ∀ s, spring s → spring' s) : e.Hands point' spring' := by
  have hsome : ∀ p : Option P, (∃ q ∈ p, point q) → ∃ q ∈ p, point' q := by
    intro p hq
    obtain ⟨q, hmem, hq⟩ := hq
    exact ⟨q, hmem, hp q hq⟩
  cases e with
  | addPoint => exact h
  | pin p => exact hp p h
  | push p force => exact hsome p h
  | removePoint p => exact hsome p h
  | addSpring a b => exact Or.imp (hsome a) (hsome b) h
  | removeSpring s =>
    obtain ⟨t, hmem, ht⟩ := h
    exact ⟨t, hmem, hs t ht⟩

def Edit.isPin {P S : Type} : Edit α P S → Bool
  | pin _ => true
  | _ => false

namespace World

variable {w v : World α}

/-- A point of a world, alive, as its holder sees it. -/
def LivePoint (v : World α) (p : Point α) : Prop := ∃ id, v.isAlive id ∧ p = v.point id

/-- A spring of a world, alive, as its holder sees it. -/
def LiveSpring (v : World α) (s : Spring) : Prop :=
  ∃ serial, v.springIsAlive serial ∧ s = v.spring serial

theorem LivePoint.home {p : Point α} (h : v.LivePoint p) : p.home = v.tag := by
  obtain ⟨id, _, he⟩ := h
  subst p
  rfl

theorem LiveSpring.home {s : Spring} (h : v.LiveSpring s) : s.home = v.tag := by
  obtain ⟨serial, _, he⟩ := h
  subst s
  rfl

theorem seated?_foreign {p : Point α} (h : p.home ≠ w.tag) : w.seated? p = none := by
  simp [seated?, owns, h]

theorem listed?_foreign {s : Spring} (h : s.home ≠ w.tag) : w.listed? s = none := by
  unfold listed?
  cases s.place with
  | none => rfl
  | some place => simp [h]

theorem joinable?_foreign {a b : Option (Point α)}
    (h : (∃ p ∈ a, p.home ≠ w.tag) ∨ ∃ p ∈ b, p.home ≠ w.tag) : w.joinable? a b = none := by
  unfold joinable?
  cases a with
  | none => rfl
  | some p =>
    cases b with
    | none => rfl
    | some q =>
      have hne : ¬ (p.home = w.tag ∧ q.home = w.tag ∧ p.id ≠ q.id) := by
        intro hboth
        cases h with
        | inl h => simp [hboth.1] at h
        | inr h => simp [hboth.2.1] at h
      cases hp : p.seat with
      | none => simp only [hp]
      | some x =>
        cases hq : q.seat with
        | none => simp only [hp, hq]
        | some y => simp only [hp, hq, if_neg hne]

section
variable [Scalar α]

/-- Whoever is handed something of another world refuses it, unless the call is a pin. -/
theorem run_foreign {e : Edit α (Point α) Spring}
    (h : e.Hands (fun p => p.home ≠ w.tag) fun s => s.home ≠ w.tag) (hpin : e.isPin = false) :
    ((e.run id id w).result = .ok (.flag false) ∨ (e.run id id w).result = .ok (.spring none)) ∧
      (e.run id id w).state = w := by
  cases e <;> simp only [Edit.run, Action.map_apply, Option.map_id, id_eq]
  case addPoint => exact h.elim
  case pin => simp [Edit.isPin] at hpin
  case push p force =>
    obtain ⟨q, hq, hhome⟩ := h
    cases hq
    have hnone : (some q).bind w.seated? = none := seated?_foreign hhome
    simp [push_apply, hnone, Except.map]
  case removePoint p =>
    obtain ⟨q, hq, hhome⟩ := h
    cases hq
    have hnone : (some q).bind w.seated? = none := seated?_foreign hhome
    simp [removePoint_apply, hnone, Except.map]
  case addSpring a b stiffness rest damping =>
    obtain ⟨notes, he⟩ := addSpring_apply a b stiffness rest damping w
    simp [he, joinable?_foreign h, Except.map]
  case removeSpring s =>
    obtain ⟨t, ht, hhome⟩ := h
    cases ht
    have hnone : (some t).bind w.listed? = none := listed?_foreign hhome
    simp [removeSpring_apply, hnone, Except.map]

end

/-- Pinning a point changes nothing just if it is pinned and at rest already. -/
theorem pinned_in_place (p : Particle α) : { p with pinned := true, previous := p.position } = p ↔
    p.pinned = true ∧ p.previous = p.position := by
  cases p
  simp only [Particle.mk.injEq, true_and]
  exact ⟨fun h => ⟨h.2.symm, h.1.symm⟩, fun h => ⟨h.2.symm, h.1.symm⟩⟩

/-- Whoever has the slot is pinned, whatever point the slot was read from. -/
theorem store_pinSlot (w : World α) (slot : Nat) : (w.pinSlot slot).store = w.store ↔
    ∀ id p, w.slot? id = some slot → w.particle? id = some p →
      p.pinned = true ∧ p.previous = p.position := by
  rw [pinSlot_eq_touch]
  constructor
  · intro hsame id p hs hp
    have hpoint := congrArg (fun st => st.points id) hsame
    simp only [store, particle?_touch, if_pos hs, hp, Option.map_some, Option.some.injEq] at hpoint
    exact (pinned_in_place p).mp hpoint
  · intro hrest
    ext1
    · funext id
      simp only [store, particle?_touch]
      by_cases hs : w.slot? id = some slot
      · cases hp : w.particle? id with
        | none => simp
        | some p => simp [hs, (pinned_in_place p).mpr (hrest id p hs hp)]
      · rw [if_neg hs]
    · rfl
    · rfl
    · rfl

/-- Of what another world's point has, only the slot is asked for. -/
theorem forceOn_slot {p : Point α} {slot : Nat} (hp : p.slot = .ok slot) : w.forceOn p =
    (w.rows[slot]?).elim (.error (.noSlot slot w.capacity)) fun row => .ok row.force := by
  unfold forceOn
  rw [hp]
  cases hr : w.rows[slot]? with
  | none => simp [bind, Except.bind, hr]
  | some row => simp [bind, Except.bind, hr, pure, Except.pure]

theorem pinSlot_of_capacity_le {slot : Nat} (h : w.capacity ≤ slot) : w.pinSlot slot = w := by
  have hrows : w.rows.modify slot (fun p => { p with pinned := true, previous := p.position }) =
      w.rows := by
    apply Array.ext_getElem?
    intro i
    rw [Array.getElem?_modify]
    split
    · rename_i hi
      have hnone : w.rows[i]? = none := Array.getElem?_eq_none (Nat.le_trans h (Nat.le_of_eq hi))
      rw [hnone, Option.map_none]
    · rfl
  unfold pinSlot
  rw [hrows]

/-- Another world's point alive is pinned without a word: its own world does not notice, and here
whoever has its slot is pinned. -/
theorem pin_foreign (hv : Sound v) {id slot : Nat} (hs : v.slot? id = some slot) :
    (pin (v.point id) w).state.store = w.store ↔
      ∀ x p, w.slot? x = some slot → w.particle? x = some p →
        p.pinned = true ∧ p.previous = p.position := by
  rw [← store_pinSlot, pin_apply, point_slot hv, hs]
  simp only [Option.elim_some]
  by_cases hcap : w.capacity ≤ slot
  · simp [hcap, pinSlot_of_capacity_le hcap]
  · simp [hcap]

variable [Scalar α]

/-- A call on one of two worlds that is handed a point or a spring alive of the other one is
refused and changes neither, unless it is a pin. A pin leaves the world of the point as it is, and
this one just if whoever has the slot of the point here is pinned and at rest. The force that is
read is what the row of that slot holds, which is the force on whoever has the slot here. -/
theorem foreign_calls (hw : Reached w) (hv : Reached v) (htag : w.tag ≠ v.tag) :
    (∀ e : Edit α (Point α) Spring, e.Hands v.LivePoint v.LiveSpring → e.isPin = false →
      let report := (e.run id id).onFst (w, v)
      (report.result = .ok (.flag false) ∨ report.result = .ok (.spring none)) ∧
        report.state = (w, v)) ∧
    ∀ id slot, v.slot? id = some slot →
      let report := (pin (v.point id)).onFst (w, v)
      report.state.2 = v ∧
      (report.state.1.store = w.store ↔ ∀ x p, w.slot? x = some slot → w.particle? x = some p →
        p.pinned = true ∧ p.previous = p.position) ∧
      w.forceOn (v.point id) =
        (w.rows[slot]?).elim (.error (.noSlot slot w.capacity)) (fun row => .ok row.force) ∧
      ∀ x, w.slot? x = some slot → w.forceOn (v.point id) = w.forceOn (w.point x) := by
  constructor
  · intro e hands hpin
    have hforeign : e.Hands (fun p => p.home ≠ w.tag) fun s => s.home ≠ w.tag := by
      apply hands.imp
      · intro p hp hhome
        exact htag (hhome.symm.trans hp.home)
      · intro s hs hhome
        exact htag (hhome.symm.trans hs.home)
    obtain ⟨hanswer, hstate⟩ := run_foreign hforeign hpin
    exact ⟨hanswer, congrArg (·, v) hstate⟩
  · intro id slot hs
    have hslot : (v.point id).slot = .ok slot := by rw [point_slot hv.sound, hs]; rfl
    refine ⟨rfl, pin_foreign hv.sound hs, forceOn_slot hslot, ?_⟩
    intro x hx
    have hslot' : (w.point x).slot = .ok slot := by rw [point_slot hw.sound, hx]; rfl
    rw [forceOn_slot hslot, forceOn_slot hslot']

/-- A world with a point that a force lies on. -/
def pushed : World Float :=
  (history perform [.addPoint ⟨0, 0⟩ 1 false, .push (some 0) ⟨3, 4⟩]
    (World.new 0 Setting.default 1)).2

/-- Another one with a spring between two points. -/
def sprung : World Float :=
  (history perform [.addPoint ⟨5, 5⟩ 1 false, .addPoint ⟨9, 5⟩ 1 true,
    .addSpring (some 0) (some 1) 1 none 0.5] (World.new 1 Setting.default 1)).2

theorem reached_pushed : Reached pushed :=
  history_keeps Reached (fun e _ _ h => h.perform e) (.new 0 Setting.default 1)

theorem reached_sprung : Reached sprung :=
  history_keeps Reached (fun e _ _ h => h.perform e) (.new 1 Setting.default 1)

theorem foreign_calls_sprung : Reached pushed ∧ Reached sprung ∧ pushed.tag ≠ sprung.tag ∧
    sprung.LivePoint (sprung.point 1) ∧ sprung.LiveSpring (sprung.spring 0) ∧
    ((removePoint (some (sprung.point 1))).onFst (pushed, sprung)).state = (pushed, sprung) ∧
    ((removeSpring (some (sprung.spring 0))).onFst (pushed, sprung)).state = (pushed, sprung) ∧
    ((pin (sprung.point 1)).onFst (pushed, sprung)).state.1.store = pushed.store := by
  have htag : pushed.tag ≠ sprung.tag := by decide +kernel
  have hpoint : sprung.LivePoint (sprung.point 1) := ⟨1, by decide +kernel, rfl⟩
  have hspring : sprung.LiveSpring (sprung.spring 0) := ⟨0, by decide +kernel, rfl⟩
  obtain ⟨hcalls, hpins⟩ := foreign_calls reached_pushed reached_sprung htag
  have hremove := hcalls (.removePoint (some (sprung.point 1))) ⟨_, rfl, hpoint⟩ rfl
  have hunlink := hcalls (.removeSpring (some (sprung.spring 0))) ⟨_, rfl, hspring⟩ rfl
  have hslot : sprung.slot? 1 = some 1 := by decide +kernel
  refine ⟨reached_pushed, reached_sprung, htag, hpoint, hspring, hremove.2, hunlink.2, ?_⟩
  rw [(hpins 1 1 hslot).2.1]
  intro x p hx
  have hlt := reached_pushed.sound.slot_lt hx
  have hcount : pushed.count = 1 := by decide +kernel
  omega

/-- The other world's first point pins this one's, and its force is read as this one's. -/
theorem pinned_from_abroad : Reached pushed ∧ Reached sprung ∧ pushed.tag ≠ sprung.tag ∧
    sprung.LivePoint (sprung.point 0) ∧
    (pushed.particle? 0).map (·.pinned) = some false ∧
    (((pin (sprung.point 0)).onFst (pushed, sprung)).state.1.particle? 0).map (·.pinned) =
      some true ∧
    pushed.forceOn (sprung.point 0) = .ok ⟨3, 4⟩ ∧
    (sprung.particle 0).map (·.force) = .ok ⟨0, 0⟩ := by
  refine ⟨reached_pushed, reached_sprung, by decide +kernel, ⟨0, by decide +kernel, rfl⟩, ?_, ?_,
    ?_, ?_⟩
  · decide +kernel
  · decide +kernel
  · rfl
  · rfl

end World
end Arboretum
