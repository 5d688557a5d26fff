import Arboretum.Proofs.World.Sound

/-!
What a step leaves alone: the tables, the masses and what is pinned.
-/
namespace Arboretum

/-- What of a row no step changes. -/
def Particle.nature {α : Type} (p : Particle α) : α × Bool := (p.mass, p.pinned)

variable {α : Type}

section
variable [Scalar α]

@[simp] theorem Particle.drift_nature (s : Setting α) (dt : α) (p : Particle α) :
    (p.drift s dt).nature = p.nature := rfl

@[simp] theorem Particle.shift_nature (d : Vec α) (p : Particle α) :
    (p.shift d).nature = p.nature := rfl

@[simp] theorem Particle.shiftPrevious_nature (d : Vec α) (p : Particle α) :
    (p.shiftPrevious d).nature = p.nature := rfl

@[simp] theorem Particle.confine_nature (b : Bounds α) (p : Particle α) :
    (p.confine b).nature = p.nature := rfl

end

theorem nudgeAll_nature {move : Vec α → Particle α → Particle α}
    (hm : ∀ d p, (move d p).nature = p.nature) (nudges : List (Nudge α))
    (rows : Array (Particle α)) :
    (nudgeAll move nudges rows).map Particle.nature = rows.map Particle.nature := by
  have hstep : ∀ (rows : Array (Particle α)) (i : Nat) (d : Vec α),
      (rows.modify i (move d)).map Particle.nature = rows.map Particle.nature := by
    intro rows i d
    apply Array.ext_getElem?
    intro j
    simp only [Array.getElem?_map, Array.getElem?_modify]
    split <;> simp [Function.comp_def, hm]
  have hfold : ∀ (target : Nudge α → Nat) (shift : Nudge α → Vec α) (rows : Array (Particle α)),
      (nudges.foldl (fun rows n => rows.modify (target n) (move (shift n))) rows).map
        Particle.nature = rows.map Particle.nature := by
    intro target shift rows
    induction nudges generalizing rows with
    | nil => rfl
    | cons n rest ih => exact (ih _).trans (hstep rows _ _)
  exact (hfold Nudge.b Nudge.shiftB _).trans (hfold Nudge.a Nudge.shiftA rows)

theorem size_nudgeAll {move : Vec α → Particle α → Particle α}
    (hm : ∀ d p, (move d p).nature = p.nature) (nudges : List (Nudge α))
    (rows : Array (Particle α)) : (nudgeAll move nudges rows).size = rows.size := by
  simpa using congrArg Array.size (nudgeAll_nature hm nudges rows)

theorem relaxSprings_nature [Scalar α] (passes : Nat) (wires : List (Wire α))
    (rows : Array (Particle α)) :
    (relaxSprings passes wires rows).map Particle.nature = rows.map Particle.nature := by
  have hpass : ∀ shares : List (Wire α × Shares α),
      (Nat.repeat (relaxPass shares) passes rows).map Particle.nature =
        rows.map Particle.nature := by
    intro shares
    induction passes with
    | zero => rfl
    | succ n ih => exact (nudgeAll_nature Particle.shift_nature _ _).trans ih
  exact (nudgeAll_nature Particle.shiftPrevious_nature _ _).trans (hpass _)

namespace World

variable {w w' : World α}

theorem mapLive_nature (w : World α) {f : Particle α → Particle α}
    (hf : ∀ p, (f p).nature = p.nature) :
    (w.mapLive f).rows.map Particle.nature = w.rows.map Particle.nature := by
  apply Array.ext_getElem?
  intro i
  simp only [mapLive, Array.getElem?_map, Array.getElem?_mapIdx, Option.map_map]
  congr 1
  funext p
  simp only [Function.comp_apply]
  split
  · exact hf p
  · rfl

/-- Two worlds with the same tables; their rows may differ in all but their nature. -/
structure Moved (w w' : World α) : Prop where
  tag : w'.tag = w.tag
  setting : w'.setting = w.setting
  bodies : w'.bodies = w.bodies
  slots : w'.slots = w.slots
  links : w'.links = w.links
  springs : w'.springs = w.springs
  wires : w'.wires = w.wires ∨ w'.wires = some w.currentWires
  rows : w'.rows.map Particle.nature = w.rows.map Particle.nature

namespace Moved

theorem slot? (h : Moved w w') (id : Nat) : w'.slot? id = w.slot? id := by
  simp only [World.slot?, h.slots]

theorem freshWires (h : Moved w w') : w'.freshWires = w.freshWires := by
  simp only [World.freshWires, h.slot?, h.springs, h.links]

theorem refl (w : World α) : Moved w w :=
  ⟨rfl, rfl, rfl, rfl, rfl, rfl, .inl rfl, rfl⟩

theorem trans {w₁ w₂ w₃ : World α} (h : Moved w₁ w₂) (h' : Moved w₂ w₃) : Moved w₁ w₃ where
  tag := h'.tag.trans h.tag
  setting := h'.setting.trans h.setting
  bodies := h'.bodies.trans h.bodies
  slots := h'.slots.trans h.slots
  links := h'.links.trans h.links
  springs := h'.springs.trans h.springs
  wires := by
    rcases h'.wires with he | he <;> rcases h.wires with hw | hw <;>
      simp [he, hw, currentWires, h.freshWires]
  rows := h'.rows.trans h.rows

theorem isAlive (h : Moved w w') (id : Nat) : w'.isAlive id = w.isAlive id := by
  simp only [World.isAlive, h.slot?]

theorem bond? (h : Moved w w') (s : Nat) : w'.bond? s = w.bond? s := by
  simp only [World.bond?, h.links]

theorem nature (h : Moved w w') (id : Nat) :
    (w'.particle? id).map Particle.nature = (w.particle? id).map Particle.nature := by
  unfold particle?
  rw [h.slot?]
  cases w.slot? id with
  | none => rfl
  | some slot =>
    have hrow := congrArg (·[slot]?) h.rows
    simpa only [Array.getElem?_map, Option.bind_some] using hrow

/-- A point alive afterwards was alive before, with its mass. -/
theorem particle? (h : Moved w w') {id : Nat} {p : Particle α} (hp : w'.particle? id = some p) :
    ∃ q, w.particle? id = some q ∧ q.mass = p.mass := by
  have hn := h.nature id
  rw [hp] at hn
  obtain ⟨q, hq, he⟩ := Option.map_eq_some_iff.mp hn.symm
  exact ⟨q, hq, congrArg Prod.fst he⟩

theorem size_rows (h : Moved w w') : w'.rows.size = w.rows.size := by
  simpa using congrArg Array.size h.rows

theorem sound (h : Moved w w') (hs : Sound w) : Sound w' where
  room := by
    simpa only [count, capacity, h.bodies, h.size_rows] using hs.room
  seats := by
    intro slot id
    rw [h.slot?, h.bodies]
    exact hs.seats slot id
  places := by
    intro place serial
    simpa only [place?, h.links, h.springs] using hs.places place serial
  ends := by
    intro s bond hb
    rw [h.isAlive, h.isAlive]
    exact hs.ends s bond (h.bond? s ▸ hb)
  wired := by
    intro wires hw
    rw [h.freshWires]
    rcases h.wires with he | he
    · exact hs.wired wires (he ▸ hw)
    · rw [he, Option.some.injEq] at hw
      subst wires
      cases hc : w.wires with
      | none => simp [currentWires, hc]
      | some ws => simp [currentWires, hc, hs.wired ws hc]

end Moved

theorem moved_mapLive (w : World α) {f : Particle α → Particle α}
    (hf : ∀ p, (f p).nature = p.nature) : Moved w (w.mapLive f) :=
  ⟨rfl, rfl, rfl, rfl, rfl, rfl, .inl rfl, mapLive_nature w hf⟩

theorem moved_touch (w : World α) (slot : Nat) {f : Particle α → Particle α}
    (hf : ∀ p, (f p).nature = p.nature) : Moved w (w.touch slot f) := by
  refine ⟨rfl, rfl, rfl, rfl, rfl, rfl, .inl rfl, Array.ext_getElem? fun i => ?_⟩
  rw [touch, Array.getElem?_map, Array.getElem?_map, Array.getElem?_modify]
  split
  · rw [Option.map_map, show Particle.nature ∘ f = Particle.nature from funext hf]
  · rfl

section
variable [Scalar α]

theorem moved_relax (w : World α) : Moved w w.relax := by
  unfold relax
  split
  · exact .refl w
  · exact ⟨rfl, rfl, rfl, rfl, rfl, rfl, .inr rfl, relaxSprings_nature _ _ _⟩

theorem moved_confine (w : World α) : Moved w w.confine := by
  unfold confine
  split
  · exact moved_mapLive w (Particle.confine_nature _)
  · exact .refl w

/-- A step moves points and does nothing else. -/
theorem moved_step (dt : α) (w : World α) : Moved w (w.step dt) := by
  unfold step
  split
  · exact .refl w
  · have hdrift := moved_mapLive w (Particle.drift_nature w.setting dt)
    exact (hdrift.trans (moved_relax _)).trans (moved_confine _)

end
end World
end Arboretum
