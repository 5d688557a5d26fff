import Arboretum.Proofs.World.Restrict

/-!
The springs as the solver keeps them from step to step. They are given up whenever the slots or the
list of springs change, so that a world cannot be told from one that works them out for each step.
-/
namespace Arboretum.World

variable {α : Type} {w v : World α}

/-- A world that has to work out its springs anew. -/
def forget (w : World α) : World α := { w with wires := none }

/-- What is kept is what would be worked out now: an entry for each spring, in the order of the
list, with the slots of its ends. -/
structure Kept (w : World α) : Prop where
  wires : w.wires = none ∨ w.wires = some w.freshWires
  length : w.freshWires.length = w.springs.size
  entries : ∀ place serial : Nat, w.springs[place]? = some serial →
    ∃ bond a b, w.bond? serial = some bond ∧ w.slot? bond.a = some a ∧ w.slot? bond.b = some b ∧
      w.freshWires[place]? = some ⟨a, b, bond.rest, bond.stiffness, bond.damping⟩

theorem Sound.kept (h : Sound w) : Kept w := by
  have hwire : ∀ serial ∈ w.springs.toList, (w.wire? serial).isSome := by
    intro serial hs
    obtain ⟨_, _, _, _, _, _, hw⟩ := h.wire? (Array.mem_toList_iff.mp hs)
    rw [hw]
    rfl
  constructor
  case wires =>
    cases hw : w.wires with
    | none => exact .inl rfl
    | some wires => exact .inr (congrArg some (h.wired wires hw))
  case length =>
    rw [freshWires_eq, List.length_filterMap_eq_countP, List.countP_eq_length.mpr hwire]
    exact Array.length_toList
  case entries =>
    intro place serial hs
    obtain ⟨bond, a, b, hb, ha, hb', hw⟩ := h.wire? (Array.mem_of_getElem? hs)
    refine ⟨bond, a, b, hb, ha, hb', ?_⟩
    rw [freshWires_eq, getElem?_filterMap_of_isSome hwire, Array.getElem?_toList, hs]
    exact hw

/-! ### Each operation, with and without what is kept -/

theorem Sound.forget (h : Sound w) : Sound w.forget :=
  ⟨h.room, h.seats, h.places, h.ends, fun _ hw => by cases hw⟩

theorem forget_roomy (w : World α) : w.forget.roomy.forget = w.roomy.forget := by
  have hcount : w.forget.count = w.count := rfl
  have hcapacity : w.forget.capacity = w.capacity := rfl
  unfold roomy
  rw [hcount, hcapacity]
  split <;> rfl

theorem forget_unlinkAll (w : World α) (serials : List Nat) :
    (w.forget.unlinkAll serials).forget = (w.unlinkAll serials).forget := by
  induction serials generalizing w with
  | nil => rfl
  | cons serial rest ih =>
    have hplace : w.forget.place? serial = w.place? serial := rfl
    simp only [unlinkAll, List.foldl_cons, hplace]
    cases w.place? serial with
    | none => exact ih w
    | some place => rfl

theorem unseat_forget (w : World α) (id slot : Nat) :
    w.forget.unseat id slot = w.unseat id slot := rfl

theorem forget_without (w : World α) (id slot : Nat) :
    w.forget.without id slot = w.without id slot := by
  have hat : w.forget.springsAt id = w.springsAt id := rfl
  rw [without, without, hat, ← unseat_forget, forget_unlinkAll, unseat_forget]

section
variable [Scalar α]

theorem relax_forget (h : Sound w) : w.forget.relax.forget = w.relax.forget := by
  have hrows : w.forget.relax.rows = w.relax.rows := by
    rw [rows_relax h.forget, rows_relax h]
    rfl
  have hforget : ∀ v : World α, v.relax.forget = { v.forget with rows := v.relax.rows } := by
    intro v
    unfold relax
    split <;> rfl
  rw [hforget, hforget, hrows]
  rfl

theorem confine_forget (hv : v.forget = w.forget) : v.confine.forget = w.confine.forget := by
  have hsetting : v.setting = w.setting := (congrArg World.setting hv :)
  unfold confine
  rw [hsetting]
  cases w.setting.bounds with
  | none => exact hv
  | some b => exact congrArg (mapLive · (.confine b)) hv

/-- A step does the same with what is kept as with what it works out. -/
theorem step_forget (h : Sound w) (dt : α) : (w.forget.step dt).forget = (w.step dt).forget := by
  have hcount : w.forget.count = w.count := rfl
  unfold step
  rw [hcount]
  split
  · rfl
  · have hdrift := moved_mapLive w (Particle.drift_nature w.setting dt)
    apply confine_forget
    exact relax_forget (hdrift.sound h)

/-- So does every call. -/
theorem run_forget {P S : Type} (point : P → Point α) (spring : S → Spring) (e : Edit α P S)
    (w : World α) : (e.run point spring w.forget).result = (e.run point spring w).result ∧
      (e.run point spring w.forget).state.forget = (e.run point spring w).state.forget := by
  cases e <;> simp only [Edit.run, Action.map_apply]
  case addPoint spot mass pinned =>
    obtain ⟨notes, he⟩ := addPoint_apply spot mass pinned w
    obtain ⟨notes', he'⟩ := addPoint_apply spot mass pinned w.forget
    have hroomy := forget_roomy w
    have hcount : w.forget.roomy.count = w.roomy.count := (congrArg count hroomy :)
    have hcapacity : w.forget.roomy.capacity = w.roomy.capacity :=
      (congrArg capacity hroomy :)
    rw [he, he', hcount, hcapacity]
    split
    · exact ⟨rfl, hroomy⟩
    · exact ⟨rfl, congrArg (seat · _) hroomy⟩
  case pin p =>
    have hcapacity : w.forget.capacity = w.capacity := rfl
    rw [pin_apply, pin_apply, hcapacity]
    split
    · exact ⟨rfl, rfl⟩
    · split <;> exact ⟨rfl, rfl⟩
  case push p force =>
    have hseated : w.forget.seated? = w.seated? := rfl
    rw [push_apply, push_apply, hseated]
    split <;> exact ⟨rfl, rfl⟩
  case removePoint p =>
    have hseated : w.forget.seated? = w.seated? := rfl
    rw [removePoint_apply, removePoint_apply, hseated]
    split
    · rw [forget_without]
      exact ⟨rfl, rfl⟩
    · exact ⟨rfl, rfl⟩
  case addSpring a b stiffness rest damping =>
    obtain ⟨notes, he⟩ := addSpring_apply (a.map point) (b.map point) stiffness rest damping w
    obtain ⟨notes', he'⟩ :=
      addSpring_apply (a.map point) (b.map point) stiffness rest damping w.forget
    have hjoinable : w.forget.joinable? = w.joinable? := rfl
    rw [he, he', hjoinable]
    split <;> exact ⟨rfl, rfl⟩
  case removeSpring s =>
    have hlisted : w.forget.listed? = w.listed? := rfl
    rw [removeSpring_apply, removeSpring_apply, hlisted]
    split <;> exact ⟨rfl, rfl⟩

end

/-! ### Runs of calls and steps -/

/-- Who holds a point: one of the world, by number, or one of another world. -/
inductive Holder (α : Type) (tag : Nat) where
  | own (id : Nat)
  | foreign (p : Point α) (hp : p.home ≠ tag)

/-- What a holder sees now. -/
def Holder.point {tag : Nat} (w : World α) : Holder α tag → Point α
  | own id => w.point id
  | foreign p _ => p

theorem Holder.sees {tag : Nat} (hw : w.tag = tag) (h : Holder α tag) : w.Sees (h.point w) := by
  intro hhome
  cases h with
  | own id => rfl
  | foreign p hp => exact absurd (hhome.trans hw) hp

/-- A call by whoever holds points and springs, or a step. A spring is named by number, or by what
its holder saw at some time. -/
inductive Event (α : Type) (tag : Nat) where
  | call (e : Edit α (Holder α tag) (Nat ⊕ Spring))
  | step (dt : α)

section
variable [Scalar α] {tag : Nat}

def Event.act : Event α tag → World α → Except Fault Answer × World α
  | call e, w =>
    let report := e.run (Holder.point w) (Sum.elim w.spring id) w
    (report.result, report.state)
  | step dt, w => (.ok .nothing, w.step dt)

/-- What an event does to a world that keeps nothing. -/
def Event.actAnew (e : Event α tag) (w : World α) : Except Fault Answer × World α := e.act w.forget

theorem Event.changes (h : Sound w) (hw : w.tag = tag) (e : Event α tag) :
    Changes (fun _ => True) w (e.act w).2 := by
  cases e with
  | call e => exact changes_run h _ (Holder.sees hw) e fun _ _ _ _ => trivial
  | step dt => exact (Change.moved (moved_step dt w)).changes

theorem Event.act_forget (h : Sound w) (e : Event α tag) :
    (e.act w.forget).1 = (e.act w).1 ∧ (e.act w.forget).2.forget = (e.act w).2.forget := by
  cases e with
  | call e => exact run_forget (Holder.point w) (Sum.elim w.spring id) e w
  | step dt => exact ⟨rfl, step_forget h dt⟩

/-- A world and one that keeps nothing stay the same but for what is kept. -/
theorem Event.alongside (e : Event α tag) (w v : World α)
    (h : Sound w ∧ w.tag = tag ∧ v.forget = w.forget) :
    (e.act w).1 = (e.actAnew v).1 ∧
      Sound (e.act w).2 ∧ (e.act w).2.tag = tag ∧ (e.actAnew v).2.forget = (e.act w).2.forget := by
  obtain ⟨hs, hw, hv⟩ := h
  obtain ⟨ha, hf⟩ := e.act_forget hs
  have hc := e.changes hs hw
  rw [actAnew, hv]
  exact ⟨ha.symm, hc.sound hs, (hc.onward hs).tag.trans hw, hf⟩

/-- After any calls and steps, what a world keeps of its springs is what it would work out now, and
the world answers and is as one that works them out anew before each call and step. -/
theorem wires_never_stale (tag : Nat) (setting : Setting α) (capacity : Nat)
    (events : List (Event α tag)) :
    let (answers, w) := history Event.act events (World.new tag setting capacity)
    let (anew, v) := history Event.actAnew events (World.new tag setting capacity)
    Kept w ∧ answers = anew ∧ v.forget = w.forget := by
  have hstart : Sound (World.new tag setting capacity) := .new tag setting capacity
  obtain ⟨hanswers, hs, _, hforget⟩ := history_simulates
    (fun w v : World α => Sound w ∧ w.tag = tag ∧ v.forget = w.forget) Event.alongside events
    ⟨hstart, rfl, rfl⟩
  exact ⟨hs.kept, hanswers, hforget⟩

end
end Arboretum.World
