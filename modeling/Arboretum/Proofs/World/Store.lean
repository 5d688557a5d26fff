import Arboretum.Binary64
import Arboretum.Proofs.World.Edit
import Mathlib.Data.List.Perm.Basic
import Mathlib.Logic.Function.Basic

/-!
A world read through its holders is a store of points and springs by number: slots, places, stale
rows and room cannot be told from its answers.
-/
namespace Arboretum

open Function

/-- Points and springs by number, and the numbers that come next. -/
@[ext] structure Store (α : Type) where
  points : Nat → Option (Particle α)
  bonds : Nat → Option (Bond α)
  nextPoint : Nat
  nextBond : Nat

namespace Store

variable {α : Type}

def empty : Store α := ⟨fun _ => none, fun _ => none, 0, 0⟩

/-- Changes the entry of a point, if there is one. -/
def change (st : Store α) (id : Nat) (f : Particle α → Particle α) : Store α :=
  { st with points := update st.points id ((st.points id).map f) }

/-- Deletes a point and exactly the springs that end at it. -/
def delete (st : Store α) (id : Nat) : Store α :=
  { st with
    points := update st.points id none
    bonds := fun serial => (st.bonds serial).filter fun bond => !bond.meets id }

/-- What two numbers can be joined by: their positions, if they are of two points. -/
def joinable? (st : Store α) (a b : Option Nat) : Option ((Nat × Vec α) × (Nat × Vec α)) :=
  a.bind fun a => b.bind fun b => (st.points a).bind fun p => (st.points b).bind fun q =>
    if a = b then none else some ((a, p.position), (b, q.position))

/-- Carries out a call. -/
def perform [Scalar α] : Edit α Nat Nat → Store α → Except Fault Answer × Store α
  | .addPoint spot mass pinned, st =>
    (.ok (.point st.nextPoint),
      { st with
        points := update st.points st.nextPoint (some (.atRest spot (World.massOf mass) pinned))
        nextPoint := st.nextPoint + 1 })
  | .pin id, st =>
    if (st.points id).isSome then
      (.ok .nothing, st.change id fun p => { p with pinned := true, previous := p.position })
    else (.error (.removedPoint id), st)
  | .push id force, st =>
    match id.filter fun id => (st.points id).isSome with
    | some id => (.ok (.flag true), st.change id fun p => { p with force := p.force + force })
    | none => (.ok (.flag false), st)
  | .removePoint id, st =>
    match id.filter fun id => (st.points id).isSome with
    | some id => (.ok (.flag true), st.delete id)
    | none => (.ok (.flag false), st)
  | .addSpring a b stiffness rest damping, st =>
    match st.joinable? a b with
    | some ((a, spotA), (b, spotB)) =>
      (.ok (.spring (some st.nextBond)),
        { st with
          bonds := update st.bonds st.nextBond
            (some ⟨a, b, World.stiffnessOf stiffness, damping, World.restLength spotA spotB rest⟩)
          nextBond := st.nextBond + 1 })
    | none => (.ok (.spring none), st)
  | .removeSpring serial, st =>
    match serial.filter fun serial => (st.bonds serial).isSome with
    | some serial =>
      (.ok (.flag true), { st with bonds := update st.bonds serial none })
    | none => (.ok (.flag false), st)

/-- Reading a point without an entry is a fault. -/
def particle (st : Store α) (id : Nat) : Except Fault (Particle α) :=
  match st.points id with
  | some p => .ok p
  | none => .error (.removedPoint id)

/-- How many points have an entry. -/
def pointCount (st : Store α) : Nat :=
  (List.range st.nextPoint).countP fun id => (st.points id).isSome

def bondCount (st : Store α) : Nat :=
  (List.range st.nextBond).countP fun serial => (st.bonds serial).isSome

end Store

namespace World

variable {α : Type} {w : World α}

/-- A world as its holders see it. -/
def store (w : World α) : Store α := ⟨w.particle?, w.bond?, w.slots.size, w.links.size⟩

theorem store_new [Scalar α] (tag : Nat) (setting : Setting α) (capacity : Nat) :
    (World.new tag setting capacity).store = Store.empty := by
  ext1
  · funext id
    simp [store, World.new, particle?, slot?, Store.empty]
  · funext serial
    simp [store, World.new, bond?, Store.empty]
  · rfl
  · rfl

theorem store_double (h : Sound w) : w.double.store = w.store := by
  ext1
  · exact funext (particle?_double h)
  · rfl
  · rfl
  · rfl

theorem store_roomy (h : Sound w) : w.roomy.store = w.store := by
  unfold roomy
  split
  · exact store_double h
  · rfl

theorem store_seat (h : Sound w) (hroom : w.count < w.capacity) (p : Particle α) :
    (w.seat p).store =
      { w.store with
        points := update w.store.points w.slots.size (some p)
        nextPoint := w.slots.size + 1 } := by
  ext1
  · funext id
    simp only [store, update_apply]
    exact particle?_seat h hroom p id
  · funext serial
    exact bond?_seat w p serial
  · simp [store, seat]
  · rfl

theorem store_touch (h : Sound w) {id slot : Nat} (hs : w.slot? id = some slot)
    (f : Particle α → Particle α) : (w.touch slot f).store = w.store.change id f := by
  ext1
  · funext x
    simp only [store, Store.change, update_apply]
    rw [particle?_touch]
    by_cases hx : x = id
    · subst x
      simp [hs]
    · have hne : w.slot? x ≠ some slot := fun hxs => hx (h.slot_unique hxs hs)
      simp [hx, hne]
  · rfl
  · rfl
  · rfl

theorem store_without (h : Sound w) {id slot : Nat} (hs : w.slot? id = some slot) :
    (w.without id slot).store = w.store.delete id := by
  ext1
  · funext x
    simp only [store, Store.delete, update_apply]
    exact particle?_without h hs x
  · funext serial
    exact bond?_without h id slot serial
  · exact slots_size_without h id slot
  · exact links_size_without w id slot

theorem store_link (w : World α) (a b : Nat) (stiffness damping rest : α) :
    (w.link a b stiffness damping rest).store =
      { w.store with
        bonds := update w.store.bonds w.links.size (some ⟨a, b, stiffness, damping, rest⟩)
        nextBond := w.links.size + 1 } := by
  ext1
  · rfl
  · funext serial
    simp only [store, update_apply]
    exact bond?_link w a b stiffness damping rest serial
  · rfl
  · simp [store, link]

theorem store_unlink (h : Sound w) {serial place : Nat} (hp : w.place? serial = some place) :
    (w.unlink serial place).store =
      { w.store with bonds := update w.store.bonds serial none } := by
  ext1
  · rfl
  · funext s
    simp only [store, update_apply]
    exact bond?_unlink h hp s
  · rfl
  · exact links_size_unlink w serial place

theorem particle_store (w : World α) (id : Nat) : w.particle id = w.store.particle id := rfl

theorem forceOn_point (h : Sound w) (id : Nat) :
    w.forceOn (w.point id) = (w.particle id).map (·.force) := by
  have hp := h.particle?_isSome id
  unfold forceOn particle
  rw [point_slot h]
  cases hs : w.slot? id with
  | none =>
    have hnone : w.particle? id = none := by simpa [isAlive, hs] using hp
    simp [hnone, Except.map, bind, Except.bind]
  | some slot =>
    obtain ⟨p, hr⟩ : ∃ p, w.rows[slot]? = some p :=
      ⟨_, Array.getElem?_eq_getElem (h.slot_lt_capacity hs)⟩
    simp [particle?, hs, hr, Except.map, bind, Except.bind, pure, Except.pure]

theorem count_store (h : Sound w) : w.count = w.store.pointCount := by
  refine (indexed_size h.seats fun _ _ => slot?_lt).trans ?_
  refine List.countP_congr fun id _ => ?_
  exact iff_of_eq (congrArg (· = true) (h.particle?_isSome id).symm)

theorem springs_size_store (h : Sound w) : w.springs.size = w.store.bondCount := by
  refine (indexed_size h.places fun _ _ => place?_lt).trans ?_
  refine List.countP_congr fun serial _ => ?_
  exact iff_of_eq (congrArg (· = true) (w.bond?_isSome serial).symm)

/-- A holder that may be missing is seated in a world just if the store has an entry for it. -/
theorem seated_or (h : Sound w) (p : Option Nat) :
    (∃ id slot, w.slot? id = some slot ∧ (p.map w.point).bind w.seated? = some (id, slot) ∧
      (p.filter fun id => (w.store.points id).isSome) = some id) ∨
    ((p.map w.point).bind w.seated? = none ∧
      (p.filter fun id => (w.store.points id).isSome) = none) := by
  cases p with
  | none => exact .inr ⟨rfl, rfl⟩
  | some id =>
    have hp := h.particle?_isSome id
    cases hs : w.slot? id with
    | none =>
      refine .inr ⟨by simp [seated?_point h, hs], ?_⟩
      simp [store, Option.filter, hp, isAlive, hs]
    | some slot =>
      refine .inl ⟨id, slot, hs, by simp [seated?_point h, hs], ?_⟩
      simp [store, Option.filter, hp, isAlive, hs]

theorem listed_or (h : Sound w) (s : Option Nat) :
    (∃ serial place, w.place? serial = some place ∧
      (s.map w.spring).bind w.listed? = some (serial, place) ∧
      (s.filter fun serial => (w.store.bonds serial).isSome) = some serial) ∨
    ((s.map w.spring).bind w.listed? = none ∧
      (s.filter fun serial => (w.store.bonds serial).isSome) = none) := by
  cases s with
  | none => exact .inr ⟨rfl, rfl⟩
  | some serial =>
    have hb := w.bond?_isSome serial
    cases hp : w.place? serial with
    | none =>
      refine .inr ⟨by simp [listed?_spring h, hp], ?_⟩
      simp [store, Option.filter, hb, springIsAlive, hp]
    | some place =>
      refine .inl ⟨serial, place, hp, by simp [listed?_spring h, hp], ?_⟩
      simp [store, Option.filter, hb, springIsAlive, hp]

theorem joinable?_store (h : Sound w) (a b : Option Nat) :
    w.joinable? (a.map w.point) (b.map w.point) = w.store.joinable? a b := by
  cases a with
  | none => rfl
  | some a =>
    cases b with
    | none => simp [joinable?, Store.joinable?]
    | some b => exact joinable?_point h a b

section
variable [Scalar α]

/-- Makes a call with what the holders of the numbers see now. -/
def perform (e : Edit α Nat Nat) (w : World α) : Except Fault Answer × World α :=
  let report := e.run w.point w.spring w
  (report.result, report.state)

/-- A call on a world does to what holders see what it does to the store. -/
theorem perform_store (hr : Ready w) (e : Edit α Nat Nat) :
    (perform e w).1 = (Store.perform e w.store).1 ∧
      (perform e w).2.store = (Store.perform e w.store).2 := by
  have h := hr.toSound
  cases e <;> simp only [perform, Edit.run, Action.map_apply, Store.perform]
  case addPoint spot mass pinned =>
    obtain ⟨notes, he⟩ := addPoint_apply spot mass pinned w
    have hlt := count_roomy_lt hr
    have hsize : w.roomy.slots.size = w.slots.size := congrArg Store.nextPoint (store_roomy h)
    rw [he, if_neg (Nat.not_le_of_gt hlt)]
    refine ⟨rfl, ?_⟩
    rw [store_seat h.roomy hlt, store_roomy h, hsize]
    rfl
  case pin id =>
    have hp := h.particle?_isSome id
    rw [pin_apply, point_slot h]
    cases hs : w.slot? id with
    | none =>
      have hnone : (w.store.points id).isSome = false := by simp [store, hp, isAlive, hs]
      simp [hnone, Except.map]
    | some slot =>
      have hsome : (w.store.points id).isSome = true := by simp [store, hp, isAlive, hs]
      have hcap := Nat.not_le_of_gt (h.slot_lt_capacity hs)
      simp only [Option.elim_some, capacity, hcap, if_false, hsome, if_true, Except.map,
        pinSlot_eq_touch, true_and]
      exact store_touch h hs _
  case push p force =>
    rw [push_apply]
    obtain ⟨id, slot, hs, hw, hst⟩ | ⟨hw, hst⟩ := seated_or h p
    · rw [hw, hst]
      exact ⟨rfl, store_touch h hs _⟩
    · rw [hw, hst]
      exact ⟨rfl, rfl⟩
  case removePoint p =>
    rw [removePoint_apply]
    obtain ⟨id, slot, hs, hw, hst⟩ | ⟨hw, hst⟩ := seated_or h p
    · rw [hw, hst]
      exact ⟨rfl, store_without h hs⟩
    · rw [hw, hst]
      exact ⟨rfl, rfl⟩
  case addSpring a b stiffness rest damping =>
    obtain ⟨notes, he⟩ := addSpring_apply (a.map w.point) (b.map w.point) stiffness rest damping w
    rw [he, joinable?_store h]
    cases w.store.joinable? a b with
    | none => exact ⟨rfl, rfl⟩
    | some ends =>
      obtain ⟨⟨a, spotA⟩, b, spotB⟩ := ends
      exact ⟨rfl, store_link w a b _ _ _⟩
  case removeSpring s =>
    rw [removeSpring_apply]
    obtain ⟨serial, place, hp, hw, hst⟩ | ⟨hw, hst⟩ := listed_or h s
    · rw [hw, hst]
      exact ⟨rfl, store_unlink h hp⟩
    · rw [hw, hst]
      exact ⟨rfl, rfl⟩

/-- A call answered with a refusal leaves the world as it was. -/
theorem perform_refused (e : Edit α Nat Nat) (w : World α)
    (h : (perform e w).1 = .ok (.flag false) ∨ (perform e w).1 = .ok (.spring none)) :
    (perform e w).2 = w := by
  cases e <;> simp only [perform, Edit.run, Action.map_apply] at h ⊢
  case addPoint spot mass pinned =>
    cases hr : (addPoint spot mass pinned w).result <;> simp [hr, Except.map] at h
  case pin id => cases hr : (pin (w.point id) w).result <;> simp [hr, Except.map] at h
  case push p force =>
    rw [push_apply] at h ⊢
    cases hs : (p.map w.point).bind w.seated? with
    | none => rfl
    | some found => simp [hs, Except.map] at h
  case removePoint p =>
    rw [removePoint_apply] at h ⊢
    cases hs : (p.map w.point).bind w.seated? with
    | none => rfl
    | some found => simp [hs, Except.map] at h
  case addSpring a b stiffness rest damping =>
    obtain ⟨notes, he⟩ := addSpring_apply (a.map w.point) (b.map w.point) stiffness rest damping w
    rw [he] at h ⊢
    cases hj : w.joinable? (a.map w.point) (b.map w.point) with
    | none => rfl
    | some ends => simp [hj, Except.map] at h
  case removeSpring s =>
    rw [removeSpring_apply] at h ⊢
    cases hs : (s.map w.spring).bind w.listed? with
    | none => rfl
    | some found => simp [hs, Except.map] at h

theorem ready_perform (h : Ready w) (e : Edit α Nat Nat) : Ready (perform e w).2 := by
  have hc : Changes (fun _ => True) w (perform e w).2 :=
    changes_run h.toSound w.spring (fun _ _ => rfl) e fun _ _ _ _ => trivial
  exact hc.ready h

/-- Calls on a world do to what holders see what they do to the store. -/
theorem store_history (h : Ready w) (calls : List (Edit α Nat Nat)) :
    (history perform calls w).2.store = (history Store.perform calls w.store).2 := by
  refine (history_simulates (fun w st => Ready w ∧ w.store = st) (fun e w st h => ?_) calls
    ⟨h, rfl⟩).2.2
  obtain ⟨ha, hs⟩ := perform_store h.1 e
  exact ⟨h.2 ▸ ha, ready_perform h.1 e, h.2 ▸ hs⟩

theorem setting_history (h : Ready w) (calls : List (Edit α Nat Nat)) :
    (history perform calls w).2.setting = w.setting := by
  refine (history_keeps (fun v => Ready v ∧ v.setting = w.setting) (fun e _ v hv => ?_)
    ⟨h, rfl⟩).2
  have hc : Changes (fun _ => True) v (perform e v).2 :=
    changes_run hv.1.toSound v.spring (fun _ _ => rfl) e fun _ _ _ _ => trivial
  exact ⟨ready_perform hv.1 e, hc.setting.trans hv.2⟩

/-- After any calls with live, removed or missing holders, a world answers and reads as the store
does, and a call that is refused changes nothing. -/
theorem history_refines_store (tag : Nat) (setting : Setting α) {capacity : Nat}
    (hroom : 1 ≤ capacity) (calls : List (Edit α Nat Nat)) :
    let (answers, w) := history perform calls (World.new tag setting capacity)
    let (expected, st) := history Store.perform calls Store.empty
    answers = expected ∧
      (∀ id, w.particle id = st.particle id) ∧
      (∀ id, w.isAlive id = (st.points id).isSome) ∧
      (∀ id, w.forceOn (w.point id) = (st.particle id).map (·.force)) ∧
      (∀ serial, w.bond? serial = st.bonds serial) ∧
      w.count = st.pointCount ∧ w.springs.size = st.bondCount ∧
      ∀ e, (perform e w).1 = .ok (.flag false) ∨ (perform e w).1 = .ok (.spring none) →
        (perform e w).2 = w := by
  have hstart : Ready (World.new tag setting capacity) ∧
      (World.new tag setting capacity).store = Store.empty :=
    ⟨.new tag setting hroom, store_new tag setting capacity⟩
  obtain ⟨hanswers, hr, hstore⟩ := history_simulates
    (fun w st => Ready w ∧ w.store = st)
    (fun e w st ⟨hr, hst⟩ => by
      obtain ⟨ha, hs⟩ := perform_store hr e
      exact ⟨hst ▸ ha, ready_perform hr e, hst ▸ hs⟩) calls hstart
  simp only
  generalize (history perform calls (World.new tag setting capacity)).2 = w at hr hstore
  refine ⟨hanswers, ?_⟩
  rw [← hstore]
  refine ⟨particle_store w, fun id => (hr.particle?_isSome id).symm, ?_, fun _ => rfl,
    count_store hr.toSound, springs_size_store hr.toSound, fun e he => perform_refused e w he⟩
  intro id
  rw [forceOn_point hr.toSound, particle_store]

end

theorem history_refines_store_from_one_row :
    1 ≤ 1 ∧ (history perform
      [.addPoint ⟨0, 0⟩ 1 false, .addPoint ⟨3, 4⟩ 0 false, .addSpring (some 0) (some 1) 1 none 0.5,
        .addSpring (some 1) (some 1) 1 none 0.5, .removePoint (some 0), .push (some 0) ⟨1, 1⟩]
      (World.new 0 (Setting.default : Setting Float) 1)).1 =
      [.ok (.point 0), .ok (.point 1), .ok (.spring (some 0)), .ok (.spring none),
        .ok (.flag true), .ok (.flag false)] :=
  ⟨Nat.le_refl 1, (history_refines_store 0 Setting.default (Nat.le_refl 1) _).1.trans rfl⟩

end World
end Arboretum
