import Arboretum.Proofs.World.Shows

/-!
A world cut down to some of its points. Where no spring leads out of them, they move in the smaller
world as they do in the whole one.
-/
namespace Arboretum.World

variable {α : Type} {A : Nat → Bool} {w : World α}

/-- Where a number is listed. -/
def listedAt (xs : Array Nat) (x : Nat) : Option Nat := xs.toList.idxOf? x

theorem listedAt_eq_some {xs : Array Nat} (h : xs.toList.Nodup) (i x : Nat) :
    xs[i]? = some x ↔ listedAt xs x = some i := by
  rw [listedAt, List.idxOf?_eq_some_iff, ← Array.getElem?_toList, List.getElem?_eq_some_iff]
  constructor
  · rintro ⟨hi, rfl⟩
    refine ⟨hi, rfl, fun j hj he => ?_⟩
    have hij := (List.Nodup.getElem_inj_iff h).mp he
    omega
  · rintro ⟨hi, he, _⟩
    exact ⟨hi, he⟩

theorem listedAt_isSome {xs : Array Nat} (h : xs.toList.Nodup) (x : Nat) :
    (listedAt xs x).isSome ↔ x ∈ xs := by
  rw [← Array.mem_toList_iff, indexed_mem (listedAt_eq_some h)]

/-- Reading every entry of a list that has all of them. -/
theorem getElem?_filterMap_of_isSome {β γ : Type} {f : β → Option γ} {xs : List β}
    (h : ∀ x ∈ xs, (f x).isSome) (i : Nat) : (xs.filterMap f)[i]? = (xs[i]?).bind f := by
  induction xs generalizing i with
  | nil => rfl
  | cons x xs ih =>
    obtain ⟨y, hy⟩ := Option.isSome_iff_exists.mp (h x List.mem_cons_self)
    rw [List.filterMap_cons_some hy]
    cases i with
    | zero => exact hy.symm
    | succ i => exact ih (fun z hz => h z (List.mem_cons_of_mem x hz)) i

/-- Does a spring join two points of a set? -/
def joinsAmong (A : Nat → Bool) (w : World α) (serial : Nat) : Bool :=
  (w.bond? serial).any fun bond => A bond.a && A bond.b

/-- The points of a set and the springs among them, in their orders, and nothing else. -/
def restrict (A : Nat → Bool) (w : World α) : World α where
  tag := w.tag
  setting := w.setting
  rows := (w.bodies.filter A).filterMap w.particle?
  bodies := w.bodies.filter A
  slots := w.slots.mapIdx fun id _ => listedAt (w.bodies.filter A) id
  links := w.links.mapIdx fun serial l =>
    { l with place := listedAt (w.springs.filter (w.joinsAmong A)) serial }
  springs := w.springs.filter (w.joinsAmong A)
  wires := none

theorem Sound.nodup_bodies (h : Sound w) (A : Nat → Bool) : (w.bodies.filter A).toList.Nodup := by
  rw [Array.toList_filter]
  exact (indexed_nodup h.seats).filter A

theorem Sound.nodup_springs (h : Sound w) (A : Nat → Bool) :
    (w.springs.filter (w.joinsAmong A)).toList.Nodup := by
  rw [Array.toList_filter]
  exact (indexed_nodup h.places).filter _

theorem slot?_restrict (h : Sound w) (A : Nat → Bool) (id : Nat) :
    (w.restrict A).slot? id = listedAt (w.bodies.filter A) id := by
  unfold slot? restrict
  rw [Array.getElem?_mapIdx]
  cases hs : w.slots[id]? with
  | some _ => rfl
  | none =>
    have hdead : w.isAlive id = false := by simp [isAlive, slot?, hs]
    refine (Option.not_isSome_iff_eq_none.mp fun hl => ?_).symm
    have hmem := (listedAt_isSome (h.nodup_bodies A) id).mp hl
    rw [Array.mem_filter, mem_bodies h, hdead] at hmem
    cases hmem.1

theorem isAlive_restrict (h : Sound w) (A : Nat → Bool) (id : Nat) :
    (w.restrict A).isAlive id = (A id && w.isAlive id) := by
  rw [isAlive, slot?_restrict h, Bool.eq_iff_iff, listedAt_isSome (h.nodup_bodies A),
    Array.mem_filter, mem_bodies h, Bool.and_eq_true, and_comm]

theorem mem_springs_restrict (h : Sound w) (A : Nat → Bool) (serial : Nat) :
    serial ∈ (w.restrict A).springs ↔ w.joinsAmong A serial = true := by
  change serial ∈ w.springs.filter (w.joinsAmong A) ↔ _
  rw [Array.mem_filter, mem_springs h, ← bond?_isSome]
  refine and_iff_right_of_imp fun hj => ?_
  unfold joinsAmong at hj
  cases hb : w.bond? serial with
  | none => simp [hb] at hj
  | some bond => rfl

theorem place?_restrict (h : Sound w) (A : Nat → Bool) (serial : Nat) :
    (w.restrict A).place? serial = listedAt (w.springs.filter (w.joinsAmong A)) serial := by
  unfold place? restrict
  rw [Array.getElem?_mapIdx]
  cases hl : w.links[serial]? with
  | some _ => rfl
  | none =>
    refine (Option.not_isSome_iff_eq_none.mp fun hs => ?_).symm
    have hmem := (mem_springs_restrict h A serial).mp
      ((listedAt_isSome (h.nodup_springs A) serial).mp hs)
    simp [joinsAmong, bond?, hl] at hmem

theorem bond?_restrict (h : Sound w) (A : Nat → Bool) (serial : Nat) :
    (w.restrict A).bond? serial = (w.bond? serial).filter fun bond => A bond.a && A bond.b := by
  have hlisted : (w.restrict A).springIsAlive serial = w.joinsAmong A serial := by
    rw [Bool.eq_iff_iff, ← mem_springs_restrict h, springIsAlive, place?_restrict h]
    exact listedAt_isSome (h.nodup_springs A) serial
  unfold joinsAmong at hlisted
  cases hb : w.bond? serial with
  | none =>
    rw [hb, springIsAlive, Option.any_none, Option.isSome_eq_false_iff, Option.isNone_iff_eq_none]
      at hlisted
    rw [bond?_eq_none.mpr hlisted]
    rfl
  | some bond =>
    rw [hb, Option.any_some, springIsAlive] at hlisted
    cases hA : A bond.a && A bond.b with
    | false =>
      rw [hA, Option.isSome_eq_false_iff, Option.isNone_iff_eq_none] at hlisted
      rw [bond?_eq_none.mpr hlisted, Option.filter_some_neg (by simp [hA])]
    | true =>
      obtain ⟨l, hl, _, rfl⟩ := bond?_eq_some.mp hb
      rw [Option.filter, if_pos hA, bond?_eq_some]
      have hlink : (w.restrict A).links[serial]? =
          some { l with place := listedAt (w.springs.filter (w.joinsAmong A)) serial } := by
        rw [restrict, Array.getElem?_mapIdx, hl]
        rfl
      refine ⟨_, hlink, ?_, rfl⟩
      rw [hA, place?_restrict h] at hlisted
      exact hlisted

/-- The rows of the smaller world are those of its points. -/
theorem rows_restrict (h : Sound w) (A : Nat → Bool) (i : Nat) :
    (w.restrict A).rows[i]? = ((w.bodies.filter A)[i]?).bind w.particle? := by
  have hall : ∀ x ∈ (w.bodies.filter A).toList, (w.particle? x).isSome := by
    intro x hx
    rw [Array.mem_toList_iff, Array.mem_filter, mem_bodies h] at hx
    rw [h.particle?_isSome]
    exact hx.1
  have hrow := getElem?_filterMap_of_isSome hall i
  rwa [← Array.toList_filterMap, Array.getElem?_toList, Array.getElem?_toList] at hrow

theorem particle?_restrict (h : Sound w) (A : Nat → Bool) (id : Nat) :
    (w.restrict A).particle? id = if A id = true then w.particle? id else none := by
  have halive := isAlive_restrict h A id
  have hwhole := h.particle?_isSome id
  unfold isAlive at halive
  rw [particle?]
  cases hs : (w.restrict A).slot? id with
  | none =>
    rw [hs, Option.isSome_none] at halive
    split
    · rename_i hid
      rw [hid, Bool.true_and, ← isAlive, ← hwhole] at halive
      exact (Option.not_isSome_iff_eq_none.mp (by simp [← halive])).symm
    · rfl
  | some i =>
    rw [hs, Option.isSome_some] at halive
    rw [if_pos (Bool.and_eq_true_iff.mp halive.symm).1, Option.bind_some, rows_restrict h]
    rw [slot?_restrict h, ← listedAt_eq_some (h.nodup_bodies A)] at hs
    rw [hs, Option.bind_some]

theorem Sound.restrict (h : Sound w) (A : Nat → Bool) : Sound (w.restrict A) where
  room := by
    refine Nat.le_of_not_lt fun hlt => ?_
    have hlt : (w.restrict A).rows.size < (w.bodies.filter A).size := hlt
    have hrow := rows_restrict h A (w.restrict A).rows.size
    rw [Array.getElem?_size, Array.getElem?_eq_getElem hlt, Option.bind_some] at hrow
    have hmem := (Array.mem_filter.mp (Array.getElem_mem hlt)).1
    rw [mem_bodies h, ← h.particle?_isSome, ← hrow] at hmem
    cases hmem
  seats := by
    intro slot id
    rw [slot?_restrict h]
    exact listedAt_eq_some (h.nodup_bodies A) slot id
  places := by
    intro place serial
    rw [place?_restrict h]
    exact listedAt_eq_some (h.nodup_springs A) place serial
  ends := by
    intro serial bond hb
    rw [bond?_restrict h, Option.filter_eq_some_iff, Bool.and_eq_true] at hb
    obtain ⟨hne, ha, hb'⟩ := h.ends serial bond hb.1
    rw [isAlive_restrict h, isAlive_restrict h, ha, hb', hb.2.1, hb.2.2]
    exact ⟨hne, rfl, rfl⟩
  wired := by
    intro wires hw
    cases hw

/-- A spring as the solver sees it, if both its ends have slots. -/
def wire? (w : World α) (serial : Nat) : Option (Wire α) := do
  let l ← w.links[serial]?
  let a ← w.slot? l.a
  let b ← w.slot? l.b
  return ⟨a, b, l.rest, l.stiffness, l.damping⟩

theorem freshWires_eq (w : World α) : w.freshWires = w.springs.toList.filterMap w.wire? := rfl

theorem wire?_of_bond? {serial : Nat} {bond : Bond α} (hb : w.bond? serial = some bond) {a b : Nat}
    (ha : w.slot? bond.a = some a) (hb' : w.slot? bond.b = some b) :
    w.wire? serial = some ⟨a, b, bond.rest, bond.stiffness, bond.damping⟩ := by
  obtain ⟨l, hl, _, rfl⟩ := bond?_eq_some.mp hb
  simp only [wire?, hl, Option.bind_eq_bind, Option.bind_some, ha, hb']
  rfl

/-- Every spring that is listed has two ends with slots, so that none is left out. -/
theorem Sound.wire? (h : Sound w) {serial : Nat} (hs : serial ∈ w.springs) :
    ∃ bond a b, w.bond? serial = some bond ∧ w.slot? bond.a = some a ∧ w.slot? bond.b = some b ∧
      w.wire? serial = some ⟨a, b, bond.rest, bond.stiffness, bond.damping⟩ := by
  rw [mem_springs h, ← bond?_isSome] at hs
  obtain ⟨bond, hb⟩ := Option.isSome_iff_exists.mp hs
  obtain ⟨_, ha, hb'⟩ := h.ends serial bond hb
  obtain ⟨a, ha⟩ := isAlive_iff.mp ha
  obtain ⟨b, hb'⟩ := isAlive_iff.mp hb'
  exact ⟨bond, a, b, hb, ha, hb', wire?_of_bond? hb ha hb'⟩

/-- Where no spring leads out of a set of points, the smaller world shows them as the whole one
does. -/
theorem shows_restrict (h : Sound w)
    (hA : ∀ serial bond, w.bond? serial = some bond → A bond.a = A bond.b) :
    Shows A w (w.restrict A) where
  whole := h
  part := h.restrict A
  setting := rfl
  particles id hid := by rw [particle?_restrict h, if_pos hid]
  wires := by
    rw [freshWires_eq, freshWires_eq]
    change Picks _ _ _ (List.filterMap _ (w.springs.filter (w.joinsAmong A)).toList)
    rw [Array.toList_filter]
    refine .filterMap (fun serial hs hmine => ?_) (fun serial hs hother => ?_)
    · obtain ⟨bond, a, b, hb, ha, hb', hwire⟩ := h.wire? (Array.mem_toList_iff.mp hs)
      rw [joinsAmong, hb, Option.any_some, Bool.and_eq_true] at hmine
      have hin : ∀ id slot, A id = true → w.slot? id = some slot →
          ∃ slot', (w.restrict A).slot? id = some slot' := by
        intro id slot hid hslot
        rw [← isAlive_iff, isAlive_restrict h, hid, isAlive_iff.mpr ⟨slot, hslot⟩]
        rfl
      obtain ⟨a', ha'⟩ := hin bond.a a hmine.1 ha
      obtain ⟨b', hb''⟩ := hin bond.b b hmine.2 hb'
      have hb₁ : (w.restrict A).bond? serial = some bond := by
        rw [bond?_restrict h, hb, Option.filter, if_pos (by rw [hmine.1, hmine.2]; rfl)]
      exact ⟨_, _, hwire, wire?_of_bond? hb₁ ha' hb'',
        ⟨_, hmine.1, ha, ha'⟩, ⟨_, hmine.2, hb', hb''⟩, rfl, rfl, rfl⟩
    · obtain ⟨bond, a, b, hb, ha, hb', hwire⟩ := h.wire? (Array.mem_toList_iff.mp hs)
      rw [joinsAmong, hb, Option.any_some, ← hA serial bond hb, Bool.and_self] at hother
      have hout : ∀ id slot, A id = false → w.slot? id = some slot →
          ∀ j, ¬ Twins A w (w.restrict A) slot j := by
        rintro id slot hid hslot j ⟨id', hid', hslot', _⟩
        rw [h.slot_unique hslot' hslot, hid] at hid'
        cases hid'
      refine ⟨_, hwire, fun j => ⟨hout bond.a a hother ha j, ?_⟩⟩
      exact hout bond.b b (hA serial bond hb ▸ hother) hb' j

section
variable [Scalar α]

/-- Points that no spring joins to the others move as they would without the others: cutting a world
down to them can be put off until after a step, or after any steps and forces. -/
theorem follow_restrict (hw : Reached w) (A : Nat → Bool)
    (hA : ∀ serial bond, w.bond? serial = some bond → A bond.a = A bond.b) :
    (∀ dt id, ((w.step dt).restrict A).particle? id = ((w.restrict A).step dt).particle? id) ∧
      ∀ motions id, ((w.follow motions).restrict A).particle? id =
        ((w.restrict A).follow (motions.filter (·.concerns A))).particle? id := by
  have h := hw.sound
  have hrun : ∀ motions id, ((w.follow motions).restrict A).particle? id =
      ((w.restrict A).follow (motions.filter (·.concerns A))).particle? id := by
    intro motions id
    rw [particle?_restrict ((moved_follow h motions).sound h)]
    split
    · rename_i hid
      exact (((shows_restrict h hA).follow motions).particles id hid).symm
    · rename_i hid
      -- the smaller world never had the point
      have hm := moved_follow (h.restrict A) (motions.filter (·.concerns A))
      have hdead := (hm.sound (h.restrict A)).particle?_isSome id
      rw [hm.isAlive, isAlive_restrict h, Bool.eq_false_iff.mpr hid, Bool.false_and] at hdead
      exact (Option.not_isSome_iff_eq_none.mp (by simp [hdead])).symm
  exact ⟨fun dt => hrun [.step dt], hrun⟩

/-- Whoever calls by number is shown what they see now. -/
theorem Reached.perform (hw : Reached w) (e : Edit α Nat Nat) : Reached (perform e w).2 := by
  have hsees : ∀ id, w.Sees (w.point id) := fun _ _ => rfl
  cases e with
  | addPoint spot mass pinned => exact hw.edit (.addPoint spot mass pinned)
  | pin id => exact hw.edit (.pin ⟨w.point id, hsees id⟩)
  | push p force => cases p with
    | none => exact hw.edit (.push none force)
    | some id => exact hw.edit (.push (some ⟨w.point id, hsees id⟩) force)
  | removePoint p => cases p with
    | none => exact hw.edit (.removePoint none)
    | some id => exact hw.edit (.removePoint (some ⟨w.point id, hsees id⟩))
  | addSpring a b stiffness rest damping =>
    have hedit := hw.edit (.addSpring (a.map fun id => ⟨w.point id, hsees id⟩)
      (b.map fun id => ⟨w.point id, hsees id⟩) stiffness rest damping)
    cases a <;> cases b <;> exact hedit
  | removeSpring s => cases s with
    | none => exact hw.edit (.removeSpring none)
    | some serial => exact hw.edit (.removeSpring (some (w.spring serial)))

theorem reached_history (hw : Reached w) (calls : List (Edit α Nat Nat)) :
    Reached (history perform calls w).2 :=
  history_keeps Reached (fun e _ _ h => h.perform e) hw

end

/-- Two springs whose ends take turns in the table. -/
def braided : World Float :=
  (history perform
    [.addPoint ⟨0, 0⟩ 1 true, .addPoint ⟨10, 0⟩ 1 true, .addPoint ⟨0, 5⟩ 1 false,
      .addPoint ⟨10, 5⟩ 1 false, .addSpring (some 0) (some 2) 1 none 0.5,
      .addSpring (some 1) (some 3) 1 none 0.5] (World.new 0 Setting.default 1)).2

theorem follow_restrict_braided :
    let even : Nat → Bool := fun id => id % 2 == 0
    Reached braided ∧
      (∀ serial bond, braided.bond? serial = some bond → even bond.a = even bond.b) ∧
      ∀ dt force, ((braided.follow [.push 3 force, .step dt]).restrict even).particle? 2 =
        ((braided.restrict even).step dt).particle? 2 := by
  intro even
  have hw : Reached braided :=
    history_keeps Reached (fun e _ _ h => h.perform e) (.new 0 Setting.default 1)
  have hends : braided.links.toList.map (fun l => (l.a, l.b)) = [(0, 2), (1, 3)] := rfl
  have hA : ∀ serial bond, braided.bond? serial = some bond → even bond.a = even bond.b := by
    intro serial bond hb
    obtain ⟨l, hl, _, rfl⟩ := bond?_eq_some.mp hb
    have hmem := List.mem_map_of_mem (f := fun l => (l.a, l.b))
      (Array.mem_toList_iff.mpr (Array.mem_of_getElem? hl))
    rw [hends, List.mem_cons, List.mem_singleton] at hmem
    obtain ⟨ha, hb'⟩ | ⟨ha, hb'⟩ := hmem.imp Prod.mk.inj Prod.mk.inj <;>
      simp only [ha, hb'] <;> rfl
  exact ⟨hw, hA, fun dt force => (follow_restrict hw even hA).2 [.push 3 force, .step dt] 2⟩

end Arboretum.World
