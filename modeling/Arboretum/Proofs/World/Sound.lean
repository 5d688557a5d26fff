import Arboretum.World.Step
import Arboretum.World.Structure
import Mathlib.Data.List.Basic
import Mathlib.Data.List.Nodup
import Mathlib.Data.List.Perm.Basic

/-!
What holds of a world between its operations, and what each operation does to the points and springs
that holders read.
-/
namespace Arboretum

/-- What a spring alive holds together, and how. -/
structure Bond (α : Type) where
  a : Nat
  b : Nat
  stiffness : α
  damping : α
  rest : α

/-- Does a spring end at a point? -/
def Bond.meets {α : Type} (bond : Bond α) (id : Nat) : Bool := bond.a == id || bond.b == id

/-- The last entry fills the hole and its own place is given up. -/
theorem swapRemove_getElem? {β : Type} {xs : Array β} {i : Nat} (hi : i < xs.size) (j : Nat) :
    (swapRemove xs i)[j]? =
      if j = xs.size - 1 then none else if j = i then xs[xs.size - 1]? else xs[j]? := by
  unfold swapRemove
  grind

theorem swapRemove_size {β : Type} {xs : Array β} {i : Nat} (hi : i < xs.size) :
    (swapRemove xs i).size = xs.size - 1 := by
  unfold swapRemove
  grind

/-- Taking an entry out keeps a table in step with the places of what it lists. -/
theorem swapRemove_indexed {xs : Array Nat} {place : Nat → Option Nat}
    (h : ∀ i x, xs[i]? = some x ↔ place x = some i) {x i : Nat} (hx : place x = some i)
    (j y : Nat) :
    (swapRemove xs i)[j]? = some y ↔
      (if y = x then none else if xs[xs.size - 1]? = some y then some i else place y) =
        some j := by
  have hi := (h i x).mpr hx
  have hlt : i < xs.size := (Array.getElem?_eq_some_iff.mp hi).1
  rw [swapRemove_getElem? hlt]
  have hj := h j y
  have hl := h (xs.size - 1) y
  have hl' := h (xs.size - 1) x
  have hiy := h i y
  grind

/-- A table that is in step with the places of what it lists has nothing twice. -/
theorem indexed_nodup {xs : Array Nat} {place : Nat → Option Nat}
    (h : ∀ i x, xs[i]? = some x ↔ place x = some i) : xs.toList.Nodup := by
  rw [List.nodup_iff_getElem?_ne_getElem?]
  intro i j hij hj he
  obtain ⟨x, hx⟩ : ∃ x, xs[j]? = some x := ⟨_, Array.getElem?_eq_getElem (by simpa using hj)⟩
  have hi : xs[i]? = some x := by simpa [hx] using he
  have hsame : some i = some j := ((h i x).mp hi).symm.trans ((h j x).mp hx)
  cases hsame
  exact Nat.lt_irrefl i hij

theorem indexed_mem {xs : Array Nat} {place : Nat → Option Nat}
    (h : ∀ i x, xs[i]? = some x ↔ place x = some i) (x : Nat) :
    x ∈ xs.toList ↔ (place x).isSome := by
  rw [List.mem_iff_getElem?, Option.isSome_iff_exists]
  exact exists_congr fun i => by rw [Array.getElem?_toList]; exact h i x

/-- It is as long as there are numbers with a place. -/
theorem indexed_size {xs : Array Nat} {place : Nat → Option Nat}
    (h : ∀ i x, xs[i]? = some x ↔ place x = some i) {n : Nat}
    (hn : ∀ i x, place x = some i → x < n) :
    xs.size = (List.range n).countP fun x => (place x).isSome := by
  rw [← Array.length_toList, List.countP_eq_length_filter]
  refine ((List.perm_ext_iff_of_nodup (indexed_nodup h) ?_).mpr ?_).length_eq
  · exact List.nodup_range.filter _
  · intro x
    rw [indexed_mem h, List.mem_filter, List.mem_range]
    refine ⟨fun hx => ⟨?_, hx⟩, fun hx => hx.2⟩
    obtain ⟨i, hi⟩ := Option.isSome_iff_exists.mp hx
    exact hn i x hi

/-- A table that lost some of what it listed is that much shorter. -/
theorem indexed_split {xs xs' : Array Nat} {place place' : Nat → Option Nat}
    (h : ∀ i x, xs[i]? = some x ↔ place x = some i)
    (h' : ∀ i x, xs'[i]? = some x ↔ place' x = some i) {gone : List Nat} (hn : gone.Nodup)
    (hgone : ∀ x ∈ gone, (place x).isSome)
    (hrest : ∀ x, (place' x).isSome ↔ (place x).isSome ∧ x ∉ gone) :
    xs'.size + gone.length = xs.size := by
  have hperm : (xs'.toList ++ gone).Perm xs.toList := by
    refine (List.perm_ext_iff_of_nodup ?_ (indexed_nodup h)).mpr ?_
    · refine List.nodup_append.mpr ⟨indexed_nodup h', hn, ?_⟩
      rintro x hx _ hg rfl
      exact ((hrest x).mp ((indexed_mem h' x).mp hx)).2 hg
    · intro x
      rw [List.mem_append, indexed_mem h', indexed_mem h, hrest]
      by_cases hx : x ∈ gone
      · simp [hx, hgone x hx]
      · simp [hx]
  simpa using hperm.length_eq

namespace World

variable {α : Type}

/-- A spring, while it is alive. -/
def bond? (w : World α) (serial : Nat) : Option (Bond α) :=
  (w.links[serial]?).bind fun l =>
    l.place.map fun _ => ⟨l.a, l.b, l.stiffness, l.damping, l.rest⟩

/-- The tables of a world agree with one another. -/
structure Sound (w : World α) : Prop where
  room : w.count ≤ w.capacity
  seats : ∀ slot id, w.bodies[slot]? = some id ↔ w.slot? id = some slot
  places : ∀ place serial, w.springs[place]? = some serial ↔ w.place? serial = some place
  ends : ∀ serial bond, w.bond? serial = some bond →
    bond.a ≠ bond.b ∧ w.isAlive bond.a ∧ w.isAlive bond.b
  wired : ∀ wires, w.wires = some wires → wires = w.freshWires

theorem Sound.new [Scalar α] (tag : Nat) (setting : Setting α) (capacity : Nat) :
    Sound (World.new tag setting capacity) where
  room := Nat.zero_le _
  seats := by simp [World.new, slot?]
  places := by simp [World.new, place?]
  ends := by simp [World.new, bond?]
  wired := by simp [World.new]

theorem slot?_eq_some {w : World α} {id slot : Nat} :
    w.slot? id = some slot ↔ w.slots[id]? = some (some slot) := by
  simp [slot?, Option.join_eq_some_iff]

theorem slot?_lt {w : World α} {id slot : Nat} (h : w.slot? id = some slot) :
    id < w.slots.size := by
  rw [slot?_eq_some] at h
  exact (Array.getElem?_eq_some_iff.mp h).1

theorem isAlive_iff {w : World α} {id : Nat} :
    w.isAlive id = true ↔ ∃ slot, w.slot? id = some slot := by
  simp [isAlive, Option.isSome_iff_exists]

theorem bond?_isSome (w : World α) (serial : Nat) :
    (w.bond? serial).isSome = w.springIsAlive serial := by
  unfold bond? springIsAlive place?
  cases w.links[serial]? <;> simp

theorem bond?_eq_none {w : World α} {serial : Nat} :
    w.bond? serial = none ↔ w.place? serial = none := by
  have h := w.bond?_isSome serial
  unfold springIsAlive at h
  cases hb : w.bond? serial <;> cases hp : w.place? serial <;> simp_all

namespace Sound

variable {w : World α}

theorem slot_lt (h : Sound w) {id slot : Nat} (hs : w.slot? id = some slot) : slot < w.count :=
  (Array.getElem?_eq_some_iff.mp ((h.seats slot id).mpr hs)).1

theorem slot_lt_capacity (h : Sound w) {id slot : Nat} (hs : w.slot? id = some slot) :
    slot < w.rows.size :=
  Nat.lt_of_lt_of_le (h.slot_lt hs) h.room

/-- No two points share a slot. -/
theorem slot_unique (h : Sound w) {id id' slot : Nat} (hs : w.slot? id = some slot)
    (hs' : w.slot? id' = some slot) : id = id' := by
  have he := (h.seats slot id).mpr hs
  rw [(h.seats slot id').mpr hs'] at he
  exact (Option.some.inj he).symm

theorem place_lt (h : Sound w) {serial place : Nat} (hp : w.place? serial = some place) :
    place < w.springs.size :=
  (Array.getElem?_eq_some_iff.mp ((h.places place serial).mpr hp)).1

/-- A point alive has a row. -/
theorem particle?_isSome (h : Sound w) (id : Nat) : (w.particle? id).isSome = w.isAlive id := by
  unfold particle? isAlive
  cases hs : w.slot? id with
  | none => rfl
  | some slot => simp [h.slot_lt_capacity hs]

/-- A world with a point alive has room for one. -/
theorem capacity_pos (h : Sound w) {id : Nat} (ha : w.isAlive id) : 1 ≤ w.capacity := by
  obtain ⟨slot, hs⟩ := isAlive_iff.mp ha
  exact Nat.lt_of_le_of_lt (Nat.zero_le slot) (h.slot_lt_capacity hs)

theorem particle_of_alive (h : Sound w) {id : Nat} (ha : w.isAlive id) :
    ∃ p, w.particle id = .ok p := by
  obtain ⟨p, hp⟩ := Option.isSome_iff_exists.mp ((h.particle?_isSome id).trans ha)
  exact ⟨p, by simp [particle, hp]⟩

theorem particle?_of_gone (h : Sound w) {id : Nat} (hgone : w.isAlive id = false) :
    w.particle? id = none := by
  rw [← Option.isNone_iff_eq_none, ← Option.not_isSome, h.particle?_isSome, hgone]
  rfl

theorem particle_of_gone (h : Sound w) {id : Nat} (hgone : w.isAlive id = false) :
    w.particle id = .error (.removedPoint id) := by
  simp [particle, h.particle?_of_gone hgone]

end Sound

variable {w : World α}

theorem mem_bodies (h : Sound w) (id : Nat) : id ∈ w.bodies ↔ w.isAlive id = true := by
  rw [← Array.mem_toList_iff, indexed_mem h.seats]
  rfl

theorem mem_springs (h : Sound w) (serial : Nat) :
    serial ∈ w.springs ↔ w.springIsAlive serial = true := by
  rw [← Array.mem_toList_iff, indexed_mem h.places]
  rfl

theorem Sound.last_place (h : Sound w) {serial place : Nat}
    (hp : w.place? serial = some place) :
    ∃ last, w.springs[w.springs.size - 1]? = some last ∧
      w.place? last = some (w.springs.size - 1) := by
  have hlt := h.place_lt hp
  refine ⟨w.springs[w.springs.size - 1], by simp, ?_⟩
  exact (h.places _ _).mp (by simp)

/-- The last spring moves to the place that was given up. -/
theorem place?_unlink (h : Sound w) {serial place : Nat} (hp : w.place? serial = some place)
    (s : Nat) : (w.unlink serial place).place? s =
      if s = serial then none
      else if w.springs[w.springs.size - 1]? = some s then some place else w.place? s := by
  obtain ⟨last, hlast, hl⟩ := h.last_place hp
  simp only [place?, unlink, Array.back?_eq_getElem?, hlast, Array.getElem?_modify] at hl ⊢
  by_cases hs : s = serial
  · subst s
    cases w.links[serial]? <;> simp
  · by_cases ht : s = last
    · subst s
      cases hk : w.links[last]? <;> simp_all [Ne.symm hs]
    · simp [Ne.symm hs, Ne.symm ht, hs]

theorem bond?_unlink (h : Sound w) {serial place : Nat} (hp : w.place? serial = some place)
    (s : Nat) : (w.unlink serial place).bond? s = if s = serial then none else w.bond? s := by
  obtain ⟨last, hlast, hl⟩ := h.last_place hp
  simp only [bond?, place?, unlink, Array.back?_eq_getElem?, hlast, Array.getElem?_modify] at hl ⊢
  by_cases hs : s = serial
  · subst s
    cases w.links[serial]? <;> simp
  · by_cases ht : s = last
    · subst s
      cases hk : w.links[last]? <;> simp_all [Ne.symm hs]
    · simp [Ne.symm hs, Ne.symm ht, hs]

theorem Sound.unlink (h : Sound w) {serial place : Nat} (hp : w.place? serial = some place) :
    Sound (w.unlink serial place) where
  room := h.room
  seats := h.seats
  places := by
    intro q s
    rw [place?_unlink h hp]
    exact swapRemove_indexed h.places hp q s
  ends := by
    intro s bond hb
    rw [bond?_unlink h hp] at hb
    split at hb
    · cases hb
    · exact h.ends s bond hb
  wired := by
    intro wires hw
    cases hw

theorem Sound.last_slot (h : Sound w) {id slot : Nat} (hs : w.slot? id = some slot) :
    ∃ last row, w.bodies[w.bodies.size - 1]? = some last ∧
      w.slot? last = some (w.bodies.size - 1) ∧ w.rows[w.bodies.size - 1]? = some row := by
  have hlt := h.slot_lt hs
  have hroom := h.room
  unfold count capacity at *
  refine ⟨w.bodies[w.bodies.size - 1], w.rows[w.bodies.size - 1], by simp, ?_, by simp⟩
  exact (h.seats _ _).mp (by simp)

theorem slot?_unseat (h : Sound w) {id slot : Nat} (hs : w.slot? id = some slot) (x : Nat) :
    (w.unseat id slot).slot? x =
      if x = id then none
      else if w.bodies[w.bodies.size - 1]? = some x then some slot else w.slot? x := by
  obtain ⟨last, row, hlast, hl, hrow⟩ := h.last_slot hs
  have hlt := slot?_lt hl
  have hid := slot?_lt hs
  simp only [slot?, unseat, Array.back?_eq_getElem?, hlast, Array.getElem?_setIfInBounds,
    Array.size_setIfInBounds] at hl ⊢
  by_cases hx : x = id
  · subst x
    simp [hid]
  · by_cases ht : x = last
    · subst x
      simp [hx, Ne.symm hx, hlt]
    · simp [hx, Ne.symm hx, Ne.symm ht]

/-- The row of the last point moves to the slot that was given up. -/
theorem particle?_unseat (h : Sound w) {id slot : Nat} (hs : w.slot? id = some slot) (x : Nat) :
    (w.unseat id slot).particle? x = if x = id then none else w.particle? x := by
  obtain ⟨last, row, hlast, hl, hrow⟩ := h.last_slot hs
  have hcap := h.slot_lt_capacity hs
  unfold particle?
  rw [slot?_unseat h hs]
  by_cases hx : x = id
  · simp [hx]
  · simp only [hx, ↓reduceIte, hlast, Option.some.injEq, unseat, count, hrow]
    by_cases ht : last = x
    · subst x
      simp [hl, hrow, Array.getElem?_setIfInBounds, hcap]
    · rw [if_neg ht]
      cases hsx : w.slot? x with
      | none => rfl
      | some q =>
        have hq : slot ≠ q := fun he => hx (h.slot_unique hsx (he ▸ hs))
        simp [Array.getElem?_setIfInBounds, hq]

@[simp] theorem bond?_unseat (w : World α) (id slot s : Nat) :
    (w.unseat id slot).bond? s = w.bond? s := rfl

/-- A point that no spring ends at can leave. -/
theorem Sound.unseat (h : Sound w) {id slot : Nat} (hs : w.slot? id = some slot)
    (hf : ∀ s bond, w.bond? s = some bond → bond.meets id = false) :
    Sound (w.unseat id slot) where
  room := by
    have hlt := h.slot_lt hs
    have hroom := h.room
    obtain ⟨last, row, hlast, hl, hrow⟩ := h.last_slot hs
    unfold count capacity at *
    simp only [World.unseat, count, hrow, Array.size_setIfInBounds, swapRemove_size hlt]
    omega
  seats := by
    intro q x
    rw [slot?_unseat h hs]
    exact swapRemove_indexed h.seats hs q x
  places := h.places
  ends := by
    intro s bond hb
    obtain ⟨hne, ha, hb'⟩ := h.ends s bond hb
    have hm := hf s bond hb
    simp only [Bond.meets, Bool.or_eq_false_iff, beq_eq_false_iff_ne] at hm
    obtain ⟨ha', hb''⟩ := hm
    refine ⟨hne, ?_, ?_⟩
    · rw [isAlive_iff] at ha ⊢
      rw [slot?_unseat h hs, if_neg ha']
      split <;> simp [ha]
    · rw [isAlive_iff] at hb' ⊢
      rw [slot?_unseat h hs, if_neg hb'']
      split <;> simp [hb']
  wired := by
    intro wires hw
    cases hw

theorem bond?_eq_some {s : Nat} {bond : Bond α} : w.bond? s = some bond ↔
    ∃ l, w.links[s]? = some l ∧ l.place.isSome ∧
      bond = ⟨l.a, l.b, l.stiffness, l.damping, l.rest⟩ := by
  unfold bond?
  cases hl : w.links[s]? with
  | none => simp
  | some l =>
    cases hp : l.place with
    | none => simp [hp]
    | some place =>
      simp only [Option.bind_some, hp, Option.map_some, Option.some.injEq]
      exact ⟨fun he => ⟨l, rfl, by simp [hp], he.symm⟩, fun ⟨_, hl, _, he⟩ => hl ▸ he.symm⟩

/-- The springs that end at a point are those that are alive and do. -/
theorem mem_springsAt (h : Sound w) {id s : Nat} :
    s ∈ w.springsAt id ↔ ∃ bond, w.bond? s = some bond ∧ bond.meets id := by
  have hmem : s ∈ w.springs.toList ↔ ∃ place, w.place? s = some place := by
    simp only [← h.places, Array.mem_toList_iff, Array.mem_iff_getElem?]
  simp only [springsAt, List.mem_filter, hmem, place?]
  constructor
  · rintro ⟨⟨place, hp⟩, he⟩
    cases hl : w.links[s]? with
    | none => simp [hl] at hp
    | some l =>
      simp only [hl, Option.bind_some] at hp
      simp only [hl] at he
      exact ⟨_, bond?_eq_some.mpr ⟨l, hl, by simp [hp], rfl⟩, he⟩
  · intro state
    obtain ⟨bond, hb, he⟩ := state
    obtain ⟨l, hl, hp, rfl⟩ := bond?_eq_some.mp hb
    obtain ⟨place, hp⟩ := Option.isSome_iff_exists.mp hp
    exact ⟨⟨place, by simp [hl, hp]⟩, by simpa [hl, Bond.meets] using he⟩

/-- Taking out springs leaves the points and the other springs as they are. -/
theorem unlinkAll_spec (h : Sound w) (serials : List Nat) :
    Sound (w.unlinkAll serials) ∧
      (w.unlinkAll serials).slots = w.slots ∧ (w.unlinkAll serials).rows = w.rows ∧
      (w.unlinkAll serials).bodies = w.bodies ∧
      ∀ s, (w.unlinkAll serials).bond? s = if s ∈ serials then none else w.bond? s := by
  induction serials generalizing w with
  | nil => exact ⟨h, rfl, rfl, rfl, fun s => by simp [unlinkAll]⟩
  | cons serial rest ih =>
    simp only [unlinkAll, List.foldl_cons]
    cases hp : w.place? serial with
    | none =>
      obtain ⟨hs, h1, h2, h3, hb⟩ := ih h
      refine ⟨hs, h1, h2, h3, ?_⟩
      intro s
      refine (hb s).trans ?_
      by_cases he : s = serial
      · subst s
        simp [bond?_eq_none.mpr hp]
      · simp [he]
    | some place =>
      obtain ⟨hs, h1, h2, h3, hb⟩ := ih (h.unlink hp)
      refine ⟨hs, h1, h2, h3, ?_⟩
      intro s
      refine (hb s).trans ?_
      rw [bond?_unlink h hp]
      by_cases he : s = serial <;> simp [he]

/-- What is left when a point goes with every spring that ends at it. -/
def without (w : World α) (id slot : Nat) : World α := (w.unlinkAll (w.springsAt id)).unseat id slot

theorem bond?_without (h : Sound w) (id slot s : Nat) :
    (w.without id slot).bond? s = (w.bond? s).filter fun bond => !bond.meets id := by
  obtain ⟨_, _, _, _, hb⟩ := unlinkAll_spec h (w.springsAt id)
  rw [without, bond?_unseat, hb]
  cases hs : w.bond? s with
  | none => simp
  | some bond =>
    have hm : s ∈ w.springsAt id ↔ bond.meets id := by simp [mem_springsAt h, hs]
    cases he : bond.meets id <;> simp [hm, he, Option.filter]

/-! Numbers given out stay given out. -/

@[simp] theorem links_size_unlink (w : World α) (serial place : Nat) :
    (w.unlink serial place).links.size = w.links.size := by
  unfold unlink
  cases w.springs.back? <;> simp

theorem links_size_unlinkAll (w : World α) (serials : List Nat) :
    (w.unlinkAll serials).links.size = w.links.size := by
  induction serials generalizing w with
  | nil => rfl
  | cons serial rest ih =>
    simp only [unlinkAll, List.foldl_cons]
    cases w.place? serial with
    | none => exact ih w
    | some place => exact (ih _).trans (links_size_unlink w serial place)

@[simp] theorem slots_size_unseat (w : World α) (id slot : Nat) :
    (w.unseat id slot).slots.size = w.slots.size := by
  unfold unseat
  cases w.bodies.back? <;> simp

@[simp] theorem links_size_without (w : World α) (id slot : Nat) :
    (w.without id slot).links.size = w.links.size :=
  links_size_unlinkAll w (w.springsAt id)

theorem slots_size_without (h : Sound w) (id slot : Nat) :
    (w.without id slot).slots.size = w.slots.size := by
  obtain ⟨_, hslots, _⟩ := unlinkAll_spec h (w.springsAt id)
  rw [without, slots_size_unseat, hslots]

theorem tag_unlinkAll (w : World α) (serials : List Nat) : (w.unlinkAll serials).tag = w.tag := by
  induction serials generalizing w with
  | nil => rfl
  | cons serial rest ih =>
    simp only [unlinkAll, List.foldl_cons]
    cases w.place? serial <;> exact ih _

theorem setting_unlinkAll (w : World α) (serials : List Nat) :
    (w.unlinkAll serials).setting = w.setting := by
  induction serials generalizing w with
  | nil => rfl
  | cons serial rest ih =>
    simp only [unlinkAll, List.foldl_cons]
    cases w.place? serial <;> exact ih _

theorem tag_without (w : World α) (id slot : Nat) : (w.without id slot).tag = w.tag :=
  tag_unlinkAll w (w.springsAt id)

theorem rows_size_without (h : Sound w) (id slot : Nat) :
    (w.without id slot).rows.size = w.rows.size := by
  obtain ⟨_, _, hrows, _⟩ := unlinkAll_spec h (w.springsAt id)
  simp only [without, unseat, hrows]
  cases w.rows[(w.unlinkAll (w.springsAt id)).count - 1]? <;> simp

section
variable {id slot : Nat}

theorem slot?_without (h : Sound w) (hs : w.slot? id = some slot) (x : Nat) :
    (w.without id slot).slot? x =
      if x = id then none
      else if w.bodies[w.bodies.size - 1]? = some x then some slot else w.slot? x := by
  obtain ⟨hu, hslots, hrows, hbodies, hb⟩ := unlinkAll_spec h (w.springsAt id)
  have hs' : (w.unlinkAll (w.springsAt id)).slot? id = some slot := by
    rw [slot?, hslots]; exact hs
  rw [without, slot?_unseat hu hs', hbodies]
  simp only [slot?, hslots]

theorem particle?_without (h : Sound w) (hs : w.slot? id = some slot) (x : Nat) :
    (w.without id slot).particle? x = if x = id then none else w.particle? x := by
  obtain ⟨hu, hslots, hrows, hbodies, hb⟩ := unlinkAll_spec h (w.springsAt id)
  have hs' : (w.unlinkAll (w.springsAt id)).slot? id = some slot := by
    rw [slot?, hslots]; exact hs
  rw [without, particle?_unseat hu hs']
  simp only [particle?, slot?, hslots, hrows]

theorem Sound.without (h : Sound w) (hs : w.slot? id = some slot) :
    Sound (w.without id slot) := by
  obtain ⟨hu, hslots, hrows, hbodies, hb⟩ := unlinkAll_spec h (w.springsAt id)
  apply hu.unseat
  · rw [slot?, hslots]; exact hs
  · intro s bond hbond
    rw [hb] at hbond
    split at hbond
    · cases hbond
    · rename_i hn
      rw [mem_springsAt h] at hn
      exact Bool.eq_false_iff.mpr fun he => hn ⟨bond, hbond, he⟩

end
theorem place?_link (w : World α) (a b : Nat) (stiffness damping rest : α) (s : Nat) :
    (w.link a b stiffness damping rest).place? s =
      if s = w.links.size then some w.springs.size else w.place? s := by
  by_cases hs : s = w.links.size <;> simp [place?, link, Array.getElem?_push, hs]

theorem bond?_link (w : World α) (a b : Nat) (stiffness damping rest : α) (s : Nat) :
    (w.link a b stiffness damping rest).bond? s =
      if s = w.links.size then some ⟨a, b, stiffness, damping, rest⟩ else w.bond? s := by
  by_cases hs : s = w.links.size <;> simp [bond?, link, Array.getElem?_push, hs]

theorem place?_lt {s place : Nat} (hp : w.place? s = some place) : s < w.links.size := by
  unfold place? at hp
  cases hl : w.links[s]? with
  | none => simp [hl] at hp
  | some l => exact (Array.getElem?_eq_some_iff.mp hl).1

theorem bond?_lt {s : Nat} {bond : Bond α} (hb : w.bond? s = some bond) : s < w.links.size := by
  obtain ⟨l, hl, _, _⟩ := bond?_eq_some.mp hb
  exact (Array.getElem?_eq_some_iff.mp hl).1

theorem Sound.link (h : Sound w) {a b : Nat} (hne : a ≠ b) (ha : w.isAlive a) (hb : w.isAlive b)
    (stiffness damping rest : α) : Sound (w.link a b stiffness damping rest) where
  room := h.room
  seats := h.seats
  places := by
    intro q s
    rw [place?_link]
    change (w.springs.push w.links.size)[q]? = some s ↔ _
    rw [Array.getElem?_push]
    have hq := h.places q s
    have hlt := @place?_lt _ w w.links.size q
    have hlt' := @Sound.place_lt _ w h s q
    grind
  ends := by
    intro s bond hbond
    rw [bond?_link] at hbond
    split at hbond
    · cases hbond
      exact ⟨hne, ha, hb⟩
    · exact h.ends s bond hbond
  wired := by
    intro wires hw
    cases hw

@[simp] theorem slot?_double (w : World α) (id : Nat) : w.double.slot? id = w.slot? id := rfl

@[simp] theorem double_slots (w : World α) : w.double.slots = w.slots := rfl

theorem particle?_double (h : Sound w) (id : Nat) : w.double.particle? id = w.particle? id := by
  unfold particle?
  rw [slot?_double]
  cases hs : w.slot? id with
  | none => rfl
  | some slot => exact Array.getElem?_append_left (h.slot_lt_capacity hs)

theorem Sound.double (h : Sound w) : Sound w.double :=
  ⟨by simpa [count, capacity, World.double] using Nat.le_add_right_of_le h.room,
    h.seats, h.places, h.ends, h.wired⟩

theorem slot?_seat (w : World α) (p : Particle α) (id : Nat) :
    (w.seat p).slot? id = if id = w.slots.size then some w.count else w.slot? id := by
  by_cases hi : id = w.slots.size <;> simp [slot?, seat, Array.getElem?_push, hi]

@[simp] theorem bond?_seat (w : World α) (p : Particle α) (s : Nat) :
    (w.seat p).bond? s = w.bond? s := rfl

/-- A new point has the row that it was made with, whatever its slot held before. -/
theorem particle?_seat (h : Sound w) (hroom : w.count < w.capacity) (p : Particle α) (id : Nat) :
    (w.seat p).particle? id = if id = w.slots.size then some p else w.particle? id := by
  unfold particle?
  rw [slot?_seat]
  split
  · simp [seat, Array.getElem?_setIfInBounds, capacity] at hroom ⊢
    exact hroom
  · cases hs : w.slot? id with
    | none => rfl
    | some slot =>
      have hlt := h.slot_lt hs
      simp [seat, Array.getElem?_setIfInBounds, Nat.ne_of_gt hlt]

/-- The springs as the solver sees them depend on the slots of the points alive only. -/
theorem freshWires_congr (h : Sound w) {w' : World α} (hs : w'.springs = w.springs)
    (hl : w'.links = w.links) (hslot : ∀ id, w.isAlive id → w'.slot? id = w.slot? id) :
    w'.freshWires = w.freshWires := by
  unfold freshWires
  rw [hs, hl]
  apply List.filterMap_congr
  intro serial hm
  obtain ⟨place, hp⟩ := Array.mem_iff_getElem?.mp (Array.mem_toList_iff.mp hm)
  have hp := (h.places _ _).mp hp
  unfold place? at hp
  cases hk : w.links[serial]? with
  | none => rfl
  | some l =>
    simp only [hk, Option.bind_some] at hp
    obtain ⟨_, ha, hb⟩ := h.ends serial _ (bond?_eq_some.mpr ⟨l, hk, by simp [hp], rfl⟩)
    simp [hslot l.a ha, hslot l.b hb]

theorem Sound.seat (h : Sound w) (hroom : w.count < w.capacity) (p : Particle α) :
    Sound (w.seat p) where
  room := by simpa [count, capacity, World.seat, Nat.succ_le_iff] using hroom
  seats := by
    intro q x
    rw [slot?_seat]
    change (w.bodies.push w.slots.size)[q]? = some x ↔ _
    rw [Array.getElem?_push]
    have hq := h.seats q x
    have hlt := @slot?_lt _ w w.slots.size q
    have hlt' := @Sound.slot_lt _ w h x q
    unfold count at *
    grind
  places := h.places
  ends := by
    intro s bond hb
    obtain ⟨hne, ha, hb'⟩ := h.ends s bond hb
    refine ⟨hne, ?_, ?_⟩
    · rw [isAlive_iff] at ha ⊢
      rw [slot?_seat]
      split <;> simp [ha]
    · rw [isAlive_iff] at hb' ⊢
      rw [slot?_seat]
      split <;> simp [hb']
  wired := by
    intro wires hw
    rw [h.wired wires hw]
    refine (@freshWires_congr _ w h (w.seat p) rfl rfl ?_).symm
    intro id ha
    obtain ⟨slot, hs⟩ := isAlive_iff.mp ha
    rw [slot?_seat, if_neg (Nat.ne_of_lt (slot?_lt hs))]

/-- Changes the row of a slot. -/
def touch (w : World α) (slot : Nat) (f : Particle α → Particle α) : World α :=
  { w with rows := w.rows.modify slot f }

theorem Sound.with_rows (h : Sound w) {rows : Array (Particle α)}
    (hr : rows.size = w.rows.size) : Sound { w with rows := rows } :=
  ⟨Nat.le_trans h.room (Nat.le_of_eq hr.symm), h.seats, h.places, h.ends, h.wired⟩

theorem Sound.touch (h : Sound w) (slot : Nat) (f : Particle α → Particle α) :
    Sound (w.touch slot f) :=
  h.with_rows Array.size_modify

theorem particle?_touch (w : World α) (slot : Nat) (f : Particle α → Particle α) (id : Nat) :
    (w.touch slot f).particle? id =
      if w.slot? id = some slot then (w.particle? id).map f else w.particle? id := by
  unfold particle?
  change (w.slot? id).bind ((w.rows.modify slot f)[·]?) = _
  cases hs : w.slot? id with
  | none => simp
  | some q =>
    simp only [Option.bind_some, Array.getElem?_modify, Option.some.injEq]
    by_cases hq : slot = q
    · simp [hq]
    · rw [if_neg hq, if_neg (Ne.symm hq)]

end World
end Arboretum
