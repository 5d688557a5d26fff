import Arboretum.Proofs.World.Edit

/-!
What no motion changes: whether a point is pinned, and what a spring was made with. The latter is
kept even when the spring is gone.
-/
namespace Arboretum.World

variable {α : Type} {w w' : World α} {fresh : Particle α → Prop}

/-- Whether a point is pinned, while it is alive. -/
def pinned? (w : World α) (id : Nat) : Option Bool := (w.particle? id).map (·.pinned)

/-- What a spring was made with, also when it is gone. -/
def made? (w : World α) (serial : Nat) : Option (Bond α) :=
  (w.links[serial]?).map fun l => ⟨l.a, l.b, l.stiffness, l.damping, l.rest⟩

/-! ### Points -/

theorem pinned?_isSome (h : Sound w) (id : Nat) : (w.pinned? id).isSome = w.isAlive id := by
  rw [pinned?, Option.isSome_map, h.particle?_isSome]

theorem pinned?_of_particle {id : Nat} {p : Particle α} (h : w.particle id = .ok p) :
    w.pinned? id = some p.pinned := by
  unfold particle at h
  split at h
  · rename_i hp
    cases h
    rw [pinned?, hp, Option.map_some]
  · cases h

theorem pinned?_roomy (h : Sound w) (id : Nat) : w.roomy.pinned? id = w.pinned? id := by
  rw [pinned?, particle?_roomy h, pinned?]

theorem pinned?_seat (h : Sound w) (hroom : w.count < w.capacity) (p : Particle α) (id : Nat) :
    (w.seat p).pinned? id = if id = w.slots.size then some p.pinned else w.pinned? id := by
  rw [pinned?, particle?_seat h hroom]
  split
  · rfl
  · rfl

/-- A slot is pinned for the point that has it. -/
theorem particle?_pinSlot (h : Sound w) {id slot : Nat} (hs : w.slot? id = some slot) (x : Nat) :
    (w.pinSlot slot).particle? x =
      (w.particle? x).map fun p =>
        if x = id then { p with pinned := true, previous := p.position } else p := by
  rw [pinSlot_eq_touch, particle?_touch]
  by_cases hx : x = id
  · subst x
    simp only [if_pos hs, if_true]
  · have hne : w.slot? x ≠ some slot := fun hxs => hx (h.slot_unique hxs hs)
    simp only [if_neg hne, if_neg hx, Option.map_id']

theorem pinned?_pinSlot (h : Sound w) {id slot : Nat} (hs : w.slot? id = some slot) (x : Nat) :
    (w.pinSlot slot).pinned? x = if x = id then some true else w.pinned? x := by
  rw [pinned?, particle?_pinSlot h hs]
  by_cases hx : x = id
  · subst x
    have halive := (h.particle?_isSome id).trans (isAlive_iff.mpr ⟨slot, hs⟩)
    obtain ⟨p, hp⟩ := Option.isSome_iff_exists.mp halive
    simp [hp]
  · simp only [if_neg hx, Option.map_id', pinned?]

theorem Moved.pinned? (h : Moved w w') (id : Nat) : w'.pinned? id = w.pinned? id := by
  have hnature := congrArg (Option.map Prod.snd) (h.nature id)
  rw [Option.map_map, Option.map_map] at hnature
  exact hnature

/-! ### Springs -/

theorem made?_lt {serial : Nat} {bond : Bond α} (h : w.made? serial = some bond) :
    serial < w.links.size := by
  obtain ⟨l, hl, _⟩ := Option.map_eq_some_iff.mp h
  exact (Array.getElem?_eq_some_iff.mp hl).1

theorem made?_link (w : World α) (a b : Nat) (stiffness damping rest : α) (s : Nat) :
    (w.link a b stiffness damping rest).made? s =
      if s = w.links.size then some ⟨a, b, stiffness, damping, rest⟩ else w.made? s := by
  by_cases hs : s = w.links.size <;> simp [made?, link, Array.getElem?_push, hs]

/-- A spring that is taken out has its place changed, and so has the one that moves there. -/
theorem made?_unlink (w : World α) (serial place s : Nat) :
    (w.unlink serial place).made? s = w.made? s := by
  have hplace (links : Array (Link α)) (i : Nat) (place : Option Nat) :
      ((links.modify i fun l => { l with place })[s]?).map
          (fun l => (⟨l.a, l.b, l.stiffness, l.damping, l.rest⟩ : Bond α)) =
        (links[s]?).map fun l => ⟨l.a, l.b, l.stiffness, l.damping, l.rest⟩ := by
    rw [Array.getElem?_modify]
    split
    · rw [Option.map_map]
      rfl
    · rfl
  unfold made? unlink
  dsimp only
  rw [hplace]
  cases w.springs.back? with
  | none => rfl
  | some last => exact hplace _ _ _

theorem made?_without (w : World α) (id slot s : Nat) :
    (w.without id slot).made? s = w.made? s := by
  have hall (serials : List Nat) (w : World α) : (w.unlinkAll serials).made? s = w.made? s := by
    induction serials generalizing w with
    | nil => rfl
    | cons serial rest ih =>
      simp only [unlinkAll, List.foldl_cons]
      cases w.place? serial with
      | none => exact ih w
      | some place => exact (ih _).trans (made?_unlink w serial place s)
  exact hall (w.springsAt id) w

theorem Moved.made? (h : Moved w w') (serial : Nat) : w'.made? serial = w.made? serial := by
  rw [World.made?, h.links, World.made?]

theorem made?_roomy (w : World α) (serial : Nat) : w.roomy.made? serial = w.made? serial := by
  unfold roomy
  split
  · rfl
  · rfl

theorem Change.made? (h : Change fresh w w') {serial : Nat} (hlt : serial < w.links.size) :
    w'.made? serial = w.made? serial := by
  cases h with
  | double | seat | touch => rfl
  | without id slot _ => exact made?_without w id slot serial
  | link a b _ _ _ stiffness damping rest => rw [made?_link, if_neg (Nat.ne_of_lt hlt)]
  | unlink gone place _ => exact made?_unlink w gone place serial
  | moved hm => exact hm.made? serial

/-- Whatever happens in a world, what a spring was made with is kept. -/
theorem Changes.made? (h : Changes fresh w w') (hs : Sound w) {serial : Nat}
    (hlt : serial < w.links.size) : w'.made? serial = w.made? serial := by
  induction h with
  | none => rfl
  | more hc hlast ih =>
    exact (hlast.made? (Nat.lt_of_lt_of_le hlt (hc.onward hs).springs)).trans ih

end Arboretum.World
