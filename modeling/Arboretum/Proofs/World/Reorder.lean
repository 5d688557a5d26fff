import Arboretum.Proofs.World.Nudges
import Arboretum.Proofs.World.Restrict
import Mathlib.Logic.Equiv.Basic

/-!
Two worlds that hold the same points and springs in different orders. In exact arithmetic nothing
that happens to them depends on the slots of the points, on the list of the springs, or on which end
of a spring comes first.
-/
namespace Arboretum

/-! ### Springs seen from their other end -/

section
variable {α : Type}

def Wire.flip (w : Wire α) : Wire α := { w with a := w.b, b := w.a }

def Shares.flip (s : Shares α) : Shares α := ⟨s.b, s.a⟩

def Nudge.flip (n : Nudge α) : Nudge α := ⟨n.b, n.a, n.shiftB, n.shiftA⟩

end

theorem Nudge.on_flip (n : Nudge ℝ) (slot : Nat) : n.flip.on slot = n.on slot := add_comm _ _

theorem Vec.norm_neg (a : Vec ℝ) : (-a).norm = a.norm := by
  simp only [norm, dot, neg_x, neg_y, neg_mul_neg]

theorem Shares.between_comm (p q : Particle ℝ) :
    Shares.between q p = (Shares.between p q).flip := by
  simp only [between, add_comm q.yield p.yield]
  split <;> rfl

theorem Wire.correct_flip (w : Wire ℝ) (p q : Particle ℝ) :
    w.flip.correct q p = -w.correct p q := by
  have hdelta : p.position - q.position = -(q.position - p.position) := (neg_sub _ _).symm
  simp only [correct, flip, hdelta, Vec.norm_neg, Vec.neg_scale]

theorem Wire.impulse_flip (w : Wire ℝ) (p q : Particle ℝ) :
    w.flip.impulse q p = -w.impulse p q := by
  have hdelta : p.position - q.position = -(q.position - p.position) := (neg_sub _ _).symm
  have hrelative : (p.position - p.previous) - (q.position - q.previous) =
      -((q.position - q.previous) - (p.position - p.previous)) := (neg_sub _ _).symm
  have hdivide : ∀ (a : Vec ℝ) (k : ℝ), (-a).divideBy k = -a.divideBy k := by
    intro a k
    ext <;> exact neg_div _ _
  have hdot : ∀ a b : Vec ℝ, (-a).dot (-b) = a.dot b := by
    intro a b
    simp only [Vec.dot, Vec.neg_x, Vec.neg_y, neg_mul_neg]
  simp only [impulse, flip, hdelta, hrelative, Vec.norm_neg, hdivide, hdot, Vec.neg_scale]

section
variable (rows : Array (Particle ℝ)) (w : Wire ℝ) (s : Shares ℝ)

theorem Wire.shares_flip : w.flip.shares rows = (w.shares rows).flip := Shares.between_comm _ _

theorem Wire.relax_flip : w.flip.relax rows s.flip = (w.relax rows s).flip := by
  have hcorrect := w.correct_flip (row rows w.a) (row rows w.b)
  simp only [flip] at hcorrect
  simp only [relax, flip, Shares.flip, Nudge.flip, hcorrect, neg_neg]

theorem Wire.damp_flip : w.flip.damp rows s.flip = (w.damp rows s).flip := by
  have himpulse := w.impulse_flip (row rows w.a) (row rows w.b)
  simp only [flip] at himpulse
  simp only [damp, flip, Shares.flip, Nudge.flip, himpulse, neg_neg]

end

/-! ### Lists in any order -/

/-- Two lists of which each entry of one goes with an entry of the other, in any order. -/
def Shuffled {β γ : Type} (same : β → γ → Prop) (xs : List β) (ys : List γ) : Prop :=
  ∃ zs, List.Forall₂ same xs zs ∧ zs.Perm ys

namespace Shuffled

variable {β β' γ γ' ι : Type} {same : β → γ → Prop} {xs : List β} {ys : List γ}

theorem map {same' : β' → γ' → Prop} {f : β → β'} {g : γ → γ'} (h : Shuffled same xs ys)
    (hsame : ∀ x y, same x y → same' (f x) (g y)) : Shuffled same' (xs.map f) (ys.map g) := by
  obtain ⟨zs, hzs, hperm⟩ := h
  refine ⟨zs.map g, ?_, hperm.map g⟩
  rw [List.forall₂_map_left_iff, List.forall₂_map_right_iff]
  exact hzs.imp hsame

theorem sum_eq {M : Type} [AddCommMonoid M] {f : β → M} {g : γ → M} (h : Shuffled same xs ys)
    (hsame : ∀ x y, same x y → f x = g y) : (xs.map f).sum = (ys.map g).sum := by
  obtain ⟨zs, hzs, hperm⟩ := h
  have hmap : xs.map f = zs.map g := by
    rw [← List.forall₂_eq_eq_eq, List.forall₂_map_left_iff, List.forall₂_map_right_iff]
    exact hzs.imp hsame
  rw [hmap, (hperm.map g).sum_eq]

/-- Reading entries that all can be read, through two tables. -/
theorem filterMap {f : ι → Option β} {g : ι → Option γ} {is js : List ι} {τ : ι → ι}
    (hperm : (is.map τ).Perm js)
    (h : ∀ i ∈ is, ∃ x y, f i = some x ∧ g (τ i) = some y ∧ same x y) :
    Shuffled same (is.filterMap f) (js.filterMap g) := by
  refine ⟨(is.map τ).filterMap g, ?_, hperm.filterMap g⟩
  clear hperm
  induction is with
  | nil => exact .nil
  | cons i rest ih =>
    obtain ⟨x, y, hf, hg, hxy⟩ := h i List.mem_cons_self
    rw [List.map_cons, List.filterMap_cons_some hf, List.filterMap_cons_some hg]
    exact .cons hxy (ih fun j hj => h j (List.mem_cons_of_mem i hj))

end Shuffled

/-! ### Two tables with rows in different slots -/

/-- The same spring between twin slots, from either end. -/
def Wire.Matches {α : Type} (twin : Nat → Nat → Prop) (w v : Wire α) : Prop :=
  w.Alike twin v ∨ w.flip.Alike twin v

/-- Springs with their shares, from either end. -/
def SharesMatch (twin : Nat → Nat → Prop) (x y : Wire ℝ × Shares ℝ) : Prop :=
  SharesAlike twin x y ∨ SharesAlike twin (x.1.flip, x.2.flip) y

section
variable {twin : Nat → Nat → Prop} {rows rows' : Array (Particle ℝ)} {i j : Nat}

theorem Nudge.Alike.on (hone : OneToOne twin) (hij : twin i j) {n m : Nudge ℝ}
    (h : n.Alike twin m) : n.on i = m.on j := by
  have hslot : ∀ {a b}, twin a b → (a = i ↔ b = j) := fun hab =>
    ⟨fun he => hone.left (he ▸ hab) hij, fun he => hone.right (he ▸ hab) hij⟩
  simp only [Nudge.on, hslot h.a, hslot h.b, h.shiftA, h.shiftB]

/-- Nudges of matching springs move twin slots alike, whatever the order of the springs. -/
theorem agree_nudgeAll {move : Vec ℝ → Particle ℝ → Particle ℝ} (hmove : Adds move)
    (hone : OneToOne twin) (h : Agree twin rows rows')
    {nudge : Array (Particle ℝ) → Wire ℝ → Shares ℝ → Nudge ℝ}
    (halike : ∀ w v s, w.Alike twin v → (nudge rows w s).Alike twin (nudge rows' v s))
    (hflip : ∀ w s, nudge rows w.flip s.flip = (nudge rows w s).flip)
    {ws vs : List (Wire ℝ × Shares ℝ)} (hw : Shuffled (SharesMatch twin) ws vs) :
    Agree twin (nudgeAll move (ws.map fun (w, s) => nudge rows w s) rows)
      (nudgeAll move (vs.map fun (v, s) => nudge rows' v s) rows') := by
  intro i j hij
  have hsum : displacement (ws.map fun (w, s) => nudge rows w s) i =
      displacement (vs.map fun (v, s) => nudge rows' v s) j := by
    have hon : Shuffled (fun n m : Nudge ℝ => n.on i = m.on j)
        (ws.map fun (w, s) => nudge rows w s) (vs.map fun (v, s) => nudge rows' v s) := by
      refine hw.map ?_
      rintro ⟨w, s⟩ ⟨v, t⟩ (⟨hal, hs⟩ | ⟨hal, hs⟩)
      · cases hs
        exact (halike w v s hal).on hone hij
      · cases hs
        have hflipped := (halike w.flip v s.flip hal).on hone hij
        rwa [hflip, Nudge.on_flip] at hflipped
    exact hon.sum_eq fun _ _ hnm => hnm
  rw [getElem?_nudgeAll hmove, getElem?_nudgeAll hmove, h i j hij, hsum]

variable {ws vs : List (Wire ℝ × Shares ℝ)}

theorem agree_relaxPass (hone : OneToOne twin) (h : Agree twin rows rows')
    (hw : Shuffled (SharesMatch twin) ws vs) :
    Agree twin (relaxPass ws rows) (relaxPass vs rows') :=
  agree_nudgeAll adds_shift hone h (fun _ _ s hal => hal.relax h s) (Wire.relax_flip rows) hw

theorem agree_dampPass (hone : OneToOne twin) (h : Agree twin rows rows')
    (hw : Shuffled (SharesMatch twin) ws vs) :
    Agree twin (dampPass ws rows) (dampPass vs rows') :=
  agree_nudgeAll adds_shiftPrevious hone h (fun _ _ s hal => hal.damp h s) (Wire.damp_flip rows) hw

/-- Matching springs act on twin slots alike, whatever their order. -/
theorem agree_relaxSprings (hone : OneToOne twin) (h : Agree twin rows rows')
    (passes : Nat) {ws vs : List (Wire ℝ)} (hw : Shuffled (Wire.Matches twin) ws vs) :
    Agree twin (relaxSprings passes ws rows) (relaxSprings passes vs rows') := by
  have hshares : Shuffled (SharesMatch twin)
      (ws.map fun w => (w, w.shares rows)) (vs.map fun v => (v, v.shares rows')) := by
    refine hw.map fun w v hwv => ?_
    cases hwv with
    | inl hal => exact .inl ⟨hal, hal.shares h⟩
    | inr hal => exact .inr ⟨hal, (w.shares_flip rows).symm.trans (hal.shares h)⟩
  refine agree_dampPass hone ?_ hshares
  induction passes with
  | zero => exact h
  | succ n ih => exact agree_relaxPass hone ih hshares

end

/-! ### Two worlds -/

/-- A spring between other points. -/
def Bond.rename {α : Type} (σ : Nat → Nat) (bond : Bond α) : Bond α :=
  { bond with a := σ bond.a, b := σ bond.b }

/-- A spring with its ends exchanged. -/
def Bond.flip {α : Type} (bond : Bond α) : Bond α := { bond with a := bond.b, b := bond.a }

/-- What happens to the points that correspond. -/
def Motion.rename {α : Type} (σ : Nat → Nat) : Motion α → Motion α
  | step dt => .step dt
  | push id force => .push (σ id) force

namespace World

variable {σ τ : Equiv.Perm Nat} {w w' v v' : World ℝ}

/-- The same points and springs under other numbers, each spring with its ends in one order or the
other. Nothing is said of slots and places. -/
structure Reordered (σ τ : Equiv.Perm Nat) (w v : World ℝ) : Prop where
  setting : v.setting = w.setting
  particles : ∀ id, v.particle? (σ id) = w.particle? id
  bonds : ∀ serial, v.bond? (τ serial) = (w.bond? serial).map (·.rename σ) ∨
    v.bond? (τ serial) = (w.bond? serial).map (·.flip.rename σ)

/-- A point corresponds to the one that its number goes to. -/
def Goes (σ : Equiv.Perm Nat) (id id' : Nat) : Prop := σ id = id'

theorem goes_oneToOne (σ : Equiv.Perm Nat) : OneToOne (Goes σ) where
  left h h' := h.symm.trans h'
  right h h' := σ.injective (h.trans h'.symm)

/-- Corresponding points in two worlds, with matching springs. -/
structure Counterpart (σ : Equiv.Perm Nat) (w v : World ℝ) : Prop
    extends Corresponds (Goes σ) w v where
  wires : Shuffled (Wire.Matches (Seats (Goes σ) w v)) w.freshWires v.freshWires

theorem Reordered.corresponds (h : Reordered σ τ w v) (hw : Sound w) (hv : Sound v) :
    Corresponds (Goes σ) w v where
  whole := hw
  part := hv
  setting := h.setting
  particles id _ hid := hid ▸ h.particles id

/-- The springs alive of one world are those of the other under their numbers there. -/
theorem Reordered.springs (h : Reordered σ τ w v) (hw : Sound w) (hv : Sound v) :
    (w.springs.toList.map τ).Perm v.springs.toList := by
  have hnodup : (w.springs.toList.map τ).Nodup :=
    (List.nodup_map_iff τ.injective).mpr (indexed_nodup hw.places)
  have halive : ∀ serial, v.springIsAlive (τ serial) = w.springIsAlive serial := by
    intro serial
    rw [← bond?_isSome, ← bond?_isSome]
    rcases h.bonds serial with hb | hb <;> rw [hb, Option.isSome_map]
  rw [List.perm_ext_iff_of_nodup hnodup (indexed_nodup hv.places)]
  intro serial
  rw [List.mem_map, Array.mem_toList_iff, mem_springs hv]
  constructor
  · rintro ⟨s, hs, rfl⟩
    rw [halive, ← mem_springs hw, ← Array.mem_toList_iff]
    exact hs
  · intro hs
    refine ⟨τ.symm serial, ?_, τ.apply_symm_apply serial⟩
    rw [Array.mem_toList_iff, mem_springs hw, ← halive, τ.apply_symm_apply]
    exact hs

/-- The solver sees matching springs in the two worlds. -/
theorem Reordered.counterpart (h : Reordered σ τ w v) (hw : Sound w) (hv : Sound v) :
    Counterpart σ w v := by
  have hc := h.corresponds hw hv
  refine ⟨hc, ?_⟩
  rw [freshWires_eq, freshWires_eq]
  refine .filterMap (h.springs hw hv) fun serial hs => ?_
  obtain ⟨bond, a, b, hb, ha, hb', hwire⟩ := hw.wire? (Array.mem_toList_iff.mp hs)
  have hseat : ∀ {id slot}, w.slot? id = some slot →
      ∃ slot', v.slot? (σ id) = some slot' ∧ Seats (Goes σ) w v slot slot' := by
    intro id slot hslot
    have halive : v.isAlive (σ id) := (hc.alive rfl).trans (isAlive_iff.mpr ⟨slot, hslot⟩)
    obtain ⟨slot', hslot'⟩ := isAlive_iff.mp halive
    exact ⟨slot', hslot', id, σ id, rfl, hslot, hslot'⟩
  obtain ⟨a', ha', htwinA⟩ := hseat ha
  obtain ⟨b', hb'', htwinB⟩ := hseat hb'
  rcases h.bonds serial with hbond | hbond
  · rw [hb] at hbond
    exact ⟨_, _, hwire, wire?_of_bond? hbond ha' hb'', .inl ⟨htwinA, htwinB, rfl, rfl, rfl⟩⟩
  · rw [hb] at hbond
    exact ⟨_, _, hwire, wire?_of_bond? hbond hb'' ha', .inr ⟨htwinB, htwinA, rfl, rfl, rfl⟩⟩

namespace Counterpart

/-- As long as the points correspond, the springs match as they did. -/
theorem of_corresponds (h : Counterpart σ w v) (hw : Moved w w') (hv : Moved v v')
    (hc : Corresponds (Goes σ) w' v') : Counterpart σ w' v' where
  toCorresponds := hc
  wires := by
    rw [Corresponds.seats hw hv, hw.freshWires, hv.freshWires]
    exact h.wires

theorem relax (h : Counterpart σ w v) : Corresponds (Goes σ) w.relax v.relax := by
  have hone := h.oneToOne (goes_oneToOne σ)
  refine h.of_agree (moved_relax w) (moved_relax v) ?_
  rw [rows_relax h.whole, rows_relax h.part, h.setting]
  exact agree_relaxSprings hone h.agree _ h.wires

theorem act (h : Counterpart σ w v) (m : Motion ℝ) :
    Counterpart σ (m.act w) ((m.rename σ).act v) := by
  have hw := moved_act h.whole m
  have hv := moved_act h.part (m.rename σ)
  apply h.of_corresponds hw hv
  cases m with
  | step dt =>
    apply h.step
    intro w' v' hw hv hc
    exact (h.of_corresponds hw hv hc).relax
  | push id force => exact h.pushed (goes_oneToOne σ) rfl force

theorem follow (h : Counterpart σ w v) (motions : List (Motion ℝ)) :
    Counterpart σ (w.follow motions) (v.follow (motions.map (·.rename σ))) := by
  induction motions generalizing w v with
  | nil => exact h
  | cons m rest ih => exact ih (h.act m)

end Counterpart

/-- Whatever the slots of the points, the order of the springs and that of their ends, points that
correspond are the same after any steps and corresponding forces. -/
theorem follow_reordered (hw : Reached w) (hv : Reached v) (h : Reordered σ τ w v)
    (motions : List (Motion ℝ)) (id : Nat) :
    (v.follow (motions.map (·.rename σ))).particle? (σ id) = (w.follow motions).particle? id :=
  ((h.counterpart hw.sound hv.sound).follow motions).particles id (σ id) rfl

/-- A pinned point between two free ones. -/
noncomputable def forward : World ℝ :=
  (history perform
    [.addPoint ⟨0, 0⟩ 1 false, .addPoint ⟨8, 0⟩ 2 true, .addPoint ⟨8, 15⟩ 7 false,
      .addSpring (some 0) (some 1) 1 (some 11) defaultDamping,
      .addSpring (some 1) (some 2) 1 (some 9) defaultDamping]
    (World.new 0 Setting.default 1)).2

/-- The same points and springs made the other way round, after another point whose slot the last
one took. -/
noncomputable def backward : World ℝ :=
  (history perform
    [.addPoint ⟨5, 5⟩ 1 false, .addPoint ⟨8, 15⟩ 7 false, .addPoint ⟨8, 0⟩ 2 true,
      .addPoint ⟨0, 0⟩ 1 false, .removePoint (some 0),
      .addSpring (some 1) (some 2) 1 (some 9) defaultDamping,
      .addSpring (some 2) (some 3) 1 (some 11) defaultDamping]
    (World.new 1 Setting.default 1)).2

theorem reordered_backward :
    Reordered (Equiv.swap 0 3 * Equiv.swap 1 2) (Equiv.swap 0 1) forward backward := by
  have hnew : ∀ tag, Ready (World.new tag (Setting.default : Setting ℝ) 1) :=
    fun tag => .new tag _ (Nat.le_refl 1)
  have hforward : forward.store = _ := store_history (hnew 0) _
  have hbackward : backward.store = _ := store_history (hnew 1) _
  rw [store_new] at hforward hbackward
  constructor
  case setting => exact (setting_history (hnew 1) _).trans (setting_history (hnew 0) _).symm
  case particles =>
    intro id
    have hf : forward.particle? id = _ := congrArg (fun st => st.points id) hforward
    have hb : ∀ x, backward.particle? x = _ := fun x => congrArg (fun st => st.points x) hbackward
    rw [hf, hb]
    rcases id with _ | _ | _ | _ | id <;>
      simp [history, Store.perform, Store.empty, Store.joinable?, Store.delete, Option.filter,
        Function.update_apply, Equiv.swap_apply_def]
  case bonds =>
    intro serial
    have hf : forward.bond? serial = _ := congrArg (fun st => st.bonds serial) hforward
    have hb : ∀ x, backward.bond? x = _ := fun x => congrArg (fun st => st.bonds x) hbackward
    have hrest : ∀ (a b : Vec ℝ) {r : ℝ}, 0 ≤ r → restLength a b (some r) = r :=
      fun _ _ _ hr => if_neg (not_lt.mpr hr)
    rw [hf, hb]
    rcases serial with _ | _ | serial <;>
      simp [history, Store.perform, Store.empty, Store.joinable?, Store.delete, Option.filter,
        Function.update_apply, Equiv.swap_apply_def, hrest, Bond.rename, Bond.flip]

theorem follow_reordered_backward :
    Reached forward ∧ Reached backward ∧
      Reordered (Equiv.swap 0 3 * Equiv.swap 1 2) (Equiv.swap 0 1) forward backward ∧
      ∀ dt force, (backward.follow [.push 3 force, .step dt, .step dt]).particle? 3 =
        (forward.follow [.push 0 force, .step dt, .step dt]).particle? 0 := by
  have hf : Reached forward := reached_history (.new 0 _ 1) _
  have hb : Reached backward := reached_history (.new 1 _ 1) _
  refine ⟨hf, hb, reordered_backward, fun dt force => ?_⟩
  exact follow_reordered hf hb reordered_backward [.push 0 force, .step dt, .step dt] 0

end World
end Arboretum
