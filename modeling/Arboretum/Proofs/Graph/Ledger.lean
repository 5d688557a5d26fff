import Arboretum.Graph
import Arboretum.Proofs.World.Edit

/-!
Who made what in a world that several bodies share. The points and springs of a builder are the
numbers that the world gave out while the builder was at work.
-/
namespace Arboretum

variable {α : Type}

/-- Points and springs, by number. -/
structure Ledger where
  points : List Nat
  springs : List Nat
  deriving DecidableEq

namespace World

variable {w w' w₁ w₂ w₃ : World α}

/-- A later state of a world in which nothing was removed. -/
structure Grew (w w' : World α) : Prop where
  points : w.slots.size ≤ w'.slots.size
  springs : w.links.size ≤ w'.links.size
  alive : ∀ id, w.isAlive id → w'.isAlive id
  bonds : ∀ serial < w.links.size, w'.bond? serial = w.bond? serial

namespace Grew

theorem refl (w : World α) : Grew w w :=
  ⟨Nat.le_refl _, Nat.le_refl _, fun _ h => h, fun _ _ => rfl⟩

theorem trans (h : Grew w₁ w₂) (h' : Grew w₂ w₃) : Grew w₁ w₃ where
  points := Nat.le_trans h.points h'.points
  springs := Nat.le_trans h.springs h'.springs
  alive id ha := h'.alive id (h.alive id ha)
  bonds serial hs :=
    (h'.bonds serial (Nat.lt_of_lt_of_le hs h.springs)).trans (h.bonds serial hs)

end Grew

theorem grew_seat (w : World α) (p : Particle α) : Grew w (w.seat p) where
  points := by simp [seat]
  springs := Nat.le_refl _
  alive id ha := by
    obtain ⟨slot, hs⟩ := isAlive_iff.mp ha
    refine isAlive_iff.mpr ⟨slot, ?_⟩
    rw [slot?_seat, if_neg (Nat.ne_of_lt (slot?_lt hs))]
    exact hs
  bonds serial _ := bond?_seat w p serial

theorem grew_link (w : World α) (a b : Nat) (stiffness damping rest : α) :
    Grew w (w.link a b stiffness damping rest) where
  points := Nat.le_refl _
  springs := by simp [link]
  alive _ ha := ha
  bonds serial hs := by rw [bond?_link, if_neg (Nat.ne_of_lt hs)]

/-- Two states of a world with the same points and springs; the points may have moved. -/
structure Same (w w' : World α) : Prop where
  points : w'.slots.size = w.slots.size
  springs : w'.links.size = w.links.size
  alive : ∀ id, w'.isAlive id = w.isAlive id
  bonds : ∀ serial, w'.bond? serial = w.bond? serial

theorem Same.refl (w : World α) : Same w w := ⟨rfl, rfl, fun _ => rfl, fun _ => rfl⟩

theorem Same.trans {w'' : World α} (h : Same w w') (h' : Same w' w'') : Same w w'' where
  points := h'.points.trans h.points
  springs := h'.springs.trans h.springs
  alive id := (h'.alive id).trans (h.alive id)
  bonds serial := (h'.bonds serial).trans (h.bonds serial)

theorem Same.grew (h : Same w w') : Grew w w' where
  points := Nat.le_of_eq h.points.symm
  springs := Nat.le_of_eq h.springs.symm
  alive id ha := (h.alive id).trans ha
  bonds serial _ := h.bonds serial

theorem same_double (w : World α) : Same w w.double := ⟨rfl, rfl, fun _ => rfl, fun _ => rfl⟩

theorem same_roomy (w : World α) : Same w w.roomy := by
  unfold roomy
  split
  · exact same_double w
  · exact .refl w

theorem same_touch (w : World α) (slot : Nat) (f : Particle α → Particle α) :
    Same w (w.touch slot f) := ⟨rfl, rfl, fun _ => rfl, fun _ => rfl⟩

theorem Moved.same (h : Moved w w') : Same w w' :=
  ⟨congrArg Array.size h.slots, congrArg Array.size h.links, h.isAlive, h.bond?⟩

theorem same_pin (p : Point α) (w : World α) : Same w (pin p w).state := by
  rw [pin_apply]
  split
  · exact .refl w
  · split
    · exact .refl w
    · exact same_touch w _ _

theorem same_push [Scalar α] (p : Option (Point α)) (force : Vec α) (w : World α) :
    Same w (push p force w).state := by
  rw [push_apply]
  split
  · exact same_touch w _ _
  · exact .refl w

theorem isAlive_lt {id : Nat} (h : w.isAlive id) : id < w.slots.size := by
  obtain ⟨slot, hs⟩ := isAlive_iff.mp h
  exact slot?_lt hs

end World

namespace Ledger

variable {l : Ledger} {w w' w₁ w₂ w₃ : World α}

/-- A ledger together with all that a world gave out from one state to a later one. -/
def grown (l : Ledger) (w w' : World α) : Ledger where
  points := l.points ++ List.range' w.slots.size (w'.slots.size - w.slots.size)
  springs := l.springs ++ List.range' w.links.size (w'.links.size - w.links.size)

theorem mem_points_grown {id : Nat} : id ∈ (l.grown w w').points ↔
    id ∈ l.points ∨ (w.slots.size ≤ id ∧ id < w'.slots.size) := by
  simp only [grown, List.mem_append, List.mem_range'_1]
  exact or_congr_right (by omega)

theorem mem_springs_grown {serial : Nat} : serial ∈ (l.grown w w').springs ↔
    serial ∈ l.springs ∨ (w.links.size ≤ serial ∧ serial < w'.links.size) := by
  simp only [grown, List.mem_append, List.mem_range'_1]
  exact or_congr_right (by omega)

theorem nodup_append_range' {xs : List Nat} {n : Nat} (h : xs.Nodup) (hlt : ∀ x ∈ xs, x < n)
    (count : Nat) : (xs ++ List.range' n count).Nodup := by
  refine List.nodup_append.mpr ⟨h, List.nodup_range', ?_⟩
  intro x hx y hy he
  have hxn := hlt x hx
  have hyn := (List.mem_range'_1.mp hy).1
  omega

theorem grown_same (h : w.Same w') : l.grown w w' = l := by
  simp [grown, h.points, h.springs]

theorem grown_grown (h : w₁.Grew w₂) (h' : w₂.Grew w₃) :
    (l.grown w₁ w₂).grown w₂ w₃ = l.grown w₁ w₃ := by
  have hp := h.points
  have hp' := h'.points
  have hs := h.springs
  have hs' := h'.springs
  have hjoin : ∀ a b c, a ≤ b → b ≤ c →
      List.range' a (b - a) ++ List.range' b (c - b) = List.range' a (c - a) := by
    intro a b c hab hbc
    have hb : b = a + (b - a) := by omega
    have hc : c - a = (b - a) + (c - b) := by omega
    rw [hc, ← List.range'_append_1, ← hb]
  simp only [grown, List.append_assoc, hjoin _ _ _ hp hp', hjoin _ _ _ hs hs']

/-- Two ledgers without a common point. -/
def Apart (l l' : Ledger) : Prop := ∀ id ∈ l.points, id ∉ l'.points

end Ledger

/-- What a body keeps is what its ledger lists; `spare` are points that it does not keep yet. -/
structure Graph.Owns (l : Ledger) (spare : List Nat) (w : World α) (g : Graph α) : Prop where
  kept : ∀ id, id ∈ l.points ↔ id ∈ g.allPoints ∨ id ∈ spare
  alive : ∀ id ∈ l.points, w.isAlive id
  tracked : ∀ serial ∈ g.allSprings, serial ∈ l.springs
  joins : ∀ serial ∈ l.springs, ∃ bond, w.bond? serial = some bond ∧
    bond.a ∈ l.points ∧ bond.b ∈ l.points
  meets : ∀ serial bond, w.bond? serial = some bond →
    bond.a ∈ l.points ∨ bond.b ∈ l.points → serial ∈ l.springs
  pointsOnce : l.points.Nodup
  springsOnce : l.springs.Nodup

namespace Graph.Owns

variable {l l' : Ledger} {spare : List Nat} {w w' : World α} {g : Graph α}

theorem spring_lt (h : Owns l spare w g) {serial : Nat} (hs : serial ∈ l.springs) :
    serial < w.links.size := by
  obtain ⟨bond, hb, _⟩ := h.joins serial hs
  exact World.bond?_lt hb

/-- A body that nothing was built of owns nothing. -/
theorem new (origin : Vec α) (scale : α) (w : World α) :
    Owns ⟨[], []⟩ [] w (Graph.new origin scale) where
  kept id := by simp [allPoints, Graph.new]
  alive _ hid := absurd hid List.not_mem_nil
  tracked serial hs := by simp [allSprings, Graph.new] at hs
  joins _ hs := absurd hs List.not_mem_nil
  meets _ _ _ hm := by simp at hm
  pointsOnce := List.nodup_nil
  springsOnce := List.nodup_nil

theorem same (h : Owns l spare w g) (hw : w.Same w') : Owns l spare w' g where
  kept := h.kept
  alive id hid := (hw.alive id).trans (h.alive id hid)
  tracked := h.tracked
  joins serial hs := by
    rw [hw.bonds]
    exact h.joins serial hs
  meets serial bond hb := h.meets serial bond ((hw.bonds serial).symm.trans hb)
  pointsOnce := h.pointsOnce
  springsOnce := h.springsOnce

/-- A new point is owned, and spare at first. -/
theorem seat (h : Owns l spare w g) (hw : w.Sound) (p : Particle α) :
    Owns (l.grown w (w.seat p)) (w.slots.size :: spare) (w.seat p) g where
  kept id := by
    have hnew : (w.slots.size ≤ id ∧ id < (w.seat p).slots.size) ↔ id = w.slots.size := by
      simp only [World.seat, Array.size_push]
      omega
    rw [Ledger.mem_points_grown, h.kept, hnew, List.mem_cons, or_assoc, or_comm (a := id = _)]
  alive id hid := by
    rcases Ledger.mem_points_grown.mp hid with hid | ⟨hge, hlt⟩
    · exact (World.grew_seat w p).alive id (h.alive id hid)
    · simp only [World.seat, Array.size_push] at hlt
      have he : id = w.slots.size := by omega
      rw [World.isAlive, World.slot?_seat, if_pos he]
      rfl
  tracked serial hs := Ledger.mem_springs_grown.mpr (.inl (h.tracked serial hs))
  joins serial hs := by
    rcases Ledger.mem_springs_grown.mp hs with hs | ⟨hge, hlt⟩
    · obtain ⟨bond, hb, ha, hb'⟩ := h.joins serial hs
      rw [World.bond?_seat]
      exact ⟨bond, hb, Ledger.mem_points_grown.mpr (.inl ha),
        Ledger.mem_points_grown.mpr (.inl hb')⟩
    · exact absurd hlt (Nat.not_lt_of_ge hge)
  meets serial bond hb hmeets := by
    rw [World.bond?_seat] at hb
    obtain ⟨_, ha, hb'⟩ := hw.ends serial bond hb
    have ha := World.isAlive_lt ha
    have hb' := World.isAlive_lt hb'
    refine Ledger.mem_springs_grown.mpr (.inl (h.meets serial bond hb ?_))
    -- the new point has no spring yet
    refine hmeets.imp (fun hm => ?_) fun hm => ?_
    · exact (Ledger.mem_points_grown.mp hm).resolve_right fun hn =>
        absurd ha (Nat.not_lt_of_ge hn.1)
    · exact (Ledger.mem_points_grown.mp hm).resolve_right fun hn =>
        absurd hb' (Nat.not_lt_of_ge hn.1)
  pointsOnce :=
    Ledger.nodup_append_range' h.pointsOnce (fun id hid => World.isAlive_lt (h.alive id hid)) _
  springsOnce := Ledger.nodup_append_range' h.springsOnce (fun _ hs => h.spring_lt hs) _

/-- A new spring between owned points is owned. -/
theorem link (h : Owns l spare w g) {a b : Nat} (ha : a ∈ l.points) (hb : b ∈ l.points)
    (stiffness damping rest : α) :
    Owns (l.grown w (w.link a b stiffness damping rest)) spare
      (w.link a b stiffness damping rest) g where
  kept id := by
    have hnone : ¬ (w.slots.size ≤ id ∧ id < (w.link a b stiffness damping rest).slots.size) :=
      fun hn => absurd hn.2 (Nat.not_lt_of_ge hn.1)
    rw [Ledger.mem_points_grown, or_iff_left hnone]
    exact h.kept id
  alive id hid := by
    rcases Ledger.mem_points_grown.mp hid with hid | ⟨hge, hlt⟩
    · exact h.alive id hid
    · exact absurd hlt (Nat.not_lt_of_ge hge)
  tracked serial hs := Ledger.mem_springs_grown.mpr (.inl (h.tracked serial hs))
  joins serial hs := by
    rw [World.bond?_link]
    rcases Ledger.mem_springs_grown.mp hs with hs | ⟨hge, hlt⟩
    · obtain ⟨bond, hbond, hA, hB⟩ := h.joins serial hs
      rw [if_neg (Nat.ne_of_lt (h.spring_lt hs))]
      exact ⟨bond, hbond, Ledger.mem_points_grown.mpr (.inl hA),
        Ledger.mem_points_grown.mpr (.inl hB)⟩
    · simp only [World.link, Array.size_push] at hlt
      have he : serial = w.links.size := by omega
      rw [if_pos he]
      exact ⟨_, rfl, Ledger.mem_points_grown.mpr (.inl ha),
        Ledger.mem_points_grown.mpr (.inl hb)⟩
  meets serial bond hbond hmeets := by
    rw [World.bond?_link] at hbond
    rw [Ledger.mem_springs_grown]
    split at hbond
    · rename_i he
      exact .inr (by simp [World.link, he])
    · refine .inl (h.meets serial bond hbond ?_)
      refine hmeets.imp (fun hm => ?_) fun hm => ?_
      · exact (Ledger.mem_points_grown.mp hm).resolve_right fun hn =>
          absurd hn.2 (Nat.not_lt_of_ge hn.1)
      · exact (Ledger.mem_points_grown.mp hm).resolve_right fun hn =>
          absurd hn.2 (Nat.not_lt_of_ge hn.1)
  pointsOnce :=
    Ledger.nodup_append_range' h.pointsOnce (fun id hid => World.isAlive_lt (h.alive id hid)) _
  springsOnce := Ledger.nodup_append_range' h.springsOnce (fun _ hs => h.spring_lt hs) _

/-- What one builder makes leaves the others with what they own. -/
theorem beside (h : Owns l spare w g) (hgrew : w.Grew w') {l' : Ledger} {spare' : List Nat}
    {g' : Graph α} (h' : Owns (l'.grown w w') spare' w' g') (hapart : l.Apart (l'.grown w w')) :
    Owns l spare w' g where
  kept := h.kept
  alive id hid := hgrew.alive id (h.alive id hid)
  tracked := h.tracked
  joins serial hs := by
    rw [hgrew.bonds serial (h.spring_lt hs)]
    exact h.joins serial hs
  meets serial bond hb hmeets := by
    by_cases hold : serial < w.links.size
    · rw [hgrew.bonds serial hold] at hb
      exact h.meets serial bond hb hmeets
    · -- a new spring joins points of the other builder
      have hnew : serial ∈ (l'.grown w w').springs :=
        Ledger.mem_springs_grown.mpr (.inr ⟨Nat.le_of_not_lt hold, World.bond?_lt hb⟩)
      obtain ⟨bond', hb', hA, hB⟩ := h'.joins serial hnew
      rw [hb] at hb'
      cases hb'
      rcases hmeets with hm | hm
      · exact absurd hA (hapart _ hm)
      · exact absurd hB (hapart _ hm)
  pointsOnce := h.pointsOnce
  springsOnce := h.springsOnce

end Graph.Owns
end Arboretum
