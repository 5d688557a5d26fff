import Arboretum.Proofs.Exact
import Arboretum.Proofs.World.Step
import Mathlib.Algebra.BigOperators.Group.List.Basic

/-!
Nudges add up in exact arithmetic: whatever their order, a slot moves by the sum of the shifts of
the ends that are at it.
-/
namespace Arboretum

namespace Vec

@[simp] theorem add_x (a b : Vec ℝ) : (a + b).x = a.x + b.x := rfl
@[simp] theorem add_y (a b : Vec ℝ) : (a + b).y = a.y + b.y := rfl
@[simp] theorem sub_x (a b : Vec ℝ) : (a - b).x = a.x - b.x := rfl
@[simp] theorem sub_y (a b : Vec ℝ) : (a - b).y = a.y - b.y := rfl
@[simp] theorem neg_x (a : Vec ℝ) : (-a).x = -a.x := rfl
@[simp] theorem neg_y (a : Vec ℝ) : (-a).y = -a.y := rfl
@[simp] theorem zero_x : (0 : Vec ℝ).x = 0 := rfl
@[simp] theorem zero_y : (0 : Vec ℝ).y = 0 := rfl
@[simp] theorem scale_x (a : Vec ℝ) (k : ℝ) : (a.scale k).x = a.x * k := rfl
@[simp] theorem scale_y (a : Vec ℝ) (k : ℝ) : (a.scale k).y = a.y * k := rfl

@[ext] theorem ext {α : Type} {a b : Vec α} (hx : a.x = b.x) (hy : a.y = b.y) : a = b := by
  cases a
  cases b
  cases hx
  cases hy
  rfl

noncomputable instance : AddCommGroup (Vec ℝ) where
  add_assoc a b c := by ext <;> simp [add_assoc]
  zero_add a := by ext <;> simp
  add_zero a := by ext <;> simp
  add_comm a b := by ext <;> simp [add_comm]
  neg_add_cancel a := by ext <;> simp
  sub_eq_add_neg a b := by ext <;> simp [sub_eq_add_neg]
  nsmul := nsmulRec
  zsmul := zsmulRec

theorem add_scale (a b : Vec ℝ) (k : ℝ) : (a + b).scale k = a.scale k + b.scale k := by
  ext <;> simp [add_mul]

@[simp] theorem zero_scale (k : ℝ) : (0 : Vec ℝ).scale k = 0 := by ext <;> simp

@[simp] theorem neg_scale (a : Vec ℝ) (k : ℝ) : (-a).scale k = -a.scale k := by ext <;> simp

theorem scale_scale (a : Vec ℝ) (k l : ℝ) : (a.scale k).scale l = a.scale (k * l) := by
  ext <;> simp [mul_assoc]

end Vec

/-- How far a nudge moves a slot. -/
noncomputable def Nudge.on (n : Nudge ℝ) (slot : Nat) : Vec ℝ :=
  (if n.a = slot then n.shiftA else 0) + (if n.b = slot then n.shiftB else 0)

/-- How far nudges move a slot altogether. -/
noncomputable def displacement (nudges : List (Nudge ℝ)) (slot : Nat) : Vec ℝ :=
  (nudges.map (·.on slot)).sum

/-- Moving a particle twice is moving it by both ways together. -/
structure Adds (move : Vec ℝ → Particle ℝ → Particle ℝ) : Prop where
  zero : ∀ p, move 0 p = p
  add : ∀ d e p, move e (move d p) = move (d + e) p

theorem adds_shift : Adds Particle.shift where
  zero p := by simp [Particle.shift]
  add d e p := by simp [Particle.shift, add_assoc]

theorem adds_shiftPrevious : Adds Particle.shiftPrevious where
  zero p := by simp [Particle.shiftPrevious]
  add d e p := by simp [Particle.shiftPrevious, add_assoc]

section
variable {move : Vec ℝ → Particle ℝ → Particle ℝ}

/-- Shifts of slots one after the other, at one slot. -/
theorem getElem?_shifts (hmove : Adds move) {ι : Type} (target : ι → Nat) (shift : ι → Vec ℝ)
    (xs : List ι) (rows : Array (Particle ℝ)) (i : Nat) :
    (xs.foldl (fun rows x => rows.modify (target x) (move (shift x))) rows)[i]? =
      rows[i]?.map (move (xs.map fun x => if target x = i then shift x else 0).sum) := by
  induction xs generalizing rows with
  | nil =>
    have hzero : move 0 = id := funext hmove.zero
    simp [hzero]
  | cons x rest ih =>
    rw [List.foldl_cons, ih, Array.getElem?_modify, List.map_cons, List.sum_cons]
    split
    · rw [Option.map_map]
      congr 1
      funext p
      exact hmove.add _ _ p
    · rw [zero_add]

/-- A slot moves by what the nudges move it altogether. -/
theorem getElem?_nudgeAll (hmove : Adds move) (nudges : List (Nudge ℝ))
    (rows : Array (Particle ℝ)) (i : Nat) :
    (nudgeAll move nudges rows)[i]? = rows[i]?.map (move (displacement nudges i)) := by
  have hsum : displacement nudges i =
      (nudges.map fun n => if n.a = i then n.shiftA else 0).sum +
        (nudges.map fun n => if n.b = i then n.shiftB else 0).sum := List.sum_map_add
  rw [nudgeAll, getElem?_shifts hmove, getElem?_shifts hmove, Option.map_map, hsum]
  congr 1
  funext p
  exact hmove.add _ _ p

end
end Arboretum
