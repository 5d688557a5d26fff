import Mathlib.Data.Real.Basic
import Arboretum.Force.Apply
import Arboretum.Proofs.World.Settling
import Arboretum.Proofs.World.Shows

/-!
Fields superpose. In exact arithmetic what several fields do to a point is the sum of what each of
them does to it by itself, so it does not matter in how many calls they act, or in which order.
-/
namespace Arboretum

theorem Scalar.lower_real (a b : ℝ) : lower a b = min a b := by
  unfold lower
  rw [isNaN_real]
  exact (min_def a b).symm

namespace Vec

theorem dot_le (a b : Vec ℝ) : a.dot b ≤ a.norm * b.norm := by
  have ha := norm_sq a
  have hb := norm_sq b
  have hnonneg : 0 ≤ a.norm * b.norm := mul_nonneg (Real.sqrt_nonneg _) (Real.sqrt_nonneg _)
  have hcross : (a.norm * b.norm) ^ 2 = a.dot b ^ 2 + (a.x * b.y - a.y * b.x) ^ 2 := by
    rw [mul_pow, pow_two, pow_two, ha, hb]
    simp only [dot]
    ring
  exact abs_le_of_sq_le_sq' (by nlinarith [sq_nonneg (a.x * b.y - a.y * b.x)]) hnonneg |>.2

theorem norm_add_le (a b : Vec ℝ) : (a + b).norm ≤ a.norm + b.norm := by
  have hdot : (a + b).dot (a + b) = a.dot a + 2 * a.dot b + b.dot b := by
    simp only [dot, add_x, add_y]
    ring
  refine Real.sqrt_le_iff.mpr ⟨add_nonneg (Real.sqrt_nonneg _) (Real.sqrt_nonneg _), ?_⟩
  rw [hdot, ← norm_sq a, ← norm_sq b]
  linarith [dot_le a b, sq (a.norm + b.norm), add_mul_self_eq a.norm b.norm]

@[simp] theorem norm_zero : (0 : Vec ℝ).norm = 0 := by
  simp [norm, dot, Scalar.sqrt]

theorem norm_sum_le (forces : List (Vec ℝ)) : forces.sum.norm ≤ (forces.map norm).sum := by
  induction forces with
  | nil => simp
  | cons force rest ih =>
    rw [List.sum_cons, List.map_cons, List.sum_cons]
    exact (norm_add_le force rest.sum).trans (by linarith)

noncomputable instance : DecidableEq (Vec ℝ) := Classical.decEq _

/-- Does a force move what it acts on? -/
def acts {α : Type} [Scalar α] (force : Vec α) : Bool := !(force.x == 0) || !(force.y == 0)

theorem acts_real (force : Vec ℝ) : force.acts = decide (force ≠ 0) := by
  have hzero : force = 0 ↔ force.x = 0 ∧ force.y = 0 :=
    ⟨fun h => h ▸ ⟨rfl, rfl⟩, fun h => ext h.1 h.2⟩
  unfold acts
  by_cases hx : force.x = 0 <;> by_cases hy : force.y = 0 <;> simp [hzero, hx, hy]

end Vec

/-! ### What fields do to a point -/

namespace Pull

/-- A field reaches the points that are nearer to its centre than its radius. -/
def Reaches (s : Pull ℝ) (p : Vec ℝ) : Prop := 0 < s.radius ∧ p.distance s.centre < s.radius

noncomputable instance (s : Pull ℝ) (p : Vec ℝ) : Decidable (s.Reaches p) :=
  inferInstanceAs (Decidable (_ ∧ _))

/-- The way towards the centre of a field; upward from the centre itself. -/
noncomputable def way (s : Pull ℝ) (p : Vec ℝ) : Vec ℝ :=
  if p.distance s.centre ≤ 0.000001 then ⟨0, -1⟩
  else (s.centre - p).scale (p.distance s.centre)⁻¹

/-- The force of a field on a point that it reaches. -/
noncomputable def force (s : Pull ℝ) (p : Vec ℝ) : Vec ℝ :=
  (s.way p).scale (min (s.strength * (1 - p.distance s.centre / s.radius)) s.cap)

/-- The sum of the forces of the fields that reach a point. -/
noncomputable def resultant (fields : List (Pull ℝ)) (p : Vec ℝ) : Vec ℝ :=
  ((fields.filter (·.Reaches p)).map (·.force p)).sum

theorem forceAt_real (s : Pull ℝ) (p : Vec ℝ) : s.forceAt p =
    if p.distance s.centre < s.radius then some (s.force p) else none := by
  unfold forceAt force magnitude direction way leastDistance
  simp only [Vec.norm_sub, Scalar.lower_real, Vec.divideBy_eq_scale]

theorem total_concat (fields : List (Pull ℝ)) (s : Pull ℝ) (p : Vec ℝ) :
    total (fields ++ [s]) p = total fields p + if s.Reaches p then s.force p else 0 := by
  unfold total
  rw [List.foldl_append, List.foldl_cons, List.foldl_nil, forceAt_real]
  unfold isVoid Reaches
  by_cases hvoid : s.radius ≤ 0
  · simp [hvoid, not_lt.mpr hvoid]
  · by_cases hnear : p.distance s.centre < s.radius <;> simp [hvoid, hnear, not_le.mp hvoid]

/-- Fields act on a point by their resultant. -/
theorem total_eq_resultant (fields : List (Pull ℝ)) (p : Vec ℝ) :
    total fields p = resultant fields p := by
  induction fields using List.reverseRecOn with
  | nil => rfl
  | append_singleton fields s ih =>
    rw [total_concat, ih]
    unfold resultant
    rw [List.filter_append, List.map_append, List.sum_append]
    by_cases hs : s.Reaches p <;> simp [hs]

theorem resultant_append (fields more : List (Pull ℝ)) (p : Vec ℝ) :
    resultant (fields ++ more) p = resultant fields p + resultant more p := by
  unfold resultant
  rw [List.filter_append, List.map_append, List.sum_append]

theorem resultant_perm {fields fields' : List (Pull ℝ)} (h : fields.Perm fields') (p : Vec ℝ) :
    resultant fields p = resultant fields' p :=
  ((h.filter _).map _).sum_eq

theorem resultant_outside {fields : List (Pull ℝ)} {p : Vec ℝ}
    (h : ∀ s ∈ fields, ¬ s.Reaches p) : resultant fields p = 0 := by
  have hnone : fields.filter (·.Reaches p) = [] :=
    List.filter_eq_nil_iff.mpr fun s hs => by simpa using h s hs
  rw [resultant, hnone, List.map_nil, List.sum_nil]

theorem norm_way (s : Pull ℝ) (p : Vec ℝ) : (s.way p).norm = 1 := by
  unfold way
  split
  · simp [Vec.norm, Vec.dot, Scalar.sqrt]
  · rename_i hfar
    have hpos : 0 < p.distance s.centre := by linarith [not_le.mp hfar]
    rw [Vec.norm_scale _ (inv_nonneg.mpr hpos.le), Vec.norm_sub, mul_inv_cancel₀ hpos.ne']

/-- A field that does not repel pulls no harder than its cap. -/
theorem norm_force_le {s : Pull ℝ} {p : Vec ℝ} (hreach : s.Reaches p) (hstrength : 0 ≤ s.strength)
    (hcap : 0 ≤ s.cap) : (s.force p).norm ≤ s.cap := by
  have hpart : p.distance s.centre / s.radius ≤ 1 := (div_le_one hreach.1).mpr hreach.2.le
  have hsize : 0 ≤ s.strength * (1 - p.distance s.centre / s.radius) :=
    mul_nonneg hstrength (sub_nonneg.mpr hpart)
  rw [force, Vec.norm_scale _ (le_min hsize hcap), norm_way, one_mul]
  exact min_le_right _ _

theorem norm_resultant_le {fields : List (Pull ℝ)}
    (h : ∀ s ∈ fields, 0 ≤ s.strength ∧ 0 ≤ s.cap) (p : Vec ℝ) :
    (resultant fields p).norm ≤ ((fields.filter (·.Reaches p)).map (·.cap)).sum := by
  refine (Vec.norm_sum_le _).trans ?_
  rw [List.map_map]
  refine List.sum_le_sum fun s hs => ?_
  obtain ⟨hmem, hreach⟩ := List.mem_filter.mp hs
  exact norm_force_le (of_decide_eq_true hreach) (h s hmem).1 (h s hmem).2

end Pull

/-! ### Pushes of a world -/

theorem adds_pushed : Adds Particle.pushed where
  zero p := by simp [Particle.pushed]
  add d e p := by simp [Particle.pushed, add_assoc]

namespace World

section
variable {α : Type} [Scalar α] {w : World α}

/-- Pushes a point, if it is alive. -/
def shove (w : World α) (x : Nat × Vec α) : World α :=
  match w.slot? x.1 with
  | some slot => w.touch slot (Particle.pushed x.2)
  | none => w

theorem Sound.shove (h : Sound w) (x : Nat × Vec α) : Sound (w.shove x) := by
  unfold World.shove
  split
  · exact h.touch _ _
  · exact h

/-- Pushing points one after the other. -/
theorem pushAll_shoves (h : Sound w) (pushes : List (Nat × Vec α)) :
    (pushAll pushes w).result = .ok () ∧ (pushAll pushes w).state = pushes.foldl shove w := by
  have hone : ∀ (x : Nat × Vec α) (v : World α),
      Action.Meets (fun s => s = v ∧ Sound s) (do
        let s ← Action.read
        push (some (s.point x.1)) x.2) (fun _ => False) fun _ s => s = v.shove x ∧ Sound s := by
    intro x v
    refine .bind .read fun s => .returns fun t ⟨hst, htv, ht⟩ => ?_
    subst hst
    subst htv
    obtain ⟨done, hdone⟩ := push_returns (some (s.point x.1)) x.2 s
    have hstate := push_state ht x.1 x.2
    exact ⟨done, hdone, hstate, hstate ▸ ht.shove x⟩
  have hall := Action.Meets.forEach_foldl hone pushes w
  have hrun : Action.Meets (fun s => s = w ∧ Sound s) (pushAll pushes) (fun _ => False)
      fun _ s => s = pushes.foldl shove w ∧ Sound s := hall.bind fun _ => .pure fun _ hs => hs
  obtain ⟨_, hresult, hstate, -⟩ := hrun.returned ⟨rfl, h⟩
  exact ⟨hresult, hstate⟩

end

variable {w : World ℝ}

/-- A world in which the force on each slot has been added to. -/
noncomputable def pressed (w : World ℝ) (force : Nat → Vec ℝ) : World ℝ :=
  { w with rows := w.rows.mapIdx fun i => Particle.pushed (force i) }

theorem slot?_pressed (w : World ℝ) (force : Nat → Vec ℝ) (id : Nat) :
    (w.pressed force).slot? id = w.slot? id := rfl

theorem Sound.pressed (h : Sound w) (force : Nat → Vec ℝ) : Sound (w.pressed force) :=
  h.with_rows Array.size_mapIdx

theorem pressed_zero (w : World ℝ) : (w.pressed fun _ => 0) = w := by
  have hrows : (w.rows.mapIdx fun _ => Particle.pushed 0) = w.rows :=
    Array.ext_getElem? fun i => by simp [funext adds_pushed.zero]
  exact congrArg (fun rows => { w with rows }) hrows

theorem pressed_pressed (w : World ℝ) (force more : Nat → Vec ℝ) :
    (w.pressed force).pressed more = w.pressed fun i => force i + more i := by
  have hrows : ((w.rows.mapIdx fun i => Particle.pushed (force i)).mapIdx fun i =>
      Particle.pushed (more i)) = w.rows.mapIdx fun i => Particle.pushed (force i + more i) :=
    Array.ext_getElem? fun i => by simp [Function.comp_def, adds_pushed.add]
  exact congrArg (fun rows => { w with rows }) hrows

theorem shove_pressed (w : World ℝ) (x : Nat × Vec ℝ) :
    w.shove x = w.pressed fun i => if w.slot? x.1 = some i then x.2 else 0 := by
  unfold shove
  cases hs : w.slot? x.1 with
  | none =>
    have hnone : ∀ i, (if (none : Option Nat) = some i then x.2 else 0) = 0 := fun i => if_neg nofun
    simp only [hnone]
    exact (pressed_zero w).symm
  | some slot =>
    have hrows : w.rows.modify slot (Particle.pushed x.2) = w.rows.mapIdx fun i =>
        Particle.pushed (if some slot = some i then x.2 else 0) := by
      refine Array.ext_getElem? fun i => ?_
      rw [Array.getElem?_modify, Array.getElem?_mapIdx]
      by_cases hi : slot = i
      · rw [if_pos hi, if_pos (congrArg some hi)]
      · rw [if_neg hi, if_neg (mt Option.some.inj hi), funext adds_pushed.zero, Option.map_id']
    exact congrArg (fun rows => { w with rows }) hrows

/-- Pushes add up at each slot. -/
theorem foldl_shove (pushes : List (Nat × Vec ℝ)) (w : World ℝ) :
    pushes.foldl shove w =
      w.pressed fun i => (pushes.map fun x => if w.slot? x.1 = some i then x.2 else 0).sum := by
  induction pushes generalizing w with
  | nil => exact (pressed_zero w).symm
  | cons x rest ih =>
    rw [List.foldl_cons, ih, shove_pressed, pressed_pressed]
    rfl

/-- A world in which some points have been pushed, each by a force of its own. -/
noncomputable def loaded (w : World ℝ) (points : List Nat) (force : Nat → Vec ℝ) : World ℝ :=
  w.pressed fun i => (points.map fun id => if w.slot? id = some i then force id else 0).sum

/-- At the slot of a point the force is its own, if the point is among those that are pushed. -/
theorem particle?_loaded (h : Sound w) {points : List Nat} (hpoints : points.Nodup)
    (force : Nat → Vec ℝ) (id : Nat) :
    (w.loaded points force).particle? id = (w.particle? id).map
      (Particle.pushed (if id ∈ points then force id else 0)) := by
  unfold particle?
  change (w.slot? id).bind ((w.rows.mapIdx _)[·]?) = _
  cases hs : w.slot? id with
  | none => rfl
  | some slot =>
    have hslot : ∀ x, w.slot? x = some slot ↔ x = id := fun x =>
      ⟨fun hx => h.slot_unique hx hs, fun hx => hx ▸ hs⟩
    have hsum : (points.map fun x => if w.slot? x = some slot then force x else 0).sum =
        if id ∈ points then force id else 0 := by
      simp only [hslot]
      rw [List.sum_map_eq_nsmul_single id _ fun x hx _ => if_neg hx, if_pos rfl,
        hpoints.count, ite_smul, one_smul, zero_smul]
    rw [Option.bind_some, Option.bind_some, Array.getElem?_mapIdx]
    exact congrArg (fun force => (w.rows[slot]?).map (Particle.pushed force)) hsum

/-- What a law says of a point of a world: nothing, unless it is alive and not pinned. -/
noncomputable def felt (w : World ℝ) (law : Particle ℝ → Vec ℝ) (id : Nat) : Vec ℝ :=
  match w.particle? id with
  | some p => if p.pinned then 0 else law p
  | none => 0

/-- Where points are pushed as a law says, each of them that is free gains what it says there. -/
theorem particle?_loaded_felt (h : Sound w) {points : List Nat} (hpoints : points.Nodup)
    (law : Particle ℝ → Vec ℝ) (id : Nat) :
    (w.loaded points (w.felt law)).particle? id = (w.particle? id).map fun p =>
      if id ∈ points ∧ p.pinned = false then { p with force := p.force + law p } else p := by
  rw [particle?_loaded h hpoints]
  unfold felt
  cases w.particle? id with
  | none => rfl
  | some p =>
    by_cases hid : id ∈ points
    · cases hp : p.pinned with
      | true => simp [hid, hp, adds_pushed.zero]
      | false => simp [hid, hp, Particle.pushed]
    · simp [hid, adds_pushed.zero]

/-- Pushing the free ones of some points as a law says. -/
theorem foldl_shove_free (w : World ℝ) (points : List Nat) (law : Particle ℝ → Vec ℝ) :
    ((w.free points).map fun x => (x.1, law x.2)).foldl shove w = w.loaded points (w.felt law) := by
  have hsum (i : Nat) : (((w.free points).map fun x => (x.1, law x.2)).map fun x =>
      if w.slot? x.1 = some i then x.2 else 0).sum =
      (points.map fun id => if w.slot? id = some i then w.felt law id else 0).sum := by
    induction points with
    | nil => rfl
    | cons id rest ih =>
      rw [List.map_cons, List.sum_cons, ← ih]
      unfold free felt
      rw [List.filterMap_cons]
      cases w.particle? id with
      | none => simp
      | some p => cases hp : p.pinned <;> simp [hp]
  rw [foldl_shove]
  simp only [hsum, loaded]

/-! ### Calls -/

/-- What fields do to a point of a world: nothing, unless it is alive and not pinned. -/
noncomputable def resultant (w : World ℝ) (fields : List (Pull ℝ)) (id : Nat) : Vec ℝ :=
  match w.particle? id with
  | some p => if p.pinned then 0 else Pull.resultant fields p.position
  | none => 0

theorem resultant_append (w : World ℝ) (fields more : List (Pull ℝ)) (id : Nat) :
    w.resultant (fields ++ more) id = w.resultant fields id + w.resultant more id := by
  unfold resultant
  cases w.particle? id with
  | none => simp
  | some p => cases hp : p.pinned <;> simp [hp, Pull.resultant_append]

theorem resultant_perm {fields fields' : List (Pull ℝ)} (h : fields.Perm fields') :
    w.resultant fields = w.resultant fields' := by
  funext id
  simp only [resultant, Pull.resultant_perm h]

/-- The points among some that fields move. -/
noncomputable def affected (w : World ℝ) (points : List Nat) (fields : List (Pull ℝ)) : List Nat :=
  points.filter (w.resultant fields · ≠ 0)

theorem pulls_cons (w : World ℝ) (id : Nat) (rest : List Nat) (fields : List (Pull ℝ)) :
    w.pulls (id :: rest) fields =
      (if w.resultant fields id ≠ 0 then [(id, w.resultant fields id)] else []) ++
        w.pulls rest fields := by
  unfold pulls free resultant
  rw [List.filterMap_cons]
  cases w.particle? id with
  | none => simp
  | some p =>
    cases hpin : p.pinned with
    | true => simp [hpin]
    | false =>
      have hacts : (Pull.resultant fields p.position).acts = _ := Vec.acts_real _
      unfold Vec.acts at hacts
      simp only [hpin, Bool.false_eq_true, if_false, List.map_cons, Pull.total_eq_resultant,
        List.filter_cons, hacts]
      by_cases hzero : Pull.resultant fields p.position = 0 <;> simp [hzero]

/-- Each of them is pushed by the resultant of the fields there. -/
theorem pulls_eq (w : World ℝ) (points : List Nat) (fields : List (Pull ℝ)) :
    w.pulls points fields =
      (w.affected points fields).map fun id => (id, w.resultant fields id) := by
  induction points with
  | nil => rfl
  | cons id rest ih =>
    unfold affected at ih ⊢
    rw [pulls_cons, ih, List.filter_cons]
    by_cases hzero : w.resultant fields id = 0 <;> simp [hzero]

/-- What is pushed at a slot is the sum of the resultants there. -/
theorem sum_pulls (w : World ℝ) (points : List Nat) (fields : List (Pull ℝ)) (i : Nat) :
    ((w.pulls points fields).map fun x => if w.slot? x.1 = some i then x.2 else 0).sum =
      (points.map fun id => if w.slot? id = some i then w.resultant fields id else 0).sum := by
  induction points with
  | nil => rfl
  | cons id rest ih =>
    rw [pulls_cons, List.map_append, List.sum_append, ih, List.map_cons, List.sum_cons]
    by_cases hzero : w.resultant fields id = 0 <;> simp [hzero]

theorem pulls_idle {points : List Nat} {fields : List (Pull ℝ)}
    (h : ((w.free points).isEmpty || fields.isEmpty) = true) : w.pulls points fields = [] := by
  rcases Bool.or_eq_true_iff.mp h with hfree | hfields
  · rw [pulls, List.isEmpty_iff.mp hfree, List.map_nil, List.filter_nil]
  · have hnone : ∀ id, w.resultant [] id = 0 := by
      intro id
      unfold resultant
      split
      · split <;> rfl
      · rfl
    rw [List.isEmpty_iff.mp hfields, pulls_eq, affected]
    simp [hnone]

/-- A world in which fields have acted on points. -/
noncomputable def pulled (w : World ℝ) (points : List Nat) (fields : List (Pull ℝ)) : World ℝ :=
  w.pressed fun i =>
    (points.map fun id => if w.slot? id = some i then w.resultant fields id else 0).sum

/-- Fields act on points by their resultants. -/
theorem pull_pulled (h : Sound w) (points : List Nat) (fields : List (Pull ℝ)) :
    (pull points fields w).result = .ok (w.affected points fields).length ∧
      (pull points fields w).state = w.pulled points fields := by
  have hpushes : Action.Meets (· = w) (pull points fields) (fun _ => False) fun count v =>
      count = (w.pulls points fields).length ∧ v = (w.pulls points fields).foldl shove w := by
    unfold pull
    refine .bind .read fun s => .assume (w = s) (fun _ hs => (hs.1.trans hs.2).symm) fun hs => ?_
    subst hs
    split
    · rename_i hidle
      rw [pulls_idle hidle]
      exact .pure fun _ hv => ⟨rfl, hv.2⟩
    · refine .bind (.forEach_mem fun s _ => .note _) fun _ => ?_
      have hpush : Action.Meets (fun v => w = v ∧ v = w) (pushAll (w.pulls points fields))
          (fun _ => False) fun _ v => v = (w.pulls points fields).foldl shove w := by
        refine .returns fun v hv => ?_
        obtain ⟨hresult, hstate⟩ := pushAll_shoves h (w.pulls points fields)
        rw [hv.2]
        exact ⟨(), hresult, hstate⟩
      exact hpush.bind fun _ => .pure fun _ hv => ⟨rfl, hv⟩
  obtain ⟨count, hresult, hcount, hstate⟩ := hpushes.returned rfl
  refine ⟨?_, ?_⟩
  · rw [hresult, hcount, pulls_eq, List.length_map]
  · simp only [hstate, foldl_shove, sum_pulls, pulled]

/-- Forces do not tell what further fields do. -/
theorem resultant_pressed (w : World ℝ) (force : Nat → Vec ℝ) (fields : List (Pull ℝ)) :
    (w.pressed force).resultant fields = w.resultant fields := by
  funext id
  have hparticle : (w.pressed force).particle? id =
      (w.slot? id).bind fun slot => (w.rows[slot]?).map (Particle.pushed (force slot)) := by
    unfold particle?
    exact congrArg (w.slot? id).bind (funext fun slot => Array.getElem?_mapIdx ..)
  unfold resultant
  rw [hparticle, particle?]
  cases w.slot? id with
  | none => rfl
  | some slot => cases hrow : w.rows[slot]? <;> simp [hrow, Particle.pushed]

theorem pulled_pulled (w : World ℝ) (points : List Nat) (first second : List (Pull ℝ)) :
    (w.pulled points first).pulled points second = w.pulled points (first ++ second) := by
  have hadd : ∀ i id, (if w.slot? id = some i then w.resultant (first ++ second) id else 0) =
      (if w.slot? id = some i then w.resultant first id else 0) +
        if w.slot? id = some i then w.resultant second id else 0 := by
    intro i id
    split
    · exact resultant_append w first second id
    · exact (add_zero 0).symm
  unfold pulled
  simp only [resultant_pressed, slot?_pressed, pressed_pressed, hadd, List.sum_map_add]

theorem pulled_perm (w : World ℝ) (points : List Nat) {fields fields' : List (Pull ℝ)}
    (h : fields.Perm fields') : w.pulled points fields = w.pulled points fields' := by
  simp only [pulled, resultant_perm h]

/-- Fields superpose: calls one after the other leave the world that one call leaves with all the
fields in any order. Each free point that is listed gains the sum of the forces of the fields that
reach it, which is nothing where none does, and a call tells how many points have a sum that is not
zero; pinned points, and points that are not listed or not alive, gain nothing. Where no field
repels, the sum is no more than the caps of the fields that reach the point. -/
theorem fields_superpose (hw : Reached w) {points : List Nat} (hpoints : points.Nodup)
    (first second : List (Pull ℝ)) {fields : List (Pull ℝ)}
    (hfields : fields.Perm (first ++ second)) :
    let once := pull points fields w
    let before := pull points first w
    let after := pull points second before.state
    (before.result = .ok (w.affected points first).length ∧
      after.result = .ok (w.affected points second).length ∧
      once.result = .ok (w.affected points fields).length) ∧
    after.state = once.state ∧
    (∃ rows, once.state = { w with rows }) ∧
    (∀ id, once.state.particle? id = (w.particle? id).map fun p =>
      if id ∈ points ∧ p.pinned = false then
        { p with force := p.force + Pull.resultant fields p.position }
      else p) ∧
    (∀ p, (∀ s ∈ fields, ¬ s.Reaches p) → Pull.resultant fields p = 0) ∧
    ((∀ s ∈ fields, 0 ≤ s.strength ∧ 0 ≤ s.cap) → ∀ p,
      (Pull.resultant fields p).norm ≤ ((fields.filter (·.Reaches p)).map (·.cap)).sum) := by
  have h := hw.sound
  obtain ⟨honce, hstate⟩ := pull_pulled h points fields
  obtain ⟨hbefore, hmid⟩ := pull_pulled h points first
  obtain ⟨hafter, hend⟩ := pull_pulled (w := w.pulled points first) (h.pressed _) points second
  have hsame : (w.pulled points first).affected points second = w.affected points second := by
    simp only [affected, pulled, resultant_pressed]
  intro once before after
  simp only [once, before, after, hmid]
  refine ⟨⟨hbefore, hsame ▸ hafter, honce⟩, ?_, ?_, ?_, ?_, ?_⟩
  · rw [hend, hstate, pulled_pulled, pulled_perm w points hfields]
  · exact ⟨_, hstate⟩
  · intro id
    rw [hstate]
    exact particle?_loaded_felt h hpoints (fun p => Pull.resultant fields p.position) id
  · exact fun p hp => Pull.resultant_outside hp
  · exact fun hfields p => Pull.norm_resultant_le hfields p

/-- A field beside one end of the dumbbell, and one on that end. -/
noncomputable def beside : Pull ℝ := ⟨⟨3.0, 4.0⟩, 9.0, 1, 0.25⟩
noncomputable def upon : Pull ℝ := ⟨⟨0, 0⟩, 2.0, 0.5, 1⟩

theorem fields_superpose_dumbbell :
    Reached dumbbell ∧ [0, 1].Nodup ∧ [upon, beside].Perm ([beside] ++ [upon]) ∧
      let before := pull [0, 1] [beside] dumbbell
      let after := pull [0, 1] [upon] before.state
      after.state = (pull [0, 1] [upon, beside] dumbbell).state ∧
      (after.state.particle? 0).map (·.force) = some ⟨3 / 20, -3 / 10⟩ := by
  have hw : Reached dumbbell := reached_history (.new 0 _ 1) _
  have hpoints : [0, 1].Nodup := by decide
  have hfields : [upon, beside].Perm ([beside] ++ [upon]) := .swap ..
  obtain ⟨-, hstate, -, hparticle, -⟩ := fields_superpose hw hpoints [beside] [upon] hfields
  refine ⟨hw, hpoints, hfields, hstate, ?_⟩
  have hready : Ready (World.new 0 (Setting.default : Setting ℝ) 1) := .new 0 _ (Nat.le_refl 1)
  have hstore : dumbbell.store = _ := store_history hready _
  rw [store_new] at hstore
  have hpoint : dumbbell.particle? 0 = _ := congrArg (fun st => st.points 0) hstore
  have hfive : (⟨0, 0⟩ : Vec ℝ).distance ⟨3.0, 4.0⟩ = 5 := by
    rw [Vec.distance_real, Real.sqrt_eq_iff_mul_self_eq (by positivity) (by norm_num)]
    norm_num
  have hnone : (⟨0, 0⟩ : Vec ℝ).distance ⟨0, 0⟩ = 0 := by simp [Vec.distance_real]
  have hforce : Pull.resultant [upon, beside] ⟨0, 0⟩ = ⟨3 / 20, -3 / 10⟩ := by
    have hupon : upon.Reaches ⟨0, 0⟩ := by
      unfold Pull.Reaches upon
      rw [hnone]
      norm_num
    have hbeside : beside.Reaches ⟨0, 0⟩ := by
      unfold Pull.Reaches beside
      rw [hfive]
      norm_num
    simp only [Pull.resultant, List.filter_cons, hupon, hbeside, decide_true, if_true,
      List.filter_nil, List.map_cons, List.map_nil, List.sum_cons, List.sum_nil]
    simp only [Pull.force, Pull.way, upon, beside, hnone, hfive]
    ext <;> norm_num
  rw [hstate, hparticle, hpoint]
  simp [history, Store.perform, Store.empty, Store.joinable?, Store.change, Option.filter,
    Function.update_apply, Particle.atRest, hforce]

end World
end Arboretum
