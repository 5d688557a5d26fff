import Arboretum.Proofs.Quadtree.Accepted
import Mathlib.Algebra.Order.Floor.Ring

/-!
The search for the nearest point, in exact arithmetic. Its window doubles until it holds a point
that nothing outside it can beat, or until it covers the box, which happens after finitely many
steps.
-/
namespace Arboretum

variable {α β : Type}

namespace Quadtree

/-- The windows that a search looks through, with the point it ends with. -/
inductive Search [Scalar α] (t : Quadtree α β) (place : Vec α) (covering : α) :
    α → Option (Vec α × β) → Prop where
  | found {half : α} {best : Vec α × β}
      (hbest : closest place (t.query ⟨place, ⟨half, half⟩⟩) = some best)
      (stop : place.distance best.1 ≤ half ∨ covering ≤ half) :
      Search t place covering half (some best)
  | nothing {half : α} (hnone : closest place (t.query ⟨place, ⟨half, half⟩⟩) = none)
      (stop : covering ≤ half) : Search t place covering half none
  | double {half : α} {result : Option (Vec α × β)}
      (further : ∀ best, closest place (t.query ⟨place, ⟨half, half⟩⟩) = some best →
        ¬ place.distance best.1 ≤ half)
      (short : ¬ covering ≤ half) (rest : Search t place covering (half * 2.0) result) :
      Search t place covering half result

variable {t : Quadtree ℝ β} {place : Vec ℝ} {half covering : ℝ} {best q : Vec ℝ × β}

theorem closest_eq_none {ps : List (Vec ℝ × β)} : closest place ps = none ↔ ps = [] := by
  cases ps <;> simp [closest]

/-- No point is closer than the closest one. -/
theorem closest_least {ps : List (Vec ℝ × β)} (h : closest place ps = some best) :
    ∀ q ∈ ps, place.distance best.1 ≤ place.distance q.1 := by
  cases ps with
  | nil => cases h
  | cons p ps =>
    simp only [closest, Option.some.injEq] at h
    subst h
    -- the best so far is at least as close as where the scan began and as all it has passed
    induction ps generalizing p with
    | nil =>
      intro q hq
      rw [List.mem_singleton.mp hq]
      exact le_refl _
    | cons r ps ih =>
      simp only [List.foldl_cons]
      split
      · rename_i hlt
        intro q hq
        rcases List.mem_cons.mp hq with rfl | hq
        · exact (ih r r List.mem_cons_self).trans hlt.le
        · exact ih r q hq
      · rename_i hle
        have hp := ih p p List.mem_cons_self
        intro q hq
        rcases List.mem_cons.mp hq with rfl | hq
        · exact hp
        rcases List.mem_cons.mp hq with rfl | hq
        · exact hp.trans (not_lt.mp hle)
        · exact ih p q (List.mem_cons_of_mem p hq)

/-- What lies outside a window is no closer than its half size. -/
theorem le_distance_of_outside {q : Vec ℝ}
    (h : ¬ (⟨place, ⟨half, half⟩⟩ : Box ℝ).contains q = true) : half ≤ place.distance q := by
  obtain ⟨hx, hy⟩ := Vec.abs_le_distance place q
  by_contra hlt
  rw [not_le] at hlt
  have hx' := abs_lt.mp (hx.trans_lt hlt)
  have hy' := abs_lt.mp (hy.trans_lt hlt)
  refine h (Box.contains_iff.mpr ⟨⟨?_, ?_⟩, ⟨?_, ?_⟩⟩) <;> dsimp only <;> linarith

/-- From the covering half size on a window holds every point of the box. -/
theorem window_covers {b : Box ℝ} {q : Vec ℝ} (hq : b.contains q = true)
    (h : coveringHalf b place ≤ half) :
    (⟨place, ⟨half, half⟩⟩ : Box ℝ).contains q = true := by
  rw [coveringHalf, Scalar.greatest_real, Scalar.abs_real, Scalar.abs_real, max_le_iff] at h
  obtain ⟨⟨hxl, hxr⟩, hyl, hyr⟩ := Box.contains_iff.mp hq
  have hx := abs_le.mp (le_refl |place.x - b.centre.x|)
  have hy := abs_le.mp (le_refl |place.y - b.centre.y|)
  refine Box.contains_iff.mpr ⟨⟨?_, ?_⟩, ⟨?_, ?_⟩⟩ <;> dsimp only <;> linarith

/-- A search ends with the nearest point of a tree, or with nothing if there is none. -/
theorem Search.nearest {capacity : Nat} (hformed : Formed capacity t) {result : Option (Vec ℝ × β)}
    (h : Search t place (coveringHalf t.box place) half result) :
    (result = none → t.items = []) ∧
      ∀ best, result = some best →
        best ∈ t.items ∧ ∀ q ∈ t.items, place.distance best.1 ≤ place.distance q.1 := by
  have hwindow : ∀ {half : ℝ} {q : Vec ℝ × β}, q ∈ t.items →
      (⟨place, ⟨half, half⟩⟩ : Box ℝ).contains q.1 = true →
      q ∈ t.query ⟨place, ⟨half, half⟩⟩ := by
    intro half q hq hin
    rw [hformed.query_eq]
    exact List.mem_filter.mpr ⟨hq, hin⟩
  induction h with
  | @found half best hbest stop =>
    refine ⟨nofun, fun best' he => ?_⟩
    cases he
    refine ⟨mem_of_query (closest_mem hbest), fun q hq => ?_⟩
    rcases stop with hclose | hcovers
    · by_cases hin : (⟨place, ⟨half, half⟩⟩ : Box ℝ).contains q.1 = true
      · exact closest_least hbest q (hwindow hq hin)
      · exact hclose.trans (le_distance_of_outside hin)
    · exact closest_least hbest q (hwindow hq (window_covers (hformed.inside q hq) hcovers))
  | @nothing half hnone stop =>
    refine ⟨fun _ => List.eq_nil_iff_forall_not_mem.mpr fun q hq => ?_, nofun⟩
    have hin := hwindow hq (window_covers (hformed.inside q hq) stop)
    rw [closest_eq_none.mp hnone] at hin
    cases hin
  | double _ _ _ ih => exact ih

/-- As many windows as double to the covering one are enough for a search to end. -/
theorem search_of_covering (fuel : Nat) (h : covering ≤ half * 2 ^ fuel) :
    Search t place covering half (t.searchFrom place covering half (fuel + 1)) := by
  induction fuel generalizing half with
  | zero =>
    rw [pow_zero, mul_one] at h
    unfold searchFrom
    split
    · rename_i best hbest
      rw [if_pos (by simp [h])]
      exact .found hbest (.inr h)
    · rename_i hnone
      rw [if_pos h]
      exact .nothing hnone h
  | succ fuel ih =>
    have hrest : covering ≤ half * 2.0 * 2 ^ fuel := by
      rwa [show (2.0 : ℝ) = 2 by norm_num, mul_assoc, ← pow_succ']
    unfold searchFrom
    split
    · rename_i best hbest
      split
      · rename_i hstop
        exact .found hbest (by simpa using hstop)
      · rename_i hgo
        simp only [Bool.or_eq_true, decide_eq_true_eq, not_or] at hgo
        refine .double (fun best' he => ?_) hgo.2 (ih hrest)
        rw [hbest] at he
        cases he
        exact hgo.1
    · rename_i hnone
      split
      · rename_i hstop
        exact .nothing hnone hstop
      · rename_i hgo
        refine .double (fun best he => ?_) hgo (ih hrest)
        rw [hnone] at he
        cases he

/-- A search is given one window more than double to the covering one. -/
theorem covering_le_windows (hhalf : 0 < half) :
    covering ≤ half * 2 ^ (windows covering half - 1) := by
  have hwindows : windows covering half = (⌊covering / half⌋.toNat + 1).log2 + 3 := rfl
  have hratio : covering / half ≤ 2 ^ (windows covering half - 1) := calc
    covering / half ≤ ⌊covering / half⌋ + 1 := (Int.lt_floor_add_one _).le
    _ ≤ (⌊covering / half⌋.toNat + 1 : ℕ) := by
      push_cast
      exact_mod_cast add_le_add_left (Int.self_le_toNat _) 1
    _ ≤ 2 ^ (windows covering half - 1) := by
      have hlog := (Nat.lt_log2_self (n := ⌊covering / half⌋.toNat + 1)).le
      have hmore : 2 ^ ((⌊covering / half⌋.toNat + 1).log2 + 1) ≤
          2 ^ (windows covering half - 1) :=
        Nat.pow_le_pow_right Nat.two_pos (by omega)
      exact_mod_cast hlog.trans hmore
  rw [mul_comm]
  exact (div_le_iff₀ hhalf).mp hratio

end Quadtree

namespace PointIndex

variable {box : Box ℝ} {capacity : Nat} {entries : List (Vec ℝ × β)} {t : PointIndex ℝ β}
  {half : ℝ}

theorem Holds.search (h : Holds box capacity entries t) (hne : entries ≠ []) (place : Vec ℝ)
    (hhalf : 0 < half) :
    t.tree.Search place (Quadtree.coveringHalf t.tree.box place) half (t.nearest place half) := by
  have hsize : t.size ≠ 0 := by
    rw [h.size, h.items.length_eq]
    exact mt List.length_eq_zero_iff.mp hne
  unfold nearest
  rw [if_neg hsize]
  exact Quadtree.search_of_covering _ (Quadtree.covering_le_windows hhalf)

/-- After any run of insertions the search for the nearest point ends. It finds nothing exactly when
nothing was accepted, and otherwise an accepted point that no other one is closer than. -/
theorem nearest_closest (hc : 1 ≤ capacity) (box : Box ℝ) (es : List (Vec ℝ × β)) (place : Vec ℝ)
    (hhalf : 0 < half) :
    ((filled box capacity es).2.size ≠ 0 →
      (filled box capacity es).2.tree.Search place (Quadtree.coveringHalf box place) half
        ((filled box capacity es).2.nearest place half)) ∧
      ((filled box capacity es).2.nearest place half = none ↔
        accepted es (filled box capacity es).1 = []) ∧
      ∀ best, (filled box capacity es).2.nearest place half = some best →
        best ∈ accepted es (filled box capacity es).1 ∧
          ∀ q ∈ accepted es (filled box capacity es).1,
            place.distance best.1 ≤ place.distance q.1 := by
  have h := holds_filled hc box es
  generalize filled box capacity es = r at h ⊢
  have hsize : r.2.size = 0 ↔ accepted es r.1 = [] := by
    rw [h.size, h.items.length_eq, List.length_eq_zero_iff]
  by_cases hne : accepted es r.1 = []
  · have hnone : r.2.nearest place half = none := by
      unfold nearest
      rw [if_pos (hsize.mpr hne)]
    refine ⟨fun hz => absurd (hsize.mpr hne) hz, iff_of_true hnone hne, fun best hbest => ?_⟩
    rw [hnone] at hbest
    cases hbest
  · have hsearch := h.search hne place hhalf
    obtain ⟨hnone, hbest⟩ := hsearch.nearest h.formed
    refine ⟨fun _ => h.frame ▸ hsearch, iff_of_false (fun hn => hne ?_) hne, fun best hb => ?_⟩
    · exact List.perm_nil.mp (hnone hn ▸ h.items.symm)
    · obtain ⟨hmem, hleast⟩ := hbest best hb
      exact ⟨h.items.mem_iff.mp hmem, fun q hq => hleast q (h.items.mem_iff.mpr hq)⟩

/-- From outside the box, with a window that first holds neither point. -/
theorem nearest_closest_outside :
    let near : Vec ℝ × Nat := (⟨3, 0⟩, 1)
    let far : Vec ℝ × Nat := (⟨0, 0⟩, 0)
    let box : Box ℝ := ⟨⟨0, 0⟩, ⟨8, 8⟩⟩
    1 ≤ 1 ∧ (0 : ℝ) < 1 ∧ (filled box 1 [far, near]).2.nearest ⟨9, 0⟩ 1 = some near := by
  intro near far box
  refine ⟨le_refl 1, one_pos, ?_⟩
  have haccepted : accepted [far, near] (filled box 1 [far, near]).1 = [far, near] := by
    have hnear : box.contains near.1 = true := Box.contains_iff.mpr (by norm_num [near, box])
    have hfar : box.contains far.1 = true := Box.contains_iff.mpr (by norm_num [far, box])
    rw [filled, (holds_empty box 1).answers Nat.one_pos [far, near] (by decide)]
    simp only [List.map_cons, List.map_nil, hnear, hfar]
    rfl
  obtain ⟨-, hnone, hbest⟩ :=
    nearest_closest (le_refl 1) box [far, near] ⟨9, 0⟩ (show (0 : ℝ) < 1 from one_pos)
  rw [haccepted] at hnone hbest
  cases hfound : (filled box 1 [far, near]).2.nearest ⟨9, 0⟩ 1 with
  | none => exact absurd (hnone.mp hfound) (List.cons_ne_nil _ _)
  | some best =>
    obtain ⟨hmem, hleast⟩ := hbest best hfound
    rcases List.mem_cons.mp hmem with rfl | hmem
    · have hle := hleast near (List.mem_cons_of_mem _ List.mem_cons_self)
      rw [Vec.distance_real, Vec.distance_real, Real.sqrt_le_sqrt_iff (by positivity)] at hle
      norm_num [near, far] at hle
    · rw [List.mem_singleton.mp hmem]

end PointIndex

namespace Box

/-- A scan reaches beyond where it began and beyond all that it has passed. -/
theorem foldl_reach (p : Vec ℝ) (ps : List (Vec ℝ)) :
    let low : Vec ℝ :=
      ps.foldl (fun low q => ⟨Scalar.least low.x q.x, Scalar.least low.y q.y⟩) p
    let high : Vec ℝ :=
      ps.foldl (fun high q => ⟨Scalar.greatest high.x q.x, Scalar.greatest high.y q.y⟩) p
    ∀ q ∈ p :: ps, (low.x ≤ q.x ∧ low.y ≤ q.y) ∧ q.x ≤ high.x ∧ q.y ≤ high.y := by
  induction ps using List.reverseRecOn with
  | nil => simp
  | append_singleton ps r ih =>
    intro low high q hq
    simp only [low, high, List.foldl_append, List.foldl_cons, List.foldl_nil,
      Scalar.least_real, Scalar.greatest_real, min_le_iff, le_max_iff]
    rw [← List.cons_append, List.mem_append, List.mem_singleton] at hq
    rcases hq with hq | hq
    · obtain ⟨⟨hlx, hly⟩, hhx, hhy⟩ := ih q hq
      simp only [Scalar.least_real, Scalar.greatest_real] at hlx hly hhx hhy
      exact ⟨⟨.inl hlx, .inl hly⟩, .inl hhx, .inl hhy⟩
    · subst q
      simp

/-- The box around some points leaves none of them out. -/
theorem around_contains {padding : ℝ} (hpadding : 0 < padding) {ps : List (Vec ℝ)} {b : Box ℝ}
    (h : around padding ps = .ok b) : ∀ p ∈ ps, b.contains p = true := by
  cases ps with
  | nil => cases h
  | cons p ps =>
    intro q hq
    obtain ⟨⟨hlx, hly⟩, hhx, hhy⟩ := foldl_reach p ps q hq
    cases h
    rw [contains_iff]
    norm_num
    constructor <;> constructor <;> linarith

end Box

namespace PointIndex

/-- Whatever is indexed in a box around it, from everywhere something of it is found. -/
def Finds (α : Type) [Scalar α] : Prop :=
  ∀ (es : List (Vec α × Nat)) (box : Box α) (t : PointIndex α Nat) (place : Vec α), es ≠ [] →
    Box.around 1 (es.map (·.1)) = .ok box → (empty box defaultCapacity).insertAll es = .ok t →
    (t.nearest place defaultHalf).isSome

/-- An index holds what lies in its box, if it did not give up. -/
theorem Holds.of_insertAll {box : Box ℝ} {capacity : Nat} (hc : 0 < capacity)
    (es : List (Vec ℝ × Nat)) {t t' : PointIndex ℝ Nat} {entries : List (Vec ℝ × Nat)}
    (h : Holds box capacity entries t) (hin : ∀ e ∈ es, box.contains e.1 = true)
    (ht : t.insertAll es = .ok t') : Holds box capacity (es.reverse ++ entries) t' := by
  induction es generalizing t entries with
  | nil =>
    cases ht
    exact h
  | cons e es ih =>
    unfold PointIndex.insertAll offer at ht
    split at ht
    · cases ht
    · have hnext := h.of_insert hc e
      rw [if_pos ((h.insert_taken hc e).trans (hin e List.mem_cons_self))] at hnext
      rw [List.reverse_cons, List.append_assoc]
      exact ih hnext (fun d hd => hin d (List.mem_cons_of_mem e hd)) ht

/-- Whatever is indexed in a box around it, from everywhere the nearest of it is found. -/
theorem nearest_around {es : List (Vec ℝ × Nat)} {box : Box ℝ} {t : PointIndex ℝ Nat}
    (hne : es ≠ []) (hbox : Box.around 1 (es.map (·.1)) = .ok box)
    (ht : (empty box defaultCapacity).insertAll es = .ok t) (place : Vec ℝ) :
    ∃ best, t.nearest place defaultHalf = some best ∧ best ∈ es ∧
      ∀ e ∈ es, place.distance best.1 ≤ place.distance e.1 := by
  have hin : ∀ e ∈ es, box.contains e.1 = true :=
    fun e he => Box.around_contains one_pos hbox e.1 (List.mem_map_of_mem he)
  have hholds := (holds_empty box defaultCapacity).of_insertAll (by decide) es hin ht
  rw [List.append_nil] at hholds
  have hmem (e : Vec ℝ × Nat) : e ∈ t.tree.items ↔ e ∈ es :=
    hholds.items.mem_iff.trans List.mem_reverse
  have hhalf : (0 : ℝ) < defaultHalf := by norm_num [defaultHalf]
  obtain ⟨hnone, hbest⟩ :=
    (hholds.search (mt List.reverse_eq_nil_iff.mp hne) place hhalf).nearest hholds.formed
  cases hfound : t.nearest place defaultHalf with
  | none =>
    obtain ⟨e, he⟩ := List.exists_mem_of_ne_nil es hne
    have hlost : e ∈ t.tree.items := (hmem e).mpr he
    rw [hnone hfound] at hlost
    cases hlost
  | some best =>
    obtain ⟨hheld, hleast⟩ := hbest best hfound
    exact ⟨best, rfl, (hmem best).mp hheld, fun e he => hleast e ((hmem e).mpr he)⟩

theorem finds_real : Finds ℝ := by
  intro es box t place hne hbox ht
  obtain ⟨best, hfound, -⟩ := nearest_around hne hbox ht place
  rw [hfound]
  rfl

end PointIndex
end Arboretum
