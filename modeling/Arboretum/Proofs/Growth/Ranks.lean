import Arboretum.Proofs.Growth.Books

/-!
The order in which a plan builds. Roots are built ahead of the rest, and still the segments of one
depth are built in the order of the skeleton; and fruits are hung once.
-/
namespace Arboretum.Growth

open Arboretum.Action

variable {α σ : Type} {g : Growth α} {done : List (Task α)}

/-- The fruits that a record says were hung, oldest first. -/
def picked (done : List (Task α)) : List (Fruit α) :=
  done.flatMap fun
    | .fruits fruits => fruits
    | _ => []

theorem picked_append (done later : List (Task α)) :
    picked (done ++ later) = picked done ++ picked later := List.flatMap_append

/-- Of two segments of a skeleton that are equally deep, the first has the smaller number. -/
def Ascends (segments : Array (Segment α)) (i j : Nat) : Prop :=
  ∀ s t, segments[i]? = some s → segments[j]? = some t → s.depth = t.depth → i < j

/-- A plan builds from the cursor on, and its roots ahead of it, one after the other. -/
structure Ranked (g : Growth α) (done : List (Task α)) : Prop where
  books : Books g done
  ahead : ∀ i ∈ numbers done, g.cursor < i → i ∈ g.roots
  rooted : ∀ i ∈ numbers done, i ∈ g.roots → ∀ j ∈ g.roots, j < i → j ∈ numbers done
  ascending : (numbers done).Pairwise (Ascends g.segments)
  hung : picked done = if g.fruited then g.fruits else []

namespace Ranked

theorem new [Scalar α] {segments : Array (Segment α)} {fruits : List (Fruit α)} {rate divisor : α}
    (h : Growth.new segments fruits rate divisor = .ok g) : Ranked g [] := by
  refine ⟨.new h, by simp [numbers], by simp [numbers], .nil, ?_⟩
  obtain ⟨whole, rfl⟩ := of_new h
  rfl

/-- Where a segment is still missing, nothing that is equally deep is built beyond it. -/
theorem behind (h : Ranked g done) {s : Segment α} {index : Nat}
    (hs : g.segments[index]? = some s) (hnew : g.isBuilt index = false) :
    ∀ i ∈ numbers done, Ascends g.segments i index := by
  intro i hi t s' ht hs' hdepth
  cases hs.symm.trans hs'
  have hfree : index ∉ numbers done := h.books.accounts.fresh hnew
  by_contra hge
  have hlt : index < i := Nat.lt_of_le_of_ne (Nat.not_lt.mp hge) fun he => hfree (he ▸ hi)
  have hcursor : g.cursor ≤ index := Nat.le_of_not_lt fun hlt =>
    hfree ((h.books.marks index).mp (h.books.passed index hlt))
  -- beyond the cursor only roots are built, and a root only after those before it
  have hroot := h.ahead i hi (Nat.lt_of_le_of_lt hcursor hlt)
  obtain ⟨t', ht', htrunk⟩ := mem_roots hroot
  cases ht.symm.trans ht'
  have hearlier := roots_before hroot hlt hs (hdepth.symm.trans htrunk)
  exact hfree (h.rooted i hi hroot index hearlier hlt)

theorem mark (h : Ranked g done) {s : Segment α} {index : Nat} (hs : g.segments[index]? = some s)
    (hnew : g.isBuilt index = false) (hahead : g.cursor < index → index ∈ g.roots)
    (hrooted : index ∈ g.roots → ∀ j ∈ g.roots, j < index → j ∈ numbers done) :
    Ranked (g.mark index) (done ++ [.segment s index]) where
  books := h.books.mark hs hnew
  ahead i hi hlt := by
    rcases List.mem_append.mp (numbers_append .. ▸ hi) with hi | hi
    · exact h.ahead i hi hlt
    · cases List.mem_singleton.mp hi
      exact hahead hlt
  rooted i hi hroot j hj hlt := by
    rw [numbers_append]
    apply List.mem_append_left
    rcases List.mem_append.mp (numbers_append .. ▸ hi) with hi | hi
    · exact h.rooted i hi hroot j hj hlt
    · cases List.mem_singleton.mp hi
      exact hrooted hroot j hj hlt
  ascending := by
    rw [numbers_append, numbers_segment, List.pairwise_append]
    refine ⟨h.ascending, List.pairwise_singleton _ _, fun i hi j hj => ?_⟩
    cases List.mem_singleton.mp hj
    exact h.behind hs hnew i hi
  hung := by
    rw [picked_append, h.hung]
    exact List.append_nil _

/-- The order of what is built does not say how far a plan has come. -/
theorem restage (h : Ranked g done) {now : Growth α} (hsegments : now.segments = g.segments)
    (hbuilt : now.built = g.built) (hcount : now.count = g.count) (hcursor : now.cursor = g.cursor)
    (hfruited : now.fruited = g.fruited) (hfruits : now.fruits = g.fruits) : Ranked now done := by
  have hbooks := h.books.restage hsegments hbuilt hcount hcursor
  obtain ⟨⟩ := now
  cases hsegments
  cases hcursor
  cases hfruited
  cases hfruits
  exact ⟨hbooks, h.ahead, h.rooted, h.ascending, h.hung⟩

theorem pass (h : Ranked g done) (hbuilt : g.isBuilt g.cursor = true) :
    Ranked { g with cursor := g.cursor + 1 } done where
  books := h.books.pass hbuilt
  ahead i hi hlt := h.ahead i hi (Nat.lt_of_succ_lt hlt)
  rooted := h.rooted
  ascending := h.ascending
  hung := h.hung

/-- What is no segment changes nothing in the order of the segments. -/
theorem furnish (h : Ranked g done) {task : Task α} (htask : task.number? = none) {stage : Stage}
    {braced fruited : Bool}
    (hhung : picked (done ++ [task]) = if fruited then g.fruits else []) :
    Ranked { g with stage, braced, fruited } (done ++ [task]) := by
  have hsame : numbers (done ++ [task]) = numbers done := numbers_enter htask
  refine ⟨(h.books.enter htask).restage rfl rfl rfl rfl, ?_, ?_, ?_, hhung⟩
  · rw [hsame]
    exact h.ahead
  · rw [hsame]
    exact h.rooted
  · rw [hsame]
    exact h.ascending

theorem rooting : Rooting (Ranked (α := α)) where
  books _ _ h := h.books
  built g r index s h hmem hearlier hs hnew := by
    refine h.mark hs hnew (fun _ => hmem) fun _ j hj hlt => ?_
    exact (h.books.marks j).mp (hearlier j hj hlt)

/-- Ticks build at the cursor, and everything before it stands. -/
theorem steadfast [Scalar α] : Steadfast (Ranked (α := α)) where
  books _ _ h := h.books
  built g r s target h hs hnew _ _ := by
    refine h.mark hs hnew (fun hlt => absurd hlt (Nat.lt_irrefl _)) fun _ j _ hlt => ?_
    exact (h.books.marks j).mp (h.books.passed j hlt)
  passed _ _ h hbuilt := h.pass hbuilt
  braced g r h _ := by
    refine h.furnish rfl ?_
    rw [picked_append, h.hung]
    exact List.append_nil _
  hung g r h hdue := by
    refine h.furnish rfl ?_
    simp only [fruitsDue, Bool.and_eq_true, Bool.not_eq_true'] at hdue
    rw [picked_append, h.hung, hdue.1.2]
    simp [picked]

variable {crew : Crew α σ} {p : Growth α × List (Task α) × σ}

/-- Placing the roots keeps the order, also where it stops. -/
theorem placeRoots (h : Ranked p.1 p.2.1) (hfresh : p.1.stage = .seeded → p.2.1 = []) :
    Recorded Ranked (placeRoots (recording crew) p).state := by
  refine ((meets_placeRoots rooting crew).weaken ?_).after (s := p) ⟨h, hfresh⟩
  rintro _ ⟨g, r, t⟩ ⟨-, hkept | ⟨was, -, hkept, rfl⟩⟩
  · exact hkept
  · exact hkept.restage rfl rfl rfl rfl rfl rfl

/-- And so does a tick. -/
theorem advance [Scalar α] (h : Ranked p.1 p.2.1) :
    Recorded Ranked (advance (recording crew) p).state := by
  have hgain (_ : p.1.stage ≠ .steady) : Ranked p.1.gain p.2.1 :=
    h.restage rfl rfl rfl rfl rfl rfl
  rcases advance_keeps steadfast crew hgain with ⟨-, hsame⟩ | ⟨-, hkept⟩
  · rw [hsame]
    exact h
  · exact hkept

end Ranked
end Arboretum.Growth
