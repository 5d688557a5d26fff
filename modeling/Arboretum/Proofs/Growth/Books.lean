import Arboretum.Proofs.Growth.Record
import Mathlib.Data.List.Dedup
import Mathlib.Data.List.Nodup
import Mathlib.Data.List.Perm.Subperm

/-!
The books of a plan: what it has marked as built is what its crew has built. A property of a plan
and of the record of its crew that no single step of the plan takes away is kept by whole ticks.
-/
namespace Arboretum.Growth

open Arboretum.Action

variable {α σ : Type} {g : Growth α} {done : List (Task α)}

/-- The plan after a segment has been built. -/
def mark (g : Growth α) (index : Nat) : Growth α :=
  { g with built := g.built.setIfInBounds index true, count := g.count + 1 }

theorem isBuilt_mark (g : Growth α) {index : Nat} (h : index < g.built.size) (i : Nat) :
    (g.mark index).isBuilt i = true ↔ i = index ∨ g.isBuilt i = true := by
  simp only [isBuilt, mark, Array.getD_eq_getD_getElem?, Array.getElem?_setIfInBounds]
  by_cases hi : index = i
  · subst i
    simp [h]
  · simp [hi, Ne.symm hi]

theorem isBuilt_mark_of_ne (g : Growth α) {index i : Nat} (h : i ≠ index) :
    (g.mark index).isBuilt i = g.isBuilt i := by
  simp [isBuilt, mark, h.symm]

@[simp] theorem numbers_append (done later : List (Task α)) :
    numbers (done ++ later) = numbers done ++ numbers later := List.filterMap_append

@[simp] theorem numbers_segment (s : Segment α) (index : Nat) :
    numbers [.segment s index] = [index] := rfl

theorem mem_numbers {index : Nat} :
    index ∈ numbers done ↔ ∃ s, Task.segment s index ∈ done := by
  simp only [numbers, List.mem_filterMap]
  constructor
  · rintro ⟨task, htask, hnumber⟩
    cases task with
    | segment s i =>
      cases hnumber
      exact ⟨s, htask⟩
    | braces segments => cases hnumber
    | fruits fruits => cases hnumber
  · rintro ⟨s, hs⟩
    exact ⟨.segment s index, hs, rfl⟩

/-- A new plan has a skeleton, and nothing of it is built. -/
theorem of_new [Scalar α] {segments : Array (Segment α)} {fruits : List (Fruit α)}
    {rate divisor : α} (h : Growth.new segments fruits rate divisor = .ok g) :
    ∃ divisor, g = ⟨segments, fruits, rate, divisor, .seeded, 0,
      Array.replicate segments.size false, 0, false, false, 0⟩ := by
  unfold Growth.new at h
  cases hd : Scalar.truncate divisor with
  | error e =>
    rw [hd] at h
    cases h
  | ok whole =>
    rw [hd] at h
    cases h
    exact ⟨_, rfl⟩

/-- What is no segment has no number. -/
theorem numbers_enter {task : Task α} (htask : task.number? = none) :
    numbers (done ++ [task]) = numbers done := by
  simp [numbers, htask]

theorem nodup_numbers_concat {s : Segment α} {index : Nat} (hfree : index ∉ numbers done) :
    (numbers (done ++ [.segment s index])).Nodup ↔ (numbers done).Nodup := by
  rw [numbers_append, numbers_segment, ← List.concat_eq_append, List.nodup_concat]
  exact and_iff_right hfree

/-- A plan over a skeleton marks what is in the record of its crew, and counts its entries. -/
structure Accounts (segments : Array (Segment α)) (g : Growth α) (done : List (Task α)) : Prop where
  skeleton : g.segments = segments
  size : g.built.size = g.total
  marks : ∀ i, g.isBuilt i = true ↔ i ∈ numbers done
  faithful : ∀ s i, .segment s i ∈ done → segments[i]? = some s
  count : g.count = (numbers done).length

namespace Accounts

variable {segments : Array (Segment α)} {now : Growth α} (h : Accounts segments g done)
include h

theorem lt_total {index : Nat} (hi : index ∈ numbers done) : index < g.total := by
  obtain ⟨s, hs⟩ := mem_numbers.mp hi
  have hs := h.faithful s index hs
  rw [← h.skeleton] at hs
  exact (Array.getElem?_eq_some_iff.mp hs).1

theorem fresh {index : Nat} (hnew : g.isBuilt index = false) : index ∉ numbers done := by
  rw [← h.marks, hnew]
  exact Bool.false_ne_true

/-- A segment may be built though it stands. -/
theorem mark {s : Segment α} {index : Nat} (hs : g.segments[index]? = some s) :
    Accounts segments (g.mark index) (done ++ [.segment s index]) where
  skeleton := h.skeleton
  size := by simpa [Growth.mark, total] using h.size
  marks i := by
    have hindex : index < g.built.size := by
      rw [h.size]
      exact (Array.getElem?_eq_some_iff.mp hs).1
    rw [isBuilt_mark g hindex, h.marks, numbers_append, numbers_segment, List.mem_append,
      List.mem_singleton, or_comm]
  faithful t i ht := by
    rcases List.mem_append.mp ht with ht | ht
    · exact h.faithful t i ht
    · cases List.mem_singleton.mp ht
      rw [← h.skeleton]
      exact hs
  count := by simp [Growth.mark, h.count]

theorem restage (hsegments : now.segments = g.segments) (hbuilt : now.built = g.built)
    (hcount : now.count = g.count) : Accounts segments now done := by
  obtain ⟨⟩ := now
  cases hsegments
  cases hbuilt
  cases hcount
  exact ⟨h.skeleton, h.size, h.marks, h.faithful, h.count⟩

/-- Only segments have an entry. -/
theorem enter {task : Task α} (htask : task.number? = none) :
    Accounts segments g (done ++ [task]) := by
  have hsame : numbers (done ++ [task]) = numbers done := numbers_enter htask
  refine ⟨h.skeleton, h.size, ?_, fun s i hs => ?_, ?_⟩
  · rw [hsame]
    exact h.marks
  · rcases List.mem_append.mp hs with hs | hs
    · exact h.faithful s i hs
    · cases List.mem_singleton.mp hs
      cases htask
  · rw [hsame]
    exact h.count

theorem built_eq : g.built.toList = (List.range g.total).map g.isBuilt := by
  apply List.ext_getElem?
  intro i
  rw [List.getElem?_map, Array.getElem?_toList]
  by_cases hi : i < g.built.size
  · simp [isBuilt, hi, ← h.size]
  · simp [hi, ← h.size]

/-- The marks are as many as there are different entries. -/
theorem count_marks : g.built.toList.count true = (numbers done).dedup.length := by
  have hperm : ((List.range g.total).filter g.isBuilt).Perm (numbers done).dedup := by
    refine (List.perm_ext_iff_of_nodup (List.nodup_range.filter _) (List.nodup_dedup _)).mpr ?_
    intro i
    rw [List.mem_filter, List.mem_dedup, h.marks]
    exact ⟨fun hi => hi.2, fun hi => ⟨List.mem_range.mpr (h.lt_total hi), hi⟩⟩
  rw [h.built_eq, List.count, List.countP_map, List.countP_eq_length_filter, ← hperm.length_eq]
  simp [Function.comp_def]

/-- The count is that of the marks unless something has been built twice. -/
theorem count_eq_iff : g.count = g.built.toList.count true ↔ (numbers done).Nodup := by
  rw [h.count, h.count_marks]
  constructor
  · intro heq
    exact List.dedup_eq_self.mp ((List.dedup_sublist _).eq_of_length heq.symm)
  · intro hnodup
    rw [hnodup.dedup]

end Accounts

/-- A plan agrees with the record of what its crew has done. -/
structure Books (g : Growth α) (done : List (Task α)) : Prop where
  size : g.built.size = g.total
  marks : ∀ i, g.isBuilt i = true ↔ i ∈ numbers done
  faithful : ∀ s i, .segment s i ∈ done → g.segments[i]? = some s
  once : (numbers done).Nodup
  count : g.count = (numbers done).length
  passed : ∀ i < g.cursor, g.isBuilt i = true

namespace Books

theorem new [Scalar α] {segments : Array (Segment α)} {fruits : List (Fruit α)} {rate divisor : α}
    (h : Growth.new segments fruits rate divisor = .ok g) : Books g [] := by
  obtain ⟨whole, rfl⟩ := of_new h
  refine ⟨by simp [total], ?_, by simp, List.nodup_nil, rfl, by simp⟩
  intro i
  by_cases hi : i < segments.size <;> simp [isBuilt, numbers, hi]

theorem unbuilt (h : Books g []) (i : Nat) : g.isBuilt i = false := by
  rw [← Bool.not_eq_true, h.marks]
  simp [numbers]

variable (h : Books g done)
include h

theorem accounts : Accounts g.segments g done := ⟨rfl, h.size, h.marks, h.faithful, h.count⟩

theorem subset_range : numbers done ⊆ List.range g.total :=
  fun _ hi => List.mem_range.mpr (h.accounts.lt_total hi)

theorem count_le : g.count ≤ g.total := by
  have hle := (List.subperm_of_subset h.once h.subset_range).length_le
  rw [h.count]
  simpa using hle

/-- When everything is counted, everything is entered. -/
theorem all_of_full (hfull : g.count = g.total) : ∀ i < g.total, i ∈ numbers done := by
  have hperm := (List.subperm_of_subset h.once h.subset_range).perm_of_length_le (by
    simp [← hfull, h.count])
  intro i hi
  exact hperm.mem_iff.mpr (List.mem_range.mpr hi)

/-- The count is that of the marks. -/
theorem count_marks : g.count = g.built.toList.count true := h.accounts.count_eq_iff.mpr h.once

theorem mark {s : Segment α} {index : Nat} (hs : g.segments[index]? = some s)
    (hnew : g.isBuilt index = false) : Books (g.mark index) (done ++ [.segment s index]) := by
  obtain ⟨-, hsize, hmarks, hfaithful, hcount⟩ := h.accounts.mark hs
  refine ⟨hsize, hmarks, hfaithful, ?_, hcount, fun i hi => ?_⟩
  · exact (nodup_numbers_concat (h.accounts.fresh hnew)).mpr h.once
  · have hbuilt := (h.marks i).mp (h.passed i hi)
    rw [hmarks, numbers_append]
    exact List.mem_append_left _ hbuilt

theorem pass (hbuilt : g.isBuilt g.cursor = true) :
    Books { g with cursor := g.cursor + 1 } done where
  size := h.size
  marks := h.marks
  faithful := h.faithful
  once := h.once
  count := h.count
  passed := by
    intro i hi
    rcases Nat.lt_succ_iff_lt_or_eq.mp hi with hi | rfl
    · exact h.passed i hi
    · exact hbuilt

/-- The books do not say how far a plan has come. -/
theorem restage {now : Growth α} (hsegments : now.segments = g.segments)
    (hbuilt : now.built = g.built) (hcount : now.count = g.count)
    (hcursor : now.cursor = g.cursor) : Books now done := by
  obtain ⟨⟩ := now
  cases hsegments
  cases hbuilt
  cases hcount
  cases hcursor
  exact ⟨h.size, h.marks, h.faithful, h.once, h.count, h.passed⟩

/-- Only segments are entered in the books. -/
theorem enter {task : Task α} (htask : task.number? = none) : Books g (done ++ [task]) := by
  obtain ⟨-, hsize, hmarks, hfaithful, hcount⟩ := h.accounts.enter htask
  exact ⟨hsize, hmarks, hfaithful, (numbers_enter htask).symm ▸ h.once, hcount, h.passed⟩

theorem pass_built {s : Segment α} (hs : g.segments[g.cursor]? = some s) :
    (g.mark g.cursor).isBuilt g.cursor = true := by
  refine (isBuilt_mark g ?_ _).mpr (.inl rfl)
  rw [h.size]
  exact (Array.getElem?_eq_some_iff.mp hs).1

end Books

/-- A property of a plan and a record, of the state that the plan works on. -/
def Recorded (kept : Growth α → List (Task α) → Prop) (p : Growth α × List (Task α) × σ) : Prop :=
  kept p.1 p.2.1

variable {crew : Crew α σ}

/-- What is entered in the record, where the crew does not stop. -/
theorem meets_written {pre : Growth α → List (Task α) → Prop} {ρ : Type}
    {stop : Growth α × List (Task α) × σ → Prop} (mid : Growth α → List (Task α) → Prop)
    {task : Task α} {x : Action (Note α) σ ρ}
    (hstop : ∀ g done t, pre g done → stop (g, done, t))
    (h : ∀ g done, pre g done → mid g (done ++ [task])) :
    Meets (Recorded pre) (written task x).onSnd stop fun _ => Recorded mid := by
  rintro ⟨g, done, t⟩ hp
  simp only [written, onSnd, on, Report.within, bind_apply]
  rcases x t with ⟨e | a, u, notes⟩
  · exact ⟨fun _ _ => hstop g done u hp, fun _ ha => by simp at ha⟩
  · exact ⟨fun _ he => by simp at he, fun _ _ => h g done hp⟩

/-- Uses of a plan that start from another use, and then go on. -/
theorem meets_recorded_plan {pre : Growth α → List (Task α) → Prop} {ρ : Type}
    {f : Growth α → Plan α (List (Task α) × σ) ρ}
    {stop : Growth α × List (Task α) × σ → Prop}
    {post : ρ → Growth α × List (Task α) × σ → Prop}
    (h : ∀ g, Meets (Recorded fun now done => g = now ∧ pre now done) (f g) stop post) :
    Meets (Recorded pre) (plan >>= f) stop post := by
  refine meets_plan.bind fun g => (h g).of_pre ?_
  rintro ⟨_, done, t⟩ ⟨rfl, hp⟩
  exact ⟨rfl, hp⟩

theorem meets_writing {pre : Growth α → List (Task α) → Prop}
    (kept : Growth α → List (Task α) → Prop) {f : Growth α → Growth α}
    {stop : Growth α × List (Task α) × σ → Prop} (h : ∀ g done, pre g done → kept (f g) done) :
    Meets (Recorded pre) (record f) stop fun _ => Recorded kept :=
  .modify fun p hp => h p.1 p.2.1 hp

/-- Building a segment, and what comes of it where the crew does not stop. -/
theorem meets_recording {pre : Growth α → List (Task α) → Prop}
    {stop : Growth α × List (Task α) × σ → Prop} (mid : Growth α → List (Task α) → Prop)
    {index : Nat} (hstop : ∀ g done t, pre g done → stop (g, done, t))
    (h : ∀ g done, pre g done → ∃ s, g.segments[index]? = some s ∧
      mid (g.mark index) (done ++ [.segment s index])) :
    Meets (Recorded pre) (build (recording crew) index) stop fun _ => Recorded mid := by
  unfold build
  refine meets_recorded_plan fun g => ?_
  cases hsegment : g.segments[index]? with
  | none =>
    rintro ⟨_, done, t⟩ ⟨rfl, hp⟩
    obtain ⟨s, hs, -⟩ := h g done hp
    cases hsegment.symm.trans hs
  | some s =>
    refine Meets.bind (meets_written (fun now r => mid (now.mark index) r) ?_ ?_) fun _ =>
      meets_writing mid fun _ _ hp => hp
    · exact fun now done t hp => hstop now done t hp.2
    · rintro _ done ⟨rfl, hp⟩
      obtain ⟨s', hs', hmid⟩ := h g done hp
      cases hsegment.symm.trans hs'
      exact hmid

/-! ### Roots -/

theorem mem_roots {index : Nat} (h : index ∈ g.roots) :
    ∃ s, g.segments[index]? = some s ∧ s.depth = 0 := by
  have hf := (List.mem_filter.mp (List.mem_of_mem_take h)).2
  cases hs : g.segments[index]? with
  | none => simp [hs] at hf
  | some s => exact ⟨s, rfl, by simpa [hs] using hf⟩

theorem roots_length_le (g : Growth α) : g.roots.length ≤ g.total := by
  calc g.roots.length ≤ ((List.range g.total).filter _).length := List.length_take_le' _ _
    _ ≤ (List.range g.total).length := List.length_filter_le _ _
    _ = g.total := List.length_range

theorem roots_sorted (g : Growth α) : g.roots.Pairwise (· < ·) :=
  ((List.pairwise_lt_range (n := g.total)).filter _).take

/-- What lies on the trunk before a root is a root. -/
theorem roots_before {index earlier : Nat} {s : Segment α} (h : index ∈ g.roots)
    (hlt : earlier < index) (hs : g.segments[earlier]? = some s) (hdepth : s.depth = 0) :
    earlier ∈ g.roots := by
  unfold roots at h ⊢
  generalize htrunk : (List.range g.total).filter _ = trunk at h ⊢
  have hsorted : trunk.Pairwise (· < ·) := by
    rw [← htrunk]
    exact (List.pairwise_lt_range (n := g.total)).filter _
  have hmem : earlier ∈ trunk := by
    rw [← htrunk, List.mem_filter, List.mem_range]
    exact ⟨(Array.getElem?_eq_some_iff.mp hs).1, by simp [hs, hdepth]⟩
  obtain ⟨i, hi, rfl⟩ := List.mem_take_iff_getElem.mp h
  obtain ⟨j, hj, rfl⟩ := List.mem_iff_getElem.mp hmem
  have hji : j < i := by
    apply Nat.lt_of_not_le
    intro hle
    rcases Nat.eq_or_lt_of_le hle with rfl | hij
    · exact Nat.lt_irrefl _ hlt
    · exact Nat.lt_asymm hlt (List.pairwise_iff_getElem.mp hsorted i j _ hj hij)
  exact List.mem_take_iff_getElem.mpr ⟨j, by omega, rfl⟩

/-- Roots are placed on new plans only. -/
theorem placeRoots_of_ne {p : Growth α × σ} (h : p.1.stage ≠ .seeded) :
    placeRoots crew p = ⟨.ok 0, p, [(.rootedAgain p.1.stage, p)]⟩ := by
  simp [placeRoots, plan, h, Except.map]

/-- A property that building a root after all the earlier ones does not take away. -/
structure Rooting (kept : Growth α → List (Task α) → Prop) : Prop where
  books : ∀ g done, kept g done → Books g done
  built : ∀ g done index s, kept g done → index ∈ g.roots →
    (∀ i ∈ g.roots, i < index → g.isBuilt i = true) → g.segments[index]? = some s →
    g.isBuilt index = false → kept (g.mark index) (done ++ [.segment s index])

/-- Something was kept until the roots of a plan had been placed. -/
def Rooted (kept : Growth α → List (Task α) → Prop) (g : Growth α) (done : List (Task α)) : Prop :=
  g.stage ≠ .seeded ∧ (kept g done ∨
    ∃ was : Growth α, was.stage = .seeded ∧ kept was done ∧ g = { was with stage := .rooted })

section
variable {kept : Growth α → List (Task α) → Prop} (h : Rooting kept)
include h

theorem meets_buildRoots (crew : Crew α σ) (built rest : List Nat) :
    Meets (Recorded fun g r => kept g r ∧ g.roots = built ++ rest ∧
        (∀ i ∈ built, g.isBuilt i = true) ∧ ∀ i ∈ rest, g.isBuilt i = false)
      (forEach rest (build (recording crew))) (Recorded kept) fun _ => Recorded kept := by
  induction rest generalizing built with
  | nil => exact .pure fun _ hp => hp.1
  | cons index rest ih =>
    unfold forEach
    refine Meets.bind (meets_recording (fun g r => kept g r ∧
      g.roots = (built ++ [index]) ++ rest ∧ (∀ i ∈ built ++ [index], g.isBuilt i = true) ∧
        ∀ i ∈ rest, g.isBuilt i = false) (fun _ _ _ hp => hp.1) ?_) fun _ => ?_
    · rintro g r ⟨hp, hroots, hbuilt, hnew⟩
      have hmem : index ∈ g.roots := by simp [hroots]
      have hsorted := roots_sorted g
      rw [hroots, List.pairwise_append, List.pairwise_cons] at hsorted
      obtain ⟨-, ⟨hlater, -⟩, hearlier⟩ := hsorted
      obtain ⟨s, hs, -⟩ := mem_roots hmem
      have hsize : index < g.built.size := by
        rw [(h.books g r hp).size]
        exact (Array.getElem?_eq_some_iff.mp hs).1
      refine ⟨s, hs, h.built g r index s hp hmem ?_ hs (hnew index List.mem_cons_self), ?_, ?_, ?_⟩
      · intro i hi hlt
        rw [hroots] at hi
        rcases List.mem_append.mp hi with hi | hi
        · exact hbuilt i hi
        · rcases List.mem_cons.mp hi with rfl | hi
          · exact absurd hlt (Nat.lt_irrefl i)
          · exact absurd hlt (Nat.lt_asymm (hlater i hi))
      · exact hroots.trans (by simp)
      · intro i hi
        rw [isBuilt_mark g hsize]
        rcases List.mem_append.mp hi with hi | hi
        · exact .inr (hbuilt i hi)
        · exact .inl (List.mem_singleton.mp hi)
      · intro i hi
        rw [← Bool.not_eq_true, isBuilt_mark g hsize]
        rintro (rfl | hb)
        · exact Nat.lt_irrefl i (hlater i hi)
        · rw [hnew i (List.mem_cons_of_mem index hi)] at hb
          cases hb
    · exact Meets.bind (ih (built ++ [index])) fun _ => .pure fun _ hp => hp

/-- Building roots does not move a plan on. -/
theorem Rooting.seeded : Rooting fun g r => kept g r ∧ g.stage = .seeded where
  books g r hp := h.books g r hp.1
  built g r index s hp hmem hearlier hs hnew :=
    ⟨h.built g r index s hp.1 hmem hearlier hs hnew, hp.2⟩

/-- Roots are placed once, on a plan of which nothing is built. -/
theorem meets_placeRoots (crew : Crew α σ) :
    Meets (Recorded fun g r => kept g r ∧ (g.stage = .seeded → r = []))
      (placeRoots (recording crew)) (Recorded kept) fun _ => Recorded (Rooted kept) := by
  unfold placeRoots
  refine meets_recorded_plan fun g => ?_
  split
  · rename_i hstage
    refine Meets.bind (.note _) fun _ => .pure ?_
    rintro ⟨_, r, t⟩ ⟨rfl, hp, -⟩
    exact ⟨hstage, .inl hp⟩
  · rename_i hstage
    have hseeded : g.stage = .seeded := Decidable.not_not.mp hstage
    have hbuild := (meets_buildRoots h.seeded crew [] g.roots).stop fun _ hp => hp.1
    refine Meets.bind (hbuild.of_pre ?_) fun _ => ?_
    · rintro ⟨_, r, t⟩ ⟨rfl, hp, hfresh⟩
      have hnone : r = [] := hfresh hseeded
      have hbooks : Books g r := h.books g r hp
      rw [hnone] at hbooks
      exact ⟨⟨hp, hseeded⟩, rfl, by simp, fun i _ => hbooks.unbuilt i⟩
    · refine Meets.bind (meets_writing (Rooted kept) ?_) fun _ => .pure fun _ hp => hp
      exact fun was r hp => ⟨by simp, .inr ⟨was, hp.2, hp.1, rfl⟩⟩

end

section
variable [Scalar α]

/-- A property of a plan and the record of its crew that no single step of a tick takes away. -/
structure Steadfast (kept : Growth α → List (Task α) → Prop) : Prop where
  books : ∀ g done, kept g done → Books g done
  built : ∀ g done s target, kept g done → g.segments[g.cursor]? = some s →
    g.isBuilt g.cursor = false → Scalar.floor (g.growth * (g.total : α)) = .ok target →
    (g.count : Int) < target → kept (g.mark g.cursor) (done ++ [.segment s g.cursor])
  passed : ∀ g done, kept g done → g.isBuilt g.cursor = true →
    kept { g with cursor := g.cursor + 1 } done
  braced : ∀ g done, kept g done → g.bracesDue = true →
    kept { g with braced := true, stage := .braced } (done ++ [.braces g.builtSegments])
  hung : ∀ g done, kept g done → g.fruitsDue = true →
    kept { g with fruited := true, stage := .steady } (done ++ [.fruits g.fruits])

/-- What a tick does after the plant has gained. -/
def work (crew : Crew α σ) : Plan α σ Nat := do
  let done ← buildDue crew
  brace crew
  hang crew
  return done

theorem advance_apply (p : Growth α × σ) : advance crew p =
    if p.1.stage = .steady then ⟨.ok 0, p, []⟩ else work crew (p.1.gain, p.2) := by
  unfold advance work
  by_cases hs : p.1.stage = .steady
  · simp [plan, hs]
  · simp [plan, hs, record]

theorem gain_rank (g : Growth α) : Stage.growing.rank ≤ g.gain.stage.rank := by
  unfold Growth.gain
  cases g.stage <;> simp [Stage.rank]

variable {kept : Growth α → List (Task α) → Prop}

theorem keeps_brace (crew : Crew α σ) (h : ∀ g done, kept g done → g.bracesDue = true →
    kept { g with braced := true, stage := .braced } (done ++ [.braces g.builtSegments])) :
    Keeps (Recorded kept) (brace (recording crew)) := by
  refine Meets.keeps ?_
  unfold brace
  refine meets_recorded_plan fun g => ?_
  split
  · rename_i hdue
    refine Meets.bind (meets_written
      (fun now r => kept { now with braced := true, stage := .braced } r)
      (fun _ _ _ hp => hp.2) ?_) fun made => ?_
    · rintro _ r ⟨rfl, hp⟩
      exact h g r hp hdue
    · exact Meets.bind (meets_writing kept fun _ _ hp => hp) fun _ => .note _
  · exact .pure fun _ hp => hp.2

omit [Scalar α] in
theorem keeps_hang (crew : Crew α σ) (h : ∀ g done, kept g done → g.fruitsDue = true →
    kept { g with fruited := true, stage := .steady } (done ++ [.fruits g.fruits])) :
    Keeps (Recorded kept) (hang (recording crew)) := by
  refine Meets.keeps ?_
  unfold hang
  refine meets_recorded_plan fun g => ?_
  split
  · rename_i hdue
    refine Meets.bind (meets_written
      (fun now r => kept { now with fruited := true, stage := .steady } r)
      (fun _ _ _ hp => hp.2) ?_) fun hung => ?_
    · rintro _ r ⟨rfl, hp⟩
      exact h g r hp hdue
    · refine Meets.bind (meets_writing (fun now r => kept { now with stage := .steady } r)
        fun _ _ hp => hp) fun _ => ?_
      exact Meets.bind (.note _) fun _ => meets_writing kept fun _ _ hp => hp
  · exact .pure fun _ hp => hp.2

variable (h : Steadfast kept)
include h

/-- A batch builds while fewer segments stand than are due. -/
theorem meets_buildBatch (crew : Crew α σ) (target budget : Int) (done left : Nat) :
    Meets (Recorded fun g r => kept g r ∧ Scalar.floor (g.growth * (g.total : α)) = .ok target ∧
        (g.count : Int) + budget ≤ target + done)
      (buildBatch (recording crew) budget done left) (Recorded kept) fun _ => Recorded kept := by
  induction left generalizing done with
  | zero => exact .pure fun _ hp => hp.1
  | succ left ih =>
    unfold buildBatch
    refine meets_recorded_plan fun g => ?_
    dsimp only
    split
    · rename_i hdue
      simp only [Bool.and_eq_true, decide_eq_true_eq] at hdue
      obtain ⟨hbudget, hcursor⟩ := hdue
      split
      · rename_i hnew
        simp only [Bool.not_eq_true'] at hnew
        refine Meets.bind (meets_recording (fun g r => (kept g r ∧
          Scalar.floor (g.growth * (g.total : α)) = .ok target ∧
          (g.count : Int) + budget ≤ target + (done + 1 : Nat)) ∧ g.isBuilt g.cursor = true)
          ?_ ?_) fun _ => ?_
        · exact fun _ _ _ hp => hp.2.1
        · rintro _ r ⟨rfl, hp, hfloor, hcount⟩
          have hs := Array.getElem?_eq_getElem hcursor
          have hlt : (g.count : Int) < target := by omega
          refine ⟨_, hs, ⟨h.built g r _ target hp hs hnew hfloor hlt, hfloor, ?_⟩,
            (h.books g r hp).pass_built hs⟩
          simp only [mark]
          omega
        · simp only [hnew]
          refine Meets.bind (meets_writing _ fun g r hp => ?_) fun _ => ih (done + 1)
          exact ⟨h.passed g r hp.1.1 hp.2, hp.1.2⟩
      · rename_i hstands
        simp only [Bool.not_eq_true', Bool.not_eq_false] at hstands
        simp only [hstands]
        refine Meets.bind (meets_writing _ ?_) fun _ => ih done
        rintro _ r ⟨rfl, hp, hrest⟩
        exact ⟨h.passed g r hp hstands, hrest⟩
    · refine .pure ?_
      rintro ⟨_, r, t⟩ ⟨rfl, hp, _⟩
      exact hp

theorem keeps_buildDue (crew : Crew α σ) : Keeps (Recorded kept) (buildDue (recording crew)) := by
  refine Meets.keeps ?_
  unfold buildDue
  refine meets_recorded_plan fun g => ?_
  split
  · refine Meets.bind (Meets.ofExcept _ fun p hp => hp.2) fun target => ?_
    refine (meets_buildBatch h crew target _ 0 _).of_pre ?_
    rintro ⟨_, r, t⟩ ⟨hfloor, rfl, hp⟩
    refine ⟨hp, hfloor, ?_⟩
    have hle : min (g.batchSize : Int) (target - g.count) ≤ target - g.count := Int.min_le_right _ _
    dsimp only
    omega
  · exact .pure fun _ hp => hp.2

/-- What no step of a tick takes away, a tick keeps, also where it stops. -/
theorem keeps_work (crew : Crew α σ) : Keeps (Recorded kept) (work (recording crew)) := by
  unfold work
  refine .bind (keeps_buildDue h crew) fun done => ?_
  refine .bind (keeps_brace crew h.braced) fun _ => ?_
  exact .bind (keeps_hang crew h.hung) fun _ => .pure done

/-- A tick leaves a steady plan alone, and keeps of any other what no step takes away. -/
theorem advance_keeps (crew : Crew α σ) {p : Growth α × List (Task α) × σ}
    (hgain : p.1.stage ≠ .steady → kept p.1.gain p.2.1) :
    p.1.stage = .steady ∧ (advance (recording crew) p).state = p ∨
      p.1.stage ≠ .steady ∧ Recorded kept (advance (recording crew) p).state := by
  rw [advance_apply]
  split
  · rename_i hsteady
    exact .inl ⟨hsteady, rfl⟩
  · rename_i hstage
    exact .inr ⟨hstage, keeps_work h crew (p.1.gain, p.2) (hgain hstage)⟩

end

end Arboretum.Growth
