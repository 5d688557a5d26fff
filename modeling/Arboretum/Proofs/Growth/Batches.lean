import Arboretum.Proofs.Growth.Books

/-!
What a tick of growth builds: the first of the segments that are still missing, in the order of the
skeleton, as many as it answers; and as many as are due, unless the batch is full or nothing is
missing.
-/
namespace Arboretum.Growth

open Arboretum.Action

variable {α σ : Type} {g : Growth α} {done : List (Task α)}

/-- The numbers of the segments that are still to be built, in the order of the skeleton. -/
def missing (g : Growth α) : List Nat := (List.range g.total).filter fun i => !g.isBuilt i

/-- What is missing at the cursor is missing first. -/
theorem Books.missing_mark (h : Books g done) {s : Segment α}
    (hs : g.segments[g.cursor]? = some s) (hnew : g.isBuilt g.cursor = false) :
    g.missing = g.cursor :: (g.mark g.cursor).missing := by
  have hlt : g.cursor < g.total := (Array.getElem?_eq_some_iff.mp hs).1
  have hsize : g.cursor < g.built.size := by
    rw [h.size]
    exact hlt
  have hrange : List.range g.total =
      List.range g.cursor ++ g.cursor :: List.range' (g.cursor + 1) (g.total - g.cursor - 1) := by
    have hone : g.total - g.cursor = (g.total - g.cursor - 1) + 1 := by omega
    have happend := List.range'_append_1 (s := 0) (m := g.cursor) (n := g.total - g.cursor)
    rw [Nat.zero_add, Nat.add_sub_cancel' (Nat.le_of_lt hlt)] at happend
    rw [List.range_eq_range', List.range_eq_range', ← List.range'_succ, ← hone, happend]
  have hbefore : ∀ i ∈ List.range g.cursor, ¬ (!g.isBuilt i) = true := by
    intro i hi
    simp [h.passed i (List.mem_range.mp hi)]
  have hbefore' : ∀ i ∈ List.range g.cursor, ¬ (!(g.mark g.cursor).isBuilt i) = true := by
    intro i hi
    have hbuilt := (isBuilt_mark g hsize i).mpr (.inr (h.passed i (List.mem_range.mp hi)))
    simp [hbuilt]
  have hself : (g.mark g.cursor).isBuilt g.cursor = true :=
    (isBuilt_mark g hsize _).mpr (.inl rfl)
  unfold missing
  rw [show (g.mark g.cursor).total = g.total from rfl, hrange, List.filter_append,
    List.filter_append, List.filter_eq_nil_iff.mpr hbefore, List.filter_eq_nil_iff.mpr hbefore',
    List.filter_cons_of_pos (by simp [hnew]), List.filter_cons_of_neg (by simp [hself]),
    List.nil_append, List.nil_append]
  congr 1
  apply List.filter_congr
  intro i hi
  have hle := (List.mem_range'_1.mp hi).1
  rw [isBuilt_mark_of_ne g (by omega)]

/-- From an earlier moment on, `n` segments have been built: the first that were missing then. -/
structure Batch (was : Growth α) (first : List (Task α)) (n : Nat) (now : Growth α)
    (done : List (Task α)) : Prop where
  books : Books now done
  segments : now.segments = was.segments
  rate : now.rate = was.rate
  divisor : now.divisor = was.divisor
  growth : now.growth = was.growth
  onward : was.cursor ≤ now.cursor
  /-- Beyond the cursor nothing has changed. -/
  ahead : ∀ i, now.cursor ≤ i → now.isBuilt i = was.isBuilt i
  told : ∃ new, new.length = n ∧ numbers done = numbers first ++ new ∧
    was.missing = new ++ now.missing

namespace Batch

variable {was : Growth α} {first : List (Task α)} {n : Nat}

theorem refl (h : Books g done) : Batch g done 0 g done where
  books := h
  segments := rfl
  rate := rfl
  divisor := rfl
  growth := rfl
  onward := Nat.le_refl _
  ahead _ _ := rfl
  told := ⟨[], rfl, (List.append_nil _).symm, rfl⟩

theorem count (h : Batch was first n g done) (hwas : Books was first) :
    g.count = was.count + n := by
  obtain ⟨new, rfl, hdone, -⟩ := h.told
  rw [h.books.count, hdone, List.length_append, hwas.count]

theorem missing_eq (h : Batch was first n g done) :
    numbers done = numbers first ++ was.missing.take n ∧ n ≤ was.missing.length ∧
      g.missing = was.missing.drop n := by
  obtain ⟨new, rfl, hdone, hmissing⟩ := h.told
  rw [hmissing, List.take_left, List.drop_left, List.length_append]
  exact ⟨hdone, Nat.le_add_right _ _, rfl⟩

variable (h : Batch was first n g done)
include h

theorem build {s : Segment α} (hs : g.segments[g.cursor]? = some s)
    (hnew : g.isBuilt g.cursor = false) :
    Batch was first (n + 1) { g.mark g.cursor with cursor := g.cursor + 1 }
      (done ++ [.segment s g.cursor]) := by
  refine ⟨(h.books.mark hs hnew).pass (h.books.pass_built hs), h.segments, h.rate, h.divisor,
    h.growth, Nat.le_succ_of_le h.onward, ?_, ?_⟩
  · intro i hi
    exact (isBuilt_mark_of_ne g (Nat.ne_of_gt hi)).trans (h.ahead i (Nat.le_of_lt hi))
  · obtain ⟨new, hlength, hdone, hmissing⟩ := h.told
    refine ⟨new ++ [g.cursor], by simp [hlength], ?_, ?_⟩
    · rw [numbers_append, numbers_segment, hdone, List.append_assoc]
    · rw [hmissing, h.books.missing_mark hs hnew, List.append_assoc]
      rfl

theorem pass (hbuilt : g.isBuilt g.cursor = true) :
    Batch was first n { g with cursor := g.cursor + 1 } done :=
  ⟨h.books.pass hbuilt, h.segments, h.rate, h.divisor, h.growth, Nat.le_succ_of_le h.onward,
    fun i hi => h.ahead i (Nat.le_of_succ_le hi), h.told⟩

/-- Braces and fruits are no segments. -/
theorem furnish {task : Task α} (htask : task.number? = none) (stage : Stage)
    (braced fruited : Bool) :
    Batch was first n { g with stage := stage, braced := braced, fruited := fruited }
      (done ++ [task]) := by
  refine ⟨(h.books.enter htask).restage rfl rfl rfl rfl, h.segments, h.rate, h.divisor, h.growth,
    h.onward, h.ahead, ?_⟩
  rw [numbers_enter htask]
  exact h.told

end Batch

/-! ### Roots -/

/-- Segments of the given numbers have been built, and nothing else has been done. -/
structure Laid (was : Growth α) (ns : List Nat) (now : Growth α) (done : List (Task α)) : Prop where
  books : Books now done
  segments : now.segments = was.segments
  rate : now.rate = was.rate
  divisor : now.divisor = was.divisor
  growth : now.growth = was.growth
  cursor : now.cursor = was.cursor
  told : numbers done = ns

variable {was : Growth α} {first : List (Task α)}

theorem meets_laying (crew : Crew α σ) {before rest : List Nat}
    (hrest : ∀ i ∈ rest, i < was.total) (honce : (before ++ rest).Nodup) :
    Meets (Recorded (Laid was before)) (forEach rest (build (recording crew))) (fun _ => True)
      fun _ => Recorded (Laid was (before ++ rest)) := by
  induction rest generalizing before with
  | nil =>
    rw [List.append_nil]
    exact .pure fun _ hp => hp
  | cons index rest ih =>
    obtain ⟨hindex, hrest⟩ := List.forall_mem_cons.mp hrest
    have hfree : index ∉ before := fun hmem =>
      (List.disjoint_of_nodup_append honce) hmem List.mem_cons_self
    rw [List.append_cons] at honce ⊢
    unfold forEach
    refine Meets.bind (meets_recording (Laid was (before ++ [index]))
      (fun _ _ _ _ => trivial) ?_) fun _ => ?_
    · intro g r hp
      have hlt : index < g.segments.size := by
        rw [hp.segments]
        exact hindex
      have hs := Array.getElem?_eq_getElem hlt
      have hnew : g.isBuilt index = false := by
        rw [← Bool.not_eq_true, hp.books.marks, hp.told]
        exact hfree
      refine ⟨_, hs, hp.books.mark hs hnew, hp.segments, hp.rate, hp.divisor, hp.growth, hp.cursor,
        ?_⟩
      rw [numbers_append, numbers_segment, hp.told]
    · exact (ih hrest honce).bind fun _ => .pure fun _ hp => hp

/-- What stands when the roots have been placed. -/
theorem meets_rooting (crew : Crew α σ) (h : Books was []) (hstage : was.stage = .seeded) :
    Meets (Recorded fun g r => g = was ∧ r = []) (placeRoots (recording crew)) (fun _ => True)
      fun _ => Recorded fun g r => Laid was was.roots g r ∧ g.stage ≠ .seeded := by
  have hmem : ∀ i ∈ was.roots, i < was.total := by
    intro i hi
    obtain ⟨s, hs, -⟩ := mem_roots hi
    exact (Array.getElem?_eq_some_iff.mp hs).1
  have honce : was.roots.Nodup := (roots_sorted was).imp Nat.ne_of_lt
  unfold placeRoots
  refine meets_recorded_plan fun g => ?_
  refine .assume (g = was) (fun _ hp => hp.1.trans hp.2.1) ?_
  rintro rfl
  rw [if_neg (by simp [hstage])]
  have hlaying : Meets (Recorded (Laid g [])) (forEach g.roots (build (recording crew)))
      (fun _ => True) fun _ => Recorded (Laid g ([] ++ g.roots)) := meets_laying crew hmem honce
  refine Meets.bind (hlaying.of_pre ?_) fun _ => ?_
  · rintro ⟨_, _, t⟩ ⟨rfl, -, rfl⟩
    exact ⟨h, rfl, rfl, rfl, rfl, rfl, rfl⟩
  · refine Meets.bind (meets_writing _ fun now r hp => ?_) fun _ => .pure fun _ hp => hp
    exact ⟨⟨hp.books.restage rfl rfl rfl rfl, hp.segments, hp.rate, hp.divisor, hp.growth,
      hp.cursor, hp.told⟩, by simp⟩

/-! ### Ticks -/

variable (was first) in
theorem meets_batch (crew : Crew α σ) (budget : Int) (n left : Nat) :
    Meets (Recorded fun g r => Batch was first n g r ∧ g.total ≤ g.cursor + left)
      (buildBatch (recording crew) budget n left) (fun _ => True) fun m =>
        Recorded fun g r => Batch was first m g r ∧ (m : Int) ≤ max (n : Int) budget ∧
          (g.total ≤ g.cursor ∨ budget ≤ m) := by
  induction left generalizing n with
  | zero => exact .pure fun _ hp => ⟨hp.1, Int.le_max_left _ _, .inl hp.2⟩
  | succ left ih =>
    unfold buildBatch
    refine meets_recorded_plan fun g => ?_
    dsimp only
    split
    · rename_i hdue
      simp only [Bool.and_eq_true, decide_eq_true_eq] at hdue
      obtain ⟨hbudget, hcursor⟩ := hdue
      have hs := Array.getElem?_eq_getElem hcursor
      split
      · rename_i hnew
        simp only [Bool.not_eq_true'] at hnew
        refine Meets.bind (meets_recording (fun now r =>
          Batch was first (n + 1) { now with cursor := now.cursor + 1 } r ∧
            now.total ≤ now.cursor + 1 + left) (fun _ _ _ _ => trivial) ?_) fun _ => ?_
        · rintro _ r ⟨rfl, hp, hleft⟩
          exact ⟨_, hs, hp.build hs hnew, by simp only [mark, total] at hleft ⊢; omega⟩
        · simp only [hnew]
          refine Meets.bind (meets_writing _ fun g r hp => hp) fun _ => (ih (n + 1)).weaken ?_
          rintro m p ⟨hp, hm, hend⟩
          exact ⟨hp, by omega, hend⟩
      · rename_i hstands
        simp only [Bool.not_eq_true', Bool.not_eq_false] at hstands
        simp only [hstands]
        refine Meets.bind (meets_writing _ ?_) fun _ => ih n
        rintro _ r ⟨rfl, hp, hleft⟩
        exact ⟨hp.pass hstands, by simp only [total] at hleft ⊢; omega⟩
    · rename_i hnone
      simp only [Bool.and_eq_true, decide_eq_true_eq, not_and_or, Int.not_lt, Nat.not_lt] at hnone
      refine .pure ?_
      rintro ⟨_, r, t⟩ ⟨rfl, hp, -⟩
      exact ⟨hp, Int.le_max_left _ _, hnone.symm⟩

variable [Scalar α]

/-- What a tick builds at the growth that the plant has come to. -/
structure Share (was : Growth α) (n : Nat) (now : Growth α) : Prop where
  few : n ≤ was.batchSize
  young : ¬ startFraction < was.growth → n = 0
  due : startFraction < was.growth → ∃ target,
    Scalar.floor (was.growth * (was.total : α)) = .ok target ∧
      (n : Int) ≤ max 0 (target - was.count) ∧
      (now.total ≤ now.cursor ∨ min (was.batchSize : Int) (target - was.count) ≤ n)

theorem meets_buildDue (crew : Crew α σ) (h : Books was first) :
    Meets (Recorded fun g r => g = was ∧ r = first) (buildDue (recording crew)) (fun _ => True)
      fun n => Recorded fun g r => Batch was first n g r ∧ Share was n g := by
  unfold buildDue
  refine meets_recorded_plan fun g => ?_
  split
  · rename_i hlater
    refine Meets.bind (Meets.ofExcept _ fun _ _ => trivial) fun target => ?_
    refine .assume (g = was ∧ Scalar.floor (g.growth * (g.total : α)) = .ok target)
      (fun _ hp => ⟨hp.2.1.trans hp.2.2.1, hp.1⟩) ?_
    rintro ⟨rfl, hfloor⟩
    have hmost : (0 : Int) ≤ g.batchSize := Int.natCast_nonneg _
    refine ((meets_batch g first crew _ 0 _).of_pre ?_).weaken ?_
    · rintro ⟨_, _, t⟩ ⟨-, rfl, -, rfl⟩
      exact ⟨.refl h, by simp only [total]; omega⟩
    · rintro n ⟨now, r, t⟩ ⟨hbatch, hn, hend⟩
      refine ⟨hbatch, ?_, fun hyoung => absurd hlater hyoung, fun _ => ⟨target, hfloor, ?_, hend⟩⟩
      · omega
      · omega
  · rename_i hyoung
    refine .pure ?_
    rintro ⟨_, _, t⟩ ⟨rfl, rfl, rfl⟩
    exact ⟨.refl h, Nat.zero_le _, fun _ => rfl, fun hlater => absurd hlater hyoung⟩

/-- What a tick does, where it is not stopped. -/
theorem meets_work (crew : Crew α σ) (h : Books was first) :
    Meets (Recorded fun g r => g = was ∧ r = first) (work (recording crew)) (fun _ => True)
      fun n => Recorded fun g r => Batch was first n g r ∧ Share was n g := by
  unfold work
  refine (meets_buildDue crew h).bind fun n => ?_
  have hbrace : Keeps (Recorded fun g r => Batch was first n g r ∧ Share was n g)
      (brace (recording crew)) := keeps_brace crew fun g r hp _ =>
    ⟨hp.1.furnish rfl .braced true g.fruited, hp.2.few, hp.2.young, hp.2.due⟩
  have hhang : Keeps (Recorded fun g r => Batch was first n g r ∧ Share was n g)
      (hang (recording crew)) := keeps_hang crew fun g r hp _ =>
    ⟨hp.1.furnish rfl .steady g.braced true, hp.2.few, hp.2.young, hp.2.due⟩
  refine (hbrace.meets.stop fun _ _ => trivial).bind fun _ => ?_
  refine (hhang.meets.stop fun _ _ => trivial).bind fun _ => ?_
  exact .pure fun _ hp => hp

/-- A tick that returns has built as many as it answers, of what was missing. -/
theorem advance_batch {crew : Crew α σ} {p q : Growth α × List (Task α) × σ} {n : Nat}
    {notes : List (Note α × Growth α × List (Task α) × σ)} (h : Books p.1 p.2.1)
    (hstage : p.1.stage ≠ .steady) (he : advance (recording crew) p = ⟨.ok n, q, notes⟩) :
    Batch p.1.gain p.2.1 n q.1 q.2.1 ∧ Share p.1.gain n q.1 := by
  rw [advance_apply, if_neg hstage] at he
  have hgain : Books p.1.gain p.2.1 := h.restage rfl rfl rfl rfl
  have hpost := (meets_work crew hgain (p.1.gain, p.2) ⟨rfl, rfl⟩).2 n (by rw [he])
  rwa [he] at hpost

end Arboretum.Growth
