import Arboretum.Proofs.Binary64.Order
import Arboretum.Proofs.Growth.Batches
import Arboretum.Proofs.Growth.Course

/-!
The pace of growth. When the roots have been placed, ticks build the rest of the skeleton in its
order: as much as the growth asks for, no more than a batch at a time, and at first nothing.
-/
namespace Arboretum.Growth

open Arboretum.Action

variable {α σ : Type} {g : Growth α} {done : List (Task α)}

/-- The numbers of the segments of the trunk. -/
def trunk (segments : Array (Segment α)) : List Nat :=
  (List.range segments.size).filter fun i => (segments[i]?.map (·.depth)) == some 0

theorem roots_eq (g : Growth α) : g.roots = (trunk g.segments).take 3 := by
  unfold roots trunk
  congr 1
  apply List.filter_congr
  intro i _
  cases g.segments[i]? with
  | none => rfl
  | some s => rfl

/-- What a tick has built, `n` segments, of what was missing before. -/
structure Portion (was : Growth α) (n : Nat) (now : Growth α) (later : List (Task α)) : Prop where
  few : n ≤ was.batchSize
  length : (numbers later).length = n
  order : numbers later = was.missing.take n
  rest : now.missing = was.missing.drop n
  count : now.count = was.count + n

variable [Scalar α]

/-- A plan has built what it has come past, and its roots, and no more than its growth asks for. -/
structure Pace (segments : Array (Segment α)) (g : Growth α) (done : List (Task α)) : Prop where
  marks : ∀ i, g.isBuilt i = true ↔ i ∈ numbers done
  reach : ∀ i, i ∈ numbers done ↔ i < g.cursor ∨ i ∈ (trunk segments).take 3
  most : ∀ target, Scalar.floor (g.growth * (segments.size : α)) = .ok target →
    (g.count : Int) ≤ max target ((trunk segments).take 3).length
  whole : Gives (Scalar.floor (segments.size : α)) →
    Gives (Scalar.floor (g.growth * (segments.size : α)))
  young : g.growth ≤ startFraction → ∀ i ∈ numbers done, i ∈ (trunk segments).take 3

/-- What holds of a plan whose roots have been placed before anything else. -/
structure Paced (segments : Array (Segment α)) (g : Growth α) (done : List (Task α)) : Prop where
  course : Course g done
  skeleton : g.segments = segments
  stage : g.stage ≠ .seeded
  pace : Pace segments g done

/-- A share of what can be counted can be counted. -/
theorem Course.whole [Scalar.Ordered α] (h : Course g done) {n : Nat}
    (hn : Gives (Scalar.floor (n : α))) : Gives (Scalar.floor (g.growth * (n : α))) := by
  obtain ⟨t, ht⟩ := hn
  rw [← Scalar.Ordered.floor_one_mul] at ht
  obtain ⟨s, -, hs⟩ := Scalar.Ordered.floor_mul h.low h.high ht
  exact ⟨s, hs⟩

variable [Scalar.Lawful α] [Scalar.Ordered α] {crew : Crew α σ} {segments : Array (Segment α)}

omit [Scalar.Lawful α] in
theorem Paced.placed {g₀ : Growth α} (hcursor : g₀.cursor = 0)
    (hlaid : Laid g₀ g₀.roots g done) (hcourse : Course g done) (hstage : g.stage ≠ .seeded) :
    Paced g₀.segments g done := by
  have hroots := roots_eq g₀
  refine ⟨hcourse, hlaid.segments, hstage, hcourse.books.marks, ?_, ?_, hcourse.whole, ?_⟩
  · intro i
    rw [hlaid.told, hlaid.cursor, hcursor, ← hroots]
    simp
  · intro target _
    rw [hcourse.books.count, hlaid.told, hroots]
    exact Int.le_max_right _ _
  · intro _ i hi
    rwa [hlaid.told, hroots] at hi

omit [Scalar.Lawful α] [Scalar.Ordered α] in
/-- What a tick builds of a plan that is not steady. -/
theorem Batch.portion {now : Growth α} {n : Nat} (h : Books g done) {later : List (Task α)}
    (hbatch : Batch g.gain done n now (done ++ later)) (hshare : Share g.gain n now) :
    Portion g n now later := by
  obtain ⟨htold, hlength, hrest⟩ := hbatch.missing_eq
  rw [numbers_append, List.append_cancel_left_eq] at htold
  refine ⟨hshare.few, ?_, htold, hrest, hbatch.count (h.restage rfl rfl rfl rfl)⟩
  rw [htold, List.length_take, Nat.min_eq_left hlength]

theorem Paced.advance {p q : Growth α × List (Task α) × σ} (h : Paced segments p.1 p.2.1) {n : Nat}
    {notes : List (Note α × Growth α × List (Task α) × σ)}
    (he : advance (recording crew) p = ⟨.ok n, q, notes⟩) :
    Paced segments q.1 q.2.1 ∧ ∃ later, q.2.1 = p.2.1 ++ later ∧ Portion p.1 n q.1 later := by
  obtain ⟨hsince, hstage⟩ := advance_course h.course ⟨n, notes, he⟩
  by_cases hsteady : p.1.stage = .steady
  · rw [advance_apply, if_pos hsteady] at he
    cases he
    exact ⟨h, [], (List.append_nil _).symm, Nat.zero_le _, rfl, rfl, rfl, rfl⟩
  obtain ⟨hbatch, hshare⟩ := advance_batch h.course.books hsteady he
  obtain ⟨later, hlater⟩ := hsince.more
  rw [← hlater] at hbatch
  have hportion := hbatch.portion h.course.books hshare
  refine ⟨⟨hsince.course, hsince.onward.segments.trans h.skeleton, hstage,
    hsince.course.books.marks, ?_, ?_, hsince.course.whole, ?_⟩, later, hlater.symm, hportion⟩
  · intro i
    constructor
    · intro hi
      rcases Nat.lt_or_ge i q.1.cursor with hlt | hge
      · exact .inl hlt
      · have hwas : p.1.isBuilt i = true :=
          (hbatch.ahead i hge).symm.trans ((hsince.course.books.marks i).mpr hi)
        rcases (h.pace.reach i).mp ((h.pace.marks i).mp hwas) with hlt | hroot
        · exact .inl (Nat.lt_of_lt_of_le hlt hbatch.onward)
        · exact .inr hroot
    · rintro (hlt | hroot)
      · exact (hsince.course.books.marks i).mp (hsince.course.books.passed i hlt)
      · have hwas := (h.pace.reach i).mpr (.inr hroot)
        rw [← hlater, numbers_append]
        exact List.mem_append_left _ hwas
  · intro target htarget
    have hgain := (h.course.gain hsteady).2.growth
    rw [hbatch.growth] at htarget
    obtain ⟨earlier, hle, hearlier⟩ := Scalar.Ordered.floor_mul h.course.low hgain htarget
    have hmost := h.pace.most earlier hearlier
    have hn : (n : Int) ≤ max 0 (target - p.1.count) := by
      by_cases hlater : startFraction < p.1.gain.growth
      · obtain ⟨due, hdue, hn, -⟩ := hshare.due hlater
        have hsize : p.1.gain.total = segments.size := congrArg Array.size h.skeleton
        rw [hsize] at hdue
        cases hdue.symm.trans htarget
        exact hn
      · have hnone := hshare.young hlater
        omega
    rw [hportion.count]
    omega
  · intro hyoung
    have hgain := (h.course.gain hsteady).2.growth
    rw [hbatch.growth] at hyoung
    have hnone := hshare.young (Scalar.Ordered.not_lt_of_le hyoung)
    have hnew : numbers later = [] := List.length_eq_zero_iff.mp (hportion.length.trans hnone)
    rw [← hlater, numbers_append, hnew, List.append_nil]
    exact h.pace.young (Scalar.Lawful.le_trans hgain hyoung)

theorem Paced.uses (calls : List Call) {p q : Growth α × List (Task α) × σ}
    (h : Paced segments p.1 p.2.1) (he : Ends (uses (recording crew) calls) p q) :
    Paced segments q.1 q.2.1 := by
  induction calls generalizing p with
  | nil =>
    obtain ⟨_, _, he⟩ := he
    cases he
    exact h
  | cons call calls ih =>
    obtain ⟨m, hfirst, hrest⟩ := he.of_cons
    cases call with
    | roots =>
      obtain ⟨_, _, hfirst⟩ := hfirst
      cases (placeRoots_of_ne h.stage).symm.trans hfirst
      exact ih h hrest
    | tick =>
      obtain ⟨n, notes, hfirst⟩ := hfirst
      exact ih (h.advance hfirst).1 hrest

/-- From its roots on, a plant is built in the order of its skeleton: what stands is what the plan
has come past and the roots, not more than the growth asks for and nothing else while that is small;
and every tick builds the first of what is missing, as many as it says and no more than a batch. -/
theorem builds_in_order {fruits : List (Fruit α)} {rate divisor : α} {g₀ : Growth α}
    (hrate : 0 ≤ rate) (hnew : Growth.new segments fruits rate divisor = .ok g₀)
    (crew : Crew α σ) {s₀ : σ} {calls : List Call} {p : Growth α × σ}
    (hp : Ends (uses crew (.roots :: calls)) (g₀, s₀) p) :
    ∃ done, Ends (Growth.uses (recording crew) (.roots :: calls)) (g₀, [], s₀) (p.1, done, p.2) ∧
      Pace segments p.1 done ∧
      ∀ n q notes, Growth.advance crew p = ⟨.ok n, q, notes⟩ → ∃ later,
        Ends (Growth.advance (recording crew)) (p.1, done, p.2) (q.1, done ++ later, q.2) ∧
          Portion p.1 n q.1 later := by
  have hcourse := Course.new hrate hnew
  have hfresh : g₀.stage = .seeded ∧ g₀.cursor = 0 ∧ g₀.segments = segments := by
    obtain ⟨_, rfl⟩ := of_new hnew
    exact ⟨rfl, rfl, rfl⟩
  obtain ⟨hseeded, hcursor, hsegments⟩ := hfresh
  obtain ⟨⟨g, done, s⟩, hcalls, rfl⟩ := (mirrors_uses (.roots :: calls)).ends (t := (g₀, [], s₀)) hp
  have hpaced : Paced segments g done := by
    obtain ⟨m, hfirst, hrest⟩ := hcalls.of_cons
    obtain ⟨hsince, hstage⟩ := placeRoots_course (p := (g₀, [], s₀)) hcourse (fun _ => rfl) hfirst
    have hlaid := ((meets_rooting crew hcourse.books hseeded).ends ⟨rfl, rfl⟩ hfirst).1
    rw [← hsegments]
    exact (Paced.placed hcursor hlaid hsince.course hstage).uses calls hrest
  refine ⟨done, hcalls, hpaced.pace, fun n q notes he => ?_⟩
  obtain ⟨⟨g', all, s'⟩, told, htold, rfl⟩ := mirrors_advance.returns (t := (g, done, s)) he
  obtain ⟨-, later, rfl, hportion⟩ := Paced.advance (p := (g, done, s)) hpaced htold
  exact ⟨later, ⟨n, told, htold⟩, hportion⟩

/-- The twig between the two roots of the shoot is built last. -/
theorem builds_in_order_shoot :
    (0 : Float) ≤ 0.5 ∧ Growth.new shoots [] 0.5 50.0 = .ok shoot ∧
      Ends (uses tally [.roots, .tick]) (shoot, 0) early ∧ trunk shoots = [0, 2] ∧
      early.1.missing = [1] ∧
      ∃ done, Ends (Growth.uses (recording tally) [.roots, .tick]) (shoot, [], 0)
          (early.1, done, early.2) ∧ Pace shoots early.1 done ∧
        ∀ n q notes, Growth.advance tally early = ⟨.ok n, q, notes⟩ → ∃ later,
          Ends (Growth.advance (recording tally)) (early.1, done, early.2)
            (q.1, done ++ later, q.2) ∧ Portion early.1 n q.1 later := by
  have hrate : (0 : Float) ≤ 0.5 := by decide +kernel
  have hnew : Growth.new shoots [] 0.5 50.0 = .ok shoot := rfl
  have hearly : Ends (uses tally [.roots, .tick]) (shoot, 0) early := .of_isOk (by decide +kernel)
  exact ⟨hrate, hnew, hearly, by decide +kernel, by decide +kernel,
    builds_in_order hrate hnew tally hearly⟩

end Arboretum.Growth
