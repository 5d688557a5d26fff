import Arboretum.Grammar
import Arboretum.Proofs.Binary64.Arithmetic
import Arboretum.Proofs.Growth.Books

/-!
The course of a plant's growth, whatever is asked of its plan and in whatever order: the plan only
moves on, and its crew is told each thing once and in its time.
-/
namespace Arboretum.Growth

open Arboretum.Action

variable {α σ : Type} {g : Growth α} {done : List (Task α)}

/-- The segments of a skeleton with the given numbers, in the order of the skeleton. -/
def numbered (segments : Array (Segment α)) (ns : List Nat) : List (Segment α) :=
  (segments.toList.zipIdx.filter fun (_, i) => i ∈ ns).map (·.1)

/-- The marks and the record name the same segments. -/
theorem Books.builtSegments (h : Books g done) :
    g.builtSegments = numbered g.segments (numbers done) := by
  have hbuilt : g.built.toList = (List.range g.total).map fun i => decide (i ∈ numbers done) := by
    rw [h.accounts.built_eq]
    apply List.map_congr_left
    intro i hi
    rw [Bool.eq_iff_iff, h.marks, decide_eq_true_eq]
  unfold Growth.builtSegments numbered
  rw [hbuilt, List.zipIdx_eq_zip_range', List.zip_map_right, List.filter_map, List.map_map,
    List.range_eq_range']
  rfl

variable [Scalar α]

/-- What may be asked of a crew, judged by what it has done before. -/
def Due (segments : Array (Segment α)) (fruits : List (Fruit α)) (before : List (Task α)) :
    Task α → Prop
  | .segment s index => segments[index]? = some s ∧ index ∉ numbers before
  | .braces braced =>
    braced = numbered segments (numbers before) ∧
      braceFraction * (segments.size : α) ≤ ((numbers before).length : α) ∧
      before.countP Task.isBraces = 0
  | .fruits hung =>
    hung = fruits ∧ (∀ i < segments.size, i ∈ numbers before) ∧
      before.countP Task.isBraces = 1 ∧ before.countP Task.isFruits = 0

/-- A plan and the record of its crew are in order. -/
structure Orderly (g : Growth α) (done : List (Task α)) : Prop where
  low : 0 ≤ g.growth
  high : g.growth ≤ 1
  count : g.count = g.built.toList.count true
  bounded : g.count ≤ g.total
  marks : ∀ i, g.isBuilt i = true ↔ i ∈ numbers done
  once : (numbers done).Nodup
  braces : done.countP Task.isBraces ≤ 1
  fruits : done.countP Task.isFruits ≤ 1
  due : Timely (Due g.segments g.fruits) done
  steady : g.stage = .steady ↔ done.countP Task.isFruits = 1

/-- A plan has only moved on. -/
structure Onward (was now : Growth α) : Prop where
  segments : now.segments = was.segments
  fruits : now.fruits = was.fruits
  stage : was.stage.rank ≤ now.stage.rank
  growth : was.growth ≤ now.growth
  count : was.count ≤ now.count

theorem Onward.trans [Scalar.Lawful α] {was now later : Growth α} (h : Onward was now)
    (h' : Onward now later) : Onward was later where
  segments := h'.segments.trans h.segments
  fruits := h'.fruits.trans h.fruits
  stage := h.stage.trans h'.stage
  growth := Scalar.Lawful.le_trans h.growth h'.growth
  count := h.count.trans h'.count

/-- What holds of a plan and the record of its crew between any two steps. -/
structure Course (g : Growth α) (done : List (Task α)) : Prop where
  books : Books g done
  low : 0 ≤ g.growth
  high : g.growth ≤ 1
  rate : 0 ≤ g.rate
  due : Timely (Due g.segments g.fruits) done
  braced : done.countP Task.isBraces = g.braced.toNat
  fruited : done.countP Task.isFruits = g.fruited.toNat
  young : g.braced = false → g.stage.rank ≤ Stage.growing.rank
  firm : g.fruited = true → g.braced = true
  full : g.fruited = true → g.count = g.total
  steady : g.stage = .steady ↔ g.fruited = true

namespace Course

theorem new [Scalar.Lawful α] {segments : Array (Segment α)} {fruits : List (Fruit α)}
    {rate divisor : α} (hrate : 0 ≤ rate) (h : Growth.new segments fruits rate divisor = .ok g) :
    Course g [] := by
  have hbooks := Books.new h
  have hone := Scalar.Lawful.le_of_lt (Scalar.Lawful.zero_lt_one (α := α))
  obtain ⟨whole, rfl⟩ := of_new h
  exact ⟨hbooks, (Scalar.Lawful.le_self hone).1, hone, hrate, .nil, rfl, rfl, by simp [Stage.rank],
    by simp, by simp, by simp⟩

variable (h : Course g done)
include h

theorem orderly : Orderly g done where
  low := h.low
  high := h.high
  count := h.books.count_marks
  bounded := h.books.count_le
  marks := h.books.marks
  once := h.books.once
  braces := h.braced.trans_le (Bool.toNat_le _)
  fruits := h.fruited.trans_le (Bool.toNat_le _)
  due := h.due
  steady := by
    rw [h.steady, h.fruited]
    simp

theorem mark {s : Segment α} {index : Nat} (hs : g.segments[index]? = some s)
    (hnew : g.isBuilt index = false) : Course (g.mark index) (done ++ [.segment s index]) := by
  have hbooks := h.books.mark hs hnew
  have hfree : index ∉ numbers done := h.books.accounts.fresh hnew
  refine ⟨hbooks, h.low, h.high, h.rate, h.due.concat ⟨hs, hfree⟩, ?_, ?_, h.young, h.firm, ?_,
    h.steady⟩
  · simpa [Task.isBraces, Growth.mark] using h.braced
  · simpa [Task.isFruits, Growth.mark] using h.fruited
  · intro hfruited
    -- A plan that has hung its fruits has nothing left to build.
    have hfull := h.full hfruited
    have hle := hbooks.count_le
    simp only [Growth.mark, total] at hfull hle
    omega

theorem pass (hbuilt : g.isBuilt g.cursor = true) : Course { g with cursor := g.cursor + 1 } done :=
  ⟨h.books.pass hbuilt, h.low, h.high, h.rate, h.due, h.braced, h.fruited, h.young, h.firm, h.full,
    h.steady⟩

theorem brace (hdue : g.bracesDue = true) :
    Course { g with braced := true, stage := .braced } (done ++ [.braces g.builtSegments]) := by
  simp only [bracesDue, Bool.and_eq_true, Bool.not_eq_true', decide_eq_true_eq] at hdue
  obtain ⟨hnew, hmost⟩ := hdue
  have hnone : done.countP Task.isBraces = 0 := by
    rw [h.braced, hnew]
    rfl
  have hunfruited : g.fruited = false := by
    rw [← Bool.not_eq_true]
    intro hfruited
    rw [h.firm hfruited] at hnew
    cases hnew
  refine ⟨(h.books.enter rfl).restage rfl rfl rfl rfl, h.low, h.high, h.rate,
    h.due.concat ⟨h.books.builtSegments, ?_, hnone⟩, ?_, ?_, by simp, ?_, ?_, ?_⟩
  · rw [← h.books.count]
    exact hmost
  · simp [hnone, Task.isBraces]
  · simpa [Task.isFruits] using h.fruited
  · exact fun _ => rfl
  · exact h.full
  · simp [hunfruited]

theorem hang (hdue : g.fruitsDue = true) :
    Course { g with fruited := true, stage := .steady } (done ++ [.fruits g.fruits]) := by
  simp only [fruitsDue, Bool.and_eq_true, Bool.not_eq_true', beq_iff_eq] at hdue
  obtain ⟨⟨hbraced, hnew⟩, hfull⟩ := hdue
  have hnone : done.countP Task.isFruits = 0 := by
    rw [h.fruited, hnew]
    rfl
  have hone : done.countP Task.isBraces = 1 := by
    rw [h.braced, hbraced]
    rfl
  refine ⟨(h.books.enter rfl).restage rfl rfl rfl rfl, h.low, h.high, h.rate,
    h.due.concat ⟨rfl, h.books.all_of_full hfull, hone, hnone⟩, ?_, ?_, ?_, fun _ => hbraced,
    fun _ => hfull, by simp⟩
  · simpa [Task.isBraces] using h.braced
  · simp [hnone, Task.isFruits]
  · intro hunbraced
    simp [hbraced] at hunbraced

theorem root (hstage : g.stage = .seeded) : Course { g with stage := .rooted } done := by
  have hunfruited : g.fruited ≠ true := by
    intro hf
    rw [h.steady.mpr hf] at hstage
    cases hstage
  refine ⟨h.books.restage rfl rfl rfl rfl, h.low, h.high, h.rate, h.due, h.braced, h.fruited,
    fun _ => by simp [Stage.rank], h.firm, h.full, ?_⟩
  simp [hunfruited]

/-- A tick adds to the growth before it does anything else. -/
theorem gain [Scalar.Lawful α] (hstage : g.stage ≠ .steady) :
    Course g.gain done ∧ Onward g g.gain := by
  have hgrown : 0 ≤ g.gain.growth ∧ g.gain.growth ≤ 1 ∧ g.growth ≤ g.gain.growth := by
    have hsum := Scalar.Lawful.le_add h.low h.rate
    simp only [Growth.gain, Scalar.least]
    split
    · rename_i hlt
      exact ⟨Scalar.Lawful.le_trans h.low hsum, Scalar.Lawful.le_of_lt hlt, hsum⟩
    · have hone := Scalar.Lawful.le_of_lt (Scalar.Lawful.zero_lt_one (α := α))
      exact ⟨hone, (Scalar.Lawful.le_self hone).2, h.high⟩
  have hunfruited : g.fruited ≠ true := fun hf => hstage (h.steady.mpr hf)
  refine ⟨⟨h.books.restage rfl rfl rfl rfl, hgrown.1, hgrown.2.1, h.rate, h.due, h.braced,
    h.fruited, ?_, h.firm, h.full, ?_⟩, rfl, rfl, ?_, hgrown.2.2, Nat.le_refl _⟩
  · intro hunbraced
    have hyoung := h.young hunbraced
    simp only [Growth.gain]
    split
    · exact Nat.le_refl _
    · exact hyoung
  · constructor
    · intro hsteady
      simp only [Growth.gain] at hsteady
      split at hsteady
      · cases hsteady
      · exact absurd hsteady hstage
    · exact fun hf => absurd hf hunfruited
  · simp only [Growth.gain]
    split
    · rename_i hearly
      simp only [Bool.or_eq_true, decide_eq_true_eq] at hearly
      obtain hs | hs := hearly
      · simp [hs, Stage.rank]
      · simp [hs, Stage.rank]
    · exact Nat.le_refl _

end Course

theorem Onward.refl [Scalar.Lawful α] (h : Course g done) : Onward g g :=
  ⟨rfl, rfl, Nat.le_refl _, (Scalar.Lawful.le_self h.high).1, Nat.le_refl _⟩

/-- A plan that has kept its course since an earlier moment. -/
structure Since (base : Growth α) (first : List (Task α)) (g : Growth α) (done : List (Task α)) :
    Prop where
  course : Course g done
  onward : Onward base g
  more : first <+: done

namespace Since

variable {base : Growth α} {first : List (Task α)}

theorem mark (h : Since base first g done) {s : Segment α} {index : Nat}
    (hs : g.segments[index]? = some s) (hnew : g.isBuilt index = false) :
    Since base first (g.mark index) (done ++ [.segment s index]) where
  course := h.course.mark hs hnew
  onward := { h.onward with count := h.onward.count.trans (Nat.le_succ _) }
  more := h.more.trans (List.prefix_append done _)

theorem rooting : Rooting (Since base first) where
  books _ _ h := h.course.books
  built _ _ _ _ h _ _ hs hnew := h.mark hs hnew

/-- What a tick does after the plant has gained only moves its plan on. -/
theorem steadfast : Steadfast (Since base first) where
  books _ _ h := h.course.books
  built _ _ _ _ h hs hnew _ _ := h.mark hs hnew
  passed _ _ h hbuilt := ⟨h.course.pass hbuilt, { h.onward with }, h.more⟩
  braced _ r h hdue := by
    refine ⟨h.course.brace hdue, { h.onward with stage := ?_ },
      h.more.trans (List.prefix_append r _)⟩
    simp only [bracesDue, Bool.and_eq_true, Bool.not_eq_true'] at hdue
    exact h.onward.stage.trans ((h.course.young hdue.1).trans (by simp [Stage.rank]))
  hung _ r h hdue := by
    refine ⟨h.course.hang hdue, { h.onward with stage := ?_ },
      h.more.trans (List.prefix_append r _)⟩
    cases base.stage <;> simp [Stage.rank]

end Since

variable {crew : Crew α σ}

theorem advance_course [Scalar.Lawful α] {p q : Growth α × List (Task α) × σ}
    (h : Course p.1 p.2.1) (he : Ends (advance (recording crew)) p q) :
    Since p.1 p.2.1 q.1 q.2.1 ∧ q.1.stage ≠ .seeded := by
  have hgain (hstage : p.1.stage ≠ .steady) : Since p.1.gain p.2.1 p.1.gain p.2.1 :=
    ⟨(h.gain hstage).1, .refl (h.gain hstage).1, List.prefix_refl _⟩
  have hkept := advance_keeps Since.steadfast crew hgain
  rw [he.state_eq] at hkept
  rcases hkept with ⟨hsteady, rfl⟩ | ⟨hstage, hkept⟩
  · exact ⟨⟨h, .refl h, List.prefix_refl _⟩, by simp [hsteady]⟩
  · refine ⟨⟨hkept.course, (h.gain hstage).2.trans hkept.onward, hkept.more⟩, fun hseeded => ?_⟩
    -- A tick leaves no plan before the stage of growing.
    have hrank := (gain_rank p.1).trans hkept.onward.stage
    rw [hseeded] at hrank
    simp [Stage.rank] at hrank

theorem placeRoots_course [Scalar.Lawful α] {p q : Growth α × List (Task α) × σ}
    (h : Course p.1 p.2.1) (hfresh : p.1.stage = .seeded → p.2.1 = [])
    (he : Ends (placeRoots (recording crew)) p q) :
    Since p.1 p.2.1 q.1 q.2.1 ∧ q.1.stage ≠ .seeded := by
  have hstart : Since p.1 p.2.1 p.1 p.2.1 := ⟨h, .refl h, List.prefix_refl _⟩
  obtain ⟨hstage, hkept⟩ := (meets_placeRoots Since.rooting crew).ends (s := p) ⟨hstart, hfresh⟩ he
  refine ⟨?_, hstage⟩
  rcases hkept with hkept | ⟨was, hseeded, hkept, hroot⟩
  · exact hkept
  · obtain ⟨g, done, s⟩ := q
    cases hroot
    refine ⟨hkept.course.root hseeded, { hkept.onward with stage := ?_ }, hkept.more⟩
    refine hkept.onward.stage.trans ?_
    simp [hseeded, Stage.rank]

/-- Whatever is asked of a plan, it keeps its course. -/
theorem use_course [Scalar.Lawful α] (call : Call) {p q : Growth α × List (Task α) × σ}
    (h : Course p.1 p.2.1) (hfresh : p.1.stage = .seeded → p.2.1 = [])
    (he : Ends (call.use (recording crew)) p q) :
    Since p.1 p.2.1 q.1 q.2.1 ∧ q.1.stage ≠ .seeded := by
  cases call with
  | roots => exact placeRoots_course h hfresh he
  | tick => exact advance_course h he

theorem uses_course [Scalar.Lawful α] (calls : List Call) {p q : Growth α × List (Task α) × σ}
    (h : Course p.1 p.2.1) (hfresh : p.1.stage = .seeded → p.2.1 = [])
    (he : Ends (uses (recording crew) calls) p q) :
    Since p.1 p.2.1 q.1 q.2.1 ∧ (q.1.stage = .seeded → q.2.1 = []) := by
  induction calls generalizing p with
  | nil =>
    obtain ⟨_, _, he⟩ := he
    cases he
    exact ⟨⟨h, .refl h, List.prefix_refl _⟩, hfresh⟩
  | cons call calls ih =>
    obtain ⟨m, hfirst, hrest⟩ := he.of_cons
    obtain ⟨hm, hstage⟩ := use_course call h hfresh hfirst
    obtain ⟨hq, hfresh⟩ := ih hm.course (fun hseeded => absurd hseeded hstage) hrest
    exact ⟨⟨hq.course, hm.onward.trans hq.onward, hm.more.trans hq.more⟩, hfresh⟩

/-- Nothing is left to do with a plan that is steady. -/
theorem use_steady (call : Call) {p q : Growth α × σ} (h : p.1.stage = .steady)
    (he : Ends (call.use crew) p q) : q = p := by
  obtain ⟨_, _, he⟩ := he
  cases call with
  | roots =>
    have hne : p.1.stage ≠ .seeded := by simp [h]
    cases (placeRoots_of_ne hne).symm.trans he
    rfl
  | tick =>
    have hp : advance crew p = ⟨.ok 0, p, []⟩ := by
      rw [advance_apply, if_pos h]
    cases hp.symm.trans he
    rfl

theorem uses_steady (calls : List Call) {p q : Growth α × σ} (h : p.1.stage = .steady)
    (he : Ends (uses crew calls) p q) : q = p := by
  induction calls generalizing p with
  | nil =>
    obtain ⟨_, _, he⟩ := he
    cases he
    rfl
  | cons call calls ih =>
    obtain ⟨m, hfirst, hrest⟩ := he.of_cons
    cases use_steady call h hfirst
    exact ih h hrest

/-- Whatever is asked of a plan, and in whatever order: stage, growth and count only move on, the
growth stays a fraction, the count is that of the marks, and the crew builds each segment once,
braces once what stands when most of it does, and hangs the fruits once, last of all. Then the plan
is steady, and nothing changes any more. -/
theorem uses_in_order [Scalar.Lawful α] {segments : Array (Segment α)} {fruits : List (Fruit α)}
    {rate divisor : α} {g₀ : Growth α} (hrate : 0 ≤ rate)
    (hnew : Growth.new segments fruits rate divisor = .ok g₀) (crew : Crew α σ) {s₀ : σ}
    {calls later : List Call} {p q : Growth α × σ} (hp : Ends (uses crew calls) (g₀, s₀) p)
    (hq : Ends (uses crew later) p q) :
    ∃ done more,
      Ends (uses (recording crew) calls) (g₀, [], s₀) (p.1, done, p.2) ∧
      Ends (uses (recording crew) later) (p.1, done, p.2) (q.1, done ++ more, q.2) ∧
      Onward g₀ p.1 ∧ Onward p.1 q.1 ∧ Orderly p.1 done ∧ Orderly q.1 (done ++ more) ∧
      (p.1.stage = .steady → q = p ∧ more = []) := by
  obtain ⟨⟨g, done, s⟩, hcalls, rfl⟩ := (mirrors_uses calls).ends (t := (g₀, [], s₀)) hp
  obtain ⟨⟨g', all, s'⟩, hlater, rfl⟩ := (mirrors_uses later).ends (t := (g, done, s)) hq
  obtain ⟨hfirst, hfresh⟩ := uses_course calls (Course.new hrate hnew) (fun _ => rfl) hcalls
  obtain ⟨hthen, -⟩ := uses_course later hfirst.course hfresh hlater
  obtain ⟨more, hmore⟩ := hthen.more
  dsimp only at hmore
  subst hmore
  refine ⟨done, more, hcalls, hlater, hfirst.onward, hthen.onward, hfirst.course.orderly,
    hthen.course.orderly, fun hsteady => ?_⟩
  have hsame := uses_steady later (p := (g, done, s)) hsteady hlater
  simp only [Prod.mk.injEq, List.append_right_eq_self] at hsame
  obtain ⟨rfl, rfl, rfl⟩ := hsame
  exact ⟨rfl, rfl⟩

/-- A trunk of two segments with a twig between them. -/
def shoots : Array (Segment Float) :=
  #[⟨⟨0.0, 0.0⟩, ⟨0.0, -10.0⟩, 0, 1.0, 0.0, Grammar.defaultFruitColour, true⟩,
    ⟨⟨0.0, -10.0⟩, ⟨5.0, -15.0⟩, 1, 0.5, 0.0, Grammar.defaultFruitColour, false⟩,
    ⟨⟨0.0, -10.0⟩, ⟨0.0, -20.0⟩, 0, 1.0, 0.0, Grammar.defaultFruitColour, false⟩]

def shoot : Growth Float where
  segments := shoots
  fruits := []
  rate := 0.5
  divisor := 50
  stage := .seeded
  growth := 0
  built := Array.replicate 3 false
  count := 0
  braced := false
  fruited := false
  cursor := 0

def early : Growth Float × Nat := (uses tally [.roots, .tick] (shoot, 0)).state

def late : Growth Float × Nat := (uses tally [.tick, .tick, .roots] early).state

/-- The roots stand ahead of the twig, and a whole tick finds nothing to build. -/
theorem uses_in_order_shoot :
    (0 : Float) ≤ 0.5 ∧ Growth.new shoots [] 0.5 50.0 = .ok shoot ∧
      early.1.stage = .growing ∧ early.1.count = 2 ∧ late.1.stage = .steady ∧
      Ends (uses tally [.roots, .tick]) (shoot, 0) early ∧
      Ends (uses tally [.tick, .tick, .roots]) early late ∧
      ∃ done more,
        Ends (uses (recording tally) [.roots, .tick]) (shoot, [], 0) (early.1, done, early.2) ∧
        Ends (uses (recording tally) [.tick, .tick, .roots]) (early.1, done, early.2)
          (late.1, done ++ more, late.2) ∧
        Onward shoot early.1 ∧ Onward early.1 late.1 ∧ Orderly early.1 done ∧
        Orderly late.1 (done ++ more) ∧ (early.1.stage = .steady → late = early ∧ more = []) := by
  have hrate : (0 : Float) ≤ 0.5 := by decide +kernel
  have hnew : Growth.new shoots [] 0.5 50.0 = .ok shoot := rfl
  have hearly : Ends (uses tally [.roots, .tick]) (shoot, 0) early := .of_isOk (by decide +kernel)
  have hlate : Ends (uses tally [.tick, .tick, .roots]) early late := .of_isOk (by decide +kernel)
  exact ⟨hrate, hnew, by decide +kernel, by decide +kernel, by decide +kernel, hearly, hlate,
    uses_in_order hrate hnew tally hearly hlate⟩

end Arboretum.Growth
