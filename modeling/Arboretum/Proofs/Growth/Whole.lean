import Arboretum.Proofs.Growth.Course

/-!
A plant that has stopped growing is fully grown, unless its roots are all there is of it.
-/
namespace Arboretum.Growth

open Arboretum.Action

variable {σ : Type} {g : Growth Float} {done : List (Task Float)}

/-- A plant is fully grown, or it is not fully built either. -/
def Whole (g : Growth Float) : Prop := g.growth = 1 ∨ g.growth < 1 ∧ g.count < g.total

theorem Whole.gain (h : Whole g) (hrate : 0 ≤ g.rate) : Whole g.gain := by
  unfold Whole Growth.gain Scalar.least
  dsimp only
  split
  · rename_i hlt
    rcases h with hone | ⟨-, hcount⟩
    · have hsum := Binary64.le_add (a := 1) (by decide) hrate
      rw [hone] at hlt
      exact absurd hlt (Binary64.not_lt_of_le hsum)
    · exact .inr ⟨hlt, hcount⟩
  · exact .inl rfl

/-- While a plant is not fully grown, what is due of it is not all of it. -/
theorem Whole.mark (h : Whole g) (hsize : g.total < 2 ^ 53) (hlow : 0 ≤ g.growth) {target : Int}
    (hfloor : Scalar.floor (g.growth * (g.total : Float)) = .ok target)
    (hcount : (g.count : Int) < target) (index : Nat) : Whole (g.mark index) := by
  rcases h with hone | ⟨hlt, hfew⟩
  · exact .inl hone
  · obtain ⟨floor, hok, hbelow⟩ := Binary64.floor_mul_lt (Nat.zero_lt_of_lt hfew) hsize hlow hlt
    cases hfloor.symm.trans hok
    refine .inr ⟨hlt, ?_⟩
    simp only [Growth.mark, total] at hbelow ⊢
    omega

/-- What ticks keep of a plan that is not built ahead of its growth. -/
structure InStep (g : Growth Float) (done : List (Task Float)) : Prop where
  course : Course g done
  size : g.total < 2 ^ 53
  whole : Whole g

theorem InStep.steadfast : Steadfast InStep where
  books _ _ h := h.course.books
  built _ _ _ _ h hs hnew hfloor hcount :=
    ⟨h.course.mark hs hnew, h.size, h.whole.mark h.size h.course.low hfloor hcount _⟩
  passed _ _ h hbuilt := ⟨h.course.pass hbuilt, h.size, h.whole⟩
  braced _ _ h hdue := ⟨h.course.brace hdue, h.size, h.whole⟩
  hung _ _ h hdue := ⟨h.course.hang hdue, h.size, h.whole⟩

variable {crew : Crew Float σ}

theorem advance_inStep {p q : Growth Float × List (Task Float) × σ} (h : InStep p.1 p.2.1)
    (he : Ends (advance (recording crew)) p q) : InStep q.1 q.2.1 := by
  have hkept := advance_keeps InStep.steadfast crew (p := p)
    fun hstage => ⟨(h.course.gain hstage).1, h.size, h.whole.gain h.course.rate⟩
  rw [he.state_eq] at hkept
  rcases hkept with ⟨-, rfl⟩ | ⟨-, hkept⟩
  · exact h
  · exact hkept

theorem uses_inStep (calls : List Call) {p q : Growth Float × List (Task Float) × σ}
    (h : InStep p.1 p.2.1) (hstage : p.1.stage ≠ .seeded)
    (he : Ends (uses (recording crew) calls) p q) : InStep q.1 q.2.1 := by
  induction calls generalizing p with
  | nil =>
    obtain ⟨_, _, he⟩ := he
    cases he
    exact h
  | cons call calls ih =>
    obtain ⟨m, hfirst, hrest⟩ := he.of_cons
    cases call with
    | roots =>
      obtain ⟨_, _, hfirst⟩ := hfirst
      cases (placeRoots_of_ne hstage).symm.trans hfirst
      exact ih h hstage hrest
    | tick => exact ih (advance_inStep h hfirst) (advance_course h.course hfirst).2 hrest

/-- A plan of which only roots are built, and not all of it is roots. -/
structure Anchored (g : Growth Float) (done : List (Task Float)) : Prop where
  course : Course g done
  size : g.total < 2 ^ 53
  small : g.growth < 1
  only : numbers done ⊆ g.roots
  fewer : g.roots.length < g.total

theorem Anchored.rooting : Rooting Anchored where
  books _ _ h := h.course.books
  built _ _ _ _ h hmem _ hs hnew :=
    ⟨h.course.mark hs hnew, h.size, h.small, by simpa using ⟨h.only, hmem⟩, h.fewer⟩

theorem Anchored.inStep (h : Anchored g done) : InStep g done := by
  have hle := (List.subperm_of_subset h.course.books.once h.only).length_le
  rw [← h.course.books.count] at hle
  exact ⟨h.course, h.size, .inr ⟨h.small, hle.trans_lt h.fewer⟩⟩

theorem placeRoots_inStep {p q : Growth Float × List (Task Float) × σ} (h : Anchored p.1 p.2.1)
    (hfresh : p.2.1 = []) (he : Ends (placeRoots (recording crew)) p q) :
    InStep q.1 q.2.1 ∧ q.1.stage ≠ .seeded := by
  obtain ⟨hstage, hkept⟩ :=
    (meets_placeRoots Anchored.rooting crew).ends (s := p) ⟨h, fun _ => hfresh⟩ he
  refine ⟨?_, hstage⟩
  rcases hkept with hkept | ⟨was, hseeded, hkept, hroot⟩
  · exact hkept.inStep
  · have hwas := hkept.inStep
    rw [hroot]
    exact ⟨hwas.course.root hseeded, hwas.size, hwas.whole⟩

/-- Growth has an end only where everything is built, and then it is whole. -/
theorem InStep.whole_of_steady (h : InStep g done) (hsteady : g.stage = .steady) :
    g.growth = 1 ∧ g.fruitRatio = 1 := by
  have hone : g.growth = 1 := by
    rcases h.whole with hone | ⟨-, hfew⟩
    · exact hone
    · have hfull := h.course.full (h.course.steady.mp hsteady)
      omega
  refine ⟨hone, ?_⟩
  unfold fruitRatio
  rw [hone]
  decide +kernel

/-- A plant whose growth has come to its end is fully grown and shows its fruits, unless all there
is of it was built as roots. -/
theorem steady_whole {segments : Array (Segment Float)} {fruits : List (Fruit Float)}
    {rate divisor : Float} {g₀ : Growth Float} (hrate : 0 ≤ rate) (hsize : segments.size < 2 ^ 53)
    (hnew : Growth.new segments fruits rate divisor = .ok g₀) (crew : Crew Float σ) {s₀ : σ}
    {calls : List Call} {p : Growth Float × σ} (hp : Ends (uses crew calls) (g₀, s₀) p)
    (hsteady : p.1.stage = .steady) :
    p.1.growth = 1 ∧ p.1.fruitRatio = 1 ∨
      g₀.roots.length = segments.size ∧ (segments.size = 0 ∨ calls.head? = some .roots) := by
  have hcourse := Course.new hrate hnew
  have hsmall : g₀.growth < 1 := by
    obtain ⟨_, rfl⟩ := of_new hnew
    exact Scalar.Lawful.zero_lt_one
  have htotal : g₀.total = segments.size := by
    obtain ⟨_, rfl⟩ := of_new hnew
    rfl
  obtain ⟨⟨g, done, s⟩, hcalls, rfl⟩ := (mirrors_uses calls).ends (t := (g₀, [], s₀)) hp
  cases calls with
  | nil =>
    obtain ⟨_, _, hcalls⟩ := hcalls
    cases hcalls
    obtain ⟨_, rfl⟩ := of_new hnew
    cases hsteady
  | cons call calls =>
    obtain ⟨m, hfirst, hrest⟩ := hcalls.of_cons
    cases call with
    | roots =>
      rcases Nat.eq_or_lt_of_le (roots_length_le g₀) with heq | hfewer
      · exact .inr ⟨heq.trans htotal, .inr rfl⟩
      · left
        have hanchored : Anchored g₀ [] :=
          ⟨hcourse, htotal.trans_lt hsize, hsmall, List.nil_subset _, hfewer⟩
        obtain ⟨hm, hstage⟩ := placeRoots_inStep (p := (g₀, [], s₀)) hanchored rfl hfirst
        exact (uses_inStep calls hm hstage hrest).whole_of_steady hsteady
    | tick =>
      rcases Nat.eq_zero_or_pos segments.size with hnone | hsome
      · have hle := roots_length_le g₀
        exact .inr ⟨by omega, .inl hnone⟩
      · left
        have hcount : g₀.count < g₀.total := by
          rw [hcourse.books.count, htotal]
          exact hsome
        have hstart : InStep g₀ [] := ⟨hcourse, htotal.trans_lt hsize, .inr ⟨hsmall, hcount⟩⟩
        have hm := advance_inStep (p := (g₀, [], s₀)) hstart hfirst
        have hstage := (advance_course (p := (g₀, [], s₀)) hcourse hfirst).2
        exact (uses_inStep calls hm hstage hrest).whole_of_steady hsteady

/-- The shoot is more than its roots. -/
theorem steady_whole_shoot :
    ∃ p, Ends (uses tally [.roots, .tick, .tick]) (shoot, 0) p ∧ p.1.stage = .steady ∧
      shoot.roots = [0, 2] ∧
      (p.1.growth = 1 ∧ p.1.fruitRatio = 1 ∨
        shoot.roots.length = shoots.size ∧
          (shoots.size = 0 ∨ [Call.roots, .tick, .tick].head? = some .roots)) := by
  have hnew : Growth.new shoots [] 0.5 50.0 = .ok shoot := rfl
  have hends : Ends (uses tally [.roots, .tick, .tick]) (shoot, 0) _ := .of_isOk (by decide +kernel)
  have hsteady : (uses tally [.roots, .tick, .tick] (shoot, 0)).state.1.stage = .steady := by
    decide +kernel
  exact ⟨_, hends, hsteady, by decide +kernel,
    steady_whole (by decide +kernel) (by decide) hnew tally hends hsteady⟩

/-- A trunk of one segment. -/
def stump : Growth Float :=
  { shoot with segments := shoots.take 1, rate := 0.03, built := #[false] }

/-- The stump is built as a root, and its growth ends with its first tick. -/
theorem stump_stays_small :
    Growth.new (shoots.take 1) [] 0.03 50.0 = .ok stump ∧ (0 : Float) < 0.03 ∧
      ∃ p, Ends (uses tally [.roots, .tick]) (stump, 0) p ∧ p.1.stage = .steady ∧
        p.1.growth = 0.03 ∧ p.1.growth ≠ 1 ∧ p.1.fruitRatio = 0 ∧
        ∀ later q, Ends (uses tally later) p q → q = p := by
  have hends : Ends (uses tally [.roots, .tick]) (stump, 0) _ := .of_isOk (by decide +kernel)
  have hsteady : (uses tally [.roots, .tick] (stump, 0)).state.1.stage = .steady := by
    decide +kernel
  exact ⟨rfl, by decide +kernel, _, hends, hsteady, by decide +kernel, by decide +kernel,
    by decide +kernel, fun later _ => uses_steady later hsteady⟩

end Arboretum.Growth
