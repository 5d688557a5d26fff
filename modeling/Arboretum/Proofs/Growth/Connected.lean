import Arboretum.Proofs.Growth.Books
import Arboretum.Proofs.Upright
import Arboretum.Proofs.Walk
import Mathlib.Data.List.Induction

/-!
A plant grows from its base: along a word that does not lift the pen, nothing is built but at the
origin or at the tip of something that has been built before, although roots are built ahead.
-/
namespace Arboretum

open Arboretum.Action

namespace Growth

variable {α σ : Type} {skeleton : Array (Segment α)} {g : Growth α} {done : List (Task α)}

theorem mem_take {segments : Array (Segment α)} {i : Nat} {s : Segment α}
    (h : s ∈ segments.toList.take i) : ∃ j < i, segments[j]? = some s := by
  obtain ⟨j, hj, rfl⟩ := List.mem_take_iff_getElem.mp h
  exact ⟨j, by omega, by simp⟩

variable [Scalar α]

/-- What is built reaches the place: it is the origin, or the tip of a segment that was built. -/
def Standing (done : List (Task α)) (place : Vec α) : Prop :=
  place = ⟨0, 0⟩ ∨ ∃ s i, Task.segment s i ∈ done ∧ s.tip = place

/-- A segment is built where what is built reaches. -/
def Held (before : List (Task α)) : Task α → Prop
  | .segment s _ => Standing before s.start
  | _ => True

/-- Built segments lead from the base to the place. -/
inductive Supported (g : Growth α) : Vec α → Prop where
  | base : Supported g ⟨0, 0⟩
  | along {i : Nat} {s : Segment α} (hbuilt : g.isBuilt i = true) (hs : g.segments[i]? = some s)
      (h : Supported g s.start) : Supported g s.tip

/-- A plan of a drawn skeleton, of which each segment was built on earlier ones. -/
structure Connected (skeleton : Array (Segment α)) (g : Growth α) (done : List (Task α)) :
    Prop where
  books : Books g done
  same : g.segments = skeleton
  chain : Timely GoesOn skeleton.toList
  held : Timely Held done

namespace Connected

variable (h : Connected skeleton g done)
include h

theorem goesOn {i : Nat} {s : Segment α} (hs : g.segments[i]? = some s) :
    GoesOn (g.segments.toList.take i) s := by
  have hchain := h.chain
  rw [← h.same] at hchain
  obtain ⟨hi, rfl⟩ := Array.getElem?_eq_some_iff.mp hs
  apply hchain _ _ (g.segments.toList.drop (i + 1))
  rw [← Array.getElem_toList, ← List.drop_eq_getElem_cons, List.take_append_drop]

/-- Where built segments end, something stands. -/
theorem standing {segments : List (Segment α)} {place : Vec α} (hmet : Met segments place)
    (hbuilt : ∀ s ∈ segments, ∃ j, g.isBuilt j = true ∧ g.segments[j]? = some s) :
    Standing done place := by
  rcases hmet with horigin | ⟨s, hs, htip⟩
  · exact .inl horigin
  · obtain ⟨j, hj, hsegment⟩ := hbuilt s hs
    obtain ⟨s', hs'⟩ := mem_numbers.mp ((h.books.marks j).mp hj)
    cases hsegment.symm.trans (h.books.faithful s' j hs')
    exact .inr ⟨s, j, hs', htip⟩

theorem mark {s : Segment α} {index : Nat} (hs : g.segments[index]? = some s)
    (hnew : g.isBuilt index = false) (hstart : Standing done s.start) :
    Connected skeleton (g.mark index) (done ++ [.segment s index]) :=
  ⟨h.books.mark hs hnew, h.same, h.chain, h.held.concat hstart⟩

theorem enter {task : Task α} (hnumber : task.number? = none) :
    Timely Held (done ++ [task]) := by
  apply h.held.concat
  cases task with
  | segment s index => cases hnumber
  | braces segments => trivial
  | fruits fruits => trivial

/-- Whatever has been built is joined to the base by what was built before it. -/
theorem supported_of_mem {before : List (Task α)} (hbefore : before <+: done) {s : Segment α}
    {i : Nat} (hs : Task.segment s i ∈ before) : Supported g s.start ∧ Supported g s.tip := by
  induction before using List.reverseRecOn generalizing s i with
  | nil => simp at hs
  | append_singleton before task ih =>
    have hprefix := (List.prefix_append before [task]).trans hbefore
    rcases List.mem_append.mp hs with hs | hs
    · exact ih hprefix hs
    · cases List.mem_singleton.mp hs
      obtain ⟨after, hafter⟩ := hbefore
      have hdone : done = before ++ Task.segment s i :: after := by simp [← hafter]
      have hstart : Supported g s.start := by
        rcases h.held before _ after hdone with horigin | ⟨s', j, hs', htip⟩
        · rw [horigin]
          exact .base
        · rw [← htip]
          exact (ih hprefix hs').2
      have hmem : Task.segment s i ∈ done := by simp [hdone]
      have hbuilt := (h.books.marks i).mpr (mem_numbers.mpr ⟨s, hmem⟩)
      exact ⟨hstart, .along hbuilt (h.books.faithful s i hmem) hstart⟩

theorem supported {s : Segment α} {i : Nat} (hbuilt : g.isBuilt i = true)
    (hs : g.segments[i]? = some s) : Supported g s.start := by
  obtain ⟨s', hs'⟩ := mem_numbers.mp ((h.books.marks i).mp hbuilt)
  cases hs.symm.trans (h.books.faithful s' i hs')
  exact (h.supported_of_mem (List.prefix_refl done) hs').1

end Connected

theorem rooting_connected : Rooting (Connected skeleton) where
  books _ _ h := h.books
  built g r index s h hmem hearlier hs hnew := by
    obtain ⟨t, ht, hdepth⟩ := mem_roots hmem
    cases hs.symm.trans ht
    refine h.mark hs hnew (h.standing ((h.goesOn hs).2 hdepth) fun s' hs' => ?_)
    obtain ⟨hmem', htrunk⟩ := List.mem_filter.mp hs'
    obtain ⟨j, hj, hsegment⟩ := mem_take hmem'
    exact ⟨j, hearlier j (roots_before hmem hj hsegment (by simpa using htrunk)) hj, hsegment⟩

/-- Ticks build from the cursor, and everything before it stands. -/
theorem steadfast_connected :
    Steadfast fun g r => Connected skeleton g r ∧ g.stage ≠ .seeded where
  books _ _ h := h.1.books
  built g r s target h hs hnew _ _ := by
    refine ⟨h.1.mark hs hnew (h.1.standing (h.1.goesOn hs).1 fun s' hs' => ?_), h.2⟩
    obtain ⟨j, hj, hsegment⟩ := mem_take hs'
    exact ⟨j, h.1.books.passed j hj, hsegment⟩
  passed _ _ h hbuilt := ⟨⟨h.1.books.pass hbuilt, h.1.same, h.1.chain, h.1.held⟩, h.2⟩
  braced _ _ h _ :=
    ⟨⟨(h.1.books.enter rfl).restage rfl rfl rfl rfl, h.1.same, h.1.chain, h.1.enter rfl⟩, by simp⟩
  hung _ _ h _ :=
    ⟨⟨(h.1.books.enter rfl).restage rfl rfl rfl rfl, h.1.same, h.1.chain, h.1.enter rfl⟩, by simp⟩

variable {crew : Crew α σ}

/-- What holds between two uses of a plan: nothing is built before its roots have been placed or it
has been given a tick. -/
def Between (skeleton : Array (Segment α)) (g : Growth α) (done : List (Task α)) : Prop :=
  Connected skeleton g done ∧ (g.stage = .seeded → done = [])

theorem meets_use_connected (call : Call) :
    Meets (Recorded (Between skeleton)) (call.use (recording crew))
      (Recorded (Connected skeleton)) fun _ => Recorded (Between skeleton) := by
  cases call with
  | roots =>
    refine (meets_placeRoots rooting_connected crew).weaken ?_
    rintro _ ⟨g, r, t⟩ ⟨hstage, hkept⟩
    refine ⟨?_, fun hseeded => absurd hseeded hstage⟩
    rcases hkept with hkept | ⟨was, -, hkept, rfl⟩
    · exact hkept
    · exact ⟨hkept.books.restage rfl rfl rfl rfl, hkept.same, hkept.chain, hkept.held⟩
  | tick =>
    rintro p ⟨hp, hfresh⟩
    have hgain (_ : p.1.stage ≠ .steady) :
        Connected skeleton p.1.gain p.2.1 ∧ p.1.gain.stage ≠ .seeded := by
      refine ⟨⟨hp.books.restage rfl rfl rfl rfl, hp.same, hp.chain, hp.held⟩, fun hseeded => ?_⟩
      have hrank := gain_rank p.1
      rw [hseeded] at hrank
      simp [Stage.rank] at hrank
    have hkept : Recorded (Between skeleton) (advance (recording crew) p).state := by
      rcases advance_keeps steadfast_connected crew hgain with ⟨-, hsame⟩ | ⟨-, hkept⟩
      · rw [hsame]
        exact ⟨hp, hfresh⟩
      · exact ⟨hkept.1, fun hseeded => absurd hseeded hkept.2⟩
    exact ⟨fun _ _ => hkept.1, fun _ _ => hkept⟩

/-- Along a word that does not lift the pen, and whatever is asked of the plan, each segment is
built at the origin or at the tip of a segment built before it; so built segments lead from the base
to every segment that is built. This holds also where the crew stops. -/
theorem built_on_built {ν : Type} {t : Walk.Traits α} {word : List Char} (hword : 'f' ∉ word)
    {draws : Draws α} {walk : Walk α}
    (hwalk : (Walk.along t word draws : Report ν _ _).result = .ok walk)
    {fruits : List (Fruit α)} {rate divisor : α} {g₀ : Growth α}
    (hnew : Growth.new walk.segments fruits rate divisor = .ok g₀) (crew : Crew α σ) (s₀ : σ)
    (calls : List Call) :
    ∃ g done s, (uses crew calls (g₀, s₀)).state = (g, s) ∧
      (uses (recording crew) calls (g₀, [], s₀)).state = (g, done, s) ∧
      g.segments = walk.segments ∧ (∀ i, g.isBuilt i = true ↔ i ∈ numbers done) ∧
      (∀ s i, .segment s i ∈ done → walk.segments[i]? = some s) ∧ Timely Held done ∧
      ∀ i s, g.isBuilt i = true → walk.segments[i]? = some s → Supported g s.start := by
  have hsegments : g₀.segments = walk.segments := by
    obtain ⟨_, rfl⟩ := of_new hnew
    rfl
  have hchain := Walk.along_chain hword hwalk
  have hstart : Between walk.segments g₀ [] :=
    ⟨⟨Books.new hnew, hsegments, hchain, .nil⟩, fun _ => rfl⟩
  have hmeets : Meets (Recorded (Between walk.segments)) (uses (recording crew) calls)
      (Recorded (Connected walk.segments)) fun _ => Recorded (Between walk.segments) :=
    .forEach meets_use_connected calls
  have hconnected := (hmeets.weaken fun _ _ hp => hp.1).after (s := (g₀, [], s₀)) hstart
  have hmirrors : Mirrors unrecorded (uses (recording crew) calls) (uses crew calls) :=
    mirrors_uses calls
  have hstate := hmirrors.state (g₀, [], s₀)
  rcases huses : (uses (recording crew) calls (g₀, [], s₀)).state with ⟨g, done, s⟩
  rw [huses] at hconnected hstate
  have hsame : g.segments = walk.segments := hconnected.same
  refine ⟨g, done, s, hstate.symm, rfl, hsame, hconnected.books.marks, ?_, hconnected.held, ?_⟩
  · rw [← hsame]
    exact hconnected.books.faithful
  · rw [← hsame]
    exact fun _ _ hbuilt hs => hconnected.supported hbuilt hs

end Growth

namespace Upright

open Growth

/-- A word with a bracket too many. -/
def climb : List Char := ['F', '[', 'F', ']', 'F', ']', 'F']

def climbing : Report (Note Upright) (Draws Upright) (Walk Upright) :=
  Walk.along (.default 20.0) climb (.cycle #[])

def climbed : Walk Upright := climbing.result.toOption.getD (.start (.default 20.0))

def sprout : Growth Upright where
  segments := climbed.segments
  fruits := []
  rate := 0.5
  divisor := 50
  stage := .seeded
  growth := 0
  built := Array.replicate climbed.segments.size false
  count := 0
  braced := false
  fruited := false
  cursor := 0

/-- The roots stand ahead of the twig that the second tick builds. -/
theorem built_on_built_climb :
    'f' ∉ climb ∧ climbing.result = .ok climbed ∧
      Growth.new climbed.segments [] 0.5 50.0 = .ok sprout ∧ sprout.roots = [0, 2, 3] ∧
      ∃ g done s, (uses tally [.roots, .tick, .tick] (sprout, 0)).state = (g, s) ∧
        (uses (recording tally) [.roots, .tick, .tick] (sprout, [], 0)).state = (g, done, s) ∧
        g.segments = climbed.segments ∧ (∀ i, g.isBuilt i = true ↔ i ∈ numbers done) ∧
        (∀ s i, .segment s i ∈ done → climbed.segments[i]? = some s) ∧ Timely Held done ∧
        ∀ i s, g.isBuilt i = true → climbed.segments[i]? = some s → Supported g s.start := by
  have hword : 'f' ∉ climb := by decide
  have hwalk : climbing.result = .ok climbed :=
    eq_ok_of_isOk (by decide +kernel) _
  have hnew : Growth.new climbed.segments [] 0.5 50.0 = .ok sprout := rfl
  exact ⟨hword, hwalk, hnew, by decide +kernel,
    built_on_built hword hwalk hnew tally 0 [.roots, .tick, .tick]⟩

end Upright
end Arboretum
