import Arboretum.Binary64
import Arboretum.Plant
import Arboretum.Proofs.Growth.Attempts

/-!
The accounts of a plan whose crew fails at times. Whatever fails, and whatever is asked of the plan
after that, it marks what its crew has built and counts how often they built. Only a root can be
built twice: when the roots are placed again after a stop among them.
-/
namespace Arboretum.Growth

open Arboretum.Action

variable {α σ : Type} {segments : Array (Segment α)} {g now : Growth α} {done : List (Task α)}

/-! ### One call -/

section
variable [Scalar α]

/-- A call has a crew build the first root of a plan although it stands. -/
def Rebuilds (crew : Crew α σ) : Call → Growth α × σ → Prop
  | .roots, p => p.1.stage = .seeded ∧ ∃ root, p.1.roots.head? = some root ∧
      p.1.isBuilt root = true ∧ (build crew root p).result.isOk = true
  | .tick, _ => False

/-- None of some calls has the crew build the first root again. -/
def Sparing (crew : Crew α σ) (calls : List Call) (p : Growth α × σ) : Prop :=
  ∀ before call after, calls = before ++ call :: after →
    ¬ Rebuilds crew call (tries crew before p).state

theorem sparing_cons {crew : Crew α σ} {call : Call} {calls : List Call} {p : Growth α × σ} :
    Sparing crew (call :: calls) p ↔
      ¬ Rebuilds crew call p ∧ Sparing crew calls (call.use crew p).state := by
  constructor
  · intro h
    refine ⟨h [] call calls rfl, fun before c after hcalls => ?_⟩
    rw [← tries_cons]
    exact h (call :: before) c after (congrArg (call :: ·) hcalls)
  · rintro ⟨hfirst, hrest⟩ before c after hcalls
    cases before with
    | nil =>
      cases hcalls
      exact hfirst
    | cons c' before =>
      cases hcalls
      rw [tries_cons]
      exact hrest before c after rfl

end

/-- A plan in use. Until it grows, nothing is built, or the first root stands. -/
structure Begun (segments : Array (Segment α)) (g : Growth α) (done : List (Task α)) : Prop where
  accounts : Accounts segments g done
  young : g.stage = .seeded → done = [] ∧ Books g [] ∨
    ∃ root, g.roots.head? = some root ∧ root ∈ numbers done

theorem Begun.new [Scalar α] {fruits : List (Fruit α)} {rate divisor : α}
    (h : Growth.new segments fruits rate divisor = .ok g) : Begun segments g [] := by
  have hbooks := Books.new h
  obtain ⟨_, rfl⟩ := of_new h
  exact ⟨hbooks.accounts, fun _ => .inl ⟨rfl, hbooks⟩⟩

variable {crew : Crew α σ} {p : Growth α × List (Task α) × σ}

/-- Building one segment. -/
theorem meets_one (crew : Crew α σ) {s : Segment α} {index : Nat}
    (hs : g.segments[index]? = some s) :
    Meets (Recorded fun now r => now = g ∧ r = done) (build (recording crew) index)
      (Recorded fun now r => now = g ∧ r = done)
      fun _ => Recorded fun now r => now = g.mark index ∧ r = done ++ [.segment s index] := by
  refine meets_recording _ (fun _ _ _ hp => hp) ?_
  rintro _ _ ⟨rfl, rfl⟩
  exact ⟨s, hs, rfl, rfl⟩

theorem roots_eq_of_segments (h : now.segments = g.segments) : now.roots = g.roots := by
  unfold roots total
  rw [h]

/-- What has been built twice stays so. -/
theorem not_nodup_of_prefix {later : List (Task α)} {s : Segment α} {index : Nat}
    (hmem : index ∈ numbers done) (hlater : done ++ [.segment s index] <+: later) :
    ¬ (numbers later).Nodup := by
  intro hnodup
  obtain ⟨more, rfl⟩ := hlater
  rw [numbers_append, numbers_append, numbers_segment] at hnodup
  have hfirst := hnodup.of_append_left
  exact (List.disjoint_of_nodup_append hfirst) hmem (List.mem_singleton_self index)

/-- Placing the roots of a plan that has some: the first, and what follows it. -/
theorem placeRoots_first {crew : Crew α σ} {p : Growth α × σ} {root : Nat} {rest : List Nat}
    (hseeded : p.1.stage = .seeded) (hroots : p.1.roots = root :: rest) :
    (placeRoots crew p).state = ((do
      build crew root
      let _ ← forEach rest (build crew)
      record fun g => { g with stage := .rooted } : Plan α σ Unit) p).state := by
  have hplan : (plan p).result = .ok p.1 := rfl
  rw [placeRoots, bind_of_ok hplan]
  simp only [hseeded, ne_eq, not_true_eq_false, if_false, hroots, forEach, bind_assoc, pure_bind]
  simp only [← map_eq_pure_bind, ← map_bind, map_apply]
  rfl

/-- Where the first root is not built, nothing is; where it is, the rest is built on that. -/
theorem placeRoots_begun (crew : Crew α σ) {s : Segment α} {root : Nat} {rest : List Nat}
    (h : Accounts segments p.1 p.2.1) (hseeded : p.1.stage = .seeded)
    (hroots : p.1.roots = root :: rest) (hs : p.1.segments[root]? = some s) :
    let q := (placeRoots (recording crew) p).state
    if (build crew root (unrecorded p)).result.isOk then
      Accounts segments q.1 q.2.1 ∧ p.2.1 ++ [.segment s root] <+: q.2.1
    else q.1 = p.1 ∧ q.2.1 = p.2.1 := by
  rw [placeRoots_first hseeded hroots, ← (mirrors_build root).result]
  obtain ⟨hstop, hdone⟩ := meets_one crew hs p ⟨rfl, rfl⟩
  cases hbuild : (build (recording crew) root p).result with
  | error e =>
    rw [bind_of_error hbuild]
    exact hstop e hbuild
  | ok _ =>
    rw [bind_of_ok hbuild]
    obtain ⟨hplan, hrecord⟩ := hdone _ hbuild
    have hrest : Keeps (Recorded fun now r => Accounts segments now r ∧
        p.2.1 ++ [.segment s root] <+: r) (do
          let _ ← forEach rest (build (recording crew))
          record fun g => { g with stage := .rooted } : Plan α (List (Task α) × σ) Unit) := by
      refine .bind (.forEach rest fun index _ => keeps_building ?_) fun _ => ?_
      · exact fun now r t hp ht => ⟨hp.1.mark ht, hp.2.trans (List.prefix_append r _)⟩
      · exact (meets_writing _ fun now r hp => ⟨hp.1.restage rfl rfl rfl, hp.2⟩).keeps
    refine hrest _ ?_
    unfold Recorded
    rw [hplan, hrecord]
    exact ⟨h.mark hs, List.prefix_rfl⟩

/-- On a plan of which nothing is built, no root is built twice, also where placing them stops. -/
theorem Books.placed (h : Books p.1 []) (hnone : p.2.1 = []) :
    Recorded Books (placeRoots (recording crew) p).state := by
  have hrooting : Rooting (Books (α := α)) :=
    ⟨fun _ _ hp => hp, fun _ _ _ _ hp _ _ hs hnew => hp.mark hs hnew⟩
  refine ((meets_placeRoots hrooting crew).weaken ?_).after (s := p) ⟨hnone ▸ h, fun _ => hnone⟩
  rintro _ ⟨now, r, t⟩ ⟨-, hkept | ⟨was, -, hkept, rfl⟩⟩
  · exact hkept
  · exact hkept.restage rfl rfl rfl rfl

/-- Where the first root is built, it has been built twice if it stood. -/
theorem Begun.place_built (h : Begun segments p.1 p.2.1) {s : Segment α} {root : Nat}
    {rest : List Nat} (hseeded : p.1.stage = .seeded) (hroots : p.1.roots = root :: rest)
    (hs : p.1.segments[root]? = some s)
    (hok : (build crew root (unrecorded p)).result.isOk = true) :
    let q := (placeRoots (recording crew) p).state
    Begun segments q.1 q.2.1 ∧
      ((numbers q.2.1).Nodup ↔ (numbers p.2.1).Nodup ∧ ¬ p.1.isBuilt root = true) := by
  intro q
  have hplaced := placeRoots_begun crew h.accounts hseeded hroots hs
  rw [if_pos hok] at hplaced
  obtain ⟨haccounts, hprefix⟩ := hplaced
  have hsame : q.1.roots = p.1.roots :=
    roots_eq_of_segments (haccounts.skeleton.trans h.accounts.skeleton.symm)
  have hroot : root ∈ numbers q.2.1 :=
    mem_numbers.mpr ⟨s, hprefix.subset (List.mem_append_right _ (List.mem_singleton_self _))⟩
  refine ⟨⟨haccounts, fun _ => .inr ⟨root, by simp [hsame, hroots], hroot⟩⟩, ?_⟩
  rcases h.young hseeded with ⟨hnone, hbooks⟩ | ⟨first, hhead, hmem⟩
  · have honce : (numbers q.2.1).Nodup := (hbooks.placed hnone).once
    exact iff_of_true honce ⟨hnone ▸ List.nodup_nil, by simp [hbooks.unbuilt root]⟩
  · rw [hroots] at hhead
    cases hhead
    have htwice : ¬ (numbers q.2.1).Nodup := not_nodup_of_prefix hmem hprefix
    exact iff_of_false htwice fun honce => honce.2 ((h.accounts.marks root).mpr hmem)

/-- Placing roots builds something twice exactly where the first root is built again. -/
theorem Begun.place (h : Begun segments p.1 p.2.1) :
    let q := (placeRoots (recording crew) p).state
    Begun segments q.1 q.2.1 ∧
      ((numbers q.2.1).Nodup ↔ (numbers p.2.1).Nodup ∧ ¬ Rebuilds crew .roots (unrecorded p)) := by
  intro q
  by_cases hseeded : p.1.stage = .seeded
  · cases hroots : p.1.roots with
    | nil =>
      have hq : q = ({ p.1 with stage := .rooted }, p.2) := by
        simp [q, placeRoots, plan, hseeded, hroots, forEach, record]
      rw [hq]
      refine ⟨⟨h.accounts.restage rfl rfl rfl, fun hstage => by cases hstage⟩, ?_⟩
      simp [Rebuilds, unrecorded, hroots]
    | cons root rest =>
      have hmem : root ∈ p.1.roots := by simp [hroots]
      obtain ⟨s, hs, -⟩ := mem_roots hmem
      have hagain : Rebuilds crew .roots (unrecorded p) ↔
          p.1.isBuilt root = true ∧ (build crew root (unrecorded p)).result.isOk = true := by
        simp [Rebuilds, unrecorded, hseeded, hroots]
      rw [hagain]
      by_cases hok : (build crew root (unrecorded p)).result.isOk = true
      · simpa only [hok, and_true] using h.place_built hseeded hroots hs hok
      · have hplaced := placeRoots_begun crew h.accounts hseeded hroots hs
        rw [if_neg hok] at hplaced
        obtain ⟨hplan, hrecord⟩ := hplaced
        change q.1 = p.1 at hplan
        change q.2.1 = p.2.1 at hrecord
        rw [hplan, hrecord]
        exact ⟨h, (and_iff_left fun hboth => hok hboth.2).symm⟩
  · have hq : q = p := congrArg Report.state (placeRoots_of_ne hseeded)
    rw [hq]
    exact ⟨h, (and_iff_left fun hagain => hseeded hagain.1).symm⟩

/-! ### Calls -/

variable [Scalar α]

/-- No step of a tick builds what stands. -/
theorem hardy_accounts (once : Prop) : Hardy fun g r =>
    Accounts segments g r ∧ g.stage ≠ .seeded ∧ ((numbers r).Nodup ↔ once) where
  built g r s hp hs hnew := by
    obtain ⟨haccounts, hstage, honce⟩ := hp
    exact ⟨haccounts.mark hs, hstage, (nodup_numbers_concat (haccounts.fresh hnew)).trans honce⟩
  passed _ _ hp := ⟨hp.1.restage rfl rfl rfl, hp.2⟩
  braced _ r hp _ := by
    refine ⟨(hp.1.enter rfl).restage rfl rfl rfl, by simp, ?_⟩
    rw [numbers_enter rfl]
    exact hp.2.2
  hung _ r hp _ := by
    refine ⟨(hp.1.enter rfl).restage rfl rfl rfl, by simp, ?_⟩
    rw [numbers_enter rfl]
    exact hp.2.2

theorem Begun.tick (crew : Crew α σ) (h : Begun segments p.1 p.2.1) :
    let q := (advance (recording crew) p).state
    Begun segments q.1 q.2.1 ∧ ((numbers q.2.1).Nodup ↔ (numbers p.2.1).Nodup) := by
  intro q
  have hgrowing : p.1.gain.stage ≠ .seeded := by
    intro hseeded
    have hrank := gain_rank p.1
    rw [hseeded] at hrank
    simp [Stage.rank] at hrank
  obtain ⟨haccounts, hstage, honce⟩ := (hardy_accounts _).advance crew (p := p)
    (fun hsteady => ⟨h.accounts, by simp [hsteady], .rfl⟩)
    ⟨h.accounts.restage rfl rfl rfl, hgrowing, .rfl⟩
  exact ⟨⟨haccounts, fun hseeded => absurd hseeded hstage⟩, honce⟩

theorem Begun.use (crew : Crew α σ) (h : Begun segments p.1 p.2.1) (call : Call) :
    let q := (call.use (recording crew) p).state
    Begun segments q.1 q.2.1 ∧
      ((numbers q.2.1).Nodup ↔ (numbers p.2.1).Nodup ∧ ¬ Rebuilds crew call (unrecorded p)) := by
  cases call with
  | roots => exact h.place
  | tick =>
    obtain ⟨hbegun, honce⟩ := h.tick crew
    exact ⟨hbegun, honce.trans (and_iff_left id).symm⟩

theorem Begun.tries (crew : Crew α σ) (h : Begun segments p.1 p.2.1) (calls : List Call) :
    let q := (tries (recording crew) calls p).state
    Begun segments q.1 q.2.1 ∧
      ((numbers q.2.1).Nodup ↔ (numbers p.2.1).Nodup ∧ Sparing crew calls (unrecorded p)) := by
  induction calls generalizing p with
  | nil => exact ⟨h, (and_iff_left fun before call after hcalls => by simp at hcalls).symm⟩
  | cons call calls ih =>
    obtain ⟨hmid, honce⟩ := h.use crew call
    obtain ⟨hend, hrest⟩ := ih hmid
    rw [tries_cons]
    refine ⟨hend, ?_⟩
    rw [hrest, honce, sparing_cons, (mirrors_use call).state, and_assoc]

/-- Whatever is asked of a plan, also after calls that failed: it marks exactly what its crew has
built and counts how often they built, so the count is that of the marks, and nothing is built
twice, exactly where no call has the crew build the first root again. -/
theorem retries_accounted {fruits : List (Fruit α)} {rate divisor : α} {g₀ : Growth α}
    (hnew : Growth.new segments fruits rate divisor = .ok g₀) (crew : Crew α σ) (s₀ : σ)
    (calls : List Call) :
    let p := (Growth.tries crew calls (g₀, s₀)).state
    ∃ done, (Growth.tries (recording crew) calls (g₀, [], s₀)).state = (p.1, done, p.2) ∧
      Accounts segments p.1 done ∧
      ((numbers done).Nodup ↔ Sparing crew calls (g₀, s₀)) ∧
      (p.1.count = p.1.built.toList.count true ↔ Sparing crew calls (g₀, s₀)) := by
  intro p
  obtain ⟨hbegun, honce⟩ := (Begun.new hnew).tries crew (p := (g₀, [], s₀)) calls
  have hview := (mirrors_tries crew calls).state (g₀, [], s₀)
  have hsparing := honce.trans (and_iff_right List.nodup_nil)
  rcases htold : (Growth.tries (recording crew) calls (g₀, [], s₀)).state with ⟨g, done, s⟩
  rw [htold] at hbegun hview hsparing
  change (g, s) = p at hview
  rw [← hview]
  exact ⟨done, rfl, hbegun.accounts, hsparing, hbegun.accounts.count_eq_iff.trans hsparing⟩

/-- A stem of two roots, of which the second ends nowhere. -/
def snapped : Array (Segment Float) :=
  #[⟨⟨0.0, 0.0⟩, ⟨0.0, -10.0⟩, 0, 1.0, 0.0, Grammar.defaultStemColour, true⟩,
    ⟨⟨0.0, -10.0⟩, ⟨0.0, 0.0 / 0.0⟩, 0, 1.0, 0.0, Grammar.defaultStemColour, false⟩]

def snap : Growth Float where
  segments := snapped
  fruits := []
  rate := 0.5
  divisor := 50
  stage := .seeded
  growth := 0
  built := Array.replicate 2 false
  count := 0
  braced := false
  fruited := false
  cursor := 0

def ground : World Float × Graph Float := (World.new 0 .default 4, .new ⟨200.0, 600.0⟩ 1)

def tried (calls : List Call) : Growth Float × World Float × Graph Float :=
  (tries Plant.crew calls (snap, ground)).state

def told (calls : List Call) : List (Task Float) :=
  (tries (recording Plant.crew) calls (snap, [], ground)).state.2.1

/-- Ticks go on after the stop among the roots, come to the segment that cannot be built, and stop
there again and again. -/
theorem retries_accounted_snapped :
    Growth.new snapped [] 0.5 50.0 = .ok snap ∧
      (placeRoots Plant.crew (snap, ground)).result = .error .notANumber ∧
      (advance Plant.crew (tried [.roots, .tick, .tick])).result = .error .notANumber ∧
      let p := tried [.roots, .tick, .tick, .tick]
      ∃ done,
        (tries (recording Plant.crew) [.roots, .tick, .tick, .tick] (snap, [], ground)).state =
          (p.1, done, p.2) ∧
        Accounts snapped p.1 done ∧ numbers done = [0] ∧
        Sparing Plant.crew [.roots, .tick, .tick, .tick] (snap, ground) ∧
        p.1.count = p.1.built.toList.count true := by
  have hnew : Growth.new snapped [] 0.5 50.0 = .ok snap := rfl
  obtain ⟨done, hdone, haccounts, honce, hcount⟩ :=
    retries_accounted hnew Plant.crew ground [.roots, .tick, .tick, .tick]
  have hnumbers : numbers (told [.roots, .tick, .tick, .tick]) = [0] := by decide +kernel
  unfold told at hnumbers
  rw [hdone] at hnumbers
  unfold tried
  have hsparing := honce.mp (hnumbers ▸ List.nodup_singleton 0)
  exact ⟨hnew, by decide +kernel, by decide +kernel, done, hdone, haccounts, hnumbers, hsparing,
    hcount.mpr hsparing⟩

/-- Placing the roots again builds and counts the first of them again. -/
theorem snapped_built_twice :
    Growth.new snapped [] 0.5 50.0 = .ok snap ∧
      (placeRoots Plant.crew (snap, ground)).result = .error .notANumber ∧
      numbers (told [.roots]) = [0] ∧ (tried [.roots]).1.count = 1 ∧
      numbers (told [.roots, .roots]) = [0, 0] ∧ (tried [.roots, .roots]).1.count = 2 ∧
      (tried [.roots, .roots]).1.built.toList.count true = 1 :=
  ⟨rfl, by decide +kernel, by decide +kernel, by decide +kernel, by decide +kernel,
    by decide +kernel, by decide +kernel⟩

end Arboretum.Growth
