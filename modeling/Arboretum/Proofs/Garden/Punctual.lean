import Arboretum.Proofs.Garden.Sowing
import Arboretum.Proofs.Garden.Rate

/-!
A schedule and its own cooldown. Plantings of one schedule are due further apart than the cooldown
lasts. In exact arithmetic ticks that are no longer than the time in between never bring two of them
so close together that the cooldown holds one up, so each is carried out in the first tick that
finds it due.
-/
namespace Arboretum

open Arboretum.Action

namespace Garden

section
variable {α : Type} {g : Garden α} {now : Clock α} {last : Option α}

/-- A garden at a moment, and the time of its last planting. -/
def Moment (now : Clock α) (last : Option α) (g : Garden α) : Prop :=
  g.clock = now ∧ g.lastPlanting = last

theorem aside_moment : Aside (Moment now last) := fun _ _ _ _ _ _ h => h

theorem moment_evictOldest : Keeps (Moment now last) (evictOldest (α := α)) := by
  unfold evictOldest
  refine .bind .read fun g => ?_
  split
  · exact .fail _
  · refine .bind (keeps_say _) fun _ => .bind (.modify fun _ h => h) fun _ => fun g h => ?_
    rw [retire_state]
    exact h

variable [Scalar α]

/-- A planting that gives a plant starts the cooldown. -/
theorem moment_createPlant (spot : Vec α) (kind : Option String) (grammar : Option (Grammar α)) :
    Meets (Moment now last) (createPlant spot kind grammar) (Moment now last)
      fun answer => Moment now (if answer.isSome then some now.seconds else last) := by
  have hgrow (seed : Seed α) : Keeps (Moment now last) (grow spot seed) := fun _ h => h
  have hwelcome (p : Plant α) : Meets (Moment now last)
      (Action.modify fun g =>
        { g with lastPlanting := some g.clock.seconds, plants := g.plants ++ [p] } :
          Tending α Unit) (Moment now last) fun _ => Moment now (some now.seconds) :=
    .modify fun g h => ⟨h.1, congrArg (fun c => some c.seconds) h.1⟩
  rw [createPlant_eq]
  refine .bind .read fun g => ?_
  split
  · exact .pure fun _ h => h.2
  refine .bind ((keeps_choice aside_moment kind grammar).meets.of_pre fun _ h => h.2) fun c => ?_
  unfold settle
  refine .bind (hgrow c.2).attempt.meets fun outcome => ?_
  cases outcome with
  | error cause => exact .bind (keeps_say _).meets fun _ => .pure fun _ h => h
  | ok p =>
    dsimp only
    split
    · exact .bind moment_evictOldest.meets fun _ => .bind (hwelcome p) fun _ => .pure fun _ h => h
    · exact .bind (hwelcome p) fun _ => .pure fun _ h => h

/-- What the clock shows when each tick among some deeds begins. -/
def readings : List (Deed α) → Garden α → List α
  | [], _ => []
  | .tick dt :: rest, g => g.clock.seconds :: readings rest ((Deed.tick dt).act g).state
  | d :: rest, g => readings rest (d.act g).state

/-- The first of some readings that reaches the time of a planting, beside the planting. -/
def firstReading (clocks : List α) (e : Pending α) : Option (Pending α × α) :=
  (clocks.find? (e.due ≤ ·)).map (e, ·)

end

end Garden

namespace Try

section
variable {α : Type} [Scalar α]

def time (t : Try α) : α := t.garden.clock.seconds

/-- The cooldown did not hold a planting up, and it gave a plant. -/
def Prompt (t : Try α) : Prop := t.garden.isCooling = false ∧ t.answer.isSome

end

end Try

/-- A deed that neither plants nor gives a planting up, and is no longer tick than that. -/
def Deed.Gentle (most : ℝ) : Deed ℝ → Prop
  | .tick dt => dt ≤ most
  | .plant .. | .schedule .. | .clear | .reset => False
  | .theme _ | .nextTheme | .draw | .wind => True

namespace Garden

variable {g : Garden ℝ} {es : List (Pending ℝ)}

/-! ### One moment -/

theorem interval_pos : (0 : ℝ) < interval := by
  show (0 : ℝ) < 0.8
  norm_num

/-- A garden that no tick can stop, whose pending plantings are further apart than the cooldown
lasts: none of them is overdue by what is left of that time, and none will be too early. -/
structure Poised (es : List (Pending ℝ)) (g : Garden ℝ) : Prop extends Tidy g where
  ready : g.world.Ready
  fair : g.Fair
  pending : g.pending = es
  apart : es.Pairwise fun a b => a.due + interval ≤ b.due
  late : ∀ e ∈ es, g.clock.seconds ≤ e.due + (interval - g.cooldown)
  free : ∀ last, g.lastPlanting = some last → ∀ e ∈ es, last + g.cooldown ≤ e.due

/-- A planting that is due is not too early. -/
theorem Poised.warm (h : Poised es g) {e : Pending ℝ} (he : e ∈ es)
    (hdue : e.due ≤ g.clock.seconds) : g.isCooling = false := by
  cases hlast : g.lastPlanting with
  | none => simp [isCooling, hlast]
  | some last =>
    have hfree := h.free last hlast e he
    have hwarm : ¬ g.clock.seconds - last < g.cooldown := by linarith
    simp [isCooling, hlast, hwarm]

/-- Where the first of some plantings is not due, none of them is. -/
theorem none_due {now : ℝ} {e : Pending ℝ} {rest : List (Pending ℝ)}
    (h : (e :: rest).Pairwise fun a b => a.due + interval ≤ b.due) (hdue : ¬ e.due ≤ now) :
    (e :: rest).filter (·.due ≤ now) = [] ∧ (e :: rest).filter (¬ ·.due ≤ now) = e :: rest := by
  have hfirst : ∀ b ∈ rest, e.due ≤ b.due := fun b hb => by
    have hgap := (List.pairwise_cons.mp h).1 b hb
    have hpos := interval_pos
    linarith
  have hall : ∀ b ∈ e :: rest, ¬ b.due ≤ now := not_due hfirst hdue
  exact ⟨by simpa using hall, by simpa using hall⟩

/-- The first planting, where it is due, leaves the others poised. -/
theorem Poised.plant {e : Pending ℝ} {rest : List (Pending ℝ)} (h : Poised rest g)
    (hlate : g.clock.seconds ≤ e.due + (interval - g.cooldown))
    (hapart : ∀ b ∈ rest, e.due + interval ≤ b.due) (spot : Vec ℝ) :
    ∃ answer, (createPlant spot e.kind none g).result = .ok answer ∧
      Poised rest (createPlant spot e.kind none g).state ∧
      (createPlant spot e.kind none g).state.clock = g.clock ∧
      (createPlant spot e.kind none g).state.cooldown = g.cooldown := by
  have hreturns : Meets (Waiting g.clock g.draws.draw []) (createPlant spot e.kind none)
      (fun _ => False) fun _ => Waiting g.clock g.draws.draw [] :=
    waits_createPlant (fun taken hno => by simp [choose_fair h.fair] at hno) spot e.kind none
  obtain ⟨answer, hanswer, hwaiting⟩ := hreturns.returned h.toTidy.waiting
  have hplanned : Planned fun t : Garden ℝ =>
      t.pending = g.pending ∧ t.cooldown = g.cooldown := fun _ _ _ _ _ _ _ _ _ _ ht => ht
  obtain ⟨hpending, hcooldown⟩ := hplanned.createPlant spot e.kind none g ⟨rfl, rfl⟩
  obtain ⟨hclock, hlast⟩ := (moment_createPlant spot e.kind none g ⟨rfl, rfl⟩).2 answer hanswer
  have hready := lasting_createPlant World.lasting_ready spot e.kind none g h.ready
  refine ⟨answer, hanswer, ⟨hwaiting.toTidy, hready, fair_of_stream h.fair hwaiting.stream,
    hpending.trans h.pending, h.apart, ?_, ?_⟩, hclock, hcooldown⟩
  · rw [hclock, hcooldown]
    exact h.late
  · rw [hlast, hcooldown]
    intro last hset b hb
    split at hset
    · cases hset
      have hgap := hapart b hb
      linarith
    · exact h.free last hset b hb

/-- The tries of a moment: what was due then, one after the other, and all of them prompt. -/
def Tried (now : ℝ) (es : List (Pending ℝ)) (tries : List (Try ℝ)) : Prop :=
  tries.map (fun t => (t.entry, t.time)) = es.map (·, now) ∧ ∀ t ∈ tries, t.Prompt

/-- A garden at the time and with the cooldown of another. -/
def SameHour (g₀ g : Garden ℝ) : Prop := g.clock = g₀.clock ∧ g.cooldown = g₀.cooldown

theorem Poised.watchNext {e : Pending ℝ} {rest : List (Pending ℝ)} (h : Poised (e :: rest) g)
    (hdue : e.due ≤ g.clock.seconds) (d : Diary ℝ) :
    let r := watchNext e rest (g, d)
    r.result = .ok () ∧ Poised rest r.state.1 ∧ SameHour g r.state.1 ∧
      ∃ t : Try ℝ, r.state.2.tries = d.tries ++ [t] ∧ t.entry = e ∧ t.time = g.clock.seconds ∧
        t.Prompt := by
  obtain ⟨hlate, hothers⟩ := List.forall_mem_cons.mp h.late
  obtain ⟨hgap, hapart⟩ := List.pairwise_cons.mp h.apart
  -- the garden when the place has been chosen
  set t : Garden ℝ := (site rest g).state with ht
  have hstate : t = { g with
      pending := rest, draws := { g.draws with taken := g.draws.taken + 1 } } := rfl
  have hpoised : Poised rest t :=
    ⟨⟨h.sound, h.guests, h.room⟩, h.ready, h.fair, rfl, hapart, hothers,
      fun last hlast b hb => h.free last hlast b (List.mem_cons_of_mem e hb)⟩
  obtain ⟨spot, hspot⟩ : ∃ spot, (site rest g).result = .ok spot := ⟨_, rfl⟩
  obtain ⟨answer, hanswer, hrest, hclock, hcooldown⟩ := hpoised.plant hlate hgap spot
  have hwarm : t.isCooling = false := h.warm List.mem_cons_self hdue
  obtain ⟨hresult, hleft⟩ := watchNext_of_ok hspot hanswer d
  intro r
  simp only [r, hleft]
  exact ⟨hresult, hrest, ⟨hclock, hcooldown⟩, ⟨t, spot, e, answer⟩, rfl, rfl, rfl, hwarm,
    createPlant_isSome hpoised.ready hpoised.fair hwarm hanswer⟩

/-- What is due is tried at once, and what is not stays poised. -/
theorem Poised.watchDue (h : Poised es g) (d : Diary ℝ) :
    let r := watchDue g.clock.seconds es (g, d)
    r.result = .ok () ∧ Poised (es.filter (¬ ·.due ≤ g.clock.seconds)) r.state.1 ∧
      SameHour g r.state.1 ∧ ∃ tries, r.state.2.tries = d.tries ++ tries ∧
        Tried g.clock.seconds (es.filter (·.due ≤ g.clock.seconds)) tries := by
  generalize hnow : g.clock.seconds = now
  induction es generalizing g d with
  | nil => exact ⟨rfl, h, ⟨rfl, rfl⟩, [], (List.append_nil _).symm, rfl, by simp⟩
  | cons e rest ih =>
    intro r
    have hr : r = Garden.watchDue now (e :: rest) (g, d) := rfl
    rw [Garden.watchDue] at hr
    by_cases hdue : e.due ≤ now
    · obtain ⟨hnext, hpoised, hhour, t, htries, hentry, htime, hprompt⟩ :=
        h.watchNext (hnow ▸ hdue) d
      rw [if_pos hdue, bind_of_ok hnext] at hr
      generalize hs : (Garden.watchNext e rest (g, d)).state = s at hr hpoised hhour htries
      obtain ⟨g', d'⟩ := s
      obtain ⟨hdone, hleft, hhour', tries, hlater, hmap, hall⟩ :=
        ih hpoised d' (hhour.1 ▸ hnow)
      have hkept : (e :: rest).filter (·.due ≤ now) = e :: rest.filter (·.due ≤ now) := by
        simp [hdue]
      have hgone : (e :: rest).filter (¬ ·.due ≤ now) = rest.filter (¬ ·.due ≤ now) := by
        simp [hdue]
      rw [hr, hkept, hgone]
      refine ⟨hdone, hleft, ⟨hhour'.1.trans hhour.1, hhour'.2.trans hhour.2⟩, t :: tries, ?_, ?_,
        List.forall_mem_cons.mpr ⟨hprompt, hall⟩⟩
      · rw [hlater, htries, List.append_assoc, List.singleton_append]
      · rw [List.map_cons, List.map_cons, hmap, hentry, htime, hnow]
    · obtain ⟨hnone, hkept⟩ := none_due h.apart hdue
      rw [if_neg hdue] at hr
      rw [hr, hnone, hkept]
      exact ⟨rfl, h, ⟨rfl, rfl⟩, [], (List.append_nil _).symm, rfl, by simp⟩

/-! ### Ticks -/

/-- After the plantings that are due a tick changes nothing about the schedule and the cooldown. -/
theorem Tidy.ticked (h : Tidy g) (hfair : g.Fair) (dt : ℝ) :
    (update dt g).state.pending = g.filled.pending ∧
      (update dt g).state.lastPlanting = g.filled.lastPlanting ∧
      (update dt g).state.clock = g.clock.advance dt := by
  obtain ⟨hdue, hfilled⟩ := h.filled (choose_fair hfair)
  have hclock : (g.filled.tended dt).clock = g.clock := hfilled.now
  have hticks : (Scalar.ofInt (α := ℝ) (g.filled.tended dt).clock.ticks).isOk := by
    rw [Scalar.ofInt_real]
    rfl
  obtain ⟨points, hmovable, hforces, hpushed⟩ := (hfilled.toTidy.tended dt).pushed hticks
  obtain ⟨draws, wind, sources, hrest⟩ := hpushed.rest
  rw [(update_of_parts hdue hmovable hforces).2]
  refine ⟨?_, ?_, congrArg (Clock.advance dt) (hpushed.clock.trans hclock)⟩
  · exact congrArg (·.pending) hrest
  · exact congrArg (·.lastPlanting) hrest

/-- What a tick has tried is written when its plants have their turns. -/
theorem tries_watchTick {dt : ℝ} {d : Diary ℝ}
    (hdue : (Garden.watchDue g.clock.seconds g.pending (g, d)).result = .ok ()) :
    (watchTick dt (g, d)).state.2.tries =
      (Garden.watchDue g.clock.seconds g.pending (g, d)).state.2.tries := by
  generalize htries : (Garden.watchDue g.clock.seconds g.pending (g, d)).state.2.tries = tries
  have hturns : Keeps (fun s : Garden ℝ × Diary ℝ => s.2.tries = tries)
      (watching (tendAll dt) fun g _ d => d.tended dt g) :=
    keeps_watching (fun _ _ _ h _ => h) fun _ _ _ h _ => h
  have hrest : Keeps (fun s : Garden ℝ × Diary ℝ => s.2.tries = tries) (do
      watching (tendAll dt) fun g _ d => d.tended dt g
      (moveOn dt).onFst) := hturns.bind fun _ _ h => h
  unfold watchTick
  rw [read_bind]
  dsimp only
  rw [bind_of_ok hdue]
  exact hrest _ htries

/-- A tick that is no longer than the cooldown leaves of the interval. -/
theorem Poised.tick (h : Poised es g) {dt : ℝ} (hdt : dt ≤ interval - g.cooldown) (d : Diary ℝ) :
    let g' := ((Deed.tick dt).act g).state
    Poised (es.filter (¬ ·.due ≤ g.clock.seconds)) g' ∧ g'.cooldown = g.cooldown ∧
      ∃ tries, ((Deed.tick dt).entered g d).tries = d.tries ++ tries ∧
        Tried g.clock.seconds (es.filter (·.due ≤ g.clock.seconds)) tries := by
  obtain ⟨hdone, hleft, hhour, tries, htries, htried⟩ := h.watchDue d
  have hfilled : (Garden.watchDue g.clock.seconds es (g, d)).state.1 = g.filled := by
    have hmirror := (mirrors_watchDue g.clock.seconds es).state (g, d)
    rw [hmirror, filled, h.pending]
  rw [hfilled] at hleft hhour
  obtain ⟨hpending, hlast, hclock⟩ := h.toTidy.ticked h.fair dt
  have hplanned : Planned fun t : Garden ℝ =>
      t.cooldown = g.cooldown ∧ t.draws.draw = g.draws.draw := fun _ _ _ _ _ _ _ _ _ _ ht => ht
  obtain ⟨hcooldown, hstream⟩ := hplanned.act (fun _ _ ht => ht) (.tick dt) g ⟨rfl, rfl⟩
  have hready := Deed.lasting_act World.lasting_ready (.tick dt) g h.ready
  refine ⟨⟨tidy_act h.toTidy _, hready, fair_of_stream h.fair hstream,
    hpending.trans hleft.pending, hleft.apart, ?_, ?_⟩, hcooldown, tries, ?_, htried⟩
  · intro e he
    have hlater : ¬ e.due ≤ g.clock.seconds := by simpa using (List.mem_filter.mp he).2
    have hseconds : ((Deed.tick dt).act g).state.clock.seconds = g.clock.seconds + dt :=
      congrArg Clock.seconds hclock
    rw [hseconds, hcooldown]
    linarith
  · intro last hset e he
    have hfree := hleft.free last (hlast.symm.trans hset) e he
    rwa [hhour.2, ← hcooldown] at hfree
  · have hdue : (Garden.watchDue g.clock.seconds g.pending (g, d)).result = .ok () := by
      rw [h.pending]
      exact hdone
    rw [← htries, ← h.pending]
    exact tries_watchTick hdue

/-! ### Runs -/

/-- What is due comes before what is not. -/
theorem apart_split {now : ℝ} (h : es.Pairwise fun a b => a.due + interval ≤ b.due) :
    es.filter (·.due ≤ now) ++ es.filter (¬ ·.due ≤ now) = es := by
  induction es with
  | nil => rfl
  | cons e rest ih =>
    obtain ⟨hgap, hapart⟩ := List.pairwise_cons.mp h
    by_cases hdue : e.due ≤ now
    · simpa [hdue] using ih hapart
    · obtain ⟨hnone, hkept⟩ := none_due h hdue
      rw [hnone, hkept, List.nil_append]

/-- The first of some readings reaches what is due then, and the others reach the rest. -/
theorem filterMap_firstReading {now : ℝ} (h : es.Pairwise fun a b => a.due + interval ≤ b.due)
    (clocks : List ℝ) : es.filterMap (firstReading (now :: clocks)) =
      (es.filter (·.due ≤ now)).map (·, now) ++
        (es.filter (¬ ·.due ≤ now)).filterMap (firstReading clocks) := by
  have hdue : (es.filter (·.due ≤ now)).filterMap (firstReading (now :: clocks)) =
      (es.filter (·.due ≤ now)).map (·, now) := by
    rw [← List.filterMap_eq_map]
    refine List.filterMap_congr fun e he => ?_
    simp [firstReading, of_decide_eq_true (List.mem_filter.mp he).2]
  have hlater : (es.filter (¬ ·.due ≤ now)).filterMap (firstReading (now :: clocks)) =
      (es.filter (¬ ·.due ≤ now)).filterMap (firstReading clocks) := by
    refine List.filterMap_congr fun e he => ?_
    have hnot : ¬ e.due ≤ now := by simpa using (List.mem_filter.mp he).2
    simp [firstReading, hnot]
  rw [← hdue, ← hlater, ← List.filterMap_append, apart_split h]

/-- What is not a tick, and does not plant or give anything up, leaves a garden poised. -/
theorem Poised.pass (h : Poised es g) {d : Deed ℝ}
    (hplanned : ∀ kept, Planned kept → Keeps kept d.act)
    (haside : ∀ kept, Aside kept → Keeps kept d.act) :
    Poised es (d.act g).state ∧ (d.act g).state.cooldown = g.cooldown := by
  have hmeasures : Planned fun t : Garden ℝ =>
      t.pending = g.pending ∧ t.cooldown = g.cooldown ∧ t.draws.draw = g.draws.draw :=
    fun _ _ _ _ _ _ _ _ _ _ ht => ht
  obtain ⟨hpending, hcooldown, hstream⟩ := hplanned _ hmeasures g ⟨rfl, rfl, rfl⟩
  obtain ⟨hclock, hlast⟩ := haside _ aside_moment g ⟨rfl, rfl⟩
  refine ⟨⟨tidy_act h.toTidy d, Deed.lasting_act World.lasting_ready d g h.ready,
    fair_of_stream h.fair hstream, hpending.trans h.pending, h.apart, ?_, ?_⟩, hcooldown⟩
  · rw [hclock, hcooldown]
    exact h.late
  · rw [hlast, hcooldown]
    exact h.free

/-- Some plantings, each of which was carried out in the first tick that found it due, or has not
been due in any. -/
structure Carried (es : List (Pending ℝ)) (clocks : List ℝ) (was : Diary ℝ)
    (now : Garden ℝ × Diary ℝ) : Prop where
  tries : ∃ tries, now.2.tries = was.tries ++ tries ∧
    tries.map (fun t => (t.entry, t.time)) = es.filterMap (firstReading clocks) ∧
    ∀ t ∈ tries, t.Prompt
  pending : now.1.pending = es.filter fun e => clocks.all (¬ e.due ≤ ·)

/-- Ticks that are no longer than the cooldown leaves of the interval carry out each planting in the
first of them that finds it due. -/
theorem Poised.carried (h : Poised es g) {deeds : List (Deed ℝ)}
    (hdeeds : ∀ d ∈ deeds, d.Gentle (interval - g.cooldown)) (diary : Diary ℝ) :
    Carried es (readings deeds g) diary (follow deeds (g, diary)) := by
  induction deeds generalizing es g diary with
  | nil =>
    refine ⟨⟨[], (List.append_nil _).symm, ?_, by simp⟩, ?_⟩
    · simp [readings, firstReading]
    · simpa [readings, follow] using h.pending
  | cons d rest ih =>
    obtain ⟨hd, hrest⟩ := List.forall_mem_cons.mp hdeeds
    have hpass (hp : Poised es (d.act g).state ∧ (d.act g).state.cooldown = g.cooldown) :=
      ih hp.1 (hp.2 ▸ hrest) diary
    cases d with
    | tick dt =>
      obtain ⟨hpoised, hcooldown, tries, htries, hmap, hprompt⟩ := h.tick hd diary
      obtain ⟨⟨later, hlater, hmap', hprompt'⟩, hpending⟩ :=
        ih hpoised (hcooldown ▸ hrest) ((Deed.tick dt).entered g diary)
      refine ⟨⟨tries ++ later, ?_, ?_, List.forall_mem_append.mpr ⟨hprompt, hprompt'⟩⟩, ?_⟩
      · rw [← List.append_assoc, ← htries]
        exact hlater
      · rw [List.map_append, hmap, hmap', readings, filterMap_firstReading h.apart]
      · rw [readings]
        refine hpending.trans ?_
        rw [List.filter_filter]
        simp [Bool.and_comm]
    | theme name =>
      exact hpass (h.pass (fun _ hk => .bind (hk.setTheme name) fun _ => .pure _)
        fun _ hk => .bind (keeps_setTheme hk name) fun _ => .pure _)
    | nextTheme =>
      exact hpass (h.pass (fun _ hk => .bind hk.cycleTheme fun _ => .pure _)
        fun _ hk => .bind (keeps_cycleTheme hk) fun _ => .pure _)
    | draw =>
      exact hpass (h.pass (fun _ _ => .bind keeps_frames fun _ => .pure _)
        fun _ _ => .bind keeps_frames fun _ => .pure _)
    | wind =>
      exact hpass (h.pass (fun _ hk => .bind hk.toggleWind fun _ => .pure _)
        fun _ hk => .bind (keeps_toggleWind hk) fun _ => .pure _)
    | plant | schedule | clear | reset => exact hd.elim

/-! ### Schedules -/

theorem length_batch (g : Garden ℝ) (count : Int) (kind : Option String) :
    ((g.batch count kind).length : Int) = min (max count 0) 4 := by
  simp only [batch, List.length_map, List.length_range, maxScheduled]
  omega

/-- The plantings of a schedule are an interval apart, from now on. -/
theorem batch_apart (g : Garden ℝ) (count : Int) (kind : Option String) :
    (g.batch count kind).Pairwise (fun a b => a.due + interval ≤ b.due) ∧
      ∀ e ∈ g.batch count kind, g.clock.seconds ≤ e.due := by
  have hpos := interval_pos
  constructor
  · refine List.pairwise_map.mpr (List.pairwise_lt_range.imp fun {i j} hij => ?_)
    have hnext : ((i : ℝ) + 1) * interval ≤ j * interval :=
      mul_le_mul_of_nonneg_right (by exact_mod_cast hij) hpos.le
    show g.clock.seconds + (i : ℝ) * interval + interval ≤ g.clock.seconds + (j : ℝ) * interval
    linarith
  · intro e he
    obtain ⟨i, -, rfl⟩ := List.mem_map.mp he
    have hlater : 0 ≤ (i : ℝ) * interval := mul_nonneg (Nat.cast_nonneg i) hpos.le
    show g.clock.seconds ≤ g.clock.seconds + (i : ℝ) * interval
    linarith

/-- A schedule that is asked for when nothing is pending and the cooldown is over. -/
theorem Lived.poised (h : Lived g) (hfair : g.Fair) (hcooldown : g.cooldown < interval)
    (hnone : g.pending = [])
    (hrested : ∀ last, g.lastPlanting = some last → g.cooldown ≤ g.clock.seconds - last)
    (count : Int) (kind : Option String) :
    Poised (g.batch count kind) ((Deed.schedule count kind).act g).state := by
  obtain ⟨hapart, hlater⟩ := batch_apart g count kind
  have hsorted : (g.batch count kind).Pairwise fun a b => decide (a.due ≤ b.due) :=
    hapart.imp fun {a b} hab => by
      have hpos := interval_pos
      exact decide_eq_true (by linarith)
  have hpending : ((Deed.schedule count kind).act g).state.pending = g.batch count kind := by
    rw [schedule_pending, hnone, List.nil_append, List.mergeSort_of_pairwise hsorted]
  refine ⟨tidy_act h.tidy _, h.ready, hfair, hpending, hapart, fun e he => ?_,
    fun last hlast e he => ?_⟩
  · show g.clock.seconds ≤ e.due + (interval - g.cooldown)
    have hnow := hlater e he
    linarith
  · show last + g.cooldown ≤ e.due
    have hnow := hlater e he
    have hover := hrested last hlast
    linarith

/-- A schedule never trips over its own cooldown. It asks for up to four plantings, and if it is
asked for when nothing is pending and the cooldown is over, each of them is carried out in the first
tick whose clock has reached its time, as long as no tick is longer than the cooldown leaves of the
interval. -/
theorem Lived.punctual (h : Lived g) (hfair : g.Fair) (hcooldown : g.cooldown < interval)
    (hnone : g.pending = [])
    (hrested : ∀ last, g.lastPlanting = some last → g.cooldown ≤ g.clock.seconds - last)
    (count : Int) (kind : Option String) {deeds : List (Deed ℝ)}
    (hdeeds : ∀ d ∈ deeds, d.Gentle (interval - g.cooldown)) (diary : Diary ℝ) :
    ((g.batch count kind).length : Int) = min (max count 0) 4 ∧
      Carried (g.batch count kind) (readings deeds ((Deed.schedule count kind).act g).state) diary
        (follow (.schedule count kind :: deeds) (g, diary)) :=
  ⟨length_batch g count kind,
    (h.poised hfair hcooldown hnone hrested count kind).carried hdeeds diary⟩

/-- Ticks of one length read the clock at equal distances. -/
theorem Poised.readings_ticks (h : Poised es g) {dt : ℝ} (hdt : dt ≤ interval - g.cooldown)
    (n : Nat) : readings (List.replicate n (.tick dt)) g =
      (List.range n).map fun i : Nat => g.clock.seconds + i * dt := by
  induction n generalizing es g with
  | zero => rfl
  | succ n ih =>
    obtain ⟨hpoised, hcooldown, -⟩ := h.tick hdt .blank
    have hclock : ((Deed.tick dt).act g).state.clock = g.clock.advance dt :=
      (h.toTidy.ticked h.fair dt).2.2
    have hseconds : ((Deed.tick dt).act g).state.clock.seconds = g.clock.seconds + dt :=
      congrArg Clock.seconds hclock
    rw [List.replicate_succ, readings, ih hpoised (hcooldown ▸ hdt), List.range_succ_eq_map,
      List.map_cons, List.map_map, hseconds]
    congr 1
    · simp
    · refine List.map_congr_left fun i _ => ?_
      simp only [Function.comp_apply]
      push_cast
      ring

/-- Three ferns are planted in twelve ticks, in less time than there is between their due times. -/
theorem punctual_fallow :
    let s := follow (.schedule 3 (some "fern") :: List.replicate 12 (.tick 0.15)) (fallow, .blank)
    s.2.tries.map (fun t => (t.entry.due, t.time)) = [(0, 0), (0.8, 0.9), (1.6, 1.65)] ∧
      (∀ t ∈ s.2.tries, t.Prompt) ∧ s.1.pending = [] := by
  intro s
  have hlived : Lived fallow := .new _ _ _ _ _ _ _ _ (by decide)
  have hfair : fallow.Fair := fun i => by
    have hdraw : fallow.draws.draw i = 0.5 := rfl
    rw [hdraw]
    norm_num
  have hinterval : (interval : ℝ) = 4 / 5 := by
    show (0.8 : ℝ) = 4 / 5
    norm_num
  have hcooldown : fallow.cooldown = 3 / 5 := by
    show (0.6 : ℝ) = 3 / 5
    norm_num
  have hshort : (0.15 : ℝ) ≤ interval - fallow.cooldown := by
    rw [hinterval, hcooldown]
    norm_num
  have hcalm : fallow.cooldown < interval := by
    rw [hinterval, hcooldown]
    norm_num
  have hdeeds : ∀ d ∈ List.replicate 12 (Deed.tick (0.15 : ℝ)),
      d.Gentle (interval - fallow.cooldown) := by
    intro d hd
    rw [List.eq_of_mem_replicate hd]
    exact hshort
  have hrested : ∀ last, fallow.lastPlanting = some last →
      fallow.cooldown ≤ fallow.clock.seconds - last := fun _ hlast => by cases hlast
  have hpoised := hlived.poised hfair hcalm rfl hrested 3 (some "fern")
  have hreadings := hpoised.readings_ticks hshort 12
  obtain ⟨-, hcarried⟩ := hlived.punctual hfair hcalm rfl hrested 3 (some "fern") hdeeds .blank
  rw [hreadings] at hcarried
  obtain ⟨⟨tries, htries, hmap, hprompt⟩, hpending⟩ := hcarried
  have hnow : fallow.clock.seconds = 0 := rfl
  have hstart : ((Deed.schedule 3 (some "fern")).act fallow).state.clock.seconds = 0 := rfl
  have hbatch : fallow.batch 3 (some "fern") =
      [⟨0, some "fern"⟩, ⟨0.8, some "fern"⟩, ⟨1.6, some "fern"⟩] := by
    simp [batch, hnow, hinterval, maxScheduled, List.range_succ]
    norm_num
  rw [hstart, hbatch] at hmap hpending
  have htold : s.2.tries = tries := htries
  refine ⟨?_, htold ▸ hprompt, hpending.trans ?_⟩
  · have htimes := congrArg (List.map fun e => (e.1.due, e.2)) hmap
    rw [List.map_map] at htimes
    rw [htold]
    refine htimes.trans ?_
    norm_num [firstReading, List.range_succ, List.filterMap_cons, List.find?_cons]
  · norm_num [List.range_succ]

end Garden
end Arboretum
