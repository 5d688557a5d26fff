import Arboretum.Proofs.Garden.Diary

/-!
How often a bed is planted, and who has to leave it. Plantings that no reset separates are a
cooldown apart, however they came about, as long as the clock has not reached the end of time. The
bed is never overfull, lists its plants as they came, and loses the oldest one when it has to make
room; whatever has left it is destroyed.
-/
namespace Arboretum

open Arboretum.Action

variable {α : Type}

namespace Diary

variable {d : Diary α} {room : Int} {p q : Plant α} {plants retired : List (Plant α)}

/-- The plant that came under a number, at a later time. -/
def Shows (d : Diary α) (n : Nat) (p : Plant α) : Prop :=
  ∃ b, d.births[n]? = some b ∧ b.plant.Becomes p

/-- The plant that came under a number, destroyed. -/
def Buries (d : Diary α) (n : Nat) (p : Plant α) : Prop := d.Shows n p ∧ p.destroyed

theorem Shows.becomes {n : Nat} (h : d.Shows n p) (hq : p.Becomes q) : d.Shows n q := by
  obtain ⟨b, hb, hp⟩ := h
  exact ⟨b, hb, hp.trans hq⟩

theorem Shows.perishes {n : Nat} (h : d.Shows n p) (hq : p.Perishes q) : d.Buries n q :=
  ⟨h.becomes hq.1, hq.2⟩

/-- Numbers stay with their plants when another one comes. -/
theorem Shows.onward {n : Nat} (h : d.Shows n p) (b : Birth α) :
    Shows { d with births := d.births ++ [b] } n p := by
  obtain ⟨c, hc, hp⟩ := h
  obtain ⟨hlt, -⟩ := List.getElem?_eq_some_iff.mp hc
  exact ⟨c, (List.getElem?_append_left hlt).trans hc, hp⟩

theorem buries_of_perish {ns : List Nat} {ps qs : List (Plant α)}
    (h : List.Forall₂ d.Shows ns ps) (hqs : List.Forall₂ Plant.Perishes ps qs) :
    List.Forall₂ d.Buries ns qs := by
  induction hqs generalizing ns with
  | nil =>
    cases h
    exact .nil
  | cons hq _ ih =>
    cases h with
    | cons hp hrest => exact .cons (hp.perishes hq) (ih hrest)

/-! ### Who is there -/

/-- A diary that tells the plants of a bed, and those that have left it. -/
structure Counts (d : Diary α) (room : Int) (plants retired : List (Plant α)) : Prop where
  capacity : (plants.length : Int) ≤ room
  ordered : d.bed.Pairwise (· < ·)
  present : List.Forall₂ d.Shows d.bed plants
  gone : List.Forall₂ d.Buries d.gone retired
  all : (d.bed ++ d.gone).Perm (List.range d.births.length)
  evictions : ∀ e ∈ d.evictions, e.1 ∈ e.2 ∧ ∀ n ∈ e.2, e.1 ≤ n

theorem Counts.blank (h : 0 ≤ room) : Counts (α := α) blank room [] [] where
  capacity := h
  ordered := .nil
  present := .nil
  gone := .nil
  all := .nil
  evictions _ h := absurd h List.not_mem_nil

/-- Some plants leave, and the others stay in their order. -/
theorem Counts.leave (h : Counts d room plants retired) {stay leave : List Nat}
    {staying left : List (Plant α)} (hstay : stay.Sublist d.bed)
    (hperm : (stay ++ leave).Perm d.bed) (hpresent : List.Forall₂ d.Shows stay staying)
    (hgone : List.Forall₂ d.Buries leave left) :
    Counts { d with bed := stay, gone := d.gone ++ leave } room staying (retired ++ left) where
  capacity := by
    have hfew := hstay.length_le
    have hcapacity := h.capacity
    rw [hpresent.length_eq, h.present.length_eq] at hfew
    omega
  ordered := h.ordered.sublist hstay
  present := hpresent
  gone := List.rel_append h.gone hgone
  all := by
    have hswap : (stay ++ (d.gone ++ leave)).Perm (stay ++ leave ++ d.gone) := by
      rw [List.append_assoc]
      exact List.perm_append_comm.append_left stay
    exact (hswap.trans (hperm.append_right d.gone)).trans h.all
  evictions := h.evictions

/-- A plant comes where there is room. -/
theorem Counts.arrive (h : Counts d room plants retired) (hroom : (plants.length : Int) + 1 ≤ room)
    (b : Birth α) :
    Counts { d with births := d.births ++ [b], bed := d.bed ++ [d.births.length] } room
      (plants ++ [b.plant]) retired where
  capacity := by
    rw [List.length_append, List.length_singleton]
    exact_mod_cast hroom
  ordered := by
    refine List.pairwise_append.mpr ⟨h.ordered, List.pairwise_singleton _ _, fun n hn m hm => ?_⟩
    rw [List.mem_singleton.mp hm]
    exact List.mem_range.mp (h.all.mem_iff.mp (List.mem_append_left _ hn))
  present := by
    refine List.rel_append (h.present.imp fun _ _ hp => hp.onward b) (.cons ⟨b, ?_, .refl _⟩ .nil)
    exact List.getElem?_concat_length
  gone := h.gone.imp fun _ _ hp => ⟨hp.1.onward b, hp.2⟩
  all := by
    have hswap : (d.bed ++ [d.births.length] ++ d.gone).Perm
        (d.bed ++ d.gone ++ [d.births.length]) := by
      rw [List.append_assoc, List.append_assoc]
      exact List.perm_append_comm.append_left d.bed
    rw [List.length_append, List.length_singleton, List.range_succ]
    exact hswap.trans (h.all.append_right _)
  evictions := h.evictions

/-- Who makes room is the oldest one present. -/
theorem oldest_of_surplus {g : Garden α} {bed : List Nat} (h : bed.Pairwise (· < ·)) :
    ∀ n ∈ bed.take g.surplus, n ∈ bed ∧ ∀ m ∈ bed, n ≤ m := by
  intro n hn
  refine ⟨List.mem_of_mem_take hn, ?_⟩
  unfold Garden.surplus at hn
  split at hn
  · cases bed with
    | nil => simp at hn
    | cons oldest rest =>
      obtain rfl : n = oldest := by simpa using hn
      intro m hm
      rcases List.mem_cons.mp hm with rfl | hm
      · exact Nat.le_refl _
      · exact (List.rel_of_pairwise_cons h hm).le
  · simp at hn

theorem Counts.planted {g : Garden α} (h : Counts d g.maxPlants g.plants g.retired)
    (hroom : 1 ≤ g.maxPlants) (p : Plant α) {qs : List (Plant α)}
    (hqs : List.Forall₂ Plant.Perishes (g.plants.take g.surplus) qs) :
    Counts (d.planted g (some p)) g.maxPlants (g.plants.drop g.surplus ++ [p])
      (g.retired ++ qs) := by
  have hperm : (d.bed.drop g.surplus ++ d.bed.take g.surplus).Perm d.bed := by
    conv_rhs => rw [← List.take_append_drop g.surplus d.bed]
    exact List.perm_append_comm
  have hleft := h.leave (List.drop_sublist _ _) hperm (List.forall₂_drop _ h.present)
    (buries_of_perish (List.forall₂_take _ h.present) hqs)
  have hcame := hleft.arrive (Garden.room_surplus hroom h.capacity) ⟨g.clock.seconds, d.era, p⟩
  refine { hcame with evictions := fun e he => ?_ }
  rcases List.mem_append.mp he with he | he
  · exact h.evictions e he
  · obtain ⟨n, hn, rfl⟩ := List.mem_map.mp he
    exact oldest_of_surplus h.ordered n hn

theorem Counts.cleared (h : Counts d room plants retired) {qs : List (Plant α)}
    (hqs : List.Forall₂ Plant.Perishes plants qs) : Counts d.cleared room [] (retired ++ qs) :=
  h.leave (List.nil_sublist _) (.refl _) .nil (buries_of_perish h.present hqs)

/-- Neither resets nor the schedule decide who is there. -/
theorem Counts.aside (h : Counts d room plants retired) (era : Nat) (tries : List (Try α)) :
    Counts { d with era, tries } room plants retired :=
  ⟨h.capacity, h.ordered, h.present, h.gone, h.all, h.evictions⟩

section
variable [Scalar α] {dt : α} {w : World α} {ps : List (Plant α)} {ns : List Nat}

variable (dt) in
/-- The turns of plants that can be taken out: those that do not fail have grown, and those that do
have perished. -/
theorem shows_turned (hw : w.Sound) (hps : ∀ p ∈ ps, p.Fit) (h : List.Forall₂ d.Shows ns ps) :
    let turns := ns.zip (Garden.turns dt w ps)
    (Garden.turned dt w ps).Sound ∧ (∀ q ∈ Garden.survivors dt w ps, q.Fit) ∧
      List.Forall₂ d.Shows ((turns.filter fun t => !t.2.fails dt).map (·.1))
        (Garden.survivors dt w ps) ∧
      List.Forall₂ d.Buries ((turns.filter fun t => t.2.fails dt).map (·.1))
        (Garden.fallen dt w ps) := by
  induction h generalizing w with
  | nil => exact ⟨hw, fun _ hq => absurd hq List.not_mem_nil, .nil, .nil⟩
  | @cons n p ns ps hp _ ih =>
    obtain ⟨hfirst, hothers⟩ := List.forall_mem_cons.mp hps
    obtain ⟨hsound, hgrown, hfit, hfailed⟩ := Turn.rotates dt ⟨w, p⟩ hw hfirst
    obtain ⟨hlast, hrest, hstay, hleave⟩ := ih hsound hothers
    rw [Garden.survivors_cons, Garden.fallen_cons]
    cases hfails : Turn.fails dt ⟨w, p⟩ with
    | false =>
      simp only [Garden.turns, List.zip_cons_cons, List.filter_cons, hfails]
      exact ⟨hlast, List.forall_mem_cons.mpr ⟨hfit, hrest⟩, .cons (hp.becomes hgrown) hstay, hleave⟩
    | true =>
      simp only [Garden.turns, List.zip_cons_cons, List.filter_cons, hfails]
      exact ⟨hlast, hrest, hstay, .cons (hp.perishes (hfailed hfails)) hleave⟩

theorem Counts.tended {g : Garden α} (h : Counts d g.maxPlants g.plants g.retired)
    (hopen : g.Open) (dt : α) :
    (g.tended dt).Open ∧
      Counts (d.tended dt g) g.maxPlants (g.tended dt).plants (g.tended dt).retired := by
  obtain ⟨hsound, hfit, hstay, hleave⟩ :=
    shows_turned dt hopen.sound hopen.fit h.present
  have hlength : d.bed.length ≤ (Garden.turns dt g.world g.plants).length := by
    have hturns : ((Garden.turns dt g.world g.plants).map (·.plant)).length = g.plants.length :=
      congrArg List.length Garden.map_turns
    rw [List.length_map] at hturns
    rw [hturns, h.present.length_eq]
  have hbed := List.map_fst_zip hlength
  refine ⟨⟨hsound, hfit, hopen.room⟩, h.leave ?_ ?_ hstay hleave⟩
  · have hsub := (List.filter_sublist (p := fun t => !t.2.fails dt)
      (l := d.bed.zip (Garden.turns dt g.world g.plants))).map (·.1)
    rwa [hbed] at hsub
  · have hperm := (List.perm_append_comm.trans (List.filter_append_perm (fun t => t.2.fails dt)
      (d.bed.zip (Garden.turns dt g.world g.plants)))).map (·.1)
    rwa [List.map_append, hbed] at hperm

end

/-! ### When they came -/

section
variable [Scalar α] {cooldown now : α} {last : Option α}

/-- Two plantings that no reset separates are a cooldown apart, if there is a cooldown and the first
of them was not at the end of time. -/
def Apart (cooldown : α) (b c : Birth α) : Prop :=
  b.era = c.era → Scalar.isInfinite b.time = false → cooldown ≤ cooldown →
    cooldown ≤ c.time - b.time

/-- A diary of plantings that are apart, by a clock that goes forward. -/
structure Spaced (d : Diary α) (cooldown now : α) (last : Option α) : Prop where
  started : 0 ≤ now
  past : ∀ t, last = some t → t ≤ now
  births : ∀ b ∈ d.births, 0 ≤ b.time ∧ b.era ≤ d.era ∧
    (b.era = d.era → ∃ t, last = some t ∧ b.time ≤ t)
  apart : d.births.Pairwise (Apart cooldown)

/-- Leaving changes nothing about when plants came. -/
theorem Spaced.same (h : Spaced d cooldown now last) {d' : Diary α} (hbirths : d'.births = d.births)
    (hera : d'.era = d.era) : Spaced d' cooldown now last where
  started := h.started
  past := h.past
  births := by
    rw [hbirths, hera]
    exact h.births
  apart := hbirths ▸ h.apart

variable [Scalar.Lawful α]

theorem Spaced.blank : Spaced (α := α) blank cooldown 0 none where
  started := (Scalar.Lawful.le_self (Scalar.Lawful.le_of_lt Scalar.Lawful.zero_lt_one)).1
  past _ h := by cases h
  births _ h := absurd h List.not_mem_nil
  apart := .nil

theorem Spaced.advance (h : Spaced d cooldown now last) {dt : α} (hdt : 0 ≤ dt) :
    Spaced d cooldown (now + dt) last where
  started := Scalar.Lawful.le_trans h.started (Scalar.Lawful.le_add h.started hdt)
  past t ht := Scalar.Lawful.le_trans (h.past t ht) (Scalar.Lawful.le_add h.started hdt)
  births := h.births
  apart := h.apart

theorem Spaced.reset (h : Spaced d.cleared cooldown now last) : Spaced d.reset cooldown 0 none where
  started := by
    have hblank : Spaced (α := α) Diary.blank cooldown 0 none := .blank
    exact hblank.started
  past _ h := by cases h
  births b hb := by
    obtain ⟨htime, hera, -⟩ := h.births b hb
    have hearly : b.era ≤ d.era := hera
    refine ⟨htime, Nat.le_succ_of_le hearly, fun hnow => ?_⟩
    have hlate : b.era = d.era + 1 := hnow
    omega
  apart := h.apart

variable [Scalar.Ordered α]

/-- What is not too early after the last planting is not too early after those before it. -/
theorem apart_of_warm {a t now : α} (ha : 0 ≤ a) (hat : a ≤ t) (hnow : t ≤ now)
    (hwarm : ¬ now - t < cooldown) (hfinite : Scalar.isInfinite a = false)
    (hcooldown : cooldown ≤ cooldown) : cooldown ≤ now - a := by
  have hlate : 0 ≤ now := Scalar.Lawful.le_trans (Scalar.Lawful.le_trans ha hat) hnow
  cases hend : Scalar.isInfinite now with
  | true => exact Scalar.Ordered.le_infinite_sub hlate hend ha hfinite hcooldown
  | false =>
    have hless : now - t ≤ now - a := Scalar.Ordered.sub_le_sub ha hat hnow hend
    have hnumber := (Scalar.Lawful.le_self hless).1
    exact Scalar.Lawful.le_trans (Scalar.Ordered.le_of_not_lt hcooldown hnumber hwarm) hless

theorem Spaced.planted {g : Garden α} (h : Spaced d g.cooldown g.clock.seconds g.lastPlanting)
    (hwarm : g.isCooling = false) (p : Plant α) :
    Spaced (d.planted g (some p)) g.cooldown g.clock.seconds (some g.clock.seconds) := by
  have hself := (Scalar.Lawful.le_self h.started).2
  refine ⟨h.started, fun t ht => ?_, fun b hb => ?_, ?_⟩
  · cases ht
    exact hself
  · rcases List.mem_append.mp hb with hb | hb
    · obtain ⟨htime, hera, hlast⟩ := h.births b hb
      refine ⟨htime, hera, fun hnow => ⟨_, rfl, ?_⟩⟩
      obtain ⟨t, ht, hle⟩ := hlast hnow
      exact Scalar.Lawful.le_trans hle (h.past t ht)
    · rw [List.mem_singleton.mp hb]
      exact ⟨h.started, Nat.le_refl _, fun _ => ⟨_, rfl, hself⟩⟩
  · refine List.pairwise_append.mpr ⟨h.apart, List.pairwise_singleton _ _, fun b hb c hc => ?_⟩
    rw [List.mem_singleton.mp hc]
    intro hera hfinite hcooldown
    obtain ⟨htime, -, hlast⟩ := h.births b hb
    obtain ⟨t, ht, hle⟩ := hlast hera
    have hearly : ¬ g.clock.seconds - t < g.cooldown := by
      simpa [Garden.isCooling, ht] using hwarm
    exact apart_of_warm htime hle (h.past t ht) hearly hfinite hcooldown

end

end Diary

namespace Garden

variable [Scalar α] {d : Diary α} {g : Garden α} {ρ : Type}

/-- A garden of plants that can be taken out, and a diary that tells its plants and plantings. -/
structure Regular (d : Diary α) (g : Garden α) : Prop extends Open g where
  counts : d.Counts g.maxPlants g.plants g.retired
  spaced : d.Spaced g.cooldown g.clock.seconds g.lastPlanting

def Recorded (s : Garden α × Diary α) : Prop := Regular s.2 s.1

theorem aside_regular : Aside (Regular d) :=
  fun _ _ _ _ _ _ h => ⟨⟨h.sound, h.fit, h.room⟩, h.counts, h.spaced⟩

theorem Regular.world (h : Regular d g) {w : World α} (hw : w.Sound) :
    Regular d { g with world := w } :=
  ⟨⟨hw, h.fit, h.room⟩, h.counts, h.spaced⟩

theorem keeps_unwatched {x : Tending α ρ} (h : ∀ d, Keeps (Regular d) x) :
    Keeps Recorded x.onFst := fun s hs => h s.2 s.1 hs

/-! ### Plants leave -/

theorem regular_clear (h : Regular d g) : Regular d.cleared (clear g).state := by
  obtain ⟨world, qs, hstate, hsound, hqs⟩ := clear_perishes h.toOpen
  rw [hstate]
  exact ⟨⟨hsound, fun _ hp => absurd hp List.not_mem_nil, h.room⟩, h.counts.cleared hqs,
    h.spaced.same rfl rfl⟩

theorem keeps_watchedClear :
    Keeps Recorded (watching (clear (α := α)) fun _ _ d => d.cleared) := by
  refine keeps_watching (fun g d _ h _ => regular_clear h) fun g d e _ he => ?_
  cases (clear_result g).symm.trans he

/-! ### Plants come -/

theorem warm_of_planted {spot : Vec α} {kind : Option String} {grammar : Option (Grammar α)}
    {p : Plant α} (h : (createPlant spot kind grammar g).result = .ok (some p)) :
    g.isCooling = false := by
  rw [createPlant_eq, read_bind] at h
  refine Bool.eq_false_iff.mpr fun hcool => ?_
  rw [if_pos hcool] at h
  cases h

variable [Scalar.Lawful α]

theorem keeps_watchedReset :
    Keeps Recorded (watching (reset (α := α)) fun _ _ d => d.reset) := by
  have hresult (g : Garden α) : (reset g).result = .ok () := by
    unfold reset
    rw [bind_of_ok (clear_result g)]
    rfl
  refine keeps_watching (fun g d _ h _ => ?_) fun g d e _ he => ?_
  · have hcleared := regular_clear h
    unfold reset
    rw [bind_of_ok (clear_result g)]
    exact ⟨⟨hcleared.sound, hcleared.fit, hcleared.room⟩, hcleared.counts.aside _ _,
      hcleared.spaced.reset⟩
  · cases (hresult g).symm.trans he

variable [Scalar.Ordered α]

theorem Regular.comes (h : Regular d g) (hwarm : g.isCooling = false) {p : Plant α}
    {g' : Garden α} (hcomes : Comes p g g') : Regular (d.planted g (some p)) g' := by
  obtain ⟨hp, draws, world, qs, hsound, hqs, rfl⟩ := hcomes
  refine ⟨⟨hsound, fun q hq => ?_, h.room⟩, h.counts.planted h.room p hqs,
    h.spaced.planted hwarm p⟩
  rcases List.mem_append.mp hq with hq | hq
  · exact h.fit q (List.mem_of_mem_drop hq)
  · exact List.mem_singleton.mp hq ▸ hp

/-- What is written about the answer of a planting holds after it. -/
theorem Regular.createPlant (h : Regular d g) (spot : Vec α) (kind : Option String)
    (grammar : Option (Grammar α)) :
    (∀ answer, (createPlant spot kind grammar g).result = .ok answer →
        Regular (d.planted g answer) (createPlant spot kind grammar g).state) ∧
      ∀ e, (createPlant spot kind grammar g).result = .error e →
        Regular d (createPlant spot kind grammar g).state := by
  rcases rotates_createPlant h.toOpen spot kind grammar with ⟨p, hp, hcomes⟩ | ⟨hnone, hidle⟩
  · refine ⟨fun answer hr => ?_, fun e he => ?_⟩
    · cases hp.symm.trans hr
      exact h.comes (warm_of_planted hp) hcomes
    · cases hp.symm.trans he
  · obtain ⟨draws, world, hstate, hsound⟩ := hidle
    have hkept : Regular d (Garden.createPlant spot kind grammar g).state := by
      rw [hstate]
      exact aside_regular _ draws _ _ _ _ (h.world hsound)
    refine ⟨fun answer hr => ?_, fun _ _ => hkept⟩
    cases answer with
    | some p => exact absurd hr (hnone p)
    | none => exact hkept

omit [Scalar.Lawful α] [Scalar.Ordered α] in
theorem Regular.tried (h : Regular d g) (tries : List (Try α)) : Regular { d with tries } g :=
  ⟨h.toOpen, h.counts.aside d.era tries, h.spaced.same rfl rfl⟩

theorem keeps_watchedPlant (spot : Vec α) (kind : Option String) (grammar : Option (Grammar α)) :
    Keeps Recorded (watching (createPlant spot kind grammar) Diary.planted) :=
  keeps_watching (fun _ _ answer h => (h.createPlant spot kind grammar).1 answer)
    fun _ _ e h => (h.createPlant spot kind grammar).2 e

theorem keeps_watchedTry (spot : Vec α) (entry : Pending α) :
    Keeps Recorded (watching (createPlant spot entry.kind none) (Diary.tried spot entry)) :=
  keeps_watching (fun _ _ answer h hr => ((h.createPlant spot entry.kind none).1 answer hr).tried _)
    fun _ _ e h => (h.createPlant spot entry.kind none).2 e

/-! ### Ticks -/

theorem keeps_watchNext (entry : Pending α) (rest : List (Pending α)) :
    Keeps Recorded (watchNext entry rest) := by
  have hsite : Keeps Recorded ((site rest).onFst : Watch α (Vec α)) :=
    keeps_unwatched fun d g h => by
      rw [site_apply]
      exact aside_regular g _ _ _ _ _ h
  refine .bind hsite fun spot => .bind (keeps_watchedTry spot entry) fun planted => ?_
  split
  · exact keeps_unwatched fun d => keeps_say _
  · exact .pure _

theorem keeps_watchDue (now : α) (entries : List (Pending α)) :
    Keeps Recorded (watchDue now entries) := by
  induction entries with
  | nil => exact .pure _
  | cons entry rest ih =>
    unfold watchDue
    split
    · exact .bind (keeps_watchNext entry rest) fun _ => ih
    · exact .pure _

omit [Scalar.Lawful α] [Scalar.Ordered α] in
theorem keeps_watchedTurns (dt : α) :
    Keeps Recorded (watching (tendAll dt) fun g _ d => d.tended dt g) := by
  refine keeps_watching (fun g d _ h _ => ?_) fun g d e _ he => ?_
  · obtain ⟨hopen, hcounts⟩ := h.counts.tended h.toOpen dt
    rw [(tendAll_tended dt g).2]
    exact ⟨hopen, hcounts, h.spaced.same rfl rfl⟩
  · cases (tendAll_tended dt g).1.symm.trans he

omit [Scalar.Ordered α] in
theorem keeps_moveOn {dt : α} (hdt : 0 ≤ dt) : Keeps (Regular d) (moveOn dt) := by
  have hpush : ∀ (g : Garden α) p force,
      Regular d g → Regular d { g with world := (World.push p force g.world).state } :=
    fun g p force h => h.world (h.sound.push p force)
  refine .bind .read fun g => .bind (.ofExcept _) fun points =>
    .bind (keeps_applyForces aside_regular hpush points) fun _ => .modify fun g h => ?_
  have hsound := (World.moved_step dt g.world).sound h.sound
  exact ⟨⟨hsound, h.fit, h.room⟩, h.counts, h.spaced.advance hdt⟩

theorem keeps_watchTick {dt : α} (hdt : 0 ≤ dt) : Keeps Recorded (watchTick dt) :=
  .bind .read fun _ => .bind (keeps_watchDue _ _) fun _ => .bind (keeps_watchedTurns dt) fun _ =>
    keeps_unwatched fun _ => keeps_moveOn hdt

end Garden

namespace Deed

open Garden

variable [Scalar α]

/-- A deed that does not turn time back. -/
def Forward : Deed α → Prop
  | tick dt => 0 ≤ dt
  | _ => True

instance (d : Deed α) : Decidable d.Forward :=
  match d with
  | tick dt => inferInstanceAs (Decidable (0 ≤ dt))
  | theme _ | nextTheme | plant _ _ _ | schedule _ _ | clear | reset | draw | wind => isTrue trivial

variable [Scalar.Lawful α] [Scalar.Ordered α]

theorem keeps_watched (d : Deed α) (hd : d.Forward) : Keeps Recorded d.watched := by
  cases d with
  | theme name =>
    exact keeps_unwatched fun _ => .bind (keeps_setTheme aside_regular name) fun _ => .pure _
  | nextTheme =>
    exact keeps_unwatched fun _ => .bind (keeps_cycleTheme aside_regular) fun _ => .pure _
  | plant spot kind grammar => exact .bind (keeps_watchedPlant spot kind grammar) fun _ => .pure _
  | schedule asked kind =>
    exact keeps_unwatched fun _ => .bind (keeps_schedule aside_regular asked kind) fun _ => .pure _
  | clear => exact keeps_watchedClear
  | reset => exact keeps_watchedReset
  | tick dt => exact keeps_watchTick hd
  | draw => exact keeps_unwatched fun _ => .bind keeps_frames fun _ => .pure _
  | wind => exact keeps_unwatched fun _ => .bind (keeps_toggleWind aside_regular) fun _ => .pure _

end Deed

namespace Garden

variable [Scalar α] {d : Diary α} {g : Garden α}

/-- A garden that any use leads to, and its diary. Others may give it forces, and make its plants
fail, but not where they are destroyed. -/
inductive Watched : Garden α → Diary α → Prop where
  | new (width height : α) {maxPlants : Int} (cooldown rate : α) (scaleRange : α × α) (divisor : α)
    (draws : Draws α) (clocked : Bool) (hroom : 1 ≤ maxPlants) :
    Watched (.new width height maxPlants cooldown rate scaleRange divisor draws clocked) .blank
  | deed {g : Garden α} {diary : Diary α} (h : Watched g diary) (d : Deed α) (hd : d.Forward) :
    Watched (d.act g).state (d.entered g diary)
  | source {g : Garden α} {diary : Diary α} (h : Watched g diary) (s : Pull α) :
    Watched (g.addSource s) diary
  | drill {g : Garden α} {diary : Diary α} (h : Watched g diary) (drill : Plant α → Drill)
    (hdrill : ∀ p, (drill p).destroy = none) :
    Watched { g with plants := g.plants.map fun p => { p with drill := drill p } } diary

variable [Scalar.Lawful α] [Scalar.Ordered α]

theorem Watched.regular (h : Watched g d) : Regular d g := by
  induction h with
  | new width height cooldown rate scaleRange divisor draws clocked hroom =>
    have hworld := World.Sound.new 0 { Setting.default with bounds := some ⟨0, ⟨width, height⟩⟩ }
      World.defaultCapacity
    exact ⟨⟨hworld, fun _ hp => absurd hp List.not_mem_nil, hroom⟩,
      .blank (Int.le_trans (by decide) hroom), .blank⟩
  | @deed g diary _ d hd ih =>
    have hkept := d.keeps_watched hd (g, diary) ih
    rw [d.watched_state] at hkept
    exact hkept
  | source _ s ih => exact aside_regular _ _ _ _ _ _ ih
  | @drill g diary _ drill hdrill ih =>
    refine ⟨⟨ih.sound, fun q hq => ?_, ih.room⟩, { ih.counts with capacity := ?_, present := ?_ },
      ih.spaced⟩
    · obtain ⟨p, hp, rfl⟩ := List.mem_map.mp hq
      exact ⟨hdrill p, (ih.fit p hp).living⟩
    · rw [List.length_map]
      exact ih.counts.capacity
    · rw [List.forall₂_map_right_iff]
      exact ih.counts.present.imp fun _ _ hp => hp.becomes ⟨_, _, _, _, rfl⟩

/-- What holds of a garden and its diary at any time. -/
structure Regulated (d : Diary α) (g : Garden α) : Prop where
  /-- Plantings that no reset separates are a cooldown apart. -/
  apart : d.births.Pairwise (Diary.Apart g.cooldown)
  capacity : (g.plants.length : Int) ≤ g.maxPlants
  /-- The bed lists each of its plants once, in the order in which they came. -/
  ordered : d.bed.Pairwise (· < ·)
  present : List.Forall₂ (fun n p => d.Shows n p ∧ p.destroyed = false) d.bed g.plants
  /-- What has left the bed is destroyed. -/
  gone : List.Forall₂ d.Buries d.gone g.retired
  /-- Whatever came is in the bed or has left it. -/
  all : (d.bed ++ d.gone).Perm (List.range d.births.length)
  /-- Who had to make room was in the bed, and nobody there was older. -/
  evictions : ∀ e ∈ d.evictions, e.1 ∈ e.2 ∧ ∀ n ∈ e.2, e.1 ≤ n

omit [Scalar.Lawful α] [Scalar.Ordered α] in
theorem Regular.regulation (h : Regular d g) : Regulated d g where
  apart := h.spaced.apart
  capacity := h.counts.capacity
  ordered := h.counts.ordered
  present := by
    rw [List.forall₂_iff_zip]
    refine ⟨h.counts.present.length_eq, fun hmem => ⟨List.forall₂_zip h.counts.present hmem, ?_⟩⟩
    exact (h.fit _ (List.of_mem_zip hmem).2).living
  gone := h.counts.gone
  all := h.counts.all
  evictions := h.counts.evictions

/-- Whatever is done to a garden, and whichever plants fail, it is planted no more often than once
in a cooldown between two resets, as long as the clock has not reached the end of time, and its bed
keeps the youngest plants in the order in which they came. -/
theorem Watched.regulated (h : Watched g d) : Regulated d g := h.regular.regulation

omit [Scalar.Lawful α] [Scalar.Ordered α] in
/-- A garden and its diary after some deeds. -/
def follow : List (Deed α) → Garden α × Diary α → Garden α × Diary α
  | [], s => s
  | d :: rest, s => follow rest ((d.act s.1).state, d.entered s.1 s.2)

omit [Scalar.Lawful α] [Scalar.Ordered α] in
theorem watched_follow {deeds : List (Deed α)} {s : Garden α × Diary α} (h : Watched s.1 s.2)
    (hdeeds : ∀ d ∈ deeds, d.Forward) : Watched (follow deeds s).1 (follow deeds s).2 := by
  induction deeds generalizing s with
  | nil => exact h
  | cons d rest ih =>
    obtain ⟨hd, hrest⟩ := List.forall_mem_cons.mp hdeeds
    exact ih (h.deed d hd) hrest

end Garden

namespace Upright

open Garden

/-- Room for two plants. -/
def pot : Garden Upright :=
  .new 800.0 600.0 2 0.6 0.03 (0.6, 1.8) 50.0 (Draws.cycle #[0.5]) false

/-- Four plantings, one that comes too early, and a reset. -/
def rotation : List (Deed Upright) :=
  [planting 100.0, .tick 1.0, planting 200.0, planting 250.0, .tick 1.0, planting 300.0, .reset,
    planting 400.0]

theorem regulated_rotation :
    let s := follow rotation (pot, .blank)
    Watched s.1 s.2 ∧ s.2.births.map (·.era) = [0, 0, 0, 1] ∧ s.2.bed = [3] ∧
      s.2.gone = [0, 1, 2] ∧ s.2.evictions = [(0, [0, 1])] ∧ Regulated s.2 s.1 := by
  have hpot : Watched pot .blank := .new _ _ _ _ _ _ _ _ (by decide)
  have hwatched : Watched (follow rotation (pot, .blank)).1 (follow rotation (pot, .blank)).2 :=
    watched_follow (s := (pot, .blank)) hpot (by decide +kernel)
  have htold : (follow rotation (pot, .blank)).2.births.map (·.era) = [0, 0, 0, 1] ∧
      (follow rotation (pot, .blank)).2.bed = [3] ∧
      (follow rotation (pot, .blank)).2.gone = [0, 1, 2] ∧
      (follow rotation (pot, .blank)).2.evictions = [(0, [0, 1])] := by decide +kernel
  exact ⟨hwatched, htold.1, htold.2.1, htold.2.2.1, htold.2.2.2, hwatched.regulated⟩

/-- Two plantings in one moment, when the clock has run out of numbers. -/
def rush : List (Deed Upright) :=
  [.tick 1e308, .tick 1e308, planting 100.0, planting 200.0]

theorem rush_crowds :
    let s := follow rush (bare, .blank)
    Watched s.1 s.2 ∧ s.2.births.length = 2 ∧
      ¬ s.2.births.Pairwise fun b c => b.era = c.era → s.1.cooldown ≤ c.time - b.time := by
  have hbare : Watched bare .blank := .new _ _ _ _ _ _ _ _ (by decide)
  exact ⟨watched_follow (s := (bare, .blank)) hbare (by decide +kernel), by decide +kernel,
    by decide +kernel⟩

end Upright
end Arboretum
