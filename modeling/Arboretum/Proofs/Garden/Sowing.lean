import Arboretum.Proofs.Garden.Timetable
import Arboretum.Proofs.Graph.Strands
import Arboretum.Proofs.Walk.Stride

/-!
Sowings succeed. In exact arithmetic, with draws from 0 up to 1, every kind of plant can be grown in
a world with room for points: its grammar expands, its skeleton is walked, and its roots are built.
-/
namespace Arboretum

open Arboretum.Action

/-! ### Words -/

section
variable {α : Type} [Scalar α] {p : Preset} {kept : Draws α → Prop}

/-- No kind of plant changes its colour on the way. -/
theorem Preset.rule_plain {symbol : Char} {rule : Rule α}
    (h : (p.grammar : Grammar α).rule? symbol = some rule) :
    ∃ word, rule = .fixed word ∧ 'c' ∉ word := by
  have hwords : ∀ entry ∈ p.words, 'c' ∉ entry.2.toList := by
    cases p <;> decide
  obtain ⟨entry, hentry, rfl⟩ := Option.map_eq_some_iff.mp h
  obtain ⟨word, hword, rfl⟩ := List.mem_map.mp (List.mem_of_find?_eq_some hentry)
  exact ⟨_, rfl, hwords word hword⟩

theorem Preset.meets_replaceAll {word : List Char} (hword : 'c' ∉ word) :
    Meets kept ((p.grammar : Grammar α).replaceAll word) (fun _ => False)
      fun new d => 'c' ∉ new ∧ kept d := by
  induction word with
  | nil => exact .pure fun _ hd => ⟨List.not_mem_nil, hd⟩
  | cons symbol word ih =>
    obtain ⟨hsymbol, hrest⟩ := List.ne_and_not_mem_of_not_mem_cons hword
    have hnew : Meets kept ((p.grammar : Grammar α).replaceSymbol symbol) (fun _ => False)
        fun new d => 'c' ∉ new ∧ kept d := by
      unfold Grammar.replaceSymbol
      split
      · rename_i rule hrule
        obtain ⟨word, rfl, hplain⟩ := Preset.rule_plain hrule
        exact .pure fun _ hd => ⟨hplain, hd⟩
      · exact .pure fun _ hd => ⟨by simpa using hsymbol, hd⟩
    refine hnew.bind fun new => .assume ('c' ∉ new) (fun _ h => h.1) fun hplain => ?_
    refine ((ih hrest).of_pre fun _ h => h.2).bind fun rest => .pure fun _ h => ⟨?_, h.2⟩
    exact List.not_mem_append hplain h.1

theorem Preset.meets_generations {word : List Char} (hword : 'c' ∉ word) (generation left : Nat) :
    Meets kept ((p.grammar : Grammar α).generations word generation left) (fun _ => False)
      fun new d => 'c' ∉ new ∧ kept d := by
  induction left generalizing word generation with
  | zero => exact .pure fun _ hd => ⟨hword, hd⟩
  | succ left ih =>
    unfold Grammar.generations
    refine (Preset.meets_replaceAll hword).bind fun new => ?_
    refine .assume ('c' ∉ new) (fun _ h => h.1) fun hplain => .of_pre ?_ fun _ h => h.2
    split
    · refine Meets.bind (.note _) fun _ => .pure fun _ hd => ⟨?_, hd⟩
      exact fun h => hplain (List.mem_of_mem_take h)
    · exact ih hplain _

theorem Preset.meets_expand : Meets kept (p.grammar : Grammar α).expand (fun _ => False)
    fun word d => 'c' ∉ word ∧ kept d := by
  have hstart : 'c' ∉ p.start.toList := by
    cases p <;> decide
  refine (Preset.meets_generations hstart 0 _).bind fun word => .pure fun _ h => ⟨?_, h.2⟩
  exact fun hmem => h.1 (List.mem_of_mem_take hmem)

/-- A name that is not known names a kind of plant all the same. -/
theorem Preset.meets_named (name : String) :
    Meets kept (Preset.named name : Action (Note α) (Draws α) (Grammar α)) (fun _ => False)
      fun g d => (∃ p : Preset, g = p.grammar) ∧ kept d := by
  unfold named
  split
  · exact .pure fun _ hd => ⟨⟨_, rfl⟩, hd⟩
  · exact Meets.bind (.note _) fun _ => .pure fun _ hd => ⟨⟨simple, rfl⟩, hd⟩

end

/-! ### Skeletons -/

section
variable {ν : Type} {kept : Draws ℝ → Prop} (h : Draws.Steady kept)
include h

theorem Draws.meets_next :
    Meets kept (next : Action ν (Draws ℝ) ℝ) (fun _ => False) fun _ => kept :=
  .returns fun d hd => ⟨_, rfl, h d hd⟩

theorem Draws.meets_uniform (low high : ℝ) :
    Meets kept (uniform low high : Action ν (Draws ℝ) ℝ) (fun _ => False) fun _ => kept :=
  (Draws.meets_next h).bind fun _ => .pure fun _ hd => hd

theorem Draws.meets_integer (low high : Int) :
    Meets kept (integer low high : Action ν (Draws ℝ) Int) (fun _ => False) fun _ => kept :=
  (Draws.meets_next h).bind fun _ => (Gives.floor _).meets.bind fun _ => .pure fun _ hd => hd

namespace Walk

/-- Only a change of colour can stop a walk. -/
theorem meets_follow_plain (t : Traits ℝ) (w : Walk ℝ) {symbol : Char} (hsymbol : symbol ≠ 'c') :
    Meets kept (w.follow t symbol : Action ν (Draws ℝ) (Walk ℝ)) (fun _ => False)
      fun _ => kept := by
  refine fun d hd => ⟨fun e he => ?_, fun _ _ => keeps_follow h t w symbol d hd⟩
  cases follow_error_iff.mp he with
  | astray _ hlost =>
    rw [Scalar.isInfinite_real] at hlost
    cases hlost
  | discoloured => exact hsymbol rfl

theorem meets_followAll_plain (t : Traits ℝ) (w : Walk ℝ) {word : List Char} (hword : 'c' ∉ word) :
    Meets kept (w.followAll t word : Action ν (Draws ℝ) (Walk ℝ)) (fun _ => False)
      fun _ => kept := by
  induction word generalizing w with
  | nil => exact .pure fun _ hd => hd
  | cons symbol word ih =>
    obtain ⟨hsymbol, hrest⟩ := List.ne_and_not_mem_of_not_mem_cons hword
    exact (meets_follow_plain h t w hsymbol.symm).bind fun w => ih w hrest

theorem meets_ofGrammar (p : Preset) :
    Meets kept (ofGrammar (p.grammar : Grammar ℝ)) (fun _ => False) fun _ => kept := by
  refine Preset.meets_expand.bind fun word => ?_
  refine .assume ('c' ∉ word) (fun _ hd => hd.1) fun hword => .of_pre ?_ fun _ hd => hd.2
  exact (meets_followAll_plain h _ _ hword).bind fun _ => .pure fun _ hd => hd

end Walk

theorem Seed.meets_choose (hfair : ∀ d, kept d → 0 ≤ d.draw d.taken ∧ d.draw d.taken < 1)
    (kind : String) : Meets kept (Seed.ofKind kind : Seed ℝ).choose (fun _ => False)
      fun chosen d => (∃ p : Preset, chosen.1 = p.grammar) ∧ kept d := by
  have hdrawn : Meets kept (Preset.choose : Action (Note ℝ) (Draws ℝ) Preset) (fun _ => False)
      fun _ => kept := by
    intro d hd
    have hok : (Preset.choose d : Report (Note ℝ) (Draws ℝ) Preset).result.isOk :=
      Draws.choose_real (by decide) (by decide) _ (hfair d hd)
    refine ⟨fun e he => ?_, fun p _ => Draws.keeps_choose h _ _ d hd⟩
    rw [he] at hok
    cases hok
  unfold ofKind
  split
  · rw [choose]
    refine hdrawn.bind fun p => (Draws.meets_uniform h _ _).bind fun _ => ?_
    exact .pure fun _ hd => ⟨⟨p, rfl⟩, hd⟩
  · rw [choose]
    exact (Preset.meets_named kind).bind fun _ => .pure fun _ hd => hd

theorem Plant.meets_sow (hfair : ∀ d, kept d → 0 ≤ d.draw d.taken ∧ d.draw d.taken < 1)
    {order : Planting ℝ} {kind : String} (hseed : order.seed = Seed.ofKind kind) :
    Meets kept (sow order) (fun _ => False) fun _ => kept := by
  have hscale : Meets kept (drawScale order) (fun _ => False) fun _ => kept := by
    unfold drawScale
    split
    · exact .pure fun _ hd => hd
    · exact Draws.meets_uniform h _ _
  unfold sow
  rw [hseed]
  refine (Draws.meets_integer h _ _).bind fun id => (Seed.meets_choose h hfair kind).bind ?_
  rintro ⟨grammar, thickness⟩
  refine .assume (∃ p : Preset, grammar = p.grammar) (fun _ hd => hd.1) ?_
  rintro ⟨p, rfl⟩
  refine .of_pre ?_ fun _ hd => hd.2
  refine (Walk.meets_ofGrammar h p).bind fun walk => hscale.bind fun scale => ?_
  have hplan : Gives (Growth.new walk.2.segments walk.2.fruits.toList order.rate order.divisor) :=
    (Gives.truncate _).bind fun _ => .ok _
  exact hplan.meets.bind fun growth => .pure fun _ hd => hd

end

/-! ### Roots -/

section
variable {α σ : Type} {crew : Crew α σ} {kept : σ → Prop}
  (hbuild : ∀ s i, Meets kept (crew.build s i) (fun _ => False) fun _ => kept)
include hbuild

/-- A segment that cannot stop its builder is built. -/
theorem Growth.meets_build_kept (index : Nat) :
    Meets (fun t => kept t.2) (build crew index) (fun _ => False) fun _ t => kept t.2 := by
  unfold build
  refine meets_plan.bind fun g => .of_pre ?_ fun _ ht => ht.2
  split
  · exact .pure fun _ ht => ht
  · rename_i s _
    have hbuilt : Meets (fun t : Growth α × σ => kept t.2) (crew.build s index).onSnd
        (fun _ => False) fun _ t => kept t.2 := fun t ht => hbuild s index t.2 ht
    exact hbuilt.bind fun _ => .modify fun _ ht => ht

/-- Roots that cannot stop their builder are placed. -/
theorem Growth.meets_placeRoots_kept [Scalar α] :
    Meets (fun t => kept t.2) (placeRoots crew) (fun _ => False) fun _ t => kept t.2 := by
  unfold placeRoots
  refine meets_plan.bind fun g => .of_pre ?_ fun _ ht => ht.2
  split
  · exact Meets.bind (.note _) fun _ => .pure fun _ ht => ht
  · exact (Meets.forEach_mem fun i _ => meets_build_kept hbuild i).bind fun _ =>
      Meets.bind (.modify fun _ ht => ht) fun _ => .pure fun _ ht => ht

end

namespace Plant

/-- A world with room, and a body whose joints are alive in it. -/
def Fertile (s : World ℝ × Graph ℝ) : Prop := s.1.Ready ∧ Graph.Fitted s.1 s.2

/-- No segment can stop the crew of a plant in a world with room. -/
theorem meets_crew_build (s : Segment ℝ) (index : Nat) :
    Meets Fertile (crew.build s index) (fun _ => False) fun _ => Fertile := by
  have hcells : Gives s.cells := (Cell.gives_of _).bind fun _ => (Cell.gives_of _).bind fun _ =>
    .ok _
  exact (Graph.meets_materialize_fitted hcells ⟨_, Scalar.ofInt_real _⟩ _).answer

theorem roots_returned {w : World ℝ} (hw : w.Ready) {order : Planting ℝ} {d : Draws ℝ}
    {p : Plant ℝ} (hp : (sow order d).result = .ok p) :
    ∃ count, (growing (Growth.placeRoots crew) (w, p)).result = .ok count ∧
      Fertile (Growth.placeRoots crew (p.growth, (w, p.graph))).state.2 := by
  obtain ⟨origin, scale, hgraph⟩ := (sown_of_sow hp).graph
  exact (Growth.meets_placeRoots_kept meets_crew_build).returned
    (s := (p.growth, (w, p.graph))) ⟨hw, hgraph ▸ .new w origin scale⟩

/-- What can be sown can be planted in a world with room. -/
theorem plant_of_sown {w : World ℝ} (hw : w.Ready) {order : Planting ℝ} {d : Draws ℝ}
    {p : Plant ℝ} (hp : (sow order d).result = .ok p) : (plant order (w, d)).result.isOk := by
  obtain ⟨count, hplaced, -⟩ := roots_returned hw hp
  have hsown : ((sow order).onSnd (w, d)).result = .ok p := hp
  have hstate : ((sow order).onSnd (w, d)).state = (w, (sow order d).state) := rfl
  unfold plant
  rw [bind_of_ok hsown, hstate]
  simp [on, Report.within, tried_apply, hplaced]
  rfl

/-- Every kind of plant can be planted in a world with room. -/
theorem plant_isOk {w : World ℝ} (hw : w.Ready) {order : Planting ℝ} {kind : String}
    (hseed : order.seed = Seed.ofKind kind) {d : Draws ℝ}
    (hfair : ∀ i, 0 ≤ d.draw i ∧ d.draw i < 1) : (plant order (w, d)).result.isOk := by
  have hsow : Meets (fun d' => d'.draw = d.draw) (sow order) (fun _ => False) fun _ _ => True :=
    (meets_sow (Draws.steady_stream d.draw) (fun d' hd => hd ▸ hfair d'.taken) hseed).weaken
      fun _ _ _ => trivial
  obtain ⟨p, hp, -⟩ := hsow.returned rfl
  exact plant_of_sown hw hp

end Plant

namespace Garden

section
variable {α : Type} [Scalar α] {g : Garden α} {kind : Option String}

/-- A planting gives a plant, unless it is too early or the plant cannot be grown. -/
theorem isSome_of_grown {spot : Vec α} {grammar : Option (Grammar α)} {answer : Option (Plant α)}
    (hwarm : g.isCooling = false)
    (hgrown : ∀ c, (choice kind grammar g).result = .ok c →
      (grow spot c.2 (choice kind grammar g).state).result.isOk)
    (h : (createPlant spot kind grammar g).result = .ok answer) : answer.isSome := by
  rw [createPlant_eq, read_bind, hwarm, if_neg Bool.false_ne_true] at h
  obtain ⟨c, hc, h⟩ := of_bind_ok h
  unfold settle at h
  obtain ⟨outcome, houtcome, h⟩ := of_bind_ok h
  have hok : outcome.isOk := by
    cases houtcome
    exact hgrown c hc
  cases outcome with
  | error cause => cases hok
  | ok p =>
    dsimp only at h
    split at h
    · obtain ⟨_, -, h⟩ := of_bind_ok h
      cases h
      rfl
    · cases h
      rfl

/-- Without a grammar of its own, a plant grows from a kind. -/
theorem choice_ofKind {c : Option String × Seed α} (h : (choice kind none g).result = .ok c) :
    ∃ name, c.2 = Seed.ofKind name := by
  cases kind with
  | some name =>
    cases h
    exact ⟨name, rfl⟩
  | none =>
    obtain ⟨name, -, h⟩ := of_bind_ok h
    cases h
    exact ⟨name, rfl⟩

end

/-- A planting of a kind that is not too early gives a plant. -/
theorem createPlant_isSome {g : Garden ℝ} (hw : g.world.Ready) (hfair : g.Fair)
    (hwarm : g.isCooling = false) {spot : Vec ℝ} {kind : Option String} {answer : Option (Plant ℝ)}
    (h : (createPlant spot kind none g).result = .ok answer) : answer.isSome := by
  refine isSome_of_grown hwarm (fun c hc => ?_) h
  obtain ⟨name, hseed⟩ := choice_ofKind hc
  have hstream : Planned fun t : Garden ℝ => t.draws.draw = g.draws.draw :=
    fun _ _ _ _ _ _ _ _ _ _ ht => ht
  have hfair' := fair_of_stream hfair (hstream.choice kind none g rfl)
  obtain ⟨draws, hstate⟩ := choice_state kind none g
  rw [hstate] at hfair' ⊢
  have hplanted : (Plant.plant ({ g with draws }.planting spot c.2) (g.world, draws)).result.isOk :=
    Plant.plant_isOk hw hseed hfair'
  exact hplanted

end Garden
end Arboretum
