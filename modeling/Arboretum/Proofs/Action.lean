import Arboretum.Action

/-!
Rules for what operations keep and what they bring about.
-/
namespace Arboretum

variable {ν μ σ τ ρ ρ' : Type}

namespace Action

@[simp] theorem bind_apply (x : Action ν σ ρ) (f : ρ → Action ν σ ρ') (s : σ) :
    (x >>= f) s = match x s with
      | ⟨.error e, t, before⟩ => ⟨.error e, t, before⟩
      | ⟨.ok a, t, before⟩ => ⟨(f a t).result, (f a t).state, before ++ (f a t).notes⟩ := by
  rcases hx : x s with ⟨_ | a, t, before⟩
  · exact bind_error hx f
  · exact bind_ok hx f

theorem bind_of_error {x : Action ν σ ρ} {s : σ} {e : Fault} (h : (x s).result = .error e)
    (f : ρ → Action ν σ ρ') : (x >>= f) s = ⟨.error e, (x s).state, (x s).notes⟩ :=
  bind_error (congrArg (Report.mk · (x s).state (x s).notes) h) f

theorem bind_of_ok {x : Action ν σ ρ} {s : σ} {a : ρ} (h : (x s).result = .ok a)
    (f : ρ → Action ν σ ρ') :
    (x >>= f) s = ⟨(f a (x s).state).result, (f a (x s).state).state,
      (x s).notes ++ (f a (x s).state).notes⟩ :=
  bind_ok (congrArg (Report.mk · (x s).state (x s).notes) h) f

/-- Two operations do the same where their first parts do, and what follows does from there. -/
theorem bind_eq_of {x y : Action ν σ ρ} {f f' : ρ → Action ν σ ρ'} {s : σ} (hx : x s = y s)
    (hf : ∀ a, (y s).result = .ok a → f a (y s).state = f' a (y s).state) :
    (x >>= f) s = (y >>= f') s := by
  rcases hy : y s with ⟨e | a, t, before⟩
  · rw [bind_error (hx.trans hy), bind_error hy]
  · have hrest := hf a (by rw [hy])
    rw [hy] at hrest
    rw [bind_ok (hx.trans hy), bind_ok hy, hrest]

@[simp] theorem fail_apply (e : Fault) (s : σ) :
    (fail e : Action ν σ ρ) s = ⟨.error e, s, []⟩ := rfl

@[simp] theorem ofExcept_apply (r : Except Fault ρ) (s : σ) :
    (ofExcept r : Action ν σ ρ) s = ⟨r, s, []⟩ := rfl

@[simp] theorem ofExcept_ok (a : ρ) : (ofExcept (.ok a) : Action ν σ ρ) = Pure.pure a := rfl

@[simp] theorem fail_bind (e : Fault) (f : ρ → Action ν σ ρ') :
    (fail e : Action ν σ ρ) >>= f = fail e := rfl

@[simp] theorem read_apply (s : σ) : (read : Action ν σ σ) s = ⟨.ok s, s, []⟩ := rfl

theorem read_bind (f : σ → Action ν σ ρ) (s : σ) : (read >>= f) s = f s s := rfl

/-- Reading a state for nothing. -/
theorem read_unused {x : Action ν σ ρ} {f : σ → Action ν σ ρ} (h : ∀ s, f s = x) :
    read >>= f = x := by
  funext s
  rw [read_bind, h]

@[simp] theorem modify_apply (f : σ → σ) (s : σ) :
    (modify f : Action ν σ Unit) s = ⟨.ok (), f s, []⟩ := rfl

@[simp] theorem note_apply (n : ν) (s : σ) : note n s = ⟨.ok (), s, [(n, s)]⟩ := rfl

@[simp] theorem map_apply (g : ρ → ρ') (x : Action ν σ ρ) (s : σ) :
    (g <$> x) s = ⟨(x s).result.map g, (x s).state, (x s).notes⟩ := by
  rw [map_eq_pure_bind, bind_apply]
  rcases x s with ⟨_ | a, t, before⟩ <;> simp [Except.map]

@[simp] theorem ite_apply (c : Prop) [Decidable c] (x y : Action ν σ ρ) (s : σ) :
    (if c then x else y) s = if c then x s else y s := by
  split <;> rfl

theorem map_forEach_cons {ι : Type} (i : ι) (xs : List ι) (f : ι → Action ν σ ρ) :
    (fun _ => ()) <$> forEach (i :: xs) f =
      (do (fun _ => ()) <$> f i; (fun _ => ()) <$> forEach xs f) := by
  simp only [forEach, map_eq_pure_bind, bind_assoc, pure_bind]

/-- From where `pre` holds an operation ends where `post` does, or stops where `kept` does. -/
def Meets (pre : σ → Prop) (x : Action ν σ ρ) (kept : σ → Prop) (post : ρ → σ → Prop) : Prop :=
  ∀ s, pre s → (∀ e, (x s).result = .error e → kept (x s).state) ∧
    ∀ a, (x s).result = .ok a → post a (x s).state

/-- What holds before an operation holds after it, also where it stops. -/
def Keeps (kept : σ → Prop) (x : Action ν σ ρ) : Prop := ∀ s, kept s → kept (x s).state

variable {kept pre : σ → Prop}

theorem Meets.bind {x : Action ν σ ρ} {f : ρ → Action ν σ ρ'} {mid : ρ → σ → Prop}
    {post : ρ' → σ → Prop} (hx : Meets pre x kept mid) (hf : ∀ a, Meets (mid a) (f a) kept post) :
    Meets pre (x >>= f) kept post := by
  intro s hs
  obtain ⟨hk, hm⟩ := hx s hs
  rw [bind_apply]
  rcases h : x s with ⟨e | a, t, before⟩
  · rw [h] at hk
    exact ⟨fun _ _ => hk e rfl, fun _ he => by cases he⟩
  · rw [h] at hm
    exact hf a t (hm a rfl)

theorem Meets.weaken {x : Action ν σ ρ} {mid post : ρ → σ → Prop} (hx : Meets pre x kept mid)
    (h : ∀ a s, mid a s → post a s) : Meets pre x kept post :=
  fun s hs => ⟨(hx s hs).1, fun a ha => h a _ ((hx s hs).2 a ha)⟩

theorem Meets.and {x : Action ν σ ρ} {post post' : ρ → σ → Prop} (hx : Meets pre x kept post)
    (hx' : Meets pre x kept post') : Meets pre x kept fun a s => post a s ∧ post' a s :=
  fun s hs => ⟨(hx s hs).1, fun a ha => ⟨(hx s hs).2 a ha, (hx' s hs).2 a ha⟩⟩

theorem Meets.of_pre {pre' : σ → Prop} {x : Action ν σ ρ} {post : ρ → σ → Prop}
    (hx : Meets pre x kept post) (h : ∀ s, pre' s → pre s) : Meets pre' x kept post :=
  fun s hs => hx s (h s hs)

theorem Meets.stop {kept' : σ → Prop} {x : Action ν σ ρ} {post : ρ → σ → Prop}
    (hx : Meets pre x kept' post) (h : ∀ s, kept' s → kept s) : Meets pre x kept post :=
  fun s hs => ⟨fun e he => h _ ((hx s hs).1 e he), (hx s hs).2⟩

/-- What the precondition says apart from the state may be assumed. -/
theorem Meets.assume (fact : Prop) {x : Action ν σ ρ} {post : ρ → σ → Prop}
    (h : ∀ s, pre s → fact) (hx : fact → Meets pre x kept post) : Meets pre x kept post :=
  fun s hs => hx (h s hs) s hs

/-- A rule for one state at a time. -/
theorem Meets.each {x : Action ν σ ρ} {post : ρ → σ → Prop}
    (h : ∀ s, pre s → Meets (· = s) x kept post) : Meets pre x kept post :=
  fun s hs => h s hs s rfl

theorem Meets.one {x : Action ν σ ρ} {post : ρ → σ → Prop} (hx : Meets pre x kept post) {s : σ}
    (hs : pre s) : Meets (· = s) x kept post :=
  hx.of_pre fun _ he => he ▸ hs

/-- An operation that cannot stop returns. -/
theorem Meets.returned {x : Action ν σ ρ} {post : ρ → σ → Prop}
    (hx : Meets pre x (fun _ => False) post) {s : σ} (hs : pre s) :
    ∃ a, (x s).result = .ok a ∧ post a (x s).state := by
  obtain ⟨hstop, hpost⟩ := hx s hs
  cases h : (x s).result with
  | error e => exact (hstop e h).elim
  | ok a => exact ⟨a, rfl, hpost a h⟩

/-- An operation that cannot return stops. -/
theorem Meets.stopped {x : Action ν σ ρ} (hx : Meets pre x kept fun _ _ => False) {s : σ}
    (hs : pre s) : ∃ e, (x s).result = .error e ∧ kept (x s).state := by
  obtain ⟨hstop, hpost⟩ := hx s hs
  cases h : (x s).result with
  | error e => exact ⟨e, rfl, hstop e h⟩
  | ok a => exact (hpost a h).elim

theorem Meets.returns {x : Action ν σ ρ} {post : ρ → σ → Prop}
    (h : ∀ s, pre s → ∃ a, (x s).result = .ok a ∧ post a (x s).state) :
    Meets pre x kept post := by
  intro s hs
  obtain ⟨a, ha, hp⟩ := h s hs
  refine ⟨fun e he => ?_, fun b hb => ?_⟩
  · rw [ha] at he
    cases he
  · rw [ha] at hb
    cases hb
    exact hp

theorem Meets.pure {post : ρ → σ → Prop} {a : ρ} (h : ∀ s, pre s → post a s) :
    Meets pre (Pure.pure a : Action ν σ ρ) kept post :=
  .returns fun s hs => ⟨a, rfl, h s hs⟩

theorem Meets.fail {e : Fault} {post : ρ → σ → Prop} (h : ∀ s, pre s → kept s) :
    Meets pre (Action.fail e : Action ν σ ρ) kept post :=
  fun s hs => ⟨fun _ _ => h s hs, fun _ ha => by cases ha⟩

theorem Meets.read : Meets pre (Action.read : Action ν σ σ) kept fun t s => t = s ∧ pre s :=
  .returns fun s hs => ⟨s, rfl, rfl, hs⟩

theorem Meets.modify {f : σ → σ} {post : Unit → σ → Prop} (h : ∀ s, pre s → post () (f s)) :
    Meets pre (Action.modify f : Action ν σ Unit) kept post :=
  .returns fun s hs => ⟨(), rfl, h s hs⟩

theorem Meets.note (n : ν) : Meets pre (Action.note n) kept fun _ => pre :=
  .returns fun _ hs => ⟨(), rfl, hs⟩

/-- Giving an answer after an operation changes nothing of what it brings about. -/
theorem Meets.answer {x : Action ν σ ρ} {f : ρ → ρ'} {post : ρ' → σ → Prop}
    (hx : Meets pre x kept fun a => post (f a)) :
    Meets pre (x >>= fun a => Pure.pure (f a)) kept post :=
  hx.bind fun _ => .pure fun _ h => h

theorem Meets.ofExcept (r : Except Fault ρ) (h : ∀ s, pre s → kept s) :
    Meets pre (Action.ofExcept r : Action ν σ ρ) kept fun a s => r = .ok a ∧ pre s :=
  fun s hs => ⟨fun _ _ => h s hs, fun _ ha => ⟨ha, hs⟩⟩

/-- What follows a value that may be missing is met with the value that it has. -/
theorem Meets.ofExcept_bind {r : Except Fault ρ} {f : ρ → Action ν σ ρ'} {post : ρ' → σ → Prop}
    {s : σ} (hstop : ∀ e, r = .error e → kept s)
    (h : ∀ a, r = .ok a → Meets (· = s) (f a) kept post) :
    Meets (· = s) (Action.ofExcept r >>= f) kept post := by
  cases r with
  | error e => exact .fail fun _ hs => hs ▸ hstop e rfl
  | ok a => exact h a rfl

/-- What every use of an operation on an element of a list keeps. -/
theorem Meets.forEach_mem {ι : Type} {stopped : σ → Prop} {f : ι → Action ν σ ρ} {xs : List ι}
    (h : ∀ i ∈ xs, Meets pre (f i) stopped fun _ => pre) :
    Meets pre (Action.forEach xs f) stopped fun _ => pre := by
  induction xs with
  | nil => exact .pure fun _ hs => hs
  | cons i xs ih =>
    have hrest := ih fun j hj => h j (List.mem_cons_of_mem i hj)
    exact (h i List.mem_cons_self).bind fun _ => hrest.answer

/-- What every use of an operation on an element of a list answers. -/
theorem Meets.forEach_all {ι : Type} {stopped : σ → Prop} {good : ρ → Prop} {f : ι → Action ν σ ρ}
    {xs : List ι} (h : ∀ i ∈ xs, Meets pre (f i) stopped fun a s => good a ∧ pre s) :
    Meets pre (Action.forEach xs f) stopped fun as s =>
      (as.length = xs.length ∧ ∀ a ∈ as, good a) ∧ pre s := by
  induction xs with
  | nil => exact .pure fun _ hs => ⟨⟨rfl, fun _ ha => absurd ha List.not_mem_nil⟩, hs⟩
  | cons i xs ih =>
    obtain ⟨hi, hxs⟩ := List.forall_mem_cons.mp h
    refine hi.bind fun a => .assume (good a) (fun _ hs => hs.1) fun ha => ?_
    refine ((ih hxs).of_pre fun _ hs => hs.2).bind fun as => .pure fun _ hs => ?_
    obtain ⟨⟨hlength, has⟩, hpre⟩ := hs
    exact ⟨⟨congrArg Nat.succ hlength, List.forall_mem_cons.mpr ⟨ha, has⟩⟩, hpre⟩

/-- What an operation makes of each element of a list in turn, it makes of the list. -/
theorem Meets.forEach_foldl {ι β : Type} {stopped : σ → Prop} {f : ι → Action ν σ ρ}
    {shown : β → σ → Prop} {change : β → ι → β}
    (h : ∀ i b, Meets (shown b) (f i) stopped fun _ => shown (change b i)) (xs : List ι) (b : β) :
    Meets (shown b) (Action.forEach xs f) stopped fun _ => shown (xs.foldl change b) := by
  induction xs generalizing b with
  | nil => exact .pure fun _ hs => hs
  | cons i xs ih =>
    refine (h i b).bind fun _ => ?_
    apply Meets.answer
    exact ih (change b i)

/-- What holds where an operation ends and where it stops holds after it. -/
theorem Meets.after {x : Action ν σ ρ} (hx : Meets pre x kept fun _ => kept) {s : σ}
    (hs : pre s) : kept (x s).state := by
  obtain ⟨hk, hp⟩ := hx s hs
  rcases h : (x s).result with e | a
  · exact hk e h
  · exact hp a h

theorem Meets.keeps {x : Action ν σ ρ} (hx : Meets kept x kept fun _ => kept) : Keeps kept x :=
  fun _ hs => hx.after hs

theorem Keeps.meets {x : Action ν σ ρ} (hx : Keeps kept x) :
    Meets kept x kept fun _ => kept := fun s hs => ⟨fun _ _ => hx s hs, fun _ _ => hx s hs⟩

/-- After two operations holds what holds after the first, and after the second where it follows. -/
theorem after_bind {x : Action ν σ ρ} {f : ρ → Action ν σ ρ'} {s : σ} (hx : kept (x s).state)
    (hf : ∀ a, (x s).result = .ok a → kept (f a (x s).state).state) : kept ((x >>= f) s).state := by
  cases hr : (x s).result with
  | error e =>
    rw [bind_of_error hr]
    exact hx
  | ok a =>
    rw [bind_of_ok hr]
    exact hf a hr

namespace Keeps

theorem pure (a : ρ) : Keeps kept (Pure.pure a : Action ν σ ρ) := fun _ hs => hs

theorem fail (e : Fault) : Keeps kept (Action.fail e : Action ν σ ρ) := fun _ hs => hs

theorem ofExcept (r : Except Fault ρ) : Keeps kept (Action.ofExcept r : Action ν σ ρ) :=
  fun _ hs => hs

theorem read : Keeps kept (Action.read : Action ν σ σ) := fun _ hs => hs

theorem note (n : ν) : Keeps kept (Action.note n) := fun _ hs => hs

theorem modify {f : σ → σ} (hf : ∀ s, kept s → kept (f s)) :
    Keeps kept (Action.modify f : Action ν σ Unit) := hf

theorem bind {x : Action ν σ ρ} {f : ρ → Action ν σ ρ'} (hx : Keeps kept x)
    (hf : ∀ a, Keeps kept (f a)) : Keeps kept (x >>= f) :=
  (hx.meets.bind fun a => (hf a).meets).keeps

theorem forEach (xs : List ρ) {f : ρ → Action ν σ ρ'} (hf : ∀ x ∈ xs, Keeps kept (f x)) :
    Keeps kept (Action.forEach xs f) := by
  induction xs with
  | nil => exact .pure _
  | cons x xs ih =>
    have htail := ih fun y hy => hf y (List.mem_cons_of_mem _ hy)
    exact (hf x List.mem_cons_self).bind fun _ => htail.bind fun _ => .pure _

theorem attempt {x : Action ν σ ρ} (hx : Keeps kept x) : Keeps kept x.attempt := hx

/-- What an operation on a part keeps of the part, it keeps of the whole around it. -/
theorem on {get : τ → σ} {set : σ → τ → τ} {whole : τ → Prop} {x : Action ν σ ρ}
    (hx : Keeps kept x) (hget : ∀ t, whole t → kept (get t))
    (hset : ∀ s t, whole t → kept s → whole (set s t)) : Keeps whole (x.on get set) :=
  fun t ht => hset _ t ht (hx _ (hget t ht))

theorem mapNotes {f : ν → σ → μ} {x : Action ν σ ρ} (hx : Keeps kept x) :
    Keeps kept (x.mapNotes f) := hx

end Keeps

/-- Every note of an operation can be put down. -/
def Told (line : ν → Except Fault μ) (x : Action ν σ ρ) (s : σ) : Prop :=
  ∀ n ∈ (x s).notes, (line n.1).isOk

instance (line : ν → Except Fault μ) (x : Action ν σ ρ) (s : σ) : Decidable (Told line x s) :=
  inferInstanceAs (Decidable (∀ n ∈ (x s).notes, (line n.1).isOk))

theorem write_of_told {line : ν → Except Fault μ} (result : Except Fault ρ) (state : σ)
    {notes : List (ν × σ)} (h : ∀ n ∈ notes, (line n.1).isOk) :
    (write line result state notes).result = result ∧
      (write line result state notes).state = state := by
  induction notes with
  | nil => exact ⟨rfl, rfl⟩
  | cons n later ih =>
    have hfirst := h n List.mem_cons_self
    have hlater := ih fun m hm => h m (List.mem_cons_of_mem n hm)
    cases htext : line n.1 with
    | error fault =>
      rw [htext] at hfirst
      cases hfirst
    | ok text =>
      simp only [write, htext]
      exact hlater

/-- An operation of which all notes can be put down does what it does without them. -/
theorem written_of_told {line : ν → Except Fault μ} {x : Action ν σ ρ} {s : σ}
    (h : Told line x s) : (written line x s).result = (x s).result ∧
      (written line x s).state = (x s).state :=
  write_of_told _ _ h

end Action

/-! ### Readings -/

/-- What a reading gives, if it gives something. -/
theorem eq_ok_of_isOk {x : Except Fault ρ} (h : x.isOk = true) (a : ρ) :
    x = .ok (x.toOption.getD a) := by
  cases x with
  | error e => cases h
  | ok b => rfl

section
variable {f : ρ → ρ'}

theorem bind_ok_iff {x : Except Fault ρ} {g : ρ → Except Fault ρ'} {b : ρ'} :
    x >>= g = .ok b ↔ ∃ a, x = .ok a ∧ g a = .ok b := by
  cases x with
  | error e => exact ⟨nofun, nofun⟩
  | ok a => simp [Bind.bind, Except.bind]

theorem map_ok_iff {x : Except Fault ρ} {b : ρ'} : x.map f = .ok b ↔ ∃ a, x = .ok a ∧ f a = b := by
  cases x with
  | error e => exact ⟨nofun, nofun⟩
  | ok a => simp [Except.map]

theorem map_error_iff {x : Except Fault ρ} {e : Fault} : x.map f = .error e ↔ x = .error e := by
  cases x with
  | error fault => simp [Except.map]
  | ok a => exact ⟨nofun, nofun⟩

theorem map_some_iff {x : Except Fault (Option ρ)} {b : ρ'} :
    x.map (Option.map f) = .ok (some b) ↔ ∃ a, x = .ok (some a) ∧ f a = b := by
  rcases x with e | _ | a
  · exact ⟨nofun, nofun⟩
  · exact ⟨nofun, nofun⟩
  · simp [Except.map]

end

/-- A reading that gives something. -/
def Gives (x : Except Fault ρ) : Prop := ∃ a, x = .ok a

namespace Gives

theorem ok (a : ρ) : Gives (.ok a) := ⟨a, rfl⟩

theorem bind {x : Except Fault ρ} {f : ρ → Except Fault ρ'} (hx : Gives x)
    (hf : ∀ a, Gives (f a)) : Gives (x >>= f) := by
  obtain ⟨a, ha⟩ := hx
  rw [ha]
  exact hf a

theorem map {x : Except Fault ρ} (hx : Gives x) (f : ρ → ρ') : Gives (x.map f) := by
  obtain ⟨a, ha⟩ := hx
  rw [ha]
  exact ok (f a)

theorem mapM {f : ρ → Except Fault ρ'} {xs : List ρ} (h : ∀ x ∈ xs, Gives (f x)) :
    Gives (xs.mapM f) := by
  induction xs with
  | nil => exact ok []
  | cons x xs ih =>
    obtain ⟨hx, hxs⟩ := List.forall_mem_cons.mp h
    rw [List.mapM_cons]
    exact hx.bind fun _ => (ih hxs).bind fun _ => ok _

/-- An operation that only reads cannot stop where the reading gives something. -/
theorem meets {r : Except Fault ρ} (h : Gives r) {pre kept : σ → Prop} :
    Action.Meets pre (Action.ofExcept r : Action ν σ ρ) kept fun _ => pre := by
  obtain ⟨a, ha⟩ := h
  rw [ha]
  exact .pure fun _ hs => hs

end Gives

/-- Carries out steps one after the other and collects their answers. -/
def history {ε : Type} (step : ε → σ → τ × σ) : List ε → σ → List τ × σ
  | [], s => ([], s)
  | e :: rest, s =>
    let (answer, s) := step e s
    let (answers, s) := history step rest s
    (answer :: answers, s)

theorem history_append {ε : Type} (step : ε → σ → τ × σ) (before after : List ε) (s : σ) :
    (history step (before ++ after) s).2 = (history step after (history step before s).2).2 := by
  induction before generalizing s with
  | nil => rfl
  | cons e rest ih => exact ih _

/-- What every step of a list keeps, carrying them all out keeps. -/
theorem history_keeps {ε : Type} (kept : σ → Prop) {step : ε → σ → τ × σ} {events : List ε}
    (h : ∀ e ∈ events, ∀ s, kept s → kept (step e s).2) {s : σ} (hs : kept s) :
    kept (history step events s).2 := by
  induction events generalizing s with
  | nil => exact hs
  | cons e rest ih =>
    have hrest : ∀ d ∈ rest, ∀ s, kept s → kept (step d s).2 :=
      fun d hd => h d (List.mem_cons_of_mem e hd)
    exact ih hrest (h e List.mem_cons_self s hs)

/-- Two systems that answer alike step by step answer alike throughout. -/
theorem history_simulates {ε σ' : Type} {step : ε → σ → τ × σ} {step' : ε → σ' → τ × σ'}
    (related : σ → σ' → Prop)
    (h : ∀ e s s', related s s' →
      (step e s).1 = (step' e s').1 ∧ related (step e s).2 (step' e s').2)
    (events : List ε) {s : σ} {s' : σ'} (hs : related s s') :
    (history step events s).1 = (history step' events s').1 ∧
      related (history step events s).2 (history step' events s').2 := by
  induction events generalizing s s' with
  | nil => exact ⟨rfl, hs⟩
  | cons e rest ih =>
    obtain ⟨ha, hr⟩ := h e s s' hs
    obtain ⟨has, hr'⟩ := ih hr
    exact ⟨by simp only [history, ha, has], hr'⟩

/-- Each element of a list was due, judged by those before it. -/
def Timely (due : List τ → τ → Prop) (xs : List τ) : Prop :=
  ∀ before x after, xs = before ++ x :: after → due before x

namespace Timely

variable {due : List τ → τ → Prop} {xs : List τ} {x : τ}

theorem nil : Timely due [] := by
  intro before x after h
  simp at h

theorem concat (h : Timely due xs) (hx : due xs x) : Timely due (xs ++ [x]) := by
  intro before y after heq
  rcases List.eq_nil_or_concat after with rfl | ⟨later, last, rfl⟩
  · obtain ⟨rfl, hlast⟩ := List.append_inj' heq rfl
    cases hlast
    exact hx
  · rw [List.concat_eq_append, ← List.cons_append, ← List.append_assoc] at heq
    obtain ⟨hxs, -⟩ := List.append_inj' heq rfl
    exact h before y later hxs

end Timely

end Arboretum
