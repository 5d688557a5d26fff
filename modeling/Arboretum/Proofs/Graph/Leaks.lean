import Arboretum.Proofs.Graph.Release

/-!
Building leaks nothing, whoever has taken points of the body meanwhile. Wherever it ends or stops,
each point that it has made is kept by the body, and so are both ends of each spring, so that
releasing the body takes all of it out again.
-/
namespace Arboretum.Graph

open Arboretum.Action

variable {α : Type}

/-- Every number that a body keeps was given out by its world. -/
structure Numbered (w : World α) (g : Graph α) : Prop where
  points : ∀ id ∈ g.allPoints, id < w.slots.size
  springs : ∀ serial ∈ g.allSprings, serial < w.links.size

namespace Numbered

variable {w w' : World α} {g : Graph α}

theorem new (origin : Vec α) (scale : α) (w : World α) : Numbered w (Graph.new origin scale) where
  points id hid := by simp [allPoints, Graph.new] at hid
  springs serial hs := by simp [allSprings, Graph.new] at hs

theorem onward (h : Numbered w g) (hw : w.Onward w') : Numbered w' g where
  points id hid := Nat.lt_of_lt_of_le (h.points id hid) hw.points
  springs serial hs := Nat.lt_of_lt_of_le (h.springs serial hs) hw.springs

end Numbered

/-- A builder at work since a moment. What has come into the world since then is of the body, or
spare: points that the body does not keep yet. The builder knows some points of the body. -/
structure Tight (was : World α × Graph α) (spare known : List Nat) (now : World α × Graph α) :
    Prop where
  sound : now.1.Sound
  numbered : Numbered now.1 now.2
  kept : ∀ id ∈ was.2.allPoints, id ∈ now.2.allPoints
  points : ∀ id, now.1.isAlive id → was.1.isAlive id ∨ id ∈ now.2.allPoints ∨ id ∈ spare
  bonds : ∀ serial bond, now.1.bond? serial = some bond →
    was.1.bond? serial = some bond ∨
      ∀ id, bond.meets id → id ∈ now.2.allPoints ∨ id ∈ spare
  given : ∀ id ∈ spare, id < now.1.slots.size
  known : ∀ id ∈ known, id ∈ now.2.allPoints

namespace Tight

variable {was now : World α × Graph α} {spare known : List Nat} {w w' : World α} {g g' : Graph α}

theorem start (hw : w.Sound) (hg : Numbered w g) : Tight (w, g) [] [] (w, g) where
  sound := hw
  numbered := hg
  kept _ hid := hid
  points _ hid := .inl hid
  bonds _ _ hb := .inl hb
  given _ hid := absurd hid List.not_mem_nil
  known _ hid := absurd hid List.not_mem_nil

theorem same (h : Tight was spare known (w, g)) (hs : w'.Sound) (hw : w.Same w') :
    Tight was spare known (w', g) where
  sound := hs
  numbered := ⟨fun id hid => hw.points ▸ h.numbered.points id hid,
    fun serial hm => hw.springs ▸ h.numbered.springs serial hm⟩
  kept := h.kept
  points id hid := h.points id ((hw.alive id).symm.trans hid)
  bonds serial bond hb := h.bonds serial bond ((hw.bonds serial).symm.trans hb)
  given id hid := hw.points ▸ h.given id hid
  known := h.known

theorem forget {id : Nat} (h : Tight was spare (id :: known) now) : Tight was spare known now :=
  { h with known := (List.forall_mem_cons.mp h.known).2 }

/-- A new point is spare at first. -/
theorem seat (h : Tight was [] known (w, g)) (hroom : w.count < w.capacity) (p : Particle α) :
    Tight was [w.slots.size] known (w.seat p, g) where
  sound := h.sound.seat hroom p
  numbered := by
    have hsize : w.slots.size ≤ (w.seat p).slots.size := (World.grew_seat w p).points
    exact ⟨fun id hid => Nat.lt_of_lt_of_le (h.numbered.points id hid) hsize, h.numbered.springs⟩
  kept := h.kept
  points id hid := by
    by_cases hnew : id = w.slots.size
    · exact .inr (.inr (List.mem_singleton.mpr hnew))
    · rw [World.isAlive, World.slot?_seat, if_neg hnew] at hid
      exact (h.points id hid).imp_right fun hm => .inl (hm.resolve_right List.not_mem_nil)
  bonds serial bond hb := by
    rw [World.bond?_seat] at hb
    refine (h.bonds serial bond hb).imp_right fun hm id hid => ?_
    exact .inl ((hm id hid).resolve_right List.not_mem_nil)
  given id hid := by
    rw [List.mem_singleton.mp hid]
    simp [World.seat]
  known := h.known

theorem link (h : Tight was spare known (w, g)) {a b : Nat} (ha : w.isAlive a) (hb : w.isAlive b)
    (hne : a ≠ b) (hkept : ∀ id, id = a ∨ id = b → id ∈ g.allPoints ∨ id ∈ spare)
    (stiffness damping rest : α) :
    Tight was spare known (w.link a b stiffness damping rest, g) where
  sound := h.sound.link hne ha hb stiffness damping rest
  numbered := by
    have hgrew := World.grew_link w a b stiffness damping rest
    exact ⟨h.numbered.points,
      fun serial hs => Nat.lt_of_lt_of_le (h.numbered.springs serial hs) hgrew.springs⟩
  kept := h.kept
  points := h.points
  bonds serial bond hbond := by
    rw [World.bond?_link] at hbond
    split at hbond
    · cases hbond
      refine .inr fun id hid => hkept id ?_
      rw [Bond.meets, Bool.or_eq_true, beq_iff_eq, beq_iff_eq] at hid
      exact hid.imp Eq.symm Eq.symm
    · exact h.bonds serial bond hbond
  given := h.given
  known := h.known

/-- A body that writes down what it keeps. -/
theorem record {spare' known' : List Nat} (h : Tight was spare known (w, g))
    (hkept : ∀ id ∈ g.allPoints, id ∈ g'.allPoints)
    (hpoints : ∀ id, id ∈ g'.allPoints ∨ id ∈ spare' ↔ id ∈ g.allPoints ∨ id ∈ spare)
    (hsprings : ∀ serial ∈ g'.allSprings, serial ∈ g.allSprings ∨ serial < w.links.size)
    (hknown : ∀ id ∈ known', id ∈ known ∨ id ∈ g'.allPoints) :
    Tight was spare' known' (w, g') := by
  have hgiven : ∀ id, id ∈ g'.allPoints ∨ id ∈ spare' → id < w.slots.size := fun id hid =>
    ((hpoints id).mp hid).elim (h.numbered.points id) (h.given id)
  exact
    { sound := h.sound
      numbered := ⟨fun id hid => hgiven id (.inl hid),
        fun serial hs => (hsprings serial hs).elim (h.numbered.springs serial) id⟩
      kept := fun id hid => hkept id (h.kept id hid)
      points := fun id hid => (h.points id hid).imp_right (hpoints id).mpr
      bonds := fun serial bond hb => (h.bonds serial bond hb).imp_right fun hm id hid =>
        (hpoints id).mpr (hm id hid)
      given := fun id hid => hgiven id (.inr hid)
      known := fun id hid =>
        (hknown id hid).elim (fun hk => hkept id (h.known id hk)) fun hk => hk }

/-- A spare point that is gone. -/
theorem drop {id : Nat} (h : Tight was [id] known (w, g)) (hs : w'.Sound)
    (hdead : w'.isAlive id = false) (hw : w.Onward w')
    (halive : ∀ x, w'.isAlive x → w.isAlive x)
    (hbonds : ∀ s bond, w'.bond? s = some bond → w.bond? s = some bond) :
    Tight was [] known (w', g) := by
  have hkept : ∀ x, w'.isAlive x → x ∈ g.allPoints ∨ x ∈ [id] → x ∈ g.allPoints := by
    intro x hx hm
    refine hm.resolve_right fun hm => ?_
    rw [List.mem_singleton.mp hm, hdead] at hx
    cases hx
  refine ⟨hs, h.numbered.onward hw, h.kept, fun x hx => ?_, fun s bond hb => ?_,
    fun _ hx => absurd hx List.not_mem_nil, h.known⟩
  · exact (h.points x (halive x hx)).imp_right fun hm => .inl (hkept x hx hm)
  · obtain ⟨-, ha, hb'⟩ := hs.ends s bond hb
    refine (h.bonds s bond (hbonds s bond hb)).imp_right fun hm x hx => .inl (hkept x ?_ (hm x hx))
    rw [Bond.meets, Bool.or_eq_true, beq_iff_eq, beq_iff_eq] at hx
    rcases hx with rfl | rfl
    · exact ha
    · exact hb'

end Tight

variable {was : World α × Graph α} {spare known : List Nat}

theorem tight_pin (p : Point α) : Keeps (Tight was spare known) (inWorld (World.pin p)) := by
  intro state h
  obtain ⟨w, g⟩ := state
  exact h.same (h.sound.pin p) (World.same_pin p w)

theorem tight_removePoint {stopped : World α × Graph α → Prop} {w : World α} {g : Graph α}
    {id : Nat} (h : Tight was [id] known (w, g)) :
    Meets (· = (w, g)) (inWorld (World.removePoint (some (w.point id)))) stopped
      fun _ => Tight was [] known := by
  refine .returns fun s hs => ?_
  subst hs
  rw [inWorld_result, inWorld_state, World.removePoint_apply]
  cases hslot : w.slot? id with
  | none =>
    have hrefused : (some (w.point id)).bind w.seated? = none := by
      simp [World.seated?_point h.sound, hslot]
    have hdead : w.isAlive id = false := by rw [World.isAlive, hslot]; rfl
    rw [hrefused]
    exact ⟨false, rfl, h.drop h.sound hdead (.refl w) (fun _ hx => hx) fun _ _ hb => hb⟩
  | some slot =>
    have htaken : (some (w.point id)).bind w.seated? = some (id, slot) := by
      simp [World.seated?_point h.sound, hslot]
    have hsound := h.sound.without hslot
    have honward := World.onward_without h.sound hslot
    rw [htaken]
    refine ⟨true, rfl, h.drop hsound ?_ honward (fun x hx => ?_) fun s bond hb => ?_⟩
    · simp [World.isAlive, World.slot?_without h.sound hslot]
    · have hlt := World.isAlive_lt hx
      rw [World.slots_size_without h.sound] at hlt
      exact honward.gone x hlt hx
    · rw [World.bond?_without h.sound] at hb
      exact (Option.filter_eq_some_iff.mp hb).1

section
variable [Scalar α]

theorem tight_addPoint (spot : Vec α) (mass : α) (fixed : Bool) :
    Meets (Tight was [] known) (inWorld (World.addPoint spot mass fixed)) (Tight was [] known)
      fun id => Tight was [id] known := by
  intro state h
  obtain ⟨w, g⟩ := state
  obtain ⟨notes, he⟩ := World.addPoint_apply spot mass fixed w
  have hsame := World.same_roomy w
  have hroomy := h.same h.sound.roomy hsame
  simp only [inWorld_result, inWorld_state, he]
  split
  · exact ⟨fun _ _ => hroomy, fun _ hok => (by cases hok)⟩
  · rename_i hroom
    refine ⟨fun _ hstop => (by cases hstop), fun id hok => ?_⟩
    cases hok
    exact hsame.points ▸ hroomy.seat (Nat.lt_of_not_le hroom) _

/-- A spring between two points that the builder knows, if there is one. -/
theorem tight_addSpring {kept : World α × Graph α → Prop} {w : World α} {g : Graph α}
    (h : Tight was spare known (w, g)) {a b : Nat}
    (hkept : ∀ id, id = a ∨ id = b → id ∈ g.allPoints ∨ id ∈ spare)
    (stiffness : α) (rest : Option α) (damping : α) :
    Meets (· = (w, g))
      (inWorld (World.addSpring (some (w.point a)) (some (w.point b)) stiffness rest damping))
      kept fun made s => Tight was spare known s ∧
        ∀ serial, made = some serial → serial < s.1.links.size := by
  refine .returns fun s hs => ?_
  subst hs
  obtain ⟨notes, he⟩ :=
    World.addSpring_apply (some (w.point a)) (some (w.point b)) stiffness rest damping w
  have hj := World.joinable?_point h.sound a b
  rw [inWorld_result, inWorld_state, he]
  cases hjoin : w.joinable? (some (w.point a)) (some (w.point b)) with
  | none => exact ⟨none, rfl, h, fun _ hs => (by cases hs)⟩
  | some ends =>
    obtain ⟨p, hp, hq⟩ := Option.bind_eq_some_iff.mp (hj.symm.trans hjoin)
    obtain ⟨q, hq', hends⟩ := Option.bind_eq_some_iff.mp hq
    split at hends
    · cases hends
    · rename_i hne
      cases hends
      have ha := (h.sound.particle?_isSome a).symm.trans (Option.isSome_iff_exists.mpr ⟨p, hp⟩)
      have hb := (h.sound.particle?_isSome b).symm.trans (Option.isSome_iff_exists.mpr ⟨q, hq'⟩)
      refine ⟨some w.links.size, rfl, h.link ha hb hne hkept _ _ _, fun serial hs => ?_⟩
      cases hs
      simp [World.link]

theorem tight_jointAt (cell : Cell) (spot : Vec α) (mass : α) (fixed : Bool) :
    Meets (Tight was [] known) (jointAt cell spot mass fixed) (Tight was [] known)
      fun id => Tight was [] (id :: known) := by
  refine Meets.each fun s h => ?_
  obtain ⟨w, g⟩ := s
  have hknown {id : Nat} (hj : g.joint? cell = some id) : Tight was [] (id :: known) (w, g) :=
    { h with known := List.forall_mem_cons.mpr ⟨joint?_mem hj, h.known⟩ }
  apply meets_jointAt_of
  case hnew =>
    intro _
    refine ((tight_addPoint spot mass fixed).one h).weaken fun id t ht => ?_
    refine ht.record (fun x hx => mem_allPoints_joint.mpr (.inl hx)) (fun x => ?_)
      (fun _ hs => .inl hs) fun x hx => ?_
    · rw [mem_allPoints_joint, List.mem_singleton, List.mem_nil_iff, or_false]
    · exact (List.mem_cons.mp hx).symm.imp_right fun he => mem_allPoints_joint.mpr (.inr he)
  case hlost => exact fun _ _ _ _ _ => h
  case hfound => exact fun _ hj _ => hknown hj
  case hpinned =>
    intro id _ hj _ _ _
    exact ((tight_pin (w.point id)).meets.stop fun _ ht => ht.forget).one (hknown hj)

theorem tight_materialize (s : Segment α) (index : Option Int) :
    Keeps (Tight was [] []) (materialize s index) := by
  apply keeps_materialize_of (Tight was [])
  case hforget => exact fun _ _ _ h => h.forget
  case hjoint => exact fun _ cell spot mass => tight_jointAt cell spot mass s.isRoot
  case hspring =>
    intro a b w g stiffness rest h
    have hends : ∀ id, id = a ∨ id = b → id ∈ g.allPoints ∨ id ∈ [] := by
      intro id hid
      refine .inl (h.known id ?_)
      rcases hid with rfl | rfl
      · exact List.mem_cons_of_mem b List.mem_cons_self
      · exact List.mem_cons_self
    refine (tight_addSpring h.forget.forget hends stiffness rest _).weaken fun made t ht => ?_
    refine ⟨ht.1, fun serial i hmade => ht.1.record (fun _ hid => hid) (fun _ => Iff.rfl) ?_
      fun _ hid => absurd hid List.not_mem_nil⟩
    intro spring hs
    rcases mem_allSprings_strand hs with hs | rfl
    · exact .inl hs
    · exact .inr (ht.2 _ hmade)

theorem tight_brace (a b : Segment α) : Keeps (Tight was [] []) (brace a b) := by
  apply keeps_brace_of
  intro w g tipA tipB p q stiffness rest h hopen
  have hends : ∀ id, id = p ∨ id = q → id ∈ g.allPoints ∨ id ∈ [] := by
    intro id hid
    rcases hid with rfl | rfl
    · exact .inl (joint?_mem hopen.joints.1)
    · exact .inl (joint?_mem hopen.joints.2)
  refine (tight_addSpring h hends stiffness _ _).weaken fun made t ht => ?_
  refine ⟨ht.1, fun serial hmade => ht.1.record (fun _ hid => hid) (fun _ => Iff.rfl) ?_
    fun _ hid => absurd hid List.not_mem_nil⟩
  intro spring hs
  rcases mem_allSprings_brace.mp hs with hs | rfl
  · exact .inl hs
  · exact .inr (ht.2 _ hmade)

theorem tight_addBraces (segments : List (Segment α)) :
    Keeps (Tight was [] []) (addBraces segments) := keeps_addBraces_of tight_brace

/-- A fruit that cannot be hung is taken out again. -/
theorem tight_hang {index : PointIndex α Nat} (hindex : ∀ place q,
    index.nearest place PointIndex.defaultHalf = some q → q.2 ∈ known) (f : Fruit α) :
    Keeps (Tight was [] known) (hang index f) := by
  apply Meets.keeps
  refine Meets.each fun s h => ?_
  apply meets_hang_of fun joint point t => joint ∈ known ∧ Tight was [point] known t
  case hunhung => exact fun _ => h
  case hpoint =>
    intro q hq
    exact ((tight_addPoint _ _ _).one h).weaken fun _ _ ht => ⟨hindex _ q hq, ht⟩
  case hspring =>
    intro joint point w g hseated
    obtain ⟨hjoint, hw⟩ := hseated
    have hends : ∀ id, id = joint ∨ id = point → id ∈ g.allPoints ∨ id ∈ [point] := by
      intro id hid
      rcases hid with rfl | rfl
      · exact .inl (hw.known _ hjoint)
      · exact .inr List.mem_cons_self
    refine (tight_addSpring hw hends _ _ _).weaken fun made t ht => ?_
    refine ⟨fun _ => tight_removePoint ht.1, fun spring hs => ?_⟩
    refine ht.1.record (fun x hx => mem_allPoints_hanging.mpr (.inl hx)) (fun x => ?_)
      (fun serial hmem => ?_) fun _ hid => .inl hid
    · rw [mem_allPoints_hanging, List.mem_singleton, List.mem_nil_iff, or_false]
    · rcases mem_allSprings_hanging.mp hmem with hmem | rfl
      · exact .inl hmem
      · exact .inr (ht.2 _ hs)

theorem tight_hangAll (fruits : List (Fruit α)) : Keeps (Tight was [] []) (hangAll fruits) := by
  apply Meets.keeps
  refine Meets.each fun s h => ?_
  obtain ⟨w, g⟩ := s
  have hknown : Tight was [] (g.joints.map (·.2)) (w, g) :=
    { h with known := fun _ hid => List.mem_append_left _ hid }
  have hforget : ∀ t, Tight was [] (g.joints.map (·.2)) t → Tight was [] [] t :=
    fun t ht => { ht with known := fun _ hid => absurd hid List.not_mem_nil }
  apply meets_hangAll_of
  case hnone => exact fun _ => h
  case hstop => exact fun _ _ => h
  case hall =>
    intro _ index _ _ hindex
    have hall : Keeps (Tight was [] (g.joints.map (·.2))) (forEach fruits (hang index)) :=
      .forEach fruits fun f _ => tight_hang (fun _ _ hq => (joint_of_nearest hindex hq).1) f
    exact ((hall.meets.stop hforget).one hknown).weaken fun _ => hforget

end

/-- Releasing the body takes out what was built since the moment, and what the body kept then. -/
theorem Tight.released {w w₀ w' : World α} {g₀ g : Graph α} (h : Tight (w₀, g₀) [] [] (w, g))
    (hshed : w.Shed g.allPoints g.allSprings w') :
    (∀ id, w'.isAlive id → w₀.isAlive id ∧ id ∉ g.allPoints) ∧
      ∀ serial bond, w'.bond? serial = some bond →
        w₀.bond? serial = some bond ∧ serial ∉ g.allSprings := by
  constructor
  · intro id hid
    rw [← hshed.sound.particle?_isSome, hshed.points] at hid
    split at hid
    · cases hid
    · rename_i hnot
      rw [h.sound.particle?_isSome] at hid
      refine ⟨(h.points id hid).resolve_right fun hm => ?_, hnot⟩
      exact hnot (hm.resolve_right List.not_mem_nil)
  · intro serial bond hb
    rw [hshed.bonds] at hb
    split at hb
    · cases hb
    · rename_i hnot
      obtain ⟨hb, hmeets⟩ := Option.filter_eq_some_iff.mp hb
      refine ⟨(h.bonds serial bond hb).resolve_right fun hm => ?_, hnot⟩
      have hend := (hm bond.a (by simp [Bond.meets])).resolve_right List.not_mem_nil
      have hany : g.allPoints.any bond.meets :=
        List.any_eq_true.mpr ⟨bond.a, hend, by simp [Bond.meets]⟩
      simp [hany] at hmeets

end Arboretum.Graph
