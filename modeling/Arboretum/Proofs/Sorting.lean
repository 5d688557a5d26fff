import Mathlib.Data.List.Sort

/-!
Sorting by a key leaves what has the same key in the order in which it was.
-/
namespace Arboretum

variable {β κ : Type} [LinearOrder κ] (key : β → κ)

theorem key_trans (a b c : β) :
    decide (key a ≤ key b) → decide (key b ≤ key c) → decide (key a ≤ key c) := by
  simpa using le_trans

theorem key_total (a b : β) : decide (key a ≤ key b) || decide (key b ≤ key a) := by
  simpa using le_total (key a) (key b)

/-- Sorting by a key changes nothing among those of one key. -/
theorem filter_mergeSort (xs : List β) (k : κ) :
    (xs.mergeSort fun a b => key a ≤ key b).filter (key · = k) = xs.filter (key · = k) := by
  have htogether : (xs.filter (key · = k)).Pairwise fun a b => decide (key a ≤ key b) := by
    apply List.pairwise_of_forall_mem_list
    intro a ha b hb
    have ha := of_decide_eq_true (List.mem_filter.mp ha).2
    have hb := of_decide_eq_true (List.mem_filter.mp hb).2
    simp [ha, hb]
  have hkept : (xs.filter (key · = k)).Sublist (xs.mergeSort fun a b => key a ≤ key b) :=
    List.sublist_mergeSort (key_trans key) (key_total key) htogether List.filter_sublist
  have hlength : (xs.filter (key · = k)).length =
      ((xs.mergeSort fun a b => key a ≤ key b).filter (key · = k)).length :=
    ((List.mergeSort_perm xs _).filter _).length_eq.symm
  have hfilter := hkept.filter (key · = k)
  rw [List.filter_filter] at hfilter
  simp only [Bool.and_self] at hfilter
  exact (hfilter.eq_of_length hlength).symm

/-- What is sorted by a key is in the order of the keys, and within one key as it was. -/
theorem pairwise_mergeSort_key {R : β → β → Prop} {xs : List β}
    (h : xs.Pairwise fun a b => key a = key b → R a b) :
    (xs.mergeSort fun a b => key a ≤ key b).Pairwise fun a b =>
      key a < key b ∨ key a = key b ∧ R a b := by
  have hsorted := List.pairwise_mergeSort (key_trans key) (key_total key) xs
  rw [List.pairwise_iff_forall_sublist] at hsorted h ⊢
  intro a b hab
  have hle : key a ≤ key b := of_decide_eq_true (hsorted hab)
  rcases hle.lt_or_eq with hlt | heq
  · exact .inl hlt
  · have hfilter := hab.filter (key · = key b)
    rw [filter_mergeSort] at hfilter
    simp only [heq, decide_true, List.filter_cons_of_pos, List.filter_nil] at hfilter
    exact .inr ⟨heq, h (hfilter.trans List.filter_sublist) heq⟩

end Arboretum
