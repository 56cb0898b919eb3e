import Mathlib.Algebra.BigOperators.Fin
import Mathlib.Algebra.Order.BigOperators.Group.Finset
import Mathlib.Data.List.Perm.Basic
import Mathlib.Data.Multiset.Count
import Mathlib.Tactic.Abel

namespace Count

variable {ι β : Type*} [Fintype ι] [DecidableEq ι]

-- How a sum over all threads changes when one of them moves.
theorem sum_update_of {M : Type*} [AddCommMonoid M] {β : ι → Type*} (g : (i : ι) → β i → M) (f : (i : ι) → β i)
    (i : ι) (b : β i) : ∑ j, g j (Function.update f i b j) + g i (f i) = ∑ j, g j (f j) + g i b := by
  have h : ∀ j, g j (Function.update f i b j) = Function.update (fun j => g j (f j)) i (g i b) j := by
    intro j
    by_cases hj : j = i
    · subst hj
      simp
    · simp [Function.update_of_ne hj]
  have hi := Finset.sum_eq_add_sum_sdiff_singleton i (fun j => g j (f j)) (s := Finset.univ) (by simp)
  simp only [h, Finset.sum_update_of_mem (Finset.mem_univ i), hi]
  abel

theorem sum_update (g : β → Nat) (f : ι → β) (i : ι) (b : β) :
    ∑ j, g (Function.update f i b j) + g (f i) = ∑ j, g (f j) + g b :=
  sum_update_of (fun _ => g) f i b

-- How the number of elements with a property changes when one of them is replaced.
theorem countP_set {p : β → Bool} {l : List β} {x : β} (y : β) (h : l[i]? = some x) :
    (l.set i y).countP p + (if p x then 1 else 0) = l.countP p + if p y then 1 else 0 := by
  obtain ⟨hi, rfl⟩ := List.getElem?_eq_some_iff.mp h
  have hx : (if p l[i] then 1 else 0) ≤ l.countP p := by
    split
    case isTrue hp => exact List.countP_pos_iff.mpr ⟨_, List.getElem_mem hi, hp⟩
    case isFalse   => exact Nat.zero_le _
  rw [List.countP_set hi]
  omega

-- The same, when one of them is removed.
theorem countP_eraseIdx {p : β → Bool} {l : List β} {x : β} (h : l[i]? = some x) :
    (l.eraseIdx i).countP p + (if p x then 1 else 0) = l.countP p := by
  obtain ⟨hi, rfl⟩ := List.getElem?_eq_some_iff.mp h
  rw [← (List.getElem_cons_eraseIdx_perm hi).countP_eq p, List.countP_cons]

-- How the sum over a list changes in the same way.

theorem sum_map_set {M : Type*} [AddCommMonoid M] (g : β → M) {l : List β} {x : β} (y : β) (h : l[i]? = some x) :
    ((l.set i y).map g).sum + g x = (l.map g).sum + g y := by
  induction l generalizing i
  case nil => simp at h
  case cons z l ih =>
    cases i
    case zero =>
      cases h
      simp only [List.set_cons_zero, List.map_cons, List.sum_cons]
      abel
    case succ i =>
      have := ih (by simpa using h)
      simp only [List.set_cons_succ, List.map_cons, List.sum_cons, add_assoc, this]

theorem sum_map_eraseIdx {M : Type*} [AddCommMonoid M] (g : β → M) {l : List β} {x : β} (h : l[i]? = some x) :
    ((l.eraseIdx i).map g).sum + g x = (l.map g).sum := by
  obtain ⟨hi, rfl⟩ := List.getElem?_eq_some_iff.mp h
  rw [← ((List.getElem_cons_eraseIdx_perm hi).map g).sum_eq, List.map_cons, List.sum_cons, add_comm]

-- The records of one kind, by the party that they are about.

theorem count_map_filter {κ ι : Type*} [DecidableEq κ] [DecidableEq ι] (l : List (κ × ι)) (a : κ) (c : ι) :
    ((l.filter (·.1 = a)).map (·.2)).count c = l.count (a, c) := by
  induction l
  case nil => rfl
  case cons e l ih =>
    obtain ⟨b, d⟩ := e
    by_cases hb : b = a
    · simp [hb, List.count_cons, ih]
    · simp [hb, ih]

-- When no party has more records of the first kind than of the second, and there are as many in total,
-- then each party has as many.
theorem count_eq_of_countP_eq {κ ι : Type*} [DecidableEq κ] [DecidableEq ι] {l : List (κ × ι)} {a b : κ}
    (hle : ∀ c, l.count (a, c) ≤ l.count (b, c)) (h : l.countP (·.1 = b) = l.countP (·.1 = a)) (c : ι) :
    l.count (a, c) = l.count (b, c) := by
  let records (a : κ) : Multiset ι := ((l.filter (·.1 = a)).map (·.2) : List ι)
  have hc (a : κ) (c : ι) : (records a).count c = l.count (a, c) := by
    simp only [records, Multiset.coe_count, count_map_filter]
  have hcard (a : κ) : (records a).card = l.countP (·.1 = a) := by
    simp only [records, Multiset.coe_card, List.length_map, List.countP_eq_length_filter]
  have hrec : records a ≤ records b := Multiset.le_iff_count.mpr fun c => by simpa only [hc] using hle c
  have heq : records a = records b := Multiset.eq_of_le_of_card_le hrec (by rw [hcard, hcard, h])
  rw [← hc, ← hc, heq]

end Count
