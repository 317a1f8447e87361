import MessageDepot.Sorting

/-!
# What sorting keeps

Sorting depends only on how the elements of the list compare, so it goes through maps; an
element is put in front of its equals, so it goes through filters, and elements that compare
equal stay in their order.

Results:
* `sort_congr`, `map_sort`, `filter_sort`: sorting under another comparison, a map and a filter.
* `pairwise_sort_stable`: the order of a sorted list, with its ties.
-/
namespace MessageDepot

variable {α β : Type} {le : α → α → Bool}

@[simp] theorem length_sort (le : α → α → Bool) (as : List α) : (sort le as).length = as.length :=
  (sort_perm le as).length_eq

theorem insertSorted_congr {le' : α → α → Bool} {a : α} {as : List α}
    (h : ∀ b ∈ as, le a b = le' a b) : insertSorted le a as = insertSorted le' a as := by
  induction as with
  | nil => rfl
  | cons b bs ih =>
    rw [insertSorted, insertSorted, h b (by simp), ih fun c hc => h c (by simp [hc])]

/-- Two comparisons sort alike when they compare every element alike with those after it. -/
theorem sort_congr {le' : α → α → Bool} {as : List α}
    (h : as.Pairwise fun a b => le a b = le' a b) : sort le as = sort le' as := by
  induction as with
  | nil => rfl
  | cons a as ih =>
    rw [List.pairwise_cons] at h
    rw [sort, sort, ih h.2]
    exact insertSorted_congr fun b hb => h.1 b (mem_sort.1 hb)

theorem map_insertSorted {le' : β → β → Bool} {f : α → β} (h : ∀ a b, le' (f a) (f b) = le a b)
    (a : α) (as : List α) :
    (insertSorted le a as).map f = insertSorted le' (f a) (as.map f) := by
  induction as with
  | nil => rfl
  | cons b bs ih =>
    rw [List.map_cons, insertSorted, insertSorted, h]
    split
    · rfl
    · rw [List.map_cons, ih]

theorem map_sort {le' : β → β → Bool} {f : α → β} (h : ∀ a b, le' (f a) (f b) = le a b)
    (as : List α) : (sort le as).map f = sort le' (as.map f) := by
  induction as with
  | nil => rfl
  | cons a as ih => rw [sort, map_insertSorted h, ih]; rfl

/-- An element that is no greater than all others goes in front. -/
theorem insertSorted_front {a : α} {as : List α} (h : ∀ b ∈ as, le a b) :
    insertSorted le a as = a :: as := by
  cases as with
  | nil => rfl
  | cons b bs => rw [insertSorted, if_pos (h b (by simp))]

theorem filter_insertSorted (trans : ∀ a b c, le a b → le b c → le a c) (p : α → Bool) {a : α}
    {as : List α} (h : as.Pairwise fun x y => le x y) :
    (insertSorted le a as).filter p =
      if p a then insertSorted le a (as.filter p) else as.filter p := by
  induction as with
  | nil => cases hp : p a <;> simp [insertSorted, hp]
  | cons b bs ih =>
    rw [List.pairwise_cons] at h
    rw [insertSorted]
    by_cases hab : le a b
    · -- everything behind `b` is no smaller than `a`, so `a` stays in front of what is kept
      have hf : ∀ c ∈ (b :: bs).filter p, le a c := by
        intro c hc
        rcases List.mem_cons.1 (List.mem_filter.1 hc).1 with rfl | hc
        · exact hab
        · exact trans _ _ _ hab (h.1 c hc)
      rw [if_pos hab, List.filter_cons, insertSorted_front hf]
    · rw [if_neg hab, List.filter_cons, ih h.2, List.filter_cons]
      split <;> split <;> simp [insertSorted, hab]

theorem filter_sort (total : ∀ a b, le a b ∨ le b a) (trans : ∀ a b c, le a b → le b c → le a c)
    (p : α → Bool) (as : List α) : (sort le as).filter p = sort le (as.filter p) := by
  induction as with
  | nil => rfl
  | cons a as ih =>
    rw [sort, filter_insertSorted trans p (pairwise_sort total trans as), ih, List.filter_cons]
    split <;> rfl

theorem pairwise_insertSorted_stable {r : α → α → Prop} (total : ∀ a b, le a b ∨ le b a)
    (trans : ∀ a b c, le a b → le b c → le a c) {a : α} {as : List α} (hr : ∀ b ∈ as, r a b)
    (h : as.Pairwise fun x y => le x y ∧ (le y x → r x y)) :
    (insertSorted le a as).Pairwise fun x y => le x y ∧ (le y x → r x y) := by
  induction as with
  | nil => simp [insertSorted]
  | cons b bs ih =>
    rw [List.pairwise_cons] at h
    rw [insertSorted]
    split
    · rename_i hab
      refine .cons (fun c hc => ⟨?_, fun _ => hr c hc⟩) (.cons h.1 h.2)
      rcases List.mem_cons.1 hc with rfl | hc
      · exact hab
      · exact trans _ _ _ hab (h.1 c hc).1
    · rename_i hab
      refine .cons (fun c hc => ?_) (ih (fun c hc => hr c (by simp [hc])) h.2)
      rcases List.mem_cons.1 ((insertSorted_perm le a bs).mem_iff.1 hc) with rfl | hc
      · exact ⟨(total c b).resolve_left hab, fun hcb => absurd hcb hab⟩
      · exact h.1 c hc

/-- A sorted list is in order, and elements that compare equal keep the order `r` they had. -/
theorem pairwise_sort_stable {r : α → α → Prop} (total : ∀ a b, le a b ∨ le b a)
    (trans : ∀ a b c, le a b → le b c → le a c) {as : List α} (h : as.Pairwise r) :
    (sort le as).Pairwise fun x y => le x y ∧ (le y x → r x y) := by
  induction as with
  | nil => exact .nil
  | cons a as ih =>
    rw [List.pairwise_cons] at h
    exact pairwise_insertSorted_stable total trans (fun b hb => h.1 b (mem_sort.1 hb)) (ih h.2)

end MessageDepot
