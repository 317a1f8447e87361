/-!
# Stable sorting and distinct values

Lists are sorted by inserting their elements one by one, the last first, each in front of its
equals, so that equals stay in their order.

Results:
* `sort_perm`, `pairwise_sort`: sorting reorders, and the result is in order.
* `mem_distinct`, `nodup_distinct`: the distinct values are the same values, each once.
* `distinct_of_nodup`: nothing is left out where no value repeats.
-/
namespace MessageDepot

variable {α : Type}

/-- Inserts an element in front of the first one that it does not have to follow. -/
def insertSorted (le : α → α → Bool) (a : α) : List α → List α
  | [] => [a]
  | b :: bs => if le a b then a :: b :: bs else b :: insertSorted le a bs

/-- Sorts stably. -/
def sort (le : α → α → Bool) : List α → List α
  | [] => []
  | a :: as => insertSorted le a (sort le as)

/-- Every value once, where it comes first. -/
def distinct [DecidableEq α] : List α → List α
  | [] => []
  | a :: as => a :: (distinct as).filter (· ≠ a)

theorem insertSorted_perm (le : α → α → Bool) (a : α) (bs : List α) :
    (insertSorted le a bs).Perm (a :: bs) := by
  induction bs with
  | nil => exact .refl _
  | cons b bs ih =>
    unfold insertSorted
    split
    · exact .refl _
    · exact (ih.cons b).trans (.swap a b bs)

theorem sort_perm (le : α → α → Bool) (as : List α) : (sort le as).Perm as := by
  induction as with
  | nil => exact .refl _
  | cons a as ih => exact (insertSorted_perm le a _).trans (ih.cons a)

theorem mem_sort {le : α → α → Bool} {a : α} {as : List α} : a ∈ sort le as ↔ a ∈ as :=
  (sort_perm le as).mem_iff

theorem pairwise_insertSorted {le : α → α → Bool} (total : ∀ a b, le a b ∨ le b a)
    (trans : ∀ a b c, le a b → le b c → le a c) (a : α) {bs : List α}
    (h : bs.Pairwise fun x y => le x y) : (insertSorted le a bs).Pairwise fun x y => le x y := by
  induction bs with
  | nil => simp [insertSorted]
  | cons b bs ih =>
    rw [List.pairwise_cons] at h
    unfold insertSorted
    split
    · rename_i hab
      refine .cons ?_ (.cons h.1 h.2)
      intro x hx
      rcases List.mem_cons.1 hx with rfl | hx
      · exact hab
      · exact trans _ _ _ hab (h.1 x hx)
    · rename_i hab
      refine .cons ?_ (ih h.2)
      intro x hx
      rcases List.mem_cons.1 ((insertSorted_perm le a bs).mem_iff.1 hx) with rfl | hx
      · exact (total x b).resolve_left hab
      · exact h.1 x hx

theorem pairwise_sort {le : α → α → Bool} (total : ∀ a b, le a b ∨ le b a)
    (trans : ∀ a b c, le a b → le b c → le a c) (as : List α) :
    (sort le as).Pairwise fun x y => le x y := by
  induction as with
  | nil => exact .nil
  | cons a as ih => exact pairwise_insertSorted total trans a ih

theorem mem_distinct [DecidableEq α] {a : α} {as : List α} : a ∈ distinct as ↔ a ∈ as := by
  induction as with
  | nil => simp [distinct]
  | cons b bs ih =>
    by_cases h : a = b
    · simp [distinct, h]
    · simp [distinct, h, ih]

theorem nodup_distinct [DecidableEq α] (as : List α) : (distinct as).Nodup := by
  induction as with
  | nil => exact .nil
  | cons a as ih =>
    refine List.nodup_cons.2 ⟨by simp, ih.filter _⟩

theorem distinct_of_nodup [DecidableEq α] {as : List α} (h : as.Nodup) : distinct as = as := by
  induction as with
  | nil => rfl
  | cons a as ih =>
    obtain ⟨hnot, htail⟩ := List.nodup_cons.1 h
    rw [distinct, ih htail, List.filter_eq_self.2]
    intro b hb
    have hne : b ≠ a := fun he => hnot (he ▸ hb)
    simpa using hne

end MessageDepot
