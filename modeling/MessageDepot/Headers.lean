/-!
# Headers

Named text values in the order of their names, each name once. Names are ordered by their
UTF-8 bytes, which is the order of their code points.

Results:
* `get?_insert`: an insertion is seen under its own name and nowhere else.
* `ext_get?`: two header maps with the same values are the same map.
-/
namespace MessageDepot

/-- Names with their values, names ascending. -/
structure Headers where
  entries : List (String × String)
  ascending : entries.Pairwise fun a b => a.1 < b.1
  deriving DecidableEq, Repr

namespace Headers

def empty : Headers := ⟨[], .nil⟩

def get? (h : Headers) (name : String) : Option String := h.entries.lookup name

/-- Puts a value under a name, in place of the one that was there. -/
def insertEntry (name value : String) : List (String × String) → List (String × String)
  | [] => [(name, value)]
  | (n, v) :: es =>
    if name < n then (name, value) :: (n, v) :: es
    else if name = n then (name, value) :: es
    else (n, v) :: insertEntry name value es

theorem mem_insertEntry {name value : String} {es : List (String × String)} {e : String × String}
    (h : e ∈ insertEntry name value es) : e = (name, value) ∨ e ∈ es := by
  induction es with
  | nil => simp [insertEntry] at h; exact .inl h
  | cons x xs ih =>
    obtain ⟨n, v⟩ := x
    unfold insertEntry at h
    split at h
    · simpa using h
    · split at h
      · simp at h ⊢; rcases h with h | h
        · exact .inl h
        · exact .inr (.inr h)
      · simp at h ⊢; rcases h with h | h
        · exact .inr (.inl h)
        · rcases ih h with h | h
          · exact .inl h
          · exact .inr (.inr h)

theorem lt_of_not_lt_of_ne {a b : String} (h : ¬ a < b) (n : a ≠ b) : b < a := by
  rcases Std.lt_trichotomy a b with h' | h' | h'
  · exact absurd h' h
  · exact absurd h' n
  · exact h'

theorem ascending_insertEntry (name value : String) {es : List (String × String)}
    (h : es.Pairwise fun a b => a.1 < b.1) :
    (insertEntry name value es).Pairwise fun a b => a.1 < b.1 := by
  induction es with
  | nil => simp [insertEntry]
  | cons x xs ih =>
    obtain ⟨n, v⟩ := x
    rw [List.pairwise_cons] at h
    unfold insertEntry
    split
    · rename_i hlt
      refine .cons ?_ (.cons h.1 h.2)
      intro e he
      rcases List.mem_cons.1 he with rfl | he
      · exact hlt
      · exact String.lt_trans hlt (h.1 e he)
    · split
      · rename_i heq
        exact .cons (fun e he => heq ▸ h.1 e he) h.2
      · rename_i hlt hne
        refine .cons ?_ (ih h.2)
        intro e he
        rcases mem_insertEntry he with rfl | he
        · exact lt_of_not_lt_of_ne hlt hne
        · exact h.1 e he

/-- Puts a value under a name, in place of the one that was there. -/
def insert (h : Headers) (name value : String) : Headers :=
  ⟨insertEntry name value h.entries, ascending_insertEntry name value h.ascending⟩

/-- Inserts pairs in order, so that the last one of a name counts. -/
def insertAll (h : Headers) (pairs : List (String × String)) : Headers :=
  pairs.foldl (fun h p => h.insert p.1 p.2) h

def ofList (pairs : List (String × String)) : Headers := empty.insertAll pairs

theorem lookup_insertEntry (name value name' : String) (es : List (String × String)) :
    (insertEntry name value es).lookup name' =
      if name' = name then some value else es.lookup name' := by
  induction es with
  | nil =>
    rw [insertEntry, List.lookup_cons, List.lookup_nil]
    by_cases h : name' = name
    · simp [h]
    · simp [h, beq_eq_false_iff_ne.2 h]
  | cons x xs ih =>
    obtain ⟨n, v⟩ := x
    unfold insertEntry
    by_cases h : name' = name
    · subst h
      split
      · simp
      · split
        · simp
        · rename_i hne
          simp [List.lookup_cons, ih, beq_eq_false_iff_ne.2 hne]
    · have hb := beq_eq_false_iff_ne.2 h
      split
      · simp [List.lookup_cons, hb]
      · split
        · rename_i e; subst e; simp [List.lookup_cons, hb]
        · simp [List.lookup_cons, ih, h]

@[simp] theorem get?_insert (h : Headers) (name value name' : String) :
    (h.insert name value).get? name' = if name' = name then some value else h.get? name' :=
  lookup_insertEntry name value name' h.entries

/-! ## Extensionality -/

theorem lookup_eq_none_of_lt {name : String} {es : List (String × String)}
    (h : ∀ e ∈ es, name < e.1) : es.lookup name = none := by
  induction es with
  | nil => rfl
  | cons x xs ih =>
    have hx : (name == x.1) = false :=
      beq_eq_false_iff_ne.2 fun e => String.lt_irrefl _ (e ▸ h x (by simp))
    rw [List.lookup_cons, hx]
    exact ih fun e he => h e (by simp [he])

/-- The first name of one list is no later than the first of the other. -/
theorem not_lt_head {n m v w : String} {xs ys : List (String × String)}
    (hy : ((m, w) :: ys).Pairwise fun a b => a.1 < b.1)
    (h : ((n, v) :: xs).lookup n = ((m, w) :: ys).lookup n) : ¬ n < m := by
  intro lt
  have hn : ((m, w) :: ys).lookup n = none := by
    apply lookup_eq_none_of_lt
    intro e he
    rcases List.mem_cons.1 he with rfl | he
    · exact lt
    · exact String.lt_trans lt ((List.pairwise_cons.1 hy).1 e he)
  rw [hn] at h
  simp at h

theorem entries_ext {xs ys : List (String × String)}
    (hx : xs.Pairwise fun a b => a.1 < b.1) (hy : ys.Pairwise fun a b => a.1 < b.1)
    (h : ∀ name, xs.lookup name = ys.lookup name) : xs = ys := by
  induction xs generalizing ys with
  | nil =>
    cases ys with
    | nil => rfl
    | cons y ys =>
      have hn := h y.1
      rw [List.lookup_nil, List.lookup_cons_self] at hn
      cases hn
  | cons x xs ih =>
    obtain ⟨n, v⟩ := x
    cases ys with
    | nil =>
      have hn := h n
      rw [List.lookup_nil, List.lookup_cons_self] at hn
      cases hn
    | cons y ys =>
      obtain ⟨m, w⟩ := y
      have e : n = m := by
        rcases Std.lt_trichotomy n m with lt | e | lt
        · exact absurd lt (not_lt_head hy (h n))
        · exact e
        · exact absurd lt (not_lt_head hx (h m).symm)
      subst e
      have hv := h n
      simp only [List.lookup_cons, BEq.rfl, Option.some.injEq] at hv
      subst hv
      congr 1
      refine ih (List.pairwise_cons.1 hx).2 (List.pairwise_cons.1 hy).2 fun name => ?_
      by_cases hn : name = n
      · subst hn
        rw [lookup_eq_none_of_lt (List.pairwise_cons.1 hx).1,
          lookup_eq_none_of_lt (List.pairwise_cons.1 hy).1]
      · have := h name
        simpa [List.lookup_cons, beq_eq_false_iff_ne.2 hn] using this

theorem ext_get? {g h : Headers} (e : ∀ name, g.get? name = h.get? name) : g = h := by
  have := entries_ext g.ascending h.ascending e
  cases g; cases h; simpa using this

end Headers

end MessageDepot
