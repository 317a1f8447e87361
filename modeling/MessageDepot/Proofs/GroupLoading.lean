import Mathlib.Data.List.Forall2
import MessageDepot.Proofs.StableSort
import MessageDepot.Store.Relational

/-!
# Loading a group from any rows

Three reads with three filters make up a group: the unmarked rows in their order, the marked rows,
and the least clock of all rows of the key, those with another mark or with none included. Nothing
is assumed of the rows here: they may repeat, lack a clock, a mark or a stored form, or hold bytes
that are no message. A load then has four outcomes that exclude each other (`Loads`), and it yields
every listed row or none.

Results:
* `mapM_eq_ok_iff`, `mapM_eq_error`: reading all elements of a list, or failing at one.
* `createdBefore_total`, `createdBefore_trans`: unmarked rows have an order, so they are in it.
* `loads`: how a load turns out.
* `getGroup_of_content`: which of the outcomes it is, by the rows alone.
-/
namespace MessageDepot

/-! ## Reading the elements of a list -/

section
variable {α β ε : Type} {f : α → Except ε β}

theorem mapM_eq_ok_iff {as : List α} : ∀ {bs : List β},
    as.mapM f = .ok bs ↔ List.Forall₂ (fun a b => f a = .ok b) as bs := by
  induction as with
  | nil => intro bs; cases bs <;> simp [pure, Except.pure]
  | cons a as ih =>
    intro bs
    rw [List.mapM_cons]
    cases ha : f a with
    | error e => cases bs <;> simp [bind, Except.bind, ha]
    | ok b =>
      cases has : as.mapM f with
      | error e => cases bs <;> simp [bind, Except.bind, ha, ← ih, has]
      | ok bs' => cases bs <;> simp [bind, Except.bind, pure, Except.pure, ha, ← ih, has]

/-- What fails fails at the first element that does. -/
theorem mapM_eq_error {e : ε} : ∀ {as : List α}, as.mapM f = .error e →
    ∃ before a after, as = before ++ a :: after ∧ (∀ x ∈ before, ∃ b, f x = .ok b) ∧
      f a = .error e
  | [], h => by cases h
  | a :: as, h => by
    rw [List.mapM_cons] at h
    cases ha : f a with
    | error e' =>
      rw [ha] at h
      cases h
      exact ⟨[], a, as, rfl, by simp, ha⟩
    | ok b =>
      cases has : as.mapM f with
      | error e' =>
        rw [ha, has] at h
        cases h
        obtain ⟨before, x, after, rfl, hread, hx⟩ := mapM_eq_error has
        refine ⟨a :: before, x, after, rfl, fun y hy => ?_, hx⟩
        rcases List.mem_cons.1 hy with rfl | hy
        · exact ⟨b, ha⟩
        · exact hread y hy
      | ok bs =>
        rw [ha, has] at h
        cases h

theorem exists_of_forall₂ {r : α → β → Prop} {as : List α} {bs : List β}
    (h : List.Forall₂ r as bs) {a : α} (ha : a ∈ as) : ∃ b ∈ bs, r a b := by
  induction h with
  | nil => cases ha
  | @cons x y xs ys hxy _ ih =>
    rcases List.mem_cons.1 ha with rfl | ha
    · exact ⟨y, by simp, hxy⟩
    · obtain ⟨b, hb, hab⟩ := ih ha
      exact ⟨b, by simp [hb], hab⟩

end

namespace Sql.Store

section
variable (s : Store) (g : Uuid)

/-! ## Rows of a group -/

def isUnmarked (r : MemberRow) : Bool := s.inGroup g r && r.marked = some 0

def isMarked (r : MemberRow) : Bool := s.inGroup g r && r.marked = some 1

/-- Whether a row is a member of the group when it is loaded: rows of the group with another mark,
or with none, are passed over. -/
def isListed (r : MemberRow) : Bool := s.isUnmarked g r || s.isMarked g r

/-- No row of the group has a clock, however it is marked. -/
def IsUndated (t : MemberTable) : Prop := ∀ r ∈ t.rows, s.inGroup g r → r.createdDate = none

/-- The stored form of a row is that of a message; a missing one is read as no bytes. -/
def Yields (r : MemberRow) (m : Message) : Prop := s.codec.decode (r.bytes.getD []) = .ok m

/-- The stored form of a row cannot be read. -/
def Fails (r : MemberRow) (c : DecodeError) : Prop := s.codec.decode (r.bytes.getD []) = .error c

/-- The cause for which a load gives up: that of the first unmarked row that cannot be read, by
clock and then by row number, or else that of a marked one. -/
inductive GivesUp (t : MemberTable) (c : DecodeError) : Prop where
  | unmarked {e : Nat × MemberRow} (mem : e ∈ t.entries) (isUnmarked : s.isUnmarked g e.2)
      (fails : s.Fails e.2 c) (first : ∀ f ∈ t.entries, s.isUnmarked g f.2 →
        ∀ c', s.Fails f.2 c' → createdBefore e f)
  | marked (whole : ∀ r ∈ t.rows, s.isUnmarked g r → ∃ m, s.Yields r m) {r : MemberRow}
      (mem : r ∈ t.rows) (isMarked : s.isMarked g r) (fails : s.Fails r c)

/-- A group has one member for each listed row, the unmarked ones in their order, and the least
clock of all rows of its key. -/
structure Gathers (t : MemberTable) (G : Group) : Prop where
  id : G.id = g
  unmarked : ∃ es : List (Nat × MemberRow), es.Perm (t.entries.filter fun e => s.isUnmarked g e.2) ∧
    (es.Pairwise fun e f => createdBefore e f) ∧
      List.Forall₂ (fun e m => s.Yields e.2 m) es G.unmarked
  marked : List.Forall₂ s.Yields (t.rows.filter (s.isMarked g)) G.marked
  timestamp : ∃ clock, G.timestamp = some clock ∧
    (∃ r ∈ t.rows, s.inGroup g r ∧ r.createdDate = some clock) ∧
      ∀ r ∈ t.rows, s.inGroup g r → ∀ c, r.createdDate = some c → clock ≤ c

/-- How a load of a group turns out. -/
inductive Loads (t : MemberTable) : Except Error Group → Prop where
  | empty (none : ∀ r ∈ t.rows, s.isListed g r = false) : Loads t (.ok (Group.empty g))
  | undated (listed : ∃ r ∈ t.rows, s.isListed g r) (undated : s.IsUndated g t) :
      Loads t (.error (.consistency g.text))
  | unreadable (listed : ∃ r ∈ t.rows, s.isListed g r) (dated : ¬s.IsUndated g t) {c : DecodeError}
      (givesUp : s.GivesUp g t c) : Loads t (.error (.decode c))
  | whole (listed : ∃ r ∈ t.rows, s.isListed g r) {G : Group} (gathers : s.Gathers g t G) :
      Loads t (.ok G)

end

variable {s : Store} {g : Uuid} {t : MemberTable}

theorem Yields.not_fails {r : MemberRow} {m : Message} {c : DecodeError} (h : s.Yields r m) :
    ¬s.Fails r c := by
  unfold Yields at h
  unfold Fails
  rw [h]
  simp

/-- What gives up found a listed row that cannot be read. -/
theorem GivesUp.exists_fails {c : DecodeError} (h : s.GivesUp g t c) :
    ∃ r ∈ t.rows, s.isListed g r ∧ s.Fails r c := by
  cases h with
  | @unmarked e mem hu fails _ =>
    exact ⟨e.2, List.mem_map_of_mem mem, by simp [isListed, hu], fails⟩
  | @marked _ r mem hm fails => exact ⟨r, mem, by simp [isListed, hm], fails⟩

namespace Gathers

variable {G : Group} (h : s.Gathers g t G)
include h

theorem dated : ¬s.IsUndated g t := by
  obtain ⟨clock, -, ⟨r, hr, hg, hclock⟩, -⟩ := h.timestamp
  intro undated
  rw [undated r hr hg] at hclock
  cases hclock

theorem yields {r : MemberRow} (hr : r ∈ t.rows) (hl : s.isListed g r) : ∃ m, s.Yields r m := by
  rw [isListed, Bool.or_eq_true] at hl
  rcases hl with hu | hm
  · obtain ⟨es, hperm, -, hread⟩ := h.unmarked
    obtain ⟨e, he, rfl⟩ := List.mem_map.1 hr
    obtain ⟨m, -, hm⟩ := exists_of_forall₂ hread (hperm.mem_iff.2 (List.mem_filter.2 ⟨he, hu⟩))
    exact ⟨m, hm⟩
  · obtain ⟨m, -, hm⟩ := exists_of_forall₂ h.marked (List.mem_filter.2 ⟨hr, hm⟩)
    exact ⟨m, hm⟩

theorem size_eq : G.size = (t.rows.filter (s.isListed g)).length := by
  obtain ⟨es, hperm, -, hunmarked⟩ := h.unmarked
  have hrows : (t.entries.filter fun e => s.isUnmarked g e.2).length =
      (t.rows.filter (s.isUnmarked g)).length := by
    rw [MemberTable.rows, List.filter_map, List.length_map]
    rfl
  -- no row is both, so the listed rows are counted one by one
  have hsplit (rows : List MemberRow) : (rows.filter (s.isListed g)).length =
      (rows.filter (s.isUnmarked g)).length + (rows.filter (s.isMarked g)).length := by
    simp only [← List.countP_eq_length_filter]
    induction rows with
    | nil => rfl
    | cons r rows ih =>
      simp only [List.countP_cons, ih, isListed, isUnmarked, isMarked]
      by_cases h0 : r.marked = some 0
      · simp [h0]; omega
      · by_cases h1 : r.marked = some 1
        · simp [h1]; omega
        · simp [h0, h1]
  rw [Group.size, ← hunmarked.length_eq, hperm.length_eq, hrows, ← h.marked.length_eq, hsplit]

theorem ne_empty (listed : ∃ r ∈ t.rows, s.isListed g r) : G ≠ Group.empty g := by
  rintro rfl
  obtain ⟨r, hr, hl⟩ := listed
  have hnone : (t.rows.filter (s.isListed g)).length = 0 := h.size_eq.symm
  exact List.filter_eq_nil_iff.1 (List.length_eq_zero_iff.1 hnone) r hr hl

end Gathers

/-! ## The three reads -/

theorem createdBefore_total (a b : Nat × MemberRow) : createdBefore a b ∨ createdBefore b a := by
  unfold createdBefore
  cases a.2.createdDate with
  | none =>
    cases b.2.createdDate with
    | none => simpa using Nat.le_total a.1 b.1
    | some y => simp
  | some x =>
    cases b.2.createdDate with
    | none => simp
    | some y =>
      simp only [Bool.or_eq_true, Bool.and_eq_true, decide_eq_true_eq]
      rcases Int64.le_total x y with h | h <;> rcases Int64.le_iff_lt_or_eq.1 h with h | rfl
      · exact .inl (.inl h)
      · exact (Nat.le_total a.1 b.1).imp (fun h => .inr ⟨rfl, h⟩) fun h => .inr ⟨rfl, h⟩
      · exact .inr (.inl h)
      · exact (Nat.le_total a.1 b.1).imp (fun h => .inr ⟨rfl, h⟩) fun h => .inr ⟨rfl, h⟩

theorem createdBefore_trans (a b c : Nat × MemberRow) (hab : createdBefore a b)
    (hbc : createdBefore b c) : createdBefore a c := by
  unfold createdBefore at *
  cases ha : a.2.createdDate <;> cases hb : b.2.createdDate <;> cases hc : c.2.createdDate <;>
    simp only [ha, hb, hc, Bool.or_eq_true, Bool.and_eq_true, decide_eq_true_eq,
      Bool.false_eq_true] at *
  · omega
  · rcases hab with hab | ⟨rfl, hab⟩ <;> rcases hbc with hbc | ⟨rfl, hbc⟩
    · exact .inl (Int64.lt_trans hab hbc)
    · exact .inl hab
    · exact .inl hbc
    · exact .inr ⟨rfl, Nat.le_trans hab hbc⟩

theorem mem_markedRows {r : MemberRow} :
    r ∈ s.markedRows g t ↔ r ∈ t.rows ∧ s.isMarked g r = true :=
  List.mem_filter

theorem unmarkedRows_eq_map : ∃ es : List (Nat × MemberRow), s.unmarkedRows g t = es.map (·.2) ∧
    es.Perm (t.entries.filter fun e => s.isUnmarked g e.2) ∧
      es.Pairwise fun e f => createdBefore e f :=
  ⟨_, rfl, sort_perm _ _, pairwise_sort createdBefore_total createdBefore_trans _⟩

theorem mem_unmarkedRows {r : MemberRow} :
    r ∈ s.unmarkedRows g t ↔ r ∈ t.rows ∧ s.isUnmarked g r = true := by
  obtain ⟨es, hes, hperm, -⟩ := unmarkedRows_eq_map (s := s) (g := g) (t := t)
  simp only [hes, List.mem_map, hperm.mem_iff, List.mem_filter, MemberTable.rows]
  constructor
  · rintro ⟨e, ⟨he, hu⟩, rfl⟩
    exact ⟨⟨e, he, rfl⟩, hu⟩
  · rintro ⟨⟨e, he, rfl⟩, hu⟩
    exact ⟨e, ⟨he, hu⟩, rfl⟩

theorem markedRows_unmarkedRows_eq_nil_iff : s.markedRows g t = [] ∧ s.unmarkedRows g t = [] ↔
    ∀ r ∈ t.rows, s.isListed g r = false := by
  simp only [List.eq_nil_iff_forall_not_mem, mem_markedRows, mem_unmarkedRows, isListed,
    Bool.or_eq_false_iff]
  grind

theorem oldest?_eq_none_iff : s.oldest? g t = none ↔ s.IsUndated g t := by
  simp [oldest?, IsUndated, List.filterMap_eq_nil_iff]

theorem oldest?_eq_some_iff {clock : Int64} : s.oldest? g t = some clock ↔
    (∃ r ∈ t.rows, s.inGroup g r ∧ r.createdDate = some clock) ∧
      ∀ r ∈ t.rows, s.inGroup g r → ∀ c, r.createdDate = some c → clock ≤ c := by
  rw [oldest?, List.min?_eq_some_iff]
  simp only [List.mem_filterMap, List.mem_filter]
  grind

theorem decodeBytes_eq_ok_iff {r : MemberRow} {m : Message} :
    s.decodeBytes r.bytes = .ok m ↔ s.Yields r m := by
  unfold decodeBytes Yields
  cases s.codec.decode (r.bytes.getD []) <;> simp [Except.mapError]

theorem fails_of_decodeBytes {r : MemberRow} {e : Error} (h : s.decodeBytes r.bytes = .error e) :
    ∃ c, e = .decode c ∧ s.Fails r c := by
  unfold decodeBytes at h
  unfold Fails
  cases hd : s.codec.decode (r.bytes.getD []) with
  | error c => rw [hd] at h; cases h; exact ⟨c, rfl, rfl⟩
  | ok m => rw [hd] at h; cases h

/-- An unmarked row that ends the load is the first that does: those in front of it were read. -/
theorem givesUp_of_unmarked {e : Error} (h : s.decodeRows (s.unmarkedRows g t) = .error e) :
    ∃ c, e = .decode c ∧ s.GivesUp g t c := by
  obtain ⟨es, hes, hperm, hsorted⟩ := unmarkedRows_eq_map (s := s) (g := g) (t := t)
  obtain ⟨before, r, after, hsplit, hread, hr⟩ := mapM_eq_error h
  obtain ⟨c, rfl, hfails⟩ := fails_of_decodeBytes hr
  rw [hes] at hsplit
  obtain ⟨front, rest, rfl, rfl, hrest⟩ := List.map_eq_append_iff.1 hsplit
  obtain ⟨x, back, rfl, rfl, rfl⟩ := List.map_eq_cons_iff.1 hrest
  have hmem {f : Nat × MemberRow} : f ∈ front ++ x :: back ↔
      f ∈ t.entries ∧ s.isUnmarked g f.2 = true := by
    rw [hperm.mem_iff, List.mem_filter]
  obtain ⟨hx, hu⟩ := hmem.1 (by simp : x ∈ front ++ x :: back)
  refine ⟨c, rfl, .unmarked hx hu hfails fun f hf huf c' hc' => ?_⟩
  have hf' := hmem.2 ⟨hf, huf⟩
  rw [List.mem_append, List.mem_cons] at hf'
  rcases hf' with hfront | rfl | hback
  · obtain ⟨m, hm⟩ := hread f.2 (List.mem_map_of_mem hfront)
    exact absurd hc' (decodeBytes_eq_ok_iff.1 hm).not_fails
  · exact (createdBefore_total f f).elim id id
  · exact (List.pairwise_cons.1 (List.pairwise_append.1 hsorted).2.1).1 f hback

theorem givesUp_of_marked {unmarked : List Message} {e : Error}
    (hread : s.decodeRows (s.unmarkedRows g t) = .ok unmarked)
    (h : s.decodeRows (s.markedRows g t) = .error e) : ∃ c, e = .decode c ∧ s.GivesUp g t c := by
  obtain ⟨before, r, after, hsplit, -, hr⟩ := mapM_eq_error h
  obtain ⟨c, rfl, hfails⟩ := fails_of_decodeBytes hr
  have hmem : r ∈ s.markedRows g t := by simp [hsplit]
  obtain ⟨hmem, hm⟩ := mem_markedRows.1 hmem
  refine ⟨c, rfl, .marked (fun r' hr' hu => ?_) hmem hm hfails⟩
  obtain ⟨m, -, hm⟩ := exists_of_forall₂ (mapM_eq_ok_iff.1 hread) (mem_unmarkedRows.2 ⟨hr', hu⟩)
  exact ⟨m, decodeBytes_eq_ok_iff.1 hm⟩

theorem gathers_of_read {unmarked marked : List Message} {oldest : Int64}
    (hunmarked : s.decodeRows (s.unmarkedRows g t) = .ok unmarked)
    (hmarked : s.decodeRows (s.markedRows g t) = .ok marked)
    (holdest : s.oldest? g t = some oldest) :
    s.Gathers g t ⟨g, unmarked, marked, some oldest⟩ where
  id := rfl
  unmarked := by
    obtain ⟨es, hes, hperm, hsorted⟩ := unmarkedRows_eq_map (s := s) (g := g) (t := t)
    have hread := mapM_eq_ok_iff.1 hunmarked
    rw [hes, List.forall₂_map_left_iff] at hread
    exact ⟨es, hperm, hsorted, hread.imp fun _ _ h => decodeBytes_eq_ok_iff.1 h⟩
  marked := (mapM_eq_ok_iff.1 hmarked).imp fun _ _ h => decodeBytes_eq_ok_iff.1 h
  timestamp := ⟨oldest, rfl, oldest?_eq_some_iff.1 holdest⟩

/-! ## Loads -/

theorem loads (s : Store) (g : Uuid) (t : MemberTable) : s.Loads g t (s.assemble g t) := by
  unfold assemble
  simp only
  split
  · rename_i hnone
    exact .empty (markedRows_unmarkedRows_eq_nil_iff.1 hnone)
  rename_i hsome
  have listed : ∃ r ∈ t.rows, s.isListed g r := by
    by_contra hall
    exact hsome (markedRows_unmarkedRows_eq_nil_iff.2 fun r hr =>
      Bool.eq_false_iff.2 fun hl => hall ⟨r, hr, hl⟩)
  cases holdest : s.oldest? g t with
  | none => exact .undated listed (oldest?_eq_none_iff.1 holdest)
  | some oldest =>
    have dated : ¬s.IsUndated g t := by
      rw [← oldest?_eq_none_iff, holdest]
      simp
    cases hunmarked : s.decodeRows (s.unmarkedRows g t) with
    | error e =>
      obtain ⟨c, rfl, hc⟩ := givesUp_of_unmarked hunmarked
      exact .unreadable listed dated hc
    | ok unmarked =>
      cases hmarked : s.decodeRows (s.markedRows g t) with
      | error e =>
        obtain ⟨c, rfl, hc⟩ := givesUp_of_marked hunmarked hmarked
        exact .unreadable listed dated hc
      | ok marked => exact .whole listed (gathers_of_read hunmarked hmarked holdest)

theorem getGroup_of_table {db : Database} (ht : db.members? s.tablePrefix = some t) (g : Uuid) :
    s.getGroup g db = s.assemble g t := by
  rw [getGroup, memberTable, ht]

/-- A load of a group from a table with any rows. It answers the empty group just when no row is
listed. Otherwise it reports a group without clock just when no row of the key has one; otherwise it
gives up just when some listed row cannot be read, and then for the first of them; otherwise it
answers a group with all listed rows, in two lists, and with a clock. -/
theorem getGroup_of_content {db : Database} (ht : db.members? s.tablePrefix = some t) (g : Uuid) :
    let x := s.getGroup g db
    (x = .ok (Group.empty g) ↔ ∀ r ∈ t.rows, s.isListed g r = false) ∧
      ((∃ r ∈ t.rows, s.isListed g r) →
        (∀ key, x = .error (.consistency key) ↔ key = g.text ∧ s.IsUndated g t) ∧
          (¬s.IsUndated g t →
            ((∃ c, x = .error (.decode c)) ↔ ∃ r ∈ t.rows, s.isListed g r ∧ ∃ c, s.Fails r c) ∧
            (∀ c, x = .error (.decode c) → s.GivesUp g t c) ∧
            ((∀ r ∈ t.rows, s.isListed g r → ∀ c, ¬s.Fails r c) → ∃ G, x = .ok G ∧
              s.Gathers g t G ∧ G.size = (t.rows.filter (s.isListed g)).length))) := by
  have hsome (listed : ∃ r ∈ t.rows, s.isListed g r) :
      ¬∀ r ∈ t.rows, s.isListed g r = false := by
    obtain ⟨r, hr, hl⟩ := listed
    exact fun none => Bool.eq_false_iff.1 (none r hr) hl
  have h := s.loads g t
  intro x
  rw [← getGroup_of_table ht] at h
  change s.Loads g t x at h
  clear_value x
  cases h with
  | empty none => exact ⟨iff_of_true rfl none, fun listed => absurd none (hsome listed)⟩
  | undated listed undated =>
    refine ⟨iff_of_false (by simp) (hsome listed), fun _ => ⟨fun key => ?_, absurd undated⟩⟩
    simp [undated, eq_comm]
  | @unreadable listed dated c givesUp =>
    obtain ⟨r, hr, hl, hfails⟩ := givesUp.exists_fails
    refine ⟨iff_of_false (by simp) (hsome listed), fun _ => ⟨fun key => by simp [dated],
      fun _ => ⟨iff_of_true ⟨c, rfl⟩ ⟨r, hr, hl, c, hfails⟩, fun c' hc' => ?_, fun hall => ?_⟩⟩⟩
    · cases hc'
      exact givesUp
    · exact absurd hfails (hall r hr hl c)
  | @whole listed G gathers =>
    refine ⟨iff_of_false (fun he => gathers.ne_empty listed (Except.ok.inj he)) (hsome listed),
      fun _ => ⟨fun key => by simp [gathers.dated], fun _ => ⟨iff_of_false (by simp) ?_, ?_, ?_⟩⟩⟩
    · rintro ⟨r, hr, hl, c, hfails⟩
      obtain ⟨m, hm⟩ := gathers.yields hr hl
      exact hm.not_fails hfails
    · intro c hc
      cases hc
    · exact fun _ => ⟨G, rfl, gathers, gathers.size_eq⟩

/-- Rows of a table without keys: two unmarked rows of one message of which the one without clock
has no stored form, a marked row of other bytes, and a row with another mark, which alone has the
least clock. -/
theorem getGroup_of_content_damaged :
    let g := plainSpace
    let row (created marked : Option Int64) (bytes : Option Bytes) : MemberRow :=
      ⟨g.text, g.text, defaultRegion, created, marked, none, bytes⟩
    let t : MemberTable := ⟨false, false, [(1, row (some 7) (some 0) (some [1, 0, 0, 0, 0])),
      (2, row none (some 0) none), (5, row (some 7) (some 1) (some [222, 173])),
      (6, row (some 3) (some 2) (some []))]⟩
    let db : Database := ⟨[(Sql.memberTable defaultTablePrefix, .members t)]⟩
    let s := Store.standard
    db.members? s.tablePrefix = some t ∧ (∃ r ∈ t.rows, s.isListed g r) ∧ ¬s.IsUndated g t ∧
      let x := s.getGroup g db
      (x = .ok (Group.empty g) ↔ ∀ r ∈ t.rows, s.isListed g r = false) ∧
        ((∃ r ∈ t.rows, s.isListed g r) →
          (∀ key, x = .error (.consistency key) ↔ key = g.text ∧ s.IsUndated g t) ∧
            (¬s.IsUndated g t →
              ((∃ c, x = .error (.decode c)) ↔
                ∃ r ∈ t.rows, s.isListed g r ∧ ∃ c, s.Fails r c) ∧
              (∀ c, x = .error (.decode c) → s.GivesUp g t c) ∧
              ((∀ r ∈ t.rows, s.isListed g r → ∀ c, ¬s.Fails r c) → ∃ G, x = .ok G ∧
                s.Gathers g t G ∧ G.size = (t.rows.filter (s.isListed g)).length))) := by
  intro g row t db s
  have ht : db.members? s.tablePrefix = some t := by
    simp [Database.members?, db, s, Store.standard]
  refine ⟨ht, ⟨row none (some 0) none, by simp [t, MemberTable.rows], by simp [isListed, isUnmarked,
    inGroup, row, s, Store.standard]⟩, fun undated => ?_, getGroup_of_content ht g⟩
  have hrow := undated (row (some 3) (some 2) (some [])) (by simp [t, MemberTable.rows])
    (by simp [inGroup, row, s, Store.standard])
  cases hrow

end Sql.Store

end MessageDepot
