import MessageDepot.Json.Value
import MessageDepot.Proofs.JsonNumber

/-!
# What is passed over as a value

The grammar of JSON values and of what stands within brackets, as one family (`IsPhrase`): a value,
or the items of a list or an object. Strings in it are loose and numbers are of any size, so it
takes in all of JSON. The reader that passes over values keeps the open brackets in a list and goes
from value to value in steps; a phrase is passed over in at most as many steps as it has bytes,
whatever brackets are open and whatever fuel is left for what follows (`IsSkipped`).

Results:
* `IsPhrase.isSkipped`: the induction on phrases.
* `skipValue_append`: every value is passed over up to its end.
-/
namespace MessageDepot.Json

/-! ## Grammar -/

/-- The byte that opens a bracket. -/
def Bracket.opening : Bracket → UInt8
  | list => 0x5b
  | object => 0x7b

/-- The bytes of `null`, `true` and `false`. -/
def literals : List Bytes :=
  [[0x6e, 0x75, 0x6c, 0x6c], [0x74, 0x72, 0x75, 0x65], [0x66, 0x61, 0x6c, 0x73, 0x65]]

/-- What stands before a value within a bracket: space, and in an object a name and a colon. -/
inductive IsLead : Bracket → Bytes → Prop where
  | list {s : Bytes} : IsSpaces s → IsLead .list s
  | object {s name t u : Bytes} : IsSpaces s → IsLoose name → IsSpaces t → IsSpaces u →
    IsLead .object (s ++ 0x22 :: name ++ 0x22 :: t ++ 0x3a :: u)

/-- Bytes are a value, or one or more items within a bracket, with commas between them and with
space where there may be space. -/
inductive IsPhrase : Option Bracket → Bytes → Prop where
  | literal {b : Bytes} : b ∈ literals → IsPhrase none b
  | number {b : Bytes} : IsNumber b → IsPhrase none b
  | string {b : Bytes} : IsLoose b → IsPhrase none (0x22 :: b ++ [0x22])
  | empty {s : Bytes} (br : Bracket) : IsSpaces s → IsPhrase none (br.opening :: s ++ [br.closing])
  | bracket {br : Bracket} {b : Bytes} : IsPhrase (some br) b →
    IsPhrase none (br.opening :: b ++ [br.closing])
  | last {br : Bracket} {lead v s : Bytes} : IsLead br lead → IsPhrase none v → IsSpaces s →
    IsPhrase (some br) (lead ++ v ++ s)
  | more {br : Bracket} {lead v s rest : Bytes} : IsLead br lead → IsPhrase none v → IsSpaces s →
    IsPhrase (some br) rest → IsPhrase (some br) (lead ++ v ++ s ++ 0x2c :: rest)

/-- Bytes are a value of any kind and depth. -/
def IsValue (b : Bytes) : Prop := IsPhrase none b

/-! ## Space and ends -/

theorem skipSpace_skipSpace (b : Bytes) : skipSpace (skipSpace b) = skipSpace b := by
  induction b with
  | nil => rfl
  | cons x b ih =>
    by_cases hx : isSpace x = true
    · have hskip : skipSpace (x :: b) = skipSpace b := List.dropWhile_cons_of_pos hx
      rw [hskip, ih]
    · rw [skipSpace_cons (by simpa using hx), skipSpace_cons (by simpa using hx)]

theorem stops_append {s rest : Bytes} (hs : IsSpaces s) (hr : Stops rest) : Stops (s ++ rest) := by
  cases s with
  | nil => exact hr
  | cons x s =>
    rintro c ⟨rfl⟩
    have hx := hs x (by simp)
    simp only [isSpace, Bool.or_eq_true, decide_eq_true_eq] at hx
    rcases hx with ((rfl | rfl) | rfl) | rfl <;> decide

theorem stops_nil : Stops [] := by simp [Stops]

theorem stops_spaces {s : Bytes} (hs : IsSpaces s) : Stops s := by
  have hstops := stops_append hs stops_nil
  rwa [List.append_nil] at hstops

theorem stops_comma (rest : Bytes) : Stops (0x2c :: rest) := by
  rintro c ⟨rfl⟩
  decide

theorem stops_closing (br : Bracket) (rest : Bytes) : Stops (br.closing :: rest) := by
  rintro c ⟨rfl⟩
  cases br <;> decide

/-- The first byte of a number is no first byte of anything else. -/
theorem number_head {c : UInt8} (h : c = 0x2d ∨ isDigit c = true) :
    isSpace c = false ∧ c ≠ 0x5d ∧ c ≠ 0x22 ∧ opening? c = none ∧ literalTail? c = none := by
  have hnat : 45 ≤ c.toNat ∧ c.toNat ≤ 57 := by
    rcases h with rfl | h
    · decide
    · simp only [isDigit, Bool.and_eq_true, decide_eq_true_eq, UInt8.le_iff_toNat_le] at h
      exact ⟨Nat.le_trans (by decide) h.1, h.2⟩
  have hall : ∀ n < 58, 45 ≤ n → isSpace n.toUInt8 = false ∧ n.toUInt8 ≠ 0x5d ∧ n.toUInt8 ≠ 0x22 ∧
      opening? n.toUInt8 = none ∧ literalTail? n.toUInt8 = none := by decide
  have hc := hall c.toNat (by omega) hnat.1
  rwa [Nat.toUInt8_eq, UInt8.ofNat_toNat] at hc

/-- A value starts with a byte that is no space and closes no list. -/
theorem IsPhrase.exists_head {v : Bytes} (h : IsPhrase none v) :
    ∃ c t, v = c :: t ∧ isSpace c = false ∧ c ≠ 0x5d := by
  cases h with
  | literal hb =>
    simp only [literals, List.mem_cons, List.not_mem_nil, or_false] at hb
    rcases hb with rfl | rfl | rfl <;> exact ⟨_, _, rfl, rfl, by decide⟩
  | number hn =>
    obtain ⟨c, t, rfl, hc⟩ := hn.exists_head
    obtain ⟨hspace, hclosing, -⟩ := number_head hc
    exact ⟨c, t, rfl, hspace, hclosing⟩
  | string => exact ⟨_, _, rfl, rfl, by decide⟩
  | empty br => cases br <;> exact ⟨_, _, rfl, rfl, by decide⟩
  | @bracket br => cases br <;> exact ⟨_, _, rfl, rfl, by decide⟩

/-! ## Steps -/

/-- What is left to do after a step. -/
def goOn (fuel : Nat) : Except Fault (List Bracket × Bytes) → Except Fault Bytes
  | .error f => .error f
  | .ok ([], rest) => .ok rest
  | .ok (br :: outer, rest) => skipOpen fuel (br :: outer) rest

theorem skipOpen_succ (fuel : Nat) (outer : List Bracket) (b : Bytes) :
    skipOpen (fuel + 1) outer b = goOn fuel (skipStep outer b) := by
  rw [skipOpen]
  split <;> rename_i h <;> rw [h]
  · rfl
  · rfl
  · rename_i o r hne
    cases o with
    | nil => exact absurd rfl hne
    | cons => rfl

theorem skipOpen_congr {b b' : Bytes} (h : skipSpace b = skipSpace b') (fuel : Nat)
    (outer : List Bracket) : skipOpen fuel outer b = skipOpen fuel outer b' := by
  cases fuel with
  | zero => rfl
  | succ fuel => rw [skipOpen_succ, skipOpen_succ, skipStep, skipStep, h]

theorem isSpace_closing (br : Bracket) : isSpace br.closing = false := by
  cases br <;> rfl

theorem resume_closing {s : Bytes} (hs : IsSpaces s) (br : Bracket) (outer : List Bracket)
    (rest : Bytes) : resume (br :: outer) (s ++ br.closing :: rest) = resume outer rest := by
  have hcomma : br.closing ≠ 0x2c := by cases br <;> decide
  rw [resume, skipSpace_append hs, skipSpace_cons (isSpace_closing br)]
  simp only [if_neg hcomma, if_pos]

theorem resume_comma {s rest r : Bytes} (hs : IsSpaces s) {br : Bracket} (outer : List Bracket)
    (h : enter br rest = .ok r) :
    resume (br :: outer) (s ++ 0x2c :: rest) = .ok (br :: outer, r) := by
  rw [resume, skipSpace_append hs, skipSpace_cons rfl]
  simp only [if_pos, h]

theorem enter_lead {br : Bracket} {lead : Bytes} (h : IsLead br lead) :
    ∃ s, IsSpaces s ∧ ∀ rest, enter br (lead ++ rest) = .ok (s ++ rest) := by
  cases h with
  | list hs => exact ⟨_, hs, fun rest => rfl⟩
  | @object s name t u hs hname ht hu =>
    refine ⟨u, hu, fun rest => ?_⟩
    simp only [List.append_assoc, List.cons_append, enter]
    rw [skipName, readMark_append rfl hs]
    simp only [skipString_loose hname]
    exact readMark_append rfl ht _

/-- Space in front of the first item may be passed over before the item is entered. -/
theorem enter_skipSpace {br : Bracket} {b r : Bytes} (h : enter br b = .ok r) :
    ∃ r', enter br (skipSpace b) = .ok r' ∧ skipSpace r' = skipSpace r := by
  cases br with
  | list =>
    cases h
    exact ⟨skipSpace b, rfl, skipSpace_skipSpace b⟩
  | object =>
    refine ⟨r, ?_, rfl⟩
    rw [← h, enter, enter, skipName, skipName, readMark, readMark, skipSpace_skipSpace]

theorem IsLead.exists_head {br : Bracket} {lead v : Bytes} (h : IsLead br lead)
    (hv : IsPhrase none v) (rest : Bytes) :
    ∃ d after, skipSpace (lead ++ (v ++ rest)) = d :: after ∧ d ≠ br.closing := by
  cases h with
  | list hs =>
    obtain ⟨c, t, rfl, hspace, hc⟩ := hv.exists_head
    exact ⟨c, t ++ rest, by rw [skipSpace_append hs, List.cons_append, skipSpace_cons hspace], hc⟩
  | object hs =>
    simp only [List.append_assoc, List.cons_append, skipSpace_append hs]
    exact ⟨0x22, _, skipSpace_cons rfl _, by decide⟩

/-! ## Phrases -/

theorem readLiteral_append (es rest : Bytes) : readLiteral es (es ++ rest) = .ok rest := by
  induction es with
  | nil => rfl
  | cons e es ih =>
    rw [List.cons_append, readLiteral, if_pos rfl]
    exact ih

/-- A value is passed over and then what is open is resumed; the items of a bracket are entered and
passed over, and the bracket is closed. It takes as many steps as there are bytes, or fewer. -/
def IsSkipped : Option Bracket → Bytes → Prop
  | none, b => ∀ outer rest, Stops rest → ∃ k ≤ b.length, ∀ fuel,
    skipOpen (fuel + k) outer (b ++ rest) = goOn fuel (resume outer rest)
  | some br, b => ∀ outer rest, ∃ k ≤ b.length, ∃ r, enter br (b ++ br.closing :: rest) = .ok r ∧
    ∀ fuel, skipOpen (fuel + k) (br :: outer) r = goOn fuel (resume outer rest)

/-- A value without brackets takes one step. -/
theorem isSkipped_scalar {c : UInt8} {b : Bytes} (hspace : isSpace c = false)
    (hopening : opening? c = none) (h : ∀ rest, Stops rest → skipScalar c (b ++ rest) = .ok rest) :
    IsSkipped none (c :: b) := by
  intro outer rest hr
  refine ⟨1, by simp, fun fuel => ?_⟩
  rw [skipOpen_succ, List.cons_append, skipStep, skipSpace_cons hspace]
  simp only [hopening, h rest hr]

theorem isSkipped_literal {b : Bytes} (h : b ∈ literals) : IsSkipped none b := by
  simp only [literals, List.mem_cons, List.not_mem_nil, or_false] at h
  rcases h with rfl | rfl | rfl <;>
    exact isSkipped_scalar rfl rfl fun rest _ => readLiteral_append _ rest

theorem isSkipped_number {b : Bytes} (h : IsNumber b) : IsSkipped none b := by
  obtain ⟨c, t, rfl, hc⟩ := h.exists_head
  obtain ⟨hspace, -, hquote, hopening, hliteral⟩ := number_head hc
  refine isSkipped_scalar hspace hopening fun rest hr => ?_
  rw [skipScalar, hliteral]
  simp only [if_neg hquote, if_pos hc]
  exact skipNumber_append h hr

theorem isSkipped_string {b : Bytes} (h : IsLoose b) : IsSkipped none (0x22 :: b ++ [0x22]) := by
  refine isSkipped_scalar rfl rfl fun rest _ => ?_
  have hend : (b ++ [0x22]) ++ rest = b ++ 0x22 :: rest := by simp
  exact (congrArg skipString hend).trans (skipString_loose h rest)

theorem opening?_opening (br : Bracket) : opening? br.opening = some br := by
  cases br <;> rfl

theorem isSpace_opening (br : Bracket) : isSpace br.opening = false := by
  cases br <;> rfl

theorem isSkipped_empty (br : Bracket) {s : Bytes} (hs : IsSpaces s) :
    IsSkipped none (br.opening :: s ++ [br.closing]) := by
  intro outer rest _
  refine ⟨1, by simp, fun fuel => ?_⟩
  have hclosing : skipSpace (s ++ br.closing :: rest) = br.closing :: rest := by
    rw [skipSpace_append hs, skipSpace_cons (isSpace_closing br)]
  rw [skipOpen_succ, List.append_assoc, List.cons_append, List.singleton_append, skipStep,
    skipSpace_cons (isSpace_opening br)]
  simp only [opening?_opening, hclosing, if_pos]

/-- The opening bracket is one step more. -/
theorem isSkipped_bracket {br : Bracket} {b : Bytes} (hb : IsPhrase (some br) b)
    (h : IsSkipped (some br) b) : IsSkipped none (br.opening :: b ++ [br.closing]) := by
  intro outer rest _
  obtain ⟨k, hk, r, henter, hskip⟩ := h outer rest
  obtain ⟨r', henter', hspace⟩ := enter_skipSpace henter
  obtain ⟨d, after, hhead, hd⟩ : ∃ d after,
      skipSpace (b ++ br.closing :: rest) = d :: after ∧ d ≠ br.closing := by
    cases hb with
    | last hl hv =>
      simp only [List.append_assoc]
      exact hl.exists_head hv _
    | more hl hv =>
      simp only [List.append_assoc]
      exact hl.exists_head hv _
  refine ⟨k + 1, by simp; omega, fun fuel => ?_⟩
  rw [hhead] at henter'
  rw [← Nat.add_assoc, skipOpen_succ, List.append_assoc, List.cons_append, List.singleton_append,
    skipStep, skipSpace_cons (isSpace_opening br)]
  simp only [opening?_opening, hhead, if_neg hd, henter']
  rw [← hskip]
  exact skipOpen_congr hspace _ _

theorem isSkipped_last {br : Bracket} {lead v s : Bytes} (hl : IsLead br lead)
    (hv : IsSkipped none v) (hs : IsSpaces s) : IsSkipped (some br) (lead ++ v ++ s) := by
  intro outer rest
  obtain ⟨u, hu, henter⟩ := enter_lead hl
  obtain ⟨k, hk, hskip⟩ := hv (br :: outer) (s ++ br.closing :: rest)
    (stops_append hs (stops_closing br rest))
  refine ⟨k, by simp only [List.length_append]; omega, u ++ (v ++ (s ++ br.closing :: rest)), ?_,
    fun fuel => ?_⟩
  · simp only [List.append_assoc]
    exact henter _
  · rw [skipOpen_congr (skipSpace_append hu _), hskip, resume_closing hs]

/-- The steps of the first item, and then those of the others. -/
theorem isSkipped_more {br : Bracket} {lead v s b : Bytes} (hl : IsLead br lead)
    (hv : IsSkipped none v) (hs : IsSpaces s) (hb : IsSkipped (some br) b) :
    IsSkipped (some br) (lead ++ v ++ s ++ 0x2c :: b) := by
  intro outer rest
  obtain ⟨u, hu, henter⟩ := enter_lead hl
  obtain ⟨k, hk, r, henter', hskip⟩ := hb outer rest
  obtain ⟨j, hj, hfirst⟩ := hv (br :: outer) (s ++ 0x2c :: (b ++ br.closing :: rest))
    (stops_append hs (stops_comma _))
  refine ⟨k + j, by simp only [List.length_append, List.length_cons]; omega,
    u ++ (v ++ (s ++ 0x2c :: (b ++ br.closing :: rest))), ?_, fun fuel => ?_⟩
  · simp only [List.append_assoc, List.cons_append]
    exact henter _
  · rw [skipOpen_congr (skipSpace_append hu _), ← Nat.add_assoc, hfirst,
      resume_comma hs outer henter']
    exact hskip fuel

theorem IsPhrase.isSkipped {o : Option Bracket} {b : Bytes} (h : IsPhrase o b) : IsSkipped o b := by
  induction h with
  | literal hb => exact isSkipped_literal hb
  | number hb => exact isSkipped_number hb
  | string hb => exact isSkipped_string hb
  | empty br hs => exact isSkipped_empty br hs
  | bracket hb ih => exact isSkipped_bracket hb ih
  | last hl _ hs ih => exact isSkipped_last hl ih hs
  | more hl _ hs _ ihv ihb => exact isSkipped_more hl ihv hs ihb

/-- A value of any kind and depth is passed over up to its end. -/
theorem skipValue_append {s v rest : Bytes} (hs : IsSpaces s) (hv : IsValue v) (hr : Stops rest) :
    skipValue (s ++ (v ++ rest)) = .ok rest := by
  have hphrase : IsPhrase none v := hv
  obtain ⟨k, hk, hskip⟩ := hphrase.isSkipped [] rest hr
  have hfuel : (s ++ (v ++ rest)).length + 1 = (s ++ (v ++ rest)).length + 1 - k + k := by
    simp only [List.length_append]
    omega
  rw [skipValue, skipOpen_congr (skipSpace_append hs _), hfuel, hskip]
  rfl

end MessageDepot.Json
