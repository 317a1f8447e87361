import MessageDepot.Proofs.QuoteText

/-!
# Torn texts of quotes

A text that ends too soon leaves every reader of it either at the end of the input or, when a number
has lost its last digits or a member only the space behind it, with a value and nothing but space
behind that (`Drained`). In the second case the next thing that is read for is missed instead. So
the beginning of an object that tells a quote is never read as a quote, and no other fault is found
in it: not in half a character, a lone backslash or half a pair of surrogates, nor in a lone minus.

Results:
* `readText_torn`: the text of a string, by induction on its characters.
* `prefix_integerBytes`: the beginnings of an integer are a minus and integers nearer to zero, which
  are of the same type.
* `Tears.drained_spaced`, `drained_readMember`: values and members.
* `readMembers_torn`: the members of an object, by induction on them.
* `ofMessage_torn`: every strict beginning of the payload that was written for a quote.
-/
namespace MessageDepot.Json

open Wire (Row)

/-! ## Torn bytes -/

/-- Bytes are the beginning of others, which go on. -/
def IsTorn (p b : Bytes) : Prop := ∃ t, t ≠ [] ∧ b = p ++ t

section

variable {p a b s : Bytes} {c : UInt8}

theorem isTorn_of_isPrefix (h : p <+: b) (hne : p ≠ b) : IsTorn p b := by
  obtain ⟨t, rfl⟩ := h
  exact ⟨t, fun ht => hne (by rw [ht, List.append_nil]), rfl⟩

theorem isTorn_nil (h : b ≠ []) : IsTorn [] b := ⟨b, h, rfl⟩

theorem IsTorn.isPrefix (h : IsTorn p b) : p <+: b := by
  obtain ⟨t, -, rfl⟩ := h
  exact List.prefix_append p t

theorem IsTorn.length_lt (h : IsTorn p b) : p.length < b.length := by
  obtain ⟨t, hne, rfl⟩ := h
  have hpos := List.length_pos_iff.2 hne
  rw [List.length_append]
  omega

/-- Two pieces one after the other are torn within the first, or behind it within the second. -/
theorem IsTorn.append (h : IsTorn p (a ++ b)) : IsTorn p a ∨ ∃ r, p = a ++ r ∧ IsTorn r b := by
  obtain ⟨t, hne, ht⟩ := h
  rcases List.append_eq_append_iff.1 ht with ⟨r, hp, hb⟩ | ⟨u, ha, hr⟩
  · exact .inr ⟨r, hp, t, hne, hb⟩
  · by_cases hu : u = []
    · rw [hu, List.append_nil] at ha
      rw [hu, List.nil_append] at hr
      exact .inr ⟨[], by rw [ha, List.append_nil], isTorn_nil (hr ▸ hne)⟩
    · exact .inl ⟨u, hu, ha⟩

theorem IsTorn.cons (h : IsTorn p (c :: b)) : p = [] ∨ ∃ r, p = c :: r ∧ IsTorn r b := by
  obtain ⟨t, hne, ht⟩ := h
  cases p with
  | nil => exact .inl rfl
  | cons x r =>
    cases ht
    exact .inr ⟨r, rfl, t, hne, rfl⟩

/-- What stands before a byte is whole, or what is torn stands behind it. -/
theorem IsTorn.append_cons (h : IsTorn p (a ++ c :: b)) :
    p <+: a ∨ ∃ r, p = a ++ c :: r ∧ IsTorn r b := by
  rcases h.append with ha | ⟨r, hp, hr⟩
  · exact .inl ha.isPrefix
  · rcases hr.cons with rfl | ⟨u, rfl, hu⟩
    · rw [hp, List.append_nil]
      exact .inl (List.prefix_refl a)
    · exact .inr ⟨u, hp, hu⟩

theorem IsTorn.concat (h : IsTorn p (a ++ [c])) : p <+: a := by
  rcases h.append_cons with hp | ⟨r, -, hr⟩
  · exact hp
  · exact absurd hr.length_lt (Nat.not_lt_zero _)

theorem isTorn_singleton (h : IsTorn p [c]) : p = [] := List.prefix_nil.1 (IsTorn.concat (a := []) h)

theorem isSpaces_of_isPrefix (hs : IsSpaces s) (h : p <+: s) : IsSpaces p :=
  fun x hx => hs x (h.subset hx)

end

/-! ## Strings -/

theorem readUnit_short {b : Bytes} (h : b.length < 4) : readUnit b = .error .endOfInput := by
  unfold readUnit
  split
  · simp only [List.length_cons] at h
    omega
  · rfl

theorem readEscape_torn_unit {p u : Bytes} {n : Nat} (hu : IsUnit u n)
    (h : IsTorn p (0x75 :: u)) : readEscape p = .error .endOfInput := by
  rcases h.cons with rfl | ⟨r, rfl, hr⟩
  · rfl
  · have hlength := hr.length_lt
    cases hu
    rw [readEscape, if_pos rfl, readUnit_short hlength]

theorem readUnitMark_torn {p v : Bytes} {n : Nat} (hv : IsUnit v n)
    (h : IsTorn p (0x5c :: 0x75 :: v)) :
    readUnitMark p = .error .endOfInput ∨
      ∃ r, readUnitMark p = .ok r ∧ readUnit r = .error .endOfInput := by
  rcases h.cons with rfl | ⟨r, rfl, hr⟩
  · exact .inl rfl
  · rcases hr.cons with rfl | ⟨r', rfl, hr'⟩
    · exact .inl rfl
    · have hlength := hr'.length_lt
      cases hv
      exact .inr ⟨r', rfl, readUnit_short hlength⟩

theorem readEscape_torn_pair {p u v : Bytes} {high low : Nat} (hu : IsUnit u high)
    (hv : IsUnit v low) (hhigh : isHighSurrogate high)
    (h : IsTorn p (0x75 :: u ++ 0x5c :: 0x75 :: v)) : readEscape p = .error .endOfInput := by
  rcases h.append with h | ⟨r, rfl, hr⟩
  · exact readEscape_torn_unit hu h
  · rw [List.cons_append, readEscape, if_pos rfl, readUnit_append hu]
    simp only [isLowSurrogate_eq_false hhigh, hhigh, Bool.false_eq_true, if_false, if_true]
    rcases readUnitMark_torn hv hr with hmark | ⟨r', hmark, hunit⟩
    · simp only [hmark]
    · simp only [hmark, hunit]

theorem readText_nil : readText [] = .error .endOfInput := by
  rw [readText]

theorem readText_fault {b : Bytes} {f : Fault} (h : readEscape b = .error f) :
    readText (0x5c :: b) = .error f := by
  rw [readText, if_neg (by decide), if_pos rfl]
  split
  · rename_i he
    rw [h] at he
    cases he
    rfl
  · rename_i he
    rw [h] at he
    cases he

/-- What is left of a character, plain or escaped, is no other character. -/
theorem readText_torn_char {p b : Bytes} {c : Char} (hc : Spells b c) (h : IsTorn p b) :
    readText p = .error .endOfInput := by
  -- an escape ends too soon right behind its backslash, or where what follows that does
  have hescape {e : Bytes} (h : IsTorn p (0x5c :: e))
      (he : ∀ r, IsTorn r e → readEscape r = .error .endOfInput) :
      readText p = .error .endOfInput := by
    rcases h.cons with rfl | ⟨r, rfl, hr⟩
    · exact readText_nil
    · exact readText_fault (he r hr)
  cases hc with
  | plain hspace hquote hslash =>
    have hplain := readText_plain (b := p) (fun x hx => ?_) []
    · rw [List.append_nil, readText_nil] at hplain
      exact hplain
    · exact plain_of_mem_utf8EncodeChar hspace hquote hslash (h.isPrefix.subset hx)
  | letter =>
    refine hescape h fun r hr => ?_
    rw [isTorn_singleton hr]
    rfl
  | unit hu => exact hescape h fun r hr => readEscape_torn_unit hu hr
  | pair hu hv hhigh => exact hescape h fun r hr => readEscape_torn_pair hu hv hhigh hr

theorem readText_torn {p body : Bytes} {cs : List Char} (hbody : Row Spells body cs)
    (h : IsTorn p (body ++ [0x22])) : readText p = .error .endOfInput := by
  induction hbody generalizing p with
  | nil =>
    rw [isTorn_singleton h]
    exact readText_nil
  | cons hc _ ih =>
    rw [List.append_assoc] at h
    rcases h.append with h | ⟨r, rfl, hr⟩
    · exact readText_torn_char hc h
    · rw [readText_char hc, ih hr]
      rfl

theorem readString_torn {p b : Bytes} {s : String} (hb : IsString (0x22 :: b) s)
    (h : IsTorn p b) : readString p = .error .endOfInput := by
  obtain ⟨body, hbody, he⟩ := hb
  obtain rfl : b = body ++ [0x22] := List.tail_eq_of_cons_eq he
  rw [readString, readText_torn hbody h]

/-! ## Numbers -/

/-- What is left of the digits of a number are the digits of a smaller one. -/
theorem prefix_digitBytes {p : Bytes} {n : Nat} (h : p <+: digitBytes n) (hne : p ≠ []) :
    ∃ m ≤ n, p = digitBytes m ∧ (0 < n → 0 < m) := by
  induction n using Nat.strongRecOn with
  | ind n ih =>
    by_cases h10 : n < 10
    · refine ⟨n, Nat.le_refl n, ?_, id⟩
      rw [digitBytes_of_lt h10] at h ⊢
      exact h.eq_of_length_le (List.length_pos_iff.2 hne)
    · rw [digitBytes_of_le (by omega)] at h
      rcases List.prefix_concat_iff.1 h with rfl | h
      · exact ⟨n, Nat.le_refl n, (digitBytes_of_le (by omega)).symm, id⟩
      · obtain ⟨m, hm, hp, hpos⟩ := ih (n / 10) (by omega) h
        exact ⟨m, by omega, hp, fun _ => hpos (by omega)⟩

end MessageDepot.Json

namespace MessageDepot.Quote

open MessageDepot.Json

/-- A reader has found that the input ends too soon, or has left nothing of it but space. -/
inductive Drained {α : Type} : Except Fault (α × Bytes) → Prop where
  | fault : Drained (.error .endOfInput)
  | taken {a : α} {rest : Bytes} : IsSpaces rest → Drained (.ok (a, rest))

/-! ## Values -/

/-- The beginning of a value, with or without a byte of it, drains a reader, whatever space is in
front of it. -/
structure Tears {α : Type} (read : Bytes → Except Fault (α × Bytes)) (b : Bytes) : Prop where
  ne_nil : b ≠ []
  drained {s p : Bytes} : IsSpaces s → IsTorn p b → Drained (read (s ++ p))

theorem tears_symbol {b : Bytes} {s : String} (h : IsString b s) : Tears readSymbol b := by
  obtain ⟨body, rfl, -⟩ := readString_isString h
  refine ⟨by simp, fun hu hp => ?_⟩
  rw [readSymbol, skipSpace_append hu]
  rcases hp.cons with rfl | ⟨r, rfl, hr⟩
  · exact .fault
  · rw [skipSpace_cons rfl]
    simp only [if_pos, readString_torn h hr]
    exact .fault

/-- What is left of an integer is a lone minus, if it is there, or an integer nearer to zero. -/
theorem prefix_integerBytes {p : Bytes} {i : Int} (h : p <+: integerBytes i) :
    p = [] ∨ p = [0x2d] ∨ ∃ j, min i 0 ≤ j ∧ j ≤ max i 0 ∧ p = integerBytes j := by
  rw [integerBytes_eq] at h
  by_cases hne : p = []
  · exact .inl hne
  by_cases hneg : i < 0
  · rw [if_pos hneg] at h
    obtain ⟨c, r, rfl⟩ := List.exists_cons_of_ne_nil hne
    obtain ⟨rfl, hr⟩ := List.cons_prefix_cons.1 h
    by_cases hr0 : r = []
    · exact .inr (.inl (by rw [hr0]))
    · obtain ⟨m, hm, rfl, hpos⟩ := prefix_digitBytes hr hr0
      refine .inr (.inr ⟨-m, by omega, by omega, ?_⟩)
      rw [integerBytes_eq, if_pos (by omega), Int.natAbs_neg, Int.natAbs_natCast]
      rfl
  · rw [if_neg hneg] at h
    obtain ⟨m, hm, rfl, -⟩ := prefix_digitBytes h hne
    refine .inr (.inr ⟨m, by omega, by omega, ?_⟩)
    rw [integerBytes_eq, if_neg (by omega), Int.natAbs_natCast]
    rfl

theorem tears_integer {α : Type} {accept : Number → Option α} {b : Bytes} {i : Int}
    (h : IsInteger b i)
    (htakes : ∀ j, min i 0 ≤ j → j ≤ max i 0 → ∃ a, Takes (readInteger accept) (integerBytes j) a) :
    Tears (readInteger accept) b := by
  obtain rfl : b = integerBytes i := h
  obtain ⟨c, t, hct, -⟩ := (isNumber_integerBytes i).exists_head
  refine ⟨by simp [hct], fun {s} _ hs hp => ?_⟩
  rcases prefix_integerBytes hp.isPrefix with rfl | rfl | ⟨j, hmin, hmax, rfl⟩
  · rw [readInteger, skipSpace_append hs]
    exact .fault
  · rw [readInteger, skipSpace_append hs, skipSpace_cons rfl]
    exact .fault
  · obtain ⟨a, ha⟩ := htakes j hmin hmax
    have hread := ha s [] hs stops_nil
    rw [List.append_nil] at hread
    rw [hread]
    exact .taken isSpaces_nil

theorem tears_uint32 {b : Bytes} {n : UInt32} (h : IsInteger b n.toNat) :
    Tears (readInteger uint32?) b := by
  refine tears_integer h fun j hmin hmax => ?_
  have hlt := n.toNat_lt
  have hj : j = (UInt32.ofNat j.toNat).toNat := by
    rw [UInt32.toNat_ofNat_of_lt' (by simp only [UInt32.size]; omega)]
    omega
  exact ⟨_, takes_uint32 (congrArg integerBytes hj)⟩

theorem tears_int64 {b : Bytes} {t : Int64} (h : IsInteger b t.toInt) :
    Tears (readInteger int64?) b := by
  refine tears_integer h fun j hmin hmax => ?_
  have hge := t.le_toInt
  have hlt := t.toInt_lt
  have hj : j = (Int64.ofInt j).toInt := by
    rw [Int64.toInt_ofInt_of_le (by omega) (by omega)]
  exact ⟨_, takes_int64 (congrArg integerBytes hj)⟩

/-- A value with space around it may be torn within the space before it, and after it nothing but
space can be left. -/
theorem Tears.drained_spaced {α : Type} {read : Bytes → Except Fault (α × Bytes)} {s v t p : Bytes}
    {a : α} (hv : Tears read v) (htakes : Takes read v a) (hs : IsSpaces s) (ht : IsSpaces t)
    (h : IsTorn p (s ++ (v ++ t))) : Drained (read p) := by
  rcases h.append with h | ⟨r, rfl, hr⟩
  · have hspaces := isSpaces_of_isPrefix hs h.isPrefix
    have hdrained := hv.drained hspaces (isTorn_nil hv.ne_nil)
    rwa [List.append_nil] at hdrained
  · rcases hr.append with hr | ⟨u, rfl, hu⟩
    · exact hv.drained hs hr
    · have hspaces := isSpaces_of_isPrefix ht hu.isPrefix
      rw [htakes s u hs (stops_spaces hspaces)]
      exact .taken hspaces

/-! ## Members -/

theorem drained_readOnce {α : Type} {present : Option α} {d d' : Draft}
    (hadd : Draft.fill present d = .ok d') {read : Bytes → Except Fault (α × Bytes)} {v : Bytes}
    {a : α} (hv : Tears read v) (htakes : Takes read v a) (put : α → Draft) {t s u p : Bytes}
    (ht : IsSpaces t) (hs : IsSpaces s) (hu : IsSpaces u)
    (h : IsTorn p (t ++ 0x3a :: (s ++ (v ++ u)))) : Drained (readOnce present read put p) := by
  have habsent : present.isSome ≠ true := by
    intro hsome
    rw [Draft.fill, if_pos hsome] at hadd
    cases hadd
  rw [readOnce, if_neg habsent]
  rcases h.append_cons with hp | ⟨r, rfl, hr⟩
  · rw [readMark_spaces (isSpaces_of_isPrefix ht hp)]
    exact .fault
  · have hread := hv.drained_spaced htakes hs hu hr
    simp only [@readMark_append 0x3a rfl t ht]
    generalize read r = x at hread
    cases hread with
    | fault => exact .fault
    | taken hrest => exact .taken hrest

theorem drained_readField {name : String} {v : Bytes} {p : Part} (h : IsPart name v p)
    (hp : p ≠ .other) {d d' : Draft} (hadd : d.add p = .ok d') {s t u b : Bytes} (ht : IsSpaces t)
    (hs : IsSpaces s) (hu : IsSpaces u) (hb : IsTorn b (t ++ 0x3a :: (s ++ (v ++ u)))) :
    Drained (readField d name b) := by
  cases h with
  | symbol hv => exact drained_readOnce hadd (tears_symbol hv) (takes_symbol hv) _ ht hs hu hb
  | price hv => exact drained_readOnce hadd (tears_uint32 hv) (takes_uint32 hv) _ ht hs hu hb
  | quantity hv => exact drained_readOnce hadd (tears_uint32 hv) (takes_uint32 hv) _ ht hs hu hb
  | quotedAt hv => exact drained_readOnce hadd (tears_int64 hv) (takes_int64 hv) _ ht hs hu hb
  | other => exact absurd rfl hp

/-- Of a member that is there to some byte, or in full, nothing is left but space. -/
theorem drained_readMember {b x : Bytes} {p : Part} (h : IsMember b p) (hp : p ≠ .other)
    {d d' : Draft} (hadd : d.add p = .ok d') (hx : x <+: b) : Drained (readMember d x) := by
  by_cases hwhole : x = b
  · obtain ⟨t, ht, hread⟩ := readMember_append h
    have hmember := hread d [] stops_nil
    rw [List.append_nil, List.append_nil, hadd] at hmember
    rw [hwhole, hmember]
    exact .taken ht
  have htorn := isTorn_of_isPrefix hx hwhole
  obtain ⟨⟨s, a, s', hs, ha, hs', rfl⟩, ⟨t, v, t', ht, hv, ht', rfl⟩⟩ := h
  obtain ⟨body, rfl, hread⟩ := readString_isString ha
  simp only [List.append_assoc, List.cons_append] at htorn
  rw [readMember]
  rcases htorn.append_cons with hx | ⟨r, rfl, hr⟩
  · rw [readMark_spaces (isSpaces_of_isPrefix hs hx)]
    exact .fault
  rw [readMark_append rfl hs]
  rcases hr.append with hr | ⟨u, rfl, hu⟩
  · simp only [readString_torn ha hr]
    exact .fault
  · simp only [hread]
    exact drained_readField hv hp hadd hs' ht ht' hu

/-! ## Objects -/

theorem readMembers_spaces {s : Bytes} (hs : IsSpaces s) (fuel : Nat) (first : Bool) (d : Draft) :
    readMembers fuel first d s = .error .endOfInput := by
  cases fuel with
  | zero => rfl
  | succ fuel => rw [readMembers, skipSpace_spaces hs]

theorem Drained.readMembers {x : Except Fault (Draft × Bytes)} (h : Drained x) (fuel : Nat) :
    (x >>= fun x => readMembers fuel false x.1 x.2) = .error .endOfInput := by
  cases h with
  | fault => rfl
  | taken hrest => exact readMembers_spaces hrest fuel false _

/-- The members of an object, from the first one on, up to where the object is torn. No fuel is too
little for that. -/
theorem readMembers_torn {b : Bytes} {ps : List Part} (hm : IsMembers b ps) (hps : .other ∉ ps)
    {d d' : Draft} (hadd : d.addAll ps = .ok d') (fuel : Nat) {x : Bytes}
    (hx : IsTorn x (b ++ [0x7d])) :
    (readMember d x >>= fun x => readMembers fuel false x.1 x.2) = .error .endOfInput := by
  induction hm generalizing d fuel x with
  | last hb =>
    obtain ⟨hp, -⟩ := List.ne_and_not_mem_of_not_mem_cons hps
    obtain ⟨d₁, hfirst, -⟩ := Draft.exists_of_addAll_cons hadd
    exact (drained_readMember hb hp.symm hfirst hx.concat).readMembers fuel
  | more hb _ ih =>
    obtain ⟨hp, hps⟩ := List.ne_and_not_mem_of_not_mem_cons hps
    obtain ⟨d₁, hfirst, hadd⟩ := Draft.exists_of_addAll_cons hadd
    rw [List.append_assoc] at hx
    -- torn before the comma, which is missed then, or among the members behind it
    rcases hx.append_cons with hx | ⟨r, rfl, hr⟩
    · exact (drained_readMember hb hp.symm hfirst hx).readMembers fuel
    · obtain ⟨t, ht, hread⟩ := readMember_append hb
      rw [hread d _ (stops_comma r), hfirst]
      cases fuel with
      | zero => rfl
      | succ fuel => exact (readMembers_comma ht fuel d₁ r).trans (ih hps hadd fuel hr)

theorem readValue_torn {b x : Bytes} {ps : List Part} (h : IsObject b ps) (hps : .other ∉ ps)
    {d : Draft} (hadd : Draft.empty.addAll ps = .ok d) (hx : IsTorn x b) :
    readValue x = .error .endOfInput := by
  cases h with
  | empty hs =>
    rcases hx.cons with rfl | ⟨r, rfl, hr⟩
    · rfl
    · have hspaces := isSpaces_of_isPrefix hs hr.concat
      exact (readValue_brace isSpaces_nil r).trans (readMembers_spaces hspaces _ _ _)
  | members hm =>
    rcases hx.cons with rfl | ⟨r, rfl, hr⟩
    · rfl
    · refine (readValue_brace isSpaces_nil r).trans ?_
      have hmembers := readMembers_torn hm hps hadd r.length hr
      obtain ⟨s, t, hs, rfl⟩ := hm.exists_head
      rw [List.append_assoc] at hr
      rcases hr.append_cons with hr | ⟨u, rfl, -⟩
      · exact readMembers_spaces (isSpaces_of_isPrefix hs hr) _ _ _
      · exact (readMembers_first hs _ _ u).trans hmembers

theorem read_torn {b x : Bytes} {ps : List Part} (h : IsObject b ps) (hps : .other ∉ ps)
    {d : Draft} (hadd : Draft.empty.addAll ps = .ok d) (hx : IsTorn x b) :
    read x = .error .endOfInput := by
  rw [read, readValue_torn h hps hadd hx]

/-! ## Messages -/

/-- A message whose payload is the beginning of one that was made for a quote, and is not all of it,
carries no quote. Wherever it ends, what is missed is the end of the input: no other fault is found
before. -/
theorem ofMessage_torn (q : Quote) (id : Uuid) (now : Int64) {m : Message}
    (hbegins : m.payload <+: (q.toMessage id now).payload)
    (hne : m.payload ≠ (q.toMessage id now).payload) : ofMessage m = .error .endOfInput :=
  read_torn (isObject_write q) (by simp [fields]) rfl (isTorn_of_isPrefix hbegins hne)

/-- Payloads torn within a character, between a backslash and its letter, behind a minus and behind
the first digit of a number. -/
theorem ofMessage_torn_within :
    let id : Uuid := ⟨List.replicate 16 0, rfl⟩
    let q : Quote := ⟨"é\n", 7, 3, -51⟩
    let carried (n : Nat) := ofMessage (.create id 0 (q.write.take n))
    carried 12 = .error .endOfInput ∧ carried 14 = .error .endOfInput ∧
      carried 53 = .error .endOfInput ∧ carried 54 = .error .endOfInput ∧ carried 56 = .ok q := by
  intro id q carried
  have hlength : q.write.length = 56 := by decide
  have hcut (n : Nat) (hn : n < 56) : carried n = .error .endOfInput := by
    refine ofMessage_torn q id 0 (List.take_prefix n q.write) fun h => ?_
    have hn' : min n q.write.length = q.write.length := by
      rw [← List.length_take]
      exact congrArg List.length h
    omega
  have htake : q.write.take 56 = q.write := List.take_of_length_le (Nat.le_of_eq hlength)
  have hwhole : carried 56 = .ok q := (congrArg read htake).trans (read_write q)
  exact ⟨hcut 12 (by decide), hcut 14 (by decide), hcut 53 (by decide), hcut 54 (by decide), hwhole⟩

end MessageDepot.Quote
