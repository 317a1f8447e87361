import MessageDepot.Proofs.Depot
import MessageDepot.Proofs.MemoryConfinement
import MessageDepot.Proofs.RelationalConfinement

/-!
# Stores that do not notice each other

Two operations of a depot are apart when one is on messages and the other on groups, or when they
are asked of stores of two regions or of two pairs of tables. What is apart has two places, so
leaving it out of a session changes no answer of the rest, whatever the tables hold at first and
however the steps are mixed: expiry, streams that were opened before, and failures included.

Results:
* `unaffected`: operations answer as without those that are apart from them.
* `answers_apart`: stores that share no rows, and the two kinds of operations of all stores.
-/
namespace MessageDepot.Depot

/-- What is left out of a session changes no answer of the rest when it is apart from all of it. -/
theorem unaffected (D : Depot) (s : Session D.State) (es : List Event) {picks : Nat → Kind → Bool}
    (h : ∀ i k j l, picks i k = true → picks j l = false → k ≠ l ∨ D.shares i j = false) :
    s.Unaffected D.backends es picks := by
  cases D with
  | memory stores =>
    let place (i : Nat) : Kind → Kind × String :=
      (stores i).elim (fun k => (k, "")) fun store k => (k, store.region)
    have hplace {i : Nat} {store : Memory.Store} (hs : stores i = some store) :
        place i = fun k => (k, store.region) := by simp [place, hs]
    have hconfined (i) (B) (hB : B ∈ (memory stores).backends i) :
        B.Confined Memory.places (place i) := by
      obtain ⟨store, hstore, rfl⟩ := Option.map_eq_some_iff.1 hB
      rw [hplace hstore]
      exact store.confined
    refine Session.unaffected hconfined (fun i k j l hi hj hik hjl => ?_) s es
    obtain ⟨a, ha⟩ : ∃ a, stores i = some a :=
      Option.isSome_iff_exists.1 (Option.isSome_map.symm.trans hi)
    obtain ⟨b, hb⟩ : ∃ b, stores j = some b :=
      Option.isSome_iff_exists.1 (Option.isSome_map.symm.trans hj)
    rw [hplace ha, hplace hb]
    intro he
    obtain ⟨hkind, hregion⟩ := Prod.ext_iff.1 he
    have hshares := (h i k j l hik hjl).resolve_left (· hkind)
    simp only at hregion
    simp [shares, view, ha, hb, hregion] at hshares
  | database stores =>
    let place (i : Nat) : Kind → List Char × String :=
      (stores i).elim (fun _ => ([], "")) Sql.Store.place
    have hplace {i : Nat} {store : Sql.Store} (hs : stores i = some store) :
        place i = store.place := by simp [place, hs]
    have hconfined (i) (B) (hB : B ∈ (database stores).backends i) :
        B.Confined Sql.places (place i) := by
      obtain ⟨store, hstore, rfl⟩ := Option.map_eq_some_iff.1 hB
      rw [hplace hstore]
      exact store.confined
    refine Session.unaffected hconfined (fun i k j l hi hj hik hjl => ?_) s es
    obtain ⟨a, ha⟩ : ∃ a, stores i = some a :=
      Option.isSome_iff_exists.1 (Option.isSome_map.symm.trans hi)
    obtain ⟨b, hb⟩ : ∃ b, stores j = some b :=
      Option.isSome_iff_exists.1 (Option.isSome_map.symm.trans hj)
    rw [hplace ha, hplace hb]
    refine Sql.Store.place_ne ((h i k j l hik hjl).imp_right fun hshares => ?_)
    rintro ⟨htables, hregion⟩
    simp [shares, view, ha, hb, htables, hregion] at hshares

/-- Stores that share no rows with others answer in every session as in the one without the
operations of the others, and operations on messages, or on groups, answer as without those of the
other kind. The tables may hold anything at first, and streams may be open. -/
theorem answers_apart (D : Depot) (s : Session D.State) (es : List Event) :
    (∀ own : Nat → Bool, (∀ i j, own i = true → own j = false → D.shares i j = false) →
      s.Unaffected D.backends es fun i _ => own i) ∧
    ∀ kind : Kind, s.Unaffected D.backends es fun _ k => k = kind := by
  refine ⟨fun own hown => ?_, fun kind => ?_⟩
  · exact D.unaffected s es fun i _ j _ hi hj => .inr (hown i j hi hj)
  · refine D.unaffected s es fun _ k _ l hk hl => .inl ?_
    rintro rfl
    simp_all

/-- Two stores of one region beside one of another, whose member lies between theirs. -/
theorem answers_apart_regions :
    let m (n : UInt8) : Message := .create ⟨List.replicate 15 0 ++ [n], rfl⟩ 0 [n]
    let es : List Event := [.request 0 (.addToGroup (.text "a") (m 1)),
      .request 2 (.addToGroup (.text "a") (m 2)), .openStream 2 "other", .openStream 0 "mine",
      .request 1 (.addToGroup (.text "a") (m 3)), .poll "other", .clock 9,
      .request 2 (.expire ⟨0, 0, by decide⟩), .request 2 (.addMessage (m 1)), .poll "mine",
      .request 0 (.removeFromGroup (.text "a") (m 1)), .request 1 .iterate]
    let own (i : Nat) : Bool := i ≠ 2
    let s := Session.start newDatabase 5
    (∀ i j, own i = true → own j = false → threeStores.shares i j = false) ∧
      s.Unaffected threeStores.backends es fun i _ => own i := by
  intro m es own s
  have hown : ∀ i j, own i = true → own j = false → threeStores.shares i j = false := by
    intro i j hi hj
    obtain rfl : j = 2 := by simpa [own] using hj
    match i with
    | 0 => decide +kernel
    | 1 => decide +kernel
    | 2 => cases hi
    | _ + 3 => rfl
  exact ⟨hown, (answers_apart threeStores s es).1 own hown⟩

end MessageDepot.Depot
