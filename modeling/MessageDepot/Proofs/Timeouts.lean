import MessageDepot.Proofs.Expiry

/-!
# Timeouts

The cutoff of a timeout is clamped twice, the milliseconds first and the difference after them. Both
clamps are monotone and so is rounding to whole milliseconds, so the cutoff follows the clock up and
the timeout down over their whole ranges, also where it is no difference any more
(`toInt_expiryCutoff`). What has expired under a longer timeout has expired under a shorter one, so
the longer one removes some of the groups that the shorter one removes.

Results:
* `toInt_expiryCutoff`: the cutoff in whole numbers.
* `expiryCutoff_mono`, `expiryCutoff_le`: the cutoff and the clock.
* `Depot.expiry_of_longer_timeout`: expiry under two timeouts in every state that a session reaches.
-/
namespace MessageDepot

/-! ## Cutoffs -/

theorem toInt_expiryCutoff (now : Int64) (t : Timeout) : (expiryCutoff now t).toInt =
    max (-9223372036854775808) (now.toInt - min t.millis 9223372036854775807) := by
  have hmin : Int64.minValue.toInt = -9223372036854775808 := by decide
  have hmax : Int64.maxValue.toInt = 9223372036854775807 := by decide
  have hnow := now.toInt_lt
  simp only [expiryCutoff, toInt_ofIntClamp, hmin, hmax]
  omega

/-- A later clock has no earlier cutoff. -/
theorem expiryCutoff_mono {now later : Int64} (h : now ≤ later) (t : Timeout) :
    expiryCutoff now t ≤ expiryCutoff later t := by
  rw [Int64.le_iff_toInt_le] at h
  exact ofIntClamp_mono (by omega)

/-- No cutoff is ahead of the clock. -/
theorem expiryCutoff_le (now : Int64) (t : Timeout) : expiryCutoff now t ≤ now := by
  have hnow := now.le_toInt
  rw [Int64.le_iff_toInt_le, toInt_expiryCutoff]
  omega

/-- The cutoff is the difference, or the lowest number if there is none. -/
theorem expiryCutoff_exact (now : Int64) {t : Timeout} (h : t.millis ≤ 9223372036854775807) :
    (-9223372036854775808 ≤ now.toInt - t.millis →
      (expiryCutoff now t).toInt = now.toInt - t.millis) ∧
    (now.toInt - t.millis < -9223372036854775808 → expiryCutoff now t = Int64.minValue) := by
  have hmin : Int64.minValue.toInt = -9223372036854775808 := by decide
  rw [← Int64.toInt_inj, hmin, toInt_expiryCutoff]
  omega

/-- The longest timeout, a millisecond above the lowest clock. -/
example : expiryCutoff (-9223372036854775807) ⟨18446744073709551615, 999999999, by decide⟩ =
    Int64.minValue := by decide

/-! ## Expiry -/

/-- Fewer groups are below an earlier cutoff. -/
theorem Backend.filter_isExpired_sublist {c c' : Int64} (h : c' ≤ c) (Gs : List Group) :
    (Gs.filter (Backend.isExpired c')).Sublist (Gs.filter (Backend.isExpired c)) := by
  refine Gs.monotone_filter_right fun G hG => ?_
  by_contra hnot
  rw [Backend.isExpired_eq_false_of_le h (Bool.eq_false_iff.2 hnot)] at hG
  cases hG

namespace Depot

variable {D : Depot} {i : Nat} {v : View} {B : Backend D.State D.Failure}

/-- The cutoff is the clock less the timeout in whole milliseconds, rounded down, or the lowest
number where that is out of range; it is never ahead of the clock, and never falls behind as the
clock goes on or the timeout gets shorter. So in every state that a session from new tables reaches,
expiry at one clock succeeds under both of two timeouts, and the groups that the longer one gives
and removes are some of those that the shorter one gives and removes. -/
theorem expiry_of_longer_timeout {tables : D.State} (hnew : D.IsNew tables) (clock : Int64)
    (es : List Event) (hB : D.backends i = some B) (now : Int64) (timeout : Timeout) :
    timeout.millis = (timeout.seconds.toNat * 1000000000 + timeout.nanos) / 1000000 ∧
    (timeout.millis ≤ 9223372036854775807 →
      (-9223372036854775808 ≤ now.toInt - timeout.millis →
        (expiryCutoff now timeout).toInt = now.toInt - timeout.millis) ∧
      (now.toInt - timeout.millis < -9223372036854775808 →
        expiryCutoff now timeout = Int64.minValue)) ∧
    expiryCutoff now timeout ≤ now ∧
    (∀ later, now ≤ later → expiryCutoff now timeout ≤ expiryCutoff later timeout) ∧
    ∀ longer : Timeout, timeout.total ≤ longer.total →
      expiryCutoff now longer ≤ expiryCutoff now timeout ∧
      let s := ((Session.start tables clock).run D.backends es).2.state
      ∃ gone goneLonger s' s'',
        B.expire now timeout s = (.ok gone, s') ∧ D.LeavesOut i (gone.map (·.id)) s s' ∧
        B.expire now longer s = (.ok goneLonger, s'') ∧
          D.LeavesOut i (goneLonger.map (·.id)) s s'' ∧
        goneLonger.Sublist gone := by
  obtain ⟨v, hv⟩ := exists_view hB
  obtain ⟨R, hR, -, hrelated⟩ := run_alike_ledgers hnew clock es
  refine ⟨timeout.millis_eq, expiryCutoff_exact now, expiryCutoff_le now timeout,
    fun later hlater => expiryCutoff_mono hlater timeout, fun longer hlonger => ?_⟩
  have hcutoff := expiryCutoff_anti now hlonger
  obtain ⟨Gs, hnodup, -, hload, hkeys, -⟩ := exists_groups hR hv hB hrelated.state
  have hexpire (t : Timeout) := expire_eq hR hv hB hrelated.state hnodup hload hkeys now t
  have hleaves (gs : List Uuid) := leavesOut_clear hR hv hB hrelated.state gs
  exact ⟨hcutoff, _, _, _, _, hexpire timeout, hleaves _, hexpire longer, hleaves _,
    Backend.filter_isExpired_sublist hcutoff Gs⟩

/-- A timeout of a millisecond, and one of more milliseconds than 64 bits hold. Of two groups one is
below the cutoff of the former, and none is below that of the latter; a third is in another
region. -/
theorem expiry_of_longer_timeout_unbounded :
    let m (n : UInt8) : Message := .create ⟨List.replicate 15 0 ++ [n], rfl⟩ 0 [n]
    let es : List Event := [.request 0 (.addToGroup (.text "a") (m 1)),
      .request 2 (.addToGroup (.text "a") (m 1)), .clock 6,
      .request 1 (.addToGroup (.text "b") (m 2))]
    let timeout : Timeout := ⟨0, 1000000, by decide⟩
    let longer : Timeout := ⟨18446744073709551615, 0, by decide⟩
    let B := (Sql.Store.mk "DEFAULT" "INT_" .standard).backend
    threeStores.IsNew newDatabase ∧ threeStores.backends 0 = some B ∧
      timeout.millis ≤ 9223372036854775807 ∧
      -9223372036854775808 ≤ (7 : Int64).toInt - timeout.millis ∧
      timeout.total ≤ longer.total ∧
      (expiryCutoff 7 timeout).toInt = (7 : Int64).toInt - timeout.millis ∧
      expiryCutoff 7 longer ≤ expiryCutoff 7 timeout ∧
      let s := ((Session.start newDatabase 5).run threeStores.backends es).2.state
      ∃ gone goneLonger s' s'',
        B.expire 7 timeout s = (.ok gone, s') ∧ threeStores.LeavesOut 0 (gone.map (·.id)) s s' ∧
        B.expire 7 longer s = (.ok goneLonger, s'') ∧
          threeStores.LeavesOut 0 (goneLonger.map (·.id)) s s'' ∧
        goneLonger.Sublist gone := by
  intro m es timeout longer B
  have hmillis : timeout.millis ≤ 9223372036854775807 := by decide
  have hrange : -9223372036854775808 ≤ (7 : Int64).toInt - timeout.millis := by decide
  have hlonger : timeout.total ≤ longer.total := by decide
  have hB : threeStores.backends 0 = some B := rfl
  obtain ⟨-, hexact, -, -, hexpire⟩ :=
    expiry_of_longer_timeout isNew_threeStores 5 es hB 7 timeout
  exact ⟨isNew_threeStores, hB, hmillis, hrange, hlonger, (hexact hmillis).1 hrange,
    hexpire longer hlonger⟩

end Depot

end MessageDepot
