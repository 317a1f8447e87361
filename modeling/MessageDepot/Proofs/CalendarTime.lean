import Mathlib.Order.Monotone.Basic
import Mathlib.Tactic.IntervalCases
import MessageDepot.Message

/-!
# Calendar time

A date is turned into a day, and a day into a date, by cycles of 400 years and by years that start
in March. What makes this the calendar is that it counts days month by month: a month starts when
the days of the one before are over, each month has the days that the leap-year rule gives it, and
the count is 0 on the first of January 1970 (`IsDayCount`). No month is empty, so the first days of
months are increasing (`monthStart_mono`), and all days of a month lie between its first day and
that of the next one. From there on dates are ordered as their days are, calendar times as their
instants, and every instant has one calendar time only.

Results:
* `Calendar.dayOf_civil`: a day has a date in the calendar, and is the day of it.
* `Calendar.isDayCount_dayOf`: days are counted by the calendar.
* `Calendar.dayOf_lt`: days are in the order of their dates.
* `DateTime.toMillis_lt_iff`, `DateTime.ofMillis_eq_iff`: calendar times and instants.
* `DateTime.isSome_ofMillis?_iff`: the years that the calendar covers.
* `Message.calendar_time`: when and how the timestamp of a message is shown.
-/
namespace MessageDepot

namespace Calendar

/-! ## Years -/

/-- Days from the first of March of year 0 to the first of March of a year. -/
def daysBeforeMarch (year : Int) : Int :=
  year / 400 * daysPerCycle + daysBeforeYear (year % 400).toNat

theorem daysBeforeMarch_eq (year : Int) :
    daysBeforeMarch year = 365 * year + year / 4 - year / 100 + year / 400 := by
  simp only [daysBeforeMarch, daysBeforeYear, daysPerCycle]
  omega

/-- February by the leap-year rule. -/
theorem daysInMonth_february (year : Int) :
    (year % 4 = 0 ∧ (year % 100 ≠ 0 ∨ year % 400 = 0)) ∧ daysInMonth year 2 = 29 ∨
      ¬(year % 4 = 0 ∧ (year % 100 ≠ 0 ∨ year % 400 = 0)) ∧ daysInMonth year 2 = 28 := by
  have hrule : isLeapYear year = true ↔
      year % 4 = 0 ∧ (year % 100 ≠ 0 ∨ year % 400 = 0) := by
    simp only [isLeapYear, Bool.and_eq_true, Bool.or_eq_true, decide_eq_true_eq]
  rw [daysInMonth, if_pos rfl, ← hrule]
  split
  · exact .inl ⟨‹_›, rfl⟩
  · exact .inr ⟨‹_›, rfl⟩

/-- From the first of March of one year to that of the next there is one February, that of the
next year. -/
theorem daysBeforeMarch_succ (year : Int) :
    daysBeforeMarch (year + 1) = daysBeforeMarch year + 337 + daysInMonth (year + 1) 2 := by
  rw [daysBeforeMarch_eq, daysBeforeMarch_eq]
  rcases daysInMonth_february (year + 1) with ⟨hrule, hdays⟩ | ⟨hrule, hdays⟩ <;> omega

/-- A day of a cycle by centuries, by four years, by years and by days. A year has a last day more
if it is the last of four, unless these end a century other than the last. -/
theorem exists_yearOfCycle {d : Nat} (h : d < daysPerCycle) : ∃ c < 4, ∃ q < 25, ∃ y < 4, ∃ r ≤ 365,
    yearOfCycle d = (100 * c + 4 * q + y, r) ∧ d = 36524 * c + 1461 * q + 365 * y + r ∧
      (r = 365 → y = 3 ∧ (q = 24 → c = 3)) := by
  simp only [daysPerCycle] at h
  obtain ⟨c, hc⟩ : ∃ c, c = min 3 (d / 36524) := ⟨_, rfl⟩
  obtain ⟨d₁, hd₁⟩ : ∃ d₁, d₁ = d - 36524 * c := ⟨_, rfl⟩
  obtain ⟨q, hq⟩ : ∃ q, q = d₁ / 1461 := ⟨_, rfl⟩
  obtain ⟨d₂, hd₂⟩ : ∃ d₂, d₂ = d₁ - 1461 * q := ⟨_, rfl⟩
  obtain ⟨y, hy⟩ : ∃ y, y = min 3 (d₂ / 365) := ⟨_, rfl⟩
  refine ⟨c, by omega, q, by omega, y, by omega, d₂ - 365 * y, by omega, ?_, by omega, by omega⟩
  simp only [yearOfCycle, ← hc, ← hd₁, ← hq, ← hd₂, ← hy]

theorem daysBeforeMarch_cycle (e : Int) {c q y : Nat} (hc : c < 4) (hq : q < 25) (hy : y < 4) :
    daysBeforeMarch (e * 400 + (100 * c + 4 * q + y : Nat)) =
      e * daysPerCycle + (36524 * c + 1461 * q + 365 * y : Nat) := by
  have h4 : (e * 400 + (100 * c + 4 * q + y : Nat)) / 4 = 100 * e + 25 * c + q := by omega
  have h100 : (e * 400 + (100 * c + 4 * q + y : Nat)) / 100 = 4 * e + c := by omega
  have h400 : (e * 400 + (100 * c + 4 * q + y : Nat)) / 400 = e := by omega
  rw [daysBeforeMarch_eq, h4, h100, h400, daysPerCycle]
  omega

/-- The year that starts in March which a day falls in, and the day of that year. Days are counted
from the first of March of year 0. -/
def marchYear (z : Int) : Int × Nat :=
  let (y, d) := yearOfCycle (z % daysPerCycle).toNat
  (z / daysPerCycle * 400 + y, d)

theorem daysBeforeMarch_marchYear (z : Int) :
    daysBeforeMarch (marchYear z).1 + (marchYear z).2 = z ∧
      (marchYear z).2 < 337 + daysInMonth ((marchYear z).1 + 1) 2 := by
  have hd : (z % daysPerCycle).toNat < daysPerCycle := by
    simp only [daysPerCycle]
    omega
  obtain ⟨c, hc, q, hq, y, hy, r, hr, hsplit, hdays, hlast⟩ := exists_yearOfCycle hd
  obtain ⟨e, he⟩ : ∃ e, e = z / daysPerCycle := ⟨_, rfl⟩
  have hmarch : marchYear z = (e * 400 + (100 * c + 4 * q + y : Nat), r) := by
    rw [marchYear, hsplit, he]
  simp only [hmarch, daysBeforeMarch_cycle e hc hq hy]
  simp only [daysPerCycle] at he hdays ⊢
  constructor
  · omega
  · rcases daysInMonth_february (e * 400 + (100 * c + 4 * q + y : Nat) + 1) with
      ⟨-, hfebruary⟩ | ⟨hrule, hfebruary⟩
    · omega
    · omega

/-! ## Months -/

/-- The number of a month that is counted from March. -/
def calendarMonth (m : Nat) : Nat := if m < 10 then m + 3 else m - 9

theorem calendarMonth_spec {m : Nat} (h : m < 12) : 1 ≤ calendarMonth m ∧ calendarMonth m ≤ 12 ∧
    (calendarMonth m + 9) % 12 = m ∧ (calendarMonth m ≤ 2 ↔ 10 ≤ m) := by
  unfold calendarMonth
  split <;> omega

/-- All months but February are as long in every year. -/
theorem daysBeforeMonth_succ (year : Int) {m : Nat} (h : m < 11) :
    daysBeforeMonth (m + 1) = daysBeforeMonth m + daysInMonth year (calendarMonth m) := by
  interval_cases m <;> rfl

theorem monthOfYear_bounds (d : Nat) :
    daysBeforeMonth (monthOfYear d) ≤ d ∧ d < daysBeforeMonth (monthOfYear d + 1) := by
  simp only [daysBeforeMonth, monthOfYear]
  omega

/-- A date that is in the calendar. -/
def IsDate (year : Int) (month day : Nat) : Prop :=
  1 ≤ month ∧ month ≤ 12 ∧ 1 ≤ day ∧ day ≤ daysInMonth year month

theorem dayOf_eq (year : Int) (month : Nat) {day : Nat} (h : 1 ≤ day) : dayOf year month day =
    daysBeforeMarch (if month ≤ 2 then year - 1 else year) + daysBeforeMonth ((month + 9) % 12)
      + (day - 1) - epochDay := by
  simp only [dayOf, daysBeforeMarch]
  omega

theorem civil_eq (day : Int) : civil day =
    let (y, d) := marchYear (day + epochDay)
    let month := calendarMonth (monthOfYear d)
    (y + (if month ≤ 2 then 1 else 0), month, d - daysBeforeMonth (monthOfYear d) + 1) := rfl

/-- A day of a year from March, and its month and day of the month. -/
theorem dayOf_march {y : Int} {d m : Nat} (hm : m < 12) (hle : daysBeforeMonth m ≤ d)
    (hlt : d < daysBeforeMonth (m + 1)) (hlast : d < 337 + daysInMonth (y + 1) 2) :
    let year := y + (if calendarMonth m ≤ 2 then 1 else 0)
    dayOf year (calendarMonth m) (d - daysBeforeMonth m + 1) = daysBeforeMarch y + d - epochDay ∧
      IsDate year (calendarMonth m) (d - daysBeforeMonth m + 1) := by
  obtain ⟨hfirst, htwelve, hback, hturn⟩ := calendarMonth_spec hm
  intro year
  have hyear : (if calendarMonth m ≤ 2 then year - 1 else year) = y := by
    simp only [year]
    split <;> omega
  refine ⟨?_, hfirst, htwelve, by omega, ?_⟩
  · rw [dayOf_eq _ _ (by omega), hyear, hback]
    omega
  · by_cases h : m < 11
    · rw [daysBeforeMonth_succ year h] at hlt
      omega
    · obtain rfl : m = 11 := by omega
      have hdays : daysBeforeMonth 11 = 337 := rfl
      have hfebruary : daysInMonth year (calendarMonth 11) = daysInMonth (y + 1) 2 := rfl
      omega

/-- A day has a date, and is the day of it. -/
theorem dayOf_civil (day : Int) :
    dayOf (civil day).1 (civil day).2.1 (civil day).2.2 = day ∧
      IsDate (civil day).1 (civil day).2.1 (civil day).2.2 := by
  obtain ⟨hyear, hlast⟩ := daysBeforeMarch_marchYear (day + epochDay)
  rw [civil_eq]
  generalize marchYear (day + epochDay) = x at hyear hlast
  obtain ⟨y, d⟩ := x
  obtain ⟨hle, hlt⟩ := monthOfYear_bounds d
  simp only at hyear hlast ⊢
  have hm : monthOfYear d < 12 := by
    have hshort := daysInMonth_february (y + 1)
    simp only [monthOfYear]
    omega
  obtain ⟨hday, hdate⟩ := dayOf_march hm hle hlt hlast
  exact ⟨by rw [hday]; omega, hdate⟩

/-! ## From month to month -/

theorem daysInMonth_pos (year : Int) {month : Nat} (hfirst : 1 ≤ month) (hlast : month ≤ 12) :
    0 < daysInMonth year month := by
  unfold daysInMonth
  split_ifs <;> omega

/-- A month starts when the days of the one before are over. -/
theorem dayOf_succ_month (year : Int) {month : Nat} (hfirst : 1 ≤ month) (hlast : month < 12) :
    dayOf year (month + 1) 1 = dayOf year month 1 + daysInMonth year month := by
  rw [dayOf_eq _ _ (Nat.le_refl 1), dayOf_eq _ _ (Nat.le_refl 1)]
  by_cases hmonth : month = 2
  · -- the year that starts in March begins here
    have hyear := daysBeforeMarch_succ (year - 1)
    rw [Int.sub_add_cancel] at hyear
    subst hmonth
    simp only [Nat.reduceAdd, Nat.reduceLeDiff, Nat.reduceMod, if_true, if_false, hyear]
    have hzero : daysBeforeMonth 0 = 0 := rfl
    have heleven : daysBeforeMonth 11 = 337 := rfl
    omega
  · obtain ⟨m, hm, rfl⟩ : ∃ m < 11, month = calendarMonth m := by
      refine ⟨(month + 9) % 12, by omega, ?_⟩
      unfold calendarMonth
      split <;> omega
    obtain ⟨-, -, hback, hturn⟩ := calendarMonth_spec (show m < 12 by omega)
    have hnext : (calendarMonth m + 1 + 9) % 12 = m + 1 := by omega
    have hturn' : calendarMonth m + 1 ≤ 2 ↔ calendarMonth m ≤ 2 := by omega
    simp only [hback, hnext, hturn', daysBeforeMonth_succ year hm]
    omega

theorem dayOf_succ_year (year : Int) :
    dayOf (year + 1) 1 1 = dayOf year 12 1 + daysInMonth year 12 := by
  have hnine : daysBeforeMonth 9 = 275 := rfl
  have hten : daysBeforeMonth 10 = 306 := rfl
  have hdays : daysInMonth year 12 = 31 := rfl
  rw [dayOf_eq _ _ (Nat.le_refl 1), dayOf_eq _ _ (Nat.le_refl 1), hdays]
  simp only [Nat.reduceAdd, Nat.reduceLeDiff, Nat.reduceMod, if_true, if_false, Int.add_sub_cancel]
  omega

/-- The first day of a month. Months are counted from January of year 0. -/
def monthStart (k : Int) : Int := dayOf (k / 12) ((k % 12).toNat + 1) 1

theorem monthStart_eq (year : Int) {month : Nat} (hfirst : 1 ≤ month) (hlast : month ≤ 12) :
    monthStart (12 * year + (month - 1)) = dayOf year month 1 := by
  have hyear : (12 * year + (month - 1 : Int)) / 12 = year := by omega
  have hmonth : ((12 * year + (month - 1 : Int)) % 12).toNat + 1 = month := by omega
  rw [monthStart, hyear, hmonth]

theorem monthStart_succ (year : Int) {month : Nat} (hfirst : 1 ≤ month) (hlast : month ≤ 12) :
    monthStart (12 * year + (month - 1) + 1) = dayOf year month 1 + daysInMonth year month := by
  by_cases h : month = 12
  · subst h
    rw [← dayOf_succ_year, ← monthStart_eq _ (Nat.le_refl 1) (by omega)]
    congr 1
    omega
  · rw [← dayOf_succ_month year hfirst (by omega), ← monthStart_eq _ (by omega) (by omega)]
    congr 1
    omega

/-- A count of the days of the calendar. It is 0 on the first of January 1970, and goes on by one
from day to day of a month, by the days of a month to the next one, and so from year to year. -/
structure IsDayCount (count : Int → Nat → Nat → Int) : Prop where
  epoch : count 1970 1 1 = 0
  nextDay : ∀ year month day, 1 ≤ day → count year month (day + 1) = count year month day + 1
  nextMonth : ∀ year month, 1 ≤ month → month < 12 →
    count year (month + 1) 1 = count year month 1 + daysInMonth year month
  nextYear : ∀ year, count (year + 1) 1 1 = count year 12 1 + daysInMonth year 12

theorem isDayCount_dayOf : IsDayCount dayOf where
  epoch := by decide
  nextDay year month day h := by
    rw [dayOf_eq _ _ h, dayOf_eq _ _ (by omega)]
    omega
  nextMonth year _ := dayOf_succ_month year
  nextYear := dayOf_succ_year

theorem monthStart_mono {j k : Int} (h : j ≤ k) : monthStart j ≤ monthStart k := by
  refine monotone_int_of_le_succ (fun k => ?_) h
  obtain ⟨year, month, hfirst, hlast, rfl⟩ : ∃ year : Int, ∃ month : Nat, 1 ≤ month ∧ month ≤ 12 ∧
      k = 12 * year + (month - 1) :=
    ⟨k / 12, (k % 12).toNat + 1, by omega, by omega, by omega⟩
  have hpos := daysInMonth_pos year hfirst hlast
  rw [monthStart_eq year hfirst hlast, monthStart_succ year hfirst hlast]
  omega

theorem dayOf_bounds {year : Int} {month day : Nat} (h : IsDate year month day) :
    monthStart (12 * year + (month - 1)) ≤ dayOf year month day ∧
      dayOf year month day < monthStart (12 * year + (month - 1) + 1) := by
  obtain ⟨hfirst, hlast, hone, hdays⟩ := h
  rw [monthStart_eq year hfirst hlast, monthStart_succ year hfirst hlast, dayOf_eq _ _ hone,
    dayOf_eq _ _ (Nat.le_refl 1)]
  omega

/-- Days are in the order of their dates. -/
theorem dayOf_lt {y y' : Int} {m m' d d' : Nat} (h : IsDate y m d) (h' : IsDate y' m' d')
    (hlt : y < y' ∨ y = y' ∧ (m < m' ∨ m = m' ∧ d < d')) : dayOf y m d < dayOf y' m' d' := by
  have hmonth (hk : 12 * y + (m - 1 : Int) + 1 ≤ 12 * y' + (m' - 1)) :
      dayOf y m d < dayOf y' m' d' :=
    calc dayOf y m d
      _ < monthStart (12 * y + (m - 1) + 1) := (dayOf_bounds h).2
      _ ≤ monthStart (12 * y' + (m' - 1)) := monthStart_mono hk
      _ ≤ dayOf y' m' d' := (dayOf_bounds h').1
  obtain ⟨hfirst, hlast, hone, -⟩ := h
  obtain ⟨hfirst', hlast', hone', -⟩ := h'
  rcases hlt with hyear | ⟨rfl, hm | ⟨rfl, hday⟩⟩
  · exact hmonth (by omega)
  · exact hmonth (by omega)
  · rw [dayOf_eq _ _ hone, dayOf_eq _ _ hone']
    omega

end Calendar

namespace DateTime

open Calendar

/-! ## Calendar times -/

instance (d : DateTime) : Decidable d.IsValid := inferInstanceAs (Decidable (_ ∧ _))

instance (a b : DateTime) : Decidable (a.Before b) := inferInstanceAs (Decidable (_ ∨ _))

theorem IsValid.isDate {d : DateTime} (h : d.IsValid) : IsDate d.year d.month d.day :=
  ⟨h.1, h.2.1, h.2.2.1, h.2.2.2.1⟩

/-- The time of day in milliseconds. -/
def timeOfDay (d : DateTime) : Nat :=
  d.hour * 3600000 + d.minute * 60000 + d.second * 1000 + d.millisecond

theorem toMillis_eq (d : DateTime) :
    d.toMillis = dayOf d.year d.month d.day * millisPerDay + d.timeOfDay := by
  simp only [toMillis, timeOfDay]
  omega

theorem IsValid.timeOfDay_lt {d : DateTime} (h : d.IsValid) : d.timeOfDay < 86400000 := by
  obtain ⟨-, -, -, -, hhour, hminute, hsecond, hmillisecond⟩ := h
  simp only [timeOfDay]
  omega

/-- An instant has a calendar time, and is the instant of it. -/
theorem toMillis_ofMillis (t : Int) : (ofMillis t).toMillis = t ∧ (ofMillis t).IsValid := by
  obtain ⟨hday, hfirst, hlast, hone, hdays⟩ := dayOf_civil (t / millisPerDay)
  have hr : (t % millisPerDay).toNat < 86400000 := by
    simp only [millisPerDay]
    omega
  constructor
  · simp only [toMillis, ofMillis, hday]
    simp only [millisPerDay]
    omega
  · refine ⟨hfirst, hlast, hone, hdays, ?_⟩
    simp only [ofMillis]
    omega

theorem toMillis_lt_of_before {a b : DateTime} (ha : a.IsValid) (hb : b.IsValid)
    (h : a.Before b) : a.toMillis < b.toMillis := by
  have hlt := ha.timeOfDay_lt
  have hdate (hd : a.year < b.year ∨ a.year = b.year ∧ (a.month < b.month ∨
      a.month = b.month ∧ a.day < b.day)) : a.toMillis < b.toMillis := by
    have hday := dayOf_lt ha.isDate hb.isDate hd
    rw [toMillis_eq, toMillis_eq, millisPerDay]
    omega
  rcases h with h | ⟨hyear, h | ⟨hmonth, h | ⟨hday, htime⟩⟩⟩
  · exact hdate (.inl h)
  · exact hdate (.inr ⟨hyear, .inl h⟩)
  · exact hdate (.inr ⟨hyear, .inr ⟨hmonth, h⟩⟩)
  · obtain ⟨-, -, -, -, -, hminute, hsecond, hmillisecond⟩ := ha
    obtain ⟨-, -, -, -, -, hminute', hsecond', hmillisecond'⟩ := hb
    rw [toMillis_eq, toMillis_eq, hyear, hmonth, hday, timeOfDay, timeOfDay]
    omega

/-- Of two calendar times one is before the other, unless they are the same. -/
theorem before_total (a b : DateTime) : a.Before b ∨ a = b ∨ b.Before a := by
  obtain ⟨y, m, d, h, n, s, x⟩ := a
  obtain ⟨y', m', d', h', n', s', x'⟩ := b
  simp only [Before, DateTime.mk.injEq]
  omega

/-- Calendar times are in the order of their instants. -/
theorem toMillis_lt_iff {a b : DateTime} (ha : a.IsValid) (hb : b.IsValid) :
    a.toMillis < b.toMillis ↔ a.Before b := by
  refine ⟨fun h => ?_, toMillis_lt_of_before ha hb⟩
  rcases before_total a b with hbefore | rfl | hafter
  · exact hbefore
  · exact absurd h (Int.lt_irrefl _)
  · exact absurd h (Int.lt_asymm (toMillis_lt_of_before hb ha hafter))

/-- An instant has one calendar time. -/
theorem ofMillis_eq_iff {t : Int} {d : DateTime} : ofMillis t = d ↔ d.IsValid ∧ d.toMillis = t := by
  obtain ⟨hmillis, hvalid⟩ := toMillis_ofMillis t
  constructor
  · rintro rfl
    exact ⟨hvalid, hmillis⟩
  · rintro ⟨hd, hinstant⟩
    rcases before_total (ofMillis t) d with h | h | h
    · have hlt := (toMillis_lt_iff hvalid hd).2 h
      omega
    · exact h
    · have hlt := (toMillis_lt_iff hd hvalid).2 h
      omega

theorem daysInMonth_le (year : Int) (month : Nat) : daysInMonth year month ≤ 31 := by
  unfold daysInMonth
  split_ifs <;> omega

/-- Instants are shown in the years from -262143 to 262142. -/
theorem isSome_ofMillis?_iff (t : Int) : (ofMillis? t).isSome ↔
    -262143 ≤ (ofMillis t).year ∧ (ofMillis t).year ≤ 262142 := by
  let first : DateTime := ⟨-262143, 1, 1, 0, 0, 0, 0⟩
  let last : DateTime := ⟨262142, 12, 31, 23, 59, 59, 999⟩
  have hfirst : first.IsValid ∧ first.toMillis = earliest := by decide
  have hlast : last.IsValid ∧ last.toMillis = latest := by decide
  obtain ⟨hmillis, hvalid⟩ := toMillis_ofMillis t
  have hlow := toMillis_lt_iff hvalid hfirst.1
  have hhigh := toMillis_lt_iff hlast.1 hvalid
  rw [hmillis, hfirst.2] at hlow
  rw [hmillis, hlast.2] at hhigh
  have hsome : (ofMillis? t).isSome ↔ ¬t < earliest ∧ ¬latest < t := by
    rw [ofMillis?, Int.not_lt, Int.not_lt]
    split <;> simp [*]
  rw [hsome, hlow, hhigh]
  have hdays := daysInMonth_le (ofMillis t).year (ofMillis t).month
  simp only [IsValid, Before, first, last] at hvalid ⊢
  omega

end DateTime

namespace Message

open Calendar

/-- Instants are counted in days of the calendar. The timestamp of a message is shown just if it
lies within the years that the calendar covers. Then it is shown as the one date and time of day in
the calendar whose instant it is, and of two messages the earlier one is shown by the earlier
fields. -/
theorem calendar_time (m : Message) :
    IsDayCount dayOf ∧
    (m.createdAt?.isSome ↔
      -8334601228800000 ≤ m.timestamp.toInt ∧ m.timestamp.toInt ≤ 8210266876799999) ∧
    (∀ d : DateTime, d.IsValid → d.toMillis = m.timestamp.toInt →
      (m.createdAt?.isSome ↔ -262143 ≤ d.year ∧ d.year ≤ 262142)) ∧
    (∀ d, m.createdAt? = some d ↔
      m.createdAt?.isSome ∧ d.IsValid ∧ d.toMillis = m.timestamp.toInt) ∧
    ∀ (n : Message) (d e : DateTime), m.createdAt? = some d → n.createdAt? = some e →
      (m.timestamp < n.timestamp ↔ d.Before e) := by
  have hshown (m : Message) (d : DateTime) : m.createdAt? = some d ↔
      m.createdAt?.isSome ∧ d.IsValid ∧ d.toMillis = m.timestamp.toInt := by
    rw [← DateTime.ofMillis_eq_iff, createdAt?, DateTime.ofMillis?]
    split <;> simp
  refine ⟨isDayCount_dayOf, ?_, fun d hvalid hmillis => ?_, hshown m, fun n d e hd he => ?_⟩
  · rw [createdAt?, DateTime.ofMillis?, earliest, latest]
    split <;> simp [*]
  · rw [createdAt?, DateTime.isSome_ofMillis?_iff, DateTime.ofMillis_eq_iff.2 ⟨hvalid, hmillis⟩]
  · obtain ⟨-, hvalid, hmillis⟩ := (hshown m d).1 hd
    obtain ⟨-, hvalid', hmillis'⟩ := (hshown n e).1 he
    rw [Int64.lt_iff_toInt_lt, ← hmillis, ← hmillis', DateTime.toMillis_lt_iff hvalid hvalid']

/-- A leap day, and the last millisecond before the epoch. -/
example :
    let shown (t : Int64) := (create ⟨List.replicate 16 0, rfl⟩ t []).createdAt?
    shown 951826271005 = some ⟨2000, 2, 29, 12, 11, 11, 5⟩ ∧
      shown (-1) = some ⟨1969, 12, 31, 23, 59, 59, 999⟩ := by decide

end Message

end MessageDepot
