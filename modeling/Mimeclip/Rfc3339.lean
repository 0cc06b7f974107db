import Mimeclip.Lib.Digits
import Mimeclip.DbLru
import Mimeclip.Utf8

/-!
# Timestamps (`to_rfc3339` of `chrono`)

The texts that `last_used_at` holds: the fields of an instant in a fixed width, and its nanoseconds in groups of
three digits without the groups of zeros at the end. `+`, with which the offset begins, comes before the point, and
both before the digits, so the texts are in the order of the instants (`toRfc3339_lt_iff`).
-/

namespace Mimeclip

open Digits

/-! ### The calendar -/

def isLeapYear (year : Nat) : Bool := year % 4 == 0 && (year % 100 != 0 || year % 400 == 0)

def daysInMonth (year month : Nat) : Nat :=
  if month = 0 ∨ 12 < month then 0
  else if month = 2 then if isLeapYear year then 29 else 28
  else if month = 4 ∨ month = 6 ∨ month = 9 ∨ month = 11 then 30
  else 31

def daysBeforeMonth (year : Nat) : Nat → Nat
  | 0 => 0
  | month + 1 => daysBeforeMonth year month + daysInMonth year month

def daysInYear (year : Nat) : Nat := if isLeapYear year then 366 else 365

def daysBeforeYear : Nat → Nat
  | 0 => 0
  | year + 1 => daysBeforeYear year + daysInYear year

/-- A date of a year that is written with four digits. -/
structure NaiveDate where
  year : Nat
  month : Nat
  day : Nat
  year_lt : year < 10000
  day_pos : 0 < day
  day_le : day ≤ daysInMonth year month

structure NaiveTime where
  hour : Nat
  minute : Nat
  second : Nat
  nanosecond : Nat
  hour_lt : hour < 24
  minute_lt : minute < 60
  second_lt : second < 60
  nanosecond_lt : nanosecond < 1000000000

structure DateTime where
  date : NaiveDate
  time : NaiveTime

/-- The days since the year 0. -/
def NaiveDate.dayNumber (d : NaiveDate) : Nat := daysBeforeYear d.year + daysBeforeMonth d.year d.month + d.day

def NaiveTime.nanos (t : NaiveTime) : Nat := ((t.hour * 60 + t.minute) * 60 + t.second) * 1000000000 + t.nanosecond

/-- The nanoseconds since the year 0. -/
def DateTime.nanos (t : DateTime) : Nat := t.date.dayNumber * 86400000000000 + t.time.nanos

/-! ### The text -/

/-- The shortest of none, three, six and nine digits that is exact. -/
def fraction (nanosecond : Nat) : List Char :=
  if nanosecond = 0 then []
  else if nanosecond % 1000000 = 0 then '.' :: pad 3 (nanosecond / 1000000)
  else if nanosecond % 1000 = 0 then '.' :: pad 6 (nanosecond / 1000)
  else '.' :: pad 9 nanosecond

def utcOffset : List Char := ['+', '0', '0', ':', '0', '0']

def NaiveDate.text (d : NaiveDate) : List Char :=
  pad 4 d.year ++ '-' :: (pad 2 d.month ++ '-' :: pad 2 d.day)

def NaiveTime.text (t : NaiveTime) : List Char :=
  pad 2 t.hour ++ ':' :: (pad 2 t.minute ++ ':' :: (pad 2 t.second ++ (fraction t.nanosecond ++ utcOffset)))

def DateTime.text (t : DateTime) : List Char := t.date.text ++ 'T' :: t.time.text

def toRfc3339 (t : DateTime) : String := String.ofList t.text

/-! ### Days -/

theorem daysBeforeMonth_le {year month month' : Nat} (h : month ≤ month') :
    daysBeforeMonth year month ≤ daysBeforeMonth year month' := by
  induction h with
  | refl => exact Nat.le_refl _
  | step _ ih => exact ih.trans (Nat.le_add_right _ _)

theorem daysBeforeYear_le {year year' : Nat} (h : year ≤ year') : daysBeforeYear year ≤ daysBeforeYear year' := by
  induction h with
  | refl => exact Nat.le_refl _
  | step _ ih => exact ih.trans (Nat.le_add_right _ _)

theorem daysBeforeMonth_thirteen (year : Nat) : daysBeforeMonth year 13 = daysInYear year := by
  simp only [daysBeforeMonth, daysInMonth, daysInYear]
  cases isLeapYear year <;> rfl

namespace NaiveDate

variable (d e : NaiveDate)

theorem month_le : d.month ≤ 12 := by
  have hday := d.day_pos.trans_le d.day_le
  rw [daysInMonth] at hday
  split_ifs at hday <;> omega

theorem day_lt : d.day < 100 := by
  refine d.day_le.trans_lt ?_
  rw [daysInMonth]
  split_ifs <;> omega

theorem day_le_month : daysBeforeMonth d.year d.month + d.day ≤ daysBeforeMonth d.year (d.month + 1) :=
  Nat.add_le_add_left d.day_le _

theorem day_le_year : daysBeforeMonth d.year d.month + d.day ≤ daysInYear d.year := by
  refine d.day_le_month.trans ?_
  rw [← daysBeforeMonth_thirteen]
  exact daysBeforeMonth_le (Nat.succ_le_succ d.month_le)

variable {d e}

theorem dayNumber_lt_of_year (h : d.year < e.year) : d.dayNumber < e.dayNumber := by
  have hyears : daysBeforeYear (d.year + 1) ≤ daysBeforeYear e.year := daysBeforeYear_le h
  rw [daysBeforeYear] at hyears
  have hend := d.day_le_year
  have hday := e.day_pos
  unfold dayNumber
  omega

theorem dayNumber_lt_of_month (hyear : d.year = e.year) (h : d.month < e.month) : d.dayNumber < e.dayNumber := by
  have hmonths : daysBeforeMonth d.year (d.month + 1) ≤ daysBeforeMonth e.year e.month := hyear ▸ daysBeforeMonth_le h
  have hend := d.day_le_month
  have hday := e.day_pos
  unfold dayNumber
  rw [hyear] at hmonths hend ⊢
  omega

/-- The fields are in the order of the days. -/
theorem lex_of_dayNumber (h : d.dayNumber < e.dayNumber) :
    d.year < e.year ∨ d.year = e.year ∧ (d.month < e.month ∨ d.month = e.month ∧ d.day < e.day) := by
  rcases lt_trichotomy d.year e.year with hyear | hyear | hyear
  · exact .inl hyear
  · refine .inr ⟨hyear, ?_⟩
    rcases lt_trichotomy d.month e.month with hmonth | hmonth | hmonth
    · exact .inl hmonth
    · refine .inr ⟨hmonth, ?_⟩
      unfold dayNumber at h
      rw [hyear, hmonth] at h
      omega
    · exact absurd (dayNumber_lt_of_month hyear.symm hmonth) (Nat.lt_asymm h)
  · exact absurd (dayNumber_lt_of_year hyear) (Nat.lt_asymm h)

theorem eq_of_dayNumber (h : d.dayNumber = e.dayNumber) : d = e := by
  have hyear : d.year = e.year := by
    rcases lt_trichotomy d.year e.year with hyear | hyear | hyear
    · exact absurd h (dayNumber_lt_of_year hyear).ne
    · exact hyear
    · exact absurd h (dayNumber_lt_of_year hyear).ne'
  have hmonth : d.month = e.month := by
    rcases lt_trichotomy d.month e.month with hmonth | hmonth | hmonth
    · exact absurd h (dayNumber_lt_of_month hyear hmonth).ne
    · exact hmonth
    · exact absurd h (dayNumber_lt_of_month hyear.symm hmonth).ne'
  unfold dayNumber at h
  rw [hyear, hmonth, Nat.add_left_cancel_iff] at h
  obtain ⟨_, _, _, _, _, _⟩ := d
  obtain ⟨_, _, _, _, _, _⟩ := e
  cases hyear
  cases hmonth
  cases h
  rfl

theorem length_text (d : NaiveDate) : d.text.length = 10 := by
  simp [text]

theorem text_lt (h : d.dayNumber < e.dayNumber) : d.text < e.text := by
  refine pad_append_lt e.year_lt ?_
  rcases lex_of_dayNumber h with hyear | ⟨hyear, hrest⟩
  · exact .inl hyear
  · refine .inr ⟨hyear, List.cons_lt_cons_iff.2 (.inr ⟨rfl, ?_⟩)⟩
    refine pad_append_lt (e.month_le.trans_lt (by decide)) ?_
    rcases hrest with hmonth | ⟨hmonth, hday⟩
    · exact .inl hmonth
    · exact .inr ⟨hmonth, List.cons_lt_cons_iff.2 (.inr ⟨rfl, pad_lt hday e.day_lt⟩)⟩

end NaiveDate

/-! ### The fraction -/

/-- What is left of the fraction, of which `count` groups may still come, and the offset. -/
def groups : Nat → Nat → List Char
  | 0, _ => utcOffset
  | count + 1, n => if n = 0 then utcOffset else pad 3 (n / 1000 ^ count) ++ groups count (n % 1000 ^ count)

theorem groups_zero (count : Nat) : groups count 0 = utcOffset := by
  cases count <;> rfl

theorem groups_of_pos {count n : Nat} (h : n ≠ 0) :
    groups (count + 1) n = pad 3 (n / 1000 ^ count) ++ groups count (n % 1000 ^ count) := if_neg h

theorem pad_three_mod (n count : Nat) : pad 3 (n % (1000 ^ (count + 1)) / 1000 ^ count) = pad 3 (n / 1000 ^ count) := by
  rw [Nat.pow_succ, Nat.mod_mul_right_div_self]
  exact pad_mod 3 (n / 1000 ^ count)

theorem fraction_append (nanosecond : Nat) :
    fraction nanosecond ++ utcOffset = if nanosecond = 0 then utcOffset else '.' :: groups 3 nanosecond := by
  have hfirst : nanosecond ≠ 0 →
      groups 3 nanosecond = pad 3 (nanosecond / 1000 ^ 2) ++ groups 2 (nanosecond % 1000 ^ 2) := groups_of_pos
  have hsecond : nanosecond % 1000 ^ 2 ≠ 0 →
      groups 2 (nanosecond % 1000 ^ 2) = pad 3 (nanosecond / 1000 ^ 1) ++ groups 1 (nanosecond % 1000 ^ 1) := by
    intro h
    rw [groups_of_pos h, pad_three_mod nanosecond 1, Nat.mod_mod_of_dvd nanosecond (by decide)]
  have hthird : nanosecond % 1000 ^ 1 ≠ 0 → groups 1 (nanosecond % 1000 ^ 1) = pad 3 nanosecond ++ utcOffset := by
    intro h
    rw [groups_of_pos h, groups, Nat.pow_zero, Nat.div_one]
    exact congrArg (· ++ utcOffset) (pad_mod 3 nanosecond)
  rw [fraction]
  split_ifs with hzero hmillis hmicros
  · rfl
  · rw [hfirst hzero, show nanosecond % 1000 ^ 2 = 0 from hmillis, groups_zero]
    rfl
  · rw [hfirst hzero, hsecond hmillis, show nanosecond % 1000 ^ 1 = 0 from hmicros, groups_zero, pad_add 3 3,
      Nat.div_div_eq_div_mul, List.cons_append, List.append_assoc]
    rfl
  · rw [hfirst hzero, hsecond hmillis, hthird hmicros, pad_add 3 6, pad_add 3 3, List.cons_append, List.append_assoc,
      List.append_assoc]
    rfl

theorem utcOffset_lt_pad (width n : Nat) (cs : List Char) : utcOffset < pad (width + 1) n ++ cs := by
  cases hpad : pad (width + 1) n with
  | nil =>
    have := length_pad (width + 1) n
    rw [hpad] at this
    cases this
  | cons c rest =>
    obtain ⟨d, hd, rfl⟩ := mem_pad (hpad ▸ List.mem_cons_self : c ∈ pad (width + 1) n)
    have hdigits : ∀ d < 10, '+' < digit d := by decide
    exact List.cons_lt_cons_iff.2 (.inl (hdigits d hd))

theorem groups_lt {count n m : Nat} (h : n < m) (hm : m < 1000 ^ count) : groups count n < groups count m := by
  induction count generalizing n m with
  | zero =>
    rw [Nat.pow_zero] at hm
    omega
  | succ count ih =>
    have hpos : 0 < 1000 ^ count := Nat.pow_pos (by decide)
    rw [groups_of_pos (n := m) (by omega)]
    by_cases hzero : n = 0
    · rw [hzero, groups_zero]
      exact utcOffset_lt_pad 2 _ _
    · rw [groups_of_pos hzero]
      rw [Nat.pow_succ'] at hm
      refine pad_append_lt (Nat.div_lt_of_lt_mul (by rwa [Nat.mul_comm])) ?_
      rcases lex_of_lt hpos h with hdiv | ⟨hdiv, hmod⟩
      · exact .inl hdiv
      · exact .inr ⟨hdiv, ih hmod (Nat.mod_lt m hpos)⟩

theorem fraction_lt {n m : Nat} (h : n < m) (hm : m < 1000000000) :
    fraction n ++ utcOffset < fraction m ++ utcOffset := by
  rw [fraction_append, fraction_append, if_neg (show m ≠ 0 by omega)]
  split_ifs
  · exact List.cons_lt_cons_iff.2 (.inl (by decide))
  · exact List.cons_lt_cons_iff.2 (.inr ⟨rfl, groups_lt h hm⟩)

/-! ### Instants -/

namespace NaiveTime

variable {t u : NaiveTime}

theorem nanos_lt (t : NaiveTime) : t.nanos < 86400000000000 := by
  obtain ⟨hour, minute, second, nanosecond, hhour, hminute, hsecond, hnano⟩ := t
  unfold nanos
  dsimp only
  omega

/-- The fields are in the order of the nanoseconds. -/
theorem lex_of_nanos (h : t.nanos < u.nanos) :
    t.hour < u.hour ∨ t.hour = u.hour ∧ (t.minute < u.minute ∨ t.minute = u.minute ∧
      (t.second < u.second ∨ t.second = u.second ∧ t.nanosecond < u.nanosecond)) := by
  rcases lex_of_mul_add_lt u.nanosecond_lt h with hsecond | hnano
  · rcases lex_of_mul_add_lt u.second_lt hsecond with hminute | ⟨hminute, hsecond⟩
    · rcases lex_of_mul_add_lt u.minute_lt hminute with hhour | ⟨hhour, hminute⟩
      · exact .inl hhour
      · exact .inr ⟨hhour, .inl hminute⟩
    · have hu := u.minute_lt
      have ht := t.minute_lt
      omega
  · have hu := u.second_lt
    have ht := t.second_lt
    have hu' := u.minute_lt
    have ht' := t.minute_lt
    omega

theorem eq_of_nanos (h : t.nanos = u.nanos) : t = u := by
  obtain ⟨hour, minute, second, nanosecond, _, hminute, hsecond, hnano⟩ := t
  obtain ⟨hour', minute', second', nanosecond', _, hminute', hsecond', hnano'⟩ := u
  unfold nanos at h
  dsimp only at h
  obtain rfl : nanosecond = nanosecond' := by omega
  obtain rfl : second = second' := by omega
  obtain rfl : minute = minute' := by omega
  obtain rfl : hour = hour' := by omega
  rfl

theorem text_lt (h : t.nanos < u.nanos) : t.text < u.text := by
  refine pad_append_lt (u.hour_lt.trans (by decide)) ?_
  rcases lex_of_nanos h with hhour | ⟨hhour, hrest⟩
  · exact .inl hhour
  refine .inr ⟨hhour, List.cons_lt_cons_iff.2 (.inr ⟨rfl, pad_append_lt (u.minute_lt.trans (by decide)) ?_⟩)⟩
  rcases hrest with hminute | ⟨hminute, hrest⟩
  · exact .inl hminute
  refine .inr ⟨hminute, List.cons_lt_cons_iff.2 (.inr ⟨rfl, pad_append_lt (u.second_lt.trans (by decide)) ?_⟩)⟩
  rcases hrest with hsecond | ⟨hsecond, hnano⟩
  · exact .inl hsecond
  · exact .inr ⟨hsecond, fraction_lt hnano u.nanosecond_lt⟩

end NaiveTime

namespace DateTime

variable {t u : DateTime}

theorem nanos_injective : Function.Injective nanos := by
  intro t u h
  have ht := t.time.nanos_lt
  have hu := u.time.nanos_lt
  unfold nanos at h
  have hdate : t.date = u.date := NaiveDate.eq_of_dayNumber (by omega)
  rw [hdate] at h
  have htime : t.time = u.time := NaiveTime.eq_of_nanos (by omega)
  obtain ⟨date, time⟩ := t
  cases hdate
  cases htime
  rfl

instance linearOrderDateTime : LinearOrder DateTime := LinearOrder.lift' nanos nanos_injective

theorem lt_iff : t < u ↔ t.nanos < u.nanos := Iff.rfl

theorem text_lt (h : t < u) : t.text < u.text := by
  refine append_lt_append_of_lex (by rw [t.date.length_text, u.date.length_text]) ?_
  rcases lex_of_mul_add_lt u.time.nanos_lt (lt_iff.1 h) with hdate | ⟨hdate, htime⟩
  · exact .inl (NaiveDate.text_lt hdate)
  · rw [NaiveDate.eq_of_dayNumber hdate]
    exact .inr ⟨rfl, List.cons_lt_cons_iff.2 (.inr ⟨rfl, NaiveTime.text_lt htime⟩)⟩

theorem toRfc3339_strictMono : StrictMono toRfc3339 := by
  intro t u h
  rw [String.lt_iff, toRfc3339, toRfc3339, String.toList_ofList, String.toList_ofList]
  exact text_lt h

/-- The texts are what the cache relies on, with a parser that reads them. -/
theorem lawful {parse : String → Option DateTime} (hparse : ∀ t, parse (toRfc3339 t) = some t) :
    (Chrono.mk toRfc3339 parse).Lawful where
  strictMono := toRfc3339_strictMono
  parse_toRfc3339 := hparse

end DateTime

/-- SQLite compares texts bytewise. -/
theorem toRfc3339_lt_iff (t u : DateTime) :
    (asBytes (toRfc3339 t) < asBytes (toRfc3339 u) ↔ t < u) ∧ (toRfc3339 t = toRfc3339 u ↔ t = u) :=
  ⟨(asBytes_strictMono.comp DateTime.toRfc3339_strictMono).lt_iff_lt,
    DateTime.toRfc3339_strictMono.injective.eq_iff⟩

example : toRfc3339 ⟨⟨2024, 2, 29, by decide, by decide, by decide⟩,
    ⟨23, 59, 59, 120000, by decide, by decide, by decide, by decide⟩⟩ = "2024-02-29T23:59:59.000120+00:00" := by
  decide

end Mimeclip
