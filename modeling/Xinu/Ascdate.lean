import Xinu.Lib.Calendar
import Xinu.Numbers

/-!
# Dates as text

`ascdate` against the Gregorian calendar, with and without daylight saving time.
-/

namespace Xinu

open Calendar (next Leap monthDays yearDays monthSizes)

/-! ## date.h, ascdate.c -/

def DATE_DST_OFF : Int := 0
def DATE_DST_ON : Int := 1
def DATE_DST_AUTO : Int := 2

def SECPERDY : Nat := 60 * 60 * 24
def SECPERHR : Nat := 60 * 60
def SECPERMN : Nat := 60

def TIMEZONE : Nat := 5

abbrev isleap (x : Nat) : Prop := x % 4 = 0

def dtMsize : List Nat := [31, 28, 31, 30, 31, 30, 31, 31, 30, 31, 30, 31]

def dtMnam : List String :=
  ["Jan", "Feb", "Mar", "Apr", "May", "Jun", "Jul", "Aug", "Sep", "Oct", "Nov", "Dec"]

def dtDnam : List String := ["Sun", "Mon", "Tue", "Wed", "Thu", "Fri", "Sat"]

def zones : List String := ["EST", "CST", "MST", "PST"]
def dzones : List String := ["EDT", "CDT", "MDT", "PDT"]

/-- What `ascdate` prints. -/
structure AscDate where
  dayofweek : Nat
  month : Nat
  day : Nat
  hour : Nat
  minute : Nat
  second : Nat
  dst : Bool
  year : Nat
  deriving DecidableEq

/-- The loop over the years. -/
def yearLoop (year now : Nat) : Nat × Nat :=
  let days := if isleap year then 366 else 365
  let tmp := days * SECPERDY
  if now < tmp then (year, now) else yearLoop (year + 1) (now - tmp)
termination_by now
decreasing_by
  rename_i hge
  have hdays : SECPERDY ≤ (if isleap year then 366 else 365) * SECPERDY := by
    split
    · decide
    · decide
  have hpos : 0 < SECPERDY := by decide
  exact Nat.sub_lt_of_pos_le (hpos.trans_le hdays) (Nat.le_of_not_lt hge)

/-- The loop over the months, with the sizes of those to come. -/
def monthLoop (year : Nat) : List Nat → Nat → Nat → Nat × Nat
  | [], month, now => (month, now)
  | size :: sizes, month, now =>
      let tmp := size * SECPERDY
      let tmp := if month = 1 ∧ isleap year then tmp + SECPERDY else tmp
      if now < tmp then (month, now) else monthLoop year sizes (month + 1) (now - tmp)

/-- The weekday of 1 January of a year. -/
def ascShiftOf (year : Nat) : Nat :=
  let leapyrs := (year - 1969) / 4
  4 + (year - 1970) + leapyrs

/-- The fields in front of the section on daylight saving time. -/
def ascStandard (now : Nat) : AscDate :=
  let (year, now) := yearLoop 1970 now
  let days := now / SECPERDY
  let (month, now) := monthLoop year dtMsize 0 now
  let day := now / SECPERDY + 1
  let now := now % SECPERDY
  let hour := now / SECPERHR
  let now := now % SECPERHR
  let minute := now / SECPERMN
  let second := now % SECPERMN
  let shift := ascShiftOf year
  ⟨(shift + days) % 7, month, day, hour, minute, second, false, year⟩

/-- The day of the second Sunday in March. -/
def ascMarss (year jan1 : Nat) : Nat :=
  let mar1 := (jan1 + dtMsize.getD 0 0 + dtMsize.getD 1 0 + if isleap year then 1 else 0) % 7
  if mar1 = 0 then 8 else 15 - mar1

/-- The day of the first Sunday in November. -/
def ascNovfs (year jan1 : Nat) : Nat :=
  let nov1 := jan1 + (dtMsize.take 10).sum
  let nov1 := (if isleap year then nov1 + 1 else nov1) % 7
  if nov1 = 0 then 1 else 8 - nov1

/-- Whether daylight saving time is applied. -/
def ascDst (dt_daylight : Int) (d : AscDate) : Bool :=
  if dt_daylight = DATE_DST_ON then true
  else if dt_daylight = DATE_DST_AUTO then
    let jan1 := ascShiftOf d.year % 7
    if d.month = 11 ∨ d.month = 0 ∨ d.month = 1 then false
    else if 2 < d.month ∧ d.month < 10 then true
    else if d.month = 2 then
      ascMarss d.year jan1 < d.day ∨ d.day = ascMarss d.year jan1 ∧ 2 ≤ d.hour
    else if d.month = 10 then
      ¬ (ascNovfs d.year jan1 < d.day ∨ d.day = ascNovfs d.year jan1 ∧ 1 ≤ d.hour)
    else false
  else false

/-- One hour ahead, with the carry into the day and the month. -/
def ascShift (d : AscDate) : AscDate :=
  let d := { d with hour := d.hour + 1, dst := true }
  if 23 < d.hour then
    let d := { d with hour := 0, day := d.day + 1 }
    if dtMsize.getD d.month 0 < d.day then { d with day := 1, month := d.month + 1 } else d
  else d

/-- The fields that are printed. -/
def ascFields (dt_daylight : Int) (now : Nat) : AscDate :=
  let d := ascStandard now
  if ascDst dt_daylight d then ascShift d else d

/-- The strings that the format refers to, those of `Date` in the order of its fields; their places,
from 1 on, are their addresses. -/
def ascStrings : List String := dtMnam ++ dtDnam ++ zones ++ dzones

def ascStrAt (addr : Int) : List Nat := bytesOf (ascStrings.getD (addr - 1).toNat "")

/-- The call of `sprintf`. -/
def ascPrint (d : AscDate) : List Nat :=
  let mnam := 1
  let dnam := mnam + dtMnam.length
  let zone := dnam + dtDnam.length + if d.dst then zones.length else 0
  sprintf ascStrAt [] (bytesOf "%3s  %3s %2d  %2d:%02d:%02d %s %d")
    [(dnam + d.dayofweek : Nat), (mnam + d.month : Nat), d.day, d.hour, d.minute, d.second,
      (zone + (TIMEZONE - 5) : Nat), d.year]

def ascdate (dt_daylight : Int) (now : Nat) : List Nat := ascPrint (ascFields dt_daylight now)

/-! ## The calendar -/

/-- The fields of the time `t` seconds after the start of 1970, a Thursday. -/
def gregorian (dst : Bool) (t : Nat) : AscDate :=
  let date := next^[t / 86400] ⟨1970, 0, 1⟩
  { dayofweek := (4 + t / 86400) % 7
    month := date.month
    day := date.day
    hour := t % 86400 / 3600
    minute := t % 3600 / 60
    second := t % 60
    dst := dst
    year := date.year }

/-- The days from 1970 up to a year. -/
def daysBefore (year : Nat) : Nat := 365 * (year - 1970) + (year - 1969) / 4

variable {year now m r y : Nat}

theorem leap_iff (h : 1970 ≤ year) (h' : year < 2100) : Leap year ↔ isleap year := by
  unfold Leap isleap
  omega

theorem secperdy_yearDays (h : 1970 ≤ year) (h' : year < 2100) :
    (if isleap year then 366 else 365) * SECPERDY = yearDays year * 86400 := by
  unfold yearDays
  simp only [leap_iff h h']
  rfl

theorem daysBefore_succ (h : 1970 ≤ year) (h' : year < 2100) :
    daysBefore (year + 1) = daysBefore year + yearDays year := by
  unfold daysBefore yearDays
  simp only [leap_iff h h']
  unfold isleap
  split
  · omega
  · omega

/-- A time of year behind the days `n` of what has been subtracted. -/
theorem sub_days {t n : Nat} (h : n * 86400 ≤ t) :
    t / 86400 = (t - n * 86400) / 86400 + n ∧ t % 86400 = (t - n * 86400) % 86400 := by
  omega

/-- What the loop over the years leaves is within the year that it has found. -/
structure InYear (now : Nat) (r : Nat × Nat) : Prop where
  low : 1970 ≤ r.1
  high : r.1 < 2100
  inside : r.2 < yearDays r.1 * 86400
  days : now / 86400 = daysBefore r.1 + r.2 / 86400
  rest : now % 86400 = r.2 % 86400
  date : next^[now / 86400] ⟨1970, 0, 1⟩ = next^[r.2 / 86400] ⟨r.1, 0, 1⟩

theorem yearLoop_inYear {now₀ : Nat} (hlow : 1970 ≤ year)
    (hdays : now₀ / 86400 = daysBefore year + now / 86400) (hrest : now₀ % 86400 = now % 86400)
    (hdate : next^[now₀ / 86400] ⟨1970, 0, 1⟩ = next^[now / 86400] ⟨year, 0, 1⟩)
    (hbound : now₀ < 4102444800) : InYear now₀ (yearLoop year now) := by
  induction now using Nat.strong_induction_on generalizing year with
  | h now ih =>
    have hhigh : year < 2100 := by
      unfold daysBefore at hdays
      omega
    have hround : yearLoop year now = if now < yearDays year * 86400 then (year, now)
        else yearLoop (year + 1) (now - yearDays year * 86400) := by
      rw [← secperdy_yearDays hlow hhigh, yearLoop]
    have hpos : 365 ≤ yearDays year := by
      unfold yearDays
      split
      · decide
      · exact le_rfl
    rw [hround]
    split
    · rename_i hlt
      exact ⟨hlow, hhigh, hlt, hdays, hrest, hdate⟩
    · rename_i hge
      obtain ⟨hquot, hmod⟩ := sub_days (Nat.le_of_not_lt hge)
      refine ih _ (by omega) (by omega) ?_ (hrest.trans hmod) ?_
      · rw [daysBefore_succ hlow hhigh, hdays, hquot]
        omega
      · rw [hdate, hquot, Calendar.iterate_year]

/-- What the loop over the months leaves is within the month that it has found. -/
structure InMonth (year m now : Nat) (r : Nat × Nat) : Prop where
  month : r.1 < 12
  inside : r.2 < monthDays year r.1 * 86400
  rest : now % 86400 = r.2 % 86400
  date : next^[now / 86400] ⟨year, m, 1⟩ = next^[r.2 / 86400] ⟨year, r.1, 1⟩

theorem msize_eq (h : 1970 ≤ year) (h' : year < 2100) (hm : m < dtMsize.length) :
    (if m = 1 ∧ isleap year then dtMsize[m] + 1 else dtMsize[m]) = monthDays year m := by
  have hleap := leap_iff h h'
  have hm' : m < 12 := hm
  unfold monthDays monthSizes
  simp only [hleap]
  interval_cases m
  all_goals simp [dtMsize]

theorem monthTmp_eq (h : 1970 ≤ year) (h' : year < 2100) (hm : m < dtMsize.length) :
    (if m = 1 ∧ isleap year then dtMsize[m] * SECPERDY + SECPERDY else dtMsize[m] * SECPERDY) =
      monthDays year m * 86400 := by
  have hday : SECPERDY = 86400 := rfl
  rw [← msize_eq h h' hm, ← hday]
  split
  · exact (Nat.succ_mul _ _).symm
  · rfl

/-- The months from `m` on begin with `m`. -/
theorem drop_monthSizes (hm : m < 12) :
    ((monthSizes year).drop m).sum = monthDays year m + ((monthSizes year).drop (m + 1)).sum := by
  have hm' : m < (monthSizes year).length := hm
  rw [List.drop_eq_getElem_cons hm', List.sum_cons, ← Calendar.monthDays_eq]

theorem monthLoop_inMonth (h : 1970 ≤ year) (h' : year < 2100) {sizes : List Nat}
    (hsizes : dtMsize.drop m = sizes) (hnow : now < ((monthSizes year).drop m).sum * 86400) :
    InMonth year m now (monthLoop year sizes m now) := by
  induction sizes generalizing m now with
  | nil =>
    have hge : dtMsize.length ≤ m := List.drop_eq_nil_iff.mp hsizes
    rw [List.drop_eq_nil_of_le (show (monthSizes year).length ≤ m from hge)] at hnow
    exact absurd hnow (Nat.not_lt_zero _)
  | cons size sizes ih =>
    have hm : m < dtMsize.length := by
      by_contra hge
      rw [List.drop_eq_nil_of_le (Nat.le_of_not_lt hge)] at hsizes
      cases hsizes
    rw [List.drop_eq_getElem_cons hm, List.cons.injEq] at hsizes
    obtain ⟨rfl, hsizes⟩ := hsizes
    have hround : monthLoop year (dtMsize[m] :: sizes) m now =
        if now < monthDays year m * 86400 then (m, now)
        else monthLoop year sizes (m + 1) (now - monthDays year m * 86400) := by
      rw [← monthTmp_eq h h' hm, monthLoop]
    rw [hround]
    split
    · rename_i hlt
      exact ⟨hm, hlt, rfl, rfl⟩
    · rename_i hge
      obtain ⟨hquot, hmod⟩ := sub_days (Nat.le_of_not_lt hge)
      rw [drop_monthSizes hm, Nat.add_mul] at hnow
      have hnow' : now - monthDays year m * 86400 <
          ((monthSizes year).drop (m + 1)).sum * 86400 := by omega
      have hmonth : m < 11 := by
        have hm' : m < 12 := hm
        by_contra hlast
        have hnil : (monthSizes year).drop (m + 1) = [] :=
          List.drop_eq_nil_of_le (show 12 ≤ m + 1 by omega)
        rw [hnil] at hnow'
        exact absurd hnow' (Nat.not_lt_zero _)
      obtain ⟨hin, hins, hr, hd⟩ := ih hsizes hnow'
      exact ⟨hin, hins, hmod.trans hr, by rw [hquot, Calendar.iterate_month hmonth, hd]⟩

/-! ## Without daylight saving time -/

/-- The time of day. -/
theorem clock_eq {t : Nat} (h : now % 86400 = t % 86400) :
    (t % SECPERDY / SECPERHR = now % 86400 / 3600 ∧
      t % SECPERDY % SECPERHR / SECPERMN = now % 3600 / 60) ∧
      t % SECPERDY % SECPERHR % SECPERMN = now % 60 := by
  have hday : SECPERDY = 86400 := rfl
  have hhour : SECPERHR = 3600 := rfl
  have hminute : SECPERMN = 60 := rfl
  rw [hday, hhour, hminute]
  omega

/-- A year of 365 days moves the weekday by one. -/
theorem weekday_eq (a l d : Nat) : (4 + a + l + d) % 7 = (4 + (365 * a + l + d)) % 7 := by
  omega

theorem ascStandard_eq (h : now < 4102444800) : ascStandard now = gregorian false now := by
  have hyear : InYear now (yearLoop 1970 now) :=
    yearLoop_inYear le_rfl (by simp [daysBefore]) rfl rfl h
  unfold ascStandard
  generalize yearLoop 1970 now = r at hyear
  obtain ⟨y, r⟩ := r
  obtain ⟨hlow, hhigh, hinside, hdays, hrest, hdate⟩ := hyear
  have hmonth : InMonth y 0 r (monthLoop y dtMsize 0 r) := by
    refine monthLoop_inMonth hlow hhigh rfl ?_
    rw [List.drop_zero, Calendar.sum_monthSizes]
    exact hinside
  dsimp only
  generalize monthLoop y dtMsize 0 r = p at hmonth
  obtain ⟨m, p⟩ := p
  obtain ⟨hm, hin, hr, hd⟩ := hmonth
  dsimp only at hdays hrest hdate hm hin hr hd ⊢
  have hquot : p / 86400 < monthDays y m := Nat.div_lt_of_lt_mul (by rwa [Nat.mul_comm])
  rw [hd, Calendar.iterate_day hquot] at hdate
  obtain ⟨⟨hhour, hminute⟩, hsecond⟩ := clock_eq (hrest.trans hr)
  have hweek : (ascShiftOf y + r / SECPERDY) % 7 = (4 + now / 86400) % 7 := by
    have hday : SECPERDY = 86400 := rfl
    rw [hday, hdays]
    exact weekday_eq (y - 1970) ((y - 1969) / 4) (r / 86400)
  have hday : p / SECPERDY + 1 = p / 86400 + 1 := rfl
  rw [hweek, hhour, hminute, hsecond, hday]
  unfold gregorian
  rw [hdate]

/-! ### The text -/

def weekdayName : Nat → String
  | 0 => "Sun"
  | 1 => "Mon"
  | 2 => "Tue"
  | 3 => "Wed"
  | 4 => "Thu"
  | 5 => "Fri"
  | _ => "Sat"

def monthName : Nat → String
  | 0 => "Jan"
  | 1 => "Feb"
  | 2 => "Mar"
  | 3 => "Apr"
  | 4 => "May"
  | 5 => "Jun"
  | 6 => "Jul"
  | 7 => "Aug"
  | 8 => "Sep"
  | 9 => "Oct"
  | 10 => "Nov"
  | _ => "Dec"

/-- Two digits, with `fill` for the first one if it is 0. -/
def twoDigits (fill : Char) (n : Nat) : List Nat :=
  [if n < 10 then fill.toNat else 48 + n / 10, 48 + n % 10]

def fourDigits (n : Nat) : List Nat :=
  [48 + n / 1000, 48 + n / 100 % 10, 48 + n / 10 % 10, 48 + n % 10]

/-- A date as in `Sat  Feb 28  23:59:59 EST 1970`. -/
def dateText (d : AscDate) : List Nat :=
  bytesOf (weekdayName d.dayofweek) ++
    (bytesOf "  " ++ (bytesOf (monthName d.month) ++ (bytesOf " " ++
    (twoDigits ' ' d.day ++ (bytesOf "  " ++ (twoDigits ' ' d.hour ++ (bytesOf ":" ++
    (twoDigits '0' d.minute ++ (bytesOf ":" ++ (twoDigits '0' d.second ++ (bytesOf " " ++
    (bytesOf (if d.dst then "EDT" else "EST") ++ (bytesOf " " ++ fourDigits d.year)))))))))))))

variable {strAt : Int → List Nat} {string fmt out : List Nat} {ap : List Int} {a : Int} {n : Nat}

theorem fdoprnt_plain (s : List Nat) (hs : '%'.toNat ∉ s) :
    fdoprnt strAt string (s ++ fmt) ap = s ++ fdoprnt strAt string fmt ap := by
  induction s with
  | nil => rfl
  | cons c s ih =>
    simp only [List.mem_cons, not_or] at hs
    rw [List.cons_append, fdoprnt, if_pos (Ne.symm hs.1), ih hs.2, List.cons_append]

/-- Behind a `%` stand a 0, if `zero`, and a width, and then `rest`. -/
def HasWidth (fmt : List Nat) (zero : Bool) (w : Int) (rest : List Nat) : Prop :=
  (fmt.head? ≠ some '%'.toNat ∧ fmt.head? ≠ some '-'.toNat) ∧
    (fmtFlag '0'.toNat fmt).1 = zero ∧ (fmtFlag '0'.toNat fmt).2.head? ≠ some '*'.toNat ∧
    fmtNum (fmtFlag '0'.toNat fmt).2 0 = (w, rest) ∧ rest.head? ≠ some '.'.toNat

instance (fmt : List Nat) (zero : Bool) (w : Int) (rest : List Nat) :
    Decidable (HasWidth fmt zero w rest) := inferInstanceAs (Decidable (_ ∧ _))

theorem HasWidth.spec {zero : Bool} {w : Int} {rest : List Nat} (h : HasWidth fmt zero w rest)
    (ap : List Int) : fmtSpec fmt ap =
      ⟨false, if zero then '0'.toNat else ' '.toNat, w, 0, rest, ap⟩ := by
  obtain ⟨⟨-, hjust⟩, hzero, hstar, hnum, hprec⟩ := h
  have hflag : fmtFlag '-'.toNat fmt = (false, fmt) := if_neg hjust
  have hwidth : fmtWidth (fmtFlag '0'.toNat fmt).2 ap = (w, rest, ap) := by
    unfold fmtWidth
    rw [if_neg hstar, hnum]
  have hmax : fmtPrec rest ap = (0, rest, ap) := if_neg hprec
  unfold fmtSpec
  simp only [hflag, hwidth, hmax, hzero]

/-- `%3s` and `%s`, for a text of three characters. -/
theorem conv_name (fmt rest : List Nat) (w : Int) (hfmt : HasWidth fmt false w ('s'.toNat :: rest))
    (hw : w = 3 ∨ w = 0) (ha : a ≠ 0) (hout : strAt a = out) (hlen : out.length = 3) :
    fdoprnt strAt string ('%'.toNat :: fmt) (a :: ap) = out ++ fdoprnt strAt string rest ap := by
  have hsp := hfmt.spec (a :: ap)
  have hx : fmtField strAt string (fmtSpec fmt (a :: ap)) 's'.toNat =
      ⟨[], out, string, false, ' '.toNat, 0, ap⟩ := by
    unfold fmtField
    rw [hsp, ← hout]
    simp [ha]
  rw [fdoprnt_conv strAt string hfmt.1.1 (congrArg Spec.fmt hsp), hx, hsp]
  dsimp only
  congr 1
  unfold fieldText fmtOut
  rcases hw with rfl | rfl
  · simp [MAXSTR, hlen]
  · simp [MAXSTR, hlen]

/-- What `%d` writes for `n` with a width and a fill character. -/
def paddedDecimal (fill : Nat) (fmin : Int) (n : Nat) : List Nat :=
  fmtOut false fmin ⟨[], prtl10 n, [], false, fill, 0, []⟩

theorem conv_decimal (fmt rest : List Nat) (zero : Bool) (w : Int)
    (hfmt : HasWidth fmt zero w ('d'.toNat :: rest))
    (hout : paddedDecimal (if zero then '0'.toNat else ' '.toNat) w n = out) :
    fdoprnt strAt string ('%'.toNat :: fmt) ((n : Int) :: ap) =
      out ++ fdoprnt strAt (prtl10 n) rest ap := by
  have hsp := hfmt.spec ((n : Int) :: ap)
  have hx : fmtField strAt string (fmtSpec fmt ((n : Int) :: ap)) 'd'.toNat =
      ⟨[], prtl10 n, prtl10 n, false, if zero then '0'.toNat else ' '.toNat, 0, ap⟩ := by
    have hneg : ¬ (n : Int) < 0 := by omega
    unfold fmtField
    rw [hsp]
    simp [hneg]
  rw [fdoprnt_conv strAt string hfmt.1.1 (congrArg Spec.fmt hsp), hx, hsp, fieldText, ← hout]
  rfl

theorem decimal_two : ∀ n < 100, paddedDecimal ' '.toNat 2 n = twoDigits ' ' n ∧
    paddedDecimal '0'.toNat 2 n = twoDigits '0' n := by decide +kernel

theorem decimal_year : ∀ n < 130, paddedDecimal ' '.toNat 0 (1970 + n) = fourDigits (1970 + n) := by
  decide +kernel

/-- The fields are in the ranges of a date until 2100. -/
structure AscDate.InRange (d : AscDate) : Prop where
  dayofweek : d.dayofweek < 7
  month : d.month < 12
  day : d.day < 100
  hour : d.hour < 100
  minute : d.minute < 100
  second : d.second < 100
  year : 1970 ≤ d.year ∧ d.year < 2100

theorem name_month : ∀ m < 12, ascStrAt (1 + m : Nat) = bytesOf (monthName m) ∧
    (bytesOf (monthName m)).length = 3 := by decide +kernel

theorem name_weekday : ∀ w < 7, ascStrAt (1 + dtMnam.length + w : Nat) = bytesOf (weekdayName w) ∧
    (bytesOf (weekdayName w)).length = 3 := by decide +kernel

theorem name_zone : ∀ dst : Bool, ascStrAt (1 + dtMnam.length + dtDnam.length +
    (if dst then zones.length else 0) + (TIMEZONE - 5) : Nat) =
        bytesOf (if dst then "EDT" else "EST") ∧
    (bytesOf (if dst then "EDT" else "EST")).length = 3 := by decide +kernel

theorem ascPrint_eq {d : AscDate} (h : d.InRange) : ascPrint d = dateText d := by
  obtain ⟨hweek, hmonth, hday, hhour, hminute, hsecond, hlow, hhigh⟩ := h
  obtain ⟨y, hy⟩ := Nat.exists_eq_add_of_le hlow
  have hyear : paddedDecimal ' '.toNat 0 d.year = fourDigits d.year := by
    rw [hy]
    exact decimal_year y (by omega)
  obtain ⟨hdnam, hdlen⟩ := name_weekday _ hweek
  obtain ⟨hmnam, hmlen⟩ := name_month _ hmonth
  obtain ⟨hzone, hzlen⟩ := name_zone d.dst
  unfold ascPrint sprintf dateText
  dsimp only
  refine (conv_name (bytesOf "3s  %3s %2d  %2d:%02d:%02d %s %d")
    (bytesOf "  %3s %2d  %2d:%02d:%02d %s %d") 3 (by decide) (.inl rfl) (by omega) hdnam
      hdlen).trans
      (congrArg _ ?_)
  refine (fdoprnt_plain (bytesOf "  ") (by decide)).trans (congrArg _ ?_)
  refine (conv_name (bytesOf "3s %2d  %2d:%02d:%02d %s %d") (bytesOf " %2d  %2d:%02d:%02d %s %d") 3
    (by decide) (.inl rfl) (by omega) hmnam hmlen).trans (congrArg _ ?_)
  refine (fdoprnt_plain (bytesOf " ") (by decide)).trans (congrArg _ ?_)
  refine (conv_decimal (bytesOf "2d  %2d:%02d:%02d %s %d") (bytesOf "  %2d:%02d:%02d %s %d") false 2
    (by decide) (decimal_two _ hday).1).trans (congrArg _ ?_)
  refine (fdoprnt_plain (bytesOf "  ") (by decide)).trans (congrArg _ ?_)
  refine (conv_decimal (bytesOf "2d:%02d:%02d %s %d") (bytesOf ":%02d:%02d %s %d") false 2
    (by decide)
    (decimal_two _ hhour).1).trans (congrArg _ ?_)
  refine (fdoprnt_plain (bytesOf ":") (by decide)).trans (congrArg _ ?_)
  refine (conv_decimal (bytesOf "02d:%02d %s %d") (bytesOf ":%02d %s %d") true 2 (by decide)
    (decimal_two _ hminute).2).trans (congrArg _ ?_)
  refine (fdoprnt_plain (bytesOf ":") (by decide)).trans (congrArg _ ?_)
  refine (conv_decimal (bytesOf "02d %s %d") (bytesOf " %s %d") true 2 (by decide)
    (decimal_two _ hsecond).2).trans (congrArg _ ?_)
  refine (fdoprnt_plain (bytesOf " ") (by decide)).trans (congrArg _ ?_)
  refine (conv_name (bytesOf "s %d") (bytesOf " %d") 0 (by decide) (.inr rfl) (by omega) hzone
    hzlen).trans (congrArg _ ?_)
  refine (fdoprnt_plain (bytesOf " ") (by decide)).trans (congrArg _ ?_)
  refine (conv_decimal (bytesOf "d") [] false 0 (by decide) hyear).trans ?_
  rw [fdoprnt, List.append_nil]

theorem gregorian_tables (dst : Bool) (t : Nat) :
    (gregorian dst t).month < 12 ∧ (gregorian dst t).dayofweek < 7 :=
  ⟨Calendar.month_iterate (by decide) _, Nat.mod_lt _ (by decide)⟩

theorem monthDays_le (y m : Nat) : monthDays y m ≤ 31 := by
  have hall : ∀ d ∈ monthSizes y, d ≤ 31 := by
    unfold monthSizes
    split
    · decide
    · decide
  by_cases hm : m < (monthSizes y).length
  · rw [Calendar.monthDays_eq hm]
    exact hall _ (List.getElem_mem hm)
  · unfold monthDays
    simp [Nat.le_of_not_lt hm]

theorem standard_inRange (h : now < 4102444800) : (ascStandard now).InRange := by
  have hyear : InYear now (yearLoop 1970 now) :=
    yearLoop_inYear le_rfl (by simp [daysBefore]) rfl rfl h
  unfold ascStandard
  generalize yearLoop 1970 now = r at hyear
  obtain ⟨y, r⟩ := r
  have hmonth : InMonth y 0 r (monthLoop y dtMsize 0 r) := by
    refine monthLoop_inMonth hyear.low hyear.high rfl ?_
    rw [List.drop_zero, Calendar.sum_monthSizes]
    exact hyear.inside
  dsimp only
  generalize monthLoop y dtMsize 0 r = p at hmonth
  obtain ⟨m, p⟩ := p
  have hle := monthDays_le y m
  have hin : p < monthDays y m * 86400 := hmonth.inside
  have hday : SECPERDY = 86400 := rfl
  have hhour : SECPERHR = 3600 := rfl
  have hminute : SECPERMN = 60 := rfl
  constructor
  · exact Nat.mod_lt _ (by decide)
  · exact hmonth.month
  · dsimp only
    rw [hday]
    omega
  · dsimp only
    rw [hday, hhour]
    omega
  · dsimp only
    rw [hday, hhour, hminute]
    omega
  · dsimp only
    rw [hminute]
    omega
  · exact ⟨hyear.low, hyear.high⟩

/-- With daylight saving time switched off `ascdate` prints the date of the calendar, until 2100. -/
theorem ascdate_off (h : now < 4102444800) :
    ascFields DATE_DST_OFF now = gregorian false now ∧
      ascdate DATE_DST_OFF now = dateText (gregorian false now) := by
  have hfields : ascFields DATE_DST_OFF now = gregorian false now := ascStandard_eq h
  refine ⟨hfields, ?_⟩
  unfold ascdate
  rw [hfields, ← ascStandard_eq h]
  exact ascPrint_eq (standard_inRange h)

/-- The last second of February 1970, a Saturday. -/
theorem ascdate_february : ascFields DATE_DST_OFF 5097599 = ⟨6, 1, 28, 23, 59, 59, false, 1970⟩ ∧
    ascdate DATE_DST_OFF 5097599 = bytesOf "Sat  Feb 28  23:59:59 EST 1970" := by
  have hdate : gregorian false 5097599 = ⟨6, 1, 28, 23, 59, 59, false, 1970⟩ := by decide +kernel
  have hoff := ascdate_off (show 5097599 < 4102444800 by decide)
  rw [hdate] at hoff
  exact hoff

/-! ## With daylight saving time -/

/-- Before the last hour of a day only the hour changes. -/
theorem ascShift_early (h : now % 86400 / 3600 < 23) :
    ascShift (gregorian false now) = gregorian true (now + 3600) := by
  have hday : (now + 3600) / 86400 = now / 86400 := by omega
  have hhour : (now + 3600) % 86400 / 3600 = now % 86400 / 3600 + 1 := by omega
  have hminute : (now + 3600) % 3600 / 60 = now % 3600 / 60 := by omega
  have hsecond : (now + 3600) % 60 = now % 60 := by omega
  have hshift : ascShift (gregorian false now) =
      { gregorian false now with hour := now % 86400 / 3600 + 1, dst := true } :=
    if_neg (show ¬ 23 < now % 86400 / 3600 + 1 by omega)
  rw [hshift]
  unfold gregorian
  rw [hday, hhour, hminute, hsecond]

/-- In the last hour the weekday would have to change as well. -/
theorem ascShift_late (h : ¬ now % 86400 / 3600 < 23) :
    ascShift (gregorian false now) ≠ gregorian true (now + 3600) := by
  have hsame : ∀ d, (ascShift d).dayofweek = d.dayofweek := by
    intro d
    unfold ascShift
    dsimp only
    split
    · split
      · rfl
      · rfl
    · rfl
  intro heq
  have hweek : (4 + now / 86400) % 7 = (4 + (now + 3600) / 86400) % 7 :=
    (hsame (gregorian false now)).symm.trans (congrArg AscDate.dayofweek heq)
  have hnext : (now + 3600) / 86400 = now / 86400 + 1 := by omega
  omega

/-- With daylight saving time it is one hour later, and the names are found in their tables. -/
def ShiftsRight (dt_daylight : Int) (now : Nat) : Prop :=
  (ascDst dt_daylight (ascStandard now) = true →
    ascFields dt_daylight now = gregorian true (now + 3600)) ∧
    (ascFields dt_daylight now).month < dtMnam.length ∧
    (ascFields dt_daylight now).dayofweek < dtDnam.length

/-- All is well except in the last hour of a day. -/
theorem ascdate_shift (dt_daylight : Int) (h : now < 4102444800) : ShiftsRight dt_daylight now ↔
    (ascDst dt_daylight (ascStandard now) = true → now % 86400 / 3600 < 23) := by
  have hfields : ascFields dt_daylight now =
      if ascDst dt_daylight (ascStandard now) then ascShift (ascStandard now)
      else ascStandard now := rfl
  unfold ShiftsRight
  rw [hfields, ascStandard_eq h]
  cases hdst : ascDst dt_daylight (gregorian false now) with
  | false => exact iff_of_true ⟨nofun, gregorian_tables false now⟩ nofun
  | true =>
    rw [if_pos rfl]
    by_cases hearly : now % 86400 / 3600 < 23
    · rw [ascShift_early hearly]
      exact iff_of_true ⟨fun _ => rfl, gregorian_tables true _⟩ fun _ => hearly
    · exact iff_of_false (fun hall => ascShift_late hearly (hall.1 rfl)) fun hall =>
        hearly (hall rfl)

theorem ascdate_noon : ShiftsRight DATE_DST_ON 43200 ↔
    (ascDst DATE_DST_ON (ascStandard 43200) = true → 43200 % 86400 / 3600 < 23) :=
  ascdate_shift DATE_DST_ON (by decide)

/-- At 23:00 on 1 July 1970 the next day is printed with the weekday of this one. -/
theorem ascdate_july : ¬ ∀ (dt_daylight : Int) (now : Nat), now < 4102444800 →
    ShiftsRight dt_daylight now := by
  intro hall
  have hdst : ascDst DATE_DST_AUTO (ascStandard 15721200) = true := by
    rw [ascStandard_eq (by decide)]
    decide +kernel
  have hshift := (hall DATE_DST_AUTO 15721200 (by decide)).1 hdst
  have hfields : ascFields DATE_DST_AUTO 15721200 = ascShift (ascStandard 15721200) := if_pos hdst
  rw [hfields, ascStandard_eq (by decide)] at hshift
  exact ascShift_late (by decide) hshift

end Xinu
