import Mathlib.Tactic

/-!
# Calendar time (`rtc.c`, `libc/src/time.c`)

The hardware clock is decoded to seconds since 1970, and `get_ctime` turns seconds into a date.
-/

namespace Time

/-! ## Dates -/

/-- The test of `rtc_gettime`. -/
def leap (y : Nat) : Bool := y % 4 == 0 && y % 100 != 0 || y % 400 == 0

/-- `_time_isleapyear`. -/
def timeIsleapyear (y : Nat) : Bool := y % 4 == 0 && (y % 100 != 0 || y % 400 == 0)

def yearDays (y : Nat) : Nat := if leap y then 366 else 365

/-- `dmos` of `rtc_gettime`, with the day it adds for February. -/
def monthDays (y m : Nat) : Nat :=
  [0, 31, 28, 31, 30, 31, 30, 31, 31, 30, 31, 30, 31].getD m 0 + if m = 2 ∧ leap y then 1 else 0

/-- The first loop of `rtc_gettime`: `n` years from 1970. -/
def daysOfYears : Nat → Nat
  | 0 => 0
  | n + 1 => daysOfYears n + yearDays (1970 + n)

/-- The second loop: the months 1 to `m`. -/
def daysOfMonths (y : Nat) : Nat → Nat
  | 0 => 0
  | m + 1 => daysOfMonths y m + monthDays y (m + 1)

structure Date where
  yr : Nat
  mon : Nat
  day : Nat

def Date.Valid (d : Date) : Prop :=
  1970 ≤ d.yr ∧ (1 ≤ d.mon ∧ d.mon ≤ 12) ∧ 1 ≤ d.day ∧ d.day ≤ monthDays d.yr d.mon

def Date.next (d : Date) : Date :=
  if d.day < monthDays d.yr d.mon then { d with day := d.day + 1 }
  else if d.mon < 12 then ⟨d.yr, d.mon + 1, 1⟩
  else ⟨d.yr + 1, 1, 1⟩

/-- The date `n` days after 1970-01-01. -/
def Date.after (n : Nat) : Date := Date.next^[n] ⟨1970, 1, 1⟩

def Date.count (d : Date) : Nat :=
  daysOfYears (d.yr - 1970) + daysOfMonths d.yr (d.mon - 1) + (d.day - 1)

theorem daysOfMonths_year (y : Nat) : daysOfMonths y 12 = yearDays y := by
  unfold yearDays
  cases h : leap y <;> simp [daysOfMonths, monthDays, h]

theorem monthDays_bounds (y : Nat) {m : Nat} (hm : 1 ≤ m ∧ m ≤ 12) :
    0 < monthDays y m ∧ monthDays y m ≤ 31 := by
  obtain ⟨hlo, hhi⟩ := hm
  unfold monthDays
  interval_cases m <;> split_ifs <;> simp_all

theorem next_days (y m k : Nat) (hk : k < monthDays y m) :
    Date.next^[k] ⟨y, m, 1⟩ = ⟨y, m, k + 1⟩ := by
  induction k with
  | zero => rfl
  | succ k ih =>
    rw [Function.iterate_succ_apply', ih (by omega), Date.next, if_pos hk]

theorem next_month (y : Nat) {m : Nat} (hm : 1 ≤ m ∧ m ≤ 12) :
    Date.next^[monthDays y m] ⟨y, m, 1⟩ = if m < 12 then ⟨y, m + 1, 1⟩ else ⟨y + 1, 1, 1⟩ := by
  have hpos := (monthDays_bounds y hm).1
  rw [← Nat.sub_add_cancel hpos, Function.iterate_succ_apply', next_days y m _ (by omega),
    Date.next, if_neg (by dsimp only; omega)]

theorem next_months (y m : Nat) (hm : m < 12) :
    Date.next^[daysOfMonths y m] ⟨y, 1, 1⟩ = ⟨y, m + 1, 1⟩ := by
  induction m with
  | zero => rfl
  | succ m ih =>
    rw [daysOfMonths, Nat.add_comm, Function.iterate_add_apply, ih (by omega),
      next_month _ (by omega), if_pos hm]

theorem after_years (n : Nat) : Date.after (daysOfYears n) = ⟨1970 + n, 1, 1⟩ := by
  induction n with
  | zero => rfl
  | succ n ih =>
    unfold Date.after at ih ⊢
    rw [daysOfYears, Nat.add_comm, Function.iterate_add_apply, ih, ← daysOfMonths_year,
      daysOfMonths, Nat.add_comm, Function.iterate_add_apply, next_months _ 11 (by omega),
      next_month _ (by omega)]
    rfl

theorem after_count {d : Date} (h : d.Valid) : Date.after d.count = d := by
  obtain ⟨hy, hm, hk⟩ := h
  have hyears := after_years (d.yr - 1970)
  have hmon : d.mon - 1 + 1 = d.mon := by omega
  unfold Date.after Date.count at *
  rw [Nat.add_comm, Function.iterate_add_apply, Nat.add_comm, Function.iterate_add_apply, hyears,
    show 1970 + (d.yr - 1970) = d.yr by omega, next_months _ _ (by omega), hmon,
    next_days _ _ _ (by omega), show d.day - 1 + 1 = d.day by omega]

theorem Date.Valid.next {d : Date} (h : d.Valid) : d.next.Valid ∧ d.next.count = d.count + 1 := by
  obtain ⟨y, m, k⟩ := d
  obtain ⟨hy, hm, hk⟩ := h
  dsimp only at hy hm hk
  unfold Date.next
  dsimp only
  split
  · exact ⟨⟨hy, hm, by dsimp only; omega⟩, by unfold Date.count; dsimp only; omega⟩
  have hmonths : daysOfMonths y m = daysOfMonths y (m - 1) + monthDays y m := by
    obtain ⟨j, rfl⟩ := Nat.exists_eq_add_of_le' hm.1
    rfl
  split
  · have hpos := (monthDays_bounds y (show 1 ≤ m + 1 ∧ m + 1 ≤ 12 by omega)).1
    refine ⟨⟨hy, by dsimp only; omega, by dsimp only; omega⟩, ?_⟩
    unfold Date.count
    dsimp only
    rw [Nat.add_sub_cancel, hmonths]
    omega
  · -- the last day of the year
    have hpos := (monthDays_bounds (y + 1) (show 1 ≤ 1 ∧ 1 ≤ 12 by omega)).1
    have hyears : daysOfYears (y + 1 - 1970) = daysOfYears (y - 1970) + yearDays y := by
      rw [show y + 1 - 1970 = y - 1970 + 1 by omega, daysOfYears,
        show 1970 + (y - 1970) = y by omega]
    obtain rfl : m = 12 := by omega
    rw [daysOfMonths_year] at hmonths
    refine ⟨⟨by dsimp only; omega, by dsimp only; omega, by dsimp only; omega⟩, ?_⟩
    unfold Date.count
    dsimp only
    rw [hyears, hmonths, Nat.sub_self, daysOfMonths]
    omega

-- every date is met once
theorem count_after (n : Nat) : (Date.after n).Valid ∧ (Date.after n).count = n := by
  induction n with
  | zero => exact ⟨by unfold Date.Valid; decide, rfl⟩
  | succ n ih =>
    obtain ⟨hvalid, hcount⟩ := ih.1.next
    unfold Date.after at *
    rw [Function.iterate_succ_apply']
    exact ⟨hvalid, by rw [hcount, ih.2]⟩

/-! ## The hardware clock -/

/-- What `rtc_gettime` reads; `century` is `none` if the FADT names no such register. -/
structure Rtc where
  stb : Nat
  secs : Nat
  mins : Nat
  hrs : Nat
  day : Nat
  mon : Nat
  hyear : Nat
  century : Option Nat

/-- `rtc_bcd2bin`. -/
def rtcBcd2bin (val : Nat) : Nat := val / 16 * 10 + val % 16

namespace Rtc

def decode (r : Rtc) (val : Nat) : Nat := if r.stb &&& 0x04 = 0 then rtcBcd2bin val else val

def hours (r : Rtc) : Nat :=
  let hrs := r.decode r.hrs
  if r.stb &&& 0x02 = 0 ∧ hrs &&& 0x80 ≠ 0 then ((hrs &&& 0x7F) + 12) % 24 else hrs

def year (r : Rtc) : Nat :=
  let century := (r.century.map r.decode).getD 0
  if century ≠ 0 then century * 100 + r.decode r.hyear else 2000 + r.decode r.hyear

/-- `rtc_gettime`. -/
def gettime (r : Rtc) : Nat :=
  let tdays := daysOfYears (r.year - 1970) + daysOfMonths r.year (r.decode r.mon - 1) +
    (r.decode r.day - 1)
  tdays * 86400 + r.hours * 3600 + r.decode r.mins * 60 + r.decode r.secs

/-- The MC146818 formats. -/
structure Format where
  binary : Bool
  h24 : Bool

def Format.byte (f : Format) (v : Nat) : Nat := if f.binary then v else v / 10 * 16 + v % 10

/-- The hour before 1 is 12, and bit 7 says PM. -/
def Format.hour (f : Format) (h : Nat) : Nat :=
  if f.h24 then f.byte h
  else f.byte ((h + 11) % 12 + 1) + if 12 ≤ h then 0x80 else 0

/-- The registers hold `h:mi:s` of day `d`. -/
structure Holds (r : Rtc) (f : Format) (d : Date) (h mi s : Nat) : Prop where
  binary : r.stb &&& 0x04 = 0 ↔ f.binary = false
  h24 : r.stb &&& 0x02 = 0 ↔ f.h24 = false
  secs : r.secs = f.byte s
  mins : r.mins = f.byte mi
  hrs : r.hrs = f.hour h
  day : r.day = f.byte d.day
  mon : r.mon = f.byte d.mon
  hyear : r.hyear = f.byte (d.yr % 100)
  century : r.century = none ∨ r.century = some (f.byte (d.yr / 100))

variable {r : Rtc} {f : Format} {d : Date} {h mi s : Nat}

theorem Holds.decode (hr : r.Holds f d h mi s) {v : Nat} (_ : v < 100) :
    r.decode (f.byte v) = v := by
  unfold Rtc.decode Format.byte rtcBcd2bin
  cases hb : f.binary <;> simp [hr.binary, hb]
  omega

theorem Holds.year (hr : r.Holds f d h mi s) (hlo : 2000 ≤ d.yr) (hhi : d.yr ≤ 2099) :
    r.year = d.yr := by
  have hyear := hr.decode (v := d.yr % 100) (by omega)
  have hcentury := hr.decode (v := d.yr / 100) (by omega)
  unfold Rtc.year
  rw [hr.hyear]
  rcases hr.century with hnone | hsome
  · simp only [hnone, Option.map_none, Option.getD_none]
    split_ifs <;> omega
  · simp only [hsome, Option.map_some, Option.getD_some, hcentury]
    split_ifs <;> omega

theorem Holds.hours_iff (hr : r.Holds f d h mi s) (hh : h < 24) :
    r.hours = h ↔ f.h24 = true ∨ h % 12 ≠ 0 ∧ (h < 12 ∨ f.binary = true) := by
  unfold hours Rtc.decode
  rw [hr.hrs]
  simp only [hr.binary, hr.h24]
  clear hr
  obtain ⟨binary, h24⟩ := f
  revert h binary h24
  decide

/-- The decoded time is right in the 24-hour formats, and otherwise for the hours that are not 12,
in the afternoon only if the bytes are binary. -/
theorem gettime_right_iff (hr : r.Holds f d h mi s) (hd : d.Valid) (hlo : 2000 ≤ d.yr)
    (hhi : d.yr ≤ 2099) (hh : h < 24) (hmi : mi < 60) (hs : s < 60) :
    (∃ n, Date.after n = d) ∧ ∀ n, Date.after n = d →
      (r.gettime = n * 86400 + h * 3600 + mi * 60 + s ↔
        f.h24 = true ∨ h % 12 ≠ 0 ∧ (h < 12 ∨ f.binary = true)) := by
  refine ⟨⟨d.count, after_count hd⟩, fun n hn => ?_⟩
  have hcount := (count_after n).2
  rw [hn] at hcount
  obtain ⟨-, hm, hk⟩ := hd
  have hlen := (monthDays_bounds d.yr hm).2
  unfold gettime
  rw [hr.year hlo hhi, hr.mon, hr.day, hr.mins, hr.secs, hr.decode (by omega), hr.decode (by omega),
    hr.decode (by omega), hr.decode (by omega), ← hr.hours_iff hh, ← hcount]
  unfold Date.count
  dsimp only
  omega

/-- 13:05:09 on the leap day of 2024, in binary. -/
def leapDay : Rtc := ⟨0x04, 9, 5, 0x81, 29, 2, 24, some 20⟩

theorem leapDay_holds : leapDay.Holds ⟨true, false⟩ ⟨2024, 2, 29⟩ 13 5 9 := by
  constructor <;> decide

theorem gettime_right_leapDay : leapDay.gettime = 19782 * 86400 + 13 * 3600 + 5 * 60 + 9 := by
  have hcount : (⟨2024, 2, 29⟩ : Date).count = 19782 := by decide
  have hd : (⟨2024, 2, 29⟩ : Date).Valid := by unfold Date.Valid; decide
  have hright := (gettime_right_iff leapDay_holds hd (by decide) (by decide) (by decide) (by decide)
    (by decide)).2 19782 (by rw [← hcount]; exact after_count hd)
  exact hright.mpr (Or.inr ⟨by decide, Or.inr rfl⟩)

/-- In BCD the PM bit is decoded with the digits: 1 PM is read as hour 81. -/
theorem gettime_afternoon_bcd : ∃ r : Rtc, r.Holds ⟨false, false⟩ ⟨2024, 2, 29⟩ 13 0 0 ∧
    Date.after 19782 = ⟨2024, 2, 29⟩ ∧ r.gettime = 19782 * 86400 + 81 * 3600 := by
  refine ⟨⟨0, 0, 0, 0x81, 0x29, 0x02, 0x24, none⟩, by constructor <;> decide, ?_, by decide⟩
  have hcount : (⟨2024, 2, 29⟩ : Date).count = 19782 := by decide
  rw [← hcount]
  exact after_count (by unfold Date.Valid; decide)

end Rtc

/-! ## `get_ctime` -/

structure Ctime where
  sec : Nat
  min : Nat
  hrs : Nat
  day : Nat
  mon : Nat
  yr : Nat
  leap : Bool

/-- `dmos[leap]`. -/
def dmos : Bool → List Nat
  | false => [31, 28, 31, 30, 31, 30, 31, 31, 30, 31, 30, 31]
  | true => [31, 29, 31, 30, 31, 30, 31, 31, 30, 31, 30, 31]

/-- `dty`. -/
def ctimeYear (yr : Nat) : Nat := if timeIsleapyear yr then 366 else 365

theorem timeIsleapyear_eq (y : Nat) : timeIsleapyear y = leap y := by
  unfold timeIsleapyear leap
  rw [Bool.eq_iff_iff]
  simp
  omega

theorem ctimeYear_eq (yr : Nat) : ctimeYear yr = yearDays yr := by
  rw [ctimeYear, timeIsleapyear_eq, yearDays]

theorem yearDays_pos (yr : Nat) : 0 < yearDays yr := by
  unfold yearDays
  split_ifs <;> decide

def yearLoop (yr day : Nat) : Nat × Nat :=
  if ctimeYear yr ≤ day then yearLoop (yr + 1) (day - ctimeYear yr) else (yr, day)
termination_by day
decreasing_by
  have hpos := yearDays_pos yr
  rw [← ctimeYear_eq] at hpos
  omega

/-- The loop over months; the list is the rest of the table, and `none` a read behind it. -/
def monthLoop : List Nat → Nat → Nat → Option (Nat × Nat)
  | [], _, _ => none
  | n :: dmos, mon, day => if n ≤ day then monthLoop dmos (mon + 1) (day - n) else some (mon, day)

/-- `get_ctime`. -/
def getCtime (epoch : Nat) : Option Ctime :=
  let rem := epoch % 86400
  let (yr, day) := yearLoop 1970 (epoch / 86400)
  let leap := timeIsleapyear yr
  (monthLoop (dmos leap) 0 day).map fun (mon, day) =>
    { sec := rem % 60, min := rem % 3600 / 60, hrs := rem / 3600, day, mon, yr, leap }

namespace Ctime

-- months and days start at 0
def date (c : Ctime) : Date := ⟨c.yr, c.mon + 1, c.day + 1⟩

def InRange (c : Ctime) : Prop :=
  c.date.Valid ∧ c.hrs < 24 ∧ c.min < 60 ∧ c.sec < 60 ∧ c.leap = Time.leap c.yr

/-- The seconds since 1970, counted as `rtc_gettime` does. -/
def epoch (c : Ctime) : Nat := c.date.count * 86400 + c.hrs * 3600 + c.min * 60 + c.sec

theorem eq_of_epoch_eq {c c' : Ctime} (hc : c.InRange) (hc' : c'.InRange)
    (h : c.epoch = c'.epoch) : c = c' := by
  obtain ⟨hd, hh, hm, hs, hl⟩ := hc
  obtain ⟨hd', hh', hm', hs', hl'⟩ := hc'
  unfold epoch at h
  have hdate : c.date = c'.date := by
    rw [← after_count hd, ← after_count hd', show c.date.count = c'.date.count by omega]
  obtain ⟨_, _, hrs, day, mon, yr, leap⟩ := c
  obtain ⟨_, _, hrs', day', mon', yr', leap'⟩ := c'
  obtain ⟨rfl, hmon, hday⟩ := hdate
  simp_all
  omega

end Ctime

theorem yearLoop_spec {yr day : Nat} (hyr : 1970 ≤ yr) : 1970 ≤ (yearLoop yr day).1 ∧
    (yearLoop yr day).2 < yearDays (yearLoop yr day).1 ∧
    daysOfYears ((yearLoop yr day).1 - 1970) + (yearLoop yr day).2 =
      daysOfYears (yr - 1970) + day := by
  fun_induction yearLoop yr day with
  | case1 yr day hle ih =>
    obtain ⟨hy, hd, hsum⟩ := ih (by omega)
    refine ⟨hy, hd, hsum.trans ?_⟩
    rw [ctimeYear_eq] at hle ⊢
    rw [show yr + 1 - 1970 = yr - 1970 + 1 by omega, daysOfYears,
      show 1970 + (yr - 1970) = yr by omega]
    omega
  | case2 yr day hlt =>
    rw [ctimeYear_eq] at hlt
    exact ⟨hyr, Nat.lt_of_not_le hlt, rfl⟩

theorem drop_dmos (y : Nat) {m : Nat} (hm : m < 12) :
    (dmos (leap y)).drop m = monthDays y (m + 1) :: (dmos (leap y)).drop (m + 1) := by
  cases h : leap y <;> interval_cases m <;> simp [dmos, monthDays, h]

theorem monthLoop_spec {y m day : Nat} (hm : m ≤ 12) (hday : daysOfMonths y m + day < yearDays y) :
    ∃ m' day', monthLoop ((dmos (leap y)).drop m) m day = some (m', day') ∧ m' < 12 ∧
      day' < monthDays y (m' + 1) ∧ daysOfMonths y m' + day' = daysOfMonths y m + day := by
  induction hk : 12 - m generalizing m day with
  | zero =>
    rw [show m = 12 by omega, daysOfMonths_year] at hday
    omega
  | succ k ih =>
    rw [drop_dmos y (by omega), monthLoop]
    split_ifs with hle
    · have hnext :
          daysOfMonths y (m + 1) + (day - monthDays y (m + 1)) = daysOfMonths y m + day := by
        rw [daysOfMonths]
        omega
      obtain ⟨m', day', hrun, hm', hd', hsum⟩ :=
        @ih (m + 1) (day - monthDays y (m + 1)) (by omega) (by omega) (by omega)
      exact ⟨m', day', hrun, hm', hd', hsum.trans hnext⟩
    · exact ⟨m, day, rfl, by omega, by omega, rfl⟩

/-- `get_ctime` returns the only fields in range that stand for its time. -/
theorem getCtime_inverts (epoch : Nat) : ∃ c, getCtime epoch = some c ∧ c.InRange ∧
    c.epoch = epoch ∧ ∀ c' : Ctime, c'.InRange → c'.epoch = epoch → c' = c := by
  obtain ⟨hyr, hday, hyears⟩ := @yearLoop_spec 1970 (epoch / 86400) (by omega)
  generalize hloop : yearLoop 1970 (epoch / 86400) = yd at *
  obtain ⟨mon, day, hrun, hmon, hday', hmonths⟩ :=
    @monthLoop_spec yd.1 0 yd.2 (by omega) (by rwa [daysOfMonths, Nat.zero_add])
  rw [daysOfMonths] at hmonths
  let c : Ctime := ⟨epoch % 86400 % 60, epoch % 86400 % 3600 / 60, epoch % 86400 / 3600, day, mon,
    yd.1, leap yd.1⟩
  have hc : getCtime epoch = some c := by
    rw [List.drop_zero] at hrun
    simp only [getCtime, hloop, timeIsleapyear_eq, hrun]
    rfl
  have hrange : c.InRange := by
    refine ⟨⟨hyr, ?_, ?_⟩, ?_, ?_, ?_, rfl⟩ <;> dsimp only [c, Ctime.date] <;> omega
  have hepoch : c.epoch = epoch := by
    have hcount : c.date.count = epoch / 86400 := by
      simp only [Nat.sub_self, daysOfYears, Nat.zero_add] at hyears
      simp only [c, Ctime.date, Date.count, Nat.add_sub_cancel]
      omega
    rw [Ctime.epoch, hcount]
    dsimp only [c]
    omega
  refine ⟨c, hc, hrange, hepoch, fun c' hrange' hepoch' => ?_⟩
  exact Ctime.eq_of_epoch_eq hrange' hrange (hepoch'.trans hepoch.symm)

end Time
