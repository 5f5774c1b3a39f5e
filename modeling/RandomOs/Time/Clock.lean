import Mathlib.Tactic

/-!
# Clocks from the time stamp counter (`tsc.c`, `uacpihost.c`)

A clock is a function of the 64-bit counter and of `_tsc_frq`, the counter's ticks per second.
-/

namespace Time

/-- `get_tscms`. -/
def getTscms (frq tsc : Nat) : Nat :=
  if frq = 0 then 0
  else if (2 ^ 64 - 1) / 1000 < tsc then tsc / frq * 1000 % 2 ^ 64
  else tsc * 1000 % 2 ^ 64 / frq

/-- `uacpi_kernel_get_nanoseconds_since_boot`. -/
def getNanoseconds (frq tsc : Nat) : Nat :=
  if frq = 0 then 0 else tsc * 1000000000 % 2 ^ 64 / frq

/-- The test of `uacpi_kernel_acquire_mutex` for giving up. -/
def mutexExpired (frq start now timeout : Nat) : Prop :=
  timeout ≠ 0xFFFF ∧ timeout * 1000000 ≤
    (getNanoseconds frq now + 2 ^ 64 - getNanoseconds frq start) % 2 ^ 64

/-- A clock with `unit` ticks per second is monotone, and within one tick of the exact time as long
as that fits in 64 bits, for counter values up to `last`. -/
structure Right (clock : Nat → Nat) (unit frq last : Nat) : Prop where
  mono : ∀ t₁ t₂, t₁ ≤ t₂ → t₂ ≤ last → clock t₁ ≤ clock t₂
  near : ∀ t ≤ last, t * unit / frq < 2 ^ 64 →
    clock t * frq < t * unit + frq ∧ t * unit < clock t * frq + frq

/-- A wait that times out has lasted its time, to within a tick of the clock. -/
def TimesOutLate (frq last : Nat) : Prop :=
  ∀ start now timeout, start ≤ now → now ≤ last → mutexExpired frq start now timeout →
    timeout * 1000000 * frq < (now - start) * 1000000000 + frq

variable {frq last unit : Nat} {clock : Nat → Nat} {t : Nat}

theorem right_of_quotient (hfrq : 0 < frq) (h : ∀ t ≤ last, clock t = t * unit / frq) :
    Right clock unit frq last := by
  refine ⟨fun t₁ t₂ hle ht => ?_, fun t ht _ => ?_⟩
  · rw [h t₁ (hle.trans ht), h t₂ ht]
    exact Nat.div_le_div_right (Nat.mul_le_mul_right unit hle)
  · rw [h t ht]
    have hdiv := Nat.div_add_mod (t * unit) frq
    have hmod := Nat.mod_lt (t * unit) hfrq
    rw [Nat.mul_comm] at hdiv
    omega

/-! ## Milliseconds -/

theorem getTscms_of_le (hfrq : 0 < frq) (ht : t ≤ (2 ^ 64 - 1) / 1000) :
    getTscms frq t = t * 1000 / frq := by
  unfold getTscms
  rw [if_neg hfrq.ne', if_neg (by omega), Nat.mod_eq_of_lt (by omega)]

-- above the limit the counter is divided first
theorem getTscms_of_lt (hfrq : 1000 ≤ frq) (ht : t < 2 ^ 64) (hlt : (2 ^ 64 - 1) / 1000 < t) :
    getTscms frq t = t / frq * 1000 := by
  have hdiv : t / frq ≤ t / 1000 := Nat.div_le_div_left hfrq (by decide)
  unfold getTscms
  rw [if_neg (by omega), if_pos hlt, Nat.mod_eq_of_lt (by omega)]

-- what the early division loses
theorem getTscms_split (hfrq : 1000 ≤ frq) (ht : t < 2 ^ 64) (hlt : (2 ^ 64 - 1) / 1000 < t) :
    t * 1000 = getTscms frq t * frq + t % frq * 1000 := by
  rw [getTscms_of_lt hfrq ht hlt, Nat.mul_right_comm, ← Nat.add_mul, Nat.mul_comm (t / frq),
    Nat.div_add_mod]

theorem getTscms_right_iff (hfrq : 1000 ≤ frq) (hlast : last < 2 ^ 64) :
    Right (getTscms frq) 1000 frq last ↔
      ∀ t ≤ last, (2 ^ 64 - 1) / 1000 < t → t % frq * 1000 < frq := by
  have hpos : 0 < frq := by omega
  constructor
  · intro h t ht hlt
    have hfits : t * 1000 / frq < 2 ^ 64 :=
      (Nat.div_le_of_le_mul (by rw [Nat.mul_comm]; gcongr)).trans_lt (ht.trans_lt hlast)
    have hsplit := getTscms_split hfrq (by omega : t < 2 ^ 64) hlt
    have hnear := (h.near t ht hfits).2
    rw [hsplit] at hnear
    exact Nat.lt_of_add_lt_add_left hnear
  · intro h
    refine right_of_quotient hpos fun t ht => ?_
    by_cases hlt : (2 ^ 64 - 1) / 1000 < t
    · rw [getTscms_split hfrq (by omega) hlt, Nat.mul_comm, Nat.mul_add_div hpos,
        Nat.div_eq_of_lt (h t ht hlt), Nat.add_zero]
    · exact getTscms_of_le hpos (by omega)

/-! ## Nanoseconds -/

theorem getNanoseconds_of_lt (hfrq : 0 < frq) (ht : t * 1000000000 < 2 ^ 64) :
    getNanoseconds frq t = t * 1000000000 / frq := by
  unfold getNanoseconds
  rw [if_neg hfrq.ne', Nat.mod_eq_of_lt ht]

theorem timesOutLate (hfrq : 0 < frq)
    (hclock : ∀ t ≤ last, getNanoseconds frq t = t * 1000000000 / frq)
    (hfits : ∀ t ≤ last, t * 1000000000 < 2 ^ 64) : TimesOutLate frq last := by
  intro start now timeout hle hlate hexp
  have hlong := hexp.2
  rw [hclock start (hle.trans hlate), hclock now hlate] at hlong
  have hmono := Nat.div_le_div_right (c := frq) (Nat.mul_le_mul_right 1000000000 hle)
  have hnow := (Nat.div_le_self (now * 1000000000) frq).trans_lt (hfits now hlate)
  have helapsed : (now * 1000000000 / frq + 2 ^ 64 - start * 1000000000 / frq) % 2 ^ 64 =
      now * 1000000000 / frq - start * 1000000000 / frq := by
    rw [Nat.sub_add_comm hmono, Nat.add_mod_right,
      Nat.mod_eq_of_lt ((Nat.sub_le _ _).trans_lt hnow)]
  rw [helapsed, Nat.le_sub_iff_add_le hmono] at hlong
  have hmul := Nat.mul_le_mul_right frq hlong
  rw [Nat.add_mul] at hmul
  have hafter := Nat.div_mul_le_self (now * 1000000000) frq
  have hbefore := Nat.lt_div_mul_add (a := start * 1000000000) hfrq
  omega

/-- The millisecond clock is right as long as no counter value above `UINT64_MAX / 1000` is more
than a thousandth of a second past a full one, and the nanosecond clock as long as the counter times
10⁹ fits in 64 bits. -/
theorem clocks_right_iff (hlo : 1000000 ≤ frq) (hhi : frq ≤ 10000000000) (hlast : last < 2 ^ 64) :
    (Right (getTscms frq) 1000 frq last ↔
      ∀ t ≤ last, (2 ^ 64 - 1) / 1000 < t → t % frq * 1000 < frq) ∧
    (Right (getNanoseconds frq) 1000000000 frq last ∧ TimesOutLate frq last ↔
      last * 1000000000 < 2 ^ 64) := by
  have hfrq : 0 < frq := by omega
  refine ⟨getTscms_right_iff (by omega) hlast, fun h => ?_, fun h => ?_⟩
  · by_contra hbig
    -- the first value whose product does not fit
    have hfits : 18446744074 * 1000000000 / frq < 2 ^ 64 :=
      (Nat.div_le_div_left hlo (by decide)).trans_lt (by decide)
    have hnear := (h.1.near 18446744074 (by omega) hfits).2
    have hwraps : getNanoseconds frq 18446744074 * frq ≤ 290448384 := by
      unfold getNanoseconds
      rw [if_neg hfrq.ne']
      exact Nat.div_mul_le_self _ _
    omega
  · have hfits : ∀ t ≤ last, t * 1000000000 < 2 ^ 64 :=
      fun t ht => (Nat.mul_le_mul_right _ ht).trans_lt h
    have hclock : ∀ t ≤ last, getNanoseconds frq t = t * 1000000000 / frq :=
      fun t ht => getNanoseconds_of_lt hfrq (hfits t ht)
    exact ⟨right_of_quotient hfrq hclock, timesOutLate hfrq hclock hfits⟩

/-- The counter stays below 18 seconds of a 1 GHz clock. -/
theorem clocks_right_one_gigahertz : Right (getTscms 1000000000) 1000 1000000000 18000000000 ∧
    Right (getNanoseconds 1000000000) 1000000000 1000000000 18000000000 ∧
    TimesOutLate 1000000000 18000000000 := by
  have h := @clocks_right_iff 1000000000 18000000000 (by decide) (by decide) (by decide)
  exact ⟨h.1.2 fun t ht hlt => by omega, h.2.2 (by decide)⟩

/-- After 18.4 seconds the nanosecond clock falls back to 0, and a wait of a minute that has just
begun times out.  The millisecond clock falls by 73 at its limit. -/
theorem clocks_jump : getNanoseconds 1000000000 18446744073 = 18446744073 ∧
    getNanoseconds 1000000000 18446744074 = 0 ∧
    mutexExpired 1000000000 18446744073 18446744074 60000 ∧
    getTscms 1000000000 18446744073709552 < getTscms 1000000000 18446744073709551 := by
  unfold mutexExpired
  decide

end Time
