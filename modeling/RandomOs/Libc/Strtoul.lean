import Mathlib.Data.List.TakeWhile
import Mathlib.Data.Nat.Bitwise

/-!
# Numbers in strings (`strtoul.c`)

A string is the list of its characters before the NUL.  A pointer into it is what is left of the
list.  `strtoul` stops counting at `ULONG_MAX` and applies the sign after that; `strtol` counts
modulo 2^64.  Both skip `0x` without looking at what follows.
-/

namespace Libc

open List

/-! ## Model -/

def isspace (c : UInt8) : Bool :=
  c == 9 || c == 10 || c == 11 || c == 12 || c == 13 || c == 32

def ULONG_MAX : Nat := 2 ^ 64 - 1

/-- The value of a digit or a letter. -/
def digitVal (c : UInt8) : Option Nat :=
  if 48 ≤ c ∧ c ≤ 57 then some (c.toNat - 48)
  else if 97 ≤ c ∧ c ≤ 122 then some (c.toNat - 97 + 10)
  else if 65 ≤ c ∧ c ≤ 90 then some (c.toNat - 65 + 10)
  else none

-- `none` is the `break` of the loops
def digitOf (base : Nat) (c : UInt8) : Option Nat := (digitVal c).filter (· < base)

-- `*s` and `s[1]`
def at0 (s : List UInt8) : UInt8 := s.getD 0 0
def at1 (s : List UInt8) : UInt8 := s.getD 1 0

/-- The sign is a minus, and what comes after it. -/
def skipSign (s : List UInt8) : Bool × List UInt8 :=
  if at0 s = 43 ∨ at0 s = 45 then (at0 s == 45, s.drop 1) else (false, s)

/-- The base that is used and where the digits start. -/
def skipPrefix (base : Nat) (s : List UInt8) : Nat × List UInt8 :=
  if base = 0 then
    if at0 s = 48 then
      if at1 s = 120 ∨ at1 s = 88 then (16, s.drop 2) else (8, s)
    else (10, s)
  else if base = 16 then
    if at0 s = 48 ∧ (at1 s = 120 ∨ at1 s = 88) then (16, s.drop 2) else (16, s)
  else (base, s)

-- the inner loop, once the result is `ULONG_MAX`
def skipDigits (base : Nat) : List UInt8 → List UInt8
  | [] => []
  | c :: s =>
    match digitOf base c with
    | none => c :: s
    | some _ => skipDigits base s

def strtoulLoop (base : Nat) : (result : Nat) → List UInt8 → Nat × List UInt8
  | result, [] => (result, [])
  | result, c :: s =>
    match digitOf base c with
    | none => (result, c :: s)
    | some digit =>
      if (ULONG_MAX - digit) / base < result then (ULONG_MAX, skipDigits base (c :: s))
      else strtoulLoop base ((result * base + digit) % 2 ^ 64) s

def strtolLoop (base : Nat) : (result : Nat) → List UInt8 → Nat × List UInt8
  | result, [] => (result, [])
  | result, c :: s =>
    match digitOf base c with
    | none => (result, c :: s)
    | some digit => strtolLoop base ((result * base + digit) % 2 ^ 64) s

-- `endptr - nptr`
def endOffset (nptr start s : List UInt8) : Nat :=
  if start.length = s.length then 0 else nptr.length - s.length

/-- The result and the offset of the end pointer. -/
def strtoul (nptr : List UInt8) (base : Nat) : Nat × Nat :=
  let sign := skipSign (nptr.dropWhile isspace)
  let start := skipPrefix base sign.2
  let res := strtoulLoop start.1 0 start.2
  (if sign.1 then (2 ^ 64 - res.1) % 2 ^ 64 else res.1, endOffset nptr start.2 res.2)

-- `(long)`
def toLong (r : Nat) : Int := if r < 2 ^ 63 then r else (r : Int) - 2 ^ 64

def strtol (nptr : List UInt8) (base : Nat) : Int × Nat :=
  let sign := skipSign (nptr.dropWhile isspace)
  let start := skipPrefix base sign.2
  let res := strtolLoop start.1 0 start.2
  (if sign.1 then toLong ((2 ^ 64 - res.1) % 2 ^ 64) else toLong res.1,
    endOffset nptr start.2 res.2)

/-! ## The standard -/

def IsDigits (base : Nat) (ds : List UInt8) : Prop := ds ≠ [] ∧ ∀ c ∈ ds, (digitOf base c).isSome

/-- The number that digits stand for, behind a part that stands for `acc`. -/
def valueFrom (base acc : Nat) (ds : List UInt8) : Nat :=
  ds.foldl (fun v c => v * base + (digitOf base c).getD 0) acc

/-- Subject sequences without a sign, with their value. -/
inductive Unsigned (base : Nat) : List UInt8 → Nat → Prop
  | plain {ds} : base ≠ 0 → IsDigits base ds → Unsigned base ds (valueFrom base 0 ds)
  | hex {x ds} : base = 0 ∨ base = 16 → x = 120 ∨ x = 88 → IsDigits 16 ds →
      Unsigned base (48 :: x :: ds) (valueFrom 16 0 ds)
  | octal {ds} : base = 0 → IsDigits 8 (48 :: ds) →
      Unsigned base (48 :: ds) (valueFrom 8 0 (48 :: ds))
  | decimal {c ds} : base = 0 → c ≠ 48 → IsDigits 10 (c :: ds) →
      Unsigned base (c :: ds) (valueFrom 10 0 (c :: ds))

open Unsigned

inductive Subject (base : Nat) : List UInt8 → Int → Prop
  | bare {s v} : Unsigned base s v → Subject base s v
  | plus {s v} : Unsigned base s v → Subject base (43 :: s) v
  | minus {s v} : Unsigned base s v → Subject base (45 :: s) (-v)

/-- The longest subject sequence at the start of `t`. -/
def Longest (base : Nat) (t s : List UInt8) (v : Int) : Prop :=
  s <+: t ∧ Subject base s v ∧ ∀ s' v', s' <+: t → Subject base s' v' → s'.length ≤ s.length

/-- The result of a conversion, with the offset of the end pointer. -/
def Conforms {α : Type} (conv : Int → α) (base : Nat) (nptr : List UInt8) (r : α × Nat) : Prop :=
  (∃ s v, Longest base (nptr.dropWhile isspace) s v ∧
    r = (conv v, (nptr.takeWhile isspace).length + s.length)) ∨
  (∀ s v, s <+: nptr.dropWhile isspace → ¬ Subject base s v) ∧ r = (conv 0, 0)

def toUlong (v : Int) : Nat := if v.natAbs ≤ ULONG_MAX then (v % 2 ^ 64).toNat else ULONG_MAX

def clampLong (v : Int) : Int :=
  if v < -2 ^ 63 then -2 ^ 63 else if 2 ^ 63 - 1 < v then 2 ^ 63 - 1 else v

/-! ## Digits -/

section Digits

variable {base : Nat}

variable {d r : Nat}

theorem digitOf_lt {c : UInt8} (h : digitOf base c = some d) : d < base := by
  unfold digitOf at h
  rw [Option.filter_eq_some_iff] at h
  simpa using h.2

theorem skipDigits_eq (s : List UInt8) :
    skipDigits base s = s.dropWhile fun c => (digitOf base c).isSome := by
  induction s with
  | nil => rfl
  | cons c s ih =>
    unfold skipDigits
    cases h : digitOf base c with
    | none => rw [dropWhile_cons_of_neg (by simp [h])]
    | some d =>
      rw [dropWhile_cons_of_pos (by simp [h])]
      exact ih

theorem valueFrom_cons (acc : Nat) (c : UInt8) (ds : List UInt8) :
    valueFrom base acc (c :: ds) = valueFrom base (acc * base + (digitOf base c).getD 0) ds := rfl

-- more digits never make a number smaller
theorem le_valueFrom (hbase : 0 < base) (acc : Nat) (ds : List UInt8) :
    acc ≤ valueFrom base acc ds := by
  induction ds generalizing acc with
  | nil => exact Nat.le_refl acc
  | cons c ds ih =>
    rw [valueFrom_cons]
    have hmul : acc * 1 ≤ acc * base := Nat.mul_le_mul_left acc hbase
    exact Nat.le_trans (by omega) (ih _)

theorem overflow_iff (hbase : 0 < base) (hd : d ≤ ULONG_MAX) :
    (ULONG_MAX - d) / base < r ↔ ULONG_MAX < r * base + d := by
  rw [Nat.div_lt_iff_lt_mul hbase]
  omega

theorem strtoulLoop_eq (hbase : 0 < base) (hle : base ≤ 36) (hr : r ≤ ULONG_MAX) (s : List UInt8) :
    strtoulLoop base r s =
      (min (valueFrom base r (s.takeWhile fun c => (digitOf base c).isSome)) ULONG_MAX,
        s.dropWhile fun c => (digitOf base c).isSome) := by
  induction s generalizing r with
  | nil =>
    change (r, []) = (min r ULONG_MAX, [])
    rw [Nat.min_eq_left hr]
  | cons c s ih =>
    unfold strtoulLoop
    cases h : digitOf base c with
    | none =>
      rw [takeWhile_cons_of_neg (by simp [h]), dropWhile_cons_of_neg (by simp [h])]
      change (r, c :: s) = (min r ULONG_MAX, c :: s)
      rw [Nat.min_eq_left hr]
    | some d =>
      have hd := digitOf_lt h
      have hmax : d ≤ ULONG_MAX := by
        unfold ULONG_MAX
        omega
      rw [takeWhile_cons_of_pos (by simp [h]), dropWhile_cons_of_pos (by simp [h]),
        valueFrom_cons, h, Option.getD_some]
      dsimp only
      split
      · -- the rest of the digits only makes it larger
        rename_i hover
        rw [overflow_iff hbase hmax] at hover
        have hrest := le_valueFrom hbase (r * base + d)
          (s.takeWhile fun c => (digitOf base c).isSome)
        rw [skipDigits_eq, dropWhile_cons_of_pos (by simp [h]),
          Nat.min_eq_right (by omega)]
      · rename_i hfits
        rw [overflow_iff hbase hmax] at hfits
        have hlt : r * base + d < 2 ^ 64 := by
          unfold ULONG_MAX at hfits
          omega
        rw [Nat.mod_eq_of_lt hlt]
        exact ih (by omega)

theorem strtolLoop_eq (hr : r < 2 ^ 64) (s : List UInt8) :
    strtolLoop base r s =
      (valueFrom base r (s.takeWhile fun c => (digitOf base c).isSome) % 2 ^ 64,
        s.dropWhile fun c => (digitOf base c).isSome) := by
  have hmod : ∀ (ds : List UInt8) (a : Nat),
      valueFrom base (a % 2 ^ 64) ds % 2 ^ 64 = valueFrom base a ds % 2 ^ 64 := by
    intro ds
    induction ds with
    | nil => exact fun a => Nat.mod_mod _ _
    | cons c ds ih =>
      intro a
      rw [valueFrom_cons, valueFrom_cons, ← ih, ← ih (a * base + _), Nat.add_mod, Nat.mul_mod,
        Nat.mod_mod, ← Nat.mul_mod, ← Nat.add_mod]
  induction s generalizing r with
  | nil =>
    change (r, []) = (r % 2 ^ 64, [])
    rw [Nat.mod_eq_of_lt hr]
  | cons c s ih =>
    unfold strtolLoop
    cases h : digitOf base c with
    | none =>
      rw [takeWhile_cons_of_neg (by simp [h]), dropWhile_cons_of_neg (by simp [h])]
      change (r, c :: s) = (r % 2 ^ 64, c :: s)
      rw [Nat.mod_eq_of_lt hr]
    | some d =>
      rw [takeWhile_cons_of_pos (by simp [h]), dropWhile_cons_of_pos (by simp [h]),
        valueFrom_cons, h, Option.getD_some]
      dsimp only
      rw [ih (Nat.mod_lt _ (by decide)), hmod]

end Digits

/-! ## Subject sequences -/

/-- The digits at the start of `s`. -/
def digits (base : Nat) (s : List UInt8) : List UInt8 :=
  s.takeWhile fun c => (digitOf base c).isSome

def HexPrefix (base : Nat) (r : List UInt8) : Prop :=
  (base = 0 ∨ base = 16) ∧ at0 r = 48 ∧ (at1 r = 120 ∨ at1 r = 88)

/-- A prefix that no hexadecimal digit follows. -/
def Dangling (base : Nat) (r : List UInt8) : Prop :=
  HexPrefix base r ∧ digitOf 16 (r.getD 2 0) = none

section Prefix

variable {base : Nat} {r s : List UInt8} {v : Nat}

theorem isPrefix_digits (h : s <+: r) (hs : ∀ c ∈ s, (digitOf base c).isSome) :
    s <+: digits base r := by
  obtain ⟨t, rfl⟩ := h
  unfold digits
  rw [takeWhile_append_of_pos hs]
  exact prefix_append _ _

theorem mem_digits {c : UInt8} (h : c ∈ digits base s) : (digitOf base c).isSome :=
  mem_takeWhile_imp (p := fun c => (digitOf base c).isSome) h

theorem isDigits_digits (h : digits base s ≠ []) : IsDigits base (digits base s) :=
  ⟨h, fun _ hc => mem_digits hc⟩

theorem exists_of_hexPrefix (h : HexPrefix base r) :
    ∃ x t, r = 48 :: x :: t ∧ (x = 120 ∨ x = 88) := by
  obtain ⟨-, h0, h1⟩ := h
  match r, h0, h1 with
  | [], h0, _ => cases h0
  | [_], _, h1 =>
    rcases h1 with h1 | h1
    · cases h1
    · cases h1
  | c :: x :: t, h0, h1 => exact ⟨x, t, congrArg (· :: x :: t) h0, h1⟩

variable {x : UInt8} {t : List UInt8}

theorem skipPrefix_of_hex (h : HexPrefix base (48 :: x :: t)) :
    skipPrefix base (48 :: x :: t) = (16, t) := by
  obtain ⟨hbase, h0, h1⟩ := h
  unfold skipPrefix
  rcases hbase with rfl | rfl
  · rw [if_pos h1]
    rfl
  · rw [if_neg (by decide), if_pos rfl, if_pos ⟨h0, h1⟩]
    rfl

theorem skipPrefix_of_not_hex (h : ¬ HexPrefix base r) :
    skipPrefix base r = (if base = 0 then if at0 r = 48 then 8 else 10 else base, r) := by
  unfold skipPrefix
  by_cases h0 : base = 0
  · rw [if_pos h0, if_pos h0]
    by_cases hz : at0 r = 48
    · rw [if_pos hz, if_pos hz, if_neg fun hx => h ⟨Or.inl h0, hz, hx⟩]
    · rw [if_neg hz, if_neg hz]
  · rw [if_neg h0, if_neg h0]
    by_cases h16 : base = 16
    · rw [if_pos h16, if_neg fun hx => h ⟨Or.inr h16, hx⟩, h16]
    · rw [if_neg h16]

-- `x` is not a digit of base 8 or 16
theorem digits_of_x {b : Nat} (hb : b ≤ 16) (hx : x = 120 ∨ x = 88) :
    (digits b (48 :: x :: t)).length ≤ 1 := by
  have hval : digitOf b x = none := by
    unfold digitOf
    rcases hx with rfl | rfl
    · have h33 : digitVal 120 = some 33 := by decide
      rw [h33]
      simp
      omega
    · have h33 : digitVal 88 = some 33 := by decide
      rw [h33]
      simp
      omega
  unfold digits
  rw [takeWhile_cons]
  split
  · rw [takeWhile_cons_of_neg (by simp [hval])]
    exact Nat.le_refl 1
  · exact Nat.zero_le 1

/-- Every subject sequence at the start of `r` ends where the digits of the code end, or before. -/
theorem Unsigned.le (hsub : Unsigned base s v) (hpre : s <+: r) :
    s.length ≤ r.length - (skipPrefix base r).2.length +
        (digits (skipPrefix base r).1 (skipPrefix base r).2).length ∧
      (s.length = r.length - (skipPrefix base r).2.length +
        (digits (skipPrefix base r).1 (skipPrefix base r).2).length →
          v = valueFrom (skipPrefix base r).1 0
            (digits (skipPrefix base r).1 (skipPrefix base r).2)) := by
  -- digits of the base at the start of what the code reads
  have hplain : ∀ b ds, IsDigits b ds → ds <+: r → ds.length ≤ (digits b r).length ∧
      (ds.length = (digits b r).length → valueFrom b 0 ds = valueFrom b 0 (digits b r)) := by
    intro b ds hds hle
    have hpre' := isPrefix_digits hle hds.2
    exact ⟨hpre'.length_le, fun heq => by rw [hpre'.eq_of_length heq]⟩
  by_cases hhex : HexPrefix base r
  · obtain ⟨x, t, rfl, hx⟩ := exists_of_hexPrefix hhex
    rw [skipPrefix_of_hex hhex]
    have hlen : (48 :: x :: t).length - t.length = 2 := by
      rw [length_cons, length_cons]
      omega
    rw [hlen]
    dsimp only
    -- without the prefix only the zero is left
    have hshort : ∀ b ≤ 16, IsDigits b s → s.length ≤ 1 := by
      intro b hb hds
      exact (hplain b s hds hpre).1.trans (digits_of_x hb hx)
    cases hsub with
    | plain hne hds =>
      have hone : s.length ≤ 1 := by
        rcases hhex.1 with h0 | h16
        · exact absurd h0 hne
        · subst h16
          exact hshort 16 (Nat.le_refl _) hds
      omega
    | octal h0 hds =>
      have hone := hshort 8 (by omega) hds
      omega
    | decimal h0 hc hds =>
      obtain ⟨u, hu⟩ := hpre
      rw [cons_append, List.cons.injEq] at hu
      exact absurd hu.1 hc
    | hex hbase hx' hds =>
      obtain ⟨u, hu⟩ := hpre
      rw [cons_append, cons_append, List.cons.injEq, List.cons.injEq] at hu
      have hpre' := isPrefix_digits ⟨u, hu.2.2⟩ hds.2
      refine ⟨?_, fun heq => ?_⟩
      · have := hpre'.length_le
        rw [length_cons, length_cons]
        omega
      · rw [length_cons, length_cons] at heq
        rw [hpre'.eq_of_length (by omega)]
  · rw [skipPrefix_of_not_hex hhex, Nat.sub_self, Nat.zero_add]
    cases hsub with
    | plain hne hds =>
      rw [if_neg hne]
      exact hplain base s hds hpre
    | octal h0 hds =>
      have hz : at0 r = 48 := by
        obtain ⟨u, rfl⟩ := hpre
        rfl
      rw [if_pos h0, if_pos hz]
      exact hplain 8 _ hds hpre
    | decimal h0 hc hds =>
      have hz : at0 r ≠ 48 := by
        obtain ⟨u, rfl⟩ := hpre
        exact hc
      rw [if_pos h0, if_neg hz]
      exact hplain 10 _ hds hpre
    | hex hbase hx hds =>
      exfalso
      apply hhex
      obtain ⟨u, rfl⟩ := hpre
      exact ⟨hbase, rfl, hx⟩

theorem unsigned_skipPrefix (hne : digits (skipPrefix base r).1 (skipPrefix base r).2 ≠ []) :
    Unsigned base (r.take (r.length - (skipPrefix base r).2.length +
        (digits (skipPrefix base r).1 (skipPrefix base r).2).length))
      (valueFrom (skipPrefix base r).1 0 (digits (skipPrefix base r).1 (skipPrefix base r).2)) := by
  have htake : ∀ b u, u.take (digits b u).length = digits b u := by
    intro b u
    have hpre := takeWhile_prefix (l := u) fun c => (digitOf b c).isSome
    exact (prefix_iff_eq_take.mp hpre).symm
  by_cases hhex : HexPrefix base r
  · obtain ⟨x, t, rfl, hx⟩ := exists_of_hexPrefix hhex
    rw [skipPrefix_of_hex hhex] at hne ⊢
    have hlen : (48 :: x :: t).length - t.length + (digits 16 t).length =
        (digits 16 t).length + 2 := by
      simp
      omega
    rw [hlen, take_succ_cons, take_succ_cons, htake]
    exact hex hhex.1 hx (isDigits_digits hne)
  · rw [skipPrefix_of_not_hex hhex] at hne ⊢
    rw [Nat.sub_self, Nat.zero_add, htake]
    by_cases h0 : base = 0
    · rw [if_pos h0] at hne ⊢
      -- the first digit decides between base 8 and base 10
      obtain ⟨c, u, hcu⟩ := exists_cons_of_ne_nil hne
      have hhead : at0 r = c := by
        obtain ⟨w, hw⟩ := takeWhile_prefix (l := r) fun c =>
          (digitOf (if at0 r = 48 then 8 else 10) c).isSome
        unfold digits at hcu
        rw [hcu] at hw
        rw [← hw]
        rfl
      have hds := isDigits_digits hne
      rw [hcu] at hds ⊢
      by_cases hz : at0 r = 48
      · rw [← hhead, hz] at hds ⊢
        exact octal h0 hds
      · rw [if_neg hz] at hds ⊢
        exact decimal h0 (by rwa [← hhead]) hds
    · rw [if_neg h0] at hne ⊢
      exact plain h0 (isDigits_digits hne)

theorem Unsigned.ne_nil (h : Unsigned base s v) : s ≠ [] := by
  cases h with
  | plain _ hds => exact hds.1
  | hex _ _ _ => exact cons_ne_nil _ _
  | octal _ _ => exact cons_ne_nil _ _
  | decimal _ _ _ => exact cons_ne_nil _ _

-- where the code finds no digits, there is at most the zero of a prefix
theorem Unsigned.digits_ne_nil (hsub : Unsigned base s v) (hpre : s <+: r)
    (hd : ¬ Dangling base r) : digits (skipPrefix base r).1 (skipPrefix base r).2 ≠ [] := by
  intro hnil
  have hle := (hsub.le hpre).1
  have hpos := length_pos_iff.mpr hsub.ne_nil
  rw [hnil, length_nil] at hle
  by_cases hhex : HexPrefix base r
  · obtain ⟨x, t, rfl, hx⟩ := exists_of_hexPrefix hhex
    rw [skipPrefix_of_hex hhex] at hnil
    cases t with
    | nil => exact hd ⟨hhex, show digitOf 16 0 = none by decide⟩
    | cons c t =>
      apply hd
      refine ⟨hhex, ?_⟩
      by_contra hsome
      have hc : (digitOf 16 c).isSome := Option.isSome_iff_ne_none.mpr hsome
      have hmore : [c] <+: digits 16 (c :: t) := by
        apply isPrefix_digits ⟨t, rfl⟩
        intro d hd
        rwa [mem_singleton.mp hd]
      rw [show digits 16 (c :: t) = [] from hnil] at hmore
      exact absurd (prefix_nil.mp hmore) (cons_ne_nil _ _)
  · rw [skipPrefix_of_not_hex hhex, Nat.sub_self] at hle
    omega

-- of a prefix that no digit follows, the zero is a number
theorem Dangling.unsigned (hd : Dangling base r) : Unsigned base [48] 0 ∧ [48] <+: r := by
  obtain ⟨hhex, hnone⟩ := hd
  obtain ⟨x, t, rfl, hx⟩ := exists_of_hexPrefix hhex
  refine ⟨?_, ⟨_, rfl⟩⟩
  rcases hhex.1 with rfl | rfl
  · exact octal rfl ⟨cons_ne_nil _ _, forall_mem_singleton.mpr (by decide)⟩
  · exact plain (by decide) ⟨cons_ne_nil _ _, forall_mem_singleton.mpr (by decide)⟩

-- no number starts with a sign
theorem Unsigned.at0_ne (h : Unsigned base s v) : at0 s ≠ 43 ∧ at0 s ≠ 45 := by
  have hhead : ∀ b ds, IsDigits b ds → at0 ds ≠ 43 ∧ at0 ds ≠ 45 := by
    intro b ds hds
    obtain ⟨c, u, rfl⟩ := exists_cons_of_ne_nil hds.1
    have hc := hds.2 c mem_cons_self
    constructor
    · rintro rfl
      cases hc
    · rintro rfl
      cases hc
  cases h with
  | plain _ hds => exact hhead _ _ hds
  | hex _ _ _ => exact ⟨show (48 : UInt8) ≠ 43 by decide, show (48 : UInt8) ≠ 45 by decide⟩
  | octal _ hds => exact hhead _ _ hds
  | decimal _ _ hds => exact hhead _ _ hds

end Prefix

section Sign

variable {base : Nat} {t s : List UInt8}

def signed (neg : Bool) (w : Nat) : Int := if neg then -w else w

def signLength (t : List UInt8) : Nat := t.length - (skipSign t).2.length

variable {c : UInt8}

theorem skipSign_cons (hc : c = 43 ∨ c = 45) : skipSign (c :: t) = (c == 45, t) := if_pos hc

theorem skipSign_of_not (h : ¬ (at0 t = 43 ∨ at0 t = 45)) : skipSign t = (false, t) := if_neg h

theorem exists_of_sign (h : at0 t = 43 ∨ at0 t = 45) : ∃ c u, t = c :: u ∧ (c = 43 ∨ c = 45) := by
  cases t with
  | nil =>
    rcases h with h | h
    · cases h
    · cases h
  | cons c u => exact ⟨c, u, rfl, h⟩

theorem signLength_cons (hc : c = 43 ∨ c = 45) : signLength (c :: t) = 1 := by
  unfold signLength
  rw [skipSign_cons hc, length_cons, Nat.add_sub_cancel_left]

theorem signLength_of_not (h : ¬ (at0 t = 43 ∨ at0 t = 45)) : signLength t = 0 := by
  unfold signLength
  rw [skipSign_of_not h, Nat.sub_self]

theorem Subject.unsigned {v : Int} (hsub : Subject base s v) (hpre : s <+: t) :
    ∃ s' w, Unsigned base s' w ∧ s' <+: (skipSign t).2 ∧
      s.length = signLength t + s'.length ∧ v = signed (skipSign t).1 w := by
  obtain ⟨u, rfl⟩ := hpre
  cases hsub with
  | bare h =>
    rename_i w
    have hnot : ¬ (at0 (s ++ u) = 43 ∨ at0 (s ++ u) = 45) := by
      obtain ⟨c, s', rfl⟩ := exists_cons_of_ne_nil h.ne_nil
      exact fun hor => hor.elim h.at0_ne.1 h.at0_ne.2
    rw [skipSign_of_not hnot, signLength_of_not hnot]
    exact ⟨s, w, h, ⟨u, rfl⟩, (Nat.zero_add _).symm, rfl⟩
  | plus h =>
    rename_i s' w
    rw [cons_append, signLength_cons (Or.inl rfl)]
    exact ⟨s', w, h, ⟨u, rfl⟩, Nat.add_comm _ 1, rfl⟩
  | minus h =>
    rename_i s' w
    rw [cons_append, signLength_cons (Or.inr rfl)]
    exact ⟨s', w, h, ⟨u, rfl⟩, Nat.add_comm _ 1, rfl⟩

theorem Unsigned.subject {w : Nat} (h : Unsigned base s w) (hpre : s <+: (skipSign t).2) :
    ∃ s', s' <+: t ∧ Subject base s' (signed (skipSign t).1 w) ∧
      s'.length = signLength t + s.length := by
  by_cases hsign : at0 t = 43 ∨ at0 t = 45
  · obtain ⟨c, u, rfl, hc⟩ := exists_of_sign hsign
    rw [skipSign_cons hc] at hpre ⊢
    rw [signLength_cons hc]
    refine ⟨c :: s, cons_prefix_cons.mpr ⟨rfl, hpre⟩, ?_, Nat.add_comm _ 1⟩
    rcases hc with rfl | rfl
    · exact Subject.plus h
    · exact Subject.minus h
  · rw [skipSign_of_not hsign] at hpre ⊢
    rw [signLength_of_not hsign]
    exact ⟨s, hpre, Subject.bare h, (Nat.zero_add _).symm⟩

end Sign

/-! ## What the code reads -/

section Read

variable {base : Nat} {t nptr : List UInt8}

-- the digits of the code, their value, and how many characters there are up to their end
def codeDigits (base : Nat) (t : List UInt8) : List UInt8 :=
  digits (skipPrefix base (skipSign t).2).1 (skipPrefix base (skipSign t).2).2

def codeMagnitude (base : Nat) (t : List UInt8) : Nat :=
  valueFrom (skipPrefix base (skipSign t).2).1 0 (codeDigits base t)

def codeLength (base : Nat) (t : List UInt8) : Nat :=
  signLength t + ((skipSign t).2.length - (skipPrefix base (skipSign t).2).2.length +
    (codeDigits base t).length)

theorem skipPrefix_length_le (r : List UInt8) : (skipPrefix base r).2.length ≤ r.length := by
  by_cases hhex : HexPrefix base r
  · obtain ⟨x, t, rfl, hx⟩ := exists_of_hexPrefix hhex
    rw [skipPrefix_of_hex hhex]
    exact Nat.le_add_right _ 2
  · rw [skipPrefix_of_not_hex hhex]

theorem skipSign_length_le (t : List UInt8) : (skipSign t).2.length ≤ t.length := by
  by_cases hsign : at0 t = 43 ∨ at0 t = 45
  · obtain ⟨c, u, rfl, hc⟩ := exists_of_sign hsign
    rw [skipSign_cons hc]
    exact Nat.le_add_right _ 1
  · rw [skipSign_of_not hsign]

theorem longest_of_digits (hne : codeDigits base t ≠ []) :
    ∃ s, Longest base t s (signed (skipSign t).1 (codeMagnitude base t)) ∧
      s.length = codeLength base t := by
  have hun := unsigned_skipPrefix hne
  have htake := take_prefix ((skipSign t).2.length - (skipPrefix base (skipSign t).2).2.length +
    (codeDigits base t).length) (skipSign t).2
  obtain ⟨s, hpre, hsub, hlen⟩ := hun.subject htake
  have hlong : s.length = codeLength base t := by
    have hle := @skipPrefix_length_le base (skipSign t).2
    have hds := takeWhile_prefix (l := (skipPrefix base (skipSign t).2).2) fun c =>
      (digitOf (skipPrefix base (skipSign t).2).1 c).isSome
    replace hds : (codeDigits base t).length ≤ _ := hds.length_le
    rw [hlen, length_take, Nat.min_eq_left]
    · rfl
    · change _ + (codeDigits base t).length ≤ _
      omega
  refine ⟨s, ⟨hpre, hsub, ?_⟩, hlong⟩
  intro s' v' hpre' hsub'
  obtain ⟨r, w, hr, hrpre, hrlen, -⟩ := hsub'.unsigned hpre'
  have hle := (hr.le hrpre).1
  rw [hlong, hrlen]
  exact Nat.add_le_add_left hle _

variable {s : List UInt8} {v : Int} {α : Type} {conv : Int → α}

-- two longest subject sequences are the same one, and the code reads its value
theorem Longest.eq_code (hne : codeDigits base t ≠ []) (h : Longest base t s v) :
    s.length = codeLength base t ∧ v = signed (skipSign t).1 (codeMagnitude base t) := by
  obtain ⟨s', ⟨hpre', hsub', hmax'⟩, hlen'⟩ := longest_of_digits hne
  obtain ⟨hpre, hsub, hmax⟩ := h
  have hlen : s.length = codeLength base t := by
    have h1 := hmax _ _ hpre' hsub'
    have h2 := hmax' _ _ hpre hsub
    omega
  refine ⟨hlen, ?_⟩
  obtain ⟨r, w, hr, hrpre, hrlen, rfl⟩ := hsub.unsigned hpre
  have hval := (hr.le hrpre).2 (by
    unfold codeLength codeDigits at hlen
    omega)
  rw [hval]
  rfl

theorem conforms_of_digits {r : α × Nat} (hne : codeDigits base (nptr.dropWhile isspace) ≠ []) :
    Conforms conv base nptr r ↔
      r = (conv (signed (skipSign (nptr.dropWhile isspace)).1
          (codeMagnitude base (nptr.dropWhile isspace))),
        (nptr.takeWhile isspace).length + codeLength base (nptr.dropWhile isspace)) := by
  constructor
  · rintro (⟨s, v, hlong, rfl⟩ | ⟨hnone, -⟩)
    · obtain ⟨hlen, rfl⟩ := hlong.eq_code hne
      rw [hlen]
    · obtain ⟨s, ⟨hpre, hsub, -⟩, -⟩ := longest_of_digits hne
      exact absurd hsub (hnone _ _ hpre)
  · rintro rfl
    obtain ⟨s, hlong, hlen⟩ := longest_of_digits hne
    exact Or.inl ⟨s, _, hlong, by rw [hlen]⟩

-- without digits and without a prefix in their place there is no number
theorem no_subject (hnil : codeDigits base t = []) (hd : ¬ Dangling base (skipSign t).2)
    (hpre : s <+: t) : ¬ Subject base s v := by
  intro hsub
  obtain ⟨r, w, hr, hrpre, -, -⟩ := hsub.unsigned hpre
  exact hr.digits_ne_nil hrpre hd hnil

-- the number before a prefix without digits has an end that is not `nptr`
theorem Dangling.not_conforms {a : α} (hd : Dangling base (skipSign (nptr.dropWhile isspace)).2) :
    ¬ Conforms conv base nptr (a, 0) := by
  obtain ⟨hun, hpre⟩ := hd.unsigned
  obtain ⟨s, hs, hsub, hlen⟩ := hun.subject hpre
  rintro (⟨s', v, ⟨-, -, hmax⟩, heq⟩ | ⟨hnone, -⟩)
  · have hle := hmax _ _ hs hsub
    have hend := congrArg Prod.snd heq
    rw [length_singleton] at hlen
    omega
  · exact hnone _ _ hs hsub

theorem Dangling.codeDigits (hd : Dangling base (skipSign t).2) : codeDigits base t = [] := by
  obtain ⟨hhex, hnone⟩ := hd
  unfold Libc.codeDigits
  obtain ⟨x, u, hxu, hx⟩ := exists_of_hexPrefix hhex
  rw [hxu] at hhex hnone ⊢
  rw [skipPrefix_of_hex hhex]
  cases u with
  | nil => rfl
  | cons c u =>
    change digitOf 16 c = none at hnone
    exact takeWhile_cons_of_neg (by simp [hnone])

-- bases that a call may give are bases of digits after the prefix
theorem skipPrefix_base (hbase : base = 0 ∨ 2 ≤ base ∧ base ≤ 36) (r : List UInt8) :
    0 < (skipPrefix base r).1 ∧ (skipPrefix base r).1 ≤ 36 := by
  by_cases hhex : HexPrefix base r
  · obtain ⟨x, t, rfl, hx⟩ := exists_of_hexPrefix hhex
    rw [skipPrefix_of_hex hhex]
    exact ⟨show 0 < 16 by decide, show 16 ≤ 36 by decide⟩
  · rw [skipPrefix_of_not_hex hhex]
    dsimp only
    split_ifs
    · exact ⟨by decide, by decide⟩
    · exact ⟨by decide, by decide⟩
    · omega

-- where the digits end in the string, as the code finds it
theorem endOffset_eq {start : List UInt8} {b : Nat}
    (hstart : start.length ≤ nptr.length) :
    endOffset nptr start (start.dropWhile fun c => (digitOf b c).isSome) =
      if digits b start = [] then 0 else nptr.length - start.length + (digits b start).length := by
  have hsplit : (digits b start).length +
      (start.dropWhile fun c => (digitOf b c).isSome).length = start.length := by
    unfold digits
    rw [← length_append, takeWhile_append_dropWhile]
  unfold endOffset
  by_cases hnil : digits b start = []
  · rw [hnil, length_nil] at hsplit
    rw [if_pos hnil, if_pos (by omega)]
  · have hpos := length_pos_iff.mpr hnil
    rw [if_neg hnil, if_neg (by omega)]
    omega

-- both functions return `nptr` as the end if there are no digits, and else the end of the digits
theorem endOffset_code :
    endOffset nptr (skipPrefix base (skipSign (nptr.dropWhile isspace)).2).2
        ((skipPrefix base (skipSign (nptr.dropWhile isspace)).2).2.dropWhile fun c =>
          (digitOf (skipPrefix base (skipSign (nptr.dropWhile isspace)).2).1 c).isSome) =
      if codeDigits base (nptr.dropWhile isspace) = [] then 0
      else (nptr.takeWhile isspace).length + codeLength base (nptr.dropWhile isspace) := by
  have hws : (nptr.takeWhile isspace).length + (nptr.dropWhile isspace).length = nptr.length := by
    rw [← length_append, takeWhile_append_dropWhile]
  have hsign := skipSign_length_le (nptr.dropWhile isspace)
  have hpre := @skipPrefix_length_le base (skipSign (nptr.dropWhile isspace)).2
  rw [endOffset_eq (by omega)]
  change (if codeDigits base _ = [] then 0 else _ + (codeDigits base _).length) = _
  split_ifs
  · rfl
  · unfold codeLength signLength
    omega

-- `min` against the value, then the sign modulo 2^64
def ulongOf (neg : Bool) (w : Nat) : Nat :=
  if neg then (2 ^ 64 - min w ULONG_MAX) % 2 ^ 64 else min w ULONG_MAX

theorem strtoul_eq (hbase : base = 0 ∨ 2 ≤ base ∧ base ≤ 36) :
    strtoul nptr base =
      (ulongOf (skipSign (nptr.dropWhile isspace)).1 (codeMagnitude base (nptr.dropWhile isspace)),
        if codeDigits base (nptr.dropWhile isspace) = [] then 0
        else (nptr.takeWhile isspace).length + codeLength base (nptr.dropWhile isspace)) := by
  obtain ⟨hpos, hle⟩ := skipPrefix_base hbase (skipSign (nptr.dropWhile isspace)).2
  rw [← endOffset_code]
  unfold strtoul
  dsimp only
  rw [strtoulLoop_eq hpos hle (Nat.zero_le _)]
  rfl

theorem strtol_eq :
    strtol nptr base =
      (toLong ((signed (skipSign (nptr.dropWhile isspace)).1
          (codeMagnitude base (nptr.dropWhile isspace)) % 2 ^ 64).toNat),
        if codeDigits base (nptr.dropWhile isspace) = [] then 0
        else (nptr.takeWhile isspace).length + codeLength base (nptr.dropWhile isspace)) := by
  rw [← endOffset_code]
  unfold strtol
  dsimp only
  rw [strtolLoop_eq (by decide)]
  change (if _ then toLong ((2 ^ 64 - codeMagnitude base _ % 2 ^ 64) % 2 ^ 64)
    else toLong (codeMagnitude base _ % 2 ^ 64), _) = _
  congr 1
  unfold signed
  split_ifs
  · congr 1
    omega
  · rfl

theorem ulongOf_eq_toUlong_iff {neg : Bool} {w : Nat} :
    ulongOf neg w = toUlong (signed neg w) ↔ -(ULONG_MAX : Int) ≤ signed neg w := by
  unfold ulongOf toUlong signed ULONG_MAX
  cases neg with
  | false =>
    simp only [Bool.false_eq_true, if_false]
    split_ifs
    · omega
    · omega
  | true =>
    simp only [if_true]
    split_ifs
    · omega
    · omega

theorem toLong_eq_clampLong_iff (hv : -(ULONG_MAX : Int) ≤ v) :
    toLong (v % 2 ^ 64).toNat = clampLong v ↔
      -2 ^ 63 ≤ v ∧ (v < 2 ^ 63 ∨ v % 2 ^ 64 = 2 ^ 63 - 1) := by
  unfold toLong clampLong
  unfold ULONG_MAX at hv
  split_ifs
  all_goals omega

/-- `strtoul` and `strtol` both give what the standard asks for, exactly for the strings that have
no `0x` without a digit after it and no number that `long` cannot hold. -/
theorem strtoul_strtol_conform_iff (nptr : List UInt8) (base : Nat)
    (hbase : base = 0 ∨ 2 ≤ base ∧ base ≤ 36) : (Conforms toUlong base nptr (strtoul nptr base) ∧
        Conforms clampLong base nptr (strtol nptr base)) ↔
      ¬ Dangling base (skipSign (nptr.dropWhile isspace)).2 ∧
        ∀ s v, Longest base (nptr.dropWhile isspace) s v →
          -2 ^ 63 ≤ v ∧ (v < 2 ^ 63 ∨ v % 2 ^ 64 = 2 ^ 63 - 1) := by
  rw [strtoul_eq hbase, strtol_eq]
  by_cases hnil : codeDigits base (nptr.dropWhile isspace) = []
  · -- without digits the end pointer is `nptr`
    rw [if_pos hnil]
    by_cases hd : Dangling base (skipSign (nptr.dropWhile isspace)).2
    · exact iff_of_false (fun h => hd.not_conforms h.1) (fun h => h.1 hd)
    have hzero : codeMagnitude base (nptr.dropWhile isspace) = 0 := by
      unfold codeMagnitude
      rw [hnil]
      rfl
    rw [hzero]
    refine iff_of_true ⟨Or.inr ⟨fun s v => no_subject hnil hd, ?_⟩,
      Or.inr ⟨fun s v => no_subject hnil hd, ?_⟩⟩
      ⟨hd, fun s v hlong => absurd hlong.2.1 (no_subject hnil hd hlong.1)⟩
    · cases (skipSign (nptr.dropWhile isspace)).1
      · rfl
      · rfl
    · cases (skipSign (nptr.dropWhile isspace)).1
      · rfl
      · rfl
  · have hd : ¬ Dangling base (skipSign (nptr.dropWhile isspace)).2 := fun hd => hnil hd.codeDigits
    rw [if_neg hnil, conforms_of_digits hnil, conforms_of_digits hnil, Prod.mk.injEq,
      Prod.mk.injEq, ulongOf_eq_toUlong_iff]
    -- the only longest subject sequence is the one the code reads
    obtain ⟨s, hlong, -⟩ := longest_of_digits hnil
    constructor
    · rintro ⟨⟨hul, -⟩, hl, -⟩
      refine ⟨hd, ?_⟩
      intro s' v hlong'
      rw [(hlong'.eq_code hnil).2]
      exact (toLong_eq_clampLong_iff hul).mp hl
    · rintro ⟨-, hall⟩
      have hok := hall s _ hlong
      have hul : -(ULONG_MAX : Int) ≤ signed (skipSign (nptr.dropWhile isspace)).1
          (codeMagnitude base (nptr.dropWhile isspace)) := by
        unfold ULONG_MAX
        omega
      exact ⟨⟨hul, rfl⟩, (toLong_eq_clampLong_iff hul).mpr hok, rfl⟩

-- "42"
theorem conform_fortyTwo : Conforms toUlong 10 [52, 50] (strtoul [52, 50] 10) ∧
      Conforms clampLong 10 [52, 50] (strtol [52, 50] 10) := by
  rw [strtoul_strtol_conform_iff [52, 50] 10 (by decide)]
  constructor
  · exact fun hd => absurd hd.1.1 (by decide)
  · intro s v hlong
    have hval := (hlong.eq_code (by decide)).2
    rw [hval]
    decide

-- LONG_MAX + 1
def tooLong : List UInt8 :=
  [57, 50, 50, 51, 51, 55, 50, 48, 51, 54, 56, 53, 52, 55, 55, 53, 56, 48, 56]

-- the number of "0xg" is 0, and "-99999999999999999999" is below -ULONG_MAX
theorem not_conform : ¬ Conforms toUlong 16 [48, 120, 103] (strtoul [48, 120, 103] 16) ∧
      ¬ Conforms toUlong 10 (45 :: List.replicate 20 57) (strtoul (45 :: List.replicate 20 57) 10) ∧
      ¬ Conforms clampLong 10 tooLong (strtol tooLong 10) := by
  refine ⟨?_, ?_, ?_⟩
  · apply Dangling.not_conforms
    exact ⟨⟨Or.inr rfl, by decide, by decide⟩, by decide⟩
  · rw [conforms_of_digits (by decide)]
    decide
  · rw [conforms_of_digits (by decide)]
    decide

end Read

end Libc
