import Mathlib.Data.Nat.Bitwise

/-!
# Byte memories

A buffer, a packed C structure and a device are all functions from addresses to bytes.  Words are
little endian; bit `k` of a bitmap is bit `k % 8` of byte `k / 8`.
-/

namespace Lib

abbrev Bytes := Nat → UInt8

namespace Bytes

def get16 (m : Bytes) (a : Nat) : Nat := (m a).toNat + 256 * (m (a + 1)).toNat

def get32 (m : Bytes) (a : Nat) : Nat := get16 m a + 2 ^ 16 * get16 m (a + 2)

def put16 (m : Bytes) (a v : Nat) : Bytes := fun i =>
  if i = a then UInt8.ofNat v else if i = a + 1 then UInt8.ofNat (v / 256) else m i

def put32 (m : Bytes) (a v : Nat) : Bytes := put16 (put16 m a v) (a + 2) (v / 2 ^ 16)

/-- `memcpy (dst + d, src + s, n)`. -/
def copy (dst : Bytes) (d : Nat) (src : Bytes) (s n : Nat) : Bytes := fun i =>
  if d ≤ i ∧ i < d + n then src (s + (i - d)) else dst i

def zero : Bytes := fun _ => 0

/-- A memory of `n` bytes. -/
def trim (n : Nat) (m : Bytes) : Bytes := fun i => if i < n then m i else 0

def bit (m : Bytes) (k : Nat) : Bool := (m (k / 8)).toNat.testBit (k % 8)

def setBit (m : Bytes) (k : Nat) : Bytes := fun i =>
  if i = k / 8 then UInt8.ofNat ((m i).toNat ||| 2 ^ (k % 8)) else m i

-- `&= ~(1 << b)` on a byte
def clrBit (m : Bytes) (k : Nat) : Bytes := fun i =>
  if i = k / 8 then UInt8.ofNat ((m i).toNat &&& (255 ^^^ 2 ^ (k % 8))) else m i

/-! ## Words -/

theorem get16_lt (m : Bytes) (a : Nat) : get16 m a < 2 ^ 16 := by
  have h0 := (m a).toNat_lt
  have h1 := (m (a + 1)).toNat_lt
  unfold get16
  omega

theorem get32_lt (m : Bytes) (a : Nat) : get32 m a < 2 ^ 32 := by
  have h0 := get16_lt m a
  have h1 := get16_lt m (a + 2)
  unfold get32
  omega

variable {m m' : Bytes} {a b v i n : Nat} {dst src : Bytes}

theorem get16_congr (h0 : m a = m' b) (h1 : m (a + 1) = m' (b + 1)) : get16 m a = get16 m' b := by
  rw [get16, get16, h0, h1]

theorem get32_congr (h : ∀ i < 4, m (a + i) = m' (b + i)) : get32 m a = get32 m' b := by
  have hlow : get16 m a = get16 m' b := get16_congr (h 0 (by omega)) (h 1 (by omega))
  have hhigh : get16 m (a + 2) = get16 m' (b + 2) := get16_congr (h 2 (by omega)) (h 3 (by omega))
  rw [get32, get32, hlow, hhigh]

theorem put16_of_ne (h : i < a ∨ a + 2 ≤ i) : put16 m a v i = m i := by
  rw [put16, if_neg (by omega), if_neg (by omega)]

theorem put32_of_ne (h : i < a ∨ a + 4 ≤ i) : put32 m a v i = m i := by
  rw [put32, put16_of_ne (by omega), put16_of_ne (by omega)]

theorem get16_put16 (m : Bytes) (a v : Nat) : get16 (put16 m a v) a = v % 2 ^ 16 := by
  rw [get16, put16, put16, if_pos rfl, if_neg (by omega), if_pos rfl, UInt8.toNat_ofNat',
    UInt8.toNat_ofNat']
  omega

theorem get32_put32 (m : Bytes) (a v : Nat) : get32 (put32 m a v) a = v % 2 ^ 32 := by
  have hlow : get16 (put32 m a v) a = get16 (put16 m a v) a :=
    get16_congr (put16_of_ne (by omega)) (put16_of_ne (by omega))
  rw [get32, hlow, get16_put16, put32, get16_put16]
  omega

theorem get16_put16_of_ne (h : b + 2 ≤ a ∨ a + 2 ≤ b) : get16 (put16 m a v) b = get16 m b :=
  get16_congr (put16_of_ne (by omega)) (put16_of_ne (by omega))

theorem get16_put32_of_ne (h : b + 2 ≤ a ∨ a + 4 ≤ b) : get16 (put32 m a v) b = get16 m b :=
  get16_congr (put32_of_ne (by omega)) (put32_of_ne (by omega))

theorem get32_put16_of_ne (h : b + 4 ≤ a ∨ a + 2 ≤ b) : get32 (put16 m a v) b = get32 m b :=
  get32_congr fun i hi => put16_of_ne (by omega)

theorem get32_put32_of_ne (h : b + 4 ≤ a ∨ a + 4 ≤ b) : get32 (put32 m a v) b = get32 m b :=
  get32_congr fun i hi => put32_of_ne (by omega)

@[simp] theorem get32_zero (a : Nat) : get32 zero a = 0 := rfl

/-! ## Copies -/

theorem copy_of_ne {d s : Nat} (h : i < d ∨ d + n ≤ i) : copy dst d src s n i = dst i := by
  rw [copy, if_neg (by omega)]

theorem copy_apply {d s : Nat} (h : i < n) : copy dst d src s n (d + i) = src (s + i) := by
  rw [copy, if_pos (by omega), Nat.add_sub_cancel_left]

/-! ## Memories of a size -/

theorem trim_apply (m : Bytes) (h : i < n) : trim n m i = m i := if_pos h

theorem trim_of_ge (m : Bytes) (h : n ≤ i) : trim n m i = 0 :=
  if_neg (Nat.not_lt_of_le h)

theorem trim_congr (h : ∀ i < n, m i = m' i) : trim n m = trim n m' := by
  funext i
  by_cases hi : i < n
  · rw [trim_apply m hi, trim_apply m' hi, h i hi]
  · rw [trim_of_ge m (Nat.le_of_not_lt hi), trim_of_ge m' (Nat.le_of_not_lt hi)]

@[simp] theorem trim_trim (n : Nat) (m : Bytes) : trim n (trim n m) = trim n m :=
  trim_congr fun _ hi => trim_apply m hi

@[simp] theorem trim_zero (n : Nat) : trim n zero = zero := by
  funext i
  unfold trim zero
  split <;> rfl

theorem get16_trim (m : Bytes) (h : a + 2 ≤ n) : get16 (trim n m) a = get16 m a :=
  get16_congr (trim_apply m (by omega)) (trim_apply m (by omega))

theorem get32_trim (m : Bytes) (h : a + 4 ≤ n) : get32 (trim n m) a = get32 m a :=
  get32_congr fun _ hi => trim_apply m (by omega)

theorem trim_put16 (m : Bytes) (v : Nat) (h : a + 2 ≤ n) :
    trim n (put16 m a v) = put16 (trim n m) a v := by
  funext i
  by_cases hi : i < n
  · unfold put16
    rw [trim_apply _ hi, trim_apply _ hi]
  · rw [trim_of_ge _ (Nat.le_of_not_lt hi), put16_of_ne (by omega),
      trim_of_ge _ (Nat.le_of_not_lt hi)]

theorem trim_put32 (m : Bytes) (v : Nat) (h : a + 4 ≤ n) :
    trim n (put32 m a v) = put32 (trim n m) a v := by
  rw [put32, trim_put16 _ _ (by omega), trim_put16 _ _ (by omega), put32]

/-! ## Bits -/

theorem toNat_ofNat_byte (h : n < 256) : (UInt8.ofNat n).toNat = n := by
  rw [UInt8.toNat_ofNat']
  exact Nat.mod_eq_of_lt h

theorem two_pow_mod_lt (k : Nat) : 2 ^ (k % 8) < 2 ^ 8 :=
  Nat.pow_lt_pow_right (by decide) (Nat.mod_lt k (by decide))

-- bits of one byte are told apart by byte and position
theorem eq_of_byte_eq {j k : Nat} (hdiv : j / 8 = k / 8) (hmod : k % 8 = j % 8) : j = k := by
  omega

theorem bit_setBit (m : Bytes) (k j : Nat) : bit (setBit m k) j = (bit m j || decide (j = k)) := by
  unfold bit setBit
  by_cases hbyte : j / 8 = k / 8
  · rw [if_pos hbyte, toNat_ofNat_byte (Nat.or_lt_two_pow (m (j / 8)).toNat_lt (two_pow_mod_lt k)),
      Nat.testBit_or, Nat.testBit_two_pow]
    congr 1
    rw [decide_eq_decide]
    exact ⟨eq_of_byte_eq hbyte, fun h => by rw [h]⟩
  · rw [if_neg hbyte, decide_eq_false (fun h => hbyte (by rw [h])), Bool.or_false]

theorem bit_clrBit (m : Bytes) (k j : Nat) : bit (clrBit m k) j = (bit m j && !decide (j = k)) := by
  unfold bit clrBit
  by_cases hbyte : j / 8 = k / 8
  swap
  · rw [if_neg hbyte, decide_eq_false (fun h => hbyte (by rw [h])), Bool.not_false, Bool.and_true]
  have hlt : (m (j / 8)).toNat &&& (255 ^^^ 2 ^ (k % 8)) < 256 :=
    lt_of_le_of_lt Nat.and_le_left (m (j / 8)).toNat_lt
  have hlow : (255 : Nat).testBit (j % 8) = true := by
    rw [show (255 : Nat) = 2 ^ 8 - 1 from rfl, Nat.testBit_two_pow_sub_one]
    exact decide_eq_true (Nat.mod_lt j (by decide))
  rw [if_pos hbyte, toNat_ofNat_byte hlt, Nat.testBit_and, Nat.testBit_xor, hlow,
    Nat.testBit_two_pow, Bool.true_xor]
  congr 2
  rw [decide_eq_decide]
  exact ⟨eq_of_byte_eq hbyte, fun h => by rw [h]⟩

-- a bitmap is read through its bytes
theorem bit_congr {k : Nat} (h : m (k / 8) = m' (k / 8)) : bit m k = bit m' k := by
  rw [bit, bit, h]

/-! ## Memories given by their words or bits -/

def ofWords (f : Nat → Nat) : Bytes := fun a => UInt8.ofNat (f (a / 4) / 256 ^ (a % 4))

def ofBits (p : Nat → Bool) : Bytes := fun i =>
  UInt8.ofNat (Nat.ofBits fun j : Fin 8 => p (8 * i + j))

theorem get16_ofWords (f : Nat → Nat) (k : Nat) : get16 (ofWords f) (4 * k) = f k % 2 ^ 16 := by
  unfold get16 ofWords
  rw [show 4 * k / 4 = k by omega, show 4 * k % 4 = 0 by omega, show (4 * k + 1) / 4 = k by omega,
    show (4 * k + 1) % 4 = 1 by omega, UInt8.toNat_ofNat', UInt8.toNat_ofNat']
  omega

theorem get32_ofWords (f : Nat → Nat) (k : Nat) : get32 (ofWords f) (4 * k) = f k % 2 ^ 32 := by
  unfold get32
  rw [get16_ofWords]
  unfold get16 ofWords
  rw [show (4 * k + 2) / 4 = k by omega, show (4 * k + 2) % 4 = 2 by omega,
    show (4 * k + 2 + 1) / 4 = k by omega, show (4 * k + 2 + 1) % 4 = 3 by omega,
    UInt8.toNat_ofNat', UInt8.toNat_ofNat']
  omega

theorem bit_ofBits (p : Nat → Bool) (k : Nat) : bit (ofBits p) k = p k := by
  have hlt : k % 8 < 8 := Nat.mod_lt _ (by decide)
  unfold bit ofBits
  rw [toNat_ofNat_byte (Nat.ofBits_lt_two_pow _), Nat.testBit_ofBits_lt _ _ hlt]
  exact congrArg p (Nat.div_add_mod k 8)

end Bytes

end Lib
