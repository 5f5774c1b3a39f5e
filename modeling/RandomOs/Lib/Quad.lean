import RandomOs.Lib.Bytes

/-!
# 64-bit words and the forward copy

`movsb` moves one byte after the other from the low end, so that a destination inside the source
reads bytes it has written itself.
-/

namespace Lib

namespace Bytes

def get64 (m : Bytes) (a : Nat) : Nat := get32 m a + 2 ^ 32 * get32 m (a + 4)

def put64 (m : Bytes) (a v : Nat) : Bytes := put32 (put32 m a v) (a + 4) (v / 2 ^ 32)

theorem get64_put64 (m : Bytes) (a v : Nat) : get64 (put64 m a v) a = v % 2 ^ 64 := by
  have hlow : get32 (put64 m a v) a = get32 (put32 m a v) a := get32_put32_of_ne (by omega)
  rw [get64, hlow, get32_put32, put64, get32_put32]
  omega

def movsb (m : Bytes) (d s : Nat) : Nat → Bytes
  | 0 => m
  | n + 1 => Function.update (movsb m d s n) (d + n) (movsb m d s n (s + n))

-- where the byte at offset `k` of the destination comes from
def movsbFrom (d s k : Nat) : Nat := s + (if s < d then k % (d - s) else k)

theorem movsb_of_ne {m : Bytes} {d s n i : Nat} (h : i < d ∨ d + n ≤ i) :
    movsb m d s n i = m i := by
  induction n with
  | zero => rfl
  | succ n ih =>
    rw [movsb, Function.update_of_ne (by omega)]
    exact ih (by omega)

theorem movsb_apply {m : Bytes} {d s n k : Nat} (h : k < n) :
    movsb m d s n (d + k) = m (movsbFrom d s k) := by
  induction n generalizing k with
  | zero => omega
  | succ n ih =>
    rw [movsb]
    rcases Nat.lt_or_eq_of_le (Nat.le_of_lt_succ h) with hlt | rfl
    · rw [Function.update_of_ne (by omega)]
      exact ih hlt
    rw [Function.update_self]
    unfold movsbFrom
    by_cases hs : s < d
    · rw [if_pos hs]
      by_cases hk : s + k < d
      · rw [movsb_of_ne (by omega), Nat.mod_eq_of_lt (by omega)]
      · -- the byte read was written `d - s` rounds before
        have hback : s + k = d + (k - (d - s)) := by omega
        rw [hback, ih (by omega), movsbFrom, if_pos hs, ← Nat.mod_eq_sub_mod (by omega)]
    · rw [if_neg hs, movsb_of_ne (by omega)]

end Bytes

end Lib
