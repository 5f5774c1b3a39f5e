import Mathlib.Logic.Function.Basic
import Mathlib.Tactic

/-!
# Bounded FIFO queues and the circular windows that store them

`Fifo` is the abstract queue: a list of at most `cap` elements, which accepts a prefix of what it is
offered and delivers from the front.  `window` reads a queue's contents out of a circular array.
-/

namespace Lib

open List

variable {α : Type}

/-! ## Circular windows -/

/-- The `cnt` cells of a circular array of `n` cells that follow cell `tail`. -/
def window (buf : Nat → α) (n tail : Nat) : Nat → List α
  | 0 => []
  | cnt + 1 => buf (tail % n) :: window buf n (tail + 1) cnt

@[simp] theorem window_length (buf : Nat → α) (n tail cnt : Nat) :
    (window buf n tail cnt).length = cnt := by
  induction cnt generalizing tail with
  | zero => rfl
  | succ cnt ih => rw [window, length_cons, ih]

theorem window_mod (buf : Nat → α) (n tail cnt : Nat) :
    window buf n (tail % n) cnt = window buf n tail cnt := by
  induction cnt generalizing tail with
  | zero => rfl
  | succ cnt ih =>
    rw [window, window, Nat.mod_mod, ← ih (tail % n + 1), ← ih (tail + 1), Nat.mod_add_mod]

theorem window_append (buf : Nat → α) (n tail k cnt : Nat) :
    window buf n tail (k + cnt) = window buf n tail k ++ window buf n (tail + k) cnt := by
  induction k generalizing tail with
  | zero => simp [window]
  | succ k ih =>
    rw [show k + 1 + cnt = (k + cnt) + 1 by omega, window, ih, window,
      show tail + 1 + k = tail + (k + 1) by omega, cons_append]

theorem window_succ (buf : Nat → α) (n tail cnt : Nat) :
    window buf n tail (cnt + 1) = window buf n tail cnt ++ [buf ((tail + cnt) % n)] :=
  window_append buf n tail cnt 1

theorem window_take (buf : Nat → α) (n tail k cnt : Nat) (hk : k ≤ cnt) :
    (window buf n tail cnt).take k = window buf n tail k := by
  obtain ⟨rest, rfl⟩ := Nat.exists_eq_add_of_le hk
  rw [window_append, take_left' (window_length _ _ _ _)]

theorem window_drop (buf : Nat → α) (n tail k cnt : Nat) (hk : k ≤ cnt) :
    (window buf n tail cnt).drop k = window buf n (tail + k) (cnt - k) := by
  obtain ⟨rest, rfl⟩ := Nat.exists_eq_add_of_le hk
  rw [window_append, drop_left' (window_length _ _ _ _), Nat.add_sub_cancel_left]

theorem window_update_of_ne (buf : Nat → α) (n tail cnt i : Nat) (a : α)
    (hi : ∀ k, k < cnt → (tail + k) % n ≠ i) :
    window (Function.update buf i a) n tail cnt = window buf n tail cnt := by
  induction cnt generalizing tail with
  | zero => rfl
  | succ cnt ih =>
    have hhead : tail % n ≠ i := by simpa using hi 0 (by omega)
    rw [window, window, Function.update_of_ne hhead, ih]
    intro k hk
    have hnext := hi (k + 1) (by omega)
    rwa [show tail + (k + 1) = tail + 1 + k by omega] at hnext

theorem mod_add_ne_mod_add {n a b : Nat} (tail : Nat) (hab : a < b) (hbn : b < n) :
    (tail + a) % n ≠ (tail + b) % n := by
  intro h
  have hmod : a ≡ b [MOD n] := Nat.ModEq.add_left_cancel' tail h
  rw [Nat.ModEq, Nat.mod_eq_of_lt (by omega), Nat.mod_eq_of_lt hbn] at hmod
  omega

theorem window_push (buf : Nat → α) (n tail cnt : Nat) (a : α) (hcnt : cnt < n) :
    window (Function.update buf ((tail + cnt) % n) a) n tail (cnt + 1) =
      window buf n tail cnt ++ [a] := by
  rw [window_succ, Function.update_self, window_update_of_ne]
  intro k hk
  exact mod_add_ne_mod_add tail hk hcnt

/-! ## The abstract queue -/

/-- A call on a queue: offer a list of elements, or ask for a number of them. -/
inductive FifoOp (α : Type)
  | offer (xs : List α)
  | take (n : Nat)

/-- A queue together with everything it accepted and delivered so far. -/
structure Fifo (α : Type) where
  contents : List α
  accepted : List α
  delivered : List α

namespace Fifo

def empty : Fifo α := ⟨[], [], []⟩

def step (cap : Nat) (f : Fifo α) : FifoOp α → Fifo α
  | .offer xs =>
    let new := xs.take (cap - f.contents.length)
    { f with contents := f.contents ++ new, accepted := f.accepted ++ new }
  | .take n =>
    { f with contents := f.contents.drop n, delivered := f.delivered ++ f.contents.take n }

def run (cap : Nat) (ops : List (FifoOp α)) : Fifo α :=
  ops.foldl (step cap) empty

/-- What a bounded FIFO conserves: nothing is lost, duplicated or reordered. -/
structure Conserved (cap : Nat) (f : Fifo α) : Prop where
  history : f.delivered ++ f.contents = f.accepted
  bounded : f.contents.length ≤ cap

theorem step_conserved (cap : Nat) (f : Fifo α) (op : FifoOp α) (hf : f.Conserved cap) :
    (f.step cap op).Conserved cap := by
  cases op with
  | offer xs =>
    constructor
    · simp only [step]
      rw [← hf.history, append_assoc]
    · simp only [step, length_append, length_take]
      have hb := hf.bounded
      omega
  | take n =>
    constructor
    · simp only [step]
      rw [append_assoc, take_append_drop, hf.history]
    · simp only [step, length_drop]
      have hb := hf.bounded
      omega

theorem run_conserved (cap : Nat) (ops : List (FifoOp α)) : (run cap ops).Conserved cap := by
  suffices h : ∀ f : Fifo α, f.Conserved cap → (ops.foldl (step cap) f).Conserved cap from
    h empty ⟨rfl, Nat.zero_le _⟩
  induction ops with
  | nil => exact fun f hf => hf
  | cons op ops ih => exact fun f hf => ih _ (step_conserved cap f op hf)

end Fifo

end Lib
