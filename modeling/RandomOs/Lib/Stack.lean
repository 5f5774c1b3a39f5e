import Mathlib.Algebra.BigOperators.Group.List.Basic
import Mathlib.Data.List.Forall2
import RandomOs.Lib.Quad
import RandomOs.Lib.Slice

/-!
# A stack in memory

The stack grows down.  Strings are pushed with the zero at their end, words take eight bytes.  What
has been pushed stays in memory while the stack grows.
-/

namespace Lib

open Bytes List

/-- The difference of two 64-bit words. -/
def sub64 (a b : Nat) : Nat := (a + (2 ^ 64 - b % 2 ^ 64)) % 2 ^ 64

theorem sub64_of_le {a b : Nat} (hb : b ≤ a) (ha : a < 2 ^ 64) : sub64 a b = a - b := by
  unfold sub64
  omega

structure Stack where
  mem : Bytes
  sp : Nat

namespace Stack

def pushStr (s : Stack) (x : List UInt8) : Stack :=
  let sp := sub64 s.sp (x.length + 1)
  ⟨store s.mem sp (x ++ [0]), sp⟩

/-- The last string is pushed first.  The addresses come back in the order of the strings. -/
def pushStrs (s : Stack) : List (List UInt8) → Stack × List Nat
  | [] => (s, [])
  | x :: xs =>
    let r := s.pushStrs xs
    let t := r.1.pushStr x
    (t, t.sp :: r.2)

def pushWord (s : Stack) (w : Nat) : Stack :=
  let sp := sub64 s.sp 8
  ⟨put64 s.mem sp w, sp⟩

/-- The last word is pushed first. -/
def pushWords (s : Stack) : List Nat → Stack
  | [] => s
  | w :: ws => (s.pushWords ws).pushWord w

end Stack

/-! ## What is in memory -/

/-- The words from `p` on. -/
def Words (m : Bytes) : Nat → List Nat → Prop
  | _, [] => True
  | p, w :: ws => get64 m p = w ∧ Words m (p + 8) ws

/-- A string with the zero at its end. -/
def StrAt (m : Bytes) (a : Nat) (x : List UInt8) : Prop := slice m a (x.length + 1) = x ++ [0]

section Memory

variable {m m' : Bytes} {p a : Nat} {ws us : List Nat} {x : List UInt8}

theorem Words.append : Words m p (ws ++ us) ↔ Words m p ws ∧ Words m (p + 8 * ws.length) us := by
  induction ws generalizing p with
  | nil =>
    rw [length_nil]
    exact ⟨fun h => ⟨trivial, h⟩, fun h => h.2⟩
  | cons w ws ih =>
    have hlen : p + 8 * (w :: ws).length = p + 8 + 8 * ws.length := by
      rw [length_cons]
      omega
    rw [cons_append, Words, Words, ih, hlen, and_assoc]

theorem get64_congr (h : ∀ i < 8, m' (p + i) = m (p + i)) : get64 m' p = get64 m p := by
  have hlow : get32 m' p = get32 m p := get32_congr fun i hi => h i (by omega)
  have hhigh : get32 m' (p + 4) = get32 m (p + 4) := by
    apply get32_congr
    intro i hi
    rw [Nat.add_assoc]
    exact h (4 + i) (by omega)
  rw [get64, hlow, hhigh, get64]

theorem Words.congr (h : Words m p ws)
    (hm : ∀ i < 8 * ws.length, m' (p + i) = m (p + i)) : Words m' p ws := by
  induction ws generalizing p with
  | nil => trivial
  | cons w ws ih =>
    rw [length_cons] at hm
    refine ⟨(get64_congr fun i hi => hm i (by omega)).trans h.1, ih h.2 fun i hi => ?_⟩
    rw [Nat.add_assoc]
    exact hm (8 + i) (by omega)

theorem StrAt.congr (h : StrAt m a x) (hm : ∀ i < x.length + 1, m' (a + i) = m (a + i)) :
    StrAt m' a x := by
  unfold StrAt at h ⊢
  rw [← h]
  exact slice_congr hm

end Memory

-- what an element of the first list goes with
theorem exists_of_forall₂ {α β : Type} {R : α → β → Prop} {as : List α} {bs : List β}
    (h : List.Forall₂ R as bs) {a : α} (ha : a ∈ as) : ∃ b ∈ bs, R a b := by
  induction h with
  | nil => cases ha
  | cons hab _ ih =>
    rcases mem_cons.mp ha with rfl | ha
    · exact ⟨_, mem_cons_self, hab⟩
    · obtain ⟨b, hb, hr⟩ := ih ha
      exact ⟨b, mem_cons_of_mem _ hb, hr⟩

/-! ## Pushing -/

/-- The stack has grown by `n` bytes, and nothing else has changed. -/
structure Stack.Grows (s t : Stack) (n : Nat) : Prop where
  sp : t.sp + n = s.sp
  frame : ∀ a, a < t.sp ∨ s.sp ≤ a → t.mem a = s.mem a

/-- The bytes that strings take. -/
def strBytes (xs : List (List UInt8)) : Nat := (xs.map fun x => x.length + 1).sum

theorem strBytes_cons (x : List UInt8) (xs : List (List UInt8)) :
    strBytes (x :: xs) = x.length + 1 + strBytes xs := by
  unfold strBytes
  rw [map_cons, sum_cons]

theorem Stack.pushWords_append (s : Stack) (ws us : List Nat) :
    s.pushWords (ws ++ us) = (s.pushWords us).pushWords ws := by
  induction ws with
  | nil => rfl
  | cons w ws ih => rw [cons_append, pushWords, ih, pushWords]

section Push

variable {s t u : Stack} {n k : Nat}

theorem Stack.Grows.trans (h : s.Grows t n) (h' : t.Grows u k) : s.Grows u (n + k) := by
  have hsp := h.sp
  have hsp' := h'.sp
  refine ⟨by omega, fun a ha => ?_⟩
  rw [h'.frame a (by omega), h.frame a (by omega)]

theorem Stack.Grows.words (h : s.Grows t n) {p : Nat} {ws : List Nat} (hws : Words s.mem p ws)
    (hp : s.sp ≤ p) : Words t.mem p ws :=
  hws.congr fun _ _ => h.frame _ (by omega)

theorem Stack.Grows.strAt (h : s.Grows t n) {a : Nat} {x : List UInt8} (hx : StrAt s.mem a x)
    (ha : s.sp ≤ a) : StrAt t.mem a x :=
  hx.congr fun _ _ => h.frame _ (by omega)

variable (hs : s.sp < 2 ^ 64)
include hs

theorem Stack.grows_pushStr {x : List UInt8} (hx : x.length + 1 ≤ s.sp) :
    s.Grows (s.pushStr x) (x.length + 1) ∧ StrAt (s.pushStr x).mem (s.pushStr x).sp x := by
  have hsp : (s.pushStr x).sp = s.sp - (x.length + 1) := sub64_of_le hx hs
  refine ⟨⟨by omega, fun a ha => ?_⟩, ?_⟩
  · change store s.mem (s.pushStr x).sp (x ++ [0]) a = s.mem a
    unfold store
    split
    · rw [getD_eq_getElem?_getD, List.getElem?_eq_none, Option.getD_none]
      rw [length_append, length_singleton]
      omega
    · rfl
  · have hread := @slice_store s.mem (s.pushStr x).sp (x ++ [0])
    rw [length_append] at hread
    exact hread

theorem Stack.grows_pushStrs {xs : List (List UInt8)} (hxs : strBytes xs ≤ s.sp) :
    s.Grows (s.pushStrs xs).1 (strBytes xs) ∧
      List.Forall₂ (fun a x => (s.pushStrs xs).1.sp ≤ a ∧ a < s.sp ∧
        StrAt (s.pushStrs xs).1.mem a x) (s.pushStrs xs).2 xs := by
  induction xs with
  | nil => exact ⟨⟨rfl, fun _ _ => rfl⟩, List.Forall₂.nil⟩
  | cons x xs ih =>
    rw [strBytes_cons] at hxs
    obtain ⟨hgrows, hstrs⟩ := ih (by omega)
    have hsp := hgrows.sp
    have hpush : (s.pushStrs (x :: xs)).1 = (s.pushStrs xs).1.pushStr x := rfl
    obtain ⟨hgrows', hstr⟩ := Stack.grows_pushStr (s := (s.pushStrs xs).1) (x := x) (by omega)
      (by omega)
    have hsp' := hgrows'.sp
    rw [hpush, strBytes_cons, Nat.add_comm]
    refine ⟨hgrows.trans hgrows', List.Forall₂.cons ⟨le_rfl, by omega, hstr⟩ ?_⟩
    apply hstrs.imp
    rintro a y ⟨hle, hlt, hy⟩
    exact ⟨by omega, hlt, hgrows'.strAt hy hle⟩

theorem Stack.grows_pushWord {w : Nat} (hw : w < 2 ^ 64) (h8 : 8 ≤ s.sp) :
    s.Grows (s.pushWord w) 8 ∧ Words (s.pushWord w).mem (s.pushWord w).sp [w] := by
  have hsp : (s.pushWord w).sp = s.sp - 8 := sub64_of_le h8 hs
  refine ⟨⟨by omega, fun a ha => ?_⟩, ?_, trivial⟩
  · change put32 (put32 s.mem (s.pushWord w).sp w) ((s.pushWord w).sp + 4) (w / 2 ^ 32) a = s.mem a
    rw [put32_of_ne (by omega), put32_of_ne (by omega)]
  · change get64 (put64 s.mem (s.pushWord w).sp w) (s.pushWord w).sp = w
    rw [get64_put64, Nat.mod_eq_of_lt hw]

theorem Stack.grows_pushWords {ws : List Nat} (hws : ∀ w ∈ ws, w < 2 ^ 64)
    (hlen : 8 * ws.length ≤ s.sp) : s.Grows (s.pushWords ws) (8 * ws.length) ∧
      Words (s.pushWords ws).mem (s.pushWords ws).sp ws := by
  induction ws with
  | nil => exact ⟨⟨rfl, fun _ _ => rfl⟩, trivial⟩
  | cons w ws ih =>
    rw [length_cons] at hlen ⊢
    obtain ⟨hgrows, hwords⟩ := ih (fun x hx => hws x (mem_cons_of_mem _ hx)) (by omega)
    have hsp := hgrows.sp
    have hpush : s.pushWords (w :: ws) = (s.pushWords ws).pushWord w := rfl
    obtain ⟨hgrows', hword⟩ := Stack.grows_pushWord (s := s.pushWords ws)
      (w := w) (by omega) (hws w mem_cons_self) (by omega)
    have hsp' := hgrows'.sp
    rw [hpush]
    refine ⟨hgrows.trans hgrows', hword.1, ?_⟩
    rw [show ((s.pushWords ws).pushWord w).sp + 8 = (s.pushWords ws).sp from hsp']
    exact hgrows'.words hwords le_rfl

end Push

end Lib
