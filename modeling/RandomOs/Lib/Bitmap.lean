import Mathlib.Data.List.Range
import Mathlib.Data.List.Lemmas
import Mathlib.Tactic

/-!
# Bitmaps and the ranges they account for

A bitmap is a function from indices to bits.  `Held b l` says that the ranges in `l` do not meet
and that `b` has every index of them set, which is what an allocator that hands out ranges of clear
bits keeps true.
-/

namespace Lib

/-- The bitmap with the listed indices set to `v`. -/
def mark (b : Nat → Bool) (l : List Nat) (v : Bool) : Nat → Bool :=
  l.foldl (fun b i => Function.update b i v) b

theorem mark_apply (b : Nat → Bool) (l : List Nat) (v : Bool) (i : Nat) :
    mark b l v i = if i ∈ l then v else b i := by
  induction l generalizing b with
  | nil => simp [mark]
  | cons j l ih =>
    change mark (Function.update b j v) l v i = _
    rw [ih]
    by_cases hl : i ∈ l
    · simp [hl]
    · by_cases hij : i = j
      · simp [hij]
      · simp [hl, hij]

-- a search over `0, 1, ...` stops at the first index where it succeeds
theorem findSome_range_spec {α : Type} {n : Nat} {f : Nat → Option α} {a : α}
    (hfind : (List.range n).findSome? f = some a) :
    ∃ i < n, f i = some a ∧ ∀ j < i, f j = none := by
  induction n with
  | zero => simp at hfind
  | succ n ih =>
    rw [List.range_succ, List.findSome?_append] at hfind
    cases hn : (List.range n).findSome? f with
    | some c =>
      rw [hn] at hfind
      obtain ⟨i, hi, hrest⟩ := ih (hn.trans hfind)
      exact ⟨i, by omega, hrest⟩
    | none =>
      rw [hn, List.findSome?_singleton] at hfind
      exact ⟨n, by omega, hfind, fun j hj =>
        List.findSome?_eq_none_iff.mp hn j (List.mem_range.mpr hj)⟩

/-! ## Counting -/

/-- How many of the first `n` bits are clear. -/
def clearCount (b : Nat → Bool) (n : Nat) : Nat :=
  ((Finset.range n).filter fun k => b k = false).card

section Counting

variable {b b' : Nat → Bool} {n k : Nat}

theorem clearCount_congr (h : ∀ j < n, b j = b' j) : clearCount b n = clearCount b' n := by
  unfold clearCount
  congr 1
  apply Finset.filter_congr
  intro j hj
  rw [h j (Finset.mem_range.mp hj)]

theorem clearCount_eq_succ (hk : k < n) (hclear : b k = false) (hset : b' k = true)
    (hrest : ∀ j < n, j ≠ k → b j = b' j) : clearCount b n = clearCount b' n + 1 := by
  have hinsert : (Finset.range n).filter (fun j => b j = false) =
      insert k ((Finset.range n).filter fun j => b' j = false) := by
    ext j
    rw [Finset.mem_insert, Finset.mem_filter, Finset.mem_filter, Finset.mem_range]
    by_cases hj : j = k
    · subst hj
      simp [hk, hclear]
    constructor
    · rintro ⟨hlt, hbit⟩
      exact Or.inr ⟨hlt, by rwa [← hrest j hlt hj]⟩
    · rintro (heq | ⟨hlt, hbit⟩)
      · exact absurd heq hj
      · exact ⟨hlt, by rwa [hrest j hlt hj]⟩
  have hnot : k ∉ (Finset.range n).filter fun j => b' j = false := by
    rw [Finset.mem_filter, hset]
    simp
  unfold clearCount
  rw [hinsert, Finset.card_insert_of_notMem hnot]

theorem clearCount_true (n : Nat) : clearCount (fun _ => true) n = 0 := by
  simp [clearCount]

theorem clearCount_pos (hk : k < n) (hclear : b k = false) : 0 < clearCount b n :=
  Finset.card_pos.mpr ⟨k, Finset.mem_filter.mpr ⟨Finset.mem_range.mpr hk, hclear⟩⟩

end Counting

/-! ## Ranges -/

/-- The indices of a range given by its start and length. -/
def InRange (r : Nat × Nat) (i : Nat) : Prop := r.1 ≤ i ∧ i < r.1 + r.2

instance (r : Nat × Nat) (i : Nat) : Decidable (InRange r i) :=
  inferInstanceAs (Decidable (_ ∧ _))

def Apart (r r' : Nat × Nat) : Prop := ∀ i, InRange r i → ¬ InRange r' i

theorem Apart.symm {r r' : Nat × Nat} (h : Apart r r') : Apart r' r :=
  fun i hi hi' => h i hi' hi

/-- The ranges in `l` do not meet, and their indices are set. -/
structure Held (b : Nat → Bool) (l : List (Nat × Nat)) : Prop where
  set : ∀ r ∈ l, ∀ i, InRange r i → b i = true
  apart : l.Pairwise Apart

namespace Held

variable {b b' : Nat → Bool} {l : List (Nat × Nat)}

theorem nil (b : Nat → Bool) : Held b [] := ⟨by simp, List.Pairwise.nil⟩

theorem mono (h : Held b l) (hbits : ∀ i, b i = true → b' i = true) : Held b' l :=
  ⟨fun r hr i hi => hbits i (h.set r hr i hi), h.apart⟩

-- a range of clear indices does not meet any held range
theorem take (h : Held b l) {r : Nat × Nat} (hclear : ∀ i, InRange r i → b i = false)
    (hset : ∀ i, InRange r i → b' i = true) (hbits : ∀ i, b i = true → b' i = true) :
    Held b' (r :: l) := by
  refine ⟨fun r' hr' i hi => ?_, List.pairwise_cons.mpr ⟨fun r' hr' i hi hi' => ?_, h.apart⟩⟩
  · rcases List.mem_cons.mp hr' with rfl | hr'
    · exact hset i hi
    · exact hbits i (h.set r' hr' i hi)
  · have htrue := h.set r' hr' i hi'
    rw [hclear i hi] at htrue
    cases htrue

-- the other ranges survive when the indices of one are cleared
theorem give (h : Held b l) {r : Nat × Nat} (hr : r ∈ l)
    (hbits : ∀ i, ¬ InRange r i → b' i = b i) : Held b' (l.erase r) := by
  have hperm := List.perm_cons_erase hr
  have hcons : (r :: l.erase r).Pairwise Apart := (hperm.pairwise_iff Apart.symm).mp h.apart
  obtain ⟨hapart, hrest⟩ := List.pairwise_cons.mp hcons
  refine ⟨fun r' hr' i hi => ?_, hrest⟩
  rw [hbits i (fun hri => hapart r' hr' i hri hi)]
  exact h.set r' (List.mem_of_mem_erase hr') i hi

end Held

end Lib
