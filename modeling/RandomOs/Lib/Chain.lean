import Mathlib.Data.List.Nodup
import Mathlib.Tactic

/-!
# Chains of cells and tilings of an interval

A singly linked list in a store of cells is the list of cells that `next` visits from the head.
`Tiles` says that consecutive cells cover an interval of numbers without gaps.
-/

namespace Lib

open List

variable {α : Type}

/-- Following `next` from the given cell visits exactly the cells of the list. -/
def Linked (next : α → Option α) : Option α → List α → Prop
  | head, [] => head = none
  | head, i :: l => head = some i ∧ Linked next (next i) l

/-- The first cell of a chain that satisfies `p`; the outer `none` means that `fuel` ran out. -/
def firstLinked (next : α → Option α) (p : α → Bool) : Nat → Option α → Option (Option α)
  | _, none => some none
  | 0, some _ => none
  | fuel + 1, some i => if p i then some (some i) else firstLinked next p fuel (next i)

section Linked

variable {next next' : α → Option α} {head : Option α} {l pre post : List α} {i j : α}

theorem Linked.congr (hl : Linked next head l) (heq : ∀ k ∈ l, next' k = next k) :
    Linked next' head l := by
  induction l generalizing head with
  | nil => exact hl
  | cons k l ih =>
    refine ⟨hl.1, ?_⟩
    rw [heq k mem_cons_self]
    exact ih hl.2 fun m hm => heq m (mem_cons_of_mem k hm)

theorem firstLinked_eq_find (hl : Linked next head l) (p : α → Bool) {fuel : Nat}
    (hfuel : l.length ≤ fuel) : firstLinked next p fuel head = some (l.find? p) := by
  induction l generalizing head fuel with
  | nil =>
    rw [show head = none from hl]
    cases fuel <;> rfl
  | cons k l ih =>
    obtain ⟨hhead, hrest⟩ := hl
    cases fuel with
    | zero => simp at hfuel
    | succ fuel =>
      rw [hhead, firstLinked, List.find?_cons]
      cases hp : p k with
      | true => rfl
      | false => exact ih hrest (by simpa using hfuel)

-- a new cell `j` goes in after `i`
theorem Linked.insert (hl : Linked next head (pre ++ i :: post)) (hi : next' i = some j)
    (hj : next' j = next i) (hrest : ∀ k ∈ pre ++ post, next' k = next k) :
    Linked next' head (pre ++ i :: j :: post) := by
  induction pre generalizing head with
  | nil =>
    refine ⟨hl.1, hi, ?_⟩
    rw [hj]
    exact hl.2.congr hrest
  | cons k pre ih =>
    refine ⟨hl.1, ?_⟩
    rw [hrest k mem_cons_self]
    exact ih hl.2 fun m hm => hrest m (mem_cons_of_mem k hm)

-- the cell after `i` goes out
theorem Linked.remove (hl : Linked next head (pre ++ i :: j :: post)) (hi : next' i = next j)
    (hrest : ∀ k ∈ pre ++ post, next' k = next k) : Linked next' head (pre ++ i :: post) := by
  induction pre generalizing head with
  | nil =>
    refine ⟨hl.1, ?_⟩
    rw [hi]
    exact hl.2.2.congr hrest
  | cons k pre ih =>
    refine ⟨hl.1, ?_⟩
    rw [hrest k mem_cons_self]
    exact ih hl.2 fun m hm => hrest m (mem_cons_of_mem k hm)

-- the successor of a cell in the middle of a chain
theorem Linked.next_eq (hl : Linked next head (pre ++ i :: post)) : next i = post.head? := by
  induction pre generalizing head with
  | nil =>
    have hrest := hl.2
    cases post with
    | nil => exact hrest
    | cons j post => exact hrest.1
  | cons k pre ih => exact ih hl.2

end Linked

/-! ## Tilings -/

/-- The cells of the list start at the given number, each where the one before ends, and end at the
last number. -/
def Tiles (base size : α → Nat) : Nat → List α → Nat → Prop
  | lo, [], hi => lo = hi
  | lo, i :: l, hi => base i = lo ∧ Tiles base size (lo + size i) l hi

section Tiles

variable {base size base' size' : α → Nat} {l pre post : List α} {lo hi : Nat} {i j : α}

theorem Tiles.congr (h : Tiles base size lo l hi)
    (heq : ∀ i ∈ l, base' i = base i ∧ size' i = size i) : Tiles base' size' lo l hi := by
  induction l generalizing lo with
  | nil => exact h
  | cons i l ih =>
    obtain ⟨hb, hs⟩ := heq i mem_cons_self
    refine ⟨hb.trans h.1, ?_⟩
    rw [hs]
    exact ih h.2 fun k hk => heq k (mem_cons_of_mem i hk)

-- the interval of `i` is cut in two, the second part going to a new cell `j`
theorem Tiles.insert (h : Tiles base size lo (pre ++ i :: post) hi) (hbase : base' i = base i)
    (hj : base' j = base i + size' i) (hsum : size' i + size' j = size i)
    (hrest : ∀ k ∈ pre ++ post, base' k = base k ∧ size' k = size k) :
    Tiles base' size' lo (pre ++ i :: j :: post) hi := by
  induction pre generalizing lo with
  | nil =>
    refine ⟨hbase.trans h.1, by rw [hj, h.1], ?_⟩
    rw [Nat.add_assoc, hsum]
    exact h.2.congr hrest
  | cons k pre ih =>
    obtain ⟨hb, hs⟩ := hrest k mem_cons_self
    refine ⟨hb.trans h.1, ?_⟩
    rw [hs]
    exact ih h.2 fun m hm => hrest m (mem_cons_of_mem k hm)

-- the cell after `i` goes out, and `i` takes its interval
theorem Tiles.remove (h : Tiles base size lo (pre ++ i :: j :: post) hi) (hbase : base' i = base i)
    (hsum : size' i = size i + size j)
    (hrest : ∀ k ∈ pre ++ post, base' k = base k ∧ size' k = size k) :
    Tiles base' size' lo (pre ++ i :: post) hi := by
  induction pre generalizing lo with
  | nil =>
    refine ⟨hbase.trans h.1, ?_⟩
    rw [hsum, ← Nat.add_assoc]
    exact h.2.2.congr hrest
  | cons k pre ih =>
    obtain ⟨hb, hs⟩ := hrest k mem_cons_self
    refine ⟨hb.trans h.1, ?_⟩
    rw [hs]
    exact ih h.2 fun m hm => hrest m (mem_cons_of_mem k hm)

section

variable (h : Tiles base size lo l hi)

include h

theorem Tiles.le : lo ≤ hi := by
  induction l generalizing lo with
  | nil => exact (show lo = hi from h).le
  | cons i l ih =>
    have := ih h.2
    omega

theorem Tiles.bounds (hmem : i ∈ l) :
    lo ≤ base i ∧ base i + size i ≤ hi := by
  induction l generalizing lo with
  | nil => simp at hmem
  | cons k l ih =>
    obtain ⟨hb, hrest⟩ := h
    rcases mem_cons.mp hmem with rfl | hmem
    · have := hrest.le
      omega
    · have := ih hrest hmem
      omega

-- consecutive cells are in order
theorem Tiles.ordered :
    l.Pairwise fun i j => base i + size i ≤ base j := by
  induction l generalizing lo with
  | nil => exact List.Pairwise.nil
  | cons k l ih =>
    refine pairwise_cons.mpr ⟨fun j hj => ?_, ih h.2⟩
    rw [h.1]
    exact (h.2.bounds hj).1

end

end Tiles

end Lib
