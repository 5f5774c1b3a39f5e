import Mathlib.Tactic

/-!
# Four-level page tables (`core/mem/vmm.h`)

Words are natural numbers with `% 2 ^ 64` where the code can wrap.  Tables are read and written
through the direct map, so table memory is indexed by the page-aligned physical address of a table
and the index of an entry in it.
-/

namespace Mem

/-! ## Address and entry layout -/

/-- `x & ~0xFFF`. -/
def pageBase (x : Nat) : Nat := x / 4096 * 4096

def pml4Idx (addr : Nat) : Nat := addr / 2 ^ 39 % 512
def pdptIdx (addr : Nat) : Nat := addr / 2 ^ 30 % 512
def pdIdx (addr : Nat) : Nat := addr / 2 ^ 21 % 512
def ptIdx (addr : Nat) : Nat := addr / 2 ^ 12 % 512

/-- The tests `e & PAGE_PRESENT`, `e & PAGE_WRITE`, `e & PAGE_USER`, `e & PAGE_HUGE`. -/
def present (e : Nat) : Bool := e.testBit 0
def writable (e : Nat) : Bool := e.testBit 1
def user (e : Nat) : Bool := e.testBit 2
def huge (e : Nat) : Bool := e.testBit 7

def userEnd : Nat := 0x00007FFFFFFFF000
def heapStart : Nat := 0xFFFF900000000000
def heapEnd : Nat := 0xFFFFB00000000000

/-- Entry `i` of the table at physical address `base`. -/
abbrev TableMem := Nat → Nat → Nat

/-! ## What the processor does with an address -/

/-- Bits 47 to 63 of an address are all equal. -/
def Canonical (addr : Nat) : Prop := addr < 2 ^ 47 ∨ (2 ^ 64 - 2 ^ 47 ≤ addr ∧ addr < 2 ^ 64)

instance (addr : Nat) : Decidable (Canonical addr) := inferInstanceAs (Decidable (_ ∨ _))

/-- The entries consulted for an address, from the top; a 2 MiB leaf ends the walk. -/
def walk (mem : TableMem) (root addr : Nat) : List Nat :=
  let pml4e := mem root (pml4Idx addr)
  let pdpte := mem (pageBase pml4e) (pdptIdx addr)
  let pde := mem (pageBase pdpte) (pdIdx addr)
  if huge pde then [pml4e, pdpte, pde]
  else [pml4e, pdpte, pde, mem (pageBase pde) (ptIdx addr)]

/-- The byte at `addr` lies on a present page, writable at every level when `write` is set. -/
def OnPage (mem : TableMem) (root addr : Nat) (write : Bool) : Prop :=
  Canonical addr ∧ ∀ e ∈ walk mem root addr, present e ∧ (write → writable e)

theorem walk_congr {a b : Nat} (h : a / 4096 = b / 4096) (mem : TableMem) (root : Nat) :
    walk mem root a = walk mem root b := by
  have h4 : pml4Idx a = pml4Idx b := by unfold pml4Idx; omega
  have h3 : pdptIdx a = pdptIdx b := by unfold pdptIdx; omega
  have h2 : pdIdx a = pdIdx b := by unfold pdIdx; omega
  have h1 : ptIdx a = ptIdx b := by unfold ptIdx; omega
  rw [walk, walk, h4, h3, h2, h1]

theorem pageBase_div (x : Nat) : pageBase x / 4096 = x / 4096 := by
  unfold pageBase
  omega

theorem page_mod_eq_of_idx_eq {a b : Nat} (h4 : pml4Idx a = pml4Idx b)
    (h3 : pdptIdx a = pdptIdx b) (h2 : pdIdx a = pdIdx b) (h1 : ptIdx a = ptIdx b) :
    a / 4096 % 2 ^ 36 = b / 4096 % 2 ^ 36 := by
  unfold pml4Idx pdptIdx pdIdx ptIdx at *
  omega

/-! ## Page tables with given leaves -/

/-- The tables are numbered like a heap, child `i` of table `n` is table `512 * n + i + 1`; the
entries of the last level are `leaf`, by page. -/
def treeOf (leaf : Nat → Nat) : TableMem := fun base i =>
  if base / 4096 < 262657 then 2 ^ 12 * (512 * (base / 4096) + i + 1) + 7
  else leaf (512 * (base / 4096 - 262657) + i)

theorem inner_bits (n : Nat) : present (2 ^ 12 * n + 7) = true ∧ writable (2 ^ 12 * n + 7) = true ∧
      user (2 ^ 12 * n + 7) = true ∧ huge (2 ^ 12 * n + 7) = false := by
  unfold present writable user huge
  simp only [Nat.testBit_two_pow_mul_add n (show 7 < 2 ^ 12 by decide)]
  exact ⟨rfl, rfl, rfl, rfl⟩

theorem pageBase_inner (n : Nat) : pageBase (2 ^ 12 * n + 7) / 4096 = n := by
  unfold pageBase
  omega

theorem walk_treeOf (leaf : Nat → Nat) (a : Nat) : ∃ n m k, walk (treeOf leaf) 0 a =
      [2 ^ 12 * n + 7, 2 ^ 12 * m + 7, 2 ^ 12 * k + 7, leaf (a / 4096 % 2 ^ 36)] := by
  have h4 : pml4Idx a < 512 := Nat.mod_lt _ (by decide)
  have h3 : pdptIdx a < 512 := Nat.mod_lt _ (by decide)
  have hroot : treeOf leaf 0 (pml4Idx a) = 2 ^ 12 * (pml4Idx a + 1) + 7 := by
    unfold treeOf
    rw [if_pos (by omega)]
    omega
  have hpdpt : treeOf leaf (pageBase (2 ^ 12 * (pml4Idx a + 1) + 7)) (pdptIdx a) =
      2 ^ 12 * (512 * (pml4Idx a + 1) + pdptIdx a + 1) + 7 := by
    unfold treeOf
    rw [pageBase_inner, if_pos (by omega)]
  have hpd :
      treeOf leaf (pageBase (2 ^ 12 * (512 * (pml4Idx a + 1) + pdptIdx a + 1) + 7)) (pdIdx a) =
      2 ^ 12 * (512 * (512 * (pml4Idx a + 1) + pdptIdx a + 1) + pdIdx a + 1) + 7 := by
    unfold treeOf
    rw [pageBase_inner, if_pos (by omega)]
  have hpt : treeOf leaf (pageBase (2 ^ 12 * (512 * (512 * (pml4Idx a + 1) + pdptIdx a + 1) +
      pdIdx a + 1) + 7)) (ptIdx a) = leaf (a / 4096 % 2 ^ 36) := by
    unfold treeOf
    rw [pageBase_inner, if_neg (by omega)]
    apply congrArg leaf
    unfold pml4Idx pdptIdx pdIdx ptIdx
    omega
  refine ⟨pml4Idx a + 1, 512 * (pml4Idx a + 1) + pdptIdx a + 1,
    512 * (512 * (pml4Idx a + 1) + pdptIdx a + 1) + pdIdx a + 1, ?_⟩
  unfold walk
  dsimp only
  rw [hroot, hpdpt, hpd, (inner_bits _).2.2.2, if_neg Bool.false_ne_true, hpt]

end Mem
