import RandomOs.Ext2.Remove
import Mathlib.Order.Interval.Finset.Nat

/-!
# The account of a file (`ext2.c`)

`i_blocks` is to count the sectors of the data blocks and of the tables of a file, and keeps doing
so when the file gets another block.
-/

namespace Ext2

open Lib Bytes Kern

/-- The sectors of the blocks of the file are counted in its inode. -/
def Vol.Tally (v : Vol) (n : Nat) : Prop :=
  get32 (v.inode n) 28 = v.geo.spb * Set.ncard {b | v.Owns n b}

section Tally

variable {n m : Nat} {v v' : Vol} {T : Finset Nat}

-- block 0 is never a data block
theorem Vol.Sound.owned_lt (hv : v.Sound) (hn : v.Live n) {b : Nat} (hb : v.Owns n b) :
    b ∈ Finset.Ioo 0 v.geo.blocksCount := by
  obtain ⟨es, hes, href⟩ := hb
  have hdata := (hv.owned n es b hn hes href).1
  exact Finset.mem_Ioo.mpr ⟨Nat.pos_of_ne_zero hdata.ne_zero, hdata.2.1⟩

theorem Vol.Sound.finite_owned (hv : v.Sound) (hn : v.Live n) : {b | v.Owns n b}.Finite :=
  (Finset.Ioo 0 v.geo.blocksCount).finite_toSet.subset fun _ hb => hv.owned_lt hn hb

theorem Vol.Sound.owned_card_lt (hv : v.Sound) (hg : v.geo.Ok) (hn : v.Live n) :
    v.geo.spb * Set.ncard {b | v.Owns n b} < 2 ^ 32 := by
  have hle : Set.ncard {b | v.Owns n b} ≤ v.geo.blocksCount - 1 := by
    have hsub : {b | v.Owns n b} ⊆ ↑(Finset.Ioo 0 v.geo.blocksCount) :=
      fun _ hb => hv.owned_lt hn hb
    have hcard := Set.ncard_le_ncard hsub (Finset.finite_toSet _)
    rwa [Set.ncard_coe_finset, Nat.card_Ioo] at hcard
  have hspb := hg.mounted.spb_mul
  have hge := hg.mounted.blocksz_ge
  have hmul := Nat.mul_le_mul_left v.geo.spb hle
  have hsectors := hg.sectors
  rw [Nat.mul_comm] at hsectors
  by_cases hzero : v.geo.blocksCount = 0
  · rw [hzero] at hmul
    omega
  have hsucc : v.geo.spb * v.geo.blocksCount = v.geo.spb * (v.geo.blocksCount - 1) + v.geo.spb := by
    rw [← Nat.mul_succ]
    congr 1
    omega
  omega

theorem Vol.Took.ncard (h : v.Took n v' T) (hv : v.Sound) (hn : v.Live n) :
    Set.ncard {b | v'.Owns n b} = Set.ncard {b | v.Owns n b} + T.card := by
  have hset : {b | v'.Owns n b} = {b | v.Owns n b} ∪ T := by
    ext b
    simp [h.owns n b hn]
  have hdisj : Disjoint {b | v.Owns n b} T := by
    rw [Set.disjoint_left]
    rintro b ⟨es, hes, href⟩ hb
    have hfree := h.free b hb
    rw [(hv.owned n es b hn hes href).2] at hfree
    cases hfree
  rw [hset, Set.ncard_union_eq hdisj (hv.finite_owned hn) T.finite_toSet, Set.ncard_coe_finset]

theorem Vol.Took.owns_other (h : v.Took n v' T) (hm : v.Live m) (hne : m ≠ n) (b : Nat) :
    v'.Owns m b ↔ v.Owns m b := by
  rw [h.owns m b hm]
  simp [hne]

theorem Vol.Took.tally (h : v.Took n v' T) (hv : v.Sound) (hv' : v'.Sound) (hg : v.geo.Ok)
    (hn : v.Live n) (hm : v.Live m) (htally : v.Tally m) : v'.Tally m := by
  unfold Vol.Tally at htally ⊢
  by_cases hmn : m = n
  · subst hmn
    have hlt := hv'.owned_card_lt (by rw [h.keeps.geo]; exact hg) ((h.keeps.live m).mpr hn)
    rw [h.ncard hv hn, h.keeps.geo] at hlt ⊢
    rw [h.blocks, htally, ← Nat.mul_add, Nat.mod_eq_of_lt hlt]
  · rw [h.keeps.others m hmn, h.keeps.geo, htally]
    congr 2
    ext b
    exact (h.owns_other hm hmn b).symm

end Tally

end Ext2
