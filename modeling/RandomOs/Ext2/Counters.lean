import RandomOs.Ext2.Alloc
import RandomOs.Lib.Bitmap
import RandomOs.Lib.Runs

/-!
# Free counts and bitmaps (`allocblk`, `freeblk`, `modbmp`)

That a block is free is recorded three times: in the bitmap of its group, in the count of the group
and in the count of the superblock.  The records agree along every sequence of allocations and
frees, as long as the numbers the driver computes with are wide enough.
-/

namespace Ext2

open Lib Bytes Kern
open Op (Post)

/-! ## The records -/

/-- The groups that have blocks.  The driver may count one group more (`nbgs`). -/
def Geo.Group (g : Geo) (grp : Nat) : Prop := g.start grp < g.blocksCount

open Geo

instance (g : Geo) (grp : Nat) : Decidable (g.Group grp) := inferInstanceAs (Decidable (_ < _))

def Geo.groups (g : Geo) : Finset Nat := (Finset.range g.nbgs).filter g.Group

/-- The block bitmap of a group as it is on the device. -/
def Ext2fs.bitmap (fs : Ext2fs) (grp : Nat) : Nat → Bool :=
  bit (fs.block (fs.geo.blockBitmap grp))

open Ext2fs

/-- Every group has a block for its bitmap that is no one else's, and the flushes stay on the
blocks that the layout reserves for them. -/
structure Geo.Charted (g : Geo) : Prop where
  mounted : g.Mounted
  blocksPerGroup_le : g.blocksPerGroup ≤ 8 * g.blocksz
  onDevice : ∀ grp, g.Group grp → g.blockBitmap grp < g.blocksCount
  apart : ∀ grp grp', g.Group grp → g.Group grp' → g.blockBitmap grp = g.blockBitmap grp' →
    grp = grp'
  unreserved : ∀ grp, g.Group grp → ¬ g.Reserved (g.blockBitmap grp)
  flush : g.FlushSafe

/-- The three records agree. -/
structure Ext2fs.Balanced (fs : Ext2fs) : Prop where
  count : ∀ grp, fs.geo.Group grp →
    fs.freeBlocks grp = clearCount (fs.bitmap grp) (8 * fs.geo.blocksz)
  -- the bits behind the last block of a group are set
  beyond : ∀ grp, fs.geo.Group grp → ∀ k < 8 * fs.geo.blocksz,
    fs.geo.blocksPerGroup ≤ k ∨ fs.geo.blocksCount ≤ fs.geo.start grp + k →
      fs.bitmap grp k = true
  total : get32 fs.sb 12 = ∑ grp ∈ fs.geo.groups, fs.freeBlocks grp

/-- The block lies in a group and its bit is `x`. -/
def Ext2fs.HasBit (fs : Ext2fs) (b : Nat) (x : Bool) : Prop :=
  fs.geo.firstDataBlock ≤ b ∧ fs.bitmap (fs.geo.grpOf b) (fs.geo.posOf b) = x

/-! ### Groups -/

section Groups

variable {g : Geo}

theorem Geo.Group.lt_nbgs (hg : g.Mounted) {grp : Nat} (h : g.Group grp) : grp < g.nbgs := by
  by_contra hge
  have hle := hg.blocksCount_le
  have hmul := Nat.mul_le_mul_right g.blocksPerGroup (Nat.le_of_not_lt hge)
  unfold Group start at h
  omega

theorem Geo.mem_groups (hg : g.Mounted) {grp : Nat} : grp ∈ g.groups ↔ g.Group grp := by
  unfold groups
  rw [Finset.mem_filter, Finset.mem_range]
  exact ⟨And.right, fun h => ⟨h.lt_nbgs hg, h⟩⟩

-- a block and its place
theorem Geo.place_of_start (hg : g.Mounted) (grp : Nat) {k : Nat} (hk : k < g.blocksPerGroup) :
    g.firstDataBlock ≤ g.start grp + k ∧ g.grpOf (g.start grp + k) = grp ∧
      g.posOf (g.start grp + k) = k := by
  obtain ⟨hle, hdiv, hmod⟩ := group_of_start hg grp k
  refine ⟨hle, ?_, ?_⟩
  · rw [grpOf, hdiv, Nat.div_eq_of_lt hk, Nat.add_zero]
  · rw [posOf, hmod, Nat.mod_eq_of_lt hk]

variable {b : Nat}

theorem Geo.start_grpOf (hb : g.firstDataBlock ≤ b) : g.start (g.grpOf b) + g.posOf b = b := by
  have hdiv := Nat.div_add_mod (b - g.firstDataBlock) g.blocksPerGroup
  have hcomm := Nat.mul_comm g.blocksPerGroup ((b - g.firstDataBlock) / g.blocksPerGroup)
  unfold start grpOf posOf
  omega

theorem Geo.group_grpOf (hb : g.firstDataBlock ≤ b) (hdev : b < g.blocksCount) :
    g.Group (g.grpOf b) := by
  have := start_grpOf hb
  unfold Group
  omega

end Groups

/-! ## What a step records -/

/-- One bit of a group has become `x`, and the counts have moved by one. -/
structure Recorded (fs fs' : Ext2fs) (grp k : Nat) (x : Bool) : Prop where
  geo : fs'.geo = fs.geo
  bits : ∀ grp', fs.geo.Group grp' → ∀ j < 8 * fs.geo.blocksz,
    fs'.bitmap grp' j = if grp' = grp ∧ j = k then x else fs.bitmap grp' j
  count : ∀ grp', fs'.freeBlocks grp' =
    if grp' = grp then (fs.freeBlocks grp + if x then 2 ^ 16 - 1 else 1) % 2 ^ 16
    else fs.freeBlocks grp'
  total : get32 fs'.sb 12 = (get32 fs.sb 12 + if x then 2 ^ 32 - 1 else 1) % 2 ^ 32

section Recorded

variable {fs fs' : Ext2fs} {grp k : Nat} {x : Bool}

-- the bit is clear on one side and set on the other
theorem Recorded.clearCount_group (h : Recorded fs fs' grp k x) (hgrp : fs.geo.Group grp)
    (hk : k < 8 * fs.geo.blocksz) (hbit : fs.bitmap grp k = !x) :
    if x then clearCount (fs.bitmap grp) (8 * fs.geo.blocksz) =
        clearCount (fs'.bitmap grp) (8 * fs.geo.blocksz) + 1
    else clearCount (fs'.bitmap grp) (8 * fs.geo.blocksz) =
        clearCount (fs.bitmap grp) (8 * fs.geo.blocksz) + 1 := by
  have hnew : fs'.bitmap grp k = x := by rw [h.bits grp hgrp k hk, if_pos ⟨rfl, rfl⟩]
  have hrest : ∀ j < 8 * fs.geo.blocksz, j ≠ k → fs'.bitmap grp j = fs.bitmap grp j := by
    intro j hj hne
    rw [h.bits grp hgrp j hj, if_neg (fun hboth => hne hboth.2)]
  cases x with
  | true =>
    exact clearCount_eq_succ hk hbit hnew fun j hj hne => (hrest j hj hne).symm
  | false => exact clearCount_eq_succ hk hnew hbit hrest

theorem Recorded.clearCount_of_ne (h : Recorded fs fs' grp k x) {grp' : Nat}
    (hgrp' : fs.geo.Group grp') (hne : grp' ≠ grp) :
    clearCount (fs'.bitmap grp') (8 * fs.geo.blocksz) =
      clearCount (fs.bitmap grp') (8 * fs.geo.blocksz) := by
  apply clearCount_congr
  intro j hj
  rw [h.bits grp' hgrp' j hj, if_neg (fun hboth => hne hboth.1)]

theorem Recorded.beyond (h : Recorded fs fs' grp k x) (hb : fs.Balanced)
    (hk : k < fs.geo.blocksPerGroup) (hdev : fs.geo.start grp + k < fs.geo.blocksCount)
    (grp' : Nat) (hgrp' : fs.geo.Group grp') {j : Nat} (hj : j < 8 * fs.geo.blocksz)
    (hout : fs.geo.blocksPerGroup ≤ j ∨ fs.geo.blocksCount ≤ fs.geo.start grp' + j) :
    fs'.bitmap grp' j = true := by
  rw [h.bits grp' hgrp' j hj, if_neg, hb.beyond grp' hgrp' j hj hout]
  rintro ⟨rfl, rfl⟩
  omega

end Recorded

theorem sum_clearCount_le {g : Geo} (hg : g.Mounted) {bits : Nat → Nat → Bool} {n : Nat}
    (hbeyond : ∀ grp, g.Group grp → ∀ k < n,
      g.blocksPerGroup ≤ k ∨ g.blocksCount ≤ g.start grp + k → bits grp k = true) :
    ∑ grp ∈ g.groups, clearCount (bits grp) n ≤ g.blocksCount := by
  unfold clearCount
  rw [← Finset.card_sigma]
  have hrange : (Finset.range g.blocksCount).card = g.blocksCount := Finset.card_range _
  rw [← hrange]
  -- a clear bit is the bit of a block
  have hplace : ∀ p ∈ g.groups.sigma fun grp => (Finset.range n).filter fun k => bits grp k = false,
      p.2 < g.blocksPerGroup ∧ g.start p.1 + p.2 < g.blocksCount := by
    rintro ⟨grp, k⟩ hp
    obtain ⟨hgrp, hk⟩ := Finset.mem_sigma.mp hp
    obtain ⟨hlt, hclear⟩ := Finset.mem_filter.mp hk
    by_contra hout
    have hset := hbeyond grp ((mem_groups hg).mp hgrp) k (Finset.mem_range.mp hlt) (by
      dsimp only at hout ⊢
      omega)
    rw [hclear] at hset
    cases hset
  refine Finset.card_le_card_of_injOn (fun p => g.start p.1 + p.2) (fun p hp => ?_) ?_
  · exact Finset.mem_range.mpr (hplace p hp).2
  rintro ⟨grp, k⟩ hp ⟨grp', k'⟩ hp' heq
  obtain ⟨-, hgrp, hpos⟩ := place_of_start hg grp (hplace _ hp).1
  obtain ⟨-, hgrp', hpos'⟩ := place_of_start hg grp' (hplace _ hp').1
  dsimp only at heq
  rw [heq] at hgrp hpos
  obtain rfl := hgrp.symm.trans hgrp'
  obtain rfl := hpos.symm.trans hpos'
  rfl

/-! ## A step keeps the balance -/

section Balanced

variable {fs fs' : Ext2fs} {grp k : Nat} (hg : fs.geo.Mounted) (hb : fs.Balanced)
  (hgrp : fs.geo.Group grp) (hk : k < fs.geo.blocksPerGroup)
  (hle : fs.geo.blocksPerGroup ≤ 8 * fs.geo.blocksz)
  (hdev : fs.geo.start grp + k < fs.geo.blocksCount)
include hg hb hgrp hk hle hdev

omit hle in
-- the group and the superblock are right, the other groups are as before
theorem Recorded.balanced {v : Bool} (h : Recorded fs fs' grp k v)
    (hnew : fs'.freeBlocks grp = clearCount (fs'.bitmap grp) (8 * fs.geo.blocksz))
    (htotal : (∀ grp', fs.geo.Group grp' →
        fs'.freeBlocks grp' = clearCount (fs'.bitmap grp') (8 * fs.geo.blocksz)) →
      (∑ grp' ∈ fs.geo.groups, fs'.freeBlocks grp') + fs.freeBlocks grp =
        (∑ grp' ∈ fs.geo.groups, fs.freeBlocks grp') + fs'.freeBlocks grp →
      get32 fs'.sb 12 = ∑ grp' ∈ fs.geo.groups, fs'.freeBlocks grp') : fs'.Balanced := by
  have hall : ∀ grp', fs.geo.Group grp' →
      fs'.freeBlocks grp' = clearCount (fs'.bitmap grp') (8 * fs.geo.blocksz) := by
    intro grp' hgrp'
    by_cases hne : grp' = grp
    · rw [hne, hnew]
    · rw [h.count, if_neg hne, h.clearCount_of_ne hgrp' hne, hb.count grp' hgrp']
  refine ⟨fun grp' hgrp' => ?_, fun grp' hgrp' j hj hout => ?_, ?_⟩
  · rw [h.geo] at hgrp' ⊢
    exact hall grp' hgrp'
  · rw [h.geo] at hgrp' hj hout
    exact h.beyond hb hk hdev grp' hgrp' hj hout
  have hmem : grp ∈ fs.geo.groups := (mem_groups hg).mpr hgrp
  have hsum : ∑ grp' ∈ fs.geo.groups.erase grp, fs'.freeBlocks grp' =
      ∑ grp' ∈ fs.geo.groups.erase grp, fs.freeBlocks grp' := by
    apply Finset.sum_congr rfl
    intro grp' hmem'
    rw [h.count, if_neg (Finset.ne_of_mem_erase hmem')]
  have hold := Finset.add_sum_erase fs.geo.groups fs.freeBlocks hmem
  have hnew' := Finset.add_sum_erase fs.geo.groups fs'.freeBlocks hmem
  rw [h.geo]
  exact htotal hall (by omega)

theorem Recorded.balanced_take (h : Recorded fs fs' grp k true) (hclear : fs.bitmap grp k = false) :
    fs'.Balanced := by
  have hlt := get16_lt fs.bgs (32 * grp + 12)
  change fs.freeBlocks grp < 2 ^ 16 at hlt
  have hlt32 := get32_lt fs.sb 12
  have hcount := h.clearCount_group hgrp (by omega) hclear
  rw [if_pos rfl, ← hb.count grp hgrp] at hcount
  have hnew : fs'.freeBlocks grp = clearCount (fs'.bitmap grp) (8 * fs.geo.blocksz) := by
    rw [h.count, if_pos rfl, if_pos rfl]
    omega
  refine h.balanced hg hb hgrp hk hdev hnew fun _ hsums => ?_
  rw [h.total, if_pos rfl, hb.total]
  rw [hb.total] at hlt32
  omega

theorem Recorded.balanced_give (h : Recorded fs fs' grp k false) (hset : fs.bitmap grp k = true)
    (hroom : fs.freeBlocks grp < 2 ^ 16 - 1) : fs'.Balanced := by
  have hcount := h.clearCount_group hgrp (by omega) hset
  rw [if_neg (by decide), ← hb.count grp hgrp] at hcount
  have hnew : fs'.freeBlocks grp = clearCount (fs'.bitmap grp) (8 * fs.geo.blocksz) := by
    rw [h.count, if_pos rfl, if_neg (by decide)]
    omega
  refine h.balanced hg hb hgrp hk hdev hnew fun hall hsums => ?_
  -- the new sum is a number of blocks, so it fits a `u32`
  have hbound : ∑ grp' ∈ fs.geo.groups, fs'.freeBlocks grp' ≤ fs.geo.blocksCount := by
    rw [Finset.sum_congr rfl fun grp' hmem' => hall grp' ((mem_groups hg).mp hmem')]
    exact sum_clearCount_le hg fun grp' hgrp' j hj hout => h.beyond hb hk hdev grp' hgrp' hj hout
  have hbc := hg.blocksCount_lt
  rw [h.total, if_neg (by decide), hb.total, Nat.mod_eq_of_lt (by omega)]
  omega

end Balanced

/-! ## The flushes -/

/-- The state after a flush has the same records. -/
structure SameRecords (fs fs' : Ext2fs) : Prop where
  geo : fs'.geo = fs.geo
  bgs : fs'.bgs = fs.bgs
  sb : fs'.sb = fs.sb
  bits : ∀ grp, fs.geo.Group grp → ∀ k < 8 * fs.geo.blocksz, fs'.bitmap grp k = fs.bitmap grp k

variable {grp : Nat} {fs : Ext2fs}

theorem SameRecords.recorded {fs₁ fs₂ : Ext2fs} {k : Nat} {x : Bool} (h : Recorded fs fs₁ grp k x)
    (h' : SameRecords fs₁ fs₂) : Recorded fs fs₂ grp k x := by
  refine ⟨h'.geo.trans h.geo, fun grp' hgrp' j hj => ?_, fun grp' => ?_, ?_⟩
  · rw [h'.bits grp' (by rwa [h.geo]) j (by rwa [h.geo]), h.bits grp' hgrp' j hj]
  · rw [← h.count grp', freeBlocks, h'.bgs, freeBlocks]
  · rw [h'.sb, h.total]

section Flush

variable {fs : Ext2fs} (hg : fs.geo.Charted) (hs : fs.geo.blocksCount * fs.geo.spb ≤ 2 ^ 32)
include hg hs

theorem sameRecords_after {op : Op Ext2fs Unit} {ts : List Nat}
    (hkeeps : Op.Keeps inMemory op) (hemits : Emits fs.geo op ts)
    (hres : ∀ b ∈ ts.takeWhile (· < fs.geo.blocksCount), fs.geo.Reserved b) :
    SameRecords fs (op.after fs) := by
  have hgeo := (hemits fs rfl).1.geo
  refine ⟨hgeo, (hkeeps.comp bgs).after fs, (hkeeps.comp sb).after fs, fun grp hgrp k hk => ?_⟩
  unfold bitmap
  rw [hgeo]
  apply bit_congr
  exact sameAt_after_flush hg.mounted hs hemits hres (hg.unreserved grp hgrp) _ (by omega)

theorem sameRecords_flushBgs : SameRecords fs (flushBgs.after fs) :=
  sameRecords_after hg hs keeps_flushBgs (flushBgs_emits hg.mounted)
    (hg.flush.flushBgs hg.mounted)

theorem sameRecords_flushSbs : SameRecords fs (flushSbs.after fs) :=
  sameRecords_after hg hs keeps_flushSbs (flushSbs_emits fs.geo) (hg.flush.flushSbs hg.mounted)

end Flush

theorem Recorded.flushes {fs₁ : Ext2fs} {k : Nat} {x : Bool} (hg : fs.geo.Charted)
    (hs : fs.geo.blocksCount * fs.geo.spb ≤ 2 ^ 32) (h : Recorded fs fs₁ grp k x) {α : Type}
    {cont : Op Ext2fs α} {Q : α → Ext2fs → Prop} {E : Stop → Ext2fs → Prop}
    (hcont : ∀ fs₂, Recorded fs fs₂ grp k x → Post cont fs₂ Q E)
    (hE : ∀ e fs₂, Recorded fs fs₂ grp k x → E e fs₂) :
    Post (do flushBgs; flushSbs; cont) fs₁ Q E := by
  have hbgs : Recorded fs (flushBgs.after fs₁) grp k x :=
    SameRecords.recorded h (sameRecords_flushBgs (by rwa [h.geo]) (by rwa [h.geo]))
  refine Post.bind (Post.of_after (P := fun t => Recorded fs t grp k x) hbgs) ?_ hE
  intro _ fs₂ h₂
  have hsbs : Recorded fs (flushSbs.after fs₂) grp k x :=
    SameRecords.recorded h₂ (sameRecords_flushSbs (by rwa [h₂.geo]) (by rwa [h₂.geo]))
  exact Post.bind (Post.of_after (P := fun t => Recorded fs t grp k x) hsbs) (fun _ => hcont) hE

/-! ## `allocblk` and `freeblk` -/

@[simp] theorem freeBlocks_putBlock (fs : Ext2fs) (b : Nat) (buf : Bytes) (grp : Nat) :
    (fs.putBlock b buf).freeBlocks grp = fs.freeBlocks grp := rfl

theorem freeBlocks_count (fs : Ext2fs) (grp d16 d32 grp' : Nat) :
    (fs.count grp 12 12 d16 d32).freeBlocks grp' =
      if grp' = grp then (fs.freeBlocks grp + d16) % 2 ^ 16 else fs.freeBlocks grp' := by
  change get16 (put16 fs.bgs (32 * grp + 12) (get16 fs.bgs (32 * grp + 12) + d16))
    (32 * grp' + 12) = _
  by_cases heq : grp' = grp
  · rw [if_pos heq, heq, get16_put16]
    rfl
  · rw [if_neg heq, get16_put16_of_ne (by omega)]
    rfl

theorem total_count (fs : Ext2fs) (grp d16 d32 : Nat) :
    get32 (fs.count grp 12 12 d16 d32).sb 12 = (get32 fs.sb 12 + d32) % 2 ^ 32 :=
  get32_put32 _ _ _

/-- A block of the device whose bit was clear is taken. -/
structure TakesFree (fs fs' : Ext2fs) (b : Nat) : Prop where
  ge : fs.geo.firstDataBlock ≤ b
  lt : b < fs.geo.blocksCount
  clear : fs.bitmap (fs.geo.grpOf b) (fs.geo.posOf b) = false
  recorded : Recorded fs fs' (fs.geo.grpOf b) (fs.geo.posOf b) true

section Steps

variable {fs : Ext2fs} (hg : fs.geo.Charted) (hs : fs.geo.blocksCount * fs.geo.spb ≤ 2 ^ 32)
include hg hs

/-- The write of a bitmap and the counts that follow it. -/
theorem recorded_putBlock {fs₀ : Ext2fs} (hgeo : fs.geo = fs₀.geo) (hbgs : fs.bgs = fs₀.bgs)
    (hsb : fs.sb = fs₀.sb)
    (hsame : ∀ grp', fs.geo.Group grp' → ∀ j < 8 * fs.geo.blocksz,
      fs.bitmap grp' j = fs₀.bitmap grp' j)
    {grp k : Nat} (hgrp : fs.geo.Group grp) {x : Bool} {buf : Bytes}
    (hbuf : ∀ j, bit buf j = if j = k then x else fs.bitmap grp j) :
    Recorded fs₀ ((fs.putBlock (fs.geo.blockBitmap grp) buf).count grp 12 12
      (if x then 2 ^ 16 - 1 else 1) (if x then 2 ^ 32 - 1 else 1)) grp k x := by
  have hcgeo : ∀ d16 d32, ((fs.putBlock (fs.geo.blockBitmap grp) buf).count grp 12 12 d16
      d32).geo = fs.geo := fun d16 d32 => count_geo (Or.inl rfl) (Or.inl rfl)
  refine ⟨(hcgeo _ _).trans hgeo, fun grp' hgrp' j hj => ?_, fun grp' => ?_, ?_⟩
  · rw [← hgeo] at hgrp' hj
    change bit (block _ _) j = _
    rw [hcgeo, ← hsame grp' hgrp' j hj]
    have hblock : ∀ d16 d32 i, ((fs.putBlock (fs.geo.blockBitmap grp) buf).count grp 12 12 d16
        d32).block (fs.geo.blockBitmap grp') i =
        (fs.putBlock (fs.geo.blockBitmap grp) buf).block (fs.geo.blockBitmap grp') i := by
      intro d16 d32 i
      unfold block
      rw [hcgeo]
      rfl
    have hdev := hg.onDevice grp hgrp
    by_cases heq : grp' = grp
    · subst heq
      have hbyte := hg.mounted.block_putBlock hs hdev buf (i := j / 8) (by omega)
      rw [bit_congr ((hblock _ _ _).trans hbyte), hbuf]
      simp
    · have hne : fs.geo.blockBitmap grp' ≠ fs.geo.blockBitmap grp :=
        fun hsame => heq (hg.apart grp' grp hgrp' hgrp hsame)
      have hbyte := hg.mounted.block_putBlock_of_ne hs hdev hne buf (i := j / 8) (by omega)
      rw [bit_congr ((hblock _ _ _).trans hbyte), if_neg (fun hboth => heq hboth.1)]
      rfl
  · rw [freeBlocks_count, freeBlocks_putBlock, freeBlocks_putBlock]
    unfold freeBlocks
    rw [hbgs]
  · rw [total_count]
    change (get32 fs.sb 12 + _) % 2 ^ 32 = _
    rw [hsb]

/-- The records stay as they are, or a block that was free is taken. -/
theorem allocblkFrom_recorded (hb : fs.Balanced)
    (hextra : ∀ grp < fs.geo.nbgs, ¬ fs.geo.Group grp → fs.freeBlocks grp = 0)
    (hnbgs : 0 < fs.geo.nbgs) (bg m n : Nat) :
    Post (allocblkFrom bg m n) fs (fun b fs' => TakesFree fs fs' b)
      (fun _ fs' => fs' = fs ∨ ∃ b, TakesFree fs fs' b) := by
  induction m generalizing n with
  | zero => exact Post.fail (Or.inl rfl)
  | succ m ih =>
    apply Post.get_bind
    dsimp only
    have hlt : (bg + n) % fs.geo.nbgs < fs.geo.nbgs := Nat.mod_lt _ hnbgs
    generalize (bg + n) % fs.geo.nbgs = grp at hlt
    split
    · exact ih (n + 1)
    rename_i hfree
    have hgrp : fs.geo.Group grp := by
      by_contra hnot
      exact hfree (hextra grp hlt hnot)
    have hdev := hg.onDevice grp hgrp
    apply Post.bind_ok (hg.mounted.run_rdblk hs hdev)
    split
    · exact ih (n + 1)
    rename_i idx hidx
    obtain ⟨hscan, hclear⟩ := firstClear_some hidx
    have hk : idx < fs.geo.blocksPerGroup := Nat.lt_of_lt_of_le hscan (scanBits_le _ _)
    have hle := hg.blocksPerGroup_le
    -- a bit behind the last block would be set
    have hblk : fs.geo.start grp + idx < fs.geo.blocksCount := by
      by_contra hout
      have hset := hb.beyond grp hgrp idx (by omega) (Or.inr (by omega))
      rw [bitmap, hclear] at hset
      cases hset
    have hno : fs.geo.start grp % 2 ^ 32 + idx = fs.geo.start grp + idx := by
      have hbc := hg.mounted.blocksCount_lt
      rw [Nat.mod_eq_of_lt (by omega)]
    have hbuf : ∀ j, bit (setBit (fs.block (fs.geo.blockBitmap grp)) idx) j =
        if j = idx then true else fs.bitmap grp j := by
      intro j
      rw [bit_setBit]
      by_cases hj : j = idx
      · simp [hj]
      · simp [hj, bitmap]
    have hrec := recorded_putBlock hg hs rfl rfl rfl (fun _ _ _ _ => rfl) hgrp hbuf
    obtain ⟨hfdb, hgrpOf, hposOf⟩ := place_of_start hg.mounted grp hk
    have htaken : ∀ fs', Recorded fs fs' grp idx true →
        TakesFree fs fs' (fs.geo.start grp + idx) := by
      intro fs' hfs'
      refine ⟨hfdb, hblk, ?_, ?_⟩
      · rw [hgrpOf, hposOf]
        exact hclear
      · rwa [hgrpOf, hposOf]
    apply Post.bind_ok (run_wrblk hdev _)
    apply Post.modify_bind
    apply Recorded.flushes hg hs hrec
    · intro fs' hfs'
      apply Post.pure
      rw [hno]
      exact htaken fs' hfs'
    · intro e fs' hfs'
      exact Or.inr ⟨_, htaken fs' hfs'⟩

theorem allocblk_recorded (hb : fs.Balanced)
    (hextra : ∀ grp < fs.geo.nbgs, ¬ fs.geo.Group grp → fs.freeBlocks grp = 0) (bg : Nat) :
    Post (allocblk bg) fs (fun b fs' => TakesFree fs fs' b)
      (fun _ fs' => fs' = fs ∨ ∃ b, TakesFree fs fs' b) := by
  apply Post.get_bind
  split
  · exact Post.fail (Or.inl rfl)
  · exact allocblkFrom_recorded hg hs hb hextra (by omega) bg _ 0

/-- Freeing a block that holds no bitmap clears its bit, also where a flush fails afterwards. -/
theorem freeblk_recorded (hne : b ≠ 0) (hfdb : fs.geo.firstDataBlock ≤ b)
    (hdev : b < fs.geo.blocksCount)
    (hplain : ∀ grp, fs.geo.Group grp → fs.geo.blockBitmap grp ≠ b) :
    Post (freeblk b) fs
      (fun _ fs' => Recorded fs fs' (fs.geo.grpOf b) (fs.geo.posOf b) false)
      (fun _ fs' => Recorded fs fs' (fs.geo.grpOf b) (fs.geo.posOf b) false) := by
  have hgrp := group_grpOf hfdb hdev
  have hpos := posOf_lt hg.mounted b
  have hle := hg.blocksPerGroup_le
  have hbmpdev := hg.onDevice _ hgrp
  have hrel : (b + (2 ^ 32 - fs.geo.firstDataBlock)) % 2 ^ 32 = b - fs.geo.firstDataBlock := by
    have hbc := hg.mounted.blocksCount_lt
    omega
  -- the block is cleared first; it is no bitmap
  have hsame : ∀ grp', fs.geo.Group grp' → ∀ j < 8 * fs.geo.blocksz,
      (fs.putBlock b zero).bitmap grp' j = fs.bitmap grp' j := by
    intro grp' hgrp' j hj
    exact bit_congr
      (hg.mounted.block_putBlock_of_ne hs hdev (hplain grp' hgrp') zero (Nat.div_lt_of_lt_mul hj))
  have hbuf : ∀ j, bit (clrBit (blockRead (fs.putBlock b zero).disk (fs.geo.blockBitmap
      (fs.geo.grpOf b) * fs.geo.spb % 2 ^ 32)) (fs.geo.posOf b)) j =
        if j = fs.geo.posOf b then false else (fs.putBlock b zero).bitmap (fs.geo.grpOf b) j := by
    intro j
    unfold bitmap block blockRead
    rw [bit_clrBit, hg.mounted.sector hs hbmpdev]
    by_cases hj : j = fs.geo.posOf b
    · simp [hj]
    · simp [hj]
  refine freeblk_steps hne hdev hrel (hgrp.lt_nbgs hg.mounted) hbmpdev ?_ ?_
  · change fs.geo.posOf b / 8 < _
    omega
  · have hrec := @recorded_putBlock (fs.putBlock b zero) hg hs fs rfl rfl rfl hsame
      (fs.geo.grpOf b) (fs.geo.posOf b) hgrp false _ hbuf
    exact Recorded.flushes hg hs hrec (fun _ h => Post.pure h) fun _ _ h => h

end Steps

/-! ## Runs -/

inductive BlkOp
  | alloc (bg : Nat)
  | free (b : Nat)

open BlkOp

/-- Any group may be asked; what is freed is a block of the device that is marked as in use and
does not hold the bitmap of a group. -/
def BlkOp.Step (fs : Ext2fs) : BlkOp → Ext2fs → Prop
  | .alloc bg, fs' => fs' = (allocblk bg).after fs
  | .free b, fs' => b < fs.geo.blocksCount ∧ fs.HasBit b true ∧
      (∀ grp, fs.geo.Group grp → fs.geo.blockBitmap grp ≠ b) ∧ fs' = (freeblk b).after fs

/-- The numbers are wide enough: the sectors have 32 bits, a group that the driver counts beyond the
last one has no free blocks, and a group that gets a block back can count it in 16 bits. -/
structure BlkOp.Fits (fs : Ext2fs) (op : BlkOp) : Prop where
  sectors : fs.geo.blocksCount * fs.geo.spb ≤ 2 ^ 32
  extra : ∀ grp < fs.geo.nbgs, ¬ fs.geo.Group grp → fs.freeBlocks grp = 0
  room : ∀ b, op = .free b → fs.freeBlocks (fs.geo.grpOf b) < 2 ^ 16 - 1

/-- A file system whose records agree. -/
def Ext2fs.Fresh (fs : Ext2fs) : Prop := fs.geo.Charted ∧ fs.Balanced

theorem TakesFree.fresh {fs' : Ext2fs} (hfs : fs.Fresh) (h : TakesFree fs fs' b) : fs'.Fresh := by
  obtain ⟨hg, hb⟩ := hfs
  have hstart := start_grpOf h.ge
  have hlt := h.lt
  refine ⟨by rw [h.recorded.geo]; exact hg, ?_⟩
  exact h.recorded.balanced_take hg.mounted hb (group_grpOf h.ge h.lt)
    (posOf_lt hg.mounted b) hg.blocksPerGroup_le (by omega) h.clear

theorem BlkOp.Step.fresh {fs' : Ext2fs} {op : BlkOp} (h : fs.Fresh) (hfits : BlkOp.Fits fs op)
    (hstep : Step fs op fs') : fs'.Fresh := by
  obtain ⟨hg, hb⟩ := h
  cases op with
  | alloc bg =>
    obtain rfl : fs' = (allocblk bg).after fs := hstep
    apply Post.after
    apply (allocblk_recorded hg hfits.sectors hb hfits.extra bg).mono
    · exact fun b t htaken => htaken.fresh ⟨hg, hb⟩
    · rintro e t (rfl | ⟨b, htaken⟩)
      · exact ⟨hg, hb⟩
      · exact htaken.fresh ⟨hg, hb⟩
  | free b =>
    obtain ⟨hdev, ⟨hfdb, hset⟩, hplain, rfl⟩ := hstep
    by_cases hzero : b = 0
    · -- `freeblk (0)` does nothing
      have hafter : (freeblk b).after fs = fs := by
        unfold freeblk
        rw [if_pos hzero]
        rfl
      rw [hafter]
      exact ⟨hg, hb⟩
    · have hrec := (freeblk_recorded hg hfits.sectors hzero hfdb hdev hplain).after
      have hstart := start_grpOf hfdb
      refine ⟨by rw [hrec.geo]; exact hg, ?_⟩
      exact hrec.balanced_give hg.mounted hb (group_grpOf hfdb hdev)
        (posOf_lt hg.mounted b) hg.blocksPerGroup_le (by omega) hset (hfits.room b rfl)

/-- In every run whose steps fit, the bitmaps and both counts agree in every state, and an
allocation hands out a block of the device whose bit was clear. -/
theorem counters_track_bitmaps {fs : Ext2fs} (h : Reach Fresh Step BlkOp.Fits fs) :
    fs.Balanced ∧ ∀ bg b fs', BlkOp.Fits fs (.alloc bg) → (allocblk bg).run fs = .ok b fs' →
      fs.HasBit b false ∧ b < fs.geo.blocksCount := by
  have hfresh : fs.Fresh :=
    h.invariant (fun _ hinit => hinit) fun _ _ _ hfs hfits hstep => hstep.fresh hfs hfits
  refine ⟨hfresh.2, fun bg b fs' hfits hrun => ?_⟩
  have htaken := (allocblk_recorded hfresh.1 hfits.sectors hfresh.2 hfits.extra bg).ok hrun
  exact ⟨⟨htaken.ge, htaken.clear⟩, htaken.lt⟩

/-! ## One free block -/

-- a bitmap that starts at byte `a` of a device
theorem bit_shift (m : Bytes) (a k : Nat) : bit (fun i => m (a + i)) k = bit m (8 * a + k) := by
  unfold bit
  rw [show (8 * a + k) / 8 = a + k / 8 by omega, show (8 * a + k) % 8 = k % 8 by omega]

/-- One group of 99 blocks with its bitmap in block 3; only block 21 is free. -/
def oneFreeFs : Ext2fs where
  disk := ofBits fun k => k != 8 * (3 * 1024) + 20
  written := []
  isdyn := false
  sb := put32 (put32 (put32 (put32 zero 4 100) 12 1) 20 1) 32 8192
  nbgs := 1
  bgtbln := 1
  bgs := put16 (put32 zero 0 3) 12 1
  blocksz := 1024
  spb := 2
  ppb := 256
  gpb := 32

@[simp] theorem oneFreeFs_geo : oneFreeFs.geo.blocksCount = 100 ∧
    oneFreeFs.geo.firstDataBlock = 1 ∧ oneFreeFs.geo.blocksPerGroup = 8192 ∧
    oneFreeFs.geo.nbgs = 1 ∧ oneFreeFs.geo.bgtbln = 1 ∧ oneFreeFs.geo.blocksz = 1024 ∧
    oneFreeFs.geo.blockBitmap 0 = 3 := by
  decide

theorem oneFreeFs_group : oneFreeFs.geo.Group grp ↔ grp = 0 := by
  simp only [Geo.Group, start, oneFreeFs_geo]
  omega

theorem oneFreeFs_bitmap (k : Nat) : oneFreeFs.bitmap 0 k = (k != 20) := by
  have hdisk : oneFreeFs.disk = ofBits fun k => k != 8 * (3 * 1024) + 20 := rfl
  simp only [bitmap, oneFreeFs_geo]
  unfold block
  simp only [oneFreeFs_geo]
  rw [bit_shift, hdisk, bit_ofBits, Bool.eq_iff_iff, bne_iff_ne, bne_iff_ne]
  omega

theorem oneFreeFs_fresh : oneFreeFs.Fresh := by
  have hgroups : oneFreeFs.geo.groups = {0} := by decide
  refine ⟨⟨?_, by simp, ?_, ?_, ?_, ?_⟩, ?_, ?_, ?_⟩
  · refine ⟨⟨10, by decide, by decide, rfl⟩, rfl, rfl, rfl, by simp, by simp, by simp, by simp, rfl,
      nofun, fun i hi => ?_⟩
    simp only [oneFreeFs_geo] at hi ⊢
    omega
  · intro grp hgrp
    simp [oneFreeFs_group.mp hgrp]
  · intro grp grp' hgrp hgrp' _
    rw [oneFreeFs_group.mp hgrp, oneFreeFs_group.mp hgrp']
  · rintro grp hgrp ⟨-, -, hres⟩
    rw [oneFreeFs_group.mp hgrp] at hres
    simp only [oneFreeFs_geo] at hres
    change 2 ≤ 1 at hres
    omega
  · refine ⟨⟨Or.inl rfl, fun bg hbg _ hbig => ?_, fun bg hbg _ hbig => ?_⟩, Or.inl rfl⟩
    · simp only [start, oneFreeFs_geo] at hbg hbig
      omega
    · simp only [start, oneFreeFs_geo] at hbg hbig
      omega
  · intro grp hgrp
    have hcount : clearCount (oneFreeFs.bitmap 0) (8 * oneFreeFs.geo.blocksz) =
        clearCount (fun _ => true) (8 * oneFreeFs.geo.blocksz) + 1 := by
      apply clearCount_eq_succ (k := 20)
      · simp
      · rw [oneFreeFs_bitmap]
        rfl
      · rfl
      · intro j _ hj
        rw [oneFreeFs_bitmap, bne_iff_ne.mpr hj]
    rw [oneFreeFs_group.mp hgrp, hcount, clearCount_true]
    decide
  · intro grp hgrp k _ hout
    rw [oneFreeFs_group.mp hgrp] at hout ⊢
    simp only [start, oneFreeFs_geo] at hout
    rw [oneFreeFs_bitmap, bne_iff_ne]
    omega
  · rw [hgroups]
    decide

theorem oneFreeFs_counters : ((allocblk 0).after oneFreeFs).Balanced := by
  have hfits : BlkOp.Fits oneFreeFs (.alloc 0) := by
    refine ⟨by decide, fun grp hlt hnot => ?_, nofun⟩
    change grp < 1 at hlt
    exact absurd (oneFreeFs_group.mpr (by omega)) hnot
  have hstep : Step oneFreeFs (.alloc 0) ((allocblk 0).after oneFreeFs) := rfl
  exact (counters_track_bitmaps ((Reach.start oneFreeFs_fresh).next hstep hfits)).1

/-! ## More than `2 ^ 32` sectors -/

/-- 16385 full groups of 32768 blocks of 4096 bytes with sparse copies.  The bitmaps are in block
200 of their groups, that of the last group in the block behind. -/
def wrapFs : Ext2fs where
  disk := fun _ => 255
  written := []
  isdyn := true
  sb := put32 (put32 (put32 zero 4 (2 ^ 29 + 32768)) 32 32768) 100 1
  nbgs := 16385
  bgtbln := 129
  bgs := ofWords fun w => if w % 8 = 0 then w / 8 * 32768 + 200 + w / 8 / 16384 else 0
  blocksz := 4096
  spb := 8
  ppb := 1024
  gpb := 128

section Wide

@[simp] theorem wrapFs_geo : wrapFs.geo.blocksCount = 2 ^ 29 + 32768 ∧
    wrapFs.geo.firstDataBlock = 0 ∧ wrapFs.geo.blocksPerGroup = 32768 ∧ wrapFs.geo.nbgs = 16385 ∧
    wrapFs.geo.bgtbln = 129 ∧ wrapFs.geo.blocksz = 4096 ∧ wrapFs.geo.spb = 8 := by
  decide

variable {grp b : Nat} {fs : Ext2fs}

theorem wrapFs_group : wrapFs.geo.Group grp ↔ grp ≤ 16384 := by
  simp only [Geo.Group, start, wrapFs_geo]
  omega

theorem wrapFs_blockBitmap (hgrp : grp ≤ 16384) :
    wrapFs.geo.blockBitmap grp = grp * 32768 + 200 + grp / 16384 := by
  change get32 (ofWords _) (32 * grp) = _
  rw [show 32 * grp = 4 * (8 * grp) by omega, get32_ofWords, if_pos (by omega),
    Nat.mul_div_cancel_left grp (by decide)]
  omega

theorem wrapFs_freeBlocks (grp : Nat) : wrapFs.freeBlocks grp = 0 := by
  change get16 (ofWords _) (32 * grp + 12) = 0
  rw [show 32 * grp + 12 = 4 * (8 * grp + 3) by omega, get16_ofWords, if_neg (by omega),
    Nat.zero_mod]

theorem wrapFs_bitmap (grp k : Nat) : wrapFs.bitmap grp k = true := by
  change (255 : Nat).testBit (k % 8) = true
  rw [show (255 : Nat) = 2 ^ 8 - 1 from rfl, Nat.testBit_two_pow_sub_one]
  exact decide_eq_true (Nat.mod_lt k (by decide))

-- the copies are in the first 130 blocks of their groups
theorem wrapFs_not_reserved (hb : 129 < b % 32768) : ¬ wrapFs.geo.Reserved b := by
  rintro ⟨-, -, hres⟩
  simp only [wrapFs_geo] at hres
  omega

theorem wrapFs_charted : wrapFs.geo.Charted := by
  refine ⟨?_, by simp, ?_, ?_, ?_, ?_⟩
  · refine ⟨⟨12, by decide, by decide, rfl⟩, rfl, rfl, rfl, by simp, by simp, by simp,
      by simp, rfl, fun _ => by decide, fun i hi => ?_⟩
    simp only [wrapFs_geo] at hi ⊢
    omega
  · intro grp hgrp
    have hle := wrapFs_group.mp hgrp
    simp only [wrapFs_blockBitmap hle, wrapFs_geo]
    omega
  · intro grp grp' hgrp hgrp' heq
    have hle := wrapFs_group.mp hgrp
    have hle' := wrapFs_group.mp hgrp'
    rw [wrapFs_blockBitmap hle, wrapFs_blockBitmap hle'] at heq
    omega
  · intro grp hgrp
    have hle := wrapFs_group.mp hgrp
    apply wrapFs_not_reserved
    rw [wrapFs_blockBitmap hle, Nat.add_assoc, Nat.mul_add_mod_self_right]
    omega
  · have hsmall : ∀ bg < wrapFs.geo.nbgs, ¬ 2 ^ 32 ≤ wrapFs.geo.start bg + 1 := by
      intro bg hbg
      simp only [start, wrapFs_geo] at hbg ⊢
      omega
    refine ⟨⟨Or.inr (Or.inl (by simp)), fun bg hbg _ hbig => ?_,
      fun bg hbg _ hbig => absurd hbig (hsmall bg hbg)⟩, Or.inr (Or.inr ⟨by decide, by simp⟩)⟩
    exact absurd (Nat.le_succ_of_le hbig) (hsmall bg hbg)

theorem wrapFs_fresh : wrapFs.Fresh := by
  refine ⟨wrapFs_charted, fun grp _ => ?_, fun grp _ k _ _ => wrapFs_bitmap grp k, ?_⟩
  · have hall : clearCount (wrapFs.bitmap grp) (8 * wrapFs.geo.blocksz) =
        clearCount (fun _ => true) (8 * wrapFs.geo.blocksz) :=
      clearCount_congr fun k _ => wrapFs_bitmap grp k
    rw [wrapFs_freeBlocks, hall, clearCount_true]
  · rw [Finset.sum_congr rfl fun grp _ => wrapFs_freeBlocks grp, Finset.sum_const_zero]
    decide

/-- No free block is counted in group 0, and its bitmap starts with a zero. -/
structure Blanked (fs : Ext2fs) : Prop where
  geo : fs.geo = wrapFs.geo
  count : fs.freeBlocks 0 = 0
  byte : fs.disk (200 * 4096) = 0

theorem Blanked.not_balanced (h : Blanked fs) : ¬ fs.Balanced := by
  intro hb
  have hgrp : fs.geo.Group 0 := by
    rw [h.geo]
    exact wrapFs_group.mpr (Nat.zero_le _)
  have hbit : fs.bitmap 0 0 = false := by
    unfold bitmap block
    rw [h.geo]
    change (fs.disk (200 * 4096)).toNat.testBit 0 = false
    rw [h.byte]
    rfl
  have hpos := clearCount_pos (n := 8 * fs.geo.blocksz) (by rw [h.geo]; decide) hbit
  rw [← hb.count 0 hgrp, h.count] at hpos
  omega

-- block `2 ^ 29 + 200` starts at sector 1600 modulo `2 ^ 32`, and so does block 200
theorem wrapFs_blanked (hb : b = 2 ^ 29 + 200) : Blanked ((freeblk b).after wrapFs) := by
  have hrel : (b + (2 ^ 32 - wrapFs.geo.firstDataBlock)) % 2 ^ 32 = b := by simp [hb]
  have hgrp : b / wrapFs.geo.blocksPerGroup = 16384 := by simp [hb]
  have hbmp : wrapFs.geo.blockBitmap 16384 = b + 1 := by
    rw [wrapFs_blockBitmap le_rfl]
    omega
  have hfit : wrapFs.geo.CopiesFit := by
    intro bg hbg
    simp only [start, wrapFs_geo] at hbg ⊢
    omega
  have hoff : wrapFs.geo.OffCopies (200 * 4096) := by
    refine ⟨fun bg _ r hr => ?_, by simp [Spans]⟩
    simp only [Spans, start, wrapFs_geo] at hr ⊢
    omega
  have hclears := @freeblk_clears wrapFs b (fun _ => Blanked) b (by omega) (by simp [hb]) hrel
    (by simp [hb]) (by simp [hbmp, hb]) (by simp [hb]) _ wrapFs_charted.mounted hfit
    (by simp [Spans, hb]) hoff (by simp [Spans, hbmp, hb])
  apply Post.after
  refine hclears.mono ?_ fun _ _ h => h
  rintro _ fs ⟨hgeo, hbyte, hbgs⟩
  refine ⟨hgeo, ?_, hbyte⟩
  change get16 fs.bgs (32 * 0 + 12) = 0
  rw [hbgs, hgrp]
  exact (freeBlocks_count wrapFs 16384 1 1 0).trans (wrapFs_freeBlocks 0)

end Wide

/-- Freeing block `2 ^ 29 + 200` of a file system with more than `2 ^ 32` sectors clears the bitmap
of group 0, whose sectors have the same numbers modulo `2 ^ 32`. -/
theorem freeblk_unbalances : wrapFs.Fresh ∧ ∃ fs, Step wrapFs (.free (2 ^ 29 + 200)) fs ∧
    ¬ fs.Balanced := by
  refine ⟨wrapFs_fresh, _, ⟨?_, ⟨?_, wrapFs_bitmap _ _⟩, fun grp hgrp => ?_, rfl⟩,
    (wrapFs_blanked rfl).not_balanced⟩
  · simp
  · simp
  · have hle := wrapFs_group.mp hgrp
    rw [wrapFs_blockBitmap hle]
    omega

end Ext2
