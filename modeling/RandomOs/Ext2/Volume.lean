import RandomOs.Ext2.Flush

/-!
# The volume behind the blocks

What the file system keeps on the device: the block bitmaps, the inode bitmaps, the inode tables
and the blocks of files.  `Ext2fs.vol` reads them off the bytes of the device, and every write of
the driver changes one of them in one place.
-/

namespace Ext2

open Lib Bytes Geo Function

/-! ## The layout -/

-- `inosz`
def Geo.inosz (g : Geo) : Nat := if g.isdyn then g.inodeSize else 128

/-- The metadata blocks of the groups. -/
inductive Role
  | blockBitmap (grp : Nat)
  | inodeBitmap (grp : Nat)
  | inodeTable (grp k : Nat)

def Role.blk (g : Geo) : Role → Nat
  | .blockBitmap grp => g.blockBitmap grp
  | .inodeBitmap grp => g.inodeBitmap grp
  | .inodeTable grp k => g.inodeTable grp + k

def Role.Valid (g : Geo) : Role → Prop
  | .blockBitmap grp => grp < g.nbgs
  | .inodeBitmap grp => grp < g.nbgs
  | .inodeTable grp k => grp < g.nbgs ∧ k * g.blocksz < g.inodesPerGroup * g.inosz

def Geo.Meta (g : Geo) (b : Nat) : Prop := g.Reserved b ∨ ∃ r : Role, r.Valid g ∧ r.blk g = b

/-- The blocks that files may use. -/
def Geo.IsData (g : Geo) (b : Nat) : Prop :=
  g.firstDataBlock ≤ b ∧ b < g.blocksCount ∧ ¬ g.Meta b

/-- A sane layout: the sizes are those of ext2, and the metadata of the groups is on the device,
apart from each other and from the copies of the superblock.  The groups are those that the mount
counts: with `s_blocks_count` one more than a multiple of `s_blocks_per_group` this is one group
more than the volume has, and a valid volume of that kind has no layout in this sense. -/
structure Geo.Layout (g : Geo) : Prop where
  mounted : g.Mounted
  blocksz_le : g.blocksz ≤ 4096
  blocksPerGroup_le : g.blocksPerGroup ≤ 8 * g.blocksz
  inodesPerGroup_pos : 0 < g.inodesPerGroup
  inodesPerGroup_le : g.inodesPerGroup ≤ 8 * g.blocksz
  inodes_lt : g.nbgs * g.inodesPerGroup < 2 ^ 32
  inosz_ge : 128 ≤ g.inosz
  inosz_dvd : g.inosz ∣ g.blocksz
  onDevice : ∀ r : Role, r.Valid g → r.blk g < g.blocksCount
  apart : ∀ r r' : Role, r.Valid g → r'.Valid g → r.blk g = r'.blk g → r = r'
  unreserved : ∀ r : Role, r.Valid g → ¬ g.Reserved (r.blk g)

/-- What this driver needs on top: sector numbers of 32 bits, and flushes that stay on the copies
of the superblock and the descriptors. -/
structure Geo.InReach (g : Geo) : Prop where
  sectors : g.blocksCount * g.spb ≤ 2 ^ 32
  flush : g.FlushSafe

/-- The part of it that a call without a flush needs. -/
structure Geo.Ok (g : Geo) : Prop extends g.Layout where
  sectors : g.blocksCount * g.spb ≤ 2 ^ 32

theorem Geo.Layout.ok {g : Geo} (hg : g.Layout) (hreach : g.InReach) : g.Ok := ⟨hg, hreach.sectors⟩

/-! ### Places of blocks and inodes -/

def Geo.InGroups (g : Geo) (b : Nat) : Prop :=
  g.firstDataBlock ≤ b ∧ b < g.firstDataBlock + g.nbgs * g.blocksPerGroup

instance (g : Geo) (b : Nat) : Decidable (g.InGroups b) := inferInstanceAs (Decidable (_ ∧ _))

def Geo.grpOf (g : Geo) (b : Nat) : Nat := (b - g.firstDataBlock) / g.blocksPerGroup
def Geo.posOf (g : Geo) (b : Nat) : Nat := (b - g.firstDataBlock) % g.blocksPerGroup

def Geo.InodeNo (g : Geo) (n : Nat) : Prop := 0 < n ∧ n ≤ g.nbgs * g.inodesPerGroup

instance (g : Geo) (n : Nat) : Decidable (g.InodeNo n) := inferInstanceAs (Decidable (_ ∧ _))

def Geo.inoGrp (g : Geo) (n : Nat) : Nat := (n - 1) / g.inodesPerGroup
def Geo.inoPos (g : Geo) (n : Nat) : Nat := (n - 1) % g.inodesPerGroup
def Geo.inoBlk (g : Geo) (n : Nat) : Nat :=
  g.inodeTable (g.inoGrp n) + g.inoPos n * g.inosz / g.blocksz
def Geo.inoOff (g : Geo) (n : Nat) : Nat := g.inoPos n * g.inosz % g.blocksz

section Layout

variable {g : Geo}

theorem Geo.Mounted.blocksz_ge (hg : g.Mounted) : 1024 ≤ g.blocksz := by
  obtain ⟨k, hk, -, hblocksz⟩ := hg.blocksz
  rw [hblocksz]
  exact Nat.pow_le_pow_right (show 0 < 2 by decide) hk

theorem Geo.Mounted.spb_mul (hg : g.Mounted) : g.spb * 512 = g.blocksz := by
  obtain ⟨k, hk, -, hblocksz⟩ := hg.blocksz
  rw [hg.spb, hblocksz]
  exact Nat.div_mul_cancel (Nat.pow_dvd_pow 2 (show 9 ≤ k by omega))

theorem Geo.Mounted.ppb_mul (hg : g.Mounted) : g.ppb * 4 = g.blocksz := by
  obtain ⟨k, hk, -, hblocksz⟩ := hg.blocksz
  rw [hg.ppb, hblocksz]
  exact Nat.div_mul_cancel (Nat.pow_dvd_pow 2 (show 2 ≤ k by omega))

theorem Geo.Mounted.blocksCount_le (hg : g.Mounted) :
    g.blocksCount ≤ g.nbgs * g.blocksPerGroup := by
  have hpos := hg.blocksPerGroup
  have hdiv := Nat.div_add_mod (g.blocksCount + g.blocksPerGroup - 1) g.blocksPerGroup
  have hmod := Nat.mod_lt (g.blocksCount + g.blocksPerGroup - 1) hpos
  rw [← hg.nbgs, Nat.mul_comm] at hdiv
  omega

variable {b n : Nat}

theorem Geo.IsData.inGroups (hg : g.Mounted) (hb : g.IsData b) : g.InGroups b := by
  have hle := hg.blocksCount_le
  obtain ⟨hfdb, hdev, -⟩ := hb
  exact ⟨hfdb, by omega⟩

theorem Geo.IsData.not_role (hb : g.IsData b) {r : Role} (hr : r.Valid g) :
    r.blk g ≠ b := fun heq => hb.2.2 (Or.inr ⟨r, hr, heq⟩)

-- block 0 is reserved or before the first group, so that a pointer to it can mean a hole
theorem Geo.IsData.ne_zero (hb : g.IsData b) : b ≠ 0 := by
  rintro rfl
  apply hb.2.2
  left
  refine ⟨hb.1, Or.inr (Or.inl ?_), ?_⟩
  · rw [Nat.zero_sub, Nat.zero_div]
  · rw [Nat.zero_sub]
    exact Nat.zero_le _

-- block numbers fit an `int`
theorem Geo.Ok.blocksCount_le (hg : g.Ok) : g.blocksCount ≤ 2 ^ 31 := by
  have hspb := hg.mounted.spb_mul
  have hge := hg.mounted.blocksz_ge
  have hmul : g.blocksCount * 2 ≤ g.blocksCount * g.spb := Nat.mul_le_mul_left _ (by omega)
  have hsectors := hg.sectors
  omega

theorem Geo.InGroups.grpOf_lt (hg : g.Mounted) (hb : g.InGroups b) : g.grpOf b < g.nbgs := by
  obtain ⟨hfdb, hlt⟩ := hb
  unfold grpOf
  rw [Nat.div_lt_iff_lt_mul hg.blocksPerGroup]
  omega

theorem Geo.posOf_lt (hg : g.Mounted) (b : Nat) : g.posOf b < g.blocksPerGroup :=
  Nat.mod_lt _ hg.blocksPerGroup

theorem Geo.InGroups.start_add (hb : g.InGroups b) : g.start (g.grpOf b) + g.posOf b = b := by
  have hdiv := Nat.div_add_mod (b - g.firstDataBlock) g.blocksPerGroup
  have hcomm := Nat.mul_comm g.blocksPerGroup ((b - g.firstDataBlock) / g.blocksPerGroup)
  have hfdb := hb.1
  unfold start grpOf posOf
  omega

variable {grp k : Nat}

theorem Geo.inGroups_start (hg : g.Mounted) (hgrp : grp < g.nbgs) (hk : k < g.blocksPerGroup) :
    g.InGroups (g.start grp + k) ∧
      g.grpOf (g.start grp + k) = grp ∧ g.posOf (g.start grp + k) = k := by
  obtain ⟨hle, hdiv, hmod⟩ := group_of_start hg grp k
  refine ⟨⟨hle, ?_⟩, ?_, ?_⟩
  · have hmul : (grp + 1) * g.blocksPerGroup ≤ g.nbgs * g.blocksPerGroup :=
      Nat.mul_le_mul_right _ hgrp
    rw [Nat.add_mul] at hmul
    unfold start
    omega
  · unfold grpOf
    rw [hdiv, Nat.div_eq_of_lt hk, Nat.add_zero]
  · unfold posOf
    rw [hmod, Nat.mod_eq_of_lt hk]

theorem Geo.InodeNo.inoGrp_lt (hg : g.Layout) (hn : g.InodeNo n) : g.inoGrp n < g.nbgs := by
  obtain ⟨hpos, hle⟩ := hn
  unfold inoGrp
  rw [Nat.div_lt_iff_lt_mul hg.inodesPerGroup_pos]
  omega

theorem Geo.inoPos_lt (hg : g.Layout) (n : Nat) : g.inoPos n < g.inodesPerGroup :=
  Nat.mod_lt _ hg.inodesPerGroup_pos

-- an inode is told by its group and its place in the group
theorem Geo.InodeNo.eq_of {m : Nat} (hn : g.InodeNo n) (hm : g.InodeNo m)
    (hgrp : g.inoGrp n = g.inoGrp m) (hpos : g.inoPos n = g.inoPos m) : n = m := by
  have h1 := Nat.div_add_mod (n - 1) g.inodesPerGroup
  have h2 := Nat.div_add_mod (m - 1) g.inodesPerGroup
  unfold inoGrp at hgrp
  unfold inoPos at hpos
  rw [hgrp, hpos] at h1
  have hn0 := hn.1
  have hm0 := hm.1
  omega

section

variable (hg : g.Layout)

include hg

theorem Geo.inodeNo_of_grp (hgrp : grp < g.nbgs) (hk : k < g.inodesPerGroup) :
    g.InodeNo (grp * g.inodesPerGroup + k + 1) ∧
      g.inoGrp (grp * g.inodesPerGroup + k + 1) = grp ∧
      g.inoPos (grp * g.inodesPerGroup + k + 1) = k := by
  have hmul : (grp + 1) * g.inodesPerGroup ≤ g.nbgs * g.inodesPerGroup :=
    Nat.mul_le_mul_right _ hgrp
  rw [Nat.add_mul] at hmul
  have hcomm := Nat.mul_comm grp g.inodesPerGroup
  refine ⟨⟨by omega, by omega⟩, ?_, ?_⟩
  · unfold inoGrp
    rw [Nat.add_sub_cancel, hcomm, Nat.mul_add_div hg.inodesPerGroup_pos, Nat.div_eq_of_lt hk,
      Nat.add_zero]
  · unfold inoPos
    rw [Nat.add_sub_cancel, hcomm, Nat.mul_add_mod, Nat.mod_eq_of_lt hk]

-- inodes do not cross blocks
theorem Geo.Layout.split_pos (k : Nat) :
    k * g.inosz / g.blocksz = k / (g.blocksz / g.inosz) ∧
      k * g.inosz % g.blocksz = k % (g.blocksz / g.inosz) * g.inosz ∧
      g.blocksz / g.inosz * g.inosz = g.blocksz ∧ 0 < g.blocksz / g.inosz := by
  have hge := hg.inosz_ge
  have hpos := hg.mounted.blocksz_ge
  have hq : g.blocksz / g.inosz * g.inosz = g.blocksz := Nat.div_mul_cancel hg.inosz_dvd
  generalize g.blocksz / g.inosz = q at *
  refine ⟨?_, ?_, hq, ?_⟩
  · rw [← hq, Nat.mul_div_mul_right _ _ (by omega)]
  · rw [← hq, Nat.mul_mod_mul_right]
  · apply Nat.pos_of_ne_zero
    rintro rfl
    omega

theorem Geo.inoOff_le (n : Nat) : g.inoOff n + 128 ≤ g.blocksz := by
  obtain ⟨-, hmod, hq, hpos⟩ := hg.split_pos (g.inoPos n)
  have hlt := Nat.mod_lt (g.inoPos n) hpos
  have hmul := Nat.mul_le_mul_right g.inosz (Nat.succ_le_of_lt hlt)
  have hge := hg.inosz_ge
  rw [Nat.succ_mul] at hmul
  unfold inoOff
  omega

theorem Geo.inodeTable_valid (hn : g.InodeNo n) :
    (Role.inodeTable (g.inoGrp n) (g.inoPos n * g.inosz / g.blocksz)).Valid g := by
  refine ⟨hn.inoGrp_lt hg, ?_⟩
  have hle := Nat.div_mul_le_self (g.inoPos n * g.inosz) g.blocksz
  have hlt : g.inoPos n * g.inosz < g.inodesPerGroup * g.inosz :=
    Nat.mul_lt_mul_of_pos_right (inoPos_lt hg n) (by have := hg.inosz_ge; omega)
  omega

theorem Geo.inoBlk_lt (hn : g.InodeNo n) :
    g.inoBlk n < g.blocksCount := hg.onDevice _ (inodeTable_valid hg hn)

-- two inodes in one block do not overlap
theorem Geo.inoOff_apart {m : Nat} (hn : g.InodeNo n) (hm : g.InodeNo m)
    (hne : n ≠ m) (hblk : g.inoBlk n = g.inoBlk m) :
    g.inoOff n + 128 ≤ g.inoOff m ∨ g.inoOff m + 128 ≤ g.inoOff n := by
  have hrole := hg.apart _ _ (inodeTable_valid hg hn) (inodeTable_valid hg hm) hblk
  injection hrole with hgrp hquot
  obtain ⟨hdivn, hmodn, -, -⟩ := hg.split_pos (g.inoPos n)
  obtain ⟨hdivm, hmodm, -, -⟩ := hg.split_pos (g.inoPos m)
  have hge := hg.inosz_ge
  unfold inoOff
  rw [hdivn, hdivm] at hquot
  have hdn := Nat.div_add_mod (g.inoPos n) (g.blocksz / g.inosz)
  have hdm := Nat.div_add_mod (g.inoPos m) (g.blocksz / g.inosz)
  rw [hquot] at hdn
  have hlt : g.inoPos n % (g.blocksz / g.inosz) < g.inoPos m % (g.blocksz / g.inosz) ∨
      g.inoPos m % (g.blocksz / g.inosz) < g.inoPos n % (g.blocksz / g.inosz) := by
    by_contra hnot
    exact hne (hn.eq_of hm hgrp (by omega))
  rcases hlt with hlt | hlt
  · left
    have hmul := Nat.mul_le_mul_right g.inosz (Nat.succ_le_of_lt hlt)
    rw [Nat.succ_mul] at hmul
    omega
  · right
    have hmul := Nat.mul_le_mul_right g.inosz (Nat.succ_le_of_lt hlt)
    rw [Nat.succ_mul] at hmul
    omega

end

end Layout

/-! ## Blocks of the device -/

def Ext2fs.block (fs : Ext2fs) (b : Nat) : Bytes := fun i => fs.disk (b * fs.geo.blocksz + i)

variable {b i : Nat} {fs : Ext2fs} {b' : Nat} {op : Op Ext2fs Unit}

/-- The sectors of a block are where its bytes are. -/
theorem Geo.Mounted.sector {g : Geo} (hg : g.Mounted) (hs : g.blocksCount * g.spb ≤ 2 ^ 32)
    (hb : b < g.blocksCount) : b * g.spb % 2 ^ 32 * 512 = b * g.blocksz := by
  have hspb := hg.spb_mul
  have hge := hg.blocksz_ge
  have hlt : b * g.spb < g.blocksCount * g.spb := Nat.mul_lt_mul_of_pos_right hb (by omega)
  rw [Nat.mod_eq_of_lt (Nat.lt_of_lt_of_le hlt hs), Nat.mul_assoc, hspb]

theorem Geo.Ok.sector {g : Geo} (hg : g.Ok) (hb : b < g.blocksCount) :
    b * g.spb % 2 ^ 32 * 512 = b * g.blocksz := hg.mounted.sector hg.sectors hb

-- the bytes of different blocks do not meet
theorem block_bytes_apart {bs b' : Nat} (hne : b ≠ b') (hi : i < bs) :
    b' * bs + i < b * bs ∨ b * bs + bs ≤ b' * bs + i := by
  rcases Nat.lt_or_gt_of_ne hne with hlt | hlt
  · right
    have := Nat.mul_le_mul_right bs (Nat.succ_le_of_lt hlt)
    rw [Nat.succ_mul] at this
    omega
  · left
    have := Nat.mul_le_mul_right bs (Nat.succ_le_of_lt hlt)
    rw [Nat.succ_mul] at this
    omega

section Sectors

variable {fs : Ext2fs} (hg : fs.geo.Mounted) (hs : fs.geo.blocksCount * fs.geo.spb ≤ 2 ^ 32)
  {b : Nat} (hb : b < fs.geo.blocksCount)
include hg hs hb

theorem Geo.Mounted.run_rdblk : (rdblk b).run fs = .ok (fs.block b) fs := by
  rw [Ext2.run_rdblk hb]
  unfold blockRead Ext2fs.block
  rw [hg.sector hs hb]

theorem Geo.Mounted.block_putBlock (buf : Bytes) (hi : i < fs.geo.blocksz) :
    (fs.putBlock b buf).block b i = buf i := by
  change copy fs.disk (b * fs.geo.spb % 2 ^ 32 * 512) buf 0 (fs.geo.spb * 512)
    (b * fs.geo.blocksz + i) = buf i
  rw [hg.sector hs hb, hg.spb_mul, copy_apply hi, Nat.zero_add]

theorem Geo.Mounted.block_putBlock_of_ne (hne : b' ≠ b) (buf : Bytes) (hi : i < fs.geo.blocksz) :
    (fs.putBlock b buf).block b' i = fs.block b' i := by
  change copy fs.disk (b * fs.geo.spb % 2 ^ 32 * 512) buf 0 (fs.geo.spb * 512)
    (b' * fs.geo.blocksz + i) = fs.block b' i
  rw [hg.sector hs hb, hg.spb_mul, copy_of_ne (block_bytes_apart hne.symm hi)]
  rfl

end Sectors

theorem Geo.Ok.run_rdblk (hg : fs.geo.Ok) (hb : b < fs.geo.blocksCount) :
    (rdblk b).run fs = .ok (fs.block b) fs := hg.mounted.run_rdblk hg.sectors hb

theorem Geo.Ok.block_putBlock (hg : fs.geo.Ok) (hb : b < fs.geo.blocksCount) (buf : Bytes)
    (hi : i < fs.geo.blocksz) :
    (fs.putBlock b buf).block b i = buf i := hg.mounted.block_putBlock hg.sectors hb buf hi

theorem Geo.Ok.block_putBlock_of_ne (hg : fs.geo.Ok) (hb : b < fs.geo.blocksCount) (hne : b' ≠ b)
    (buf : Bytes) (hi : i < fs.geo.blocksz) : (fs.putBlock b buf).block b' i = fs.block b' i :=
  hg.mounted.block_putBlock_of_ne hg.sectors hb hne buf hi

/-! ## Volumes -/

/-- What the device means: which blocks are marked, which inodes are in use, the inodes, and the
blocks that files may use. -/
@[ext] structure Vol where
  geo : Geo
  marked : Nat → Bool
  inUse : Nat → Bool
  inode : Nat → Bytes
  data : Nat → Bytes

open Classical in
noncomputable def Ext2fs.vol (fs : Ext2fs) : Vol where
  geo := fs.geo
  marked := fun b =>
    if fs.geo.InGroups b then
      bit (fs.block (fs.geo.blockBitmap (fs.geo.grpOf b))) (fs.geo.posOf b)
    else false
  inUse := fun n =>
    if fs.geo.InodeNo n then
      bit (fs.block (fs.geo.inodeBitmap (fs.geo.inoGrp n))) (fs.geo.inoPos n)
    else false
  inode := fun n =>
    if fs.geo.InodeNo n then
      trim 128 fun i => fs.block (fs.geo.inoBlk n) (fs.geo.inoOff n + i)
    else zero
  data := fun b => if fs.geo.IsData b then trim fs.geo.blocksz (fs.block b) else zero

def Vol.mark (v : Vol) (b : Nat) (x : Bool) : Vol :=
  { v with marked := update v.marked b x }

def Vol.use (v : Vol) (n : Nat) : Vol := { v with inUse := update v.inUse n true }

def Vol.setInode (v : Vol) (n : Nat) (x : Bytes) : Vol :=
  { v with inode := update v.inode n (trim 128 x) }

def Vol.setData (v : Vol) (b : Nat) (buf : Bytes) : Vol :=
  { v with data := update v.data b (trim v.geo.blocksz buf) }

section Setters

variable (v : Vol) (b n : Nat) (x : Bool) (buf : Bytes)

@[simp] theorem Vol.mark_geo : (v.mark b x).geo = v.geo := rfl
@[simp] theorem Vol.mark_inode : (v.mark b x).inode = v.inode := rfl
@[simp] theorem Vol.mark_data : (v.mark b x).data = v.data := rfl
@[simp] theorem Vol.use_inode : (v.use n).inode = v.inode := rfl
@[simp] theorem Vol.setInode_geo : (v.setInode n buf).geo = v.geo := rfl
@[simp] theorem Vol.setInode_marked : (v.setInode n buf).marked = v.marked := rfl
@[simp] theorem Vol.setInode_inUse : (v.setInode n buf).inUse = v.inUse := rfl
@[simp] theorem Vol.setInode_data : (v.setInode n buf).data = v.data := rfl
@[simp] theorem Vol.setData_geo : (v.setData b buf).geo = v.geo := rfl
@[simp] theorem Vol.setData_marked : (v.setData b buf).marked = v.marked := rfl
@[simp] theorem Vol.setData_inUse : (v.setData b buf).inUse = v.inUse := rfl
@[simp] theorem Vol.setData_inode : (v.setData b buf).inode = v.inode := rfl

theorem Vol.mark_marked (b' : Nat) :
    (v.mark b x).marked b' = if b' = b then x else v.marked b' := update_apply _ _ _ _

theorem Vol.use_inUse (n' : Nat) :
    (v.use n).inUse n' = if n' = n then true else v.inUse n' := update_apply _ _ _ _

theorem Vol.setInode_inode (n' : Nat) :
    (v.setInode n buf).inode n' = if n' = n then trim 128 buf else v.inode n' :=
  update_apply _ _ _ _

theorem Vol.setData_data (b' : Nat) :
    (v.setData b buf).data b' = if b' = b then trim v.geo.blocksz buf else v.data b' :=
  update_apply _ _ _ _

end Setters

section Reads

variable {fs : Ext2fs}

@[simp] theorem vol_geo (fs : Ext2fs) : fs.vol.geo = fs.geo := rfl

theorem vol_marked {b : Nat} (hb : fs.geo.InGroups b) : fs.vol.marked b =
    bit (fs.block (fs.geo.blockBitmap (fs.geo.grpOf b))) (fs.geo.posOf b) := if_pos hb

variable {n : Nat}

theorem vol_inUse (hn : fs.geo.InodeNo n) : fs.vol.inUse n =
    bit (fs.block (fs.geo.inodeBitmap (fs.geo.inoGrp n))) (fs.geo.inoPos n) := if_pos hn

theorem vol_inode (hn : fs.geo.InodeNo n) : fs.vol.inode n =
    trim 128 fun i => fs.block (fs.geo.inoBlk n) (fs.geo.inoOff n + i) := if_pos hn

theorem vol_data {b : Nat} (hb : fs.geo.IsData b) :
    fs.vol.data b = trim fs.geo.blocksz (fs.block b) := if_pos hb

theorem inodeNo_of_inUse (h : fs.vol.inUse n = true) : fs.geo.InodeNo n := by
  by_contra hn
  have hfalse : fs.vol.inUse n = false := if_neg hn
  rw [hfalse] at h
  cases h

end Reads

/-! ## What a write changes -/

/-- Two states agree on the bytes of a block. -/
def Ext2fs.SameAt (fs fs' : Ext2fs) (b : Nat) : Prop :=
  ∀ i < fs.geo.blocksz, fs'.block b i = fs.block b i

section Congr

variable {fs fs' : Ext2fs}

theorem vol_marked_congr (hg : fs.geo.Layout) (hgeo : fs'.geo = fs.geo) (b : Nat)
    (h : ∀ grp, (Role.blockBitmap grp).Valid fs.geo → fs.geo.grpOf b = grp →
      fs.SameAt fs' (fs.geo.blockBitmap grp)) : fs'.vol.marked b = fs.vol.marked b := by
  by_cases hb : fs.geo.InGroups b
  · have hb' : fs'.geo.InGroups b := by rwa [hgeo]
    rw [vol_marked hb, vol_marked hb', hgeo]
    apply bit_congr
    apply h _ (hb.grpOf_lt hg.mounted) rfl
    have hpos := posOf_lt hg.mounted b
    have hle := hg.blocksPerGroup_le
    omega
  · have hb' : ¬ fs'.geo.InGroups b := by rwa [hgeo]
    exact (if_neg hb').trans (if_neg hb).symm

theorem vol_inUse_congr (hg : fs.geo.Layout) (hgeo : fs'.geo = fs.geo) (n : Nat)
    (h : ∀ grp, (Role.inodeBitmap grp).Valid fs.geo → fs.geo.inoGrp n = grp →
      fs.SameAt fs' (fs.geo.inodeBitmap grp)) : fs'.vol.inUse n = fs.vol.inUse n := by
  by_cases hn : fs.geo.InodeNo n
  · have hn' : fs'.geo.InodeNo n := by rwa [hgeo]
    rw [vol_inUse hn, vol_inUse hn', hgeo]
    apply bit_congr
    apply h _ (hn.inoGrp_lt hg) rfl
    have hpos := inoPos_lt hg n
    have hle := hg.inodesPerGroup_le
    omega
  · have hn' : ¬ fs'.geo.InodeNo n := by rwa [hgeo]
    exact (if_neg hn').trans (if_neg hn).symm

theorem vol_inode_congr (hgeo : fs'.geo = fs.geo) (n : Nat)
    (h : fs.geo.InodeNo n → ∀ i < 128, fs'.block (fs.geo.inoBlk n) (fs.geo.inoOff n + i) =
      fs.block (fs.geo.inoBlk n) (fs.geo.inoOff n + i)) : fs'.vol.inode n = fs.vol.inode n := by
  by_cases hn : fs.geo.InodeNo n
  · have hn' : fs'.geo.InodeNo n := by rwa [hgeo]
    rw [vol_inode hn, vol_inode hn', hgeo]
    exact trim_congr (h hn)
  · have hn' : ¬ fs'.geo.InodeNo n := by rwa [hgeo]
    exact (if_neg hn').trans (if_neg hn).symm

theorem vol_data_congr (hgeo : fs'.geo = fs.geo) (b : Nat)
    (h : fs.geo.IsData b → fs.SameAt fs' b) : fs'.vol.data b = fs.vol.data b := by
  by_cases hb : fs.geo.IsData b
  · have hb' : fs'.geo.IsData b := by rwa [hgeo]
    rw [vol_data hb, vol_data hb', hgeo]
    exact trim_congr (h hb)
  · have hb' : ¬ fs'.geo.IsData b := by rwa [hgeo]
    exact (if_neg hb').trans (if_neg hb).symm

theorem vol_eq_of_sameAt (hg : fs.geo.Layout) (hgeo : fs'.geo = fs.geo)
    (h : ∀ b < fs.geo.blocksCount, ¬ fs.geo.Reserved b → fs.SameAt fs' b) : fs'.vol = fs.vol := by
  have hrole : ∀ r : Role, r.Valid fs.geo → fs.SameAt fs' (r.blk fs.geo) :=
    fun r hr => h _ (hg.onDevice r hr) (hg.unreserved r hr)
  ext1
  · exact hgeo
  · funext b
    exact vol_marked_congr hg hgeo b fun grp hgrp _ => hrole _ hgrp
  · funext n
    exact vol_inUse_congr hg hgeo n fun grp hgrp _ => hrole _ hgrp
  · funext n
    refine vol_inode_congr hgeo n fun hn i hi => hrole _ (inodeTable_valid hg hn) _ ?_
    have := inoOff_le hg n
    omega
  · funext b
    exact vol_data_congr hgeo b fun hb => h b hb.2.1 fun hres => hb.2.2 (Or.inl hres)

end Congr

/-- A flush that stays on reserved blocks leaves the others as they are. -/
theorem sameAt_after_flush (hg : fs.geo.Mounted) (hs : fs.geo.blocksCount * fs.geo.spb ≤ 2 ^ 32)
    {ts : List Nat} (hemits : Emits fs.geo op ts)
    (hres : ∀ b ∈ ts.takeWhile (· < fs.geo.blocksCount), fs.geo.Reserved b)
    (hnot : ¬ fs.geo.Reserved b) : fs.SameAt (op.after fs) b := by
  have hwrote := (hemits fs rfl).1
  intro i hi
  unfold Ext2fs.block
  rw [hwrote.geo]
  apply hwrote.frame
  intro w hw hspans
  have hwdev : w < fs.geo.blocksCount := by simpa using List.mem_takeWhile_imp hw
  have hne : w ≠ b := by
    rintro rfl
    exact hnot (hres w hw)
  have hapart := block_bytes_apart hne hi
  obtain ⟨hlow, hhigh⟩ := hspans
  rw [hg.sector hs hwdev] at hlow hhigh
  rw [hg.spb_mul] at hhigh
  omega

section PutBlock

variable {fs : Ext2fs} (hg : fs.geo.Ok)
include hg

variable {b : Nat}

theorem Geo.Ok.sameAt_putBlock (hb : b < fs.geo.blocksCount) (hne : b' ≠ b) (buf : Bytes) :
    fs.SameAt (fs.putBlock b buf) b' :=
  fun _ hi => hg.block_putBlock_of_ne hb hne buf hi

-- roles other than the one written
theorem Geo.Ok.sameAt_role {r r' : Role} (hr : r.Valid fs.geo) (hr' : r'.Valid fs.geo)
    (hne : r' ≠ r) (buf : Bytes) : fs.SameAt (fs.putBlock (r.blk fs.geo) buf) (r'.blk fs.geo) :=
  hg.sameAt_putBlock (hg.onDevice r hr) (fun heq => hne (hg.apart r' r hr' hr heq)) buf

theorem Geo.Ok.sameAt_data {r : Role} (hr : r.Valid fs.geo) (hb : fs.geo.IsData b) (buf : Bytes) :
    fs.SameAt (fs.putBlock (r.blk fs.geo) buf) b :=
  hg.sameAt_putBlock (hg.onDevice r hr) (hb.not_role hr).symm buf

theorem vol_putBlock_data (hb : fs.geo.IsData b) (buf : Bytes) :
    (fs.putBlock b buf).vol = fs.vol.setData b buf := by
  have hrole : ∀ r : Role, r.Valid fs.geo → fs.SameAt (fs.putBlock b buf) (r.blk fs.geo) :=
    fun r hr => hg.sameAt_putBlock hb.2.1 (hb.not_role hr) buf
  ext1
  · rfl
  · funext b'
    exact vol_marked_congr hg.toLayout (putBlock_geo _ _ _) b' fun grp hgrp _ => hrole _ hgrp
  · funext n
    exact vol_inUse_congr hg.toLayout (putBlock_geo _ _ _) n fun grp hgrp _ => hrole _ hgrp
  · funext n
    refine vol_inode_congr (putBlock_geo _ _ _) n fun hn i hi =>
      hrole _ (inodeTable_valid hg.toLayout hn) _ ?_
    have := inoOff_le hg.toLayout n
    omega
  · funext b'
    rw [Vol.setData_data]
    split
    · rename_i heq
      subst heq
      rw [@vol_data (fs.putBlock b' buf) _ hb]
      exact trim_congr fun i hi => hg.block_putBlock hb.2.1 buf hi
    · rename_i hne
      exact vol_data_congr (putBlock_geo _ _ _) b' fun _ => hg.sameAt_putBlock hb.2.1 hne buf

theorem vol_putBlock_blockBitmap (hgrp : grp < fs.geo.nbgs) (hk : k < fs.geo.blocksPerGroup)
    {x : Bool} {buf : Bytes}
    (hbuf : ∀ j, bit buf j = if j = k then x else bit (fs.block (fs.geo.blockBitmap grp)) j) :
    (fs.putBlock (fs.geo.blockBitmap grp) buf).vol = fs.vol.mark (fs.geo.start grp + k) x := by
  have hvalid : (Role.blockBitmap grp).Valid fs.geo := hgrp
  have hdev := hg.onDevice _ hvalid
  obtain ⟨hin, hgrpOf, hposOf⟩ := inGroups_start hg.mounted hgrp hk
  ext1
  · rfl
  · funext b
    rw [Vol.mark_marked]
    by_cases hsame : fs.geo.InGroups b ∧ fs.geo.grpOf b = grp
    · obtain ⟨hb, hbgrp⟩ := hsame
      have hpos := posOf_lt hg.mounted b
      have hle := hg.blocksPerGroup_le
      have hbyte := hg.block_putBlock (b := fs.geo.blockBitmap grp) hdev buf
        (i := fs.geo.posOf b / 8) (by omega)
      have hstart := hb.start_add
      rw [hbgrp] at hstart
      rw [@vol_marked (fs.putBlock _ buf) _ hb, vol_marked hb, putBlock_geo, hbgrp,
        bit_congr hbyte, hbuf]
      congr 1
      rw [eq_iff_iff]
      constructor
      · intro heq
        omega
      · intro heq
        omega
    · have hne : b ≠ fs.geo.start grp + k := by
        rintro rfl
        exact hsame ⟨hin, hgrpOf⟩
      rw [if_neg hne]
      by_cases hb : fs.geo.InGroups b
      · refine vol_marked_congr hg.toLayout (putBlock_geo _ _ _) b fun grp' hgrp' heq => ?_
        apply hg.sameAt_role hvalid hgrp'
        rintro ⟨rfl⟩
        exact hsame ⟨hb, heq⟩
      · exact (if_neg hb).trans (if_neg hb).symm
  · funext n
    exact vol_inUse_congr hg.toLayout (putBlock_geo _ _ _) n fun grp' hgrp' _ =>
      hg.sameAt_role hvalid hgrp' (fun h => by cases h) buf
  · funext n
    refine vol_inode_congr (putBlock_geo _ _ _) n fun hn i hi =>
      hg.sameAt_role hvalid (inodeTable_valid hg.toLayout hn) (fun h => by cases h) buf _ ?_
    have := inoOff_le hg.toLayout n
    omega
  · funext b
    exact vol_data_congr (putBlock_geo _ _ _) b fun hb => hg.sameAt_data hvalid hb buf

theorem vol_putBlock_inodeBitmap {n : Nat} (hn : fs.geo.InodeNo n) {buf : Bytes}
    (hbuf : ∀ j, bit buf j = if j = fs.geo.inoPos n then true
      else bit (fs.block (fs.geo.inodeBitmap (fs.geo.inoGrp n))) j) :
    (fs.putBlock (fs.geo.inodeBitmap (fs.geo.inoGrp n)) buf).vol = fs.vol.use n := by
  have hvalid : (Role.inodeBitmap (fs.geo.inoGrp n)).Valid fs.geo := hn.inoGrp_lt hg.toLayout
  have hdev := hg.onDevice _ hvalid
  ext1
  · rfl
  · funext b
    exact vol_marked_congr hg.toLayout (putBlock_geo _ _ _) b fun grp' hgrp' _ =>
      hg.sameAt_role hvalid hgrp' (fun h => by cases h) buf
  · funext m
    rw [Vol.use_inUse]
    by_cases hsame : fs.geo.InodeNo m ∧ fs.geo.inoGrp m = fs.geo.inoGrp n
    · obtain ⟨hm, hgrp⟩ := hsame
      have hpos := inoPos_lt hg.toLayout m
      have hle := hg.inodesPerGroup_le
      have hbyte := hg.block_putBlock (b := fs.geo.inodeBitmap (fs.geo.inoGrp n)) hdev buf
        (i := fs.geo.inoPos m / 8) (by omega)
      rw [@vol_inUse (fs.putBlock _ buf) _ hm, vol_inUse hm, putBlock_geo, hgrp,
        bit_congr hbyte, hbuf]
      congr 1
      rw [eq_iff_iff]
      exact ⟨hm.eq_of hn hgrp, fun heq => by rw [heq]⟩
    · have hne : m ≠ n := by
        rintro rfl
        exact hsame ⟨hn, rfl⟩
      rw [if_neg hne]
      by_cases hm : fs.geo.InodeNo m
      · refine vol_inUse_congr hg.toLayout (putBlock_geo _ _ _) m fun grp' hgrp' heq => ?_
        apply hg.sameAt_role hvalid hgrp'
        rintro ⟨rfl⟩
        exact hsame ⟨hm, heq⟩
      · exact (if_neg hm).trans (if_neg hm).symm
  · funext m
    refine vol_inode_congr (putBlock_geo _ _ _) m fun hm i hi =>
      hg.sameAt_role hvalid (inodeTable_valid hg.toLayout hm) (fun h => by cases h) buf _ ?_
    have := inoOff_le hg.toLayout m
    omega
  · funext b
    exact vol_data_congr (putBlock_geo _ _ _) b fun hb => hg.sameAt_data hvalid hb buf

theorem vol_putBlock_inode {n : Nat} (hn : fs.geo.InodeNo n) (x : Bytes) :
    (fs.putBlock (fs.geo.inoBlk n)
      (copy (fs.block (fs.geo.inoBlk n)) (fs.geo.inoOff n) x 0 128)).vol = fs.vol.setInode n x := by
  have hvalid := inodeTable_valid hg.toLayout hn
  have hdev : fs.geo.inoBlk n < fs.geo.blocksCount := hg.onDevice _ hvalid
  ext1
  · rfl
  · funext b
    exact vol_marked_congr hg.toLayout (putBlock_geo _ _ _) b fun grp' hgrp' _ =>
      hg.sameAt_role hvalid hgrp' (fun h => by cases h) _
  · funext m
    exact vol_inUse_congr hg.toLayout (putBlock_geo _ _ _) m fun grp' hgrp' _ =>
      hg.sameAt_role hvalid hgrp' (fun h => by cases h) _
  · funext m
    rw [Vol.setInode_inode]
    split
    · rename_i heq
      subst heq
      have hle := inoOff_le hg.toLayout m
      rw [@vol_inode (fs.putBlock _ _) _ hn]
      apply trim_congr
      intro i hi
      change (fs.putBlock _ _).block (fs.geo.inoBlk m) (fs.geo.inoOff m + i) = _
      rw [hg.block_putBlock hdev _ (by omega), copy_apply hi, Nat.zero_add]
    · rename_i hne
      refine vol_inode_congr (putBlock_geo _ _ _) m fun hm i hi => ?_
      have hle := inoOff_le hg.toLayout m
      by_cases hblk : fs.geo.inoBlk m = fs.geo.inoBlk n
      · -- another inode of the same block
        have hapart := inoOff_apart hg.toLayout hm hn hne hblk
        rw [hblk, hg.block_putBlock hdev _ (by omega), copy_of_ne (by omega)]
      · exact hg.block_putBlock_of_ne hdev hblk _ (by omega)
  · funext b
    exact vol_data_congr (putBlock_geo _ _ _) b fun hb => hg.sameAt_data hvalid hb _

/-- The flushes do not change the volume. -/
theorem vol_after_flush {ts : List Nat} (hemits : Emits fs.geo op ts)
    (hres : ∀ b ∈ ts.takeWhile (· < fs.geo.blocksCount), fs.geo.Reserved b) :
    (op.after fs).vol = fs.vol :=
  vol_eq_of_sameAt hg.toLayout (hemits fs rfl).1.geo fun _ _ hnot =>
    sameAt_after_flush hg.mounted hg.sectors hemits hres hnot

theorem vol_after_flushSbs (hflush : fs.geo.FlushSafe) : (flushSbs.after fs).vol = fs.vol :=
  vol_after_flush hg (flushSbs_emits fs.geo) (hflush.flushSbs hg.mounted)

theorem vol_after_flushBgs (hflush : fs.geo.FlushSafe) : (flushBgs.after fs).vol = fs.vol :=
  vol_after_flush hg (flushBgs_emits hg.mounted) (hflush.flushBgs hg.mounted)

end PutBlock

theorem vol_congr {fs' : Ext2fs} (hgeo : fs'.geo = fs.geo) (hdisk : fs'.disk = fs.disk) :
    fs'.vol = fs.vol := by
  have hblock : fs'.block = fs.block := by
    funext b i
    unfold Ext2fs.block
    rw [hgeo, hdisk]
  unfold Ext2fs.vol
  rw [hgeo, hblock]

end Ext2
