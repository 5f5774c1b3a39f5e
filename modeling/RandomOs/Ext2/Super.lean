import RandomOs.Kern.Errno
import RandomOs.Lib.Bytes
import RandomOs.Lib.Op

/-!
# The mounted file system (`ext2.c`, `ext2.h`)

The superblock, the group descriptors and the device are byte memories, read at the offsets of the
packed structures.  Memory for buffers is always there and the transfers of the device succeed.
-/

namespace Ext2

open Lib Bytes Kern

structure Ext2fs where
  disk : Bytes
  -- the blocks passed to `block_write` so far; the code does not read this
  written : List Nat
  isdyn : Bool
  sb : Bytes
  nbgs : Nat
  bgtbln : Nat
  bgs : Bytes
  blocksz : Nat
  spb : Nat
  ppb : Nat
  gpb : Nat

/-- What stays as it is after the mount: the sizes, and the fields of the superblock and of the
descriptors that are no counters. -/
structure Geo where
  isdyn : Bool
  nbgs : Nat
  bgtbln : Nat
  blocksz : Nat
  spb : Nat
  ppb : Nat
  gpb : Nat
  blocksCount : Nat
  firstDataBlock : Nat
  blocksPerGroup : Nat
  inodesPerGroup : Nat
  inodeSize : Nat
  roCompat : Nat
  blockBitmap : Nat → Nat
  inodeBitmap : Nat → Nat
  inodeTable : Nat → Nat

def Ext2fs.geo (fs : Ext2fs) : Geo :=
  { isdyn := fs.isdyn, nbgs := fs.nbgs, bgtbln := fs.bgtbln, blocksz := fs.blocksz, spb := fs.spb
    ppb := fs.ppb, gpb := fs.gpb
    blocksCount := get32 fs.sb 4
    firstDataBlock := get32 fs.sb 20
    blocksPerGroup := get32 fs.sb 32
    inodesPerGroup := get32 fs.sb 40
    inodeSize := get16 fs.sb 88
    roCompat := get32 fs.sb 100
    blockBitmap := fun grp => get32 fs.bgs (32 * grp)
    inodeBitmap := fun grp => get32 fs.bgs (32 * grp + 4)
    inodeTable := fun grp => get32 fs.bgs (32 * grp + 8) }

/-! ## Blocks -/

/-- `block_read` from sector `lba` on. -/
def blockRead (disk : Bytes) (lba : Nat) : Bytes := fun i => disk (lba * 512 + i)

/-- `block_write` of `cnt` sectors. -/
def blockWrite (disk : Bytes) (buf : Bytes) (lba cnt : Nat) : Bytes :=
  copy disk (lba * 512) buf 0 (cnt * 512)

def rdblk (blk : Nat) : Op Ext2fs Bytes := fun fs =>
  if fs.geo.blocksCount ≤ blk then .error (.err (-ERANGE)) fs
  else .ok (blockRead fs.disk (blk * fs.geo.spb % 2 ^ 32)) fs

/-- The state after a block is written. -/
def Ext2fs.putBlock (fs : Ext2fs) (blk : Nat) (buf : Bytes) : Ext2fs :=
  { fs with
    disk := blockWrite fs.disk buf (blk * fs.geo.spb % 2 ^ 32) fs.geo.spb
    written := fs.written ++ [blk] }

def wrblk (blk : Nat) (buf : Bytes) : Op Ext2fs Unit := fun fs =>
  if fs.geo.blocksCount ≤ blk then .error (.err (-ERANGE)) fs
  else .ok () (fs.putBlock blk buf)

@[simp] theorem putBlock_geo (fs : Ext2fs) (blk : Nat) (buf : Bytes) :
    (fs.putBlock blk buf).geo = fs.geo := rfl

variable {fs : Ext2fs} {blk : Nat} {heap disk : Bytes}

theorem run_rdblk (h : blk < fs.geo.blocksCount) :
    (rdblk blk).run fs = .ok (blockRead fs.disk (blk * fs.geo.spb % 2 ^ 32)) fs :=
  if_neg (Nat.not_le_of_lt h)

theorem run_rdblk_of_ge (h : fs.geo.blocksCount ≤ blk) :
    (rdblk blk).run fs = .error (.err (-ERANGE)) fs :=
  if_pos h

theorem run_wrblk (h : blk < fs.geo.blocksCount) (buf : Bytes) :
    (wrblk blk buf).run fs = .ok () (fs.putBlock blk buf) :=
  if_neg (Nat.not_le_of_lt h)

theorem run_wrblk_of_ge (h : fs.geo.blocksCount ≤ blk) (buf : Bytes) :
    (wrblk blk buf).run fs = .error (.err (-ERANGE)) fs :=
  if_pos h

/-- The bytes of a block on the device. -/
def Geo.Spans (g : Geo) (blk a : Nat) : Prop :=
  blk * g.spb % 2 ^ 32 * 512 ≤ a ∧ a < blk * g.spb % 2 ^ 32 * 512 + g.spb * 512

theorem putBlock_disk_of_not_spans {a : Nat} (h : ¬ fs.geo.Spans blk a) (buf : Bytes) :
    (fs.putBlock blk buf).disk a = fs.disk a := by
  apply copy_of_ne
  unfold Geo.Spans at h
  omega

/-! ## Mount -/

-- the `~` of the feature tests
def clearMask (m : Nat) : Nat := 0xFFFFFFFF ^^^ m

theorem and_clearMask_eq_zero_iff {x k : Nat} (hx : x < 2 ^ 32) (hk : k ≤ 32) :
    x &&& clearMask (2 ^ k - 1) = 0 ↔ x < 2 ^ k := by
  have hbit : ∀ i, (clearMask (2 ^ k - 1)).testBit i = (decide (i < 32) ^^ decide (i < k)) := by
    intro i
    rw [clearMask, Nat.testBit_xor, show (0xFFFFFFFF : Nat) = 2 ^ 32 - 1 from rfl,
      Nat.testBit_two_pow_sub_one, Nat.testBit_two_pow_sub_one]
  constructor
  · intro hzero
    apply Nat.lt_pow_two_of_testBit
    intro i hi
    by_cases h32 : i < 32
    · have := congrArg (fun n => n.testBit i) hzero
      simpa [Nat.testBit_and, hbit, h32, Nat.not_lt_of_le hi] using this
    · exact Nat.testBit_lt_two_pow
        (lt_of_lt_of_le hx (Nat.pow_le_pow_right (by decide) (Nat.le_of_not_lt h32)))
  · intro hlt
    apply Nat.eq_of_testBit_eq
    intro i
    rw [Nat.testBit_and, hbit, Nat.zero_testBit]
    by_cases hi : i < k
    · simp [hi, Nat.lt_of_lt_of_le hi hk]
    · rw [Nat.testBit_lt_two_pow
        (lt_of_lt_of_le hlt (Nat.pow_le_pow_right (by decide) (Nat.le_of_not_lt hi))),
        Bool.false_and]

/-- The loop that loads the descriptors: `n` blocks to go, `ptr` descriptors loaded.  They are
counted in a `u32`, those of a block in a `u8`, and `malloc` cuts the size of the table to 32
bits. -/
def loadDescs : (n cblk ptr : Nat) → Op Ext2fs Unit
  | 0, _, _ => pure ()
  | n + 1, cblk, ptr => do
      let raw ← rdblk cblk
      let fs ← get
      let nbgsp := ptr % 2 ^ 32
      let dscib := fs.gpb % 256
      let dscib :=
        if fs.nbgs < (nbgsp + dscib) % 2 ^ 32 then (fs.nbgs + 2 ^ 32 - nbgsp) % 256 else dscib
      if 32 * fs.nbgs % 2 ^ 32 < 32 * (ptr + dscib) then Op.fault
      else
        set { fs with bgs := copy fs.bgs (32 * ptr) raw 0 (32 * dscib) }
        loadDescs n ((cblk + 1) % 2 ^ 32) (ptr + dscib)

/-- `fs` as `ext2fs_mount` fills it before it loads the descriptors; `heap` is what the allocated
memory held. -/
def mountGeometry (heap disk : Bytes) (isdyn : Bool) : Ext2fs :=
  let raw := blockRead disk 2
  let sb := copy heap 0 raw 0 (if isdyn then 204 else 84)
  let blocksz := 1024 * 2 ^ (get32 raw 24 % 32) % 2 ^ 32
  let nbgs := get32 raw 4 / get32 raw 32 + if get32 raw 4 % get32 raw 32 ≠ 0 then 1 else 0
  { disk := disk, written := [], isdyn := isdyn, sb := sb, nbgs := nbgs
    bgtbln := nbgs * 32 / blocksz + if nbgs * 32 % blocksz ≠ 0 then 1 else 0
    bgs := heap, blocksz := blocksz, spb := blocksz / 512, ppb := blocksz / 4, gpb := blocksz / 32 }

/-- The tests of `ext2fs_mount`: the revision it goes on with. -/
def mountRevision (raw : Bytes) : Option Bool :=
  -- s_magic and s_errors
  if get16 raw 56 ≠ 0xEF53 ∨ get16 raw 60 ≠ 1 then none
  -- s_rev_level
  else if get32 raw 76 = 0 then some false
  else if get32 raw 76 = 1 then
    -- s_feature_incompat, s_feature_ro_compat
    if get32 raw 96 &&& clearMask 2 ≠ 0 ∨ get32 raw 100 &&& clearMask 3 ≠ 0 then none
    else some true
  else none

def ext2fsMount (heap disk : Bytes) : Except Stop Ext2fs :=
  let raw := blockRead disk 2
  match mountRevision raw with
  | none => .error (.err (-EINVAL))
  | some isdyn =>
    let fs := mountGeometry heap disk isdyn
    -- division by `s_blocks_per_group` and by the block size
    if get32 raw 32 = 0 ∨ fs.blocksz = 0 then .error .fault
    -- the sum with the size of the tag wraps in `allocate_new_tag`
    else if 2 ^ 32 ≤ 32 * fs.nbgs % 2 ^ 32 + 48 then .error .fault
    else
      match (loadDescs fs.bgtbln ((fs.geo.firstDataBlock + 1) % 2 ^ 32) 0).run fs with
      | .ok () fs => .ok fs
      | .error e _ => .error e

/-- What is known of the geometry of every mounted file system. -/
structure Geo.Mounted (g : Geo) : Prop where
  blocksz : ∃ k, 10 ≤ k ∧ k < 32 ∧ g.blocksz = 2 ^ k
  spb : g.spb = g.blocksz / 512
  ppb : g.ppb = g.blocksz / 4
  gpb : g.gpb = g.blocksz / 32
  blocksCount_lt : g.blocksCount < 2 ^ 32
  firstDataBlock_lt : g.firstDataBlock < 2 ^ 32
  blocksPerGroup : 0 < g.blocksPerGroup
  nbgs : g.nbgs = (g.blocksCount + g.blocksPerGroup - 1) / g.blocksPerGroup
  bgtbln : g.bgtbln = (g.nbgs * 32 + g.blocksz - 1) / g.blocksz
  roCompat : g.isdyn = true → g.roCompat < 4
  -- the descriptor table was read
  table : ∀ i < g.bgtbln, (g.firstDataBlock + 1 + i) % 2 ^ 32 < g.blocksCount

/-- One turn: the descriptors of the block that are still missing are taken from it, or do not fit
in the memory. -/
theorem loadDescs_succ {n cblk ptr : Nat} (hin : cblk < fs.geo.blocksCount)
    (hptr : 32 * ptr ≤ 32 * fs.nbgs % 2 ^ 32) : (loadDescs (n + 1) cblk ptr).run fs =
      if 32 * fs.nbgs % 2 ^ 32 < 32 * (ptr + min (fs.gpb % 256) (fs.nbgs - ptr)) then
        .error .fault fs
      else
        (loadDescs n ((cblk + 1) % 2 ^ 32) (ptr + min (fs.gpb % 256) (fs.nbgs - ptr))).run
          { fs with
            bgs := copy fs.bgs (32 * ptr) (blockRead fs.disk (cblk * fs.spb % 2 ^ 32)) 0
              (32 * min (fs.gpb % 256) (fs.nbgs - ptr)) } := by
  have hdscib : (if fs.nbgs < (ptr % 2 ^ 32 + fs.gpb % 256) % 2 ^ 32 then
      (fs.nbgs + 2 ^ 32 - ptr % 2 ^ 32) % 256 else fs.gpb % 256) =
      min (fs.gpb % 256) (fs.nbgs - ptr) := by
    split <;> omega
  rw [loadDescs, Op.run_bind_of_ok (run_rdblk hin), Op.run_get_bind]
  dsimp only
  rw [hdscib]
  split <;> rfl

-- `loadDescs` fills the table and leaves the rest alone
theorem loadDescs_ok {n cblk ptr : Nat} {fs' : Ext2fs} (hcblk : cblk < 2 ^ 32)
    (hptr : 32 * ptr ≤ 32 * fs.nbgs % 2 ^ 32) (h : (loadDescs n cblk ptr).run fs = .ok () fs') :
    fs' = { fs with bgs := fs'.bgs } ∧ ∀ i < n, (cblk + i) % 2 ^ 32 < fs.geo.blocksCount := by
  induction n generalizing cblk ptr fs with
  | zero =>
    cases h
    exact ⟨rfl, fun i hi => by omega⟩
  | succ n ih =>
    by_cases hin : cblk < fs.geo.blocksCount
    swap
    · rw [loadDescs, Op.run_bind_of_error (run_rdblk_of_ge (Nat.le_of_not_lt hin))] at h
      cases h
    rw [loadDescs_succ hin hptr] at h
    split at h
    · cases h
    obtain ⟨hfs, htable⟩ := ih (Nat.mod_lt _ (by decide)) (by dsimp only; omega) h
    refine ⟨hfs, fun i hi => ?_⟩
    cases i with
    | zero => rwa [Nat.add_zero, Nat.mod_eq_of_lt hcblk]
    | succ i =>
      have hi' : ((cblk + 1) % 2 ^ 32 + i) % 2 ^ 32 < fs.geo.blocksCount := htable i (by omega)
      rw [Nat.mod_add_mod] at hi'
      rwa [show cblk + (i + 1) = cblk + 1 + i by omega]

theorem div_add_ite_eq (a : Nat) {b : Nat} (hb : 0 < b) :
    a / b + (if a % b ≠ 0 then 1 else 0) = (a + b - 1) / b := by
  have hdiv := Nat.div_add_mod a b
  have hmod := Nat.mod_lt a hb
  split
  · have hrest : (a % b - 1) / b = 0 := Nat.div_eq_of_lt (by omega)
    rw [show a + b - 1 = b * (a / b + 1) + (a % b - 1) by rw [Nat.mul_succ]; omega,
      Nat.mul_add_div hb, hrest]
  · have hrest : (b - 1) / b = 0 := Nat.div_eq_of_lt (by omega)
    rw [show a + b - 1 = b * (a / b) + (b - 1) by omega, Nat.mul_add_div hb, hrest]

-- the superblock in memory has the fields of the one on the device
theorem get32_mountGeometry_sb (heap disk : Bytes) (isdyn : Bool) {a : Nat}
    (ha : a + 4 ≤ if isdyn then 204 else 84) :
    get32 (mountGeometry heap disk isdyn).sb a = get32 (blockRead disk 2) a := by
  apply get32_congr
  intro i hi
  have hin : a + i < if isdyn then 204 else 84 := by omega
  change copy heap 0 (blockRead disk 2) 0 (if isdyn then 204 else 84) (a + i) = _
  rw [← Nat.zero_add (a + i), copy_apply hin]

theorem mountGeometry_blocksz {isdyn : Bool} (hne : (mountGeometry heap disk isdyn).blocksz ≠ 0) :
    ∃ k, 10 ≤ k ∧ k < 32 ∧ (mountGeometry heap disk isdyn).blocksz = 2 ^ k := by
  have heq : (mountGeometry heap disk isdyn).blocksz =
      2 ^ (10 + get32 (blockRead disk 2) 24 % 32) % 2 ^ 32 := by
    rw [Nat.pow_add]
    rfl
  generalize get32 (blockRead disk 2) 24 % 32 = log at heq
  rw [heq] at hne ⊢
  by_cases hlog : 10 + log < 32
  · exact ⟨10 + log, by omega, hlog,
      Nat.mod_eq_of_lt (Nat.pow_lt_pow_right (by decide) hlog)⟩
  · exact absurd (Nat.mod_eq_zero_of_dvd (Nat.pow_dvd_pow 2 (by omega))) hne

theorem mountRevision_roCompat {raw : Bytes} (h : mountRevision raw = some true) :
    get32 raw 100 < 4 := by
  unfold mountRevision at h
  split at h
  · cases h
  split at h
  · cases h
  split at h
  · split at h
    · cases h
    · rename_i hmask
      rw [not_or, not_not, not_not] at hmask
      exact (and_clearMask_eq_zero_iff (k := 2) (get32_lt raw 100) (by decide)).mp hmask.2
  · cases h

/-- The tests of the mount establish the geometry. -/
theorem mount_geometry (h : ext2fsMount heap disk = .ok fs) : fs.geo.Mounted ∧ fs.written = [] := by
  unfold ext2fsMount at h
  dsimp only at h
  cases hrev : mountRevision (blockRead disk 2) with
  | none =>
    rw [hrev] at h
    cases h
  | some isdyn =>
    rw [hrev] at h
    dsimp only at h
    split_ifs at h with hzero
    obtain ⟨hbpg, hblocksz⟩ := not_or.mp hzero
    have hk := mountGeometry_blocksz hblocksz
    have hfield : ∀ a, a + 4 ≤ 84 → get32 (mountGeometry heap disk isdyn).sb a =
        get32 (blockRead disk 2) a := by
      intro a ha
      apply get32_mountGeometry_sb
      split <;> omega
    have hbpg' : 0 < (mountGeometry heap disk isdyn).geo.blocksPerGroup := by
      have := hfield 32 (by omega)
      change 0 < get32 (mountGeometry heap disk isdyn).sb 32
      omega
    have hnbgs : (mountGeometry heap disk isdyn).nbgs =
        get32 (mountGeometry heap disk isdyn).sb 4 / get32 (mountGeometry heap disk isdyn).sb 32 +
          if get32 (mountGeometry heap disk isdyn).sb 4 %
            get32 (mountGeometry heap disk isdyn).sb 32 ≠ 0 then 1 else 0 := by
      rw [hfield 4 (by omega), hfield 32 (by omega)]
      rfl
    have hro : isdyn = true → (mountGeometry heap disk isdyn).geo.roCompat < 4 := by
      intro hdyn
      subst hdyn
      change get32 (mountGeometry heap disk true).sb 100 < 4
      rw [get32_mountGeometry_sb heap disk true (by decide)]
      exact mountRevision_roCompat hrev
    have hdyn : (mountGeometry heap disk isdyn).isdyn = isdyn := rfl
    have hbgtbln : (mountGeometry heap disk isdyn).bgtbln =
        (mountGeometry heap disk isdyn).nbgs * 32 / (mountGeometry heap disk isdyn).blocksz +
          if (mountGeometry heap disk isdyn).nbgs * 32 %
            (mountGeometry heap disk isdyn).blocksz ≠ 0 then 1 else 0 := rfl
    have hsizes : (mountGeometry heap disk isdyn).spb =
        (mountGeometry heap disk isdyn).blocksz / 512 ∧ (mountGeometry heap disk isdyn).ppb =
        (mountGeometry heap disk isdyn).blocksz / 4 ∧ (mountGeometry heap disk isdyn).gpb =
        (mountGeometry heap disk isdyn).blocksz / 32 := ⟨rfl, rfl, rfl⟩
    have hwritten : (mountGeometry heap disk isdyn).written = [] := rfl
    generalize mountGeometry heap disk isdyn = fs0 at *
    cases hload : (loadDescs fs0.bgtbln ((fs0.geo.firstDataBlock + 1) % 2 ^ 32) 0).run fs0 with
    | error e t =>
      rw [hload] at h
      cases h
    | ok u t =>
      rw [hload] at h
      obtain rfl : t = fs := by simpa using h
      obtain ⟨ht, htable⟩ := loadDescs_ok (Nat.mod_lt _ (by decide)) (Nat.zero_le _) hload
      rw [ht]
      have hpos : 0 < fs0.blocksz := Nat.pos_of_ne_zero hblocksz
      refine ⟨⟨hk, hsizes.1, hsizes.2.1, hsizes.2.2, get32_lt _ _, get32_lt _ _, hbpg',
        hnbgs.trans (div_add_ite_eq _ hbpg'), hbgtbln.trans (div_add_ite_eq _ hpos),
        fun hd => hro (hdyn.symm.trans hd), fun i hi => ?_⟩, hwritten⟩
      have := htable i hi
      rwa [Nat.mod_add_mod] at this

end Ext2
