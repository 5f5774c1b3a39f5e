import RandomOs.Ext2.Ownership
import Mathlib.Data.Set.Card

/-!
# Removing an inode (`ext2.c`)

`ext2fs_rmino` is to give back the inode, its blocks and its tables.  It clears the bit of the inode
before it writes the cleared inode, and `flush_inode` refuses inodes whose bit is clear: the call
fails with the counters of the device as they were.
-/

namespace Ext2

open Lib Bytes Kern

-- a counter of the superblock on the device
def Ext2fs.diskSb (fs : Ext2fs) (off : Nat) : Nat := get32 (blockRead fs.disk 2) off

-- a counter of a group on the device
def Ext2fs.diskBg (fs : Ext2fs) (grp off : Nat) : Nat :=
  get16 (fs.block (fs.geo.firstDataBlock + 1 + grp / fs.geo.gpb)) (32 * (grp % fs.geo.gpb) + off)

/-- The bitmaps and the counters on the device are those of a file system without the file. -/
structure Restored (n : Nat) (fs fs' : Ext2fs) : Prop where
  inUse : ∀ m, fs'.vol.inUse m = true ↔ fs.vol.inUse m = true ∧ m ≠ n
  marked : ∀ b, fs'.vol.marked b = true ↔ fs.vol.marked b = true ∧ ¬ fs.vol.Owns n b
  freeInodes : fs'.diskSb 16 = fs.diskSb 16 + 1
  freeBlocks : fs'.diskSb 12 = fs.diskSb 12 + Set.ncard {b | fs.vol.Owns n b}
  grpInodes : ∀ grp < fs.geo.nbgs,
    fs'.diskBg grp 14 = fs.diskBg grp 14 + if grp = fs.geo.inoGrp n then 1 else 0
  grpBlocks : ∀ grp < fs.geo.nbgs,
    fs'.diskBg grp 12 = fs.diskBg grp 12 + Set.ncard {b | fs.vol.Owns n b ∧ fs.geo.grpOf b = grp}

/-- `ext2fs_rmino` returns 0 and gives everything back. -/
def RminoCorrect (n : Nat) (fs : Ext2fs) : Prop :=
  ∃ fs', (ext2fsRmino n).run fs = .ok () fs' ∧ Restored n fs fs'

theorem rmino_not_ok {fs : Ext2fs} (hg : fs.geo.Mounted) (n : Nat) (fs' : Ext2fs) :
    (ext2fsRmino n).run fs ≠ .ok () fs' := fun hrun => (rmino_fails hg n).ok hrun

/-- No file of a consistent file system is ever removed. -/
theorem rmino_correct_iff {fs : Ext2fs} (hfs : fs.Consistent) (n : Nat) :
    RminoCorrect n fs ↔ False := by
  refine ⟨?_, False.elim⟩
  rintro ⟨fs', hrun, -⟩
  exact rmino_not_ok hfs.layout.mounted n fs' hrun

theorem rmino_correct_iff_small : RminoCorrect 7 smallFs ↔ False :=
  rmino_correct_iff small_consistent 7

/-- The empty file of the small volume, which has no directories, is not removed, and neither is a
file that has just been made. -/
theorem rmino_after_mkino_fails : smallFs.Consistent ∧ smallFs.RegularFile 7 ∧
    (∀ m, smallFs.vol.Live m → iType (smallFs.vol.inode m) ≠ S_IFDIR) ∧ ¬ RminoCorrect 7 smallFs ∧
    ∃ fs, (ext2fsMkino 0x81A4 0 0 0).run smallFs = .ok 8 fs ∧ ¬ RminoCorrect 8 fs := by
  have hrun := Op.run_of_returns (x := ext2fsMkino 0x81A4 0 0 0) (s := smallFs) (a := 8)
    (by decide)
  obtain ⟨-, -, hvol⟩ :=
    (mkinoBase_post (small_layout.ok small_inReach) small_inReach.flush _).ok hrun
  have hgeo : ((ext2fsMkino 0x81A4 0 0 0).after smallFs).geo = smallFs.geo := congrArg Vol.geo hvol
  refine ⟨small_consistent, small_regular, fun m hm => ?_, ?_, _, hrun, ?_⟩
  · rw [small_live hm]
    decide
  · rintro ⟨fs', h, -⟩
    exact rmino_not_ok small_mounted 7 fs' h
  · rintro ⟨fs', h, -⟩
    refine rmino_not_ok ?_ 8 fs' h
    rw [hgeo]
    exact small_mounted

end Ext2
