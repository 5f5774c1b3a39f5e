import RandomOs.Ext2.WriteRead
import RandomOs.Ext2.Create
import RandomOs.Ext2.Dir
import RandomOs.Lib.Runs

/-!
# Who owns the blocks

Every block of a file is marked, is no metadata and is referred to from one place.  The calls of the
driver keep this as long as the slots they follow are block numbers: those of an inode made by
`ext2fs_mknod` or `ext2fs_symlink` are not.
-/

namespace Ext2

open Lib Bytes Kern

/-- The calls that change the file system. -/
inductive Call
  | mkino (mode uid gid time : Nat)
  | symlink (mode uid gid time : Nat) (target : List UInt8)
  | mknod (mode uid gid time rdev : Nat)
  | write (ino off nb : Nat) (buf : Bytes)
  | mklink (stack : Bytes) (ino mode dino : Nat) (name : List UInt8)
  | rmlink (dino : Nat) (name : List UInt8)
  | trunc (ino : Nat)
  | rmino (ino : Nat)

/-- A call that returns no error; 0 stands for the calls without a result. -/
def Call.exec : Call → Op Ext2fs Nat
  | .mkino mode uid gid time => ext2fsMkino mode uid gid time
  | .symlink mode uid gid time target => ext2fsSymlink mode uid gid time target
  | .mknod mode uid gid time rdev => ext2fsMknod mode uid gid time rdev
  | .write ino off nb buf => ext2fsWrite ino off nb buf
  | .mklink stack ino mode dino name => do
      ext2fsMklink stack ino mode dino name
      pure 0
  | .rmlink dino name => do
      ext2fsRmlink dino name
      pure 0
  | .trunc ino => do
      ext2fsTrunc ino
      pure 0
  | .rmino ino => do
      ext2fsRmino ino
      pure 0

def CallStep (fs : Ext2fs) (c : Call) (fs' : Ext2fs) : Prop := ∃ r, c.exec.run fs = .ok r fs'

/-- The slots that the call follows or writes are block numbers. -/
def Call.Safe (fs : Ext2fs) : Call → Prop
  | .mkino _ _ _ _ => True
  | .symlink mode _ _ _ target => SymlinkOk mode target
  | .mknod mode _ _ _ rdev => Special mode ∨ (encodeDev rdev).2 = 0
  | .write ino _ _ _ => fs.vol.Live ino
  | .mklink _ _ _ dino _ => fs.vol.Live dino
  | .rmlink dino _ => fs.vol.Live dino
  | .trunc ino => fs.vol.Live ino
  | .rmino _ => True

def Call.Ok (fs : Ext2fs) (c : Call) : Prop := fs.geo.InReach ∧ c.Safe fs

/-- Blocks and tables of regular files and directories in use. -/
def Ext2fs.Owned (fs : Ext2fs) : Prop :=
  ∀ n es b, fs.vol.Live n → Fits es → fs.vol.ref n es = some (.blk b) →
    fs.vol.marked b = true ∧ ¬ fs.geo.Meta b ∧
      ∀ m es', fs.vol.Live m → Fits es' → fs.vol.ref m es' = some (.blk b) → m = n ∧ es' = es

theorem owned_of_sound {fs : Ext2fs} (hv : fs.vol.Sound) : fs.Owned := by
  intro n es b hn hes href
  obtain ⟨hdata, hmark⟩ := hv.owned n es b hn hes href
  exact ⟨hmark, hdata.2.2, fun m es' hm hes' href' => hv.eq_of_ref hm hn hes' hes href' href⟩

theorem Call.post {fs : Ext2fs} {c : Call} (hg : fs.geo.Ok) (hflush : fs.geo.FlushSafe)
    (hv : fs.vol.Sound) (hc : c.Safe fs) :
    Op.Post c.exec fs (fun _ fs' => fs'.geo = fs.geo ∧ fs'.vol.Sound) (fun _ _ => True) := by
  cases c with
  | mkino mode uid gid time => exact mkino_sound hg hflush hv mode uid gid time
  | symlink mode uid gid time target => exact symlink_sound hg hflush hv uid gid time hc
  | mknod mode uid gid time rdev => exact mknod_sound hg hflush hv uid gid time hc
  | write ino off nb buf =>
    exact Op.Post.mono (write_post hg hv hc (fun _ => hflush) buf) (fun _ _ h => ⟨h.geo, h.sound⟩)
      fun _ _ h => h
  | mklink stack ino mode dino name =>
    refine Op.Post.bind (mklink_post hg hflush hv hc stack ino mode name) ?_ fun _ _ h => h
    rintro _ fs' ⟨-, ftype, ⟨w, i, pdir, -, hrel⟩ | hnew⟩
    · exact Op.Post.pure (hrel.sound hv hc)
    · exact Op.Post.pure (hnew.sound hc)
  | rmlink dino name =>
    refine Op.Post.bind (rmlink_post hg hv hc name) ?_ fun _ _ h => h
    rintro _ fs' ⟨w, i, pdir, m, -, hrel⟩
    exact Op.Post.pure (hrel.sound hv hc)
  | trunc ino =>
    exact Op.Post.bind (trunc_post hg hflush hv hc) (fun _ _ h => Op.Post.pure h) fun _ _ h => h
  | rmino ino =>
    exact Op.Post.bind (rmino_fails hg.mounted ino) (fun _ _ h => h.elim) fun _ _ h => h

/-- In every run of safe calls from a consistent file system the blocks are owned. -/
theorem owned_of_safe_calls {fs : Ext2fs}
    (h : Reach Ext2fs.Consistent CallStep Call.Ok fs) : fs.Owned := by
  have hinv : fs.geo.Layout ∧ fs.vol.Sound := by
    apply @Reach.invariant _ _ _ _ _ (fun fs => fs.geo.Layout ∧ fs.vol.Sound) ?_ ?_ _ h
    · exact fun fs hfs => ⟨hfs.layout, hfs.sound⟩
    · rintro fs c fs' ⟨hlayout, hsound⟩ ⟨hreach, hsafe⟩ ⟨r, hrun⟩
      obtain ⟨hgeo, hsound'⟩ := (Call.post (hlayout.ok hreach) hreach.flush hsound hsafe).ok hrun
      rw [hgeo]
      exact ⟨hlayout, hsound'⟩
  exact owned_of_sound hinv.2

-- a device node with number 3
theorem small_mknod (mode : Nat) (hret : (ext2fsMknod mode 0 0 0 3).returns smallFs 8 = true) :
    CallStep smallFs (.mknod mode 0 0 0 3) ((ext2fsMknod mode 0 0 0 3).after smallFs) ∧
      ((ext2fsMknod mode 0 0 0 3).after smallFs).vol =
        (smallFs.vol.use 8).setInode 8 (put32 (newInode mode 0 0 0) 40 3) := by
  have hrun := Op.run_of_returns hret
  obtain ⟨-, -, hvol⟩ :=
    (mkinoBase_post (small_layout.ok small_inReach) small_inReach.flush _).ok hrun
  exact ⟨⟨8, hrun⟩, hvol⟩

/-- A device node is made, and then the empty file gets its first block. -/
theorem owned_after_mknod_write : ((ext2fsWrite 7 0 1 fun _ => 97).after
    ((ext2fsMknod 0x21A4 0 0 0 3).after smallFs)).Owned := by
  obtain ⟨hmknod, hvol⟩ := small_mknod 0x21A4 (by decide)
  have hgeo : ((ext2fsMknod 0x21A4 0 0 0 3).after smallFs).geo = smallFs.geo :=
    congrArg Vol.geo hvol
  have hlive : ((ext2fsMknod 0x21A4 0 0 0 3).after smallFs).vol.Live 7 := by
    obtain ⟨huse, hmode⟩ := small_regular
    rw [hvol]
    refine ⟨?_, Or.inl ?_⟩
    · rw [Vol.setInode_inUse, Vol.use_inUse, if_neg (by decide)]
      exact huse
    · rw [Vol.setInode_inode, if_neg (by decide)]
      exact hmode
  have hwrite : CallStep ((ext2fsMknod 0x21A4 0 0 0 3).after smallFs) (.write 7 0 1 fun _ => 97)
      ((ext2fsWrite 7 0 1 fun _ => 97).after ((ext2fsMknod 0x21A4 0 0 0 3).after smallFs)) :=
    ⟨1, Op.run_of_returns (by decide +kernel)⟩
  have hfirst : Reach Ext2fs.Consistent CallStep Call.Ok
      ((ext2fsMknod 0x21A4 0 0 0 3).after smallFs) :=
    .next (.start small_consistent) hmknod ⟨small_inReach, Or.inl (by decide)⟩
  exact owned_of_safe_calls (.next hfirst hwrite ⟨by rw [hgeo]; exact small_inReach, hlive⟩)

/-- A regular file made by `ext2fs_mknod` has the block bitmap for its first block. -/
theorem mknod_regular_owns_bitmap :
    Reach Ext2fs.Consistent CallStep (fun _ _ => True)
      ((ext2fsMknod 0x81A4 0 0 0 3).after smallFs) ∧
      ¬ ((ext2fsMknod 0x81A4 0 0 0 3).after smallFs).Owned := by
  obtain ⟨hstep, hvol⟩ := small_mknod 0x81A4 (by decide)
  refine ⟨.next (.start small_consistent) hstep trivial, fun howned => ?_⟩
  have hgeo : ((ext2fsMknod 0x81A4 0 0 0 3).after smallFs).geo = smallFs.geo :=
    congrArg Vol.geo hvol
  have hinode : ((ext2fsMknod 0x81A4 0 0 0 3).after smallFs).vol.inode 8 =
      trim 128 (put32 (newInode 0x81A4 0 0 0) 40 3) := by
    rw [hvol, Vol.setInode_inode, if_pos rfl]
  have hlive : ((ext2fsMknod 0x81A4 0 0 0 3).after smallFs).vol.Live 8 := by
    refine ⟨?_, Or.inl ?_⟩
    · rw [hvol, Vol.setInode_inUse, Vol.use_inUse, if_pos rfl]
    · rw [hinode]
      decide
  have href : ((ext2fsMknod 0x81A4 0 0 0 3).after smallFs).vol.ref 8 [0] = some (.blk 3) := by
    rw [ref_slot _ _ (by omega), hinode]
    rfl
  refine (howned 8 [0] 3 hlive (Nat.zero_le _) href).2.1 ?_
  rw [hgeo]
  obtain ⟨hnbgs, -⟩ := small_geo
  exact Or.inr ⟨.blockBitmap 0, by change 0 < smallFs.geo.nbgs; omega, small_role_blk.1⟩

end Ext2
