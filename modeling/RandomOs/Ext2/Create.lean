import RandomOs.Ext2.Tree

/-!
# New inodes (`ext2.c`)

The slots of a symbolic link hold its target and those of a device its number, so that they are no
block numbers.
-/

namespace Ext2

open Lib Bytes Kern Vol
open Op (Post)

/-! ## Model -/

/-- The inode that all three calls start from. -/
def newInode (mode uid gid time : Nat) : Bytes :=
  let m := put16 zero 0 mode
  let m := put16 m 2 uid
  let m := put32 m 8 time
  let m := put32 m 12 time
  let m := put32 m 16 time
  put16 m 24 gid

def ext2fsMkino (mode uid gid time : Nat) : Op Ext2fs Nat :=
  mkinoBase (newInode mode uid gid time)

-- `MAJOR` and `MINOR`
def major (dev : Nat) : Nat := dev / 2 ^ 20
def minor (dev : Nat) : Nat := dev % 2 ^ 20

/-- The slot that `encode_dev` writes, and the word. -/
def encodeDev (dev : Nat) : Nat × Nat :=
  if major dev < 256 ∧ minor dev < 256 then (0, (major dev * 2 ^ 8) ||| minor dev)
  else (1, (minor dev &&& 0xFF) ||| major dev * 2 ^ 8 % 2 ^ 32 |||
    (minor dev &&& clearMask 0xFF) * 2 ^ 12 % 2 ^ 32)

def ext2fsMknod (mode uid gid time rdev : Nat) : Op Ext2fs Nat :=
  let enc := encodeDev rdev
  mkinoBase (put32 (newInode mode uid gid time) (40 + 4 * enc.1) enc.2)

/-- A `char` as an `int`. -/
def charWord (c : UInt8) : Nat := if c.toNat < 128 then c.toNat else c.toNat + 0xFFFFFF00

/-- `blks[i]`; each one starts at byte `i` and not at byte `4 * i`. -/
def linkWord (buf : Bytes) (i : Nat) : Nat :=
  charWord (buf i) * 2 ^ 24 % 2 ^ 32 ||| charWord (buf (i + 1)) * 2 ^ 16 % 2 ^ 32 |||
    charWord (buf (i + 2)) * 2 ^ 8 % 2 ^ 32 ||| charWord (buf (i + 3))

def putSlots (inod : Bytes) (w : Nat → Nat) : Nat → Bytes
  | 0 => inod
  | k + 1 => put32 (putSlots inod w k) (40 + 4 * k) (w k)

/-- The bytes of a string in a buffer of zeros. -/
def ofString (text : List UInt8) : Bytes := fun i => text.getD i 0

def ext2fsSymlink (mode uid gid time : Nat) (target : List UInt8) : Op Ext2fs Nat :=
  let inode := newInode mode uid gid time
  if target.length ≤ 60 then
    mkinoBase (put32 (putSlots inode (linkWord (ofString target)) 15) 4 target.length)
  else do
    let blk ← Op.attempt (allocblk 0)
    -- `if (!blk)` lets error codes through
    let blk := match blk with
      | .ok b => b
      | .error code => (code % 2 ^ 32).toNat
    if blk = 0 then pure 0
    else
      let fs ← get
      if fs.geo.blocksz < target.length then Op.fault
      else
        wrblk (blk % 2 ^ 32) (ofString target)
        mkinoBase (put32 inode 40 blk)

/-! ## New inodes are sound -/

variable {k : Nat}

theorem newInode_slot (mode uid gid time : Nat) (hk : k < 15) :
    iBlock (newInode mode uid gid time) k = 0 := by
  unfold iBlock newInode
  rw [get32_put16_of_ne (by omega), get32_put32_of_ne (by omega), get32_put32_of_ne (by omega),
    get32_put32_of_ne (by omega), get32_put16_of_ne (by omega), get32_put16_of_ne (by omega),
    get32_zero]

theorem newInode_mode (mode uid gid time : Nat) :
    get16 (newInode mode uid gid time) 0 = mode % 2 ^ 16 := by
  unfold newInode
  rw [get16_put16_of_ne (by omega), get16_put32_of_ne (by omega), get16_put32_of_ne (by omega),
    get16_put32_of_ne (by omega), get16_put16_of_ne (by omega), get16_put16]

/-- The type of the mode has no blocks. -/
def Special (mode : Nat) : Prop :=
  mode % 2 ^ 16 &&& 0xF000 ≠ S_IFREG ∧ mode % 2 ^ 16 &&& 0xF000 ≠ S_IFDIR

instance (mode : Nat) : Decidable (Special mode) := inferInstanceAs (Decidable (_ ∧ _))

theorem putSlots_mode (inod : Bytes) (w : Nat → Nat) (k : Nat) :
    get16 (putSlots inod w k) 0 = get16 inod 0 := by
  induction k with
  | zero => rfl
  | succ k ih =>
    unfold putSlots
    rw [get16_put32_of_ne (by omega), ih]

theorem putSlots_slot (inod : Bytes) (w : Nat → Nat) {j : Nat} (hj : j < k) :
    iBlock (putSlots inod w k) j = w j % 2 ^ 32 := by
  induction k with
  | zero => omega
  | succ k ih =>
    unfold putSlots iBlock
    by_cases hjk : j = k
    · rw [hjk, get32_put32]
    · rw [get32_put32_of_ne (by omega)]
      exact ih (by omega)

section Sound

variable {fs : Ext2fs}

theorem mkinoBase_sound (hg : fs.geo.Ok) (hflush : fs.geo.FlushSafe) (hv : fs.vol.Sound)
    {inode : Bytes}
    (hx : (iType inode ≠ S_IFREG ∧ iType inode ≠ S_IFDIR) ∨ ∀ k < 15, iBlock inode k = 0) :
    Post (mkinoBase inode) fs (fun _ fs' => fs'.geo = fs.geo ∧ fs'.vol.Sound)
      (fun _ _ => True) := by
  refine Post.mono (mkinoBase_post hg hflush inode) ?_ fun _ _ h => h
  rintro n fs' ⟨-, hfree, hvol⟩
  refine ⟨congrArg geo hvol, ?_⟩
  rw [hvol]
  exact hv.newInode hfree hx

theorem mkino_sound (hg : fs.geo.Ok) (hflush : fs.geo.FlushSafe) (hv : fs.vol.Sound)
    (mode uid gid time : Nat) :
    Post (ext2fsMkino mode uid gid time) fs (fun _ fs' => fs'.geo = fs.geo ∧ fs'.vol.Sound)
      (fun _ _ => True) :=
  mkinoBase_sound hg hflush hv (Or.inr fun _ hk => newInode_slot mode uid gid time hk)

variable {mode b : Nat} {v : Vol} {target : List UInt8}

theorem mknod_sound (hg : fs.geo.Ok) (hflush : fs.geo.FlushSafe) (hv : fs.vol.Sound) {rdev : Nat}
    (uid gid time : Nat)
    (h : Special mode ∨ (encodeDev rdev).2 = 0) : Post (ext2fsMknod mode uid gid time rdev) fs
      (fun _ fs' => fs'.geo = fs.geo ∧ fs'.vol.Sound) (fun _ _ => True) := by
  apply mkinoBase_sound hg hflush hv
  rcases h with hspecial | hzero
  · left
    unfold iType
    rw [get16_put32_of_ne (by omega), newInode_mode]
    exact hspecial
  · right
    intro k hk
    rw [hzero]
    unfold iBlock
    by_cases hslot : k = (encodeDev rdev).1
    · rw [hslot, get32_put32]
      rfl
    · rw [get32_put32_of_ne (by omega)]
      exact newInode_slot mode uid gid time hk

/-! ### Symbolic links -/

theorem keeps_allocblk (bg : Nat) : Op.Keeps Ext2fs.geo (allocblk bg) := by
  have hfrom : ∀ m n, Op.Keeps Ext2fs.geo (allocblkFrom bg m n) := by
    intro m
    induction m with
    | zero => exact fun _ => Op.keeps_fail ⟨by decide, by decide⟩
    | succ m ih =>
      intro n
      refine Op.keeps_get_bind fun fs => ?_
      dsimp only
      split
      · exact ih _
      refine (keeps_geo (keeps_rdblk _)).bind fun bmp => ?_
      split
      · exact ih _
      · refine (keeps_geo (keeps_wrblk _ _)).bind fun _ =>
          Op.keeps_modify_bind (fun fs => count_geo (.inl rfl) (.inl rfl)) ?_
        exact (keeps_geo keeps_flushBgs).bind fun _ => (keeps_geo keeps_flushSbs).bind fun _ =>
          Op.keeps_pure _
  refine Op.keeps_get_bind fun fs => ?_
  split
  · exact Op.keeps_fail ⟨by decide, by decide⟩
  · exact hfrom _ _

-- an error code taken for a block number is not on the device
theorem blocksCount_le_code (hg : fs.geo.Ok) {code : Int} (h : -2 ^ 31 ≤ code ∧ code < 0) :
    fs.geo.blocksCount ≤ (code % 2 ^ 32).toNat % 2 ^ 32 := by
  have hbc := hg.blocksCount_le
  omega

theorem Vol.Sound.newInode_block {n : Nat} {x : Bytes} (hv : v.Sound)
    (hn : v.inUse n = false) (hdata : v.geo.IsData b) (hfree : v.marked b = false)
    (hb : b < 2 ^ 32) (hlive : iType x = S_IFREG ∨ iType x = S_IFDIR)
    (hzero : ∀ k < 15, iBlock x k = 0) (buf : Bytes) :
    ((((v.mark b true).setData b buf).use n).setInode n (put32 x 40 b)).Sound := by
  have hslot : ∀ k < 15, iBlock (trim 128 (put32 x 40 b)) k = if k = 0 then b else 0 := by
    intro k hk
    unfold iBlock
    rw [get32_trim _ (by omega)]
    split
    · rename_i hk0
      rw [hk0, get32_put32, Nat.mod_eq_of_lt hb]
    · rw [get32_put32_of_ne (by omega)]
      exact hzero k hk
  have hword : ∀ k < 15, iBlock (trim 128 x) k = 0 := by
    intro k hk
    rw [← hzero k hk]
    exact get32_trim _ (by omega)
  have htype : iType (trim 128 (put32 x 40 b)) = iType (trim 128 x) := by
    unfold iType
    rw [get16_trim _ (by omega), get16_trim _ (by omega), get16_put32_of_ne (by omega)]
  have hbefore : ((v.use n).setInode n x).Sound := hv.newInode hn (Or.inr hzero)
  have hvacant : ((v.use n).setInode n x).Vacant n [] 0 (.ino n) b := by
    refine ⟨⟨?_, ?_⟩, Nat.zero_le _, ref_nil n, ?_, hdata, hfree⟩
    · rw [setInode_inUse, use_inUse, if_pos rfl]
    · rw [setInode_inode, if_pos rfl]
      unfold iType at hlive ⊢
      rwa [get16_trim _ (by omega)]
    · rw [next_ino, setInode_inode, if_pos rfl, hword 0 (by omega)]
      rfl
  refine Linked.sound (v := (v.use n).setInode n x) (c := .ino n) (e := 0) (b := b)
    ⟨rfl, ?_, ?_, ?_, ?_, ?_⟩ hbefore hvacant ?_
  · intro m
    unfold Live
    rw [setInode_inode, setInode_inode]
    split
    · rw [htype]
      rfl
    · rfl
  · intro y hy
    change (v.mark b true).marked y = true
    rw [mark_marked]
    split
    · rfl
    · exact hy
  · change (v.mark b true).marked b = true
    rw [mark_marked, if_pos rfl]
  · rw [next_ino, if_pos (by omega), setInode_inode, if_pos rfl, hslot 0 (by omega),
      if_pos rfl, ptr_of_ne hdata.ne_zero]
  · intro d y hne hdb
    cases d with
    | ino m =>
      rw [next_ino, next_ino, setInode_inode, setInode_inode]
      split
      · rename_i hy
        split
        · rename_i hm
          have hy0 : y ≠ 0 := by
            intro h
            exact hne ⟨congrArg Node.ino hm, h⟩
          rw [hslot y hy, hword y hy, if_neg hy0]
        · rfl
      · rfl
    | blk q =>
      have hq : q ≠ b := fun h => hdb (congrArg Node.blk h)
      change ((v.mark b true).setData b buf).next (.blk q) y = v.next (.blk q) y
      rw [next_blk, setData_data, if_neg hq]
      rfl
  · -- the first slot leads to data
    intro y hfits
    exact absurd hfits (Nat.not_succ_le_zero 0)

/-- The targets of a symbolic link that do not end up as block numbers of a file. -/
def SymlinkOk (mode : Nat) (target : List UInt8) : Prop :=
  Special mode ∨ target = [] ∨ 60 < target.length

instance (mode : Nat) (target : List UInt8) : Decidable (SymlinkOk mode target) :=
  inferInstanceAs (Decidable (_ ∨ _))

theorem linkWord_nil (i : Nat) : linkWord (ofString []) i = 0 := by
  have hbyte : ∀ j, charWord (ofString [] j) = 0 := fun _ => rfl
  unfold linkWord
  simp only [hbyte, Nat.zero_mul, Nat.zero_mod, Nat.or_zero]

theorem symlink_short_sound (hg : fs.geo.Ok) (hflush : fs.geo.FlushSafe) (hv : fs.vol.Sound)
    (uid gid time : Nat) (h : Special mode ∨ target = []) :
    Post (mkinoBase (put32 (putSlots (newInode mode uid gid time)
        (linkWord (ofString target)) 15) 4 target.length)) fs
      (fun _ fs' => fs'.geo = fs.geo ∧ fs'.vol.Sound) (fun _ _ => True) := by
  apply mkinoBase_sound hg hflush hv
  rcases h with hspecial | rfl
  · left
    unfold iType
    rw [get16_put32_of_ne (by omega), putSlots_mode, newInode_mode]
    exact hspecial
  · right
    intro k hk
    unfold iBlock
    rw [get32_put32_of_ne (by omega)]
    change iBlock (putSlots _ _ 15) k = 0
    rw [putSlots_slot _ _ hk, linkWord_nil, Nat.zero_mod]

/-- The rest of `ext2fs_symlink`, after a block was allocated for the target. -/
theorem symlink_block_sound (hg : fs.geo.Ok) (hflush : fs.geo.FlushSafe) (hv : v.Sound)
    (hvol : fs.vol = v.mark b true) (hdata : v.geo.IsData b) (hfree : v.marked b = false)
    (mode uid gid time : Nat) (text : Bytes) :
    Post (do wrblk (b % 2 ^ 32) text; mkinoBase (put32 (newInode mode uid gid time) 40 b)) fs
      (fun _ fs' => fs'.geo = fs.geo ∧ fs'.vol.Sound) (fun _ _ => True) := by
  have hgeo : fs.geo = v.geo := congrArg geo hvol
  have hdata' : fs.geo.IsData b := by rwa [hgeo]
  have hlt : b < 2 ^ 32 := Nat.lt_trans hdata'.2.1 hg.mounted.blocksCount_lt
  rw [Nat.mod_eq_of_lt hlt]
  apply Post.bind_ok (run_wrblk hdata'.2.1 text)
  have hput := vol_putBlock_data hg hdata' text
  rw [hvol] at hput
  refine Post.mono (@mkinoBase_post (fs.putBlock b text) hg hflush _) ?_ fun _ _ h => h
  rintro n fs' ⟨-, hunused, hvol'⟩
  rw [hput] at hunused hvol'
  refine ⟨(congrArg geo hvol').trans hgeo.symm, ?_⟩
  rw [hvol']
  by_cases hspecial : Special mode
  · have hsound : ((v.mark b true).setData b text).Sound :=
      (hv.mark b).setData_unreferenced (fun m es hm hes => hv.ref_ne_of_free hfree hm hes) text
    apply hsound.newInode hunused
    left
    unfold iType
    rw [get16_put32_of_ne (by omega), newInode_mode]
    exact hspecial
  · apply hv.newInode_block hunused hdata hfree hlt
    · unfold iType
      rw [newInode_mode]
      unfold Special at hspecial
      omega
    · exact fun k hk => newInode_slot mode uid gid time hk

theorem symlink_long_sound (hg : fs.geo.Ok) (hflush : fs.geo.FlushSafe) (hv : fs.vol.Sound)
    (mode uid gid time : Nat) (hlong : ¬ target.length ≤ 60) :
    Post (ext2fsSymlink mode uid gid time target) fs
      (fun _ fs' => fs'.geo = fs.geo ∧ fs'.vol.Sound) (fun _ _ => True) := by
  unfold ext2fsSymlink
  rw [if_neg hlong]
  refine Post.attempt_bind ((allocblk_post hg hflush hv.spares 0).and (keeps_allocblk 0 fs)) ?_ ?_
    fun _ _ => trivial
  · rintro b fs₁ ⟨⟨hdata, hfree, hvol⟩, hgeo⟩
    have hpost := symlink_block_sound (geo_ok_of_vol hvol hg) (flushSafe_of_vol hvol hflush) hv
      hvol hdata hfree mode uid gid time (ofString target)
    rw [if_neg hdata.ne_zero]
    apply Post.get_bind
    split
    · exact Post.fault trivial
    · rwa [hgeo] at hpost
  · -- an error code is taken for a block behind the device
    rintro code fs₁ ⟨-, hgeo, hneg, hneg'⟩
    have hoff := blocksCount_le_code hg ⟨hneg, hneg'⟩
    dsimp only
    rw [if_neg (by omega)]
    apply Post.get_bind
    split
    · exact Post.fault trivial
    have hrun : (wrblk ((code % 2 ^ 32).toNat % 2 ^ 32) (ofString target)).run fs₁ =
        .error (.err (-ERANGE)) fs₁ := if_pos (by rw [hgeo]; exact hoff)
    unfold Post
    rw [Op.run_bind_of_error hrun]
    trivial

theorem symlink_sound (hg : fs.geo.Ok) (hflush : fs.geo.FlushSafe) (hv : fs.vol.Sound)
    (uid gid time : Nat) (h : SymlinkOk mode target) :
    Post (ext2fsSymlink mode uid gid time target) fs
      (fun _ fs' => fs'.geo = fs.geo ∧ fs'.vol.Sound) (fun _ _ => True) := by
  by_cases hshort : target.length ≤ 60
  · unfold ext2fsSymlink
    rw [if_pos hshort]
    apply symlink_short_sound hg hflush hv
    rcases h with hspecial | hnil | hlong
    · exact Or.inl hspecial
    · exact Or.inr hnil
    · omega
  · exact symlink_long_sound hg hflush hv mode uid gid time hshort

end Sound

end Ext2
