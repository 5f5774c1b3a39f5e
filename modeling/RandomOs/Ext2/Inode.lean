import RandomOs.Ext2.Alloc

/-!
# Inodes (`ext2.c`)

An inode in memory is the 128 bytes of `ext2_ino_t`.
-/

namespace Ext2

open Lib Bytes Kern

/-! ## Model -/

def S_IFREG : Nat := 0x8000
def S_IFDIR : Nat := 0x4000

-- `S_TYPE (i_mode)`
def iType (inod : Bytes) : Nat := get16 inod 0 &&& 0xF000

def iBlock (inod : Bytes) (k : Nat) : Nat := get32 inod (40 + 4 * k)

def Geo.getisize (g : Geo) (inod : Bytes) : Nat :=
  if g.largeFile then
    if get16 inod 0 &&& S_IFDIR ≠ 0 then get32 inod 4
    else 2 ^ 32 * get32 inod 108 + get32 inod 4
  else get32 inod 4

def inodeused (ino : Nat) : Op Ext2fs Bool := do
  let fs ← get
  let inobg := (ino - 1) / fs.geo.inodesPerGroup
  if fs.geo.nbgs ≤ inobg then Op.fail (-ERANGE)
  else if fs.geo.blocksCount ≤ fs.geo.inodeBitmap inobg then Op.fail (-ERANGE)
  else
    let res ← modbmp (fs.geo.inodeBitmap inobg) ((ino - 1) % fs.geo.inodesPerGroup) .get
    pure (res != 0)

def getino (ino : Nat) : Op Ext2fs Bytes := do
  if ino = 0 then Op.fail (-EINVAL)
  else
    let fs ← get
    let inobg := (ino - 1) / fs.geo.inodesPerGroup
    if fs.geo.nbgs ≤ inobg then Op.fail (-ERANGE)
    else
      let used ← inodeused ino
      if !used then Op.fail (-ENOENT)
      else if fs.geo.blocksCount ≤ fs.geo.inodeTable inobg then Op.fail (-ERANGE)
      else
        let byteoff := (ino - 1) % fs.geo.inodesPerGroup * fs.geo.inosz
        let inoblk := fs.geo.inodeTable inobg + byteoff / fs.geo.blocksz
        if fs.geo.blocksCount ≤ inoblk then Op.fail (-ERANGE)
        else
          let blk ← rdblk inoblk
          if fs.geo.blocksz < byteoff % fs.geo.blocksz + 128 then Op.fault
          else pure (trim 128 fun i => blk (byteoff % fs.geo.blocksz + i))

def flushInode (ino : Nat) (inod : Bytes) : Op Ext2fs Unit := do
  if ino = 0 then Op.fail (-EINVAL)
  else
    let used ← inodeused ino
    if !used then Op.fail (-ENOENT)
    else
      let fs ← get
      let inobg := (ino - 1) / fs.geo.inodesPerGroup
      let byteoff := (ino - 1) % fs.geo.inodesPerGroup * fs.geo.inosz
      let inoblk := (fs.geo.inodeTable inobg + byteoff / fs.geo.blocksz) % 2 ^ 32
      let blk ← rdblk inoblk
      if fs.geo.blocksz < byteoff % fs.geo.blocksz + 128 then Op.fault
      else wrblk inoblk (copy blk (byteoff % fs.geo.blocksz) inod 0 128)

/-- The loop of `mkino_base`, with `m` groups to go. -/
def mkinoBaseFrom (inode : Bytes) : (m grp : Nat) → Op Ext2fs Nat
  | 0, _ => Op.fail (-ENOSPC)
  | m + 1, grp => do
      let fs ← get
      if fs.freeInodes grp = 0 then mkinoBaseFrom inode m (grp + 1)
      else
        let bmp ← rdblk (fs.geo.inodeBitmap grp)
        match firstClear bmp (fs.geo.scanBits fs.geo.inodesPerGroup) with
        | none => mkinoBaseFrom inode m (grp + 1)
        | some idx =>
          wrblk (fs.geo.inodeBitmap grp) (setBit bmp idx)
          modify (·.takeInode grp)
          flushBgs
          flushSbs
          let ino := (grp * fs.geo.inodesPerGroup + idx + 1) % 2 ^ 32
          flushInode ino inode
          Op.asInt ino

def mkinoBase (inode : Bytes) : Op Ext2fs Nat := do
  let fs ← get
  mkinoBaseFrom inode fs.geo.nbgs 0

/-! ## Specifications -/

-- a masked bit is zero or not
theorem and_two_pow_bne_zero (x k : Nat) : (x &&& 2 ^ k != 0) = x.testBit k := by
  rw [Nat.and_two_pow]
  cases x.testBit k with
  | true =>
    rw [Bool.toNat_true, Nat.one_mul, bne_iff_ne]
    exact (Nat.two_pow_pos k).ne'
  | false => rw [Bool.toNat_false, Nat.zero_mul, bne_self_eq_false]

variable {n : Nat}

theorem inodeNo_of_grp_lt {g : Geo} (hg : g.Layout) (hpos : n ≠ 0)
    (hgrp : (n - 1) / g.inodesPerGroup < g.nbgs) : g.InodeNo n := by
  rw [Nat.div_lt_iff_lt_mul hg.inodesPerGroup_pos] at hgrp
  exact ⟨Nat.pos_of_ne_zero hpos, by omega⟩

/-- `inodeused` is the bit in the bitmap as it is read. -/
theorem run_inodeused_of_read {fs : Ext2fs} {bmp : Bytes} (hg : fs.geo.Layout)
    (hn : fs.geo.InodeNo n)
    (hread : (rdblk (fs.geo.inodeBitmap (fs.geo.inoGrp n))).run fs = .ok bmp fs) :
    (inodeused n).run fs = .ok (bit bmp (fs.geo.inoPos n)) fs := by
  have hgrp := hn.inoGrp_lt hg
  have hpos := Geo.inoPos_lt hg n
  have hle := hg.inodesPerGroup_le
  have hvalid : (Role.inodeBitmap (fs.geo.inoGrp n)).Valid fs.geo := hgrp
  have hdev : fs.geo.inodeBitmap (fs.geo.inoGrp n) < fs.geo.blocksCount := hg.onDevice _ hvalid
  have hget : (modbmp (fs.geo.inodeBitmap (fs.geo.inoGrp n)) (fs.geo.inoPos n) .get).run fs =
      .ok ((bmp (fs.geo.inoPos n / 8)).toNat &&& 2 ^ (fs.geo.inoPos n % 8)) fs := by
    rw [modbmp, Op.run_get_bind, if_neg (Nat.not_le_of_lt hdev), Op.run_bind_of_ok hread,
      if_neg (by omega)]
    rfl
  unfold inodeused
  rw [Op.run_get_bind]
  change (if fs.geo.nbgs ≤ fs.geo.inoGrp n then _ else _ : Op Ext2fs Bool).run fs = _
  rw [if_neg (Nat.not_le_of_lt hgrp)]
  change (if fs.geo.blocksCount ≤ fs.geo.inodeBitmap (fs.geo.inoGrp n) then _
    else _ : Op Ext2fs Bool).run fs = _
  rw [if_neg (Nat.not_le_of_lt hdev)]
  refine (Op.run_bind_of_ok hget _).trans ?_
  rw [and_two_pow_bne_zero]
  rfl

section Runs

variable {fs : Ext2fs} (hg : fs.geo.Ok)
include hg

theorem run_inodeused (hn : fs.geo.InodeNo n) : (inodeused n).run fs = .ok (fs.vol.inUse n) fs := by
  have hvalid : (Role.inodeBitmap (fs.geo.inoGrp n)).Valid fs.geo := hn.inoGrp_lt hg.toLayout
  rw [vol_inUse hn]
  exact run_inodeused_of_read hg.toLayout hn (hg.run_rdblk (hg.onDevice _ hvalid))

omit hg in
theorem run_getino_of_used {blk : Bytes} (hg : fs.geo.Layout) (hno : fs.geo.InodeNo n)
    (hused : (inodeused n).run fs = .ok true fs)
    (hread : (rdblk (fs.geo.inoBlk n)).run fs = .ok blk fs) :
    (getino n).run fs = .ok (trim 128 fun i => blk (fs.geo.inoOff n + i)) fs := by
  have hgrp := hno.inoGrp_lt hg
  have hdev := Geo.inoBlk_lt hg hno
  have htable : fs.geo.inodeTable (fs.geo.inoGrp n) < fs.geo.blocksCount :=
    Nat.lt_of_le_of_lt (Nat.le_add_right _ _) hdev
  unfold getino
  rw [if_neg hno.1.ne']
  change (if fs.geo.nbgs ≤ fs.geo.inoGrp n then _ else _ : Op Ext2fs Bytes).run fs = _
  rw [if_neg (Nat.not_le_of_lt hgrp)]
  refine (Op.run_bind_of_ok hused _).trans ?_
  rw [if_neg (by decide)]
  change (if fs.geo.blocksCount ≤ fs.geo.inodeTable (fs.geo.inoGrp n) then _
    else if fs.geo.blocksCount ≤ fs.geo.inoBlk n then _ else _ : Op Ext2fs Bytes).run fs = _
  rw [if_neg (Nat.not_le_of_lt htable), if_neg (Nat.not_le_of_lt hdev)]
  refine (Op.run_bind_of_ok hread _).trans ?_
  change (if fs.geo.blocksz < fs.geo.inoOff n + 128 then _ else _ : Op Ext2fs Bytes).run fs = _
  rw [if_neg (Nat.not_lt_of_le (Geo.inoOff_le hg n))]
  rfl

theorem run_getino (hn : fs.vol.inUse n = true) : (getino n).run fs = .ok (fs.vol.inode n) fs := by
  have hno := inodeNo_of_inUse hn
  have hused := run_inodeused hg hno
  rw [hn] at hused
  rw [vol_inode hno]
  exact run_getino_of_used hg.toLayout hno hused (hg.run_rdblk (Geo.inoBlk_lt hg.toLayout hno))

/-- `getino` fails, or yields the inode of a number in use. -/
theorem getino_post (n : Nat) :
    Op.Post (getino n) fs (fun x fs' => fs' = fs ∧ fs.vol.inUse n = true ∧ x = fs.vol.inode n)
      (fun _ fs' => fs' = fs) := by
  cases hused : fs.vol.inUse n with
  | true => exact Op.Post.of_ok (run_getino hg hused) ⟨rfl, rfl, rfl⟩
  | false =>
    unfold getino
    split
    · exact Op.Post.fail rfl
    rename_i hpos
    apply Op.Post.get_bind
    dsimp only
    split
    · exact Op.Post.fail rfl
    rename_i hgrp
    have hn := inodeNo_of_grp_lt hg.toLayout hpos (Nat.lt_of_not_le hgrp)
    have hrun := run_inodeused hg hn
    rw [hused] at hrun
    apply Op.Post.bind_ok hrun
    exact Op.Post.fail rfl

omit hg in
theorem run_flushInode_of_used {inod blk : Bytes} (hn : n ≠ 0)
    (hused : (inodeused n).run fs = .ok true fs)
    (hread : (rdblk (fs.geo.inoBlk n % 2 ^ 32)).run fs = .ok blk fs)
    (hdev : fs.geo.inoBlk n % 2 ^ 32 < fs.geo.blocksCount)
    (hoff : fs.geo.inoOff n + 128 ≤ fs.geo.blocksz) : (flushInode n inod).run fs =
      .ok () (fs.putBlock (fs.geo.inoBlk n % 2 ^ 32) (copy blk (fs.geo.inoOff n) inod 0 128)) := by
  unfold flushInode
  rw [if_neg hn, Op.run_bind_of_ok hused, if_neg (by decide)]
  change (rdblk (fs.geo.inoBlk n % 2 ^ 32) >>= fun blk =>
    if fs.geo.blocksz < fs.geo.inoOff n + 128 then Op.fault
    else wrblk (fs.geo.inoBlk n % 2 ^ 32) (copy blk (fs.geo.inoOff n) inod 0 128)).run fs = _
  rw [Op.run_bind_of_ok hread, if_neg (Nat.not_lt_of_le hoff), run_wrblk hdev]

/-- The inode of a number in use can always be written back. -/
theorem run_flushInode (hn : fs.vol.inUse n = true) (x : Bytes) :
    ∃ fs', (flushInode n x).run fs = .ok () fs' ∧ fs'.vol = fs.vol.setInode n x := by
  have hno := inodeNo_of_inUse hn
  have hdev := Geo.inoBlk_lt hg.toLayout hno
  have hoff := Geo.inoOff_le hg.toLayout n
  have hbc := hg.mounted.blocksCount_lt
  have hused := run_inodeused hg hno
  rw [hn] at hused
  have hmod : fs.geo.inoBlk n % 2 ^ 32 = fs.geo.inoBlk n := Nat.mod_eq_of_lt (by omega)
  have hread := hg.run_rdblk hdev
  rw [← hmod] at hread hdev
  refine ⟨_, run_flushInode_of_used hno.1.ne' hused hread hdev hoff, ?_⟩
  rw [hmod]
  exact vol_putBlock_inode hg hno x

theorem flushInode_post (hn : fs.vol.inUse n = true) (x : Bytes) {Q : Unit → Ext2fs → Prop}
    {E : Stop → Ext2fs → Prop} (hQ : ∀ fs', fs'.vol = fs.vol.setInode n x → Q () fs') :
    Op.Post (flushInode n x) fs Q E := by
  obtain ⟨fs', hrun, hvol⟩ := run_flushInode hg hn x
  exact Op.Post.of_ok hrun (hQ fs' hvol)

end Runs

/-- The new inode had a free number. -/
theorem mkinoBaseFrom_post {fs : Ext2fs} (hg : fs.geo.Ok) (hflush : fs.geo.FlushSafe)
    (inode : Bytes) {m grp : Nat} (hm : grp + m = fs.geo.nbgs) :
    Op.Post (mkinoBaseFrom inode m grp) fs
      (fun n fs' => fs.geo.InodeNo n ∧ fs.vol.inUse n = false ∧
        fs'.vol = (fs.vol.use n).setInode n inode) (fun _ _ => True) := by
  induction m generalizing grp with
  | zero => exact Op.Post.fail trivial
  | succ m ih =>
    apply Op.Post.get_bind
    have hgrp : grp < fs.geo.nbgs := by omega
    have hvalid : (Role.inodeBitmap grp).Valid fs.geo := hgrp
    have hdev : fs.geo.inodeBitmap grp < fs.geo.blocksCount := hg.onDevice _ hvalid
    split
    · exact ih (by omega)
    apply Op.Post.bind_ok (hg.run_rdblk hdev)
    split
    · exact ih (by omega)
    rename_i idx hidx
    obtain ⟨hlt, hclear⟩ := firstClear_some hidx
    have hlt' : idx < fs.geo.inodesPerGroup := Nat.lt_of_lt_of_le hlt (Geo.scanBits_le _ _)
    obtain ⟨hn, hgrpOf, hposOf⟩ := Geo.inodeNo_of_grp hg.toLayout hgrp hlt'
    have hmod : (grp * fs.geo.inodesPerGroup + idx + 1) % 2 ^ 32 =
        grp * fs.geo.inodesPerGroup + idx + 1 :=
      Nat.mod_eq_of_lt (Nat.lt_of_le_of_lt hn.2 hg.inodes_lt)
    rw [hmod]
    generalize grp * fs.geo.inodesPerGroup + idx + 1 = n at *
    subst hgrpOf hposOf
    have hvol : ((fs.putBlock (fs.geo.inodeBitmap (fs.geo.inoGrp n))
        (setBit (fs.block (fs.geo.inodeBitmap (fs.geo.inoGrp n)))
          (fs.geo.inoPos n))).takeInode (fs.geo.inoGrp n)).vol = fs.vol.use n := by
      rw [vol_takeInode]
      apply vol_putBlock_inodeBitmap hg hn
      intro j
      rw [bit_setBit]
      by_cases hj : j = fs.geo.inoPos n
      · simp [hj]
      · simp [hj]
    have hunused : fs.vol.inUse n = false := by
      rw [vol_inUse hn, hclear]
    apply Op.Post.bind_ok (run_wrblk hdev _)
    apply Op.Post.modify_bind
    refine flushes_bind hvol hg hflush ?_ fun _ _ _ => trivial
    intro fs₂ h₂
    have hused : fs₂.vol.inUse n = true := by
      rw [h₂, Vol.use_inUse, if_pos rfl]
    refine Op.Post.bind (flushInode_post (geo_ok_of_vol h₂ hg) hused inode
      (Q := fun _ fs' => fs'.vol = (fs.vol.use n).setInode n inode)
      (E := fun _ _ => True) fun fs' h => by rw [h, h₂]) ?_ fun _ _ _ => trivial
    intro _ fs₃ h₃
    exact Op.Post.asInt (fun _ => ⟨hn, hunused, h₃⟩) fun _ => trivial

theorem mkinoBase_post {fs : Ext2fs} (hg : fs.geo.Ok) (hflush : fs.geo.FlushSafe)
    (inode : Bytes) :
    Op.Post (mkinoBase inode) fs
      (fun n fs' => fs.geo.InodeNo n ∧ fs.vol.inUse n = false ∧
        fs'.vol = (fs.vol.use n).setInode n inode) (fun _ _ => True) := by
  apply Op.Post.get_bind
  exact mkinoBaseFrom_post hg hflush inode (Nat.zero_add _)

end Ext2
