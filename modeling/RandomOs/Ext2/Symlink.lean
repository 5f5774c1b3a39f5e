import RandomOs.Ext2.Create
import RandomOs.Ext2.Trunc
import RandomOs.Ext2.WriteRead

/-!
# Symbolic links (`ext2.c`)

`ext2fs_symlink` packs a target of at most 60 bytes into the fifteen slots of the inode, four bytes
a slot, but slot `i` starts at byte `i`: only the first eighteen bytes are stored.  The bytes are
`char`s, so one above 0x7F sets every bit of the bytes packed before it.  A longer target goes to a
block, with `i_size` left at 0.
-/

namespace Ext2

open Lib Bytes Kern

/-! ## Model -/

/-- `dbuf` after slot `i` of the loop in `ext2fs_readsym`. -/
def unpackSlot (dbuf : Bytes) (i w : Nat) : Bytes := fun j =>
  if j = i then UInt8.ofNat (w / 2 ^ 24)
  else if j = i + 1 then UInt8.ofNat (w / 2 ^ 16)
  else if j = i + 2 then UInt8.ofNat (w / 2 ^ 8)
  else if j = i + 3 then UInt8.ofNat w
  else dbuf j

def unpackSlots (inod : Bytes) : Nat → Bytes
  | 0 => zero
  | k + 1 => unpackSlot (unpackSlots inod k) k (iBlock inod k)

-- `buf[n] = '\0'`
def terminate (buf : Bytes) (n : Nat) : Bytes := fun j => if j = n then 0 else buf j

/-- The length and the buffer; `stack` is what the unwritten local array holds. -/
def ext2fsReadsym (ino buflen : Nat) (buf stack : Bytes) : Op Ext2fs (Nat × Bytes) := do
  let inod ← getino ino
  let size := get32 inod 4
  if (buflen + (2 ^ 64 - 1)) % 2 ^ 64 < size then Op.fail (-ETOOSMALL)
  else if size ≤ 60 then
    pure (size, terminate (copy buf 0 (unpackSlots inod 15) 0 size) size)
  else
    let fs ← get
    let data ← rdblk (iBlock inod 0)
    -- the block is overwritten from a local array that was never filled
    if fs.geo.blocksz < size then Op.fault
    else
      let buf := copy buf 0 data 0 fs.geo.blocksz
      pure (size, terminate (copy buf 0 stack 0 size) size)

/-- Reading the link gives the target and its length, whatever the buffers held. -/
def ReadsBack (n : Nat) (target : List UInt8) (fs : Ext2fs) : Prop :=
  ∀ buflen buf stack, target.length < buflen → buflen < 2 ^ 64 →
    ∃ out, (ext2fsReadsym n buflen buf stack).run fs = .ok (target.length, out) fs ∧
      (∀ j < target.length, out j = ofString target j) ∧ out target.length = 0

/-- What survives the packing: bytes 0 to 17, and a byte above 0x7F only behind bytes 0xFF. -/
def Packs (target : List UInt8) : Prop :=
  target.length ≤ 18 ∧ ∀ k < target.length, 128 ≤ (target.getD k 0).toNat →
    ∀ j < k, k ≤ j + 3 → target.getD j 0 = 255

instance (target : List UInt8) : Decidable (Packs target) := inferInstanceAs (Decidable (_ ∧ _))

/-! ## Packed words -/

-- the bits that a sign extension adds to a byte packed before this one
def smear (c : UInt8) : Nat := if c.toNat < 128 then 0 else 255

variable {b k j : Nat} {inod : Bytes} {target : List UInt8}

theorem or_smear (hb : b < 2 ^ 8) (c : UInt8) :
    b ||| smear c = if c.toNat < 128 then b else 255 := by
  have hall : ∀ b < 2 ^ 8, b ||| 255 = 255 := by decide +kernel
  unfold smear
  split
  · exact Nat.or_zero b
  · exact hall b hb

theorem or_smear_lt (hb : b < 2 ^ 8) (c : UInt8) : b ||| smear c < 2 ^ 8 := by
  rw [or_smear hb]
  split
  · exact hb
  · decide

-- a byte is left alone by sign extensions exactly if there are none, or it has all bits set
theorem or_smear_eq_iff (hb : b < 2 ^ 8) (c d e : UInt8) :
    b ||| smear c ||| smear d ||| smear e = b ↔
      (128 ≤ c.toNat ∨ 128 ≤ d.toNat ∨ 128 ≤ e.toNat → b = 255) := by
  rw [or_smear (or_smear_lt (or_smear_lt hb c) d), or_smear (or_smear_lt hb c), or_smear hb]
  split_ifs <;> omega

theorem byte_or (x y n : Nat) :
    (x ||| y) / 2 ^ n % 2 ^ 8 = x / 2 ^ n % 2 ^ 8 ||| y / 2 ^ n % 2 ^ 8 := by
  rw [Nat.or_div_two_pow, Nat.or_mod_two_pow]

theorem charWord_cases (c : UInt8) :
    (charWord c = c.toNat ∧ smear c = 0) ∨ (charWord c = c.toNat + 0xFFFFFF00 ∧ smear c = 255) := by
  unfold charWord smear
  split
  · exact Or.inl ⟨rfl, rfl⟩
  · exact Or.inr ⟨rfl, rfl⟩

theorem linkWord_lt (buf : Bytes) (i : Nat) : linkWord buf i < 2 ^ 32 := by
  have hword : ∀ c : UInt8, charWord c < 2 ^ 32 := by
    intro c
    have hc := c.toNat_lt
    rcases charWord_cases c with ⟨h, -⟩ | ⟨h, -⟩ <;> omega
  have hmod : ∀ x, x % 2 ^ 32 < 2 ^ 32 := fun x => Nat.mod_lt _ (by omega)
  exact Nat.or_lt_two_pow (Nat.or_lt_two_pow (Nat.or_lt_two_pow (hmod _) (hmod _)) (hmod _))
    (hword _)

-- byte `m` of a character that was shifted to byte `k`
theorem charWord_byte (c : UInt8) {m : Nat} (hk : k < 4) (hm : m < 4) :
    charWord c * 2 ^ (8 * k) % 2 ^ 32 / 2 ^ (8 * m) % 2 ^ 8 =
      if m < k then 0 else if m = k then c.toNat else smear c := by
  have hc := c.toNat_lt
  have hcase := charWord_cases c
  interval_cases k <;> interval_cases m <;>
    simp only [Nat.reduceMul, Nat.reduceLT, Nat.reduceEqDiff, if_true, if_false,
      lt_self_iff_false] <;> omega

theorem linkWord_byte (buf : Bytes) (i : Nat) {m : Nat} (hm : m < 4) :
    linkWord buf i / 2 ^ (8 * m) % 2 ^ 8 =
      ((if m < 3 then 0 else if m = 3 then (buf i).toNat else smear (buf i)) |||
        (if m < 2 then 0 else if m = 2 then (buf (i + 1)).toNat else smear (buf (i + 1))) |||
        (if m < 1 then 0 else if m = 1 then (buf (i + 2)).toNat else smear (buf (i + 2)))) |||
        (if m < 0 then 0 else if m = 0 then (buf (i + 3)).toNat else smear (buf (i + 3))) := by
  have h0 := charWord_byte (buf (i + 3)) (k := 0) (by omega) hm
  have hlt : charWord (buf (i + 3)) < 2 ^ 32 := by
    have hc := (buf (i + 3)).toNat_lt
    rcases charWord_cases (buf (i + 3)) with ⟨h, -⟩ | ⟨h, -⟩ <;> omega
  rw [Nat.pow_zero, Nat.mul_one, Nat.mod_eq_of_lt hlt] at h0
  rw [linkWord, byte_or, byte_or, byte_or, h0, ← charWord_byte (buf i) (k := 3) (by omega) hm,
    ← charWord_byte (buf (i + 1)) (k := 2) (by omega) hm,
    ← charWord_byte (buf (i + 2)) (k := 1) (by omega) hm]

/-! ## Unpacking -/

theorem unpackSlots_lt (inod : Bytes) (hj : j < k) :
    unpackSlots inod k j = UInt8.ofNat (iBlock inod j / 2 ^ 24) := by
  induction k with
  | zero => omega
  | succ k ih =>
    unfold unpackSlots unpackSlot
    by_cases hjk : j = k
    · rw [if_pos hjk, hjk]
    · rw [if_neg hjk, if_neg (by omega), if_neg (by omega), if_neg (by omega)]
      exact ih (by omega)

/-- The first eighteen bytes come back, each smeared by the ones packed behind it. -/
theorem unpackSlots_toNat {buf : Bytes} (hslot : ∀ i < 15, iBlock inod i = linkWord buf i)
    (hj : j < 18) :
    (unpackSlots inod 15 j).toNat = (buf j).toNat ||| smear (trim 18 buf (j + 1)) |||
      smear (trim 18 buf (j + 2)) ||| smear (trim 18 buf (j + 3)) := by
  have hin : ∀ i < 18, trim 18 buf i = buf i := fun i hi => trim_apply buf hi
  have hout : ∀ i, smear (trim 18 buf (i + 18)) = 0 := by
    intro i
    rw [trim_of_ge buf (by omega)]
    rfl
  -- bytes 0 to 14 are the tops of the slots, the last three the rest of slot 14
  by_cases hslots : j < 15
  · rw [unpackSlots_lt inod hslots, hslot j hslots, hin _ (by omega), hin _ (by omega),
      hin _ (by omega), UInt8.toNat_ofNat']
    exact linkWord_byte buf j (m := 3) (by omega)
  have hlast : unpackSlots inod 15 = unpackSlot (unpackSlots inod 14) 14 (linkWord buf 14) := by
    rw [← hslot 14 (by omega)]
    rfl
  rw [hlast]
  obtain rfl | rfl | rfl : j = 15 ∨ j = 16 ∨ j = 17 := by omega
  · rw [hout 0, Nat.or_zero]
    refine (UInt8.toNat_ofNat' ..).trans ((linkWord_byte buf 14 (m := 2) (by omega)).trans ?_)
    rw [if_pos (by omega), Nat.zero_or]
    rfl
  · rw [hout 0, hout 1, Nat.or_zero, Nat.or_zero]
    refine (UInt8.toNat_ofNat' ..).trans ((linkWord_byte buf 14 (m := 1) (by omega)).trans ?_)
    rw [if_pos (by omega), if_pos (by omega), Nat.zero_or, Nat.zero_or]
    rfl
  · rw [hout 0, hout 1, hout 2, Nat.or_zero, Nat.or_zero, Nat.or_zero]
    refine (UInt8.toNat_ofNat' ..).trans ?_
    have hword := linkWord_byte buf 14 (m := 0) (by omega)
    rw [Nat.pow_zero, Nat.div_one] at hword
    rw [hword, if_pos (by omega), if_pos (by omega), if_pos (by omega), Nat.zero_or, Nat.zero_or,
      Nat.zero_or]
    rfl

theorem unpackSlots_eq_iff {buf : Bytes} (hslot : ∀ i < 15, iBlock inod i = linkWord buf i)
    (hj : j < 18) : unpackSlots inod 15 j = buf j ↔
      ∀ k, j < k → k ≤ j + 3 → k < 18 → 128 ≤ (buf k).toNat → buf j = 255 := by
  have hin : ∀ i, 128 ≤ (trim 18 buf i).toNat ↔ i < 18 ∧ 128 ≤ (buf i).toNat := by
    intro i
    by_cases hi : i < 18
    · rw [trim_apply buf hi]
      exact (and_iff_right hi).symm
    · rw [trim_of_ge buf (by omega)]
      exact iff_of_false (by decide) (fun h => hi h.1)
  have hfull : (buf j).toNat = 255 ↔ buf j = 255 := UInt8.toNat_inj (b := 255)
  rw [← UInt8.toNat_inj, unpackSlots_toNat hslot hj, or_smear_eq_iff (buf j).toNat_lt, hin, hin,
    hin, hfull]
  constructor
  · intro h k hjk hk hlt hhigh
    apply h
    obtain rfl | rfl | rfl : k = j + 1 ∨ k = j + 2 ∨ k = j + 3 := by omega
    · exact Or.inl ⟨hlt, hhigh⟩
    · exact Or.inr (Or.inl ⟨hlt, hhigh⟩)
    · exact Or.inr (Or.inr ⟨hlt, hhigh⟩)
  · rintro h (⟨hlt, hhigh⟩ | ⟨hlt, hhigh⟩ | ⟨hlt, hhigh⟩)
    · exact h _ (by omega) (by omega) hlt hhigh
    · exact h _ (by omega) (by omega) hlt hhigh
    · exact h _ (by omega) (by omega) hlt hhigh

-- a target comes back as a whole exactly if it packs
theorem unpackSlots_target_iff (hslot : ∀ i < 15, iBlock inod i = linkWord (ofString target) i)
    (hnul : ∀ c ∈ target, c ≠ 0) :
    (∀ j < target.length, unpackSlots inod 15 j = ofString target j) ↔ Packs target := by
  have hbeyond : ∀ k, 128 ≤ (ofString target k).toNat → k < target.length := by
    intro k hk
    by_contra hlen
    rw [ofString, List.getD_eq_default _ _ (by omega)] at hk
    exact absurd hk (by decide)
  constructor
  · intro h
    have hlen : target.length ≤ 18 := by
      by_contra hlong
      have h18 : 18 < target.length := by omega
      have hback := h 18 h18
      rw [ofString, List.getD_eq_getElem _ _ h18] at hback
      exact hnul _ (List.getElem_mem h18) hback.symm
    refine ⟨hlen, fun k hk hhigh j hjk hkj => ?_⟩
    exact (unpackSlots_eq_iff hslot (by omega)).1 (h j (by omega)) k hjk hkj (by omega) hhigh
  · rintro ⟨hlen, h⟩ j hj
    apply (unpackSlots_eq_iff hslot (by omega)).2
    intro k hjk hkj _ hhigh
    exact h k (hbeyond k hhigh) hhigh j hjk hkj

/-! ## The round trip -/

/-- What `ext2fs_symlink` leaves in the inode. -/
structure LinkInode (target : List UInt8) (x : Bytes) : Prop where
  short : target.length ≤ 60 →
    get32 x 4 = target.length ∧ ∀ i < 15, iBlock x i = linkWord (ofString target) i
  long : 60 < target.length → get32 x 4 = 0

theorem newInode_size (mode uid gid time : Nat) : get32 (newInode mode uid gid time) 4 = 0 := by
  unfold newInode
  rw [get32_put16_of_ne (by omega), get32_put32_of_ne (by omega), get32_put32_of_ne (by omega),
    get32_put32_of_ne (by omega), get32_put16_of_ne (by omega), get32_put16_of_ne (by omega),
    get32_zero]

section RoundTrip

variable {fs : Ext2fs} {n : Nat}

/-- The inode and its bit in the bitmap are in different sectors, as far as sector numbers have 32
bits. -/
def Geo.InodeApart (g : Geo) (n : Nat) : Prop :=
  g.lands (g.inoBlk n) ≠ g.lands (g.inodeBitmap (g.inoGrp n))

-- on a device whose sector numbers fit 32 bits this is no condition
theorem Geo.Ok.inodeApart {g : Geo} (hg : g.Ok) (hn : g.InodeNo n) : g.InodeApart n := by
  have hspb : 0 < g.spb := by
    have := hg.mounted.spb_mul
    have := hg.mounted.blocksz_ge
    omega
  have hlands : ∀ b < g.blocksCount, g.lands b = b := by
    intro b hb
    have hlt : b * g.spb < g.blocksCount * g.spb := Nat.mul_lt_mul_of_pos_right hb hspb
    unfold Geo.lands
    rw [Nat.mod_eq_of_lt (Nat.lt_of_lt_of_le hlt hg.sectors), Nat.mul_div_cancel _ hspb]
  have htable := Geo.inodeTable_valid hg.toLayout hn
  have hbitmap : (Role.inodeBitmap (g.inoGrp n)).Valid g := hn.inoGrp_lt hg.toLayout
  have hdev : g.inodeBitmap (g.inoGrp n) < g.blocksCount := hg.onDevice _ hbitmap
  intro heq
  rw [hlands _ (Geo.inoBlk_lt hg.toLayout hn), hlands _ hdev] at heq
  cases hg.apart _ _ htable hbitmap heq

-- a block in other sectors does not touch the bit
theorem run_inodeused_putBlock (hg : fs.geo.Layout) (hn : fs.geo.InodeNo n) {b : Nat}
    (hapart : fs.geo.lands b ≠ fs.geo.lands (fs.geo.inodeBitmap (fs.geo.inoGrp n)))
    (hused : (inodeused n).run fs = .ok true fs) (buf : Bytes) :
    (inodeused n).run (fs.putBlock b buf) = .ok true (fs.putBlock b buf) := by
  have hspb := hg.mounted.spb_mul
  have hpos := Geo.inoPos_lt hg n
  have hle := hg.inodesPerGroup_le
  have hvalid : (Role.inodeBitmap (fs.geo.inoGrp n)).Valid fs.geo := hn.inoGrp_lt hg
  have hdev : fs.geo.inodeBitmap (fs.geo.inoGrp n) < fs.geo.blocksCount := hg.onDevice _ hvalid
  have hsame : blockRead (fs.putBlock b buf).disk
      (fs.geo.inodeBitmap (fs.geo.inoGrp n) * fs.geo.spb % 2 ^ 32) (fs.geo.inoPos n / 8) =
      blockRead fs.disk (fs.geo.inodeBitmap (fs.geo.inoGrp n) * fs.geo.spb % 2 ^ 32)
        (fs.geo.inoPos n / 8) := by
    refine putBlock_disk_of_not_spans (fun hspans => hapart ?_) buf
    rw [← hg.mounted.div_of_spans hspans]
    exact hg.mounted.div_of_spans ⟨by omega, by omega⟩
  rw [run_inodeused_of_read hg hn (run_rdblk hdev)] at hused
  injection hused with hbit
  refine (@run_inodeused_of_read n (fs.putBlock b buf) _ hg hn (run_rdblk hdev)).trans ?_
  unfold bit at hbit ⊢
  rw [putBlock_geo, hsame, hbit]

/-- The last thing that a new inode costs is the write of its block, so that it is read back
whatever the flushes before it have overwritten. -/
theorem getino_of_flushInode (hg : fs.geo.Layout) (hapart : fs.geo.InodeApart n) {fs' : Ext2fs}
    {x : Bytes} (hrun : (flushInode n x).run fs = .ok () fs') :
    (getino n).run fs' = .ok (trim 128 x) fs' := by
  obtain ⟨hn, hused, hgrp, rfl⟩ := (flushInode_writes fs n x).ok hrun
  have hno := inodeNo_of_grp_lt hg hn hgrp
  have hdev := Geo.inoBlk_lt hg hno
  have hoff := Geo.inoOff_le hg n
  have hspb := hg.mounted.spb_mul
  have hbc := hg.mounted.blocksCount_lt
  rw [Nat.mod_eq_of_lt (show fs.geo.inoBlk n < 2 ^ 32 by omega)]
  generalize blockRead fs.disk (fs.geo.inoBlk n * fs.geo.spb % 2 ^ 32) = blk
  have hused' := run_inodeused_putBlock hg hno hapart hused
    (copy blk (fs.geo.inoOff n) x 0 128)
  rw [@run_getino_of_used n (fs.putBlock _ _) _ hg hno hused' (run_rdblk hdev)]
  refine congrArg (EStateM.Result.ok · _) (trim_congr fun i hi => ?_)
  have hwritten : blockRead (fs.putBlock (fs.geo.inoBlk n)
      (copy blk (fs.geo.inoOff n) x 0 128)).disk (fs.geo.inoBlk n * fs.geo.spb % 2 ^ 32)
      (fs.geo.inoOff n + i) = copy blk (fs.geo.inoOff n) x 0 128 (0 + (fs.geo.inoOff n + i)) :=
    copy_apply (by omega)
  rw [putBlock_geo, hwritten, Nat.zero_add, copy_apply hi, Nat.zero_add]

theorem mkinoBaseFrom_getino (hg : fs.geo.Layout) (inode : Bytes) (m grp : Nat) :
    Op.Post (mkinoBaseFrom inode m grp) fs (fun n fs' => fs.geo.InodeApart n →
      (getino n).run fs' = .ok (trim 128 inode) fs') (fun _ _ => True) := by
  induction m generalizing grp with
  | zero => exact Op.Post.fail trivial
  | succ m ih =>
    apply Op.Post.get_bind
    split
    · exact ih (grp + 1)
    by_cases hdev : fs.geo.inodeBitmap grp < fs.geo.blocksCount
    swap
    · have hfail := run_rdblk_of_ge (Nat.le_of_not_lt hdev)
      exact Op.Post.of_error (Op.run_bind_of_error hfail _) trivial
    apply Op.Post.bind_ok (run_rdblk hdev)
    split
    · exact ih (grp + 1)
    apply Op.Post.bind_ok (run_wrblk hdev _)
    apply Op.Post.modify_bind
    refine Op.Post.bind ((keeps_geo keeps_flushBgs).post _) ?_ fun _ _ _ => trivial
    intro _ fs₁ h₁
    refine Op.Post.bind ((keeps_geo keeps_flushSbs).post _) ?_ fun _ _ _ => trivial
    intro _ fs₂ h₂
    have hgeo : fs₂.geo = fs.geo := h₂.trans (h₁.trans (count_geo (.inr rfl) (.inr rfl)))
    have hflush : ∀ ino, Op.Post (flushInode ino inode >>= fun _ => Op.asInt ino) fs₂
        (fun n fs' => fs.geo.InodeApart n → (getino n).run fs' = .ok (trim 128 inode) fs')
        (fun _ _ => True) := by
      intro ino
      cases hrun : (flushInode ino inode).run fs₂ with
      | error e fs₃ => exact Op.Post.of_error (Op.run_bind_of_error hrun _) trivial
      | ok _ fs₃ =>
        apply Op.Post.bind_ok hrun
        refine Op.Post.asInt (fun _ hapart => ?_) fun _ => trivial
        rw [← hgeo] at hapart hg
        exact getino_of_flushInode hg hapart hrun
    exact hflush _

theorem mkinoBase_getino (hg : fs.geo.Layout) (inode : Bytes) :
    Op.Post (mkinoBase inode) fs (fun n fs' => fs.geo.InodeApart n →
      (getino n).run fs' = .ok (trim 128 inode) fs') (fun _ _ => True) :=
  Op.Post.get_bind (mkinoBaseFrom_getino hg inode _ _)

/-- What a call that returns `n` leaves.  A long target whose block is block 0 has no inode. -/
def Made (target : List UInt8) (n : Nat) (fs : Ext2fs) : Prop :=
  n = 0 ∧ 60 < target.length ∨ ∃ x, (getino n).run fs = .ok x fs ∧ LinkInode target x

theorem symlink_getino (hg : fs.geo.Layout) (mode uid gid time : Nat) (target : List UInt8) :
    Op.Post (ext2fsSymlink mode uid gid time target) fs
      (fun n fs' => fs.geo.InodeApart n → Made target n fs') (fun _ _ => True) := by
  unfold ext2fsSymlink
  dsimp only
  split
  · rename_i hshort
    refine Op.Post.mono (mkinoBase_getino hg _) ?_ fun _ _ h => h
    intro n fs' h hapart
    refine Or.inr ⟨_, h hapart, fun _ => ⟨?_, fun i hi => ?_⟩, fun hlong => by omega⟩
    · rw [get32_trim _ (by omega), get32_put32, Nat.mod_eq_of_lt (by omega)]
    unfold iBlock
    rw [get32_trim _ (by omega), get32_put32_of_ne (by omega)]
    refine (putSlots_slot _ _ hi).trans ?_
    exact Nat.mod_eq_of_lt (linkWord_lt _ _)
  · rename_i hshort
    have hlong : 60 < target.length := Nat.lt_of_not_le hshort
    -- the block number may also be an error code
    have hrest : ∀ blk fs₁, fs₁.geo = fs.geo → Op.Post (if blk = 0 then pure 0 else do
        let fs ← get
        if fs.geo.blocksz < target.length then Op.fault
        else
          wrblk (blk % 2 ^ 32) (ofString target)
          mkinoBase (put32 (newInode mode uid gid time) 40 blk)) fs₁
        (fun n fs' => fs.geo.InodeApart n → Made target n fs') (fun _ _ => True) := by
      intro blk fs₁ h₁
      split
      · exact Op.Post.pure fun _ => Or.inl ⟨rfl, hlong⟩
      apply Op.Post.get_bind
      split
      · exact Op.Post.fault trivial
      refine Op.Post.bind ((keeps_geo (keeps_wrblk _ _)).post _) ?_ fun _ _ _ => trivial
      intro _ fs₂ h₂
      rw [← h₁, ← h₂] at hg ⊢
      refine Op.Post.mono (mkinoBase_getino hg _) ?_ fun _ _ h => h
      intro n fs' h hapart
      refine Or.inr ⟨_, h hapart, fun hle => by omega, fun _ => ?_⟩
      rw [get32_trim _ (by omega)]
      exact newInode_size mode uid gid time
    refine Op.Post.attempt_bind ((keeps_allocblk 0).post fs) ?_ ?_ fun _ _ => trivial
    · exact fun b fs₁ h₁ => hrest b fs₁ h₁
    · exact fun code fs₁ h₁ => hrest _ fs₁ h₁

theorem readsym_short {x : Bytes} {buflen : Nat} (hget : (getino n).run fs = .ok x fs)
    (hsize : get32 x 4 ≤ 60) (hlt : get32 x 4 < buflen) (hbuf : buflen < 2 ^ 64)
    (buf stack : Bytes) : (ext2fsReadsym n buflen buf stack).run fs = .ok (get32 x 4,
      terminate (copy buf 0 (unpackSlots x 15) 0 (get32 x 4)) (get32 x 4)) fs := by
  unfold ext2fsReadsym
  rw [Op.run_bind_of_ok hget]
  rw [if_neg (by omega), if_pos hsize]
  rfl

theorem readsBack_iff {x : Bytes} (hget : (getino n).run fs = .ok x fs)
    (hlink : LinkInode target x) (hpos : 0 < target.length)
    (hmax : target.length < 2 ^ 32) (hnul : ∀ c ∈ target, c ≠ 0) :
    ReadsBack n target fs ↔ Packs target := by
  by_cases hshort : target.length ≤ 60
  · obtain ⟨hsize, hslot⟩ := hlink.short hshort
    rw [← unpackSlots_target_iff hslot hnul]
    have hrun : ∀ buflen buf stack, target.length < buflen → buflen < 2 ^ 64 →
        (ext2fsReadsym n buflen buf stack).run fs = .ok (target.length, terminate
          (copy buf 0 (unpackSlots x 15) 0 target.length) target.length) fs := by
      intro buflen buf stack hlt hbuf
      have h := readsym_short hget (by omega) (by omega) hbuf buf stack
      rwa [hsize] at h
    have hout : ∀ buf j, j < target.length →
        terminate (copy buf 0 (unpackSlots x 15) 0 target.length)
          target.length j = unpackSlots x 15 j := by
      intro buf j hj
      have h : copy buf 0 (unpackSlots x 15) 0 target.length (0 + j) =
          unpackSlots x 15 (0 + j) := copy_apply hj
      rw [Nat.zero_add] at h
      rw [terminate, if_neg (by omega), h]
    constructor
    · intro h j hj
      obtain ⟨out, hread, hbytes, -⟩ := h (target.length + 1) zero zero (by omega) (by omega)
      rw [hrun _ _ _ (by omega) (by omega)] at hread
      cases hread
      rw [← hout zero j hj]
      exact hbytes j hj
    · intro h buflen buf stack hlt hbuf
      refine ⟨_, hrun buflen buf stack hlt hbuf, fun j hj => ?_, if_pos rfl⟩
      rw [hout buf j hj]
      exact h j hj
  · -- the size of a long link is 0, and so is what is read
    have hsize := hlink.long (by omega)
    refine iff_of_false (fun h => ?_) (fun h => by have := h.1; omega)
    obtain ⟨out, hread, -⟩ := h (target.length + 1) zero zero (by omega) (by omega)
    rw [readsym_short hget (by omega) (by omega) (by omega), hsize] at hread
    injection hread with hpair
    have hlen : 0 = target.length := congrArg Prod.fst hpair
    omega

end RoundTrip

/-- A link that was made reads back exactly if its target packs. -/
theorem symlink_readsym_iff {fs fs' : Ext2fs} (hg : fs.geo.Layout) {mode uid gid time n : Nat}
    {target : List UInt8} (hpos : 0 < target.length) (hlt : target.length < fs.geo.blocksz)
    (hnul : ∀ c ∈ target, c ≠ 0)
    (hrun : (ext2fsSymlink mode uid gid time target).run fs = .ok n fs')
    (hapart : fs.geo.InodeApart n) : ReadsBack n target fs' ↔ Packs target := by
  have hblocksz := hg.blocksz_le
  rcases (symlink_getino hg mode uid gid time target).ok hrun hapart with
    ⟨rfl, hlong⟩ | ⟨x, hget, hlink⟩
  · -- block 0 was taken for an error, and there is no inode 0
    refine iff_of_false (fun h => ?_) fun h => by have := h.1; omega
    obtain ⟨out, hread, -⟩ := h (target.length + 1) zero zero (by omega) (by omega)
    cases hread
  · exact readsBack_iff hget hlink hpos (by omega) hnul

-- `decide` on the quantifier itself may range over all bytes
theorem ne_zero_of_all (h : (target.all fun c => c != 0) = true) : ∀ c ∈ target, c ≠ 0 :=
  fun c hc => bne_iff_ne.mp (List.all_eq_true.mp h c hc)

theorem small_inodeApart (hn : smallFs.geo.InodeNo n) : smallFs.geo.InodeApart n :=
  (small_layout.ok small_inReach).inodeApart hn

-- "bin"
theorem symlink_bin_reads_back :
    ∃ fs', (ext2fsSymlink 0xA1FF 0 0 0 [98, 105, 110]).run smallFs = .ok 8 fs' ∧
      ReadsBack 8 [98, 105, 110] fs' := by
  have hrun := Op.run_of_returns (x := ext2fsSymlink 0xA1FF 0 0 0 [98, 105, 110]) (s := smallFs)
    (a := 8) (by decide)
  exact ⟨_, hrun, (symlink_readsym_iff small_layout (by decide) (by decide)
    (ne_zero_of_all (by decide)) hrun (small_inodeApart (by decide))).2 (by decide)⟩

/-- "/usr/share/zoneinfo" has nineteen bytes, and the last one is lost. -/
theorem symlink_zoneinfo_lost : smallFs.Consistent ∧ smallFs.geo.InReach ∧
    ∃ target fs', target.length = 19 ∧ (∀ c ∈ target, c ≠ 0) ∧
      (ext2fsSymlink 0xA1FF 0 0 0 target).run smallFs = .ok 8 fs' ∧ ¬ ReadsBack 8 target fs' := by
  have hrun := Op.run_of_returns (x := ext2fsSymlink 0xA1FF 0 0 0 [47, 117, 115, 114, 47, 115, 104,
    97, 114, 101, 47, 122, 111, 110, 101, 105, 110, 102, 111]) (s := smallFs) (a := 8)
    (by decide)
  refine ⟨small_consistent, small_inReach, _, _, rfl, ne_zero_of_all (by decide), hrun, ?_⟩
  rcases (symlink_getino small_layout ..).ok hrun (small_inodeApart (by decide)) with
    ⟨h, -⟩ | ⟨x, hget, hlink⟩
  · cases h
  · rw [readsBack_iff hget hlink (by decide) (by decide) (ne_zero_of_all (by decide))]
    decide

end Ext2
