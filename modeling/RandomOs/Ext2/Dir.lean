import RandomOs.Ext2.Trunc

/-!
# Links in directories (`ext2.c`)

A block of a directory is a chain of records, each with its own length.  Adding a name takes the
unused end of a record or a record without an inode; removing one adds its record to the one before.
-/

namespace Ext2

open Lib Bytes Kern
open Op (Post)

/-! ## Model -/

-- `inode`, `rec_len` and `name_len` of the record at `i`
def entIno (blk : Bytes) (i : Nat) : Nat := get32 blk i
def recLen (blk : Bytes) (i : Nat) : Nat := get16 blk (i + 4)
def nameLen (blk : Bytes) (i : Nat) : Nat := (blk (i + 6)).toNat

-- `EXT2_DIR_RECLEN`
def dirReclen (len : Nat) : Nat := (len + 11) / 4 * 4

/-- The loop over the records of a block: the first hit from `i` on, and the record before it. -/
def scanEnts (bs : Nat) (blk : Bytes) (hit : Nat → Except Stop Bool) :
    (fuel i : Nat) → (pdir : Option Nat) → Except Stop (Option (Nat × Option Nat))
  | 0, _, _ => .ok none
  | fuel + 1, i, pdir =>
    if bs ≤ i then .ok none
    else if recLen blk i < 8 ∨ bs < i + recLen blk i then .error (.err (-EINVAL))
    else
      match hit i with
      | .error e => .error e
      | .ok true => .ok (some (i, pdir))
      | .ok false => scanEnts bs blk hit fuel (i + recLen blk i) (some i)

/-- `memcmp` reads the name in the block. -/
def hasName (bs : Nat) (blk : Bytes) (name : List UInt8) (i : Nat) : Except Stop Bool :=
  if nameLen blk i = name.length then
    if bs < i + 8 + name.length then .error .fault
    else .ok ((List.range name.length).all fun k => blk (i + 8 + k) == name.getD k 0)
  else .ok false

/-- Room for a record of `nsz` bytes. -/
def hasRoom (blk : Bytes) (nsz i : Nat) : Except Stop Bool :=
  if entIno blk i = 0 then .ok (decide (nsz ≤ recLen blk i))
  else .ok (decide (dirReclen (nameLen blk i) ≤ recLen blk i ∧
    nsz ≤ recLen blk i - dirReclen (nameLen blk i)))

/-- The record at `i` is cleared, and its length goes to the one before. -/
def dropEnt (blk : Bytes) (i : Nat) (pdir : Option Nat) : Bytes :=
  let blk' := match pdir with
    | some p => put16 blk (p + 4) (recLen blk p + recLen blk i)
    | none => blk
  copy blk' i zero 0 (recLen blk i)

-- `i_links_count`; it wraps around
def addLinks (inod : Bytes) (d : Nat) : Bytes := put16 inod 26 (get16 inod 26 + d)

/-- The blocks of the directory, `m` of them from `b` on. -/
def rmlinkLoop (dinod : Bytes) (name : List UInt8) : (m b : Nat) → Op Ext2fs Unit
  | 0, _ => Op.fail (-ENOENT)
  | m + 1, b => do
      let fs ← get
      let blk ← inoGetblkid dinod b
      if blk = 0 then Op.fail (-EINVAL)
      else
        let blkd ← (rdblk blk).orFail (-1)
        let found ← Op.ofExcept (scanEnts fs.geo.blocksz blkd (hasName fs.geo.blocksz blkd name)
          fs.geo.blocksz 0 none)
        match found with
        | none => rmlinkLoop dinod name m (b + 1)
        | some (i, pdir) =>
          let ino := entIno blkd i
          let inod ← getino ino
          wrblk blk (dropEnt blkd i pdir)
          flushInode ino (addLinks inod (2 ^ 16 - 1))

def ext2fsRmlink (dino : Nat) (name : List UInt8) : Op Ext2fs Unit := do
  let dinod ← getino dino
  let fs ← get
  rmlinkLoop dinod name (fs.geo.sizeBlocks dinod) 0

-- `EXT2_FT_SOCK` and the others
def fileType (mode : Nat) : Nat :=
  match mode &&& 0xF000 with
  | 0xC000 => 6
  | 0xA000 => 7
  | 0x8000 => 1
  | 0x6000 => 4
  | 0x4000 => 2
  | 0x2000 => 3
  | 0x1000 => 5
  | _ => 0

/-- `newent` with the bytes of the stack behind its 263 bytes. -/
def newEnt (stack : Bytes) (ino recLen ftype : Nat) (name : List UInt8) : Bytes :=
  let m : Bytes := fun j => if j < 8 then 0 else if j < 263 then name.getD (j - 8) 0 else stack j
  let m := put32 m 0 ino
  let m := put16 m 4 recLen
  put16 m 6 (name.length % 2 ^ 8 + 2 ^ 8 * ftype)

/-- The new record, in place of an unused one or at the end of one in use. -/
def putEnt (blk : Bytes) (ent : Nat → Bytes) (nsz i : Nat) : Bytes :=
  if entIno blk i = 0 then copy blk i (ent (recLen blk i)) 0 nsz
  else
    let oldsz := dirReclen (nameLen blk i)
    copy (put16 blk (i + 4) oldsz) (i + oldsz) (ent (recLen blk i - oldsz)) 0 nsz

/-- The blocks of the directory, `m` of them from `b` on; false if there is no room. -/
def mklinkLoop (parinod : Bytes) (ent : Nat → Bytes) (nsz ino : Nat) (inod : Bytes) :
    (m b : Nat) → Op Ext2fs Bool
  | 0, _ => pure false
  | m + 1, b => do
      let fs ← get
      let blk ← inoGetblkid parinod b
      if blk = 0 then Op.fail (-EINVAL)
      else
        let blkd ← rdblk blk
        let found ← Op.ofExcept (scanEnts fs.geo.blocksz blkd (hasRoom blkd nsz)
          fs.geo.blocksz 0 none)
        match found with
        | none => mklinkLoop parinod ent nsz ino inod m (b + 1)
        | some (i, _) =>
          wrblk blk (putEnt blkd ent nsz i)
          flushInode ino (addLinks inod 1)
          pure true

/-- A block for the name. -/
def mklinkGrow (parinod : Bytes) (ent : Nat → Bytes) (nsz dino ino : Nat) (inod : Bytes) :
    Op Ext2fs Unit := do
  let fs ← get
  let res ← withInode parinod (inoAllocblk dino)
  wrblk res.1 (copy zero 0 (ent (fs.geo.blocksz % 2 ^ 16)) 0 nsz)
  flushInode dino (put32 res.2 4 (get32 res.2 4 + fs.geo.blocksz))
  flushInode ino (addLinks inod 1)

def ext2fsMklink (stack : Bytes) (ino mode dino : Nat) (name : List UInt8) : Op Ext2fs Unit := do
  let inod ← getino ino
  let parinod ← getino dino
  -- `newent.name` has 255 bytes
  if 255 < name.length then Op.fault
  else
    let fs ← get
    let ftype := if fs.geo.isdyn then fileType mode else 0
    let ent := fun len => newEnt stack ino len ftype name
    let done ← mklinkLoop parinod ent (dirReclen name.length) ino inod (fs.geo.sizeBlocks parinod) 0
    if done then pure ()
    else mklinkGrow parinod ent (dirReclen name.length) dino ino inod

/-! ## The volume after the calls -/

/-- A data block of directory `n` gets new contents, and inode `m` another number of links. -/
structure Relinked (n : Nat) (v v' : Vol) (w : Nat) (buf : Bytes) (m : Nat) : Prop where
  place : ∃ ρ, Full ρ ∧ v.ref n ρ = some (.blk w)
  used : v.inUse m = true
  vol : ∃ d, v' = (v.setData w buf).setInode m (addLinks (v.inode m) d)

section Links

variable {n : Nat} {fs : Ext2fs}

theorem addLinks_type (inod : Bytes) (d : Nat) : iType (addLinks inod d) = iType inod := by
  unfold iType addLinks
  rw [get16_put16_of_ne (by omega)]

theorem addLinks_slot (inod : Bytes) (d : Nat) (k : Nat) :
    iBlock (addLinks inod d) k = iBlock inod k := by
  unfold iBlock addLinks
  rw [get32_put16_of_ne (by omega)]

variable {v v' v₁ : Vol} {buf : Bytes} {ino b : Nat} {ρ : List Nat}

theorem Relinked.sound {w m : Nat} (h : Relinked n v v' w buf m) (hv : v.Sound) (hn : v.Live n) :
    v'.geo = v.geo ∧ v'.Sound := by
  obtain ⟨⟨ρ, hρ, href⟩, -, d, rfl⟩ := h
  refine ⟨rfl, (hv.setData hn hρ href buf).setInode ?_ fun k _ => Or.inl ?_⟩
  · exact addLinks_type _ d
  · exact addLinks_slot _ d k

theorem getblkid_post (hg : fs.geo.Ok) (hv : fs.vol.Sound) (hn : fs.vol.Live n) (idx : Nat) :
    Post (inoGetblkid (fs.vol.inode n) idx) fs
      (fun w fs' => fs' = fs ∧ (w ≠ 0 → fs.geo.IsData w ∧
        ∃ ρ, Full ρ ∧ fs.vol.ref n ρ = some (.blk w)))
      (fun _ _ => True) := by
  cases hpath : fs.geo.blkPath idx with
  | none => exact Post.of_error (run_inoGetblkid_of_none hpath) trivial
  | some p =>
    obtain ⟨k, es⟩ := p
    obtain ⟨-, hfull, -⟩ := hg.toLayout.blkPath_full hpath
    obtain ⟨w, hrun, href⟩ := run_inoGetblkid hg hv hn hpath
    refine Post.of_ok hrun ⟨rfl, fun hw => ?_⟩
    rw [ptr_of_ne hw] at href
    exact ⟨(hv.owned n _ w hn hfull.fits href).1, k :: es, hfull, href⟩

-- the block of a directory that a loop looks at
theorem post_dirBlock (hg : fs.geo.Ok) (hv : fs.vol.Sound) (hn : fs.vol.Live n) {e : Int}
    {α : Type} {f : Nat → Op Ext2fs α} {Q : α → Ext2fs → Prop}
    (h : ∀ w, fs.geo.IsData w → (∃ ρ, Full ρ ∧ fs.vol.ref n ρ = some (.blk w)) →
      Post (f w) fs Q fun _ _ => True) :
    Post (do let w ← inoGetblkid (fs.vol.inode n) b; if w = 0 then Op.fail e else f w) fs Q
      fun _ _ => True := by
  refine Post.bind (getblkid_post hg hv hn b) ?_ fun _ _ h => h
  rintro w _ ⟨rfl, hw⟩
  split
  · exact Post.fail trivial
  · rename_i hne
    exact h w (hw hne).1 (hw hne).2

theorem relink_post (hg : fs.geo.Ok) {w m : Nat} (hw : fs.geo.IsData w)
    (hplace : ∃ ρ, Full ρ ∧ fs.vol.ref n ρ = some (.blk w)) (hm : fs.vol.inUse m = true)
    (buf : Bytes) (d : Nat) : Post (do wrblk w buf; flushInode m (addLinks (fs.vol.inode m) d)) fs
      (fun _ fs' => Relinked n fs.vol fs'.vol w buf m) (fun _ _ => True) := by
  apply Post.bind_ok (run_wrblk hw.2.1 buf)
  have hvol := vol_putBlock_data hg hw buf
  apply @flushInode_post _ (fs.putBlock w buf) hg (by rw [hvol]; exact hm)
  intro fs' hvol'
  refine ⟨hplace, hm, d, ?_⟩
  rw [hvol', hvol]

/-- The record that `ext2fs_rmlink` takes out. -/
def Unlinked (n : Nat) (name : List UInt8) (fs fs' : Ext2fs) : Prop :=
  ∃ w i pdir m, scanEnts fs.geo.blocksz (fs.block w) (hasName fs.geo.blocksz (fs.block w) name)
      fs.geo.blocksz 0 none = .ok (some (i, pdir)) ∧
    Relinked n fs.vol fs'.vol w (dropEnt (fs.block w) i pdir) m

theorem rmlinkLoop_post (hg : fs.geo.Ok) (hv : fs.vol.Sound) (hn : fs.vol.Live n)
    (name : List UInt8) (m b : Nat) :
    Post (rmlinkLoop (fs.vol.inode n) name m b) fs (fun _ fs' => Unlinked n name fs fs')
      (fun _ _ => True) := by
  induction m generalizing b with
  | zero => exact Post.fail trivial
  | succ m ih =>
    apply Post.get_bind
    refine post_dirBlock hg hv hn fun w hdata hplace => ?_
    have hread : ((rdblk w).orFail (-1)).run fs = .ok (fs.block w) fs :=
      Op.run_orFail_of_ok (hg.run_rdblk hdata.2.1) _
    apply Post.bind_ok hread
    refine Post.ofExcept_bind (fun found hscan => ?_) fun _ _ => trivial
    cases found with
    | none => exact ih (b + 1)
    | some r =>
      obtain ⟨i, pdir⟩ := r
      refine Post.bind (getino_post hg _) ?_ fun _ _ _ => trivial
      rintro inod _ ⟨rfl, hused, rfl⟩
      refine Post.mono (relink_post hg hdata hplace hused _ _) ?_ fun _ _ h => h
      intro _ fs' hrel
      exact ⟨w, i, pdir, _, hscan, hrel⟩

theorem rmlink_post (hg : fs.geo.Ok) (hv : fs.vol.Sound) (hn : fs.vol.Live n) (name : List UInt8) :
    Post (ext2fsRmlink n name) fs (fun _ fs' => Unlinked n name fs fs') (fun _ _ => True) := by
  apply Post.bind_ok (run_getino hg hn.1)
  apply Post.get_bind
  exact rmlinkLoop_post hg hv hn name _ 0

/-- The place that `ext2fs_mklink` finds for a record. -/
def LinkedIn (n : Nat) (ent : Nat → Bytes) (nsz ino : Nat) (fs fs' : Ext2fs) : Prop :=
  ∃ w i pdir, scanEnts fs.geo.blocksz (fs.block w) (hasRoom (fs.block w) nsz) fs.geo.blocksz 0
      none = .ok (some (i, pdir)) ∧
    Relinked n fs.vol fs'.vol w (putEnt (fs.block w) ent nsz i) ino

theorem mklinkLoop_post (hg : fs.geo.Ok) (hv : fs.vol.Sound) (hn : fs.vol.Live n)
    (ent : Nat → Bytes) (nsz : Nat) (hino : fs.vol.inUse ino = true) (m b : Nat) :
    Post (mklinkLoop (fs.vol.inode n) ent nsz ino (fs.vol.inode ino) m b) fs
      (fun done fs' => if done then LinkedIn n ent nsz ino fs fs' else fs' = fs)
      (fun _ _ => True) := by
  induction m generalizing b with
  | zero => exact Post.pure rfl
  | succ m ih =>
    apply Post.get_bind
    refine post_dirBlock hg hv hn fun w hdata hplace => ?_
    apply Post.bind_ok (hg.run_rdblk hdata.2.1)
    refine Post.ofExcept_bind (fun found hscan => ?_) fun _ _ => trivial
    cases found with
    | none => exact ih (b + 1)
    | some r =>
      obtain ⟨i, pdir⟩ := r
      have hrelink := relink_post hg hdata hplace hino (putEnt (fs.block w) ent nsz i) 1
      refine Post.bind_assoc (Post.bind hrelink ?_ fun _ _ h => h)
      intro _ fs' hrel
      exact Post.pure ⟨w, i, pdir, hscan, hrel⟩

/-- The directory has a new block at `ρ`; the number of links is written last, with a copy of the
inode from before. -/
structure LinkedNew (n : Nat) (buf : Bytes) (ino : Nat) (v v' : Vol) : Prop where
  used : v.inUse ino = true
  vol : ∃ v₁ ρ b x, v.Fills n v₁ ρ b ∧ v₁.Sound ∧ iType x = iType (v₁.inode n) ∧
    (∀ k < 15, iBlock x k = iBlock (v₁.inode n) k) ∧
    v' = ((v₁.setData b buf).setInode n x).setInode ino (addLinks (v.inode ino) 1)

/-- The same with the values: the block is at the lowest hole `h`, and the size grows by a block. -/
structure LinkedAt (n : Nat) (buf : Bytes) (ino : Nat) (fs : Ext2fs) (v' v₁ : Vol) (h b : Nat)
    (ρ : List Nat) : Prop where
  lt : h < fs.geo.fileBlocks
  path : ∃ k es, ρ = k :: es ∧ fs.geo.blkPath h = some (k, es)
  lowest : ∀ i < h, fs.vol.blockAt n i ≠ none
  fills : fs.vol.Fills n v₁ ρ b
  sound : v₁.Sound
  vol : v' = ((v₁.setData b buf).setInode n
    (put32 (v₁.inode n) 4 (get32 (v₁.inode n) 4 + fs.geo.blocksz))).setInode ino
      (addLinks (fs.vol.inode ino) 1)

theorem mklinkGrow_linkedAt (hg : fs.geo.Ok) (hflush : fs.geo.FlushSafe) (hv : fs.vol.Sound)
    (hn : fs.vol.Live n) (ent : Nat → Bytes) (nsz : Nat) (hino : fs.vol.inUse ino = true) :
    Post (mklinkGrow (fs.vol.inode n) ent nsz n ino (fs.vol.inode ino)) fs
      (fun _ fs' => ∃ v₁ h b ρ, LinkedAt n (copy zero 0 (ent (fs.geo.blocksz % 2 ^ 16)) 0 nsz) ino
        fs fs'.vol v₁ h b ρ) (fun _ _ => True) := by
  have hs : Held.Synced n ⟨fs, fs.vol.inode n⟩ := ⟨hg, hv, hn, rfl⟩
  apply Post.get_bind
  refine Post.bind (post_withInode (inoAllocblk_post hs hflush) (Q := fun r fs₁ =>
    Held.Lowest n ⟨fs, fs.vol.inode n⟩ r.1 ⟨fs₁, r.2⟩) (E := fun _ _ => True) (fun _ _ h => h)
    fun _ _ _ => trivial) ?_ fun _ _ h => h
  rintro ⟨b, parinod⟩ fs₁ ⟨hs₁, h, hlt, k, es, hpath, hfills, hlow⟩
  generalize copy zero 0 (ent (fs.geo.blocksz % 2 ^ 16)) 0 nsz = buf
  have hdata : fs₁.geo.IsData b := (hs₁.sound.owned n _ b hs₁.live hfills.full.fits hfills.now).1
  apply Post.bind_ok (run_wrblk hdata.2.1 buf)
  have hvol₂ := vol_putBlock_data hs₁.geo hdata buf
  obtain ⟨fs₃, hrun, hvol₃⟩ := @run_flushInode _ (fs₁.putBlock b buf) hs₁.geo
    (by rw [hvol₂]; exact hs₁.live.1) (put32 parinod 4 (get32 parinod 4 + fs.geo.blocksz))
  apply Post.bind_ok hrun
  rw [hvol₂] at hvol₃
  have hino₃ : fs₃.vol.inUse ino = true := by
    rw [hvol₃]
    change fs₁.vol.inUse ino = true
    rw [hfills.inUse]
    exact hino
  apply flushInode_post (geo_ok_of_vol hvol₃ hs₁.geo) hino₃
  intro fs' hvol'
  have hinod : parinod = fs₁.vol.inode n := hs₁.inod
  rw [hvol₃, hinod] at hvol'
  exact ⟨fs₁.vol, h, b, k :: es, hlt, ⟨k, es, rfl, hpath⟩, hlow, hfills, hs₁.sound, hvol'⟩

theorem LinkedAt.linkedNew {h : Nat} (hl : LinkedAt n buf ino fs v' v₁ h b ρ)
    (hino : fs.vol.inUse ino = true) : LinkedNew n buf ino fs.vol v' := by
  refine ⟨hino, v₁, ρ, b, _, hl.fills, hl.sound, ?_, ?_, hl.vol⟩
  · unfold iType
    rw [get16_put32_of_ne (by omega)]
  · intro j hj
    unfold iBlock
    rw [get32_put32_of_ne (by omega)]

theorem mklinkGrow_post (hg : fs.geo.Ok) (hflush : fs.geo.FlushSafe) (hv : fs.vol.Sound)
    (hn : fs.vol.Live n) (ent : Nat → Bytes) (nsz : Nat) (hino : fs.vol.inUse ino = true) :
    Post (mklinkGrow (fs.vol.inode n) ent nsz n ino (fs.vol.inode ino)) fs
      (fun _ fs' => LinkedNew n (copy zero 0 (ent (fs.geo.blocksz % 2 ^ 16)) 0 nsz) ino
        fs.vol fs'.vol) (fun _ _ => True) := by
  refine Post.mono (mklinkGrow_linkedAt hg hflush hv hn ent nsz hino) ?_ fun _ _ h => h
  rintro _ fs' ⟨v₁, h, b, ρ, hnew⟩
  exact hnew.linkedNew hino

theorem mklink_post (hg : fs.geo.Ok) (hflush : fs.geo.FlushSafe) (hv : fs.vol.Sound)
    (hn : fs.vol.Live n) (stack : Bytes) (ino mode : Nat) (name : List UInt8) :
    Post (ext2fsMklink stack ino mode n name) fs
      (fun _ fs' => name.length ≤ 255 ∧ ∃ ftype,
        (LinkedIn n (fun len => newEnt stack ino len ftype name) (dirReclen name.length) ino
            fs fs' ∨
          LinkedNew n (copy zero 0 (newEnt stack ino (fs.geo.blocksz % 2 ^ 16) ftype name) 0
            (dirReclen name.length)) ino fs.vol fs'.vol))
      (fun _ _ => True) := by
  refine Post.bind (getino_post hg ino) ?_ fun _ _ _ => trivial
  rintro _ _ ⟨rfl, hino, rfl⟩
  rename_i fs
  apply Post.bind_ok (run_getino hg hn.1)
  split
  · exact Post.fault trivial
  apply Post.get_bind
  generalize (if fs.geo.isdyn then fileType mode else 0) = ftype
  refine Post.bind (mklinkLoop_post hg hv hn _ _ hino _ 0) ?_ fun _ _ h => h
  intro done fs₁ hdone
  cases done with
  | true => exact Post.pure ⟨by omega, ftype, Or.inl hdone⟩
  | false =>
    have hsame : fs₁ = fs := hdone
    subst hsame
    rw [if_neg Bool.false_ne_true]
    refine Post.mono (mklinkGrow_post hg hflush hv hn _ _ hino) ?_ fun _ _ h => h
    intro _ fs' hnew
    exact ⟨by omega, ftype, Or.inr hnew⟩

theorem LinkedNew.slots {x : Bytes} (hfills : v.Fills n v₁ ρ b)
    (hslots : ∀ k < 15, iBlock x k = iBlock (v₁.inode n) k) (k : Nat) (hk : k < 15) :
    iBlock (addLinks (v.inode ino) 1) k = iBlock (((v₁.setData b buf).setInode n x).inode ino) k ∨
      iBlock (addLinks (v.inode ino) 1) k = 0 := by
  rw [addLinks_slot, Vol.setInode_inode]
  split
  · -- a link to the directory itself: its new slots are lost
    rename_i hino
    subst hino
    have hword : iBlock (trim 128 x) k = iBlock x k := get32_trim _ (by omega)
    rw [hword, hslots k hk]
    by_cases hzero : iBlock (v.inode ino) k = 0
    · exact Or.inr hzero
    · exact Or.inl (hfills.slots k hk hzero).symm
  · rename_i hino
    left
    rw [Vol.setData_inode, hfills.others ino hino]

theorem LinkedNew.type_eq {x : Bytes} (hfills : v.Fills n v₁ ρ b)
    (htype : iType x = iType (v₁.inode n)) :
    iType (addLinks (v.inode ino) 1) = iType (((v₁.setData b buf).setInode n x).inode ino) := by
  rw [addLinks_type, Vol.setInode_inode]
  split
  swap
  · rename_i hino
    rw [Vol.setData_inode, hfills.others ino hino]
  rename_i hino
  subst hino
  have htrim : iType (trim 128 x) = iType x := by
    unfold iType
    rw [get16_trim _ (by omega)]
  have hhead : iType (v₁.inode ino) = iType (v.inode ino) := by
    unfold iType
    rw [get16_congr (hfills.head 0 (by omega)) (hfills.head 1 (by omega))]
  rw [htrim, htype, hhead]

theorem LinkedNew.sound (h : LinkedNew n buf ino v v') (hn : v.Live n) :
    v'.geo = v.geo ∧ v'.Sound := by
  obtain ⟨-, v₁, ρ, b, x, hfills, hsound, htype, hslots, rfl⟩ := h
  have hlive : v₁.Live n := (hfills.live n).mpr hn
  have hsound₂ : ((v₁.setData b buf).setInode n x).Sound :=
    (hsound.setData hlive hfills.full hfills.now buf).setInode htype
      fun k hk => Or.inl (hslots k hk)
  exact ⟨hfills.geo, hsound₂.setInode (LinkedNew.type_eq hfills htype)
    (LinkedNew.slots hfills hslots)⟩

end Links

end Ext2
