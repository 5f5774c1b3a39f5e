import RandomOs.Ext2.Lookup
import RandomOs.Ext2.Release
import RandomOs.Lib.Loop

/-!
# What the directory scans read (`ext2.c`)

`ext2fs_lookup` and `ext2fs_readdir` follow the record lengths that they find on the disk.  The
loops are taken with every byte of their buffers that they read.
-/

namespace Ext2

open Lib Bytes Kern List
open Op (Post)

/-! ## Model -/

/-- The block of an iteration of `ext2fs_readdir`; without one the function returns. -/
def dirBlock (fs : Ext2fs) (inod : Bytes) (b : Nat) : Option Bytes :=
  match (inoGetblkid inod b).run fs with
  | .error _ _ => none
  | .ok blk _ =>
    if blk = 0 then none
    else
      match (rdblk blk).run fs with
      | .error _ _ => none
      | .ok blkd _ => some blkd

structure Cursor where
  b : Nat
  i : Nat
  pos : Nat

-- the record is refused
def badRec (bs : Nat) (blkd : Bytes) (i : Nat) : Bool :=
  recLen blkd i < 8 || bs < i + recLen blkd i

-- `getino` succeeds
def hasIno (fs : Ext2fs) (ino : Nat) : Bool :=
  match (getino ino).run fs with
  | .ok _ _ => true
  | .error _ _ => false

/-- The bytes that are read of the record at the cursor. -/
def entReads (fs : Ext2fs) (namlen : Nat) (blkd : Bytes) (i : Nat) : List Nat :=
  List.range' i 4 ++
  if entIno blkd i ≠ 0 ∧ hasIno fs (entIno blkd i) = true then
    [i + 6] ++ if nameLen blkd i + 1 ≤ namlen then List.range' (i + 8) (nameLen blkd i) else []
  else []

/-- The bytes of `blkd` that one round of `ext2fs_readdir` reads. -/
def readdirReads (fs : Ext2fs) (inod : Bytes) (prv namlen : Nat) (c : Cursor) : List Nat :=
  if fs.geo.sizeBlocks inod ≤ c.b then []
  else
    match dirBlock fs inod c.b with
    | none => []
    | some blkd =>
      if fs.geo.blocksz ≤ c.i then []
      else
        List.range' (c.i + 4) 2 ++
        if badRec fs.geo.blocksz blkd c.i = false ∧ c.pos = prv then entReads fs namlen blkd c.i
        else []

/-- Both loops of `ext2fs_readdir`. -/
def readdirStep (fs : Ext2fs) (inod : Bytes) (prv : Nat) (c : Cursor) : Option Cursor :=
  if fs.geo.sizeBlocks inod ≤ c.b then none
  else
    match dirBlock fs inod c.b with
    | none => none
    | some blkd =>
      if fs.geo.blocksz ≤ c.i then some ⟨c.b + 1, 0, c.pos⟩
      else if badRec fs.geo.blocksz blkd c.i then none
      else if c.pos = prv then none
      else some ⟨c.b, c.i + recLen blkd c.i, c.pos + 1⟩

/-! ## Safety -/

/-- `ext2fs_lookup` in the directory returns and reads its copy only. -/
def LookupSafe (fs : Ext2fs) (dinod : Bytes) (obuf : Option Bytes) (tmp : Bool)
    (name : List UInt8) : Prop :=
  match (getinodata obuf tmp dinod).run fs with
  | .error e _ => e ≠ .fault
  | .ok none _ => True
  | .ok (some (dirsz, ddata)) _ =>
    Ends (lookupStep dirsz ddata name) (lookupReads dirsz ddata name) (· < dirsz) 0

/-- `ext2fs_readdir` in the directory returns and reads its blocks only. -/
structure ReaddirSafe (fs : Ext2fs) (dinod : Bytes) (prv namlen : Nat) : Prop where
  tables : ∀ b < fs.geo.sizeBlocks dinod, (inoGetblkid dinod b).run fs ≠ .error .fault fs
  blocks : Ends (readdirStep fs dinod prv) (readdirReads fs dinod prv namlen) (· < fs.geo.blocksz)
    ⟨0, 0, 0⟩

/-- A record that `ext2fs_lookup` gets over. -/
structure LookupRec (dirsz : Nat) (ddata : Bytes) (name : List UInt8) (i : Nat) : Prop where
  header : i + 7 ≤ dirsz
  compared : nameLen ddata i = name.length → name ≠ [] →
    i + 8 + memcmpLen ddata (i + 8) name ≤ dirsz
  moves : isHit ddata name i = false → recLen ddata i ≠ 0

/-- All records up to the first of the name, from the start along the record lengths. -/
def LookupChain (fs : Ext2fs) (dinod : Bytes) (obuf : Option Bytes) (tmp : Bool)
    (name : List UInt8) : Prop :=
  ∀ dirsz ddata fs', (getinodata obuf tmp dinod).run fs = .ok (some (dirsz, ddata)) fs' →
    ∀ i, Visits (lookupStep dirsz ddata name) 0 i → i < dirsz → LookupRec dirsz ddata name i

/-- All records up to the cursor: their length is in the block, and the name at the cursor if it is
copied. -/
def ReaddirChain (fs : Ext2fs) (dinod : Bytes) (prv namlen : Nat) : Prop :=
  ∀ c blkd, Visits (readdirStep fs dinod prv) ⟨0, 0, 0⟩ c → c.b < fs.geo.sizeBlocks dinod →
    dirBlock fs dinod c.b = some blkd → c.i < fs.geo.blocksz →
    c.i + 6 ≤ fs.geo.blocksz ∧
    (badRec fs.geo.blocksz blkd c.i = false → c.pos = prv → entIno blkd c.i ≠ 0 →
      hasIno fs (entIno blkd c.i) = true → nameLen blkd c.i + 1 ≤ namlen →
      c.i + 8 + nameLen blkd c.i ≤ fs.geo.blocksz)

/-! ## `ext2fs_lookup` -/

section Lookup

variable {dirsz : Nat} {ddata : Bytes} {name : List UInt8} {i : Nat}

theorem memcmpLen_pos (ddata : Bytes) (a : Nat) {cs : List UInt8} (h : cs ≠ []) :
    0 < memcmpLen ddata a cs := by
  cases cs with
  | nil => exact absurd rfl h
  | cons c cs =>
    rw [memcmpLen]
    omega

theorem lookupStep_of_not_hit (hi : i < dirsz) (h : isHit ddata name i = false) :
    lookupStep dirsz ddata name i = some (i + recLen ddata i) := by
  unfold lookupStep
  rw [if_neg (Nat.not_le_of_lt hi), h]
  rfl

-- a record moves the walk on or has length 0
theorem lookupStep_measure (i j : Nat) (h : lookupStep dirsz ddata name i = some j) :
    j = i ∨ dirsz - j < dirsz - i := by
  unfold lookupStep at h
  split at h
  · cases h
  split at h
  · cases h
  · cases h
    by_cases hlen : recLen ddata i = 0
    · exact Or.inl (by omega)
    · exact Or.inr (by omega)

theorem lookupRec_iff (hi : i < dirsz) : LookupRec dirsz ddata name i ↔
    lookupStep dirsz ddata name i ≠ some i ∧ ∀ r ∈ lookupReads dirsz ddata name i, r < dirsz := by
  unfold lookupReads
  rw [if_neg (Nat.not_le_of_lt hi)]
  constructor
  · rintro ⟨hheader, hname, hmoves⟩
    constructor
    · intro hstuck
      by_cases hhit : isHit ddata name i = true
      · unfold lookupStep at hstuck
        rw [if_neg (Nat.not_le_of_lt hi), if_pos hhit] at hstuck
        cases hstuck
      · rw [Bool.not_eq_true] at hhit
        rw [lookupStep_of_not_hit hi hhit] at hstuck
        have heq := Option.some.inj hstuck
        exact hmoves hhit (by omega)
    · intro r hr
      rcases mem_append.mp hr with hr | hr
      · rcases mem_append.mp hr with hr | hr
        · rw [mem_singleton.mp hr]
          omega
        split at hr
        · rename_i hlen
          rw [mem_range'_1] at hr
          by_cases hnil : name = []
          · rw [hnil, memcmpLen] at hr
            omega
          · have := hname hlen hnil
            omega
        · cases hr
      · split at hr <;> rw [mem_range'_1] at hr <;> omega
  · rintro ⟨hmoves, hreads⟩
    refine ⟨?_, fun hlen hnil => ?_, fun hhit hzero => ?_⟩
    · have := hreads (i + 6) (by simp)
      omega
    · have hpos := memcmpLen_pos ddata (i + 8) hnil
      have hlast := hreads (i + 8 + (memcmpLen ddata (i + 8) name - 1)) (by
        rw [if_pos hlen]
        apply mem_append_left
        apply mem_append_right
        rw [mem_range'_1]
        omega)
      omega
    · rw [lookupStep_of_not_hit hi hhit, hzero] at hmoves
      exact hmoves rfl

-- behind the copy nothing is read
theorem lookup_behind (hi : dirsz ≤ i) : lookupStep dirsz ddata name i ≠ some i ∧
    ∀ r ∈ lookupReads dirsz ddata name i, r < dirsz := by
  unfold lookupStep lookupReads
  rw [if_pos hi, if_pos hi]
  exact ⟨nofun, nofun⟩

theorem lookup_ends_iff :
    Ends (lookupStep dirsz ddata name) (lookupReads dirsz ddata name) (· < dirsz) 0 ↔
      ∀ i, Visits (lookupStep dirsz ddata name) 0 i → i < dirsz → LookupRec dirsz ddata name i := by
  rw [ends_iff (dirsz - ·) lookupStep_measure]
  constructor
  · exact fun h i hvisits hi => (lookupRec_iff hi).mpr (h i hvisits)
  · intro h i hvisits
    by_cases hi : i < dirsz
    · exact (lookupRec_iff hi).mp (h i hvisits hi)
    · exact lookup_behind (Nat.le_of_not_lt hi)

end Lookup

/-! ## `ext2fs_readdir` -/

section Readdir

variable {fs : Ext2fs} {inod : Bytes} {prv namlen : Nat}

-- records have at least eight bytes, and blocks come one after the other
theorem readdirStep_measure (c d : Cursor) (h : readdirStep fs inod prv c = some d) :
    (fs.geo.sizeBlocks inod - d.b) * (fs.geo.blocksz + 1) + (fs.geo.blocksz - d.i) <
      (fs.geo.sizeBlocks inod - c.b) * (fs.geo.blocksz + 1) + (fs.geo.blocksz - c.i) := by
  unfold readdirStep at h
  split at h
  · cases h
  split at h
  · cases h
  split at h
  · cases h
    obtain ⟨k, hk⟩ : ∃ k, fs.geo.sizeBlocks inod - c.b = k + 1 :=
      ⟨fs.geo.sizeBlocks inod - c.b - 1, by omega⟩
    have hk' : fs.geo.sizeBlocks inod - (c.b + 1) = k := by omega
    rw [hk, hk', Nat.succ_mul]
    omega
  split at h
  · cases h
  rename_i hi hbad
  split at h
  · cases h
  cases h
  unfold badRec at hbad
  simp only [Bool.or_eq_true, decide_eq_true_eq, not_or] at hbad
  dsimp only
  omega

-- the bytes of the record at the cursor, whose header is in the block
theorem entReads_lt {blkd : Bytes} {i : Nat} (hi : i + 8 ≤ fs.geo.blocksz)
    (hname : entIno blkd i ≠ 0 → hasIno fs (entIno blkd i) = true → nameLen blkd i + 1 ≤ namlen →
      i + 8 + nameLen blkd i ≤ fs.geo.blocksz) :
    ∀ r ∈ entReads fs namlen blkd i, r < fs.geo.blocksz := by
  intro r hr
  rcases mem_append.mp hr with hr | hr
  · rw [mem_range'_1] at hr
    omega
  split at hr
  swap
  · cases hr
  rename_i hino
  rcases mem_append.mp hr with hr | hr
  · rw [mem_singleton.mp hr]
    omega
  split at hr
  · rename_i hlen
    have := hname hino.1 hino.2 hlen
    rw [mem_range'_1] at hr
    omega
  · cases hr

theorem readdir_ends_iff :
    Ends (readdirStep fs inod prv) (readdirReads fs inod prv namlen) (· < fs.geo.blocksz)
      ⟨0, 0, 0⟩ ↔ ReaddirChain fs inod prv namlen := by
  rw [ends_iff _ fun c d h => Or.inr (readdirStep_measure c d h)]
  constructor
  · intro h c blkd hvisits hb hblk hi
    obtain ⟨-, hreads⟩ := h c hvisits
    unfold readdirReads at hreads
    rw [if_neg (Nat.not_le_of_lt hb), hblk] at hreads
    dsimp only at hreads
    rw [if_neg (Nat.not_le_of_lt hi)] at hreads
    refine ⟨?_, fun hbad hpos hino hget hlen => ?_⟩
    · have := hreads (c.i + 5) (mem_append_left _ (by rw [mem_range'_1]; omega))
      omega
    rw [if_pos ⟨hbad, hpos⟩] at hreads
    unfold entReads at hreads
    rw [if_pos ⟨hino, hget⟩, if_pos hlen] at hreads
    unfold badRec at hbad
    simp only [Bool.or_eq_false_iff, decide_eq_false_iff_not] at hbad
    by_cases hzero : nameLen blkd c.i = 0
    · omega
    · have := hreads (c.i + 8 + (nameLen blkd c.i - 1)) (by
        simp only [mem_append, mem_range'_1]
        omega)
      omega
  · intro h c hvisits
    refine ⟨fun hstuck => absurd (readdirStep_measure c c hstuck) (Nat.lt_irrefl _), ?_⟩
    unfold readdirReads
    split
    · nofun
    rename_i hb
    cases hblk : dirBlock fs inod c.b with
    | none => nofun
    | some blkd =>
      dsimp only
      split
      · nofun
      rename_i hi
      obtain ⟨hheader, hname⟩ := h c blkd hvisits (Nat.lt_of_not_le hb) hblk (Nat.lt_of_not_le hi)
      intro r hr
      rcases mem_append.mp hr with hr | hr
      · rw [mem_range'_1] at hr
        omega
      split at hr
      · rename_i hcur
        have hgood := hcur.1
        unfold badRec at hgood
        simp only [Bool.or_eq_false_iff, decide_eq_false_iff_not] at hgood
        exact entReads_lt (by omega) (hname hcur.1 hcur.2) r hr
      · cases hr

end Readdir

/-! ## The tables of the directory -/

section Tables

variable {fs : Ext2fs} {dinod : Bytes}

theorem Geo.Layout.path_of_dir {g : Geo} (hg : g.Layout) (hdir : iType dinod = S_IFDIR) {b : Nat}
    (hb : b < g.sizeBlocks dinod) : ∃ k es, g.blkPath b = some (k, es) := by
  apply hg.exists_path
  have hsize : g.getisize dinod < 2 ^ 32 := by
    rw [getisize_dir g hdir]
    exact get32_lt _ _
  have hge := hg.mounted.blocksz_ge
  have hle := hg.blocksz_le
  have hppb := hg.mounted.ppb_mul
  have hcube : 256 ^ 3 ≤ g.ppb ^ 3 := Nat.pow_le_pow_left (by omega) 3
  have hblocks : g.sizeBlocks dinod ≤ (2 ^ 32 + 4096) / 1024 := by
    unfold Geo.sizeBlocks
    rw [Nat.mod_eq_of_lt (by omega)]
    exact Nat.div_le_div (by omega) hge (by decide)
  have hbase := (@Geo.slotBase_eq g).2.2.2
  omega

theorem rdblk_ne_fault (fs : Ext2fs) (b : Nat) :
    Post (rdblk b) fs (fun _ fs' => fs' = fs) (fun e _ => e ≠ .fault) := by
  by_cases hb : b < fs.geo.blocksCount
  · exact Post.of_ok (run_rdblk hb) rfl
  · exact Post.of_error (run_rdblk_of_ge (Nat.le_of_not_lt hb)) nofun

theorem follow_ne_fault (fs : Ext2fs) (b : Nat) (es : List Nat) :
    Post (follow b es) fs (fun _ fs' => fs' = fs) (fun e _ => e ≠ .fault) := by
  induction es generalizing b with
  | nil => exact Post.pure rfl
  | cons e es ih =>
    have hread : Post (readIndr b) fs (fun _ fs' => fs' = fs) (fun e _ => e ≠ .fault) := by
      unfold readIndr
      split
      · exact Post.pure rfl
      · exact rdblk_ne_fault fs b
    refine Post.bind hread ?_ fun _ _ h => h
    rintro indr _ rfl
    exact ih _

theorem inoGetblkid_ne_fault {b : Nat} (hpath : ∃ k es, fs.geo.blkPath b = some (k, es)) :
    Post (inoGetblkid dinod b) fs (fun _ fs' => fs' = fs) (fun e _ => e ≠ .fault) := by
  obtain ⟨k, es, hpath⟩ := hpath
  apply Post.get_bind
  rw [hpath]
  refine Post.bind (follow_ne_fault fs _ es) ?_ fun _ _ h => h
  rintro w _ rfl
  refine Post.asInt (fun _ => rfl) fun _ => ?_
  rintro ⟨⟩

theorem getinodataLoop_ne_fault {tsz : Nat} {tmp : Bool} {m b : Nat}
    (hpath : ∀ j < b + m, ∃ k es, fs.geo.blkPath j = some (k, es)) (obuf : Bytes) :
    Post (getinodataLoop dinod tsz tmp m b obuf) fs (fun _ _ => True)
      (fun e _ => e ≠ .fault) := by
  induction m generalizing b obuf with
  | zero => exact Post.pure trivial
  | succ m ih =>
    have hrest : ∀ obuf, Post (getinodataLoop dinod tsz tmp m (b + 1) obuf) fs
        (fun _ _ => True) (fun e _ => e ≠ .fault) :=
      fun obuf => ih (fun j hj => hpath j (by omega)) obuf
    apply Post.get_bind
    refine Post.bind (inoGetblkid_ne_fault (hpath b (by omega))) ?_ fun _ _ h => h
    intro pblk fs₁ h₁
    rw [h₁]
    dsimp only
    generalize (if fs.geo.blocksz < tsz - b * fs.geo.blocksz then fs.geo.blocksz
      else tsz - b * fs.geo.blocksz) = b2cp
    split
    · exact hrest _
    split
    · exact Post.fail nofun
    · refine Post.bind (rdblk_ne_fault fs pblk) ?_ fun _ _ h => h
      intro blk fs₂ h₂
      rw [h₂]
      exact hrest _

theorem getinodata_ne_fault (hg : fs.geo.Layout) (hdir : iType dinod = S_IFDIR)
    (obuf : Option Bytes) (tmp : Bool) :
    Post (getinodata obuf tmp dinod) fs (fun _ _ => True) (fun e _ => e ≠ .fault) := by
  apply Post.get_bind
  dsimp only
  split
  · exact Post.pure trivial
  cases obuf with
  | none => exact Post.fail nofun
  | some obuf =>
    refine Post.bind (getinodataLoop_ne_fault ?_ obuf) (fun _ _ _ => Post.pure trivial)
      fun _ _ h => h
    intro j hj
    apply hg.path_of_dir hdir
    have hle := hg.blocksz_le
    have hlt : fs.geo.getisize dinod < 2 ^ 32 := by
      rw [getisize_dir _ hdir]
      exact get32_lt _ _
    rw [Nat.mod_eq_of_lt hlt, Nat.zero_add] at hj
    apply Nat.lt_of_lt_of_le hj
    unfold Geo.sizeBlocks
    rw [Nat.mod_eq_of_lt (show _ < 2 ^ 64 by omega)]
    exact Nat.div_le_div_right (Nat.mod_le _ _)

end Tables

/-! ## Both scans -/

/-- The scans of a directory return and stay in their buffers if and only if the records that they
walk over do. -/
theorem dir_scans_safe_iff {fs : Ext2fs} {dinod : Bytes} (hg : fs.geo.Layout)
    (hdir : iType dinod = S_IFDIR) (obuf : Option Bytes) (tmp : Bool) (name : List UInt8)
    (prv namlen : Nat) : LookupSafe fs dinod obuf tmp name ∧ ReaddirSafe fs dinod prv namlen ↔
      LookupChain fs dinod obuf tmp name ∧ ReaddirChain fs dinod prv namlen := by
  apply and_congr
  · have hfault := getinodata_ne_fault hg hdir obuf tmp
    unfold LookupSafe LookupChain
    cases hrun : (getinodata obuf tmp dinod).run fs with
    | error e fs' =>
      unfold Post at hfault
      rw [hrun] at hfault
      exact ⟨fun _ => nofun, fun _ => hfault⟩
    | ok r fs' =>
      cases r with
      | none => exact ⟨fun _ => nofun, fun _ => trivial⟩
      | some d =>
        obtain ⟨dirsz, ddata⟩ := d
        dsimp only
        rw [lookup_ends_iff]
        constructor
        · rintro h _ _ _ ⟨⟩
          exact h
        · exact fun h => h dirsz ddata fs' rfl
  · rw [← readdir_ends_iff]
    refine ⟨fun h => h.blocks, fun h => ⟨fun b hb hrun => ?_, h⟩⟩
    have hfault := @inoGetblkid_ne_fault fs dinod b (hg.path_of_dir hdir hb)
    unfold Post at hfault
    rw [hrun] at hfault
    exact hfault rfl

/-- A directory with one block, number 6. -/
def dirInode : Bytes := put32 (put32 (put16 zero 0 0x41ED) 4 1024) 40 6

/-- `smallFs` with this directory as inode 7; the block is all zeros. -/
def zeroDirFs : Ext2fs := smallFs.putBlock (smallFs.geo.inoBlk 7)
  (copy (smallFs.block (smallFs.geo.inoBlk 7)) (smallFs.geo.inoOff 7) dirInode 0 128)

/-- The same with one record, "a". -/
def nameDirFs : Ext2fs :=
  zeroDirFs.putBlock 6 (put16 (put16 (put16 (put32 zero 0 7) 4 1024) 6 1) 8 97)

theorem zeroDir_geo : zeroDirFs.geo = smallFs.geo := putBlock_geo _ _ _

theorem nameDir_geo : nameDirFs.geo = smallFs.geo :=
  (putBlock_geo zeroDirFs 6 _).trans zeroDir_geo

theorem dir_scans_of_one_name : LookupSafe nameDirFs dirInode (some zero) true [97] ∧
    ReaddirSafe nameDirFs dirInode 0 256 := by
  have hlayout : nameDirFs.geo.Layout := by
    rw [nameDir_geo]
    exact small_layout
  refine (dir_scans_safe_iff hlayout (by decide) _ _ _ _ _).mpr ⟨?_, ?_⟩
  · intro dirsz ddata fs' hrun i hvisits _
    cases hrun
    rw [hvisits.eq_of_last (by decide)]
    exact ⟨by decide, fun _ _ => by decide, by decide⟩
  · intro c blkd hvisits _ _ _
    have hlast : (readdirStep nameDirFs dirInode 0 ⟨0, 0, 0⟩).isNone = true := by decide
    rw [hvisits.eq_of_last (Option.isNone_iff_eq_none.mp hlast)]
    have hlt : nameLen blkd 0 < 256 := UInt8.toNat_lt _
    refine ⟨by decide, fun _ _ _ _ _ => ?_⟩
    change 0 + 8 + nameLen blkd 0 ≤ 1024
    omega

theorem zeroDir_getinodata : (getinodata (some zero) true dirInode).run zeroDirFs =
    .ok (some (1024, copy zero 0 (blockRead zeroDirFs.disk 12) 0 1024)) zeroDirFs := rfl

/-- A record of length 0 is looked at for ever. -/
theorem lookup_of_zero_block : zeroDirFs.geo.Layout ∧
    (getino 7).run zeroDirFs = .ok dirInode zeroDirFs ∧ iType dirInode = S_IFDIR ∧
    ¬ LookupSafe zeroDirFs dirInode (some zero) true [97] := by
  have hno := small_inodeNo.mpr (show 0 < 7 ∧ 7 ≤ 8 by decide)
  have hvol : zeroDirFs.vol = smallFs.vol.setInode 7 dirInode :=
    vol_putBlock_inode (small_layout.ok small_inReach) hno dirInode
  have hinode : zeroDirFs.vol.inode 7 = dirInode := by
    rw [hvol, Vol.setInode_inode, if_pos rfl]
    unfold dirInode
    rw [trim_put32 _ _ (by omega), trim_put32 _ _ (by omega), trim_put16 _ _ (by omega), trim_zero]
  have hused : zeroDirFs.vol.inUse 7 = true := by
    rw [hvol]
    exact small_regular.1
  have hlayout : zeroDirFs.geo.Layout := by
    rw [zeroDir_geo]
    exact small_layout
  have hreach : zeroDirFs.geo.InReach := by
    rw [zeroDir_geo]
    exact small_inReach
  refine ⟨hlayout, hinode ▸ run_getino (hlayout.ok hreach) hused, by decide, ?_⟩
  unfold LookupSafe
  rw [zeroDir_getinodata]
  exact fun hends => hends.not_stuck (by decide)

end Ext2
