import RandomOs.Ext2.DirChain
import RandomOs.Ext2.Symlink

/-!
# Reading directories (`ext2.c`)

`ext2fs_lookup` walks a copy of the whole directory, `ext2fs_readdir` walks the blocks and counts
records.  On a directory whose blocks are chains both see one list of entries.
-/

namespace Ext2

open Lib Bytes Kern List
open Op (Post)

/-! ## Model -/

/-- The blocks of a file in `obuf`, `m` of them from `b` on.  A part of a block goes through a
second buffer; `tmp` says whether there was memory for it. -/
def getinodataLoop (inod : Bytes) (tsz : Nat) (tmp : Bool) : (m b : Nat) → Bytes → Op Ext2fs Bytes
  | 0, _, obuf => pure obuf
  | m + 1, b, obuf => do
      let fs ← get
      let pblk ← inoGetblkid inod b
      let blft := tsz - b * fs.geo.blocksz
      let b2cp := if fs.geo.blocksz < blft then fs.geo.blocksz else blft
      if pblk = 0 then
        getinodataLoop inod tsz tmp m (b + 1) (copy obuf (b * fs.geo.blocksz) zero 0 b2cp)
      else if b2cp ≠ fs.geo.blocksz ∧ tmp = false then Op.fail (-ENOMEM)
      else
        let blk ← rdblk pblk
        getinodataLoop inod tsz tmp m (b + 1) (copy obuf (b * fs.geo.blocksz) blk 0 b2cp)

/-- The size and the data; a file of size 0 gives a null pointer and no error.  `obuf` is the block
that `malloc` hands out. -/
def getinodata (obuf : Option Bytes) (tmp : Bool) (inod : Bytes) :
    Op Ext2fs (Option (Nat × Bytes)) := do
  let fs ← get
  let tsz := fs.geo.getisize inod % 2 ^ 32
  if tsz = 0 then pure none
  else
    match obuf with
    | none => Op.fail (-ENOMEM)
    | some obuf =>
      let tblks := (tsz + (fs.geo.blocksz - 1)) % 2 ^ 32 / fs.geo.blocksz
      let data ← getinodataLoop inod tsz tmp tblks 0 obuf
      pure (some (tsz, data))

-- the test in the loop of `ext2fs_lookup`
def isHit (ddata : Bytes) (name : List UInt8) (i : Nat) : Bool :=
  nameLen ddata i == name.length &&
    (List.range name.length).all fun k => ddata (i + 8 + k) == name.getD k 0

/-- How many bytes `memcmp` reads: those up to the first one that differs. -/
def memcmpLen (ddata : Bytes) : (a : Nat) → List UInt8 → Nat
  | _, [] => 0
  | a, c :: cs => 1 + if ddata a = c then memcmpLen ddata (a + 1) cs else 0

/-- The bytes of `ddata` that one round of `ext2fs_lookup` reads. -/
def lookupReads (dirsz : Nat) (ddata : Bytes) (name : List UInt8) (i : Nat) : List Nat :=
  if dirsz ≤ i then []
  else
    -- `name_len`
    [i + 6] ++
    (if nameLen ddata i = name.length then List.range' (i + 8) (memcmpLen ddata (i + 8) name)
      else []) ++
    -- `inode` or `rec_len`
    if isHit ddata name i then List.range' i 4 else List.range' (i + 4) 2

def lookupStep (dirsz : Nat) (ddata : Bytes) (name : List UInt8) (i : Nat) : Option Nat :=
  if dirsz ≤ i then none
  else if isHit ddata name i then none
  else some (i + recLen ddata i)

/-- The walk over the copy; a read behind it is a fault.  A record of length 0 is never left; every
other one moves the walk on, so that only then `fuel` runs out. -/
def lookupLoop (dirsz : Nat) (ddata : Bytes) (name : List UInt8) :
    (fuel i : Nat) → Except Stop Nat
  | 0, _ => .error .fault
  | fuel + 1, i =>
    if dirsz ≤ i then .error (.err (-ENOENT))
    else if (lookupReads dirsz ddata name i).any (dirsz ≤ ·) then .error .fault
    else
      match lookupStep dirsz ddata name i with
      | none => .ok (entIno ddata i)
      | some j => lookupLoop dirsz ddata name fuel j

def ext2fsLookup (obuf : Option Bytes) (tmp : Bool) (dino : Nat) (name : List UInt8) :
    Op Ext2fs Nat := do
  let dinod ← getino dino
  let ddata ← getinodata obuf tmp dinod
  match ddata with
  | none => pure 0
  | some (dirsz, data) => Op.ofExcept (lookupLoop dirsz data name (dirsz + 1) 0)

structure Vinode where
  mode : Nat
  uid : Nat
  atime : Nat
  ctime : Nat
  mtime : Nat
  rdev : Nat
  gid : Nat
  lnkcnt : Nat
  size : Nat
  priv : Nat

def S_IFCHR : Nat := 0x2000
def S_IFBLK : Nat := 0x6000

-- `MKDEV`
def mkdev (maj min : Nat) : Nat := maj * 2 ^ 20 ||| min

def decodeDev (inod : Bytes) : Nat :=
  if iBlock inod 0 ≠ 0 then mkdev (iBlock inod 0 / 2 ^ 8 &&& 255) (iBlock inod 0 &&& 255)
  else mkdev ((iBlock inod 1 &&& 0xFFF00) / 2 ^ 8)
    ((iBlock inod 1 &&& 0xFF) ||| (iBlock inod 1 / 2 ^ 12 &&& 0xFFF00))

/-- `buf` after the call; `rdev` is only set for devices. -/
def fillVinode (g : Geo) (inod : Bytes) (ino : Nat) (buf : Vinode) : Vinode where
  mode := get16 inod 0
  uid := get16 inod 2
  atime := get32 inod 8
  ctime := get32 inod 12
  mtime := get32 inod 16
  rdev := if iType inod = S_IFCHR ∨ iType inod = S_IFBLK then decodeDev inod else buf.rdev
  gid := get16 inod 24
  lnkcnt := get16 inod 26
  size := g.getisize inod
  priv := ino

/-- What a call of `ext2fs_readdir` leaves: the return value, the cursor and the two buffers. -/
structure Found where
  ino : Nat
  prv : Nat
  name : Bytes
  buf : Vinode

/-- The record that makes `pos` equal to the cursor, or `pos` behind the block. -/
def seekEnt (bs : Nat) (blk : Bytes) (prv : Nat) :
    (fuel i pos : Nat) → Except Stop (Option Nat × Nat)
  | 0, _, pos => .ok (none, pos)
  | fuel + 1, i, pos =>
    if bs ≤ i then .ok (none, pos)
    else if recLen blk i < 8 ∨ bs < i + recLen blk i then .error (.err (-EINVAL))
    else if pos = prv then .ok (some i, pos)
    else seekEnt bs blk prv fuel (i + recLen blk i) (pos + 1)

/-- The record at the cursor; one without an inode ends the call and leaves the cursor. -/
def readEnt (prv namlen : Nat) (name : Bytes) (buf : Vinode) (blkd : Bytes) (i : Nat) :
    Op Ext2fs Found := do
  if entIno blkd i = 0 then Op.fail (-ENOENT)
  else
    let inod ← getino (entIno blkd i)
    let fs ← get
    let buf := fillVinode fs.geo inod (entIno blkd i) buf
    let len := nameLen blkd i
    if len + 1 ≤ namlen then
      if fs.geo.blocksz < i + 8 + len then Op.fault
      else
        pure ⟨entIno blkd i, (prv + 1) % 2 ^ 64, terminate (copy name 0 blkd (i + 8) len) len, buf⟩
    else pure ⟨entIno blkd i, (prv + 1) % 2 ^ 64, name, buf⟩

/-- The blocks of the directory, `m` of them from `b` on. -/
def readdirLoop (dinod : Bytes) (prv namlen : Nat) (name : Bytes) (buf : Vinode) :
    (m b pos : Nat) → Op Ext2fs Found
  | 0, _, _ => Op.fail (-1)
  | m + 1, b, pos => do
      let fs ← get
      let blk ← inoGetblkid dinod b
      if blk = 0 then Op.fail (-EINVAL)
      else
        let blkd ← rdblk blk
        let r ← Op.ofExcept (seekEnt fs.geo.blocksz blkd prv fs.geo.blocksz 0 pos)
        match r with
        | (none, pos) => readdirLoop dinod prv namlen name buf m (b + 1) pos
        | (some i, _) => readEnt prv namlen name buf blkd i

def ext2fsReaddir (dino prv namlen : Nat) (name : Bytes) (buf : Vinode) : Op Ext2fs Found := do
  let inod ← getino dino
  let fs ← get
  readdirLoop inod prv namlen name buf (fs.geo.sizeBlocks inod) 0 0

/-! ## Entries -/

/-- The records of a block, by their places. -/
def entOffs (bs : Nat) (blk : Bytes) : (fuel i : Nat) → List Nat
  | 0, _ => []
  | fuel + 1, i => if bs ≤ i then [] else i :: entOffs bs blk fuel (i + recLen blk i)

-- a block as `rdblk` reads it
def Ext2fs.rd (fs : Ext2fs) (b : Nat) : Bytes := blockRead fs.disk (b * fs.geo.spb % 2 ^ 32)

/-- The records of a list of blocks, by block and place. -/
def Ext2fs.places (fs : Ext2fs) (ws : List Nat) : List (Nat × Nat) :=
  ws.flatMap fun w => (entOffs fs.geo.blocksz (fs.rd w) fs.geo.blocksz 0).map (w, ·)

def Ext2fs.dirent (fs : Ext2fs) (p : Nat × Nat) : Dirent := direntAt (fs.rd p.1) p.2

def Ext2fs.dirEnts (fs : Ext2fs) (ws : List Nat) : List Dirent := (fs.places ws).map fs.dirent

/-- The answer of `ext2fs_lookup` for a list of entries. -/
def lookupIn (ents : List Dirent) (name : List UInt8) : Except Stop Nat :=
  match ents.find? fun e => e.name == name with
  | some e => .ok e.ino
  | none => .error (.err (-ENOENT))

section Recs

variable {blk : Bytes} {bs i j k fuel : Nat} {l l' : List Nat} {name : List UInt8}

theorem Recs.length_le (h : Recs blk i j l) : i + 8 * l.length ≤ j := by
  induction h with
  | nil => simp
  | cons hent _ ih =>
    have hge := hent.ge
    rw [length_cons]
    omega

theorem Recs.ent (h : Recs blk i j l) (hk : k ∈ l) : Ent blk k ∧ i ≤ k ∧ k + recLen blk k ≤ j := by
  induction h with
  | nil => cases hk
  | cons hent hrest ih =>
    have hle := hrest.le
    rcases mem_cons.mp hk with rfl | hk
    · exact ⟨hent, Nat.le_refl _, hle⟩
    · obtain ⟨hent', hlo, hhi⟩ := ih hk
      exact ⟨hent', by omega, hhi⟩

theorem Ents.recs (h : Ents blk i bs) (hfuel : bs ≤ i + fuel) :
    Recs blk i bs (entOffs bs blk fuel i) := by
  induction h generalizing fuel with
  | nil =>
    cases fuel with
    | zero => exact .nil _
    | succ fuel =>
      rw [entOffs, if_pos (Nat.le_refl _)]
      exact .nil _
  | cons hent hrest ih =>
    have hge := hent.ge
    have hle := hrest.le
    cases fuel with
    | zero => omega
    | succ fuel =>
      rw [entOffs, if_neg (by omega)]
      exact .cons hent (ih (by omega))

theorem Chain.recs (h : Chain bs blk) : Recs blk 0 bs (entOffs bs blk bs 0) :=
  Ents.recs h (by omega)

theorem isHit_eq (blk : Bytes) (name : List UInt8) (i : Nat) :
    isHit blk name i = ((direntAt blk i).name == name) := by
  have hlen := nameAt_length blk i
  change _ = (nameAt blk i == name)
  unfold isHit
  rw [Bool.eq_iff_iff, Bool.and_eq_true, beq_iff_eq, all_eq_true, beq_iff_eq]
  constructor
  · rintro ⟨heq, h⟩
    apply ext_getElem (by omega)
    intro k hk hk'
    have hbyte := h k (mem_range.mpr hk')
    rw [beq_iff_eq, getD_eq_getElem _ _ hk'] at hbyte
    rw [← hbyte]
    simp [nameAt]
  · intro h
    have heq : nameLen blk i = name.length := by rw [← hlen, h]
    refine ⟨heq, fun k hk => ?_⟩
    rw [mem_range] at hk
    rw [← h, getD_eq_getElem _ _ (by omega)]
    simp [nameAt]

theorem hasName_eq (hroom : i + 8 + nameLen blk i ≤ bs) :
    hasName bs blk name i = .ok ((direntAt blk i).name == name) := by
  rw [← isHit_eq]
  unfold hasName isHit
  split
  · rename_i hlen
    rw [if_neg (by omega), beq_iff_eq.mpr hlen, Bool.true_and]
  · rename_i hlen
    rw [beq_eq_false_iff_ne.mpr hlen, Bool.false_and]

theorem memcmpLen_le (blk : Bytes) (a : Nat) (cs : List UInt8) :
    memcmpLen blk a cs ≤ cs.length := by
  induction cs generalizing a with
  | nil => exact Nat.le_refl _
  | cons c cs ih =>
    have hrest := ih (a + 1)
    rw [memcmpLen, length_cons]
    split <;> omega

-- a record in the copy is read there
theorem lookupReads_lt (hroom : i + 8 + nameLen blk i ≤ bs) {r : Nat}
    (hr : r ∈ lookupReads bs blk name i) : r < bs := by
  have hle := memcmpLen_le blk (i + 8) name
  unfold lookupReads at hr
  rw [if_neg (by omega), mem_append, mem_append, mem_singleton] at hr
  rcases hr with (rfl | hr) | hr
  · omega
  · split at hr
    · rw [mem_range'_1] at hr
      omega
    · cases hr
  · split at hr <;> rw [mem_range'_1] at hr <;> omega

theorem Recs.scan (h : Recs blk i bs l) {hit : Nat → Except Stop Bool} {p : Nat → Bool}
    (hhit : ∀ k ∈ l, hit k = .ok (p k)) (hfuel : l.length ≤ fuel) (pdir : Option Nat) :
    ∃ r, scanEnts bs blk hit fuel i pdir = .ok r ∧ r.map Prod.fst = l.find? p := by
  induction h generalizing fuel pdir with
  | nil i =>
    refine ⟨none, ?_, rfl⟩
    cases fuel with
    | zero => rfl
    | succ fuel => rw [scanEnts, if_pos (Nat.le_refl _)]
  | @cons i j l hent hrest ih =>
    have hge := hent.ge
    have hle := hrest.le
    cases fuel with
    | zero => simp at hfuel
    | succ fuel =>
      rw [scanEnts, if_neg (by omega), if_neg (by omega), hhit i mem_cons_self,
        List.find?_cons]
      cases p i with
      | true => exact ⟨some (i, pdir), rfl, rfl⟩
      | false =>
        exact ih (fun k hk => hhit k (mem_cons_of_mem i hk)) (by simpa using hfuel) (some i)

theorem Recs.seek (h : Recs blk i bs l) {prv pos : Nat} (hfuel : l.length ≤ fuel)
    (hpos : pos ≤ prv) : seekEnt bs blk prv fuel i pos =
      .ok (l[prv - pos]?, if prv - pos < l.length then prv else pos + l.length) := by
  induction h generalizing fuel pos with
  | nil i =>
    cases fuel with
    | zero => rfl
    | succ fuel =>
      rw [seekEnt, if_pos (Nat.le_refl _)]
      rfl
  | @cons i j l hent hrest ih =>
    have hge := hent.ge
    have hle := hrest.le
    cases fuel with
    | zero => simp at hfuel
    | succ fuel =>
      rw [seekEnt, if_neg (by omega), if_neg (by omega)]
      split
      · rename_i heq
        rw [heq, Nat.sub_self]
        rfl
      obtain ⟨d, hd⟩ : ∃ d, prv - pos = d + 1 := ⟨prv - pos - 1, by omega⟩
      rw [ih (by simpa using hfuel) (by omega), hd, show prv - (pos + 1) = d by omega, length_cons]
      congr 2
      split
      · rw [if_pos (by omega)]
      · rw [if_neg (by omega)]
        omega

theorem Recs.lookup (h : Recs blk i bs l) (hfuel : l.length < fuel) :
    lookupLoop bs blk name fuel i = lookupIn (l.map (direntAt blk)) name := by
  induction h generalizing fuel with
  | nil i =>
    cases fuel with
    | zero => simp at hfuel
    | succ fuel =>
      rw [lookupLoop, if_pos (Nat.le_refl _)]
      rfl
  | @cons i j l hent hrest ih =>
    have hroom := hent.room
    have hle := hrest.le
    cases fuel with
    | zero => simp at hfuel
    | succ fuel =>
      have hreads : ¬ (lookupReads j blk name i).any (j ≤ ·) = true := by
        rw [any_eq_true]
        rintro ⟨r, hr, hle⟩
        have hlt := lookupReads_lt (by omega) hr
        exact absurd hlt (Nat.not_lt.mpr (of_decide_eq_true hle))
      rw [lookupLoop, if_neg (by omega), if_neg hreads, lookupStep, if_neg (by omega), isHit_eq,
        lookupIn, map_cons, List.find?_cons]
      cases (direntAt blk i).name == name with
      | true => rfl
      | false => exact ih (by simpa using hfuel)

end Recs

/-! ## Directories -/

/-- A directory as the driver reads it: the inode, its blocks in order, and that they are chains. -/
structure DirBlocks (fs : Ext2fs) (n : Nat) (inod : Bytes) (ws : List Nat) : Prop where
  inode : (getino n).run fs = .ok inod fs
  dir : iType inod = S_IFDIR
  size : get32 inod 4 = ws.length * fs.geo.blocksz
  block : ∀ b w, ws[b]? = some w → (inoGetblkid inod b).run fs = .ok w fs
  nonzero : ∀ w ∈ ws, w ≠ 0
  onDevice : ∀ w ∈ ws, w < fs.geo.blocksCount
  chain : ∀ w ∈ ws, Chain fs.geo.blocksz (fs.rd w)

section Dirs

variable {fs : Ext2fs} {n : Nat} {inod : Bytes} {ws : List Nat}

theorem getisize_dir (g : Geo) (hdir : iType inod = S_IFDIR) : g.getisize inod = get32 inod 4 := by
  have hbit : get16 inod 0 &&& S_IFDIR ≠ 0 := by
    have hsplit : get16 inod 0 &&& S_IFDIR = iType inod &&& S_IFDIR := by
      unfold iType
      rw [Nat.and_assoc]
      rfl
    rw [hsplit, hdir]
    decide
  unfold Geo.getisize
  rw [if_pos hbit, ite_self]

section

variable (hd : DirBlocks fs n inod ws) (hg : fs.geo.Mounted)

include hd hg

theorem DirBlocks.sizeBlocks :
    fs.geo.sizeBlocks inod = ws.length := by
  have hlt := get32_lt inod 4
  have hge := hg.blocksz_ge
  obtain ⟨k, -, hk, hbs⟩ := hg.blocksz
  have hpow : fs.geo.blocksz < 2 ^ 32 := by
    rw [hbs]
    exact Nat.pow_lt_pow_right (by decide) hk
  unfold Geo.sizeBlocks
  rw [getisize_dir _ hd.dir]
  rw [hd.size] at hlt ⊢
  rw [Nat.mod_eq_of_lt (by omega), Nat.mul_comm, Nat.mul_add_div (by omega),
    Nat.div_eq_of_lt (by omega), Nat.add_zero]

-- sizes are multiples of a power of two
theorem DirBlocks.size_le :
    (ws.length + 1) * fs.geo.blocksz ≤ 2 ^ 32 := by
  have hlt := get32_lt inod 4
  obtain ⟨k, -, hk, hbs⟩ := hg.blocksz
  rw [hd.size] at hlt
  have hsplit : 2 ^ 32 = 2 ^ (32 - k) * fs.geo.blocksz := by
    rw [hbs, ← Nat.pow_add]
    congr 1
    omega
  rw [hsplit] at hlt ⊢
  exact Nat.mul_le_mul_right _ (Nat.lt_of_mul_lt_mul_right hlt)

-- the sum has 32 bits here
theorem DirBlocks.tblks :
    (ws.length * fs.geo.blocksz + (fs.geo.blocksz - 1)) % 2 ^ 32 / fs.geo.blocksz = ws.length := by
  have hge := hg.blocksz_ge
  have hmul := hd.size_le hg
  rw [Nat.succ_mul] at hmul
  rw [Nat.mod_eq_of_lt (by omega), Nat.mul_comm, Nat.mul_add_div (by omega),
    Nat.div_eq_of_lt (by omega), Nat.add_zero]

end

variable {w m b i : Nat} {hit : Bytes → Nat → Except Stop Bool}

theorem DirBlocks.run_rdblk (hd : DirBlocks fs n inod ws) (hw : w ∈ ws) :
    (rdblk w).run fs = .ok (fs.rd w) fs := Ext2.run_rdblk (hd.onDevice w hw)

theorem DirBlocks.run_getinodataLoop (hd : DirBlocks fs n inod ws) (tmp : Bool)
    (hm : b + m = ws.length) (obuf : Bytes) :
    ∃ data, (getinodataLoop inod (ws.length * fs.geo.blocksz) tmp m b obuf).run fs = .ok data fs ∧
      (∀ x < b * fs.geo.blocksz, data x = obuf x) ∧
      ∀ j w, b ≤ j → ws[j]? = some w → ∀ x < fs.geo.blocksz,
        data (j * fs.geo.blocksz + x) = fs.rd w x := by
  induction m generalizing b obuf with
  | zero =>
    refine ⟨obuf, rfl, fun _ _ => rfl, fun j w hj hw => ?_⟩
    have hlt := (List.getElem?_eq_some_iff.mp hw).1
    omega
  | succ m ih =>
    obtain ⟨w, hw⟩ : ∃ w, ws[b]? = some w := ⟨_, List.getElem?_eq_getElem (by omega)⟩
    have hmem : w ∈ ws := mem_of_getElem? hw
    have hblft : ws.length * fs.geo.blocksz - b * fs.geo.blocksz = (m + 1) * fs.geo.blocksz := by
      rw [← Nat.sub_mul]
      congr 1
      omega
    have hb2cp : (if fs.geo.blocksz < (m + 1) * fs.geo.blocksz then fs.geo.blocksz
        else (m + 1) * fs.geo.blocksz) = fs.geo.blocksz := by
      split
      · rfl
      · rw [Nat.succ_mul] at *
        omega
    obtain ⟨data, hrun, hkeep, hdata⟩ := ih (b := b + 1) (by omega)
      (copy obuf (b * fs.geo.blocksz) (fs.rd w) 0 fs.geo.blocksz)
    refine ⟨data, ?_, ?_, ?_⟩
    · rw [getinodataLoop]
      refine (Op.run_bind_of_ok (hd.block b w hw) _).trans ?_
      dsimp only
      rw [hblft, hb2cp, if_neg (hd.nonzero w hmem), if_neg (by simp),
        Op.run_bind_of_ok (hd.run_rdblk hmem)]
      exact hrun
    · intro x hx
      rw [hkeep x (by rw [Nat.succ_mul]; omega), copy_of_ne (Or.inl hx)]
    intro j w' hj hw' x hx
    by_cases heq : j = b
    · subst heq
      rw [hw] at hw'
      cases hw'
      rw [hkeep _ (by rw [Nat.succ_mul]; omega), copy_apply hx, Nat.zero_add]
    · exact hdata j w' (by omega) hw' x hx

theorem dirEnts_cons (fs : Ext2fs) (w : Nat) (ws : List Nat) : fs.dirEnts (w :: ws) =
      (entOffs fs.geo.blocksz (fs.rd w) fs.geo.blocksz 0).map (direntAt (fs.rd w)) ++
        fs.dirEnts ws := by
  unfold Ext2fs.dirEnts Ext2fs.places
  rw [flatMap_cons, map_append, map_map]
  rfl

theorem DirBlocks.tail (hchain : ∀ v ∈ w :: ws, Chain fs.geo.blocksz (fs.rd v)) :
    ∀ v ∈ ws, Chain fs.geo.blocksz (fs.rd v) := fun v hv => hchain v (mem_cons_of_mem w hv)

theorem recs_concat (hchain : ∀ w ∈ ws, Chain fs.geo.blocksz (fs.rd w)) (data : Bytes) (b : Nat)
    (hdata : ∀ j w, ws[j]? = some w → ∀ x < fs.geo.blocksz,
      data ((b + j) * fs.geo.blocksz + x) = fs.rd w x) :
    ∃ l, Recs data (b * fs.geo.blocksz) ((b + ws.length) * fs.geo.blocksz) l ∧
      l.map (direntAt data) = fs.dirEnts ws := by
  induction ws generalizing b with
  | nil => exact ⟨[], .nil _, rfl⟩
  | cons w ws ih =>
    have hfirst := (hchain w mem_cons_self).recs.shift data (b * fs.geo.blocksz)
      fun x _ hx => hdata 0 w rfl x hx
    obtain ⟨hl, hmap⟩ := hfirst
    obtain ⟨l', hl', hmap'⟩ := ih (DirBlocks.tail hchain) (b + 1) fun j v hv x hx => by
      rw [show b + 1 + j = b + (j + 1) by omega]
      exact hdata (j + 1) v hv x hx
    rw [Nat.succ_mul, show b + 1 + ws.length = b + (w :: ws).length by
      rw [length_cons]; omega] at hl'
    refine ⟨_, hl.append hl', ?_⟩
    rw [map_append, hmap, hmap', dirEnts_cons]

/-- The first hit in a list of blocks, and the record before it. -/
def findHit (fs : Ext2fs) (hit : Bytes → Nat → Except Stop Bool) :
    List Nat → Option (Nat × Nat × Option Nat)
  | [] => none
  | w :: ws =>
    match scanEnts fs.geo.blocksz (fs.rd w) (hit (fs.rd w)) fs.geo.blocksz 0 none with
    | .ok (some r) => some (w, r)
    | _ => findHit fs hit ws

theorem mem_places : (w, i) ∈ fs.places ws ↔
    w ∈ ws ∧ i ∈ entOffs fs.geo.blocksz (fs.rd w) fs.geo.blocksz 0 := by
  unfold Ext2fs.places
  rw [mem_flatMap]
  constructor
  · rintro ⟨v, hv, hmem⟩
    obtain ⟨j, hj, heq⟩ := mem_map.mp hmem
    cases heq
    exact ⟨hv, hj⟩
  · rintro ⟨hw, hi⟩
    exact ⟨w, hw, mem_map.mpr ⟨i, hi, rfl⟩⟩

theorem findHit_find {p : Nat × Nat → Bool} (hchain : ∀ w ∈ ws, Chain fs.geo.blocksz (fs.rd w))
    (hhit : ∀ q ∈ fs.places ws, hit (fs.rd q.1) q.2 = .ok (p q)) :
    (findHit fs hit ws).map (fun r => (r.1, r.2.1)) = (fs.places ws).find? p := by
  induction ws with
  | nil => rfl
  | cons w ws ih =>
    have hrecs := (hchain w mem_cons_self).recs
    have hlen := hrecs.length_le
    have hrest : ∀ q ∈ fs.places ws, hit (fs.rd q.1) q.2 = .ok (p q) := by
      rintro ⟨v, j⟩ hq
      obtain ⟨hv, hj⟩ := mem_places.mp hq
      exact hhit _ (mem_places.mpr ⟨mem_cons_of_mem w hv, hj⟩)
    have hfirst : ∀ j ∈ entOffs fs.geo.blocksz (fs.rd w) fs.geo.blocksz 0,
        hit (fs.rd w) j = .ok (p (w, j)) := by
      intro j hj
      exact hhit (w, j) (mem_places.mpr ⟨mem_cons_self, hj⟩)
    obtain ⟨r, hscan, hr⟩ := hrecs.scan hfirst (by omega : _ ≤ fs.geo.blocksz) none
    have hplaces : fs.places (w :: ws) =
        (entOffs fs.geo.blocksz (fs.rd w) fs.geo.blocksz 0).map (w, ·) ++ fs.places ws := rfl
    have hmap : ((entOffs fs.geo.blocksz (fs.rd w) fs.geo.blocksz 0).map (w, ·)).find? p =
        r.map fun r => (w, r.1) := by
      rw [List.find?_map, show p ∘ (w, ·) = fun j => p (w, j) from rfl, ← hr, Option.map_map]
      rfl
    rw [findHit, hscan, hplaces, List.find?_append, hmap]
    cases r with
    | none => exact ih (DirBlocks.tail hchain) hrest
    | some r => rfl

theorem findHit_mem {pdir : Option Nat} (h : findHit fs hit ws = some (w, i, pdir)) : w ∈ ws := by
  induction ws with
  | nil => cases h
  | cons v ws ih =>
    rw [findHit] at h
    split at h
    · cases h
      exact mem_cons_self
    · exact mem_cons_of_mem v (ih h)

/-- What a lookup answers; one in a directory of size 0 returns 0. -/
theorem DirBlocks.run_lookup (hd : DirBlocks fs n inod ws) (hg : fs.geo.Mounted) (obuf : Bytes)
    (tmp : Bool) (name : List UInt8) : (ext2fsLookup (some obuf) tmp n name).run fs =
      if ws = [] then .ok 0 fs else (Op.ofExcept (lookupIn (fs.dirEnts ws) name)).run fs := by
  have hlt := get32_lt inod 4
  have htsz : fs.geo.getisize inod % 2 ^ 32 = ws.length * fs.geo.blocksz := by
    rw [getisize_dir _ hd.dir, Nat.mod_eq_of_lt hlt, hd.size]
  unfold ext2fsLookup
  rw [Op.run_bind_of_ok hd.inode]
  split
  · rename_i hempty
    subst hempty
    have hdata : (getinodata (some obuf) tmp inod).run fs = .ok none fs := by
      unfold getinodata
      rw [Op.run_get_bind, htsz]
      rw [if_pos (show ([] : List Nat).length * _ = 0 from Nat.zero_mul _)]
      rfl
    rw [Op.run_bind_of_ok hdata]
    rfl
  · rename_i hne
    have hge := hg.blocksz_ge
    have hpos : ws.length * fs.geo.blocksz ≠ 0 :=
      Nat.mul_ne_zero (fun h => hne (length_eq_zero_iff.mp h)) (by omega)
    obtain ⟨data, hrun, -, hbytes⟩ := hd.run_getinodataLoop tmp (m := ws.length) (b := 0)
      (by omega) obuf
    have hdata : (getinodata (some obuf) tmp inod).run fs =
        .ok (some (ws.length * fs.geo.blocksz, data)) fs := by
      unfold getinodata
      rw [Op.run_get_bind, htsz]
      rw [if_neg hpos, hd.tblks hg, Op.run_bind_of_ok hrun]
      rfl
    obtain ⟨l, hl, hmap⟩ := recs_concat hd.chain data 0 fun j w hw x hx => by
      rw [Nat.zero_add]
      exact hbytes j w (Nat.zero_le _) hw x hx
    rw [Nat.zero_mul, Nat.zero_add] at hl
    have hlen := hl.length_le
    rw [Op.run_bind_of_ok hdata]
    dsimp only
    rw [hl.lookup (by omega), hmap]

/-! ### `ext2fs_readdir` -/

/-- What the caller gets for an entry whose inode is `inod`. -/
def Dirent.found (g : Geo) (prv namlen : Nat) (name : Bytes) (buf : Vinode) (inod : Bytes)
    (e : Dirent) : Found where
  ino := e.ino
  prv := (prv + 1) % 2 ^ 64
  name :=
    if e.name.length + 1 ≤ namlen then
      terminate (copy name 0 (ofString e.name) 0 e.name.length) e.name.length
    else name
  buf := fillVinode g inod e.ino buf

/-- The call for the entry at the cursor. -/
def Dirent.read (prv namlen : Nat) (name : Bytes) (buf : Vinode) (e : Dirent) :
    Op Ext2fs Found := do
  if e.ino = 0 then Op.fail (-ENOENT)
  else
    let inod ← getino e.ino
    let fs ← get
    pure (e.found fs.geo prv namlen name buf inod)

/-- `getino` leaves the file system alone, and its errors are not the one for the end. -/
theorem getino_frame (fs : Ext2fs) (m : Nat) :
    Post (getino m) fs (fun _ fs' => fs' = fs ∧ m ≠ 0 ∧
        fs.geo.inoBlk m < fs.geo.blocksCount ∧ fs.geo.inoOff m + 128 ≤ fs.geo.blocksz)
      (fun e fs' => fs' = fs ∧ e ≠ .err (-1)) := by
  unfold getino
  split
  · exact Post.fail ⟨rfl, by decide⟩
  rename_i hm
  apply Post.get_bind
  dsimp only
  split
  · exact Post.fail ⟨rfl, by decide⟩
  refine Post.bind (inodeused_frame fs m) ?_ fun _ _ h => h
  rintro used _ ⟨rfl, -⟩
  split
  · exact Post.fail ⟨rfl, by decide⟩
  split
  · exact Post.fail ⟨rfl, by decide⟩
  split
  · exact Post.fail ⟨rfl, by decide⟩
  rename_i hblk
  apply Post.bind_ok (Ext2.run_rdblk (Nat.lt_of_not_le hblk))
  split
  · exact Post.fault ⟨rfl, by decide⟩
  · rename_i hoff
    exact Post.pure ⟨rfl, hm, Nat.lt_of_not_le hblk, Nat.le_of_not_lt hoff⟩

-- the bytes of a name, from the block or from the list
theorem copy_nameAt (name blk : Bytes) (i : Nat) : copy name 0 blk (i + 8) (nameLen blk i) =
      copy name 0 (ofString (nameAt blk i)) 0 (nameAt blk i).length := by
  rw [nameAt_length]
  funext x
  by_cases hx : x < nameLen blk i
  swap
  · rw [copy_of_ne (by omega), copy_of_ne (by omega)]
  have hval : ofString (nameAt blk i) x = blk (i + 8 + x) := by
    unfold ofString
    rw [getD_eq_getElem _ _ (by rw [nameAt_length]; exact hx)]
    simp [nameAt]
  have hleft : copy name 0 blk (i + 8) (nameLen blk i) (0 + x) = _ := copy_apply hx
  have hright : copy name 0 (ofString (nameAt blk i)) 0 (nameLen blk i) (0 + x) = _ :=
    copy_apply hx
  rw [Nat.zero_add] at hleft hright
  rw [hleft, hright, hval]

theorem run_readEnt {blk : Bytes} (hroom : i + 8 + nameLen blk i ≤ fs.geo.blocksz)
    (prv namlen : Nat) (name : Bytes) (buf : Vinode) : (readEnt prv namlen name buf blk i).run fs =
      ((direntAt blk i).read prv namlen name buf).run fs := by
  unfold readEnt Dirent.read
  change _ = (if entIno blk i = 0 then _ else _ : Op Ext2fs Found).run fs
  split
  · rfl
  have hframe := getino_frame fs (entIno blk i)
  change _ = (getino (entIno blk i) >>= _ : Op Ext2fs Found).run fs
  cases hget : (getino (entIno blk i)).run fs with
  | error e fs' => rw [Op.run_bind_of_error hget, Op.run_bind_of_error hget]
  | ok inod fs' =>
    have hsame : fs' = fs := (hframe.ok hget).1
    subst hsame
    rw [Op.run_bind_of_ok hget, Op.run_bind_of_ok hget, Op.run_get_bind, Op.run_get_bind]
    change _ = EStateM.Result.ok (Found.mk (entIno blk i) _
      (if (nameAt blk i).length + 1 ≤ namlen then terminate (copy name 0
        (ofString (nameAt blk i)) 0 (nameAt blk i).length) (nameAt blk i).length else name)
      (fillVinode _ inod (entIno blk i) buf)) _
    dsimp only
    rw [if_neg (Nat.not_lt_of_le hroom), copy_nameAt, nameAt_length]
    split
    · rfl
    · rfl

theorem DirBlocks.run_readdirLoop (hd : DirBlocks fs n inod ws) (prv namlen : Nat) (name : Bytes)
    (buf : Vinode) {pos : Nat} (hm : b + m = ws.length) (hpos : pos ≤ prv) :
    (readdirLoop inod prv namlen name buf m b pos).run fs =
      match (fs.dirEnts (ws.drop b))[prv - pos]? with
      | none => .error (.err (-1)) fs
      | some e => (e.read prv namlen name buf).run fs := by
  induction m generalizing b pos with
  | zero =>
    rw [drop_eq_nil_of_le (by omega)]
    rfl
  | succ m ih =>
    have hb : b < ws.length := by omega
    have hmem : ws[b] ∈ ws := getElem_mem hb
    have hrecs := (hd.chain _ hmem).recs
    have hlen := hrecs.length_le
    have hseek := hrecs.seek (by omega : _ ≤ fs.geo.blocksz) hpos
    rw [readdirLoop]
    refine (Op.run_bind_of_ok (hd.block b _ (List.getElem?_eq_getElem hb)) _).trans ?_
    rw [if_neg (hd.nonzero _ hmem)]
    refine (Op.run_bind_of_ok (hd.run_rdblk hmem) _).trans ?_
    rw [hseek, drop_eq_getElem_cons hb, dirEnts_cons]
    by_cases hin : prv - pos < (entOffs fs.geo.blocksz (fs.rd ws[b]) fs.geo.blocksz 0).length
    · -- the record is in this block
      have hent := hrecs.ent (getElem_mem hin)
      have hroom := hent.1.room
      rw [List.getElem?_append_left (by rw [length_map]; exact hin), List.getElem?_map,
        List.getElem?_eq_getElem hin]
      exact run_readEnt (by omega) prv namlen name buf
    · rw [List.getElem?_append_right (by rw [length_map]; omega), length_map,
        List.getElem?_eq_none (Nat.le_of_not_lt hin), if_neg hin]
      refine (ih (by omega) (by omega)).trans ?_
      rw [Nat.sub_add_eq]

theorem DirBlocks.run_readdir (hd : DirBlocks fs n inod ws) (hg : fs.geo.Mounted)
    (prv namlen : Nat) (name : Bytes) (buf : Vinode) :
    (ext2fsReaddir n prv namlen name buf).run fs = match (fs.dirEnts ws)[prv]? with
      | none => .error (.err (-1)) fs
      | some e => (e.read prv namlen name buf).run fs := by
  unfold ext2fsReaddir
  rw [Op.run_bind_of_ok hd.inode, Op.run_get_bind, hd.sizeBlocks hg]
  exact hd.run_readdirLoop prv namlen name buf (by omega) (Nat.zero_le _)

end Dirs

end Ext2
