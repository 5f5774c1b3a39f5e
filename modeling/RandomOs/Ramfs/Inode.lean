import RandomOs.Kern.Errno
import RandomOs.Lib.Bytes
import RandomOs.Lib.Op

/-!
# The memory file system (`ramfs.c`)

The memory of an inode holds bytes, or the entries of a directory.  What `malloc` and `realloc`
hand out is not cleared: allocation `k` starts out as `junk k`.
-/

namespace Ramfs

open Lib Kern

/-! ## Model -/

def S_IFLNK : Nat := 0xA000
def S_IFREG : Nat := 0x8000
def S_IFBLK : Nat := 0x6000
def S_IFDIR : Nat := 0x4000
def S_IFCHR : Nat := 0x2000

/-- A string of the source, without its NUL. -/
abbrev CString := {text : List UInt8 // 0 ∉ text}

-- `namep` is the memory behind the pointer, if there is any
structure Dirent where
  used : Bool
  inode : Nat
  namlen : Nat
  namep : Option (List UInt8)

inductive Data
  | raw (bytes : Bytes)
  | dir (slots : Nat → Dirent)

-- the times are never set
structure Inode where
  used : Bool
  mode : Nat
  uid : Nat
  gid : Nat
  size : Nat
  rdev : Nat
  allocd : Nat
  data : Data

structure Junk where
  bytes : Bytes
  slots : Nat → Dirent
  inodes : Nat → Inode

/-- The allocator, with what the allocations to come contain. -/
structure Heap where
  count : Nat
  grants : Nat → Nat → Bool
  junk : Nat → Junk

-- `ramfs_info`; `inodtbl` is indexed from 0 and inode numbers start at 1
structure Info where
  inodtbl : Nat → Inode
  ninodes : Nat
  freehint : Nat
  heap : Heap

def Info.inode (fs : Info) (ino : Nat) : Inode := fs.inodtbl (ino - 1)

def Info.putInode (fs : Info) (ino : Nat) (inod : Inode) : Info :=
  { fs with inodtbl := Function.update fs.inodtbl (ino - 1) inod }

-- every caller turns a null pointer into `-ENOMEM`
def malloc (n : Nat) : Op Info Junk := do
  let fs ← get
  set { fs with heap := { fs.heap with count := fs.heap.count + 1 } }
  if fs.heap.grants fs.heap.count n then
    -- `allocate_new_tag` adds its tag to the size in 32 bits: a larger block is too short
    if n + 48 < 2 ^ 32 then pure (fs.heap.junk fs.heap.count) else Op.fault
  else Op.fail (-ENOMEM)

-- a `realloc` that is refused copies the old block, if there is one, to address 0 and frees it
def realloc (null : Bool) (n : Nat) : Op Info Junk := do
  let fs ← get
  if null ∨ n ≠ 0 ∧ fs.heap.grants fs.heap.count n then malloc n else Op.fault

/-- `realloc` keeps the first `old` bytes. -/
def Data.grow (old : Nat) (junk : Junk) : Data → Data
  | .raw bytes => .raw fun i => if i < old then bytes i else junk.bytes i
  | .dir slots => .dir fun i => if 24 * (i + 1) ≤ old then slots i else junk.slots i

def getinod (ino : Nat) : Op Info Inode := do
  let fs ← get
  if ino = 0 ∨ fs.ninodes < ino then Op.fail (-ENOENT)
  else if (fs.inode ino).used then pure (fs.inode ino) else Op.fail (-ENOENT)

/-! ### Inodes -/

-- the first unused inode among `n` from index `i`
def Info.findUnused (fs : Info) : Nat → Nat → Option Nat
  | 0, _ => none
  | n + 1, i => if (fs.inodtbl i).used then fs.findUnused n (i + 1) else some i

def findfreeino : Op Info Nat := do
  modify fun fs => { fs with freehint := if fs.ninodes ≤ fs.freehint then 0 else fs.freehint }
  let fs ← get
  match (fs.findUnused (fs.ninodes - fs.freehint) fs.freehint).or (fs.findUnused fs.freehint 0) with
  | some i =>
    modify fun fs => { fs with freehint := i + 1 }
    pure (i + 1)
  | none =>
    let junk ← realloc false (56 * ((fs.ninodes + 64) % 2 ^ 32))
    let ino := (fs.ninodes + 1) % 2 ^ 32
    -- the new part of the table is not cleared
    modify fun fs => { fs with
      inodtbl := fun i => if i < fs.ninodes then fs.inodtbl i else junk.inodes i
      ninodes := (fs.ninodes + 64) % 2 ^ 32
      freehint := ino }
    pure ino

def Data.fresh (mode : Nat) (junk : Junk) : Data :=
  if mode &&& 0xF000 = S_IFDIR then .dir junk.slots else .raw junk.bytes

def baseMkino (ino : Nat) (inod : Inode) (alloc : Bool) : Op Info Nat := do
  if alloc then
    let junk ← malloc 1024
    modify (·.putInode ino { inod with allocd := 1024, data := .fresh inod.mode junk })
  else
    modify (·.putInode ino inod)
  pure ino

def ramfsMkino (mode uid gid : Nat) : Op Info Nat := do
  let ino ← findfreeino
  baseMkino ino ⟨true, mode, uid, gid, 0, 0, 0, .raw Bytes.zero⟩ true

def ramfsMknod (mode uid gid rdev : Nat) : Op Info Nat := do
  let ino ← findfreeino
  baseMkino ino ⟨true, mode, uid, gid, 0, rdev, 0, .raw Bytes.zero⟩ false

def ofText (text : List UInt8) : Bytes := fun i => text.getD i 0

def ramfsSymlink (mode uid gid : Nat) (target : CString) : Op Info Nat := do
  let ino ← findfreeino
  let tlen := target.1.length + 1
  let _ ← malloc tlen
  baseMkino ino ⟨true, mode, uid, gid, tlen, 0, tlen, .raw (ofText target.1)⟩ false

def ramfsRmino (ino : Nat) : Op Info Unit := do
  let _ ← getinod ino
  modify fun fs =>
    { fs.putInode ino ⟨false, 0, 0, 0, 0, 0, 0, .raw Bytes.zero⟩ with
      freehint := if ino - 1 < fs.freehint then ino - 1 else fs.freehint }

/-! ### Directories -/

-- reading a file as directory entries follows pointers that are none
def Inode.slot (d : Inode) (i : Nat) : Except Stop Dirent :=
  match d.data with
  | .dir slots => if 24 * (i + 1) ≤ d.allocd then .ok (slots i) else .error .fault
  | .raw _ => .error .fault

def Inode.setSlot (d : Inode) (i : Nat) (e : Dirent) : Except Stop Inode :=
  match d.data with
  | .dir slots =>
    if 24 * (i + 1) ≤ d.allocd then .ok { d with data := .dir (Function.update slots i e) }
    else .error .fault
  | .raw _ => .error .fault

def Inode.ndirs (d : Inode) : Nat := d.size / 24

/-- The loops over a directory: the first of `n` entries from `i` on that passes a test. -/
def Inode.findSlot (d : Inode) (test : Dirent → Except Stop Bool) :
    Nat → Nat → Except Stop (Option Nat)
  | 0, _ => pure none
  | n + 1, i => do
      let e ← d.slot i
      if ← test e then pure (some i) else d.findSlot test n (i + 1)

def strneq (s1 s2 : List UInt8) (n : Nat) : Bool :=
  (List.range n).all fun i => s1.getD i 0 == s2.getD i 0

def Dirent.named (name : CString) (e : Dirent) : Except Stop Bool :=
  if e.used ∧ e.namlen = name.1.length + 1 then
    match e.namep with
    | none => .error .fault
    | some text => .ok (strneq text name.1 (name.1.length + 1))
  else .ok false

def Dirent.dead (e : Dirent) : Except Stop Bool := .ok !e.used

/-- The entry that `ramfs_mklink` fills, and whether the memory has to grow for it. -/
def Inode.tgtent (d : Inode) : Except Stop (Nat × Bool) := do
  match ← d.findSlot Dirent.dead d.ndirs 0 with
  | some i => pure (i, false)
  | none =>
    if d.allocd < (d.size + 24) % 2 ^ 64 then pure (d.allocd / 24, true)
    else pure (d.size / 24, false)

def growDir (d : Inode) : Op Info Inode := do
  let allocd := (d.allocd + 24 * 32) % 2 ^ 64
  let junk ← realloc (d.allocd == 0) allocd
  pure { d with allocd := allocd, data := d.data.grow d.allocd junk }

def ramfsMklink (ino dino : Nat) (name : CString) : Op Info Unit := do
  let dinod ← getinod dino
  let _ ← malloc (name.1.length + 1)
  let ent : Dirent := ⟨true, ino, (name.1.length + 1) % 2 ^ 32, some name.1⟩
  let (i, grows) ← Op.ofExcept dinod.tgtent
  let dinod ← if grows then growDir dinod else pure dinod
  let dinod ← Op.ofExcept (dinod.setSlot i ent)
  -- also where an entry was used again
  modify (·.putInode dino { dinod with size := (dinod.size + 24) % 2 ^ 64 })

def ramfsRmlink (dino : Nat) (name : CString) : Op Info Unit := do
  let dinod ← getinod dino
  match ← Op.ofExcept (dinod.findSlot (Dirent.named name) dinod.ndirs 0) with
  | some i =>
    let dinod ← Op.ofExcept (dinod.setSlot i ⟨false, 0, 0, none⟩)
    modify (·.putInode dino dinod)
  | none => Op.fail (-ENOENT)

def ramfsLookup (dino : Nat) (name : CString) : Op Info Nat := do
  let dinod ← getinod dino
  match ← Op.ofExcept (dinod.findSlot (Dirent.named name) dinod.ndirs 0) with
  | some i =>
    let e ← Op.ofExcept (dinod.slot i)
    pure e.inode
  | none => Op.fail (-ENOENT)

/-! ### Files -/

def Inode.load (d : Inode) (off n : Nat) : Except Stop (List UInt8) :=
  match d.data with
  | .raw bytes =>
    if off + n ≤ d.allocd then .ok ((List.range n).map fun i => bytes (off + i))
    else .error .fault
  | .dir _ => .error .fault

def Inode.store (d : Inode) (off n : Nat) (buf : Bytes) : Except Stop Inode :=
  match d.data with
  | .raw bytes =>
    if off + n ≤ d.allocd then .ok { d with data := .raw (Bytes.copy bytes off buf 0 n) }
    else .error .fault
  | .dir _ => .error .fault

def ramfsRead (ino off nb : Nat) : Op Info (List UInt8) := do
  let inod ← getinod ino
  if inod.size < off then Op.fail (-1)
  else
    let nb := if inod.size < (off + nb) % 2 ^ 64 then inod.size - off else nb
    Op.ofExcept (inod.load off nb)

/-- The doubling loop; after 64 rounds the capacity is 0 and the loop does not end. -/
def newcap (need : Nat) : Nat → Nat → Option Nat
  | 0, _ => none
  | fuel + 1, cap => if cap < need then newcap need fuel (cap * 2 % 2 ^ 64) else some cap

def growFile (inod : Inode) (need : Nat) : Op Info Inode :=
  match newcap need 65 (if inod.allocd = 0 then 1024 else inod.allocd) with
  | none => Op.fault
  | some cap => do
      let junk ← realloc (inod.allocd == 0) cap
      pure { inod with allocd := cap, data := inod.data.grow inod.allocd junk }

def ramfsWrite (ino off nb : Nat) (buf : Bytes) : Op Info Nat := do
  let inod ← getinod ino
  let need := (off + nb) % 2 ^ 64
  let inod ← if inod.allocd < need then growFile inod need else pure inod
  let inod ← Op.ofExcept (inod.store off nb buf)
  modify (·.putInode ino { inod with size := if inod.size < need then need else inod.size })
  pure nb

def ramfsTrunc (ino : Nat) : Op Info Unit := do
  let inod ← getinod ino
  let inod ← Op.ofExcept (inod.store 0 inod.size Bytes.zero)
  modify (·.putInode ino { inod with size := 0 })

/-! ## Inodes in use -/

/-- `ino` is the number of an inode in use. -/
def Info.Has (fs : Info) (ino : Nat) : Prop :=
  ino ≠ 0 ∧ ino ≤ fs.ninodes ∧ (fs.inode ino).used = true

theorem run_getinod {fs : Info} {ino : Nat} (h : fs.Has ino) :
    (getinod ino).run fs = .ok (fs.inode ino) fs := by
  obtain ⟨hne, hle, hused⟩ := h
  unfold getinod
  rw [Op.run_get_bind, if_neg (by omega), if_pos hused]
  rfl

/-- The state after an allocation. -/
def Info.tick (fs : Info) : Info :=
  { fs with heap := { fs.heap with count := fs.heap.count + 1 } }

theorem run_malloc (n : Nat) (fs : Info) : (malloc n).run fs =
    if fs.heap.grants fs.heap.count n then
      if n + 48 < 2 ^ 32 then .ok (fs.heap.junk fs.heap.count) fs.tick else .error .fault fs.tick
    else .error (.err (-ENOMEM)) fs.tick := by
  unfold malloc
  rw [Op.run_get_bind]
  split_ifs <;> rfl

theorem run_realloc (null : Bool) (n : Nat) (fs : Info) : (realloc null n).run fs =
    if null ∨ n ≠ 0 ∧ fs.heap.grants fs.heap.count n then (malloc n).run fs
    else .error .fault fs := by
  unfold realloc
  rw [Op.run_get_bind]
  split <;> rfl

/-- Memory that is handed out is the next junk, and not too short. -/
theorem malloc_post (n : Nat) (fs : Info) :
    Op.Post (malloc n) fs (fun junk fs' => fs' = fs.tick ∧ junk = fs.heap.junk fs.heap.count ∧
      n + 48 < 2 ^ 32) (fun _ _ => True) := by
  unfold Op.Post
  rw [run_malloc]
  split_ifs with _ hn
  · exact ⟨rfl, rfl, hn⟩
  all_goals trivial

theorem realloc_post (null : Bool) (n : Nat) (fs : Info) :
    Op.Post (realloc null n) fs (fun junk fs' => fs' = fs.tick ∧
      junk = fs.heap.junk fs.heap.count ∧ n + 48 < 2 ^ 32) (fun _ _ => True) := by
  have hmalloc := malloc_post n fs
  unfold Op.Post at hmalloc ⊢
  rw [run_realloc]
  split_ifs
  · exact hmalloc
  · trivial

/-- Apart from the inode and the allocations nothing changes. -/
structure Info.Stored (fs fs' : Info) (ino : Nat) (inod : Inode) : Prop where
  inodtbl : fs'.inodtbl = Function.update fs.inodtbl (ino - 1) inod
  ninodes : fs'.ninodes = fs.ninodes
  freehint : fs'.freehint = fs.freehint

theorem Info.Stored.has {fs fs' : Info} {ino : Nat} {inod : Inode} (hs : fs.Stored fs' ino inod)
    (hhas : fs.Has ino) (hused : inod.used = true) : fs'.Has ino ∧ fs'.inode ino = inod := by
  have hinod : fs'.inode ino = inod := by
    unfold Info.inode
    rw [hs.inodtbl, Function.update_self]
  refine ⟨⟨hhas.1, ?_, ?_⟩, hinod⟩
  · rw [hs.ninodes]
    exact hhas.2.1
  · rwa [hinod]

end Ramfs
