import Mathlib.Data.Nat.Digits.Defs
import RandomOs.Lib.Quad
import RandomOs.Lib.Slice
import RandomOs.Vfs.Creat
import RandomOs.Vfs.Extend

/-!
# Drivers behind device files (`kern/udevr.c`)

A driver is entered in a table of records of 56 bytes.  A device file is an inode with a device
number; the descriptor of an open one keeps 16 bits of it, and a read looks for the driver again.
The device numbers of inodes are kept beside the tables of the file systems.
-/

namespace Kern

open Lib Bytes Vfs

/-! ## The table of drivers -/

structure Drv where
  id : Nat
  name : Str
  flags : Nat
  read : Nat
  write : Nat

/-- `udevr`, `udevrav` and `udevr_devfs`. -/
structure Udevr where
  tbl : Bytes
  av : Nat
  devfs : Bool

namespace Udevr

variable (u : Udevr) (k : Nat)

def used : Bool := u.tbl (56 * k) != 0

-- up to the first zero; no path has room for more
def name : Str := (slice u.tbl (56 * k + 1) 1024).takeWhile (· != 0)

def id : Nat := get16 u.tbl (56 * k + 34)

def flags : Nat := get16 u.tbl (56 * k + 36)

def read : Nat := get64 u.tbl (56 * k + 40)

def write : Nat := get64 u.tbl (56 * k + 48)

/-- The first record of a driver. -/
def find (drv : Nat) : Option Nat := (List.range u.av).find? fun k => u.used k && u.id k == drv

end Udevr

/-- `udevr[k]` is filled in. -/
def putDrv (m : Bytes) (k : Nat) (d : Drv) : Bytes :=
  let m := store m (56 * k) [1]
  let m := put16 m (56 * k + 34) d.id
  let m := put16 m (56 * k + 36) d.flags
  let m := put64 m (56 * k + 40) d.read
  let m := put64 m (56 * k + 48) d.write
  store m (56 * k + 1) (d.name ++ [0])

/-- `mem` is what `realloc` gives when the table is full; where it gives nothing, the table is
copied to address 0.  The offset of the `memset` is in bytes. -/
def udevrRegister (d : Drv) (mem : Option Bytes) (u : Udevr) : Option Udevr :=
  match (List.range u.av).find? fun k => !u.used k with
  | some k => some { u with tbl := putDrv u.tbl k d }
  | none => mem.map fun new =>
      let new := copy new 0 u.tbl 0 (56 * u.av)
      let new := copy new u.av zero 0 (56 * 16)
      { u with tbl := putDrv new u.av d, av := u.av + 16 }

def UDEV_RD : Nat := 1

def MAJOR (dev : Nat) : Nat := dev >>> 20

def MINOR (dev : Nat) : Nat := dev &&& (2 ^ 20 - 1)

/-- As a `u32`. -/
def MKDEV (maj min : Nat) : Nat := (maj <<< 20 ||| min) % 2 ^ 32

/-- What a `read` or `write` comes to: a call of a driver's function, the driver of a file system,
or an error. -/
inductive Answer
  | call (fn minor buf size : Nat)
  | file (mnt ino buf size : Nat)
  | err (code : Int)

/-- `udevr_read` on a descriptor with this device number. -/
def udevrRead (u : Udevr) (rdev buf size : Nat) : Answer :=
  match u.find (MAJOR rdev) with
  | none => .err (-ENOEXIST)
  | some k =>
    if u.flags k &&& UDEV_RD ≠ 0 then .call (u.read k) (MINOR rdev % 2 ^ 16) buf size
    else .err (-EACCESS)

/-! ## Device files -/

def S_IFBLK : Nat := 0x6000

def S_IFCHR : Nat := 0x2000

def O_TRUNC : Nat := 0x10

structure DevSys where
  sys : Sys
  rdev : Nat → Nat → Nat
  reg : Udevr

/-- New inodes have the device number `dev`. -/
def DevSys.withSys (w : DevSys) (s : Sys) (dev : Nat) : DevSys :=
  { w with
    sys := s
    rdev := fun i x =>
      if (w.sys.inode i x).isNone && (s.inode i x).isSome then dev else w.rdev i x }

def mknod (path : Str) (dev mode : Nat) (alloc : Option Nat) : Op DevSys Unit := fun w =>
  match (vfsBasecreat path mode alloc).run w.sys with
  | .ok _ s => .ok () (w.withSys s dev)
  | .error e s => .error e (w.withSys s dev)

/-- `"/dev/%s%d"`. -/
def devPath (name : Str) (id : Nat) : Str :=
  [47, 100, 101, 118, 47] ++ name ++ (Nat.toDigits 10 id).map fun c => UInt8.ofNat c.toNat

def udevrRegdev (drv id : Nat) (alloc : Option Nat) : Op DevSys Unit := do
  let w ← get
  if w.reg.devfs then
    match w.reg.find drv with
    | some k => mknod ((devPath (w.reg.name k) id).take 1023) (MKDEV drv id) 0o644 alloc
    | none => Op.fail (-ENOEXIST)
  else pure ()

/-- What a descriptor holds: `struct device` with a `u16` for the number, or `struct file`. -/
inductive Desc
  | dev (mode rdev : Nat)
  | file (mnt ino : Nat)

def mountOf (s : Sys) (path : Str) : Option Nat :=
  match vfsAbspath s.cwd path 1024 with
  | .error _ => none
  | .ok abs => vfsGetmnt s abs

def isDevice (mode : Nat) : Prop := sType mode = S_IFBLK ∨ sType mode = S_IFCHR

instance (mode : Nat) : Decidable (isDevice mode) :=
  inferInstanceAs (Decidable (sType mode = S_IFBLK ∨ sType mode = S_IFCHR))

/-- `open` up to what the new descriptor holds; `trunc` is what the driver returns for `O_TRUNC`. -/
def openDesc (path : Str) (flags mode : Nat) (alloc : Option Nat) (trunc : Int) : Op DevSys Desc :=
  fun w =>
    match (openIno path flags mode alloc).run w.sys with
    | .error e s => .error e (w.withSys s 0)
    | .ok ino s =>
      let w := w.withSys s 0
      match mountOf s path with
      | none => .error .fault w
      | some i =>
        match s.inode i ino with
        | none => .error (.err (-ENOENT)) w
        | some inod =>
          if isDevice inod.mode then .ok (.dev inod.mode (w.rdev i ino % 2 ^ 16)) w
          else if flags &&& O_TRUNC ≠ 0 ∧ trunc < 0 then .error (.err trunc) w
          else .ok (.file i ino) w

/-- `read` on an open descriptor. -/
def readDesc (u : Udevr) (desc : Desc) (buf size : Nat) : Answer :=
  match desc with
  | .dev _ rdev => udevrRead u rdev buf size
  | .file mnt ino => .file mnt ino buf size

/-! ## What a device file is for -/

/-- Whoever opens `/dev/<name><m>` and reads calls the driver's function. -/
def Reaches (w : DevSys) (d : Drv) (m : Nat) : Prop :=
  ∀ flags mode alloc trunc buf size, ∃ desc w',
    (openDesc (devPath d.name m) flags mode alloc trunc).run w = .ok desc w' ∧
      readDesc w'.reg desc buf size = .call d.read m buf size

/-- The driver number 0 reads with the function of `d`. -/
def ServesZero (u : Udevr) (d : Drv) : Prop :=
  ∃ k, u.find 0 = some k ∧ u.flags k &&& UDEV_RD ≠ 0 ∧ u.read k = d.read

/-- A device with this minor number in its lower 16 bits. -/
def NodeAt (w : DevSys) (path : Str) (m : Nat) : Prop :=
  ∃ i ino inod, w.sys.find path FOLLOW = .ok (some i, ino) ∧ w.sys.inode i ino = some inod ∧
    isDevice inod.mode ∧ w.rdev i ino % 2 ^ 16 = m

/-! ## Opening -/

section Open

variable {w : DevSys} {path : Str} {i ino : Nat}

theorem withSys_self (w : DevSys) (dev : Nat) : w.withSys w.sys dev = w := by
  have hrdev : (w.withSys w.sys dev).rdev = w.rdev := by
    funext i x
    show (if (w.sys.inode i x).isNone && (w.sys.inode i x).isSome then dev else w.rdev i x) = _
    cases w.sys.inode i x <;> rfl
  show { w with sys := w.sys, rdev := (w.withSys w.sys dev).rdev } = w
  rw [hrdev]

variable {s : Sys} {fl : Flags} {mode : Nat} {alloc : Option Nat}

theorem find_cases {r : Option Nat × Nat} (h : s.find path fl = .ok r) :
    ∃ abs i m, vfsAbspath s.cwd path 1024 = .ok abs ∧ vfsGetmnt s abs = some i ∧
      s.mounts[i]? = some m ∧ vfsResolve (some m) abs fl = .ok r.2 ∧ r.1 = some i := by
  obtain ⟨abs, habs, h⟩ := ok_of_bind h
  obtain ⟨x, hres, h⟩ := ok_of_bind h
  obtain ⟨i, m, hi, hsm, hm⟩ := mount_of_vfsResolve hres
  obtain rfl := Except.ok.inj h
  rw [hsm] at hres
  exact ⟨abs, i, m, habs, hi, hm, hres, hi⟩

theorem find_eq_ok {abs : Str} {m : Mount}
    (habs : vfsAbspath s.cwd path 1024 = .ok abs) (hi : vfsGetmnt s abs = some i)
    (hm : s.mounts[i]? = some m) (hres : vfsResolve (some m) abs fl = .ok ino) :
    s.find path fl = .ok (some i, ino) := by
  have hsm : s.mount (some i) = some m := hm
  unfold Sys.find
  rw [habs]
  change ((vfsResolve (s.mount (vfsGetmnt s abs)) abs fl).bind _) = _
  rw [hi, hsm, hres]
  rfl

theorem mountOf_of_find (h : s.find path fl = .ok (some i, ino)) : mountOf s path = some i := by
  obtain ⟨abs, i', m, habs, hi, -, -, heq⟩ := find_cases h
  unfold mountOf
  rw [habs]
  exact hi.trans heq.symm

theorem run_openIno_of_find (h : s.find path FOLLOW = .ok (some i, ino))
    (flags mode : Nat) (alloc : Option Nat) :
    (openIno path flags mode alloc).run s = .ok ino s := by
  obtain ⟨abs, i', m, habs, hi, hm, hres, -⟩ := find_cases h
  have hsm : s.mount (some i') = some m := hm
  unfold openIno
  rw [Op.run_get_bind, Op.run_ofExcept_bind, habs]
  dsimp only
  rw [hi, hsm, hres]
  rfl

-- nothing is made without `O_CREAT`
theorem find_of_openIno {s' : Sys}
    (h : (openIno path 0 mode alloc).run s = .ok ino s') :
    ∃ i, s.find path FOLLOW = .ok (some i, ino) := by
  unfold openIno at h
  rw [Op.run_get_bind, Op.run_ofExcept_bind] at h
  cases habs : vfsAbspath s.cwd path 1024 with
  | error e =>
    rw [habs] at h
    cases h
  | ok abs =>
    rw [habs] at h
    dsimp only at h
    cases hres : vfsResolve (s.mount (vfsGetmnt s abs)) abs FOLLOW with
    | ok x =>
      rw [hres] at h
      cases h
      obtain ⟨i, m, hi, hsm, hm⟩ := mount_of_vfsResolve hres
      rw [hsm] at hres
      exact ⟨i, find_eq_ok habs hi hm hres⟩
    | error e =>
      rw [hres] at h
      cases e with
      | fault => cases h
      | err code =>
        dsimp only at h
        rw [if_neg (by rintro ⟨-, hflag⟩; exact hflag rfl)] at h
        cases h

theorem run_openDesc_of_device {inod : Inode} (h : w.sys.find path FOLLOW = .ok (some i, ino))
    (hinod : w.sys.inode i ino = some inod) (hdev : isDevice inod.mode) (flags mode : Nat)
    (alloc : Option Nat) (trunc : Int) : (openDesc path flags mode alloc trunc).run w =
      .ok (.dev inod.mode (w.rdev i ino % 2 ^ 16)) w := by
  show openDesc path flags mode alloc trunc w = _
  unfold openDesc
  rw [run_openIno_of_find h]
  dsimp only
  rw [mountOf_of_find h]
  dsimp only
  rw [hinod]
  dsimp only
  rw [if_pos hdev, withSys_self]

-- a descriptor of a device comes from a device
theorem device_of_openDesc {w' : DevSys} {rdev mode' : Nat} {trunc : Int}
    (h : (openDesc path 0 mode alloc trunc).run w = .ok (.dev mode' rdev) w') :
    ∃ i ino inod, w.sys.find path FOLLOW = .ok (some i, ino) ∧ w.sys.inode i ino = some inod ∧
      isDevice inod.mode ∧ rdev = w.rdev i ino % 2 ^ 16 ∧ w' = w := by
  change openDesc path 0 mode alloc trunc w = _ at h
  unfold openDesc at h
  cases hrun : (openIno path 0 mode alloc).run w.sys with
  | error e s =>
    rw [hrun] at h
    cases h
  | ok ino s =>
    obtain ⟨i, hfind⟩ := find_of_openIno hrun
    rw [run_openIno_of_find hfind] at hrun
    rw [run_openIno_of_find hfind] at h
    dsimp only at h
    rw [mountOf_of_find hfind] at h
    dsimp only at h
    cases hinod : w.sys.inode i ino with
    | none =>
      rw [hinod] at h
      cases h
    | some inod =>
      rw [hinod, withSys_self] at h
      dsimp only at h
      split at h
      · rename_i hdev
        cases h
        exact ⟨i, ino, inod, hfind, hinod, hdev, rfl, rfl⟩
      · split at h <;> cases h

end Open

/-! ## Reading -/

variable {x m : Nat} {d : Drv}

-- all major numbers are 0
theorem major_of_u16 (h : x < 2 ^ 16) : MAJOR x = 0 := by
  unfold MAJOR
  rw [Nat.shiftRight_eq_div_pow]
  omega

theorem minor_of_u16 (h : x < 2 ^ 16) : MINOR x % 2 ^ 16 = x := by
  unfold MINOR
  rw [Nat.and_two_pow_sub_one_eq_mod]
  omega

theorem udevrRead_eq_call_iff {u : Udevr} {rdev buf size : Nat} (h : rdev < 2 ^ 16) :
    udevrRead u rdev buf size = .call d.read m buf size ↔ ServesZero u d ∧ rdev = m := by
  unfold udevrRead
  rw [major_of_u16 h, minor_of_u16 h]
  constructor
  · intro hcall
    cases hfind : u.find 0 with
    | none =>
      rw [hfind] at hcall
      cases hcall
    | some k =>
      rw [hfind] at hcall
      dsimp only at hcall
      split at hcall
      · rename_i hflag
        rw [Answer.call.injEq] at hcall
        exact ⟨⟨k, hfind, hflag, hcall.1⟩, hcall.2.1⟩
      · cases hcall
  · rintro ⟨⟨k, hfind, hflag, hread⟩, rfl⟩
    rw [hfind]
    dsimp only
    rw [if_pos hflag, hread]

theorem reaches_iff {w : DevSys} :
    Reaches w d m ↔ ServesZero w.reg d ∧ NodeAt w (devPath d.name m) m := by
  constructor
  · intro h
    obtain ⟨desc, w', hopen, hread⟩ := h 0 0 none 0 0 0
    cases desc with
    | file mnt ino => cases hread
    | dev mode rdev =>
      obtain ⟨i, ino, inod, hfind, hinod, hdev, hrdev, rfl⟩ := device_of_openDesc hopen
      have hlt : rdev < 2 ^ 16 := by
        rw [hrdev]
        exact Nat.mod_lt _ (by decide)
      obtain ⟨hserves, hm⟩ := (udevrRead_eq_call_iff hlt).mp hread
      exact ⟨hserves, i, ino, inod, hfind, hinod, hdev, hrdev.symm.trans hm⟩
  · rintro ⟨hserves, i, ino, inod, hfind, hinod, hdev, hm⟩ flags mode alloc trunc buf size
    refine ⟨_, w, run_openDesc_of_device hfind hinod hdev flags mode alloc trunc, ?_⟩
    exact (udevrRead_eq_call_iff (Nat.mod_lt _ (by decide))).mpr ⟨hserves, hm⟩

/-! ## What `udevr_regdev` makes -/

section Regdev

variable {w w' : DevSys} {path : Str} {dev mode : Nat} {alloc : Option Nat}

variable {base : Str}

theorem base_ne_dots {cwd abs : Str} (habs : vfsAbspath cwd path 1024 = .ok abs)
    (hbase : vfsBasename abs 1024 = .ok base) : base ≠ [dot, dot] := by
  obtain ⟨st, hst, -⟩ := isAbs_of_vfsAbspath habs
  obtain rfl := Except.ok.inj (hst.vfsBasename.symm.trans hbase)
  unfold lastName
  cases hlast : st.getLast? with
  | none => exact nofun
  | some c => exact (hst.dots c (List.mem_of_getLast? hlast)).2

-- the table after `mknod`: a new file with one name
theorem leafOver_mknod {m : Mount} {t : Table} {ino dino : Nat} (hbase : base ≠ [dot, dot])
    (hleaf : (newInode mode).isDir = false ∧ (newInode mode).isLink = false)
    (hlink : (m.tbl.set ino (some (newInode mode))).mklink m.place ino dino base = .ok t) :
    m.LeafOver { m with tbl := t } ino := by
  have hset : (m.tbl.set ino (some (newInode mode))) ino = some (newInode mode) :=
    Function.update_self ..
  have hother : ∀ {x}, x ≠ ino → (m.tbl.set ino (some (newInode mode))) x = m.tbl x :=
    fun hx => Function.update_of_ne hx ..
  have hnodes := Table.sameNodes_mklink hlink
  refine ⟨rfl, rfl, fun {x i'} hx hi' => ?_, fun {d n c} hent => ?_, fun {i} hi => ?_⟩
  · obtain ⟨i, hi, hmode, htarget⟩ := hnodes.symm.some hi'
    rw [hother hx] at hi
    exact ⟨i, hi, hmode, htarget⟩
  · rcases Table.ent_mklink hlink d n with hsame | ⟨-, rfl, hnew⟩
    · right
      have hold : (m.tbl.set ino (some (newInode mode))).ent d n = some c := hsame.symm.trans hent
      unfold Table.ent at hold ⊢
      by_cases hd : d = ino
      · rw [hd, hset] at hold
        dsimp only at hold
        rw [hleaf.1] at hold
        cases hold
      · rwa [hother hd] at hold
    · left
      exact ⟨(Option.some.inj (hnew.symm.trans hent)).symm, hbase⟩
  · obtain ⟨i₀, hi₀, hmode, -⟩ := hnodes.symm.some hi
    rw [hset] at hi₀
    obtain rfl := Option.some.inj hi₀
    exact ⟨(Table.isDir_congr hmode).symm.trans hleaf.1,
      (Table.isLink_congr hmode).symm.trans hleaf.2⟩

theorem mknod_cases (h : (mknod path dev mode alloc).run w = .ok () w') : ∃ abs i m dino ino base t,
      Creates w.sys path alloc abs i m dino ino base ∧
      (m.tbl.set ino (some (newInode mode))).mklink m.place ino dino base = .ok t ∧
      w' = w.withSys (w.sys.setTbl i m t) dev := by
  change mknod path dev mode alloc w = _ at h
  unfold mknod at h
  by_cases hex : ∃ abs i m dino ino base,
      Creates w.sys path alloc abs i m dino ino base
  · obtain ⟨abs, i, m, dino, ino, base, hc⟩ := hex
    rw [hc.run] at h
    cases hlink : (m.tbl.set ino (some (newInode mode))).mklink m.place ino dino base with
    | error e =>
      rw [hlink] at h
      cases h
    | ok t =>
      rw [hlink] at h
      cases h
      exact ⟨abs, i, m, dino, ino, base, t, hc, hlink, rfl⟩
  · obtain ⟨e, hrun⟩ := run_of_not_creates
      (fun abs i m dino ino base hc => hex ⟨abs, i, m, dino, ino, base, hc⟩) mode
    rw [hrun] at h
    cases h

-- nothing was at the path
theorem not_nodeAt_of_mknod (h : (mknod path dev mode alloc).run w = .ok () w') (m : Nat) :
    ¬ NodeAt w path m := by
  rintro ⟨j, x, inod, hfind, -⟩
  obtain ⟨abs, i, m, dino, ino, base, t, hc, -⟩ := mknod_cases h
  obtain ⟨abs', j', m', habs, hj, hm, hres, -⟩ := find_cases hfind
  obtain rfl := Except.ok.inj (hc.isAbs.symm.trans habs)
  obtain rfl := Option.some.inj (hc.mnt.symm.trans hj)
  obtain rfl := Option.some.inj (hc.mount.symm.trans hm)
  obtain ⟨code, hcode⟩ := hc.absent
  change vfsResolve (some m) _ FOLLOW = _ at hcode
  rw [hcode] at hres
  cases hres

/-- `mknod` makes no device of a mode without a type. -/
theorem nodeAt_of_mknod (hleaf : (newInode mode).isDir = false ∧ (newInode mode).isLink = false)
    (hmode : ¬ isDevice (newInode mode).mode) (h : (mknod path dev mode alloc).run w = .ok () w')
    {p : Str} {n : Nat} (hnode : NodeAt w' p n) : NodeAt w p n := by
  obtain ⟨abs, i, m, dino, ino, base, t, hc, hlink, rfl⟩ := mknod_cases h
  obtain ⟨j, x, inod, hfind, hinod, hdev, hrdev⟩ := hnode
  change (w.sys.setTbl i m t).find p FOLLOW = _ at hfind
  change (w.sys.setTbl i m t).inode j x = _ at hinod
  suffices hold : ∃ inod', w.sys.find p FOLLOW = .ok (some j, x) ∧ w.sys.inode j x = some inod' ∧
      inod'.mode = inod.mode by
    obtain ⟨inod', hfind', hinod', heq⟩ := hold
    refine ⟨j, x, inod', hfind', hinod', by rwa [heq], ?_⟩
    rw [← hrdev]
    show _ = (if (w.sys.inode j x).isNone && _ then dev else w.rdev j x) % 2 ^ 16
    rw [hinod']
    rfl
  obtain ⟨abs', j', m', habs, hj, hm, hres, heq⟩ := find_cases hfind
  obtain rfl : j = j' := Option.some.inj heq
  rw [vfsGetmnt_setTbl hc.mount] at hj
  rw [setTbl_mounts hc.mount] at hm
  rw [inode_setTbl hc.mount] at hinod
  by_cases hji : j = i
  swap
  · rw [if_neg hji] at hm hinod
    exact ⟨inod, find_eq_ok habs hj hm hres, hinod, rfl⟩
  subst hji
  rw [if_pos rfl] at hm hinod
  obtain rfl := Option.some.inj hm
  have hover := leafOver_mknod (base_ne_dots hc.isAbs hc.last) hleaf hlink
  by_cases hx : x = ino
  · subst hx
    obtain ⟨i₀, hi₀, heq, -⟩ := (Table.sameNodes_mklink hlink).symm.some hinod
    have hset : (m.tbl.set x (some (newInode mode))) x = some (newInode mode) :=
      Function.update_self ..
    rw [hset] at hi₀
    obtain rfl := Option.some.inj hi₀
    rw [← heq] at hdev
    exact absurd hdev hmode
  · obtain ⟨inod', hinod', heq, -⟩ := hover.tbl.nodes hx hinod
    have hold := (hover.vfsResolve rfl hres).resolve_left hx
    refine ⟨inod', find_eq_ok habs hj hc.mount hold, ?_, heq⟩
    unfold Sys.inode
    rw [hc.mount]
    exact hinod'

theorem reg_of_mknod (h : (mknod path dev mode alloc).run w = .ok () w') : w'.reg = w.reg := by
  change mknod path dev mode alloc w = _ at h
  unfold mknod at h
  split at h
  · cases h
    rfl
  · cases h

theorem reg_of_regdev {drv id : Nat} (h : (udevrRegdev drv id alloc).run w = .ok () w') :
    w'.reg = w.reg := by
  unfold udevrRegdev at h
  rw [Op.run_get_bind] at h
  split at h
  · split at h
    · exact reg_of_mknod h
    · cases h
  · cases h
    rfl

-- names of 31 bytes and numbers of five digits fit the buffer
theorem length_devPath {name : Str} (hname : name.length ≤ 31) (hm : m < 2 ^ 16) :
    (devPath name m).length ≤ 1023 := by
  have hdigits := Nat.toDigits_length 10 m 5 (by decide) (by omega)
  unfold devPath
  rw [List.length_append, List.length_append, List.length_map]
  have hfive : [(47 : UInt8), 100, 101, 118, 47].length = 5 := rfl
  omega

end Regdev

/-- The record found for the driver has its name. -/
def Named (u : Udevr) (d : Drv) : Prop := ∀ k, u.find d.id = some k → u.name k = d.name

/-- After `udevr_regdev` returned 0, a read of `/dev/<name><m>` calls the driver only if driver
number 0 has its function and a device with the minor number `m` was there before; and then it
does, also with `udevr_devfs` as far as the table still has the driver's name. -/
theorem regdev_reaches {w w' : DevSys} {d : Drv} {m : Nat} {alloc : Option Nat}
    (hname : d.name.length ≤ 31) (hm : m < 2 ^ 16)
    (h : (udevrRegdev d.id m alloc).run w = .ok () w') :
    (Reaches w' d m → ServesZero w.reg d ∧ NodeAt w (devPath d.name m) m) ∧
    (ServesZero w.reg d ∧ NodeAt w (devPath d.name m) m →
      (w.reg.devfs = true → Named w.reg d) → Reaches w' d m) := by
  rw [reaches_iff, reg_of_regdev h]
  unfold udevrRegdev at h
  rw [Op.run_get_bind] at h
  cases hdevfs : w.reg.devfs with
  | false =>
    rw [hdevfs] at h
    cases h
    exact ⟨id, fun hcond _ => hcond⟩
  | true =>
    rw [hdevfs, if_pos rfl] at h
    cases hk : w.reg.find d.id with
    | none =>
      rw [hk] at h
      cases h
    | some k =>
      rw [hk] at h
      dsimp only at h
      constructor
      · rintro ⟨hserves, hnode⟩
        exact ⟨hserves, nodeAt_of_mknod (by decide) (by decide) h hnode⟩
      · rintro ⟨-, hnode⟩ hnamed
        rw [hnamed rfl k hk, List.take_of_length_le (length_devPath hname hm)] at h
        exact absurd hnode (not_nodeAt_of_mknod h m)

/-- A driver with the number 0. -/
def rng : Drv := { id := 0, name := [114, 110, 103], flags := UDEV_RD, read := 4096, write := 0 }

def rngReg (devfs : Bool) : Udevr :=
  (udevrRegister rng none { tbl := zero, av := 128, devfs := devfs }).getD ⟨zero, 0, devfs⟩

/-- `/dev` with the device `rng0`. -/
def rngSys : Sys :=
  { cwd := [47]
    mounts := [{ smallMount [97] with
      path := [47, 100, 101, 118]
      tbl := fun x => match x with
        | 1 => some { mode := S_IFDIR, lnkcnt := 2, target := []
                      ents := [([46], 1), ([46, 46], 1), ([114, 110, 103, 48], 4)] }
        | 4 => some { mode := S_IFCHR + 0x1A4, lnkcnt := 1, target := [], ents := [] }
        | _ => none }] }

theorem rng_served (devfs : Bool) : ServesZero (rngReg devfs) rng := by
  refine ⟨0, ?_, ?_, ?_⟩ <;> cases devfs <;> decide

-- a device that was there before, and no `udevr_devfs`
theorem regdev_with_old_node : Reaches ⟨rngSys, fun _ _ => 0, rngReg false⟩ rng 0 := by
  have hrun : (udevrRegdev rng.id 0 none).run ⟨rngSys, fun _ _ => 0, rngReg false⟩ =
      .ok () ⟨rngSys, fun _ _ => 0, rngReg false⟩ := rfl
  have hnode : NodeAt ⟨rngSys, fun _ _ => 0, rngReg false⟩ (devPath rng.name 0) 0 :=
    ⟨0, 4, _, by decide, rfl, by decide, rfl⟩
  exact (regdev_reaches (by decide) (by decide) hrun).2 ⟨rng_served false, hnode⟩ nofun

def emptyDev : DevSys :=
  { sys := { cwd := [47], mounts := [{ smallMount [97] with path := [47, 100, 101, 118] }] }
    rdev := fun _ _ => 0
    reg := rngReg true }

/-- `udevr_regdev` makes `/dev/rng0`, and a read of it does not call the driver. -/
theorem regdev_makes_plain_file :
    ∃ w', (udevrRegdev rng.id 0 (some 5)).run emptyDev = .ok () w' ∧ ¬ Reaches w' rng 0 := by
  refine ⟨_, Op.run_of_returns (by decide +kernel), fun hreach => ?_⟩
  obtain ⟨-, i, ino, inod, hfind, hinod, hdev, -⟩ := reaches_iff.mp hreach
  have hnew : ((udevrRegdev rng.id 0 (some 5)).after emptyDev).sys.find (devPath rng.name 0)
      FOLLOW = .ok (some 0, 5) := by decide +kernel
  rw [hnew] at hfind
  cases hfind
  have hmode : (((udevrRegdev rng.id 0 (some 5)).after emptyDev).sys.inode 0 5).map (·.mode) =
      some 0x1A4 := by decide +kernel
  rw [hinod, Option.map_some, Option.some.injEq] at hmode
  rw [hmode] at hdev
  revert hdev
  decide

end Kern
