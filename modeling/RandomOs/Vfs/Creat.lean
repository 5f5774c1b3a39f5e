import RandomOs.Vfs.Unlink

/-!
# Making files and looking at them (`vfs_basecreat`, `creat`, `open` and `stat`, `vfs.c`)

The driver is asked for a free inode number; `alloc` is the one it finds.  Who owns the new inode is
left out, since no call here reads it, and so is the device number of `mknod`.
-/

namespace Vfs

open Kern Lib Lib.Paths Table

def S_ISUID : Nat := 0x0800

def S_ISGID : Nat := 0x0400

def O_CREAT : Nat := 0x04

/-- `mkino` takes the mode as a `u16`. -/
def Table.mkino (t : Table) (ino mode : Nat) : Except Stop Table :=
  if (t ino).isSome then
    .error (.err (-ENOSPC))
  else
    .ok (t.set ino (some { mode := mode % 2 ^ 16, lnkcnt := 0, ents := [], target := [] }))

def vfsBasecreat (path : Str) (mode : Nat) (alloc : Option Nat) : Op Sys Nat := do
  let s ← get
  let abs ← Op.ofExcept (vfsAbspath s.cwd path 1024)
  let dir ← Op.ofExcept (vfsDirname abs 1024)
  let base ← (Op.ofExcept (vfsBasename abs 1024)).orFail (-1)
  let mnt := vfsGetmnt s abs
  let dino ← Op.ofExcept (vfsResolve (s.mount mnt) dir FOLLOW)
  -- whatever the lookup of the path fails with, the file is made
  match vfsResolve (s.mount mnt) abs FOLLOW, mnt, alloc with
  | .ok _, _, _ => Op.fail (-EEXISTS)
  | .error (.err _), some i, some ino => do
    change i fun m => m.tbl.mkino ino mode
    change i fun m => m.tbl.mklink m.place ino dino base
    return ino
  | .error (.err _), some _, none => Op.fail (-ENOSPC)
  | _, _, _ => Op.fault

def creat (path : Str) (mode : Nat) (alloc : Option Nat) : Op Sys Nat :=
  vfsBasecreat path (mode ||| S_IFREG) alloc

/-- `open` up to the descriptor: the inode, which is made if `flags` ask for that. -/
def openIno (path : Str) (flags mode : Nat) (alloc : Option Nat) : Op Sys Nat := do
  let s ← get
  let abs ← Op.ofExcept (vfsAbspath s.cwd path 1024)
  let mnt := vfsGetmnt s abs
  match vfsResolve (s.mount mnt) abs FOLLOW with
  | .ok ino => return ino
  | .error (.err code) =>
    if code = -ENOENT ∧ flags &&& O_CREAT ≠ 0 then
      vfsBasecreat abs (mode ||| S_IFREG) alloc
    else
      Op.fail code
  | .error .fault => Op.fault

/-- What `stat` finds: the inode with its mount and number, and the last name of the path. -/
structure Stat where
  mount : Nat
  ino : Nat
  inod : Inode
  name : Str

def stat (s : Sys) (path : Str) : Except Stop Stat := do
  let abs ← vfsAbspath s.cwd path 1024
  let mnt := vfsGetmnt s abs
  match vfsBasename abs 1024 with
  | .error _ => .error (.err (-1))
  | .ok base => do
    let ino ← vfsResolve (s.mount mnt) abs FOLLOW
    match mnt, s.mount mnt with
    | some i, some m => do
      let inod ← m.tbl.getino ino
      .ok { mount := i, ino := ino, inod := inod, name := base }
    | _, _ => .error .fault

theorem length_of_vfsBasename {path base : Str} {n : Nat} (h : vfsBasename path n = .ok base) :
    base.length < n := by
  unfold vfsBasename at h
  dsimp only at h
  split at h
  · cases h
  split at h
  · rw [← Except.ok.inj h, List.length_nil]
    omega
  · split at h
    · cases h
    · rw [← Except.ok.inj h]
      omega

theorem length_name_of_stat {s : Sys} {path : Str} {st : Stat} (h : stat s path = .ok st) :
    st.name.length < 1024 := by
  obtain ⟨abs, habs, h⟩ := ok_of_bind h
  dsimp only [bind, Except.bind] at h
  split at h
  · cases h
  rename_i base hbase
  split at h
  · cases h
  split at h
  · split at h
    · cases h
    · rw [← Except.ok.inj h]
      exact length_of_vfsBasename hbase
  · cases h

/-! ## A new file -/

/-- What a path leads to, as the calls find it. -/
def Sys.find (s : Sys) (path : Str) (fl : Flags) : Except Stop (Option Nat × Nat) := do
  let abs ← vfsAbspath s.cwd path 1024
  let ino ← vfsResolve (s.mount (vfsGetmnt s abs)) abs fl
  .ok (vfsGetmnt s abs, ino)

def Sys.inode (s : Sys) (i x : Nat) : Option Inode := (s.mounts[i]?).bind fun m => m.tbl x

/-- The last name of a path, and the directory that it is looked up in. -/
structure NameOf (s : Sys) (path abs : Str) (i : Nat) (m : Mount) (dino : Nat) (base : Str) :
    Prop where
  isAbs : vfsAbspath s.cwd path 1024 = .ok abs
  mnt : vfsGetmnt s abs = some i
  mount : s.mounts[i]? = some m
  parent : ∃ dir, vfsDirname abs 1024 = .ok dir ∧ vfsResolve (some m) dir FOLLOW = .ok dino
  last : vfsBasename abs 1024 = .ok base

/-- The call gets as far as the new inode. -/
structure Creates (s : Sys) (path : Str) (alloc : Option Nat) (abs : Str) (i : Nat) (m : Mount)
    (dino ino : Nat) (base : Str) : Prop extends NameOf s path abs i m dino base where
  absent : ∃ code, vfsResolve (some m) abs FOLLOW = .error (.err code)
  alloc : alloc = some ino
  fresh : m.tbl ino = none

section SetTbl

variable {s : Sys} {i : Nat} {m : Mount} {t : Table}

theorem inode_setTbl (hm : s.mounts[i]? = some m) (j x : Nat) :
    (s.setTbl i m t).inode j x = if j = i then t x else s.inode j x := by
  unfold Sys.inode
  rw [setTbl_mounts hm]
  split <;> rfl

-- the tables do not matter for the choice of the mount
theorem getmntLoop_set {abs : Str} {ms : List Mount} {k j len : Nat} {mnt : Option Nat}
    (hm : ms[k]? = some m) :
    getmntLoop abs (ms.set k { m with tbl := t }) j mnt len = getmntLoop abs ms j mnt len := by
  induction ms generalizing k j len mnt with
  | nil => rfl
  | cons m₀ ms ih =>
    cases k with
    | zero =>
      obtain rfl : m₀ = m := Option.some.inj hm
      rfl
    | succ k =>
      rw [List.set_cons_succ, getmntLoop, getmntLoop, ih hm, ih hm]

theorem vfsGetmnt_setTbl (hm : s.mounts[i]? = some m) (path : Str) :
    vfsGetmnt (s.setTbl i m t) path = vfsGetmnt s path := by
  unfold vfsGetmnt
  rw [show (s.setTbl i m t).cwd = s.cwd from rfl]
  cases vfsAbspath s.cwd path 1024 with
  | error e => rfl
  | ok abs => exact getmntLoop_set hm

end SetTbl

section Basecreat

variable {s : Sys} {path abs : Str} {mode : Nat} {alloc : Option Nat} {i : Nat} {m : Mount}
  {dino ino : Nat} {base : Str}

def newInode (mode : Nat) : Inode :=
  { mode := mode % 2 ^ 16, lnkcnt := 0, ents := [], target := [] }

theorem NameOf.mount_eq (h : NameOf s path abs i m dino base) :
    s.mount (vfsGetmnt s abs) = some m := by
  rw [h.mnt]
  exact h.mount

theorem Creates.run (h : Creates s path alloc abs i m dino ino base) (mode : Nat) :
    (vfsBasecreat path mode alloc).run s =
      match (m.tbl.set ino (some (newInode mode))).mklink m.place ino dino base with
      | .error e => .error e (s.setTbl i m (m.tbl.set ino (some (newInode mode))))
      | .ok t => .ok ino (s.setTbl i m t) := by
  obtain ⟨dir, hdir, hdino⟩ := h.parent
  obtain ⟨code, hcode⟩ := h.absent
  have hbase : ((Op.ofExcept (vfsBasename abs 1024)).orFail (-1) : Op Sys Str).run s =
      .ok base s := by
    rw [h.last]
    rfl
  have hmkino : m.tbl.mkino ino mode = .ok (m.tbl.set ino (some (newInode mode))) := by
    unfold mkino
    rw [h.fresh]
    rfl
  unfold vfsBasecreat
  rw [Op.run_get_bind, Op.run_ofExcept_bind, h.isAbs]
  dsimp only
  rw [Op.run_ofExcept_bind, hdir]
  dsimp only
  rw [Op.run_bind_of_ok hbase, Op.run_ofExcept_bind, h.toNameOf.mount_eq, hdino]
  rw [hcode, h.mnt, h.alloc]
  dsimp only
  rw [Op.run_bind_of_ok (run_change_of_ok h.mount hmkino)]
  have hmount := setTbl_mount h.mount (m.tbl.set ino (some (newInode mode)))
  cases hlink : (m.tbl.set ino (some (newInode mode))).mklink m.place ino dino base with
  | error e => exact Op.run_bind_of_error (run_change_of_error hmount hlink) _
  | ok t =>
    rw [Op.run_bind_of_ok (run_change_of_ok hmount hlink), setTbl_setTbl]
    rfl

theorem run_of_not_creates
    (h : ∀ abs i m dino ino base, ¬ Creates s path alloc abs i m dino ino base) (mode : Nat) :
    ∃ e, (vfsBasecreat path mode alloc).run s = .error e s := by
  suffices hpost : Op.Post (vfsBasecreat path mode alloc) s (fun _ _ => False)
      (fun _ t => t = s) by
    unfold Op.Post at hpost
    cases hrun : (vfsBasecreat path mode alloc).run s with
    | ok a t =>
      rw [hrun] at hpost
      exact hpost.elim
    | error e t =>
      rw [hrun] at hpost
      exact ⟨e, by rw [hpost]⟩
  apply Op.Post.get_bind
  refine Op.Post.ofExcept_bind (fun abs habs => ?_) fun _ _ => rfl
  refine Op.Post.ofExcept_bind (fun dir hdir => ?_) fun _ _ => rfl
  cases hbase : vfsBasename abs 1024 with
  | error e => exact rfl
  | ok base =>
    refine Op.Post.bind_ok (b := base) (t := s) rfl ?_
    refine Op.Post.ofExcept_bind (fun dino hres => ?_) fun _ _ => rfl
    obtain ⟨i, m, hi, hsm, hm⟩ := mount_of_vfsResolve hres
    rw [hsm] at hres ⊢
    rw [hi]
    cases hfile : vfsResolve (some m) abs FOLLOW with
    | ok x => exact Op.Post.fail rfl
    | error e =>
      cases e with
      | fault => exact Op.Post.fault rfl
      | err code =>
        cases halloc : alloc with
        | none => exact Op.Post.fail rfl
        | some ino =>
          cases hino : m.tbl ino with
          | none =>
            have hname : NameOf s path abs i m dino base := ⟨habs, hi, hm, ⟨dir, hdir, hres⟩, hbase⟩
            exact absurd ⟨hname, ⟨code, hfile⟩, halloc, hino⟩ (h abs i m dino ino base)
          | some j =>
            have hmkino : m.tbl.mkino ino mode = .error (.err (-ENOSPC)) := by
              unfold mkino
              rw [hino]
              rfl
            exact Op.Post.of_error (Op.run_bind_of_error (run_change_of_error hm hmkino) _) rfl

end Basecreat

end Vfs
