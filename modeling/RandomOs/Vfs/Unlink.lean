import RandomOs.Vfs.Names

/-!
# Removing files and directories (`unlink` and `rmdir`, `vfs.c`)

Both calls put the inode number that `vfs_resolve` finds into `ret`, and go on with `ino`, which is
still 0.
-/

namespace Vfs

open Kern Lib Lib.Paths

def unlink (path : Str) : Op Sys Unit := do
  let s ← get
  let abs ← Op.ofExcept (vfsAbspath s.cwd path 1024)
  let mnt := vfsGetmnt s abs
  let ino := 0
  let ret ← Op.ofExcept (vfsResolve (s.mount mnt) abs FOLLOW)
  let _ ← Op.asInt (ret % 2 ^ 32)
  match mnt, s.mount mnt with
  | some i, some m => do
    let inod ← Op.ofExcept (m.tbl.getino ino)
    if inod.isDir then Op.fail (-EISDIR) else vfsBaseunlink i ino abs
  | _, _ => Op.fault

/-- The loop over the entries: no name besides `.` and `..` comes before `readdir` fails. -/
def onlyDots (t : Table) (ino : Nat) : Nat → Nat → Bool
  | 0, _ => true
  | fuel + 1, pos =>
    match t.readdir ino pos with
    | .error _ => true
    | .ok name => (name = [dot] || name = [dot, dot]) && onlyDots t ino fuel (pos + 1)

/-- One turn for each entry and one for the end. -/
def Table.turns (t : Table) (ino : Nat) : Nat :=
  match t ino with
  | some i => i.ents.length + 1
  | none => 1

def rmdir (path : Str) : Op Sys Unit := do
  let s ← get
  let abs ← Op.ofExcept (vfsAbspath s.cwd path 1024)
  let mnt := vfsGetmnt s abs
  let ino := 0
  let ret ← Op.ofExcept (vfsResolve (s.mount mnt) abs FOLLOW_DIR)
  let _ ← Op.asInt (ret % 2 ^ 32)
  match mnt, s.mount mnt with
  | some i, some m =>
    if onlyDots m.tbl ino (m.tbl.turns ino) 0 then do
      (change i fun m => m.tbl.rmlink ino [dot]).ignore
      (change i fun m => m.tbl.rmlink ino [dot, dot]).ignore
      vfsBaseunlink i ino path
    else
      Op.fail (-ENOTEMPTY)
  | _, _ => Op.fault

/-! ## What the calls are for -/

/-- The name is gone, other paths are as before, and the inode is free when no name is left. -/
structure Removed (s s' : Sys) (path : Str) (i ino : Nat) : Prop where
  gone : s'.resolve path = .error (.err (-ENOENT))
  others : ∀ path', ¬ s.Through path path' → s'.resolve path' = s.resolve path'
  released : ∀ m, s'.mounts[i]? = some m →
    (m.tbl ino = none ↔ ∀ d name, m.tbl.child d name ≠ some ino)

/-- `op` removes what `path` leads to if that is `ok`, and otherwise fails and changes nothing. -/
def RemovesExactly (op : Str → Op Sys Unit) (ok : Sys → Nat → Nat → Prop) (s : Sys) (path : Str) :
    Prop :=
  (∀ i ino, s.resolve path = .ok (i, ino) → ok s i ino →
      ∃ s', (op path).run s = .ok () s' ∧ Removed s s' path i ino) ∧
    ((∀ i ino, s.resolve path = .ok (i, ino) → ¬ ok s i ino) →
      ∃ code < 0, (op path).run s = .error (.err code) s)

def Sys.IsFile (s : Sys) (i ino : Nat) : Prop := ¬ s.IsDir i ino

/-- An empty directory that is not the root of its mount. -/
def Sys.IsEmptyDir (s : Sys) (i ino : Nat) : Prop :=
  ∃ m, s.mounts[i]? = some m ∧ m.tbl.IsDir ino ∧ ino ≠ m.rootIno ∧
    ∀ name, m.tbl.child ino name = none

/-! ## Neither call ever removes anything -/

/-- Every mount holds a tree. -/
def Sys.Trees (s : Sys) : Prop := ∀ m ∈ s.mounts, m.tbl.IsTree m.rootIno

/-- Inode numbers start at 1. -/
def Sys.Numbered (s : Sys) : Prop := ∀ m ∈ s.mounts, m.tbl 0 = none

theorem Sys.Trees.numbered {s : Sys} (h : s.Trees) : s.Numbered := fun m hm => (h m hm).zero

/-- `x` returns a negative value and changes nothing. -/
def FailsAt (x : Op Sys Unit) (s : Sys) : Prop :=
  Op.Post x s (fun _ _ => False) fun e t => t = s ∧ ∃ code < 0, e = .err code

section Fails

variable {s : Sys} {f : Nat → Op Sys Unit}

theorem FailsAt.run {x : Op Sys Unit} (h : FailsAt x s) :
    ∃ code < 0, x.run s = .error (.err code) s := by
  unfold FailsAt Op.Post at h
  cases hx : x.run s with
  | ok a t =>
    rw [hx] at h
    cases h
  | error e t =>
    rw [hx] at h
    obtain ⟨rfl, code, hcode, rfl⟩ := h
    exact ⟨code, hcode, rfl⟩

theorem failsAt_ofExcept_bind {α : Type} {x : Except Stop α} {f : α → Op Sys Unit} (hx : Coded x)
    (hf : ∀ a, x = .ok a → FailsAt (f a) s) : FailsAt (Op.ofExcept x >>= f) s :=
  Op.Post.ofExcept_bind hf fun e he => ⟨rfl, hx e he⟩

theorem failsAt_asInt_bind {v : Nat} (hv : v < 2 ^ 32) (hf : ∀ a, FailsAt (f a) s) :
    FailsAt (Op.asInt v >>= f) s := by
  refine Op.Post.bind (R := fun _ t => t = s) (F := fun e t => t = s ∧ ∃ code < 0, e = .err code)
    (Op.Post.asInt (fun _ => rfl) fun _ => ⟨rfl, _, by omega, rfl⟩) ?_ fun _ _ h => h
  rintro a _ rfl
  exact hf a

variable {i : Nat} {m : Mount} {path : Str}

-- there is no inode 0
theorem failsAt_vfsBaseunlink (hm : s.mounts[i]? = some m)
    (hzero : m.tbl 0 = none) : FailsAt (vfsBaseunlink i 0 path) s := by
  apply Op.Post.get_bind
  rw [hm]
  refine failsAt_ofExcept_bind (coded_vfsGetdino path) fun dino _ => ?_
  refine failsAt_ofExcept_bind (coded_vfsBasename path 1024) fun base _ => ?_
  refine failsAt_ofExcept_bind (coded_getino _ _) fun inod hinod => ?_
  unfold Table.getino at hinod
  rw [hzero] at hinod
  cases hinod

-- a path that is found is on a mount
theorem mount_of_vfsResolve {mnt : Option Nat} {fl : Flags} {ino : Nat}
    (h : vfsResolve (s.mount mnt) path fl = .ok ino) :
    ∃ i m, mnt = some i ∧ s.mount mnt = some m ∧ s.mounts[i]? = some m := by
  cases hm : s.mount mnt with
  | none =>
    rw [hm] at h
    cases h
  | some m =>
    obtain ⟨i, hi, hmi⟩ := Option.bind_eq_some_iff.mp hm
    exact ⟨i, m, hi, rfl, hmi⟩

theorem Sys.Numbered.zero (h : s.Numbered) (hm : s.mounts[i]? = some m) :
    m.tbl 0 = none := h m (List.mem_of_getElem? hm)

theorem failsAt_unlink (hs : s.Numbered) (path : Str) : FailsAt (unlink path) s := by
  apply Op.Post.get_bind
  refine failsAt_ofExcept_bind (coded_vfsAbspath _ _) fun abs _ => ?_
  refine failsAt_ofExcept_bind (coded_vfsResolve _ _ _) fun ret hret => ?_
  refine failsAt_asInt_bind (Nat.mod_lt _ (by decide)) fun _ => ?_
  obtain ⟨i, m, hi, hm, hmi⟩ := mount_of_vfsResolve hret
  rw [hm, hi]
  refine failsAt_ofExcept_bind (coded_getino _ _) fun inod hinod => ?_
  unfold Table.getino at hinod
  rw [hs.zero hmi] at hinod
  cases hinod

theorem run_change_ignore {f : Mount → Except Stop Table} {e : Stop}
    (hm : s.mounts[i]? = some m) (hf : f m = .error e) : (change i f).ignore.run s = .ok () s := by
  show EStateM.Result.ok () ((change i f).after s) = _
  unfold Op.after
  rw [run_change_of_error hm hf]

theorem rmlink_zero {t : Table} (h : t 0 = none) (name : Str) :
    t.rmlink 0 name = .error (.err (-ENOENT)) := by
  unfold Table.rmlink Table.getino
  rw [h]
  rfl

theorem failsAt_rmdir (hs : s.Numbered) (path : Str) : FailsAt (rmdir path) s := by
  apply Op.Post.get_bind
  refine failsAt_ofExcept_bind (coded_vfsAbspath _ _) fun abs _ => ?_
  refine failsAt_ofExcept_bind (coded_vfsResolve _ _ _) fun ret hret => ?_
  refine failsAt_asInt_bind (Nat.mod_lt _ (by decide)) fun _ => ?_
  obtain ⟨i, m, hi, hm, hmi⟩ := mount_of_vfsResolve hret
  rw [hm, hi]
  have hzero := hs.zero hmi
  have hdots : onlyDots m.tbl 0 (m.tbl.turns 0) 0 = true := by
    unfold Table.turns
    rw [hzero]
    dsimp only [onlyDots]
    unfold Table.readdir Table.getino
    rw [hzero]
    rfl
  dsimp only
  rw [if_pos hdots]
  apply Op.Post.bind_ok (run_change_ignore hmi (rmlink_zero hzero _))
  apply Op.Post.bind_ok (run_change_ignore hmi (rmlink_zero hzero _))
  exact failsAt_vfsBaseunlink hmi hzero

-- a call that always fails is right where it has nothing to remove
theorem removesExactly_iff_of_failsAt {op : Str → Op Sys Unit} {ok : Sys → Nat → Nat → Prop}
    (h : FailsAt (op path) s) :
    RemovesExactly op ok s path ↔ ¬ ∃ i ino, s.resolve path = .ok (i, ino) ∧ ok s i ino := by
  obtain ⟨code, hcode, hrun⟩ := h.run
  constructor
  · rintro hex ⟨i, ino, hpath, hok⟩
    obtain ⟨s', hret, _⟩ := hex.1 i ino hpath hok
    rw [hrun] at hret
    cases hret
  · intro hno
    refine ⟨fun i ino hpath hok => absurd ⟨i, ino, hpath, hok⟩ hno, fun _ => ⟨code, hcode, hrun⟩⟩

end Fails

theorem unlink_rmdir_exact_iff (s : Sys) (path : Str) (hs : s.Trees) :
    (RemovesExactly unlink Sys.IsFile s path ↔
        ¬ ∃ i ino, s.resolve path = .ok (i, ino) ∧ s.IsFile i ino) ∧
      (RemovesExactly rmdir Sys.IsEmptyDir s path ↔
        ¬ ∃ i ino, s.resolve path = .ok (i, ino) ∧ s.IsEmptyDir i ino) :=
  ⟨removesExactly_iff_of_failsAt (failsAt_unlink hs.numbered path),
    removesExactly_iff_of_failsAt (failsAt_rmdir hs.numbered path)⟩

/-- The small tree alone, with `/` as the current directory. -/
def smallSys : Sys := { cwd := [47], mounts := [smallMount [97]] }

theorem smallSys_trees : smallSys.Trees := by
  intro m hm
  rw [List.mem_singleton.mp hm]
  exact smallTable_isTree (by decide)

-- `/x` is not there
theorem unlink_missing_exact : RemovesExactly unlink Sys.IsFile smallSys [47, 120] := by
  apply (unlink_rmdir_exact_iff smallSys [47, 120] smallSys_trees).1.mpr
  rintro ⟨i, ino, hpath, _⟩
  cases hpath

-- `/f` is a file and `/a` an empty directory
theorem unlink_rmdir_remove_nothing : ¬ RemovesExactly unlink Sys.IsFile smallSys [47, 102] ∧
      ¬ RemovesExactly rmdir Sys.IsEmptyDir smallSys [47, 97] := by
  have hfile : smallSys.resolve [47, 102] = .ok (0, 4) := by decide
  have hdir : smallSys.resolve [47, 97] = .ok (0, 2) := by decide
  refine ⟨?_, ?_⟩
  · rw [removesExactly_iff_of_failsAt (failsAt_unlink smallSys_trees.numbered _), not_not]
    refine ⟨0, 4, hfile, ?_⟩
    rintro ⟨m, hm, hmdir⟩
    obtain rfl := Option.some_inj.mp hm
    exact absurd (smallTable_isDir hmdir) (by decide)
  · rw [removesExactly_iff_of_failsAt (failsAt_rmdir smallSys_trees.numbered _), not_not]
    refine ⟨0, 2, hdir, smallMount [97], rfl, ⟨_, rfl, by decide⟩, by decide, fun name => ?_⟩
    cases hchild : (smallMount [97]).tbl.child 2 name with
    | none => rfl
    | some c => exact absurd (smallTable_child hchild).1 (by decide)

end Vfs
