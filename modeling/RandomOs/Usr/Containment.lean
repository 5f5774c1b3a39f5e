import RandomOs.Lib.Runs
import RandomOs.Usr.Ids
import RandomOs.Vfs.Creat
import RandomOs.Vfs.Rename

/-!
# The privileges of a user's processes

The processes that descend from one process of a user are followed through a run of the system.  One
that runs a set-uid file made by root is let go, with those it creates.
-/

namespace Usr

open Kern Lib Sched Vfs Function ProcState

/-! ## The system -/

structure Machine where
  procs : ProcState
  fs : Sys
  /-- the inode, by mount and number, was made by a process with a uid or an effective uid of 0 -/
  byRoot : Nat → Nat → Bool

namespace Machine

def proc (w : Machine) (pid : Nat) : Process := w.procs.proctbl pid

def setTable (w : Machine) (tbl : ProcTable) : Machine :=
  { w with procs := { w.procs with proctbl := tbl } }

def Live (w : Machine) (pid : Nat) : Prop :=
  pid < maxProcesses ∧ (w.proc pid).used ∧ !(w.proc pid).isDead

def hasInode (s : Sys) (i ino : Nat) : Bool := (s.mounts[i]?.bind fun m => m.tbl ino).isSome

/-- The file system is `s` after a call of `pid`; what was not there before has been made by it. -/
def setFs (w : Machine) (pid : Nat) (s : Sys) : Machine :=
  { w with
    fs := s
    byRoot := fun i ino =>
      if hasInode w.fs i ino then w.byRoot i ino
      else (w.proc pid).uid = 0 || (w.proc pid).euid = 0 }

/-- A call of the file system by `pid`.  Nothing comes after a fault in the kernel. -/
def fsCall {α : Type} (w : Machine) (pid : Nat) (op : Op Sys α) : Option Machine :=
  match op.run w.fs with
  | .ok _ s => some (w.setFs pid s)
  | .error (.err _) s => some (w.setFs pid s)
  | .error .fault _ => none

/-- What `new_process` and `kexecve` learn about the file: the loader's status is given. -/
def loaded (w : Machine) (path : Str) (status : Int) (memory : Bool) : Option Loaded :=
  match stat w.fs path with
  | .ok st => some { status := status, stat := 0, memory := memory, mode := st.inod.mode }
  | .error (.err e) => some { status := status, stat := e, memory := memory, mode := 0 }
  | .error .fault => none

/-- The path leads to a set-uid file that root has made. -/
def rootSetuid (w : Machine) (path : Str) : Bool :=
  match stat w.fs path with
  | .ok st => decide (st.inod.mode &&& S_ISUID ≠ 0) && w.byRoot st.mount st.ino
  | .error _ => false

end Machine

/-! ## Runs -/

inductive Call
  | creat (path : Str) (mode : Nat) (alloc : Option Nat)
  | open (path : Str) (flags mode : Nat) (alloc : Option Nat)
  | rename (oname nname : Str)
  | unlink (path : Str)
  | rmdir (path : Str)
  | ids (num a0 : Nat)
  | newproc (path : Str) (status : Int) (memory : Bool)
  | execve (path : Str) (status : Int)
  | exit (code : Int)
  | kill (pid : Int)
  | wait (pid : Int) (code : Option Nat)
  /-- the scheduler turns to the process and goes to its working directory -/
  | switch (cwd : Str)

def NonRoot (p : Process) : Prop := p.uid ≠ 0 ∧ p.euid ≠ 0

/-- The system, and the slots of the processes that are followed. -/
structure Lineage where
  sys : Machine
  descent : Nat → Bool

namespace Lineage

def setSys (h : Lineage) (w : Machine) : Lineage := { h with sys := w }

/-- The process `pid` now runs the file at `path` on behalf of `by`. -/
def runs (h : Lineage) (pid byPid : Nat) (path : Str) : Nat → Bool :=
  Function.update h.descent pid (h.descent byPid && !h.sys.rootSetuid path)

/-- `new_process` by `pid`. -/
def newproc (h : Lineage) (pid : Nat) (path : Str) (res : Loaded) : Lineage :=
  let created := newProcess h.sys.procs.proctbl pid res
  { sys := h.sys.setTable created.1
    descent := if 0 ≤ created.2 then h.runs created.2.toNat pid path else h.descent }

/-- `kexecve` by `pid`. -/
def execve (h : Lineage) (pid : Nat) (path : Str) (res : Loaded) : Lineage :=
  let done := kexecve h.sys.procs.proctbl pid res
  { sys := h.sys.setTable done.1
    descent := if 0 ≤ done.2 then h.runs pid pid path else h.descent }

def call (h : Lineage) (pid : Nat) : Call → Option Lineage
  | .creat path mode alloc => (h.sys.fsCall pid (Vfs.creat path mode alloc)).map h.setSys
  | .open path flags mode alloc =>
    (h.sys.fsCall pid (openIno path flags (mode % 2 ^ 16) alloc)).map h.setSys
  | .rename oname nname => (h.sys.fsCall pid (Vfs.rename .plain oname nname)).map h.setSys
  | .unlink path => (h.sys.fsCall pid (Vfs.unlink path)).map h.setSys
  | .rmdir path => (h.sys.fsCall pid (Vfs.rmdir path)).map h.setSys
  | .ids num a0 => (idSyscall h.sys.procs pid num a0).map fun r =>
    h.setSys { h.sys with procs := r.1 }
  | .newproc path status memory => (h.sys.loaded path status memory).map (h.newproc pid path)
  | .execve path status => (h.sys.loaded path status true).map (h.execve pid path)
  | .exit code => some (h.setSys { h.sys with procs := h.sys.procs.sysExit pid code })
  | .kill target => some (h.setSys { h.sys with procs := (h.sys.procs.sysKill pid target).1 })
  | .wait target code =>
    some (h.setSys { h.sys with procs := (h.sys.procs.sysWait pid target code).1 })
  | .switch cwd => some (h.setSys { h.sys with fs := { h.sys.fs with cwd := cwd } })

def Step (h : Lineage) (a : Nat × Call) (h' : Lineage) : Prop :=
  h.sys.Live a.1 ∧ h.call a.1 a.2 = some h'

/-- A process of a user other than root, at any time of a run. -/
def Init (h : Lineage) : Prop :=
  ∃ pid u, u ≠ 0 ∧ h.sys.Live pid ∧ (h.sys.proc pid).uid = u ∧ (h.sys.proc pid).euid = u ∧
    ∀ i, h.descent i = decide (i = pid)

/-- None of the processes has got a uid of 0. -/
def Contained (h : Lineage) : Prop := ∀ pid, h.descent pid = true → NonRoot (h.sys.proc pid)

/-- A followed process with `PROC_SUID` does not ask for the uid 0, and one does not create a
process while slot 0 is free. -/
def Confined (h : Lineage) (a : Nat × Call) : Prop :=
  h.descent a.1 = true →
    match a.2 with
    | .ids num a0 => (syscallTbl num = some .sysSetuid ∨ syscallTbl num = some .sysSeteuid) →
        (h.sys.proc a.1).perms &&& procSuid ≠ 0 → a0 % 2 ^ 32 ≠ 0
    | .newproc _ _ _ => (h.sys.proc 0).used = true
    | _ => True

end Lineage

/-! ## What a call does to the ids -/

section Ids

variable {s : ProcState} {pid current i : Nat}

def ids (p : Process) : Nat × Nat := (p.uid, p.euid)

variable {p p' : Process}

theorem nonRoot_of_ids (h : ids p' = ids p) (hp : NonRoot p) : NonRoot p' := by
  obtain ⟨huid, heuid⟩ := Prod.mk.inj h
  unfold NonRoot
  rw [huid, heuid]
  exact hp

theorem ids_setProc (h : ids p = ids (s.proctbl pid)) :
    ids ((s.setProc pid p).proctbl i) = ids (s.proctbl i) := by
  rw [setProc_proctbl, update_apply]
  split
  · rename_i heq
    rw [h, heq]
  · rfl

theorem ids_release : ids ((s.release pid).proctbl i) = ids (s.proctbl i) := ids_setProc rfl

theorem ids_storeInt (ptr : Option Nat) (v : Int) :
    ids ((s.storeInt pid ptr v).proctbl i) = ids (s.proctbl i) := by
  rw [storeInt_proctbl]

theorem ids_wakeWaiter : ids ((s.wakeWaiter pid).proctbl i) = ids (s.proctbl i) := by
  unfold wakeWaiter
  split
  · rw [ids_storeInt]
    exact ids_setProc rfl
  · rfl

theorem ids_orphan : ids ((s.orphan pid).proctbl i) = ids (s.proctbl i) := by
  have hset : ids ((s.setProc pid { s.proctbl pid with isBlocked := false, isDead := true }).proctbl
      i) = ids (s.proctbl i) := ids_setProc rfl
  unfold orphan reparentChildren
  dsimp only
  split
  · exact hset
  · exact hset

theorem ids_endprocShared : ids ((s.endprocShared pid).proctbl i) = ids (s.proctbl i) := by
  change ids ((((s.orphan pid).wakeWaiter pid).release pid).proctbl i) = _
  rw [ids_release, ids_wakeWaiter, ids_orphan]

theorem ids_sysExit (code : Int) :
    ids ((s.sysExit current code).proctbl i) = ids (s.proctbl i) := by
  exact ids_endprocShared.trans (ids_setProc rfl)

theorem ids_sysKill (target : Int) :
    ids ((s.sysKill current target).1.proctbl i) = ids (s.proctbl i) := by
  unfold sysKill
  split
  · rfl
  · exact ids_endprocShared

theorem ids_park (target : Nat) (code : Option Nat) :
    ids ((s.park current target code).proctbl i) = ids (s.proctbl i) := ids_setProc rfl

theorem ids_sysWait (target : Int) (code : Option Nat) :
    ids ((s.sysWait current target code).1.proctbl i) = ids (s.proctbl i) := by
  unfold sysWait
  split
  · split
    · rfl
    · split
      · rw [ids_storeInt, ids_park]
      · rw [ids_storeInt, ids_release]
  · split
    · rw [ids_storeInt, ids_release]
    · exact ids_park _ _

theorem ids_kexecve (tbl : ProcTable) (res : Loaded) :
    ids ((kexecve tbl pid res).1 i) = ids (tbl i) := by
  unfold kexecve
  split
  · rfl
  split
  · rfl
  dsimp only
  rw [update_apply]
  split
  · rename_i heq
    rw [heq]
    rfl
  · rfl

-- an id that is not taken by `PROC_SUID` is one that the process has
theorem ne_zero_of_mayTake {new : Nat}
    (h : mayTake p procSuid new p.uid p.euid = true) (hsuid : p.perms &&& procSuid ≠ 0 → new ≠ 0)
    (hp : NonRoot p) : new ≠ 0 := by
  unfold mayTake at h
  simp only [Bool.or_eq_true, decide_eq_true_eq] at h
  rcases h with ((hperms | hroot) | rfl) | rfl
  · exact hsuid hperms
  · exact absurd hroot hp.2
  · exact hp.1
  · exact hp.2

theorem nonRoot_of_idHandler {hd : Handler} {a0 : Nat} {r : Int}
    (h : idHandler hd current p a0 = some (p', r))
    (hsuid : (hd = .sysSetuid ∨ hd = .sysSeteuid) → p.perms &&& procSuid ≠ 0 → a0 % 2 ^ 32 ≠ 0)
    (hp : NonRoot p) : NonRoot p' := by
  unfold idHandler at h
  split at h
  case h_3 =>
    have hp' := congrArg Prod.fst (Option.some_inj.mp h)
    unfold sysSetuid at hp'
    dsimp only at hp'
    split at hp'
    · rename_i hmay
      subst hp'
      exact ⟨ne_zero_of_mayTake hmay (hsuid (.inl rfl)) hp, hp.2⟩
    · subst hp'
      exact hp
  case h_7 =>
    have hp' := congrArg Prod.fst (Option.some_inj.mp h)
    unfold sysSeteuid at hp'
    dsimp only at hp'
    split at hp'
    · rename_i hmay
      subst hp'
      exact ⟨hp.1, ne_zero_of_mayTake hmay (hsuid (.inr rfl)) hp⟩
    · subst hp'
      exact hp
  case h_5 =>
    have hp' := congrArg Prod.fst (Option.some_inj.mp h)
    unfold sysSetgid at hp'
    dsimp only at hp'
    split at hp' <;> (subst hp'; exact hp)
  case h_9 =>
    have hp' := congrArg Prod.fst (Option.some_inj.mp h)
    unfold sysSetegid at hp'
    dsimp only at hp'
    split at hp' <;> (subst hp'; exact hp)
  case h_10 => cases h
  all_goals
    have hp' := congrArg Prod.fst (Option.some_inj.mp h)
    subst hp'
    exact hp

end Ids

/-! ## Containment -/

namespace Lineage

variable {h h' : Lineage} {pid : Nat}

-- a call that leaves the ids and the descent alone
theorem Contained.of_ids (hc : h.Contained) {w : Machine}
    (hids : ∀ i, ids (w.proc i) = ids (h.sys.proc i)) : (h.setSys w).Contained := by
  intro i hi
  exact nonRoot_of_ids (hids i) (hc i hi)

theorem Contained.fsCall {α : Type} (hc : h.Contained) {op : Op Sys α}
    (hcall : (h.sys.fsCall pid op).map h.setSys = some h') : h'.Contained := by
  obtain ⟨w, hw, rfl⟩ := Option.map_eq_some_iff.mp hcall
  have hprocs : w.procs = h.sys.procs := by
    unfold Machine.fsCall at hw
    split at hw
    · rw [← Option.some_inj.mp hw]
      rfl
    · rw [← Option.some_inj.mp hw]
      rfl
    · cases hw
  apply hc.of_ids
  intro i
  unfold Machine.proc
  rw [hprocs]

theorem Contained.ids (hc : h.Contained) {num a0 : Nat} (hok : h.Confined (pid, .ids num a0))
    (hcall : (idSyscall h.sys.procs pid num a0).map
      (fun r => h.setSys { h.sys with procs := r.1 }) = some h') : h'.Contained := by
  obtain ⟨⟨s', r⟩, hs', rfl⟩ := Option.map_eq_some_iff.mp hcall
  unfold idSyscall at hs'
  split at hs'
  · obtain ⟨rfl, _⟩ := Prod.mk.inj (Option.some_inj.mp hs')
    exact hc
  rename_i hd htbl
  obtain ⟨⟨p', r'⟩, hp', heq⟩ := Option.map_eq_some_iff.mp hs'
  obtain ⟨rfl, _⟩ := Prod.mk.inj heq
  intro i hi
  change NonRoot ((h.sys.procs.setProc pid p').proctbl i)
  rw [setProc_proctbl, update_apply]
  split
  · rename_i hip
    subst hip
    apply nonRoot_of_idHandler hp' _ (hc i hi)
    rintro (rfl | rfl)
    · exact hok hi (.inl htbl)
    · exact hok hi (.inr htbl)
  · exact hc i hi

variable {path : Str} {res : Loaded}

-- the child has the ids of its parent, unless it comes to lie in slot 0
theorem Contained.newproc (hc : h.Contained) (hlive : h.sys.Live pid)
    (hslot : h.descent pid = true → (h.sys.proc 0).used = true) :
    (h.newproc pid path res).Contained := by
  intro i hi
  unfold Lineage.newproc at hi ⊢
  dsimp only at hi
  change NonRoot ((newProcess h.sys.procs.proctbl pid res).1 i)
  rcases newProcess_cases h.sys.procs.proctbl pid res with
    ⟨q, hfree, hret, htbl⟩ | ⟨hneg, htbl⟩
  · rw [hret, if_pos (Int.natCast_nonneg q), Int.toNat_natCast] at hi
    rw [htbl, update_apply]
    unfold runs at hi
    rw [update_apply] at hi
    split
    · rename_i hiq
      rw [if_pos hiq, Bool.and_eq_true] at hi
      have hq : q ≠ 0 := by
        intro hq
        have hused := hslot hi.1
        unfold Machine.proc at hused
        rw [← hq, hfree] at hused
        cases hused
      have hinherits : (decide (pid < maxProcesses) && (h.sys.procs.proctbl pid).used &&
          q != 0) = true := by
        have hused : (h.sys.procs.proctbl pid).used = true := hlive.2.1
        rw [hused, decide_eq_true hlive.1, bne_iff_ne.mpr hq]
        rfl
      unfold freshProcess NonRoot
      dsimp only
      rw [if_pos hinherits, if_pos hinherits]
      exact hc pid hi.1
    · rename_i hiq
      rw [if_neg hiq] at hi
      exact hc i hi
  · rw [if_neg (by omega)] at hi
    rcases htbl with htbl | ⟨q, _, htbl⟩
    · rw [htbl]
      exact hc i hi
    rw [htbl, update_apply]
    split
    · rename_i hiq
      subst hiq
      exact hc i hi
    · exact hc i hi

theorem Contained.execve (hc : h.Contained) : (h.execve pid path res).Contained := by
  intro i hi
  have hfollowed : h.descent i = true := by
    unfold Lineage.execve at hi
    dsimp only at hi
    split at hi
    · unfold runs at hi
      rw [update_apply] at hi
      split at hi
      · rename_i hip
        rw [hip]
        rw [Bool.and_eq_true] at hi
        exact hi.1
      · exact hi
    · exact hi
  exact nonRoot_of_ids (ids_kexecve _ res) (hc i hfollowed)

theorem Contained.step (hc : h.Contained) {c : Call} (hok : h.Confined (pid, c))
    (hstep : h.Step (pid, c) h') : h'.Contained := by
  obtain ⟨hlive, hcall⟩ := hstep
  cases c with
  | creat path mode alloc => exact hc.fsCall hcall
  | «open» path flags mode alloc => exact hc.fsCall hcall
  | rename oname nname => exact hc.fsCall hcall
  | unlink path => exact hc.fsCall hcall
  | rmdir path => exact hc.fsCall hcall
  | ids num a0 => exact hc.ids hok hcall
  | newproc path status memory =>
    obtain ⟨res, _, rfl⟩ := Option.map_eq_some_iff.mp hcall
    exact hc.newproc hlive hok
  | execve path status =>
    obtain ⟨res, _, rfl⟩ := Option.map_eq_some_iff.mp hcall
    exact hc.execve
  | exit code =>
    obtain rfl := Option.some_inj.mp hcall
    exact hc.of_ids fun i => ids_sysExit code
  | kill target =>
    obtain rfl := Option.some_inj.mp hcall
    exact hc.of_ids fun i => ids_sysKill target
  | wait target code =>
    obtain rfl := Option.some_inj.mp hcall
    exact hc.of_ids fun i => ids_sysWait target code
  | switch cwd =>
    obtain rfl := Option.some_inj.mp hcall
    exact hc.of_ids fun i => rfl

def next (h : Lineage) (a : Nat × Call) : Lineage := (h.call a.1 a.2).getD h

end Lineage

end Usr
