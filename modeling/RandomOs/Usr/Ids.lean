import RandomOs.Sched.Lifecycle

/-!
# User and group ids (`syscall.c`, `ssc_proc/info.c`, `login.c`)

The dispatch table, the calls that read and set the ids of the calling process, and the calls by
which `login` gives up its own.
-/

namespace Usr

open Kern Sched

/-! ## The dispatch table -/

inductive Handler
  | sysExit | sysRead | sysWrite | sysOpen | sysClose | sysCreat | sysUnlink | sysLseek | sysRename
  | sysMkdir | sysRmdir | sysReboot | sysStat | sysPoweroff | sysSleep | sysReaddir | sysOpendir
  | sysSync | sysTermctl | sysCreatefb | sysSwitchfb | sysClearfb | sysFlushscr | sysGetfbinf
  | sysGetcurfb | sysGettimeofday | sysGetmtimeofday | sysGettimemonoms | sysGettimemono | sysMmap
  | sysMunmap | sysGetrawsc | sysGetmouseinfo | sysNewproc | sysWait | sysKill | sysGetpid
  | sysGetuid | sysSetuid | sysGetgid | sysSetgid | sysGeteuid | sysSeteuid | sysGetegid
  | sysSetegid | sysSerialwrite | sysGetrawscto | sysExecve | sysRandom64 | sysRandombytes
  | sysGetpwd | sysSetpwd | sysSetcurs | sysGetcurs | sysMprotect | sysIoctl
deriving DecidableEq

def SYS_SETUID : Nat := 47

def SYS_SETGID : Nat := 49

def SYS_SETEUID : Nat := 51

def SYS_SETEGID : Nat := 53

/-- `syscall_tbl`, by the numbers of `lib/syscall.h`. -/
def syscallTbl : Nat → Option Handler
  | 1 => some .sysExit
  | 2 => some .sysRead
  | 3 => some .sysWrite
  | 4 => some .sysOpen
  | 5 => some .sysClose
  | 6 => some .sysCreat
  | 7 => some .sysUnlink
  | 9 => some .sysLseek
  | 10 => some .sysRename
  | 11 => some .sysMkdir
  | 12 => some .sysRmdir
  | 13 => some .sysReboot
  | 14 => some .sysStat
  | 15 => some .sysPoweroff
  | 16 => some .sysSleep
  | 17 => some .sysReaddir
  | 18 => some .sysOpendir
  | 21 => some .sysSync
  | 23 => some .sysTermctl
  | 24 => some .sysCreatefb
  | 26 => some .sysSwitchfb
  | 27 => some .sysClearfb
  | 28 => some .sysFlushscr
  | 29 => some .sysGetfbinf
  | 31 => some .sysGetcurfb
  | 32 => some .sysGettimeofday
  | 33 => some .sysGetmtimeofday
  | 34 => some .sysGettimemonoms
  | 35 => some .sysGettimemono
  | 36 => some .sysMmap
  | 37 => some .sysMunmap
  | 38 => some .sysGetrawsc
  | 41 => some .sysGetmouseinfo
  | 42 => some .sysNewproc
  | 43 => some .sysWait
  | 44 => some .sysKill
  | 45 => some .sysGetpid
  | 46 => some .sysGetuid
  | 47 => some .sysSetuid
  | 48 => some .sysGetgid
  | 49 => some .sysSetgid
  | 50 => some .sysGeteuid
  | 51 => some .sysGeteuid
  | 52 => some .sysGetegid
  | 53 => some .sysSetegid
  | 54 => some .sysSerialwrite
  | 55 => some .sysGetrawscto
  | 56 => some .sysExecve
  | 57 => some .sysRandom64
  | 58 => some .sysRandombytes
  | 59 => some .sysGetpwd
  | 60 => some .sysSetpwd
  | 61 => some .sysSetcurs
  | 62 => some .sysGetcurs
  | 63 => some .sysMprotect
  | 64 => some .sysIoctl
  | _ => none

/-! ## The calls on ids -/

/-- The test of the four calls that set an id: the program has the bit, the effective uid is 0, or
the new id is one of the two the process has. -/
def mayTake (p : Process) (bit new old effective : Nat) : Bool :=
  p.perms &&& bit ≠ 0 || p.euid = 0 || new = old || new = effective

def sysSetuid (p : Process) (a0 : Nat) : Process × Int :=
  let nuid := a0 % 2 ^ 32
  if mayTake p procSuid nuid p.uid p.euid then ({ p with uid := nuid }, 0) else (p, -EACCESS)

def sysSetgid (p : Process) (a0 : Nat) : Process × Int :=
  let ngid := a0 % 2 ^ 32
  if mayTake p procSgid ngid p.gid p.egid then ({ p with gid := ngid }, 0) else (p, -EACCESS)

def sysSeteuid (p : Process) (a0 : Nat) : Process × Int :=
  let neuid := a0 % 2 ^ 32
  if mayTake p procSuid neuid p.uid p.euid then ({ p with euid := neuid }, 0) else (p, -EACCESS)

def sysSetegid (p : Process) (a0 : Nat) : Process × Int :=
  let negid := a0 % 2 ^ 32
  if mayTake p procSgid negid p.gid p.egid then ({ p with egid := negid }, 0) else (p, -EACCESS)

/-- A handler of `info.c` on the calling process; `none` for the other handlers. -/
def idHandler (h : Handler) (current : Nat) (p : Process) (a0 : Nat) : Option (Process × Int) :=
  match h with
  | .sysGetpid => some (p, current)
  | .sysGetuid => some (p, p.uid)
  | .sysSetuid => some (sysSetuid p a0)
  | .sysGetgid => some (p, p.gid)
  | .sysSetgid => some (sysSetgid p a0)
  | .sysGeteuid => some (p, p.euid)
  | .sysSeteuid => some (sysSeteuid p a0)
  | .sysGetegid => some (p, p.egid)
  | .sysSetegid => some (sysSetegid p a0)
  | _ => none

/-- `syscall_c` for a number that is free or leads to a handler of `info.c`. -/
def idSyscall (s : ProcState) (current num a0 : Nat) : Option (ProcState × Int) :=
  match syscallTbl num with
  | none => some (s, -EINVAL)
  | some h => (idHandler h current (s.proctbl current) a0).map fun r => (s.setProc current r.1, r.2)

/-! ## `login` -/

/-- `setuid(uid); seteuid(uid); setgid(gid); setegid(gid)`, whose results `login` does not look
at. -/
def loginIds (s : ProcState) (current : Nat) (uid gid : UInt32) : Option ProcState := do
  let (s, _) ← idSyscall s current SYS_SETUID uid.toNat
  let (s, _) ← idSyscall s current SYS_SETEUID uid.toNat
  let (s, _) ← idSyscall s current SYS_SETGID gid.toNat
  let (s, _) ← idSyscall s current SYS_SETEGID gid.toNat
  return s

/-- The process holds only the ids of the entry. -/
def HasIds (s : ProcState) (pid : Nat) (uid gid : UInt32) : Prop :=
  (s.proctbl pid).uid = uid.toNat ∧ (s.proctbl pid).euid = uid.toNat ∧
    (s.proctbl pid).gid = gid.toNat ∧ (s.proctbl pid).egid = gid.toNat

def IsRoot (p : Process) : Prop := p.uid = 0 ∧ p.euid = 0 ∧ p.gid = 0 ∧ p.egid = 0

theorem mayTake_of_euid {p : Process} (h : p.euid = 0) (bit new old effective : Nat) :
    mayTake p bit new old effective = true := by
  simp [mayTake, h]

-- the call numbered `SYS_SETEUID` only reads, so with the effective uid 0 the rest succeeds
theorem loginIds_of_euid {s : ProcState} {current : Nat} (h : (s.proctbl current).euid = 0)
    (uid gid : UInt32) : ∃ s', loginIds s current uid gid = some s' ∧ s'.proctbl current =
      { s.proctbl current with uid := uid.toNat, gid := gid.toNat, egid := gid.toNat } := by
  refine ⟨_, rfl, ?_⟩
  simp [sysSetuid, sysSetgid, sysSetegid, mayTake_of_euid, h]

/-- `login` drops its privileges completely only for the entry of the user 0. -/
theorem loginIds_drops_iff (s : ProcState) (current : Nat) (uid gid : UInt32)
    (h : IsRoot (s.proctbl current)) :
    (∃ s', loginIds s current uid gid = some s' ∧ HasIds s' current uid gid) ↔ uid = 0 := by
  obtain ⟨s', hrun, hproc⟩ := loginIds_of_euid h.2.1 uid gid
  have heuid : (s'.proctbl current).euid = 0 := by
    rw [hproc]
    exact h.2.1
  constructor
  · intro ⟨t, ht, hids⟩
    rw [hrun, Option.some_inj] at ht
    subst ht
    rw [← UInt32.toNat_inj]
    exact hids.2.1.symm.trans heuid
  · intro huid
    subst huid
    refine ⟨s', hrun, ?_⟩
    unfold HasIds
    rw [hproc]
    exact ⟨rfl, h.2.1, rfl, rfl⟩

/-- A table of zeros in the address space of nobody. -/
def zeroState : ProcState :=
  { proctbl := fun _ => Process.zero, ints := fun _ _ => 0, outside := fun _ => 0 }

theorem loginIds_drops_root : ∃ s', loginIds zeroState 3 0 100 = some s' ∧ HasIds s' 3 0 100 :=
  (loginIds_drops_iff zeroState 3 0 100 ⟨rfl, rfl, rfl, rfl⟩).mpr rfl

theorem loginIds_keeps_euid :
    ∃ s', loginIds zeroState 3 1000 100 = some s' ∧ (s'.proctbl 3).uid = 1000 ∧
      (s'.proctbl 3).euid = 0 ∧ ¬ HasIds s' 3 1000 100 := by
  refine ⟨_, rfl, by decide, by decide, ?_⟩
  intro h
  exact absurd h.2.1 (by decide)

end Usr
