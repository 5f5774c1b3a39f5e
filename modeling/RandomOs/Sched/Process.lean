import Mathlib.Tactic

/-!
# The process table (`scheduler/process.h`)

The fields of `process_state_t` that scheduling, waiting, exiting and the calls on ids read or
write.  The `u8` flags are Booleans, a null `codeptr` is `none`.
-/

namespace Sched

/-- `MAX_PROCESSES`. -/
def maxProcesses : Nat := 255

/-- `WAIT_ANY`. -/
def waitAny : Nat := 0xFF

/-- `PROC_SUID`, the program was set-uid. -/
def procSuid : Nat := 0x01

/-- `PROC_SGID`. -/
def procSgid : Nat := 0x02

structure Process where
  used : Bool
  isDead : Bool
  isBlocked : Bool
  ppid : Nat
  waitPid : Nat
  wakeMs : Nat
  code : Nat
  codeptr : Option Nat
  rax : Int
  uid : Nat
  gid : Nat
  euid : Nat
  egid : Nat
  perms : Nat
deriving DecidableEq

/-- A slot of the zero-initialised table. -/
def Process.zero : Process :=
  { used := false, isDead := false, isBlocked := false, ppid := 0, waitPid := 0, wakeMs := 0,
    code := 0, codeptr := none, rax := 0, uid := 0, gid := 0, euid := 0, egid := 0, perms := 0 }

/-- What a process that has not ended keeps, in particular when `told` that another one has. -/
structure Process.Kept (p p' : Process) (told : Bool) : Prop where
  used : p'.used = p.used
  isDead : p'.isDead = p.isDead
  waitPid : p'.waitPid = p.waitPid
  wakeMs : p'.wakeMs = p.wakeMs
  isBlocked : p'.isBlocked = (p.isBlocked && !told)

/-- `proctbl`, indexed by pid. -/
abbrev ProcTable := Nat → Process

end Sched
