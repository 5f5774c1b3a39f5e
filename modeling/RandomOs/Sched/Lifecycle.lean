import RandomOs.Kern.Errno
import RandomOs.Sched.Process

/-!
# Creating, ending and waiting for processes (`new_process.c`, `ssc_proc/end.c`, `ssc_proc/wait.c`)

The functions run with the process table locked or interrupts off, so each one is a single step on
the table and on the integers that exit codes are stored to.
-/

namespace Sched

open Kern Function

structure ProcState where
  proctbl : ProcTable
  /-- the `int` at an address in the address space of a process -/
  ints : Nat → Nat → Int
  /-- what `proctbl[pid].code` reads for a negative `pid` -/
  outside : Int → Nat

namespace ProcState

/-! ## Model -/

def setProc (s : ProcState) (i : Nat) (p : Process) : ProcState :=
  { s with proctbl := Function.update s.proctbl i p }

/-- `if (ptr) *ptr = v` in the address space of `pid`. -/
def storeInt (s : ProcState) (pid : Nat) (ptr : Option Nat) (v : Int) : ProcState :=
  match ptr with
  | some a => { s with ints := Function.update s.ints pid (Function.update (s.ints pid) a v) }
  | none => s

end ProcState

/-- What `new_process` learns from the code it calls. -/
structure Loaded where
  /-- `load_program(...).status` -/
  status : Int
  /-- the result of `stat` -/
  stat : Int
  /-- the allocations for the working directory, and for pid 0 the descriptors, succeed -/
  memory : Bool
  /-- the `st_mode` that `stat` found -/
  mode : Nat

/-- The `perms` of a process that runs a file of this mode; `S_ISUID` is 0x800 and `S_ISGID`
0x400. -/
def permsOf (mode : Nat) : Nat :=
  (if mode &&& 0x800 ≠ 0 then procSuid else 0) ||| (if mode &&& 0x400 ≠ 0 then procSgid else 0)

/-- The slot `new_process` takes. -/
def freeSlot (proctbl : ProcTable) : Option Nat :=
  (List.range maxProcesses).find? fun i => !(proctbl i).used

/-- The process-table entry of a process just created in slot `pid`. -/
def freshProcess (proctbl : ProcTable) (pid ppid mode : Nat) : Process :=
  let inherits := decide (ppid < maxProcesses) && (proctbl ppid).used && pid != 0
  { proctbl pid with
    rax := 0
    isDead := false
    ppid := ppid
    isBlocked := false
    waitPid := waitAny
    wakeMs := 0
    perms := permsOf mode
    uid := if inherits then (proctbl ppid).uid else 0
    gid := if inherits then (proctbl ppid).gid else 0
    euid := if inherits then (proctbl ppid).euid else 0
    egid := if inherits then (proctbl ppid).egid else 0
    used := true }

/-- `new_process`: the table afterwards and the returned pid or error. -/
def newProcess (proctbl : ProcTable) (ppid : Nat) (res : Loaded) : ProcTable × Int :=
  match freeSlot proctbl with
  | none => (proctbl, -EFULL)
  | some pid =>
    if res.status < 0 then (proctbl, res.status)
    else if res.stat < 0 then (proctbl, res.stat)
    else if !res.memory then
      -- a slot other than 0 has its parent set before the working directory is copied
      (if pid = 0 then proctbl
        else Function.update proctbl pid { proctbl pid with ppid := ppid }, -ENOMEM)
    else (Function.update proctbl pid (freshProcess proctbl pid ppid res.mode), pid)

/-- `kexecve`: the process keeps its slot and its ids. -/
def kexecve (proctbl : ProcTable) (cpid : Nat) (res : Loaded) : ProcTable × Int :=
  if res.status < 0 then (proctbl, res.status)
  else if res.stat < 0 then (proctbl, res.stat)
  else
    (Function.update proctbl cpid { proctbl cpid with
      rax := 0
      isDead := false
      isBlocked := false
      waitPid := waitAny
      wakeMs := 0
      perms := permsOf res.mode }, 0)

namespace ProcState

/-- The test of `wake_waiter`: the parent of `pid` is parked waiting for it. -/
def parked (s : ProcState) (pid : Nat) : Bool :=
  let parent := s.proctbl (s.proctbl pid).ppid
  parent.isBlocked && (parent.waitPid == pid || parent.waitPid == waitAny)

/-- `wake_waiter`. -/
def wakeWaiter (s : ProcState) (pid : Nat) : ProcState :=
  let ppid := (s.proctbl pid).ppid
  let parent := s.proctbl ppid
  if s.parked pid then
    (s.setProc ppid { parent with isBlocked := false, rax := pid }).storeInt ppid parent.codeptr
      (s.proctbl pid).code
  else s

/-- `reparent_children`. -/
def reparentChildren (s : ProcState) (old : Nat) : ProcState :=
  { s with proctbl := fun i =>
      if i < maxProcesses ∧ (s.proctbl i).used ∧ !(s.proctbl i).isDead ∧ (s.proctbl i).ppid = old
      then { s.proctbl i with ppid := 0 } else s.proctbl i }

/-- The start of `endproc_shared`, up to `wake_waiter`. -/
def orphan (s : ProcState) (pid : Nat) : ProcState :=
  (s.setProc pid { s.proctbl pid with isBlocked := false, isDead := true }).reparentChildren pid

/-- `endproc_shared`. -/
def endprocShared (s : ProcState) (pid : Nat) : ProcState :=
  let s := (s.orphan pid).wakeWaiter pid
  s.setProc pid { s.proctbl pid with used := false }

/-- The checks of `sys_kill`: `none` when the process is ended. -/
def killError (s : ProcState) (current : Nat) (pid : Int) : Option Int :=
  let target := s.proctbl pid.toNat
  let self := s.proctbl current
  if pid = 0 then some (-EINVAL)
  else if pid ≤ 0 ∨ maxProcesses ≤ pid ∨ pid = current ∨ !target.used ∨ target.isDead then
    some (-ENOPROC)
  else if self.euid ≠ 0 ∧ self.euid ≠ target.uid ∧ self.uid ≠ target.uid then some (-EACCESS)
  else none

/-- `sys_kill`. -/
def sysKill (s : ProcState) (current : Nat) (pid : Int) : ProcState × Int :=
  match s.killError current pid with
  | some e => (s, e)
  | none => (s.endprocShared pid.toNat, 0)

/-- The start of `sys_exit`; the `int` code is kept in a `u16`. -/
def setCode (s : ProcState) (current : Nat) (code : Int) : ProcState :=
  s.setProc current { s.proctbl current with code := (code % 65536).toNat, isDead := true }

/-- `sys_exit`. -/
def sysExit (s : ProcState) (current : Nat) (code : Int) : ProcState :=
  (s.setCode current code).endprocShared current

/-- The dead child that `sys_wait` for any child finds. -/
def firstDead (s : ProcState) (current : Nat) : Option Nat :=
  (List.range maxProcesses).find? fun i =>
    i != current && (s.proctbl i).ppid == current && (s.proctbl i).isDead

/-- The caller is parked until `target` dies. -/
def park (s : ProcState) (current target : Nat) (code : Option Nat) : ProcState :=
  s.setProc current
    { s.proctbl current with waitPid := target, isBlocked := true, codeptr := code }

/-- `proctbl[pid].used = 0`. -/
def release (s : ProcState) (pid : Nat) : ProcState :=
  s.setProc pid { s.proctbl pid with used := false }

/-- The check of `sys_wait` on a pid that is not negative. -/
def waitable (s : ProcState) (current pid : Nat) : Bool :=
  decide (pid < maxProcesses) && (s.proctbl pid).used && pid != current

/-- `sys_wait`. -/
def sysWait (s : ProcState) (current : Nat) (pid : Int) (code : Option Nat) : ProcState × Int :=
  if 0 ≤ pid then
    if !s.waitable current pid.toNat then (s, -ENOPROC)
    else if !(s.proctbl pid.toNat).isDead then
      ((s.park current pid.toNat code).storeInt current code (-EHANG), pid)
    else ((s.release pid.toNat).storeInt current code (s.proctbl pid.toNat).code, pid)
  else
    match s.firstDead current with
    -- the code comes from `proctbl[pid]`, with the negative `pid` of the call
    | some i => ((s.release i).storeInt current code (s.outside pid), i)
    | none => (s.park current waitAny code, -EHANG)

/-! ## What each function does to a slot -/

@[simp] theorem setProc_proctbl (s : ProcState) (i : Nat) (p : Process) :
    (s.setProc i p).proctbl = update s.proctbl i p := rfl

@[simp] theorem storeInt_proctbl (s : ProcState) (pid : Nat) (ptr : Option Nat) (v : Int) :
    (s.storeInt pid ptr v).proctbl = s.proctbl := by
  cases ptr <;> rfl

theorem storeInt_ints_self (s : ProcState) (pid a : Nat) (v : Int) :
    (s.storeInt pid (some a) v).ints pid a = v := by
  simp [storeInt]

theorem wakeWaiter_proctbl (s : ProcState) (pid i : Nat) : (s.wakeWaiter pid).proctbl i =
    if i = (s.proctbl pid).ppid ∧ s.parked pid = true then
      { s.proctbl i with isBlocked := false, rax := pid }
    else s.proctbl i := by
  unfold wakeWaiter
  by_cases hi : i = (s.proctbl pid).ppid
  · subst hi
    cases s.parked pid <;> simp
  · split_ifs <;> simp_all

variable {pid a i : Nat} {s : ProcState}

theorem wakeWaiter_stores (hparked : s.parked pid = true)
    (hptr : (s.proctbl (s.proctbl pid).ppid).codeptr = some a) :
    (s.wakeWaiter pid).ints (s.proctbl pid).ppid a = (s.proctbl pid).code := by
  simp only [wakeWaiter, hparked, if_true, hptr]
  exact storeInt_ints_self _ _ _ _

/-- The ended process itself is dead already, so it keeps its parent and code. -/
theorem orphan_self (s : ProcState) (pid : Nat) :
    (s.orphan pid).proctbl pid = { s.proctbl pid with isBlocked := false, isDead := true } := by
  simp [orphan, reparentChildren]

theorem orphan_of_ne (s : ProcState) (hi : i ≠ pid) :
    ∃ ppid, (s.orphan pid).proctbl i = { s.proctbl i with ppid := ppid } ∧
      (ppid = (s.proctbl i).ppid ∨ (s.proctbl i).ppid = pid) := by
  simp only [orphan, reparentChildren, setProc_proctbl, update_of_ne hi]
  split_ifs with hold
  · exact ⟨0, rfl, Or.inr hold.2.2.2⟩
  · exact ⟨_, rfl, Or.inl rfl⟩

/-- The end of `pid` unblocks `i`. -/
def tells (s : ProcState) (pid i : Nat) : Bool :=
  i == (s.proctbl pid).ppid && ((s.proctbl i).waitPid == pid || (s.proctbl i).waitPid == waitAny)

theorem orphan_parked (s : ProcState) (hne : (s.proctbl pid).ppid ≠ pid) :
    (s.orphan pid).parked pid = ((s.proctbl (s.proctbl pid).ppid).isBlocked &&
      s.tells pid (s.proctbl pid).ppid) := by
  obtain ⟨_, hslot, -⟩ := s.orphan_of_ne hne
  simp [parked, orphan_self, tells, hslot]

/-- The slot of a process that stays, when another one ends. -/
theorem kept_endprocShared (s : ProcState) (hi : i ≠ pid) :
    (s.proctbl i).Kept ((s.endprocShared pid).proctbl i) (s.tells pid i) ∧
      (((s.endprocShared pid).proctbl i).ppid = (s.proctbl i).ppid ∨ (s.proctbl i).ppid = pid) := by
  obtain ⟨ppid, hslot, hppid⟩ := s.orphan_of_ne hi
  have hafter : (s.endprocShared pid).proctbl i = ((s.orphan pid).wakeWaiter pid).proctbl i := by
    simp [endprocShared, hi]
  rw [hafter, wakeWaiter_proctbl, orphan_self, hslot]
  by_cases hparent : i = (s.proctbl pid).ppid
  swap
  · rw [if_neg fun h => hparent h.1]
    exact ⟨⟨rfl, rfl, rfl, rfl, by simp [tells, hparent]⟩, hppid⟩
  have hparked := s.orphan_parked (hparent ▸ hi)
  rw [← hparent] at hparked
  rw [hparked]
  split_ifs with hwoken
  · exact ⟨⟨rfl, rfl, rfl, rfl, by simp [(Bool.and_eq_true_iff.1 hwoken.2).2]⟩, hppid⟩
  · rw [not_and] at hwoken
    have hnot := hwoken hparent
    refine ⟨⟨rfl, rfl, rfl, rfl, ?_⟩, hppid⟩
    revert hnot
    cases (s.proctbl i).isBlocked <;> cases s.tells pid i <;> simp

theorem endprocShared_used (s : ProcState) (pid i : Nat) :
    ((s.endprocShared pid).proctbl i).used = ((s.proctbl i).used && decide (i ≠ pid)) := by
  by_cases hi : i = pid
  · subst hi
    simp [endprocShared]
  · simp [hi, (s.kept_endprocShared hi).1.used]

theorem endprocShared_isDead (s : ProcState) (pid i : Nat) :
    ((s.endprocShared pid).proctbl i).isDead = ((s.proctbl i).isDead || decide (i = pid)) := by
  by_cases hi : i = pid
  · subst hi
    simp only [endprocShared, setProc_proctbl, update_self, wakeWaiter_proctbl]
    split_ifs <;> simp [orphan_self]
  · simp [hi, (s.kept_endprocShared hi).1.isDead]

theorem parked_of_orphan_parked (hparked : (s.orphan pid).parked pid = true) :
    s.parked pid = true := by
  by_cases hself : (s.proctbl pid).ppid = pid
  · simp [parked, hself, orphan_self] at hparked
  · rw [s.orphan_parked hself] at hparked
    simpa [parked, tells] using hparked

theorem orphan_codeptr (s : ProcState) (pid i : Nat) :
    ((s.orphan pid).proctbl i).codeptr = (s.proctbl i).codeptr := by
  by_cases hi : i = pid
  · subst hi
    rw [orphan_self]
  · obtain ⟨_, hslot, -⟩ := s.orphan_of_ne hi
    rw [hslot]

theorem endprocShared_stores (hparked : (s.orphan pid).parked pid = true)
    (hptr : ((s.orphan pid).proctbl (s.proctbl pid).ppid).codeptr = some a) :
    (s.endprocShared pid).ints (s.proctbl pid).ppid a = (s.proctbl pid).code := by
  have hppid : ((s.orphan pid).proctbl pid).ppid = (s.proctbl pid).ppid := by
    rw [orphan_self]
  have hstores := wakeWaiter_stores hparked (by rw [hppid]; exact hptr)
  rw [orphan_self] at hstores
  exact hstores

def Alive (s : ProcState) (i : Nat) : Prop :=
  (s.proctbl i).used = true ∧ (s.proctbl i).isDead = false

instance (s : ProcState) (i : Nat) : Decidable (s.Alive i) := inferInstanceAs (Decidable (_ ∧ _))

theorem alive_of_killError {current : Nat} {pid : Int}
    (hok : s.killError current pid = none) : s.Alive pid.toNat := by
  simp only [killError] at hok
  split_ifs at hok with _ hbad
  simpa [Alive] using not_or.1 (not_or.1 (not_or.1 (not_or.1 hbad).2).2).2

end ProcState

/-! ## Creation -/

theorem freeSlot_spec {proctbl : ProcTable} {pid : Nat} (hslot : freeSlot proctbl = some pid) :
    (proctbl pid).used = false := by
  have := List.find?_some hslot
  simpa using this

theorem newProcess_cases (proctbl : ProcTable) (ppid : Nat) (res : Loaded) :
    (∃ pid, (proctbl pid).used = false ∧ (newProcess proctbl ppid res).2 = (pid : Int) ∧
      (newProcess proctbl ppid res).1 =
        update proctbl pid (freshProcess proctbl pid ppid res.mode)) ∨
    ((newProcess proctbl ppid res).2 < 0 ∧
      ((newProcess proctbl ppid res).1 = proctbl ∨ ∃ pid, (proctbl pid).used = false ∧
        (newProcess proctbl ppid res).1 =
          update proctbl pid { proctbl pid with ppid := ppid })) := by
  unfold newProcess
  split
  · exact Or.inr ⟨(by decide : -EFULL < 0), Or.inl rfl⟩
  rename_i pid hslot
  have hfree := freeSlot_spec hslot
  split_ifs with hstatus hstat hmem hzero
  · exact Or.inr ⟨hstatus, Or.inl rfl⟩
  · exact Or.inr ⟨hstat, Or.inl rfl⟩
  · exact Or.inr ⟨(by decide : -ENOMEM < 0), Or.inl rfl⟩
  · exact Or.inr ⟨(by decide : -ENOMEM < 0), Or.inr ⟨pid, hfree, rfl⟩⟩
  · exact Or.inl ⟨pid, hfree, rfl, rfl⟩

end Sched
