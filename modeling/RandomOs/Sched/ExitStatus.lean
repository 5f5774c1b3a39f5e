import RandomOs.Lib.Runs
import RandomOs.Sched.Lifecycle

/-!
# Delivery of exit codes to waiting parents

A run of the system is recorded beside its state: which process of a slot ended with which code,
which ends a parent has been told about, and how each `sys_wait` naming a pid was answered.  A slot
holds many processes over time, so a process is a slot with a generation number.
-/

namespace Sched

open Lib Kern List ProcState

/-! ## Histories -/

structure Ended where
  pid : Nat
  gen : Nat
  parent : Nat
  code : Int
deriving DecidableEq

/-- A completed wait: `waiter` was given `pid`, and `stored` was written through its pointer. -/
structure Report where
  waiter : Nat
  pid : Nat
  gen : Nat
  stored : Option Int
deriving DecidableEq

/-- A `sys_wait` naming `pid`; `owed` is the code of a child of that pid that has ended and has not
been reported. -/
structure WaitCall where
  pid : Nat
  result : Int
  stored : Option Int
  owed : Option Int
deriving DecidableEq

structure History where
  os : ProcState
  /-- the generation of the process that holds, or last held, a slot -/
  gen : Nat → Nat
  ended : List Ended
  reports : List Report
  calls : List WaitCall

open History

/-- Nothing has been created yet; the table is zero and its surroundings are arbitrary. -/
def History.Init (h : History) : Prop :=
  h.os.proctbl = (fun _ => Process.zero) ∧ h.ended = [] ∧ h.reports = [] ∧ h.calls = []

namespace History

def reported (h : History) (e : Ended) : Bool :=
  h.reports.any fun r => r.pid == e.pid && r.gen == e.gen

/-- The end of the last process in slot `pid`, if that was a child of `parent` and no wait has
reported it. -/
def unreported (h : History) (parent pid : Nat) : Option Ended :=
  h.ended.find? fun e =>
    e.pid == pid && e.gen == h.gen pid && e.parent == parent && !h.reported e

/-- `pid` ends with `code`; `s` is the state in which `endproc_shared` is called. -/
def endProcess (h : History) (s : ProcState) (pid : Nat) (code : Int) : History :=
  let ppid := (s.proctbl pid).ppid
  let os := s.endprocShared pid
  { h with
    os := os
    ended := ⟨pid, h.gen pid, ppid, code⟩ :: h.ended
    reports :=
      if (s.orphan pid).parked pid then
        ⟨ppid, pid, h.gen pid, ((s.orphan pid).proctbl ppid).codeptr.map (os.ints ppid)⟩ ::
          h.reports
      else h.reports }

def create (h : History) (ppid : Nat) (res : Loaded) : History :=
  let created := newProcess h.os.proctbl ppid res
  { h with
    os := { h.os with proctbl := created.1 }
    gen := if 0 ≤ created.2 then
      Function.update h.gen created.2.toNat (h.gen created.2.toNat + 1) else h.gen }

def exit (h : History) (current : Nat) (code : Int) : History :=
  h.endProcess (h.os.setCode current code) current code

/-- A killed process has the code its slot held before. -/
def kill (h : History) (current : Nat) (pid : Int) : History :=
  match h.os.killError current pid with
  | some _ => h
  | none => h.endProcess h.os pid.toNat (h.os.proctbl pid.toNat).code

/-- The child `sys_wait` reports without parking the caller. -/
def waitFinds (h : History) (current : Nat) (pid : Int) : Option Nat :=
  if 0 ≤ pid then
    if h.os.waitable current pid.toNat && (h.os.proctbl pid.toNat).isDead then some pid.toNat
    else none
  else h.os.firstDead current

def wait (h : History) (current : Nat) (pid : Int) (code : Option Nat) : History :=
  let called := h.os.sysWait current pid code
  let stored := code.map (called.1.ints current)
  { h with
    os := called.1
    reports := match h.waitFinds current pid with
      | some i => ⟨current, i, h.gen i, stored⟩ :: h.reports
      | none => h.reports
    calls :=
      if 0 ≤ pid then
        ⟨pid.toNat, called.2, stored, (h.unreported current pid.toNat).map Ended.code⟩ :: h.calls
      else h.calls }

/-- A process that can make system calls. -/
def Live (h : History) (pid : Nat) : Prop :=
  pid < maxProcesses ∧ (h.os.proctbl pid).used ∧ !(h.os.proctbl pid).isDead

end History

inductive LifeOp
  | create (ppid : Nat) (res : Loaded)
  | exit (current : Nat) (code : Int)
  | kill (current : Nat) (pid : Int)
  | wait (current : Nat) (pid : Int) (code : Option Nat)

/-- One call; the kernel itself creates processes with parent 0. -/
def History.Step (h : History) : LifeOp → History → Prop
  | .create ppid res, h' => (ppid = 0 ∨ h.Live ppid) ∧ h' = h.create ppid res
  | .exit current code, h' => h.Live current ∧ h' = h.exit current code
  | .kill current pid, h' => h.Live current ∧ h' = h.kill current pid
  | .wait current pid code, h' => h.Live current ∧ h' = h.wait current pid code

/-! ## The delivery contract -/

/-- Every end is reported at most once, to the parent and with its own code, and a wait that names
an unreported ended child returns that pid and its code. -/
structure History.Delivered (h : History) : Prop where
  once : (h.reports.map fun r => (r.pid, r.gen)).Nodup
  faithful : ∀ r ∈ h.reports, ∃ e ∈ h.ended, e.pid = r.pid ∧ e.gen = r.gen ∧
    e.parent = r.waiter ∧ ∀ v, r.stored = some v → v = e.code
  answered : ∀ c ∈ h.calls, ∀ code, c.owed = some code →
    c.result = c.pid ∧ ∀ v, c.stored = some v → v = code

/-- The calls that the code serves correctly: a wait does not name an unreported ended child; a
wait for any child finds no dead slot, or the slot of an unreported ended child and has no pointer
to store to; a code that is stored at once for a parked parent fits a `u16`. -/
def History.Served (h : History) : LifeOp → Prop
  | .create _ _ => True
  | .exit current code =>
    h.os.parked current → (h.os.proctbl (h.os.proctbl current).ppid).codeptr ≠ none →
      0 ≤ code ∧ code < 65536
  | .kill _ _ => True
  | .wait current pid code =>
    if 0 ≤ pid then h.unreported current pid.toNat = none
    else ∀ i, h.os.firstDead current = some i →
      code = none ∧ h.unreported current i ≠ none

/-! ## Invariant -/

/-- What holds between calls: a used slot is not dead, and the process that holds a used slot has
not ended. -/
structure History.Sound (h : History) : Prop where
  alive : ∀ i, (h.os.proctbl i).used = true → (h.os.proctbl i).isDead = false
  endedBefore : ∀ e ∈ h.ended, e.gen ≤ h.gen e.pid
  endedEarlier : ∀ e ∈ h.ended, (h.os.proctbl e.pid).used = true → e.gen < h.gen e.pid
  delivered : h.Delivered

namespace History

variable {h : History} {pid current : Nat}

theorem sound_of_init (hinit : h.Init) : h.Sound := by
  obtain ⟨htbl, hended, hreports, hcalls⟩ := hinit
  constructor
  · simp [htbl, Process.zero]
  · simp [hended]
  · simp [hended]
  · exact ⟨by simp [hreports], by simp [hreports], by simp [hcalls]⟩

/-! ### Creation -/

/-- Creation touches no record, so only the table and the generations are at stake. -/
theorem Delivered.create (hd : h.Delivered) (ppid : Nat) (res : Loaded) :
    (h.create ppid res).Delivered :=
  ⟨hd.once, hd.faithful, hd.answered⟩

theorem Sound.create (hs : h.Sound) (ppid : Nat) (res : Loaded) : (h.create ppid res).Sound := by
  have hd := hs.delivered.create ppid res
  rcases newProcess_cases h.os.proctbl ppid res with
    ⟨pid, hfree, hret, htbl⟩ | ⟨hret, htbl | ⟨pid, hfree, htbl⟩⟩
  · refine ⟨fun i => ?_, fun e he => ?_, fun e he => ?_, hd⟩
    · by_cases hi : i = pid
      · subst hi
        simp [History.create, htbl, freshProcess]
      · simpa [History.create, htbl, hi] using hs.alive i
    · have hle := hs.endedBefore e he
      by_cases hi : e.pid = pid
      · simp [History.create, hret, ← hi]
        omega
      · simpa [History.create, hret, hi] using hle
    · have hle := hs.endedBefore e he
      have hlt := hs.endedEarlier e he
      by_cases hi : e.pid = pid
      · simp [History.create, hret, ← hi]
        omega
      · simpa [History.create, htbl, hret, hi] using hlt
  · have hneg : ¬ 0 ≤ (newProcess h.os.proctbl ppid res).2 := by omega
    refine ⟨?_, ?_, ?_, hd⟩
    · simpa [History.create, htbl] using hs.alive
    · simpa [History.create, hneg] using hs.endedBefore
    · simpa [History.create, htbl, hneg] using hs.endedEarlier
  · have hneg : ¬ 0 ≤ (newProcess h.os.proctbl ppid res).2 := by omega
    have hused : ∀ i, (((h.create ppid res).os.proctbl i).used = true) →
        (h.os.proctbl i).used = true ∧ i ≠ pid := by
      intro i hi
      by_cases hip : i = pid
      · subst hip
        simp [History.create, htbl, hfree] at hi
      · exact ⟨by simpa [History.create, htbl, hip] using hi, hip⟩
    refine ⟨fun i hi => ?_, ?_, fun e he hu => ?_, hd⟩
    · obtain ⟨hold, hip⟩ := hused i hi
      simpa [History.create, htbl, hip] using hs.alive i hold
    · simpa [History.create, hneg] using hs.endedBefore
    · simpa [History.create, hneg] using hs.endedEarlier e he (hused _ hu).1

/-! ### Ending a process -/

theorem Sound.report_new (hs : h.Sound) (hused : (h.os.proctbl pid).used = true) :
    ∀ r ∈ h.reports, (r.pid, r.gen) ≠ (pid, h.gen pid) := by
  intro r hr heq
  obtain ⟨hp, hg⟩ := Prod.mk.inj heq
  obtain ⟨e, he, hep, heg, -⟩ := hs.delivered.faithful r hr
  rw [← hp, ← hep] at hused
  have hlt := hs.endedEarlier e he hused
  rw [heg, hep, hp] at hlt
  omega

/-- `code` may be recorded for an end in state `s` if that is what a parked parent is given. -/
theorem Sound.endProcess (hs : h.Sound) {s : ProcState} {code : Int}
    (hused : (h.os.proctbl pid).used = true)
    (hstate : ∀ i, (s.proctbl i).used = (h.os.proctbl i).used ∧
      (i ≠ pid → (s.proctbl i).isDead = (h.os.proctbl i).isDead))
    (hcode : (s.orphan pid).parked pid = true →
      ((s.orphan pid).proctbl (s.proctbl pid).ppid).codeptr ≠ none →
        ((s.proctbl pid).code : Int) = code) : (h.endProcess s pid code).Sound := by
  have husedAfter : ∀ i, (((h.endProcess s pid code).os.proctbl i).used = true) →
      (h.os.proctbl i).used = true ∧ i ≠ pid := by
    intro i hi
    simpa [History.endProcess, endprocShared_used, (hstate i).1] using hi
  refine ⟨fun i hi => ?_, fun e he => ?_, fun e he hu => ?_, ?_⟩
  · obtain ⟨hold, hip⟩ := husedAfter i hi
    simpa [History.endProcess, endprocShared_isDead, hip, (hstate i).2 hip] using hs.alive i hold
  · rcases mem_cons.mp he with rfl | he
    · exact le_refl _
    · exact hs.endedBefore e he
  · rcases mem_cons.mp he with rfl | he
    · exact absurd rfl (husedAfter _ hu).2
    · exact hs.endedEarlier e he (husedAfter _ hu).1
  · by_cases hparked : (s.orphan pid).parked pid = true
    · refine ⟨?_, ?_, hs.delivered.answered⟩
      · simp only [History.endProcess, hparked, if_true, map_cons, nodup_cons]
        refine ⟨?_, hs.delivered.once⟩
        rw [mem_map]
        rintro ⟨r, hr, heq⟩
        exact hs.report_new hused r hr heq
      · intro r hr
        simp only [History.endProcess, hparked, if_true, mem_cons] at hr
        rcases hr with rfl | hr
        · refine ⟨_, mem_cons_self, rfl, rfl, rfl, fun v hv => ?_⟩
          obtain ⟨a, ha, rfl⟩ := Option.map_eq_some_iff.mp hv
          rw [endprocShared_stores hparked ha]
          exact hcode hparked (by simp [ha])
        · obtain ⟨e, he, hrest⟩ := hs.delivered.faithful r hr
          exact ⟨e, mem_cons_of_mem _ he, hrest⟩
    · refine ⟨?_, ?_, hs.delivered.answered⟩
      · simpa [History.endProcess, hparked] using hs.delivered.once
      · intro r hr
        simp only [History.endProcess, hparked] at hr
        obtain ⟨e, he, hrest⟩ := hs.delivered.faithful r (by simpa using hr)
        exact ⟨e, mem_cons_of_mem _ he, hrest⟩

theorem Sound.exit (hs : h.Sound) {code : Int} (hlive : h.Live current)
    (hserved : h.Served (.exit current code)) : (h.exit current code).Sound := by
  refine hs.endProcess hlive.2.1 (fun i => ?_) (fun hparked hptr => ?_)
  · by_cases hi : i = current
    · subst hi
      simp [setCode]
    · simp [setCode, hi]
  · have hself : ((h.os.setCode current code).proctbl current).ppid
        = (h.os.proctbl current).ppid := by
      simp [setCode]
    have hbefore := parked_of_orphan_parked hparked
    rw [orphan_codeptr, hself] at hptr
    have hparent : ∀ i, ((h.os.setCode current code).proctbl i).isBlocked
        = (h.os.proctbl i).isBlocked ∧
        ((h.os.setCode current code).proctbl i).waitPid = (h.os.proctbl i).waitPid ∧
        ((h.os.setCode current code).proctbl i).codeptr = (h.os.proctbl i).codeptr := by
      intro i
      by_cases hi : i = current
      · subst hi
        simp [setCode]
      · simp [setCode, hi]
    simp only [parked, hself, hparent] at hbefore
    obtain ⟨hlo, hhi⟩ := hserved hbefore (by rw [← (hparent _).2.2]; exact hptr)
    simp only [setCode, setProc_proctbl, Function.update_self]
    omega

theorem Sound.kill (hs : h.Sound) (current : Nat) (pid : Int) : (h.kill current pid).Sound := by
  unfold History.kill
  split
  · exact hs
  · rename_i hok
    have hused := (alive_of_killError hok).1
    exact hs.endProcess hused (fun i => ⟨rfl, fun _ => rfl⟩) (fun _ _ => rfl)

/-! ### Waiting -/

theorem unreported_spec {parent : Nat} {e : Ended} (hfind : h.unreported parent pid = some e) :
    e ∈ h.ended ∧ e.pid = pid ∧ e.gen = h.gen pid ∧ e.parent = parent ∧
      ∀ r ∈ h.reports, (r.pid, r.gen) ≠ (pid, h.gen pid) := by
  have hmem := mem_of_find?_eq_some hfind
  have hprop := List.find?_some hfind
  simp only [Bool.and_eq_true, beq_iff_eq, Bool.not_eq_true', reported, any_eq_false] at hprop
  obtain ⟨⟨⟨hp, hg⟩, hpar⟩, hrep⟩ := hprop
  refine ⟨hmem, hp, hg, hpar, fun r hr heq => ?_⟩
  obtain ⟨hrp, hrg⟩ := Prod.mk.inj heq
  exact hrep r hr (by simp [hrp, hrg, hp, hg])

/-- A slot that is used is not dead, so a wait for a pid never takes the branch for dead ones. -/
theorem Sound.waitFinds_pid (hs : h.Sound) {pid : Int} (hpid : 0 ≤ pid) :
    h.waitFinds current pid = none := by
  have hnone : (h.os.waitable current pid.toNat && (h.os.proctbl pid.toNat).isDead) = false := by
    by_cases hused : (h.os.proctbl pid.toNat).used = true
    · rw [hs.alive _ hused, Bool.and_false]
    · simp [waitable, hused]
  simp [waitFinds, hpid, hnone]

/-- A wait falsifies `used` at most, so what `Sound` says of the slots survives it. -/
theorem sysWait_slots (s : ProcState) (current i : Nat) (pid : Int) (code : Option Nat) :
    ((((s.sysWait current pid code).1.proctbl i).used = true → (s.proctbl i).used = true)) ∧
      ((s.sysWait current pid code).1.proctbl i).isDead = (s.proctbl i).isDead := by
  have hpark : ∀ target, ((s.park current target code).proctbl i).used = (s.proctbl i).used ∧
      ((s.park current target code).proctbl i).isDead = (s.proctbl i).isDead := by
    intro target
    by_cases hi : i = current
    · subst hi
      simp [park]
    · simp [park, hi]
  have hrelease : ∀ j, (((s.release j).proctbl i).used = true → (s.proctbl i).used = true) ∧
      ((s.release j).proctbl i).isDead = (s.proctbl i).isDead := by
    intro j
    by_cases hi : i = j
    · subst hi
      simp [release]
    · simp [release, hi]
  unfold sysWait
  split_ifs
  · exact ⟨id, rfl⟩
  · simpa using ⟨fun hu => (hpark pid.toNat).1 ▸ hu, (hpark pid.toNat).2⟩
  · simpa using hrelease pid.toNat
  · split
    · simpa using hrelease _
    · exact ⟨fun hu => (hpark waitAny).1 ▸ hu, (hpark waitAny).2⟩

theorem Sound.wait (hs : h.Sound) {pid : Int} {code : Option Nat}
    (hserved : h.Served (.wait current pid code)) : (h.wait current pid code).Sound := by
  have hslots := fun i => sysWait_slots h.os current i pid code
  refine ⟨fun i hi => ?_, hs.endedBefore, fun e he hu => ?_, ?_⟩
  · exact (hslots i).2.trans (hs.alive i ((hslots i).1 hi))
  · exact hs.endedEarlier e he ((hslots e.pid).1 hu)
  by_cases hpid : 0 ≤ pid
  · simp only [Served, hpid, if_true] at hserved
    have hfinds : h.waitFinds current pid = none := hs.waitFinds_pid hpid
    refine ⟨?_, ?_, ?_⟩
    · simpa [History.wait, hfinds] using hs.delivered.once
    · simpa [History.wait, hfinds] using hs.delivered.faithful
    intro c hc code' howed
    simp only [History.wait, hpid, if_true, mem_cons] at hc
    rcases hc with rfl | hc
    · simp [hserved] at howed
    · exact hs.delivered.answered c hc code' howed
  · simp only [Served, hpid, if_false] at hserved
    have hanswered : (h.wait current pid code).calls = h.calls := by
      simp [History.wait, hpid]
    have hfinds : h.waitFinds current pid = h.os.firstDead current := by
      simp [waitFinds, hpid]
    cases hdead : h.os.firstDead current with
    | none =>
      have hreports : (h.wait current pid code).reports = h.reports := by
        simp [History.wait, hfinds, hdead]
      exact ⟨by rw [hreports]; exact hs.delivered.once,
        by rw [hreports]; exact hs.delivered.faithful,
        by rw [hanswered]; exact hs.delivered.answered⟩
    | some i =>
      obtain ⟨rfl, howed⟩ := hserved i hdead
      obtain ⟨e, he⟩ := Option.ne_none_iff_exists'.mp howed
      obtain ⟨hmem, hp, hg, hpar, hnew⟩ := unreported_spec he
      have hreports : (h.wait current pid none).reports
          = ⟨current, i, h.gen i, none⟩ :: h.reports := by
        simp [History.wait, hfinds, hdead]
      refine ⟨?_, ?_, by rw [hanswered]; exact hs.delivered.answered⟩
      · rw [hreports, map_cons, nodup_cons]
        refine ⟨?_, hs.delivered.once⟩
        rw [mem_map]
        rintro ⟨r, hr, heq⟩
        exact hnew r hr heq
      · intro r hr
        rw [hreports] at hr
        rcases mem_cons.mp hr with rfl | hr
        · exact ⟨e, hmem, hp, hg, hpar, by simp⟩
        · exact hs.delivered.faithful r hr

theorem Sound.step {h h' : History} {op : LifeOp} (hs : h.Sound) (hserved : h.Served op)
    (hstep : h.Step op h') : h'.Sound := by
  cases op with
  | create ppid res =>
    obtain ⟨-, rfl⟩ := hstep
    exact hs.create ppid res
  | exit current code =>
    obtain ⟨hlive, rfl⟩ := hstep
    exact hs.exit hlive hserved
  | kill current pid =>
    obtain ⟨-, rfl⟩ := hstep
    exact hs.kill current pid
  | wait current pid code =>
    obtain ⟨-, rfl⟩ := hstep
    exact hs.wait hserved

end History

/-! ## Main result -/

/-- Exit codes are delivered as they should in every run all of whose calls the code serves. -/
theorem delivered_of_served {h : History} (hreach : Reach Init Step Served h) : h.Delivered := by
  have hsound : h.Sound := hreach.invariant (fun _ => sound_of_init) fun _ _ _ hs hserved hstep =>
      hs.step hserved hstep
  exact hsound.delivered

/-- The zero state, and a loader that succeeds. -/
def bootHistory : History :=
  { os := ⟨fun _ => Process.zero, fun _ _ => 0, fun _ => 0⟩, gen := fun _ => 0,
    ended := [], reports := [], calls := [] }

def loadOk : Loaded := ⟨0, 0, true, 0⟩

/-- The kernel starts pid 0, which creates pid 1. -/
def forked : History := (bootHistory.create 0 loadOk).create 0 loadOk

theorem reach_forked {ok : History → LifeOp → Prop} (hok : ∀ h ppid, ok h (.create ppid loadOk)) :
    Reach Init Step ok forked := by
  have hstep : ∀ h : History, h.Step (.create 0 loadOk) (h.create 0 loadOk) :=
    fun _ => ⟨Or.inl rfl, rfl⟩
  have hboot : Reach Init Step ok bootHistory := .start ⟨rfl, rfl, rfl, rfl⟩
  exact (hboot.next (hstep _) (hok _ _)).next (hstep _) (hok _ _)

/-- A parent that waits before its child exits is given the code. -/
theorem delivered_to_parked_parent :
    ((forked.wait 0 1 (some 0x1000)).exit 1 7).reports = [⟨0, 1, 1, some 7⟩] ∧
      ((forked.wait 0 1 (some 0x1000)).exit 1 7).Delivered := by
  refine ⟨by decide, delivered_of_served ?_⟩
  have hforked : Reach Init Step Served forked := reach_forked fun _ _ => trivial
  have hwait : forked.Step (.wait 0 1 (some 0x1000)) (forked.wait 0 1 (some 0x1000)) :=
    ⟨⟨by decide, by decide, by decide⟩, rfl⟩
  have hexit : (forked.wait 0 1 (some 0x1000)).Step (.exit 1 7)
      ((forked.wait 0 1 (some 0x1000)).exit 1 7) :=
    ⟨⟨by decide, by decide, by decide⟩, rfl⟩
  have hserved : forked.Served (.wait 0 1 (some 0x1000)) := by
    rw [Served]
    decide
  exact (hforked.next hwait hserved).next hexit fun _ _ => by decide

/-- Pid 0 waits for pid 1 after pid 1 has exited with code 7: it gets `-ENOPROC`. -/
theorem wait_after_exit_returns_enoproc :
    Reach Init Step (fun _ _ => True) ((forked.exit 1 7).wait 0 1 none) ∧
      ((forked.exit 1 7).wait 0 1 none).calls = [⟨1, -ENOPROC, none, some 7⟩] ∧
      ¬ ((forked.exit 1 7).wait 0 1 none).Delivered := by
  have hcalls : ((forked.exit 1 7).wait 0 1 none).calls = [⟨1, -ENOPROC, none, some 7⟩] := by
    decide
  refine ⟨?_, hcalls, fun hd => ?_⟩
  · have hforked : Reach Init Step (fun _ _ => True) forked := reach_forked fun _ _ => trivial
    have hexit : forked.Step (.exit 1 7) (forked.exit 1 7) :=
      ⟨⟨by decide, by decide, by decide⟩, rfl⟩
    have hwait : (forked.exit 1 7).Step (.wait 0 1 none) ((forked.exit 1 7).wait 0 1 none) :=
      ⟨⟨by decide, by decide, by decide⟩, rfl⟩
    exact (hforked.next hexit trivial).next hwait trivial
  · have hanswer := hd.answered ⟨1, -ENOPROC, none, some 7⟩ (by rw [hcalls]; simp) 7 rfl
    exact absurd hanswer.1 (by decide)

end Sched
