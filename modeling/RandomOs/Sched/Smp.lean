import RandomOs.Lib.Runs
import RandomOs.Sched.Process

/-!
# Process selection on several cores (`scheduler.c`, `smp_main.c`)

Each core chooses its next process in one section under `proctbl_lock` and publishes the choice in
`smp_info[].current_pid` in a later one.  The atomic steps of the model are these sections, so a
choice that is not published yet is part of the state.
-/

namespace Sched

open Lib

/-! ## Model -/

/-- `current_pid` of a core that runs no process. -/
def noPid : Nat := 0xFF

/-- The fields of `smp_info_t` that the scheduler uses. -/
structure Core where
  apicid : Nat
  currentPid : Nat

structure SmpState where
  proctbl : ProcTable
  ncores : Nat
  smpInfo : Nat → Core
  bspApicid : Nat
  /-- the global `current_pid` of the boot core -/
  currentPid : Nat
  schedulerExecve : Bool
  /-- what `getms` returns, `none` while the pointer is null -/
  ms : Option Nat
  /-- `tgtpid` of `scheduler_switch`, between its two sections -/
  bspPick : Option Nat
  /-- `pid` of `smp_mainloop` on each core, between its two sections; the inner `none` is -1 -/
  apPick : Nat → Option (Option Nat)

open SmpState

namespace SmpState

/-- A core other than the boot core runs `pid`: the loop over cores in `nextproc`. -/
def inUseAp (s : SmpState) (pid : Nat) : Bool :=
  (List.range s.ncores).any fun c =>
    (s.smpInfo c).apicid != s.bspApicid && (s.smpInfo c).currentPid == pid

/-- A core other than `i` runs `pid`: the loop over cores in `nextproc_core`. -/
def inUseOther (s : SmpState) (i pid : Nat) : Bool :=
  (List.range s.ncores).any fun c => c != i && (s.smpInfo c).currentPid == pid

/-- The sleep of a blocked process is over. -/
def wakeDue (s : SmpState) (pid : Nat) : Bool :=
  (s.proctbl pid).wakeMs != 0 &&
    match s.ms with
    | some now => decide ((s.proctbl pid).wakeMs ≤ now)
    | none => false

/-- `nextproc` can return `pid`. -/
def bspRunnable (s : SmpState) (pid : Nat) : Bool :=
  (s.proctbl pid).used && !(s.proctbl pid).isDead && !s.inUseAp pid &&
    (!(s.proctbl pid).isBlocked || s.wakeDue pid)

/-- `nextproc_core(i)` can return `pid`. -/
def apRunnable (s : SmpState) (i pid : Nat) : Bool :=
  (s.proctbl pid).used && !(s.proctbl pid).isDead && !(s.proctbl pid).isBlocked &&
    !s.inUseOther i pid

/-- The `do`-`while` loop of `nextproc`: it starts after `pid` and ends with `start`. -/
def nextprocLoop (s : SmpState) (start : Nat) : Nat → Nat → Option Nat
  | 0, _ => none
  | fuel + 1, pid =>
    let pid := (pid + 1) % maxProcesses
    if s.bspRunnable pid then some pid
    else if pid ≠ start then s.nextprocLoop start fuel pid
    else none

/-- `nextproc`: the choice, and the process table with a woken sleeper unblocked. -/
def nextproc (s : SmpState) : Option Nat × ProcTable :=
  match s.nextprocLoop s.currentPid maxProcesses s.currentPid with
  | some pid =>
    if (s.proctbl pid).isBlocked then
      (some pid, Function.update s.proctbl pid
        { s.proctbl pid with isBlocked := false, wakeMs := 0 })
    else (some pid, s.proctbl)
  | none => (none, s.proctbl)

/-- The candidate of `nextproc_core` at `step`; `start` is `none` for a core without a process. -/
def candidate (start : Option Nat) (step : Nat) : Nat :=
  match start with
  | some current => (current + 1 + step) % maxProcesses
  | none => step % maxProcesses

/-- The loop of `nextproc_core` from `step` on. -/
def nextprocCoreLoop (s : SmpState) (i : Nat) (start : Option Nat) : Nat → Nat → Option Nat
  | 0, _ => none
  | fuel + 1, step =>
    let cand := candidate start step
    if start = some cand then none
    else if s.apRunnable i cand then some cand
    else s.nextprocCoreLoop i start fuel (step + 1)

/-- `nextproc_core`. -/
def nextprocCore (s : SmpState) (i : Nat) : Option Nat :=
  let current := (s.smpInfo i).currentPid
  s.nextprocCoreLoop i (if current = noPid then none else some current) maxProcesses 0

/-- The entry of the boot core in `smp_info`. -/
def bspSlot (s : SmpState) : Option Nat :=
  (List.range s.ncores).find? fun c => (s.smpInfo c).apicid == s.bspApicid

def setCurrentPid (s : SmpState) (c pid : Nat) : SmpState :=
  { s with smpInfo := Function.update s.smpInfo c { s.smpInfo c with currentPid := pid } }

def setApPick (s : SmpState) (i : Nat) (pick : Option (Option Nat)) : SmpState :=
  { s with apPick := Function.update s.apPick i pick }

def setBspPick (s : SmpState) (pick : Option Nat) : SmpState := { s with bspPick := pick }

/-- The second section of `scheduler_switch`, with `tgtpid` chosen before. -/
def switchTo (s : SmpState) (tgtpid : Nat) : SmpState :=
  if tgtpid = s.currentPid ∧ !(s.proctbl s.currentPid).isDead ∧ !s.schedulerExecve then s
  else
    let s := if tgtpid = s.currentPid ∧ !(s.proctbl s.currentPid).isDead then
      { s with schedulerExecve := false } else s
    let s := { s with currentPid := tgtpid }
    match s.bspSlot with
    | some c => s.setCurrentPid c tgtpid
    | none => s

end SmpState

/-- The sections under `proctbl_lock`, and what other kernel code does to the process table. -/
inductive SmpStep
  | nextproc
  | switch
  | nextprocCore (i : Nat)
  | mainloop (i : Nat)
  | kernel (proctbl : ProcTable) (ms : Option Nat) (schedulerExecve : Bool)

/-- Core `i` is an application processor. -/
def SmpState.IsAp (s : SmpState) (i : Nat) : Prop :=
  i < s.ncores ∧ (s.smpInfo i).apicid ≠ s.bspApicid

instance (s : SmpState) (i : Nat) : Decidable (s.IsAp i) := inferInstanceAs (Decidable (_ ∧ _))

inductive SmpState.Step : SmpState → SmpStep → SmpState → Prop
  | nextproc {s} : s.bspPick = none →
      Step s .nextproc ({ s with proctbl := s.nextproc.2 }.setBspPick s.nextproc.1)
  | switch {s tgtpid} : s.bspPick = some tgtpid →
      Step s .switch ((s.setBspPick none).switchTo tgtpid)
  | nextprocCore {s i} : s.IsAp i → s.apPick i = none →
      Step s (.nextprocCore i) (s.setApPick i (some (s.nextprocCore i)))
  | mainloop {s i pid} : s.IsAp i → s.apPick i = some pid →
      Step s (.mainloop i) ((s.setApPick i none).setCurrentPid i (pid.getD noPid))
  | kernel {s proctbl ms schedulerExecve} :
      Step s (.kernel proctbl ms schedulerExecve) { s with proctbl, ms, schedulerExecve }

/-- After `init_cores`: no core has a process or a pending choice. -/
def SmpState.Init (s : SmpState) : Prop :=
  (∀ c, (s.smpInfo c).currentPid = noPid) ∧ s.bspPick = none ∧ ∀ i, s.apPick i = none

/-- No two cores run the same process. -/
def SmpState.NoSharing (s : SmpState) : Prop :=
  ∀ c d, c < s.ncores → d < s.ncores → c ≠ d →
    (s.smpInfo c).currentPid = (s.smpInfo d).currentPid → (s.smpInfo c).currentPid = noPid

/-- A core chooses only while no process that another core has chosen but not yet published would
pass its own test. -/
def SmpState.SelectionApart (s : SmpState) : SmpStep → Prop
  | .nextproc => ∀ i pid, s.IsAp i → s.apPick i = some (some pid) → ¬ s.bspRunnable pid
  | .nextprocCore i =>
    (∀ j pid, s.IsAp j → j ≠ i → s.apPick j = some (some pid) → ¬ s.apRunnable i pid) ∧
      ∀ pid, s.bspPick = some pid → ¬ s.apRunnable i pid
  | _ => True

/-! ## What a selection returns -/

namespace SmpState

section Updates

variable (s : SmpState) (i j pid : Nat) (pick : Option (Option Nat))

@[simp] theorem setApPick_self : (s.setApPick i pick).apPick i = pick := by
  simp [setApPick]

@[simp] theorem setApPick_of_ne (h : j ≠ i) : (s.setApPick i pick).apPick j = s.apPick j := by
  simp [setApPick, h]

@[simp] theorem setCurrentPid_self : ((s.setCurrentPid i pid).smpInfo i).currentPid = pid := by
  simp [setCurrentPid]

@[simp] theorem setCurrentPid_of_ne (h : j ≠ i) :
    (s.setCurrentPid i pid).smpInfo j = s.smpInfo j := by
  simp [setCurrentPid, h]

@[simp] theorem setCurrentPid_apicid :
    ((s.setCurrentPid i pid).smpInfo j).apicid = (s.smpInfo j).apicid := by
  by_cases h : j = i
  · subst h
    simp [setCurrentPid]
  · rw [setCurrentPid_of_ne _ _ _ _ h]

@[simp] theorem isAp_setCurrentPid : (s.setCurrentPid i pid).IsAp j ↔ s.IsAp j := by
  simp only [IsAp, setCurrentPid_apicid]
  rfl

@[simp] theorem bspSlot_setCurrentPid : (s.setCurrentPid i pid).bspSlot = s.bspSlot := by
  simp only [bspSlot, setCurrentPid_apicid]
  rfl

end Updates

variable {s : SmpState} {pid p i : Nat}

theorem nextprocLoop_spec {start fuel : Nat} (h : s.nextprocLoop start fuel pid = some p) :
    s.bspRunnable p ∧ p < maxProcesses := by
  induction fuel generalizing pid with
  | zero => simp [nextprocLoop] at h
  | succ fuel ih =>
    simp only [nextprocLoop] at h
    split at h
    · rename_i hrun
      obtain rfl := Option.some.inj h
      exact ⟨hrun, Nat.mod_lt _ (by decide)⟩
    · split at h
      · exact ih h
      · simp at h

theorem nextproc_spec (h : s.nextproc.1 = some p) : s.bspRunnable p ∧ p < maxProcesses := by
  unfold nextproc at h
  split at h
  · rename_i pid hloop
    obtain rfl : pid = p := by
      split at h <;> exact Option.some.inj h
    exact nextprocLoop_spec hloop
  · simp at h

theorem candidate_lt (start : Option Nat) (step : Nat) : candidate start step < maxProcesses := by
  cases start <;> exact Nat.mod_lt _ (by decide)

theorem nextprocCoreLoop_spec {start : Option Nat} {fuel step : Nat}
    (h : s.nextprocCoreLoop i start fuel step = some p) : s.apRunnable i p ∧ p < maxProcesses := by
  induction fuel generalizing step with
  | zero => simp [nextprocCoreLoop] at h
  | succ fuel ih =>
    simp only [nextprocCoreLoop] at h
    split at h
    · simp at h
    split at h
    · rename_i hrun
      obtain rfl := Option.some.inj h
      exact ⟨hrun, candidate_lt start step⟩
    · exact ih h

theorem nextprocCore_spec (h : s.nextprocCore i = some p) : s.apRunnable i p ∧ p < maxProcesses :=
  nextprocCoreLoop_spec h

theorem bspRunnable_not_on_ap {c : Nat} (h : s.bspRunnable p) (hc : s.IsAp c) :
    (s.smpInfo c).currentPid ≠ p := by
  intro heq
  have hfree : s.inUseAp p = false := by
    simp only [bspRunnable, Bool.and_eq_true, Bool.not_eq_true'] at h
    exact h.1.2
  rw [inUseAp, List.any_eq_false] at hfree
  have hcore := hfree c (List.mem_range.mpr hc.1)
  simp only [Bool.and_eq_true, bne_iff_ne, beq_iff_eq] at hcore
  exact hcore ⟨hc.2, heq⟩

theorem apRunnable_not_on_other {c : Nat} (h : s.apRunnable i p) (hc : c < s.ncores) (hne : c ≠ i) :
    (s.smpInfo c).currentPid ≠ p := by
  intro heq
  have hfree : s.inUseOther i p = false := by
    simp only [apRunnable, Bool.and_eq_true, Bool.not_eq_true'] at h
    exact h.2
  rw [inUseOther, List.any_eq_false] at hfree
  have hcore := hfree c (List.mem_range.mpr hc)
  simp only [Bool.and_eq_true, bne_iff_ne, beq_iff_eq] at hcore
  exact hcore ⟨hne, heq⟩

theorem bspSlot_spec {b : Nat} (h : s.bspSlot = some b) :
    b < s.ncores ∧ (s.smpInfo b).apicid = s.bspApicid := by
  have hmem := List.mem_of_find?_eq_some h
  have htest := List.find?_some h
  exact ⟨List.mem_range.mp hmem, by simpa using htest⟩

/-! ## Round robin -/

/-- `pid` is in use and alive, no other core runs it, and it is not blocked past `now`. -/
def Selectable (s : SmpState) (now pid : Nat) : Prop :=
  (s.proctbl pid).used = true ∧ (s.proctbl pid).isDead = false ∧
  (∀ c < s.ncores, (s.smpInfo c).apicid ≠ s.bspApicid → (s.smpInfo c).currentPid ≠ pid) ∧
  ((s.proctbl pid).isBlocked = false ∨
    (s.proctbl pid).wakeMs ≠ 0 ∧ (s.proctbl pid).wakeMs ≤ now)

/-- `nextproc` takes the next process that can run, in cyclic order, and wakes it if it slept. -/
def RoundRobin (s : SmpState) (now : Nat) : Prop :=
  (∃ k < maxProcesses, ∃ p, p = (s.currentPid + 1 + k) % maxProcesses ∧ s.Selectable now p ∧
    (∀ j < k, ¬ s.Selectable now ((s.currentPid + 1 + j) % maxProcesses)) ∧
    s.nextproc = (some p, if (s.proctbl p).isBlocked then
      Function.update s.proctbl p { s.proctbl p with isBlocked := false, wakeMs := 0 }
      else s.proctbl)) ∨
  (∀ p < maxProcesses, ¬ s.Selectable now p) ∧ s.nextproc = (none, s.proctbl)

theorem bspRunnable_iff {now : Nat} (hms : s.ms = some now) :
    s.bspRunnable pid = true ↔ s.Selectable now pid := by
  simp [bspRunnable, inUseAp, wakeDue, Selectable, hms, and_assoc]

-- the `n` rounds that are left after `k` of them
theorem nextprocLoop_eq_find (start : Nat) {n k : Nat} (hk : k + n = maxProcesses) :
    s.nextprocLoop start n ((start + k) % maxProcesses) =
      ((List.range' k n).map fun i => (start + 1 + i) % maxProcesses).find? s.bspRunnable := by
  induction n generalizing k with
  | zero => rfl
  | succ n ih =>
    have hpid : ((start + k) % maxProcesses + 1) % maxProcesses =
        (start + 1 + k) % maxProcesses := by
      rw [Nat.mod_add_mod, Nat.add_right_comm]
    rw [List.range'_succ, List.map_cons, List.find?_cons]
    simp only [nextprocLoop, hpid]
    cases s.bspRunnable ((start + 1 + k) % maxProcesses) with
    | true => rfl
    | false =>
      rw [if_neg Bool.false_ne_true]
      split_ifs with hne
      · rw [← ih (by omega), Nat.add_right_comm, Nat.add_assoc]
      · -- the loop is back at the start
        have hn : n = 0 := by
          unfold maxProcesses at *
          omega
        rw [hn]
        rfl

theorem nextproc_roundRobin {now : Nat} (hcur : s.currentPid < maxProcesses)
    (hms : s.ms = some now) : s.RoundRobin now := by
  have hloop := nextprocLoop_eq_find (s := s) s.currentPid (Nat.zero_add _)
  rw [Nat.add_zero, Nat.mod_eq_of_lt hcur, ← List.range_eq_range'] at hloop
  simp only [RoundRobin, ← bspRunnable_iff hms]
  unfold nextproc
  rw [hloop]
  cases hfound : List.find? s.bspRunnable _ with
  | some p =>
    left
    obtain ⟨hrun, k, hk, hp, hbefore⟩ := List.find?_eq_some_iff_getElem.1 hfound
    simp only [List.getElem_map, List.getElem_range] at hp hbefore
    refine ⟨k, by simpa using hk, p, hp.symm, hrun, fun j hj => ?_, ?_⟩
    · simpa using hbefore j hj
    · dsimp only
      split <;> rfl
  | none =>
    right
    refine ⟨fun p hp hrun => ?_, rfl⟩
    refine List.find?_eq_none.1 hfound p (List.mem_map.2 ?_) hrun
    unfold maxProcesses at *
    exact ⟨(p + 255 - (s.currentPid + 1)) % 255, List.mem_range.2 (by omega), by omega⟩

/-- How many processes `nextproc` looks at before `q`. -/
def ahead (q pid : Nat) : Nat := (q + 254 - pid) % maxProcesses

-- `nextproc` takes `q` or comes nearer to it
theorem nextproc_ahead {q : Nat} (hcur : s.currentPid < maxProcesses)
    (hq : q < maxProcesses) (hrun : s.bspRunnable q) :
    ∃ p, s.nextproc.1 = some p ∧ (p = q ∨ ahead q p < ahead q s.currentPid) := by
  have hloop := nextprocLoop_eq_find (s := s) s.currentPid (Nat.zero_add _)
  rw [Nat.add_zero, Nat.mod_eq_of_lt hcur, ← List.range_eq_range'] at hloop
  unfold ahead maxProcesses at *
  have hat : (s.currentPid + 1 + (q + 254 - s.currentPid) % 255) % 255 = q := by omega
  unfold nextproc maxProcesses
  rw [hloop]
  cases hfound : List.find? s.bspRunnable _ with
  | none =>
    refine absurd hrun (List.find?_eq_none.1 hfound q (List.mem_map.2 ⟨_, ?_, hat⟩))
    exact List.mem_range.2 (Nat.mod_lt _ (by decide))
  | some p =>
    obtain ⟨-, k, hk, hp, hbefore⟩ := List.find?_eq_some_iff_getElem.1 hfound
    simp only [List.getElem_map, List.getElem_range] at hp hbefore
    have hle : k ≤ (q + 254 - s.currentPid) % 255 :=
      Nat.le_of_not_lt fun hgt => by simpa [hat, hrun] using hbefore _ hgt
    exact ⟨p, by dsimp only; split <;> rfl, by omega⟩

/-- A process that stays runnable is chosen within `maxProcesses` rounds, whatever happens to the
others in between. -/
theorem nextproc_no_starvation {q : Nat} (run : Nat → SmpState)
    (hcur : (run 0).currentPid < maxProcesses)
    (hswitch : ∀ k p, (run k).nextproc.1 = some p → (run (k + 1)).currentPid = p)
    (hq : q < maxProcesses) (hrun : ∀ k, (run k).bspRunnable q) :
    ∃ k < maxProcesses, (run k).nextproc.1 = some q := by
  -- by induction on how far `q` is
  have hwait : ∀ k, (run k).currentPid < maxProcesses →
      ∃ j ≤ ahead q (run k).currentPid, (run (k + j)).nextproc.1 = some q := by
    intro k
    induction hn : ahead q (run k).currentPid using Nat.strong_induction_on generalizing k with
    | _ n ih =>
      intro hk
      obtain ⟨p, hsel, rfl | hlt⟩ := nextproc_ahead hk hq (hrun k)
      · exact ⟨0, Nat.zero_le _, hsel⟩
      obtain rfl := hswitch k p hsel
      obtain ⟨j, hj, hdone⟩ := ih _ (hn ▸ hlt) (k + 1) rfl (nextproc_spec hsel).2
      exact ⟨j + 1, by omega, by rwa [Nat.add_assoc, Nat.add_comm 1] at hdone⟩
  obtain ⟨j, hj, hdone⟩ := hwait 0 hcur
  exact ⟨j, hj.trans_lt (Nat.mod_lt _ (by decide)), by rwa [Nat.zero_add] at hdone⟩

/-! ## Exclusion -/

/-- Running and chosen processes are all different.  Entries of `smp_info` that repeat the boot
core's id are never written. -/
structure Exclusive (s : SmpState) : Prop where
  unused : ∀ c, c < s.ncores → (s.smpInfo c).apicid = s.bspApicid → s.bspSlot ≠ some c →
    (s.smpInfo c).currentPid = noPid
  running : s.NoSharing
  apPicked : ∀ i p, s.IsAp i → s.apPick i = some (some p) →
    p < maxProcesses ∧ ∀ c, c < s.ncores → c ≠ i → (s.smpInfo c).currentPid ≠ p
  bspPicked : ∀ p, s.bspPick = some p →
    p < maxProcesses ∧ ∀ c, s.IsAp c → (s.smpInfo c).currentPid ≠ p
  apApart : ∀ i j p, s.IsAp i → s.IsAp j → s.apPick i = some (some p) →
    s.apPick j = some (some p) → i = j
  bspApart : ∀ i p, s.IsAp i → s.apPick i = some (some p) → s.bspPick ≠ some p

theorem Init.exclusive (h : s.Init) : s.Exclusive := by
  obtain ⟨hidle, hbsp, hap⟩ := h
  refine ⟨fun c _ _ _ => hidle c, fun c _ _ _ _ _ => hidle c, ?_, ?_, ?_, ?_⟩ <;>
    simp [hbsp, hap]

theorem Exclusive.nextproc (h : s.Exclusive) (hok : s.SelectionApart .nextproc) :
    ({ s with proctbl := s.nextproc.2 }.setBspPick s.nextproc.1).Exclusive := by
  refine ⟨h.unused, h.running, h.apPicked, ?_, h.apApart, ?_⟩
  · intro p hp
    obtain ⟨hrun, hlt⟩ := nextproc_spec hp
    refine ⟨hlt, fun c hc => ?_⟩
    have hnot : (s.smpInfo c).currentPid ≠ p := bspRunnable_not_on_ap hrun hc
    exact hnot
  · intro i p hi hpick hp
    exact hok i p hi hpick (nextproc_spec hp).1

theorem Exclusive.nextprocCore (h : s.Exclusive) (hok : s.SelectionApart (.nextprocCore i)) :
    (s.setApPick i (some (s.nextprocCore i))).Exclusive := by
  have hnew : ∀ p, some (s.nextprocCore i) = some (some p) →
      s.apRunnable i p ∧ p < maxProcesses := fun p hp => nextprocCore_spec (Option.some.inj hp)
  refine ⟨h.unused, h.running, ?_, h.bspPicked, ?_, ?_⟩
  · intro j p hj hp
    by_cases hji : j = i
    · subst hji
      rw [setApPick_self] at hp
      obtain ⟨hrun, hlt⟩ := hnew p hp
      exact ⟨hlt, fun c hc hne => apRunnable_not_on_other hrun hc hne⟩
    · rw [setApPick_of_ne _ _ _ _ hji] at hp
      exact h.apPicked j p hj hp
  · intro j k p hj hk hpj hpk
    by_cases hji : j = i <;> by_cases hki : k = i
    · rw [hji, hki]
    · subst hji
      rw [setApPick_self] at hpj
      rw [setApPick_of_ne _ _ _ _ hki] at hpk
      exact absurd (hnew p hpj).1 (hok.1 k p hk hki hpk)
    · subst hki
      rw [setApPick_self] at hpk
      rw [setApPick_of_ne _ _ _ _ hji] at hpj
      exact absurd (hnew p hpk).1 (hok.1 j p hj hji hpj)
    · rw [setApPick_of_ne _ _ _ _ hji] at hpj
      rw [setApPick_of_ne _ _ _ _ hki] at hpk
      exact h.apApart j k p hj hk hpj hpk
  · intro j p hj hp hbsp
    by_cases hji : j = i
    · subst hji
      rw [setApPick_self] at hp
      exact hok.2 p hbsp (hnew p hp).1
    · rw [setApPick_of_ne _ _ _ _ hji] at hp
      exact h.bspApart j p hj hp hbsp

theorem NoSharing.setCurrentPid (h : s.NoSharing)
    (hpid : ∀ c, c < s.ncores → c ≠ i → (s.smpInfo c).currentPid = pid → pid = noPid) :
    (s.setCurrentPid i pid).NoSharing := by
  intro c d hc hd hne heq
  by_cases hci : c = i <;> by_cases hdi : d = i
  · exact absurd (hci.trans hdi.symm) hne
  · subst hci
    rw [setCurrentPid_self, setCurrentPid_of_ne _ _ _ _ hdi] at heq
    rw [setCurrentPid_self]
    exact hpid d hd hdi heq.symm
  · subst hdi
    rw [setCurrentPid_self, setCurrentPid_of_ne _ _ _ _ hci] at heq
    rw [setCurrentPid_of_ne _ _ _ _ hci, heq]
    exact hpid c hc hci heq
  · rw [setCurrentPid_of_ne _ _ _ _ hci, setCurrentPid_of_ne _ _ _ _ hdi] at heq
    rw [setCurrentPid_of_ne _ _ _ _ hci]
    exact h c d hc hd hne heq

theorem Exclusive.setApPick_none (h : s.Exclusive) (i : Nat) : (s.setApPick i none).Exclusive := by
  have hold : ∀ j p, (s.setApPick i none).apPick j = some (some p) →
      s.apPick j = some (some p) := by
    intro j p hp
    by_cases hji : j = i
    · subst hji
      simp at hp
    · rwa [setApPick_of_ne _ _ _ _ hji] at hp
  exact ⟨h.unused, h.running, fun j p hj hp => h.apPicked j p hj (hold j p hp), h.bspPicked,
    fun j k p hj hk hpj hpk => h.apApart j k p hj hk (hold j p hpj) (hold k p hpk),
    fun j p hj hp => h.bspApart j p hj (hold j p hp)⟩

theorem Exclusive.setBspPick_none (h : s.Exclusive) : (s.setBspPick none).Exclusive :=
  ⟨h.unused, h.running, h.apPicked, fun _ hp => (Option.some_ne_none _ hp.symm).elim, h.apApart,
    fun _ _ _ _ hp => Option.some_ne_none _ hp.symm⟩

theorem Exclusive.setCurrentPid (h : s.Exclusive) (hi : s.IsAp i ∨ s.bspSlot = some i)
    (hrun : ∀ c, c < s.ncores → c ≠ i → (s.smpInfo c).currentPid = pid → pid = noPid)
    (hap : ∀ j p, s.IsAp j → j ≠ i → s.apPick j = some (some p) → pid ≠ p)
    (hbsp : ∀ p, s.IsAp i → s.bspPick = some p → pid ≠ p) : (s.setCurrentPid i pid).Exclusive := by
  refine ⟨?_, h.running.setCurrentPid hrun, ?_, ?_, ?_, ?_⟩
  · intro c hc hapic hslot
    rw [setCurrentPid_apicid] at hapic
    rw [bspSlot_setCurrentPid] at hslot
    have hci : c ≠ i := by
      rintro rfl
      exact hi.elim (fun hp => hp.2 hapic) hslot
    rw [setCurrentPid_of_ne _ _ _ _ hci]
    exact h.unused c hc hapic hslot
  · intro j p hj hp
    rw [isAp_setCurrentPid] at hj
    obtain ⟨hlt, hnot⟩ := h.apPicked j p hj hp
    refine ⟨hlt, fun c hc hcj => ?_⟩
    by_cases hci : c = i
    · subst hci
      rw [setCurrentPid_self]
      exact hap j p hj (Ne.symm hcj) hp
    · rw [setCurrentPid_of_ne _ _ _ _ hci]
      exact hnot c hc hcj
  · intro p hp
    obtain ⟨hlt, hnot⟩ := h.bspPicked p hp
    refine ⟨hlt, fun c hc => ?_⟩
    rw [isAp_setCurrentPid] at hc
    by_cases hci : c = i
    · subst hci
      rw [setCurrentPid_self]
      exact hbsp p hc hp
    · rw [setCurrentPid_of_ne _ _ _ _ hci]
      exact hnot c hc
  · intro j k p hj hk
    rw [isAp_setCurrentPid] at hj hk
    exact h.apApart j k p hj hk
  · intro j p hj
    rw [isAp_setCurrentPid] at hj
    exact h.bspApart j p hj

theorem Exclusive.mainloop (h : s.Exclusive) {pick : Option Nat} (hi : s.IsAp i)
    (hpick : s.apPick i = some pick) :
    ((s.setApPick i none).setCurrentPid i (pick.getD noPid)).Exclusive := by
  apply (h.setApPick_none i).setCurrentPid (Or.inl hi)
  · intro c hc hne heq
    cases pick with
    | none => rfl
    | some p => exact absurd heq ((h.apPicked i p hi hpick).2 c hc hne)
  · intro j p hj hji hp
    rw [setApPick_of_ne _ _ _ _ hji] at hp
    cases pick with
    | none => exact (Nat.ne_of_lt (h.apPicked j p hj hp).1).symm
    | some q =>
      rintro rfl
      exact hji (h.apApart j i _ hj hi hp hpick)
  · intro p _ hp
    cases pick with
    | none => exact (Nat.ne_of_lt (h.bspPicked p hp).1).symm
    | some q =>
      rintro rfl
      exact h.bspApart i _ hi hpick hp

theorem Exclusive.switchTo (h : s.Exclusive) {tgtpid : Nat}
    (hrun : ∀ c, s.IsAp c → (s.smpInfo c).currentPid ≠ tgtpid)
    (hap : ∀ i, s.IsAp i → s.apPick i ≠ some (some tgtpid)) : (s.switchTo tgtpid).Exclusive := by
  unfold SmpState.switchTo
  split
  · exact h
  -- neither global field that changes is read by the invariant
  have hpub : ∀ t : SmpState, t.Exclusive → t.ncores = s.ncores → t.smpInfo = s.smpInfo →
      t.bspApicid = s.bspApicid → t.apPick = s.apPick →
      (match t.bspSlot with
        | some c => t.setCurrentPid c tgtpid
        | none => t).Exclusive := by
    intro t ht hn hinfo hid hpick
    split
    swap
    · exact ht
    rename_i b hb
    have hnotap : ¬ t.IsAp b := fun hp => hp.2 (bspSlot_spec hb).2
    have hisap : ∀ c, t.IsAp c → s.IsAp c := fun c hc => by
      rwa [IsAp, hn, hinfo, hid] at hc
    apply ht.setCurrentPid (Or.inr hb)
    · intro c hc hcb heq
      by_cases hcap : t.IsAp c
      · rw [hinfo] at heq
        exact absurd heq (hrun c (hisap c hcap))
      have hsame : (t.smpInfo c).apicid = t.bspApicid := by
        by_contra hne
        exact hcap ⟨hc, hne⟩
      have hslot : t.bspSlot ≠ some c := fun hs => hcb (Option.some.inj (hs.symm.trans hb))
      rw [← heq]
      exact ht.unused c hc hsame hslot
    · rintro j p hj _ hp rfl
      rw [hpick] at hp
      exact hap j (hisap j hj) hp
    · exact fun p hp => absurd hp hnotap
  apply hpub
  · split <;> exact ⟨h.unused, h.running, h.apPicked, h.bspPicked, h.apApart, h.bspApart⟩
  all_goals split <;> rfl

theorem Exclusive.step {s t : SmpState} {a : SmpStep} (h : s.Exclusive) (hok : s.SelectionApart a)
    (hstep : s.Step a t) : t.Exclusive := by
  cases hstep with
  | nextproc _ => exact h.nextproc hok
  | switch hpick =>
    obtain ⟨-, hrun⟩ := h.bspPicked _ hpick
    exact h.setBspPick_none.switchTo hrun (fun i hi hp => h.bspApart i _ hi hp hpick)
  | nextprocCore _ _ => exact h.nextprocCore hok
  | mainloop hi hpick => exact h.mainloop hi hpick
  | kernel => exact ⟨h.unused, h.running, h.apPicked, h.bspPicked, h.apApart, h.bspApart⟩

end SmpState

theorem noSharing_of_selectionApart {s : SmpState}
    (hs : Reach Init Step SelectionApart s) : s.NoSharing := by
  have hexcl : s.Exclusive := hs.invariant (fun _ h => Init.exclusive h)
      (fun _ _ _ h hok hst => Exclusive.step h hok hst)
  exact hexcl.running

/-! ## Two cores that choose before either publishes -/

/-- A boot core and two application processors; process 5 is the only one. -/
def raceStart : SmpState :=
  { proctbl := Function.update (fun _ => Process.zero) 5 { Process.zero with used := true }
    ncores := 3
    smpInfo := fun c => { apicid := c, currentPid := noPid }
    bspApicid := 0
    currentPid := 0
    schedulerExecve := false
    ms := none
    bspPick := none
    apPick := fun _ => none }

theorem raceStart_init : raceStart.Init := ⟨fun _ => rfl, rfl, fun _ => rfl⟩

theorem raceStart_nextprocCore : raceStart.nextprocCore 1 = some 5 := by decide

theorem nextproc_roundRobin_race : RoundRobin { raceStart with ms := some 0 } 0 :=
  nextproc_roundRobin (by decide) rfl

/-- The same cores with process 6 beside process 5. -/
def pairStart : SmpState :=
  { raceStart with
    proctbl := Function.update raceStart.proctbl 6 { Process.zero with used := true } }

/-- The boot core, which runs processes 5 and 6 in turn. -/
def pairRun (k : Nat) : SmpState :=
  { pairStart with currentPid := if k % 2 = 0 then 5 else 6 }

theorem nextproc_no_starvation_pair : ∃ k < maxProcesses, (pairRun k).nextproc.1 = some 5 := by
  have hturn : (pairRun 0).nextproc.1 = some 6 ∧ (pairRun 1).nextproc.1 = some 5 := by
    decide +kernel
  refine nextproc_no_starvation pairRun (by decide) (fun k p hp => ?_) (by decide) fun k => ?_
  · rcases Nat.mod_two_eq_zero_or_one k with hk | hk
    · have heq : pairRun k = pairRun 0 := by simp [pairRun, hk]
      rw [heq, hturn.1] at hp
      simpa [pairRun, Nat.add_mod, hk] using hp
    · have heq : pairRun k = pairRun 1 := by simp [pairRun, hk]
      rw [heq, hturn.2] at hp
      simpa [pairRun, Nat.add_mod, hk] using hp
  · show (pairRun 0).bspRunnable 5 = true
    decide

/-- Core 1 takes process 5, and then core 2 process 6. -/
theorem noSharing_after_two_cores : ∃ s, Reach Init Step SelectionApart s ∧
    (s.smpInfo 1).currentPid = 5 ∧ (s.smpInfo 2).currentPid = 6 ∧ s.NoSharing := by
  have hap : pairStart.IsAp 1 ∧ pairStart.IsAp 2 := by decide
  have h0 : Reach Init Step SelectionApart pairStart :=
    .start ⟨fun _ => rfl, rfl, fun _ => rfl⟩
  have h1 := h0.next (.nextprocCore hap.1 rfl)
    ⟨fun _ _ _ _ hp => (nomatch hp), fun _ hp => nomatch hp⟩
  have h2 := h1.next (.mainloop hap.1 (setApPick_self _ _ _)) trivial
  have hnone : ∀ j, ((pairStart.setApPick 1 (some (pairStart.nextprocCore 1))).setApPick 1
      none).apPick j = none := by
    intro j
    by_cases hj : j = 1 <;> simp [setApPick, hj, pairStart, raceStart]
  have h3 := h2.next (.nextprocCore (i := 2) hap.2 (hnone 2))
    ⟨fun j p _ _ hp => (nomatch (hnone j).symm.trans hp), fun _ hp => nomatch hp⟩
  have h4 := h3.next (.mainloop (i := 2) hap.2 (setApPick_self _ _ _)) trivial
  exact ⟨_, h4, by decide, by decide, noSharing_of_selectionApart h4⟩

/-- Cores 1 and 2 both choose process 5, then both publish it. -/
theorem two_cores_run_process_five : ¬ ∀ s, Reach Init Step (fun _ _ => True) s → s.NoSharing := by
  intro h
  have hap1 : raceStart.IsAp 1 := by decide
  have hap2 : raceStart.IsAp 2 := by decide
  have h0 : Reach Init Step (fun _ _ => True) raceStart := .start raceStart_init
  have h1 := h0.next (.nextprocCore hap1 rfl) trivial
  rw [raceStart_nextprocCore] at h1
  have h2 := h1.next (.nextprocCore (i := 2) hap2 rfl) trivial
  rw [show (raceStart.setApPick 1 (some (some 5))).nextprocCore 2 = some 5 by decide] at h2
  have h3 := h2.next (.mainloop (i := 1) hap1 rfl) trivial
  have h4 := h3.next (.mainloop (i := 2) hap2 rfl) trivial
  have hbad := h _ h4 1 2 (by decide) (by decide) (by decide) (by decide)
  exact absurd hbad (by decide)

end Sched
