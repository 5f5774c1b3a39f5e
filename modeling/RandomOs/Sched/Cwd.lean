import RandomOs.Sched.ExitStatus
import RandomOs.Sched.Smp
import RandomOs.Vfs.Names

/-!
# The current directory (`sys_setpwd`, `scheduler_switch`, `chdir`)

One global `cwd` is used for the relative paths of all processes, and each process has a string of
its own, `pwd`.  The scheduler copies the one into the other when it switches.
-/

namespace Sched

open Kern Lib Paths Vfs Function

structure PwdState where
  procs : ProcState
  /-- `proctbl[].pwd`, `none` if null -/
  pwd : Nat → Option Str
  cwd : Str
  currentPid : Nat
  /-- history: `pwd` was set to something else than `cwd` since the last `chdir` -/
  moved : Bool

open PwdState

def chdir (cwd : Str) (path : Option Str) : Str :=
  match path with
  | none => cwd
  | some p =>
    match vfsAbspath cwd p 1024 with
    | .error _ => cwd
    | .ok abs => abs

namespace PwdState

/-- `ensured` is the result of `ensure_string`, `mem` that of `malloc`. -/
def sysSetpwd (s : PwdState) (path : Str) (ensured mem : Bool) : PwdState × Int :=
  if !ensured then (s, -EINVAL)
  else
    match vfsAbspath s.cwd path 1025 with
    | .error _ => (s, -ETOOSMALL)
    | .ok newpath =>
      if !mem then (s, -ENOMEM)
      else ({ s with
        pwd := Function.update s.pwd s.currentPid (some newpath)
        moved := decide (newpath ≠ s.cwd) }, 0)

def setTable (s : PwdState) (proctbl : ProcTable) : PwdState :=
  { s with procs := { s.procs with proctbl := proctbl } }

/-- `sys_newproc`. -/
def sysNewproc (s : PwdState) (res : Loaded) : PwdState :=
  let s' := s.setTable (newProcess s.procs.proctbl s.currentPid res).1
  match freeSlot s.procs.proctbl with
  | none => s'
  | some pid =>
    if res.status < 0 ∨ res.stat < 0 then s'
    else { s' with
      pwd := Function.update s.pwd pid
        (if !res.memory then none
          else if pid = 0 then some [slash] else s.pwd s.currentPid) }

/-- `sys_exit` up to the switch. -/
def sysExit (s : PwdState) (code : Int) : PwdState :=
  { s with
    procs := s.procs.sysExit s.currentPid code
    pwd := Function.update s.pwd s.currentPid none }

def sysKill (s : PwdState) (pid : Int) : PwdState :=
  match s.procs.killError s.currentPid pid with
  | some _ => s
  | none => { s with
      procs := s.procs.endprocShared pid.toNat
      pwd := Function.update s.pwd pid.toNat none }

/-- `scheduler_switch` after `nextproc`; `execve` is `scheduler_execve`. -/
def schedulerSwitch (s : PwdState) (execve : Bool) (tgtpid : Nat) : PwdState :=
  if tgtpid = s.currentPid ∧ !(s.procs.proctbl s.currentPid).isDead ∧ !execve then s
  else
    { s with
      currentPid := tgtpid
      cwd := chdir s.cwd (s.pwd tgtpid)
      moved := false }

/-- The process is there to make calls. -/
def Live (s : PwdState) : Prop :=
  (s.procs.proctbl s.currentPid).used = true ∧ (s.procs.proctbl s.currentPid).isDead = false

/-- After the first process was made. -/
def Init (s : PwdState) : Prop :=
  s.cwd = [slash] ∧ s.currentPid = 0 ∧ s.pwd 0 = some [slash] ∧ s.moved = false ∧
    ∀ p, (s.procs.proctbl p).used = true → p = 0

end PwdState

inductive PwdOp
  | setpwd (path : Str) (ensured mem : Bool)
  | newproc (res : Loaded)
  | exit (code : Int)
  | kill (pid : Int)
  | switch

/-- Calls of the running process, and switches; the other cores, the clock and `scheduler_execve`
are arbitrary. -/
inductive PwdState.Step : PwdState → PwdOp → PwdState → Prop
  | setpwd {s path ensured mem} : s.Live →
      Step s (.setpwd path ensured mem) (s.sysSetpwd path ensured mem).1
  | newproc {s res} : s.Live → Step s (.newproc res) (s.sysNewproc res)
  | exit {s code} : s.Live → Step s (.exit code) (s.sysExit code)
  | kill {s pid} : s.Live → Step s (.kill pid) (s.sysKill pid)
  | switch {s execve tgtpid} {cores : SmpState} : cores.proctbl = s.procs.proctbl →
      cores.currentPid = s.currentPid → cores.nextproc.1 = some tgtpid →
      Step s .switch ((s.setTable cores.nextproc.2).schedulerSwitch execve tgtpid)

/-- What `vfs_abspath` makes canonical. -/
def fullPath (cwd path : Str) : Str :=
  if path.head? = some slash then path else cwd ++ [slash] ++ path

/-- The running process' own directory is the one of relative paths. -/
def PwdState.OwnDirectory (s : PwdState) : Prop :=
  ∃ d, s.pwd s.currentPid = some d ∧ s.cwd = d ∧ ∀ path, path ≠ [] → path.head? ≠ some slash →
    vfsAbspath s.cwd path 1024 = vfsAbspath s.cwd (d ++ [slash] ++ path) 1024

/-- No path of `sys_setpwd` leaves a `/` at the end. -/
def PwdState.NoTrail (s : PwdState) : PwdOp → Prop
  | .setpwd path _ _ => canon dot (comps slash (fullPath s.cwd path)) = [] ∨
      ¬ EndsInDotdot (fullPath s.cwd path)
  | _ => True

/-! ## Absolute paths -/

section Paths

variable {cwd path : Str} {n : Nat}

theorem vfsCanonicalize_congr {p q : Str} (hp : p ≠ []) (hq : q ≠ [])
    (h : comps slash p = comps slash q) (n : Nat) : vfsCanonicalize p n = vfsCanonicalize q n := by
  unfold vfsCanonicalize
  by_cases hn : n = 0
  · rw [if_pos (Or.inl hn), if_pos (Or.inl hn)]
  · rw [if_neg (by simp [hn, hp]), if_neg (by simp [hn, hq])]
    simp only [canonLoop_eq_foldlM _ _ (Nat.le_refl _), h]

theorem vfsAbspath_eq (hcwd : cwd.head? = some slash) (hpath : path ≠ []) (hn : n ≠ 0) :
    vfsAbspath cwd path n = if (fullPath cwd path).length + 1 > 1024 then .error (.err (-ETOOSMALL))
      else vfsCanonicalize (fullPath cwd path) n := by
  unfold vfsAbspath fullPath
  rw [if_neg (by simp [hn, hpath])]
  split
  · rfl
  have hlen : (cwd ++ [slash] ++ path).length = cwd.length + 1 + path.length := by
    rw [List.length_append, List.length_append, List.length_singleton]
  have hpos : 0 < cwd.length := by
    cases cwd with
    | nil => cases hcwd
    | cons c cs => exact Nat.succ_pos _
  rw [hlen]
  split
  · rfl
  split
  · rfl
  rename_i hlast
  -- a directory that ends in `/`, as the root does
  have hslash : cwd.getLast? = some slash := by
    by_contra hne
    exact hlast ⟨hpos, hne⟩
  obtain ⟨c, rfl⟩ := List.getLast?_eq_some_iff.mp hslash
  apply vfsCanonicalize_congr (by simp) (by simp)
  rw [List.append_assoc, List.append_assoc, List.append_assoc, List.singleton_append,
    List.singleton_append, comps_append_sep, comps_append_sep, comps_sep_cons]

-- a relative path is the one behind the directory
theorem vfsAbspath_relative (hcwd : cwd.head? = some slash) (hpath : path ≠ [])
    (hrel : path.head? ≠ some slash) (hn : n ≠ 0) :
    vfsAbspath cwd path n = vfsAbspath cwd (cwd ++ [slash] ++ path) n := by
  have hhead : (cwd ++ [slash] ++ path).head? = some slash := by
    cases cwd with
    | nil => cases hcwd
    | cons c cs => exact hcwd
  rw [vfsAbspath_eq hcwd hpath hn, vfsAbspath_eq hcwd (by simp) hn]
  unfold fullPath
  rw [if_neg hrel, if_pos hhead]

/-- A directory that `chdir` takes as it is. -/
def Settled (d : Str) : Prop := d.head? = some slash ∧ ∀ cwd, vfsAbspath cwd d 1024 = .ok d

theorem Settled.chdir {d : Str} (h : Settled d) (cwd : Str) : Sched.chdir cwd (some d) = d := by
  unfold Sched.chdir
  dsimp only
  rw [h.2 cwd]

theorem canonical_head (path : Str) : (canonical path).head? = some slash := by
  unfold canonical
  split
  · rfl
  · cases hcs : canon dot (comps slash path) with
    | nil => contradiction
    | cons c cs => rfl

theorem settled_canonical (h : (canonical path).length < 1024) : Settled (canonical path) := by
  refine ⟨canonical_head path, fun cwd => ?_⟩
  unfold vfsAbspath
  rw [if_neg (by simp [canonical_ne_nil]), if_pos (canonical_head path), if_neg (by omega)]
  exact vfsCanonicalize_canonical h

theorem settled_root : Settled [slash] := by
  have hroot : canonical [slash] = [slash] := by decide
  rw [← hroot]
  exact settled_canonical (by decide)

-- the canonical string is no longer than the path
theorem length_canonical_le (h : path.head? = some slash) :
    (canonical path).length ≤ path.length := by
  obtain ⟨rest, rfl⟩ : ∃ rest, path = slash :: rest := by
    cases path with
    | nil => cases h
    | cons c cs => exact ⟨cs, by rw [Option.some.inj h]⟩
  have hcanon := length_join_canon_le slash dot (comps slash rest)
  have hcomps := length_join_comps_le slash rest
  unfold canonical
  rw [comps_sep_cons, List.length_cons]
  split
  · exact Nat.succ_le_succ (Nat.zero_le _)
  · omega

theorem settled_of_vfsAbspath {d : Str} (hcwd : cwd.head? = some slash)
    (h : vfsAbspath cwd path 1025 = .ok d)
    (htrail : canon dot (comps slash (fullPath cwd path)) = [] ∨
      ¬ EndsInDotdot (fullPath cwd path)) : Settled d := by
  have hpath : path ≠ [] := by
    rintro rfl
    cases h
  have hhead : (fullPath cwd path).head? = some slash := by
    unfold fullPath
    split
    · assumption
    · cases cwd with
      | nil => cases hcwd
      | cons c cs => exact hcwd
  have hne : fullPath cwd path ≠ [] := by
    intro hnil
    rw [hnil] at hhead
    cases hhead
  rw [vfsAbspath_eq hcwd hpath (by decide)] at h
  split at h
  · cases h
  rcases vfsCanonicalize_cases hne (by decide : 0 < 1025) with
    ⟨_, hrun⟩ | ⟨_, _, _, hrun⟩ | ⟨_, _, hrun⟩
  · rw [hrun] at h
    cases h
  · rw [hrun] at h
    cases h
  · rw [hrun, Except.ok.injEq, (shape_eq_canonical_iff _).mpr htrail] at h
    rw [← h]
    have hle := length_canonical_le hhead
    exact settled_canonical (by omega)

end Paths

/-! ## The invariant -/

namespace PwdState

variable {s s' : PwdState}

structure Tidy (s : PwdState) : Prop where
  cwd : Settled s.cwd
  dirs : ∀ p, (s.procs.proctbl p).used = true → ∃ d, s.pwd p = some d ∧ Settled d
  own : s.Live → (s.pwd s.currentPid = some s.cwd ↔ s.moved = false)

theorem Init.tidy (h : s.Init) : s.Tidy := by
  obtain ⟨hcwd, hcur, hpwd, hmoved, hused⟩ := h
  refine ⟨?_, fun p hp => ?_, fun _ => ?_⟩
  · rw [hcwd]
    exact settled_root
  · rw [hused p hp]
    exact ⟨_, hpwd, settled_root⟩
  · rw [hcur, hpwd, hcwd, hmoved]
    exact iff_of_true rfl rfl

-- a step that leaves the running process and the directory alone
theorem Tidy.frame (h : s.Tidy) (hlive : s'.Live → s.Live) (hcwd : s'.cwd = s.cwd)
    (hcur : s'.currentPid = s.currentPid) (hmoved : s'.moved = s.moved)
    (hown : s.Live → s'.pwd s.currentPid = s.pwd s.currentPid)
    (hdirs : ∀ p, (s'.procs.proctbl p).used = true → (s.procs.proctbl p).used = true ∧
      s'.pwd p = s.pwd p ∨ ∃ d, s'.pwd p = some d ∧ Settled d) : s'.Tidy := by
  refine ⟨hcwd ▸ h.cwd, fun p hp => ?_, fun hl => ?_⟩
  · rcases hdirs p hp with ⟨hused, heq⟩ | hnew
    · rw [heq]
      exact h.dirs p hused
    · exact hnew
  · rw [hcur, hcwd, hmoved, hown (hlive hl)]
    exact h.own (hlive hl)

theorem Tidy.sysSetpwd (h : s.Tidy) {path : Str} {ensured mem : Bool}
    (hok : s.NoTrail (.setpwd path ensured mem)) : (s.sysSetpwd path ensured mem).1.Tidy := by
  unfold PwdState.sysSetpwd
  split
  · exact h
  split
  · exact h
  rename_i d habs
  split
  · exact h
  have hd := settled_of_vfsAbspath h.cwd.1 habs hok
  refine ⟨h.cwd, fun p hp => ?_, fun _ => ?_⟩
  · by_cases hcur : p = s.currentPid
    · exact ⟨d, by rw [hcur]; exact update_self .., hd⟩
    · dsimp only
      rw [update_of_ne hcur]
      exact h.dirs p hp
  · dsimp only
    rw [update_self, Option.some.injEq, decide_eq_false_iff_not, not_not]

theorem used_of_newProcess {proctbl : ProcTable} {ppid p : Nat} {res : Loaded}
    (h : ((newProcess proctbl ppid res).1 p).used = true) :
    (proctbl p).used = true ∨ freeSlot proctbl = some p ∧ ¬ (res.status < 0 ∨ res.stat < 0) ∧
      res.memory = true := by
  unfold newProcess at h
  split at h
  · exact Or.inl h
  rename_i pid hslot
  by_cases hp : p = pid
  · subst hp
    split_ifs at h with hstatus hstat hmem hzero
    · exact Or.inl h
    · exact Or.inl h
    · exact Or.inl h
    · dsimp only at h
      rw [update_self] at h
      exact Or.inl h
    · exact Or.inr ⟨hslot, not_or.mpr ⟨hstatus, hstat⟩, by simpa using hmem⟩
  · left
    have hother : ∀ q, (update proctbl pid q p).used = (proctbl p).used := by
      intro q
      rw [update_of_ne hp]
    split_ifs at h
    · exact h
    · exact h
    · exact h
    · exact (hother _).symm.trans h
    · exact (hother _).symm.trans h

theorem Tidy.sysNewproc (h : s.Tidy) {res : Loaded} (hlive : s.Live) : (s.sysNewproc res).Tidy := by
  obtain ⟨d, hd, hsettled⟩ := h.dirs _ hlive.1
  unfold PwdState.sysNewproc
  cases hslot : freeSlot s.procs.proctbl with
  | none =>
    refine h.frame (fun _ => hlive) rfl rfl rfl (fun _ => rfl) fun p hp => Or.inl ⟨?_, rfl⟩
    rcases used_of_newProcess hp with hold | ⟨hp, -⟩
    · exact hold
    · rw [hslot] at hp
      cases hp
  | some pid =>
    have hne : ∀ {p}, (s.procs.proctbl p).used = true → p ≠ pid := by
      rintro p hp rfl
      rw [freeSlot_spec hslot] at hp
      cases hp
    dsimp only
    split
    · rename_i hbad
      refine h.frame (fun _ => hlive) rfl rfl rfl (fun _ => rfl) fun p hp => Or.inl ⟨?_, rfl⟩
      exact (used_of_newProcess hp).resolve_right fun hnew => hnew.2.1 hbad
    refine h.frame (fun _ => hlive) rfl rfl rfl
      (fun hl => update_of_ne (hne hl.1) _ _) fun p hp => ?_
    rcases used_of_newProcess hp with hold | ⟨hp, -, hmem⟩
    · exact Or.inl ⟨hold, update_of_ne (hne hold) _ _⟩
    right
    obtain rfl := Option.some.inj (hslot.symm.trans hp)
    dsimp only
    rw [update_self, hmem, if_neg (by decide)]
    split
    · exact ⟨_, rfl, settled_root⟩
    · exact ⟨d, hd, hsettled⟩

-- what is left after `endproc_shared`
theorem used_of_endprocShared {t : ProcState} {pid p : Nat}
    (h : ((t.endprocShared pid).proctbl p).used = true) : (t.proctbl p).used = true ∧ p ≠ pid := by
  rw [ProcState.endprocShared_used, Bool.and_eq_true, decide_eq_true_eq] at h
  exact h

theorem Tidy.sysExit (h : s.Tidy) (code : Int) : (s.sysExit code).Tidy := by
  have hused : ∀ p, ((s.sysExit code).procs.proctbl p).used = true →
      (s.procs.proctbl p).used = true ∧ p ≠ s.currentPid := by
    intro p hp
    obtain ⟨hp, hne⟩ := used_of_endprocShared hp
    unfold ProcState.setCode at hp
    rw [ProcState.setProc_proctbl, update_of_ne hne] at hp
    exact ⟨hp, hne⟩
  refine ⟨h.cwd, fun p hp => ?_, fun hlive => absurd rfl (hused _ hlive.1).2⟩
  obtain ⟨hp, hne⟩ := hused p hp
  change ∃ d, update s.pwd _ _ p = some d ∧ _
  rw [update_of_ne hne]
  exact h.dirs p hp

theorem Tidy.sysKill (h : s.Tidy) (pid : Int) (hlive : s.Live) : (s.sysKill pid).Tidy := by
  unfold PwdState.sysKill
  split
  · exact h
  rename_i hkill
  have hself : s.currentPid ≠ pid.toNat := by
    intro hcur
    unfold ProcState.killError at hkill
    by_cases hzero : pid = 0
    · rw [if_pos hzero] at hkill
      cases hkill
    · have hpid : pid ≤ 0 ∨ pid = s.currentPid := by omega
      rw [if_neg hzero, if_pos (by tauto)] at hkill
      cases hkill
  refine h.frame (fun _ => hlive) rfl rfl rfl (fun _ => update_of_ne hself ..) fun p hp => ?_
  obtain ⟨hp, hne⟩ := used_of_endprocShared hp
  exact Or.inl ⟨hp, update_of_ne hne ..⟩

theorem nextproc_slot (cores : SmpState) (p : Nat) :
    (cores.nextproc.2 p).used = (cores.proctbl p).used ∧
      (cores.nextproc.2 p).isDead = (cores.proctbl p).isDead := by
  unfold SmpState.nextproc
  split
  swap
  · exact ⟨rfl, rfl⟩
  rename_i pid _
  split
  · by_cases hp : p = pid
    · rw [hp]
      dsimp only
      rw [update_self]
      exact ⟨rfl, rfl⟩
    · dsimp only
      rw [update_of_ne hp]
      exact ⟨rfl, rfl⟩
  · exact ⟨rfl, rfl⟩

theorem Tidy.switch (h : s.Tidy) {cores : SmpState} {tgtpid : Nat} (execve : Bool)
    (htbl : cores.proctbl = s.procs.proctbl) (htgt : cores.nextproc.1 = some tgtpid) :
    ((s.setTable cores.nextproc.2).schedulerSwitch execve tgtpid).Tidy := by
  have hslot := nextproc_slot cores
  rw [htbl] at hslot
  have hwoken : (s.setTable cores.nextproc.2).Tidy := by
    refine h.frame (fun hl => ?_) rfl rfl rfl (fun _ => rfl) fun p hp => Or.inl ⟨?_, rfl⟩
    · exact ⟨(hslot _).1.symm.trans hl.1, (hslot _).2.symm.trans hl.2⟩
    · exact (hslot p).1.symm.trans hp
  have hused : ((s.setTable cores.nextproc.2).procs.proctbl tgtpid).used = true := by
    have hrun := (SmpState.nextproc_spec htgt).1
    unfold SmpState.bspRunnable at hrun
    simp only [Bool.and_eq_true] at hrun
    rw [← hrun.1.1.1, htbl]
    exact (hslot tgtpid).1
  unfold schedulerSwitch
  split
  · exact hwoken
  obtain ⟨d, hd, hsettled⟩ := hwoken.dirs tgtpid hused
  refine ⟨?_, hwoken.dirs, fun _ => ?_⟩
  · rw [hd, hsettled.chdir]
    exact hsettled
  · rw [hd, hsettled.chdir]
    exact iff_of_true rfl rfl

theorem Tidy.step {op : PwdOp} (h : s.Tidy) (hok : s.NoTrail op) (hstep : Step s op s') :
    s'.Tidy := by
  cases hstep with
  | setpwd hlive => exact h.sysSetpwd hok
  | newproc hlive => exact h.sysNewproc hlive
  | exit hlive => exact h.sysExit _
  | kill hlive => exact h.sysKill _ hlive
  | switch htbl hcur htgt => exact h.switch _ htbl htgt

end PwdState

/-- In runs whose `sys_setpwd` calls leave no `/` behind, relative paths are those of the running
process exactly while it did not set another directory since it was switched to. -/
theorem own_directory_iff {s : PwdState} (h : Reach Init Step NoTrail s) (hlive : s.Live) :
    s.OwnDirectory ↔ s.moved = false := by
  have htidy : s.Tidy := h.invariant (fun _ => Init.tidy)
    (fun _ _ _ ht hok hstep => ht.step hok hstep)
  rw [← htidy.own hlive]
  constructor
  · rintro ⟨d, hd, hcwd, -⟩
    rw [hd, hcwd]
  · intro hown
    exact ⟨s.cwd, hown, rfl, fun path hne hrel =>
      vfsAbspath_relative htidy.cwd.1 hne hrel (by decide)⟩

def bootPwd : PwdState :=
  { procs := { bootHistory.os with proctbl := (newProcess bootHistory.os.proctbl 0 loadOk).1 }
    pwd := fun p => if p = 0 then some [slash] else none
    cwd := [slash]
    currentPid := 0
    moved := false }

theorem bootPwd_init : bootPwd.Init := by
  refine ⟨rfl, rfl, rfl, rfl, fun p hp => ?_⟩
  change ((newProcess bootHistory.os.proctbl 0 loadOk).1 p).used = true at hp
  have hfirst : freeSlot bootHistory.os.proctbl = some 0 := by decide
  rcases used_of_newProcess hp with hold | ⟨hslot, -⟩
  · cases hold
  · exact Option.some.inj (hslot.symm.trans hfirst)

/-- Process 0 has called `sys_setpwd("/a")`. -/
def inA : PwdState := (bootPwd.sysSetpwd [47, 97] true true).1

theorem reach_inA {ok : PwdState → PwdOp → Prop} (hok : ok bootPwd (.setpwd [47, 97] true true)) :
    Reach Init Step ok inA :=
  .next (.start bootPwd_init) (.setpwd ⟨by decide, by decide⟩) hok

def oneCore (s : PwdState) : SmpState :=
  { proctbl := s.procs.proctbl
    ncores := 0
    smpInfo := fun _ => ⟨0, noPid⟩
    bspApicid := 0
    currentPid := s.currentPid
    schedulerExecve := false
    ms := none
    bspPick := none
    apPick := fun _ => none }

/-- Its child runs. -/
def childInA : PwdState :=
  ((inA.sysNewproc loadOk).setTable (oneCore (inA.sysNewproc loadOk)).nextproc.2).schedulerSwitch
    false 1

-- the child starts in `/a`
theorem child_own_directory : childInA.OwnDirectory ∧ childInA.cwd = [47, 97] := by
  have hreach : Reach Init Step NoTrail childInA := by
    refine .next (.next (reach_inA (Or.inr ?_)) (.newproc ⟨?_, ?_⟩) trivial)
      (.switch rfl rfl ?_) trivial
    · unfold EndsInDotdot
      decide
    all_goals decide
  exact ⟨(own_directory_iff hreach ⟨by decide, by decide⟩).mpr rfl,
    by decide⟩

/-- After `sys_setpwd("/a")` the paths of the process still start at `/`. -/
theorem setpwd_leaves_cwd :
    Reach Init Step (fun _ _ => True) inA ∧ inA.Live ∧ ¬ inA.OwnDirectory := by
  refine ⟨reach_inA trivial, ⟨by decide, by decide⟩, ?_⟩
  rintro ⟨d, hd, hcwd, -⟩
  rw [← hcwd] at hd
  revert hd
  decide

end Sched
