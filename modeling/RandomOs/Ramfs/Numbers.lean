import Mathlib.Order.Interval.Set.Basic
import RandomOs.Lib.Runs
import RandomOs.Ramfs.Inode

/-!
# Inode numbers of the memory file system

The numbers in use are those of the inodes that were made and not removed since, as long as the
memory by which the inode table grows does not look like inodes in use.
-/

namespace Ramfs

open Lib Op Function Info

/-! ## Runs -/

inductive Creation
  | mkino (mode uid gid : Nat)
  | mknod (mode uid gid rdev : Nat)
  | symlink (mode uid gid : Nat) (target : CString)

def Creation.op : Creation → Op Info Nat
  | .mkino mode uid gid => ramfsMkino mode uid gid
  | .mknod mode uid gid rdev => ramfsMknod mode uid gid rdev
  | .symlink mode uid gid target => ramfsSymlink mode uid gid target

inductive InoCall
  | create (c : Creation)
  | rmino (ino : Nat)

/-- A mount, with the numbers that were handed out and not removed since. -/
structure InoRun where
  fs : Info
  live : Set Nat

/-- What `ramfs_mount` leaves: the root has number 1. -/
def InoStart (s : InoRun) : Prop :=
  s.fs.ninodes = 1024 ∧ s.fs.freehint = 0 ∧
    (∀ i < 1024, (s.fs.inodtbl i).used = decide (i = 0)) ∧ s.live = {1}

def InoStep (s : InoRun) : InoCall → InoRun → Prop
  | .create c, t => Post c.op s.fs (fun ino fs => t = ⟨fs, insert ino s.live⟩)
      (fun _ fs => t = ⟨fs, s.live⟩)
  | .rmino ino, t => Post (ramfsRmino ino) s.fs (fun _ fs => t = ⟨fs, s.live \ {ino}⟩)
      (fun _ fs => t = ⟨fs, s.live⟩)

/-- Whether the inode table may grow by the next allocation. -/
def Info.mayGrow (fs : Info) : Bool :=
  fs.heap.grants fs.heap.count (56 * ((fs.ninodes + 64) % 2 ^ 32))

def Info.newInode (fs : Info) (i : Nat) : Inode := (fs.heap.junk fs.heap.count).inodes i

def Info.Full (fs : Info) : Prop := ∀ i < fs.ninodes, (fs.inodtbl i).used = true

/-- Where the table is full it may grow, and its new part is clear of inodes in use. -/
def Info.GrowsClear (fs : Info) : Prop :=
  fs.Full → fs.mayGrow = true ∧ 56 * (fs.ninodes + 64) + 48 < 2 ^ 32 ∧
    ∀ i < 64, (fs.newInode (fs.ninodes + i)).used = false

/-- A block holds the target. -/
def Creation.Short : Creation → Prop
  | .symlink _ _ _ target => target.1.length + 49 < 2 ^ 32
  | _ => True

def InoSafe (s : InoRun) : InoCall → Prop
  | .create c => s.fs.GrowsClear ∧ c.Short
  | .rmino _ => True

/-- Lookups find the live inodes, and a creation takes a number that is free and changes none. -/
def InoSound (s : InoRun) : Prop :=
  (∀ ino, (∃ inod, (getinod ino).run s.fs = .ok inod s.fs) ↔ ino ∈ s.live) ∧
  ∀ c : Creation, InoSafe s (.create c) → Post c.op s.fs
    (fun ino fs => ino ∉ s.live ∧ ∀ m ∈ s.live, fs.inode m = s.fs.inode m)
    (fun e fs => e ≠ .fault ∧ ∀ m ∈ s.live, fs.inode m = s.fs.inode m)

/-! ## The search for a free inode -/

variable {fs fs' : Info}

variable {n i ino k : Nat} {inod : Inode} {s : InoRun}

theorem findUnused_some {j : Nat} (h : fs.findUnused n i = some j) :
    j < i + n ∧ (fs.inodtbl j).used = false := by
  induction n generalizing i with
  | zero => cases h
  | succ n ih =>
    rw [findUnused] at h
    split at h
    next => exact ⟨by have := (ih h).1; omega, (ih h).2⟩
    next hused =>
      cases h
      exact ⟨by omega, by simpa using hused⟩

theorem findUnused_none :
    fs.findUnused n i = none ↔ ∀ j, i ≤ j → j < i + n → (fs.inodtbl j).used = true := by
  induction n generalizing i with
  | zero => exact iff_of_true rfl fun j hi hj => by omega
  | succ n ih =>
    rw [findUnused]
    split
    next hused =>
      refine ih.trans ⟨fun h j hi hj => ?_, fun h j hi hj => h j (by omega) (by omega)⟩
      obtain rfl | hne := eq_or_ne i j
      · exact hused
      exact h j (by omega) (by omega)
    next hused => exact iff_of_false nofun fun h => hused (h i le_rfl (by omega))

def Info.hinted (fs : Info) : Info :=
  { fs with freehint := if fs.ninodes ≤ fs.freehint then 0 else fs.freehint }

/-- The two scans of `findfreeino`. -/
def Info.scan (fs : Info) : Option Nat :=
  (fs.hinted.findUnused (fs.ninodes - fs.hinted.freehint) fs.hinted.freehint).or
    (fs.hinted.findUnused fs.hinted.freehint 0)

theorem hinted_le (fs : Info) : fs.hinted.freehint ≤ fs.ninodes := by
  unfold hinted
  dsimp only
  split <;> omega

theorem scan_some (h : fs.scan = some i) : i < fs.ninodes ∧ (fs.inodtbl i).used = false := by
  have hhint := hinted_le fs
  obtain hsome | ⟨-, hsome⟩ := Option.or_eq_some_iff.1 h
  all_goals
    obtain ⟨hlt, hused⟩ := findUnused_some hsome
    exact ⟨by omega, hused⟩

theorem scan_none : fs.scan = none ↔ fs.Full := by
  have hhint := hinted_le fs
  rw [scan, Option.or_eq_none_iff, findUnused_none, findUnused_none]
  refine ⟨fun h i hi => ?_, fun h => ⟨fun j _ hj => h j (by omega), fun j _ hj => h j (by omega)⟩⟩
  by_cases hlt : i < fs.hinted.freehint
  · exact h.2 i (by omega) (by omega)
  · exact h.1 i (by omega) (by omega)

theorem run_findfreeino_some (h : fs.scan = some i) :
    findfreeino.run fs = .ok (i + 1) { fs with freehint := i + 1 } := by
  unfold Info.scan hinted at h
  rw [findfreeino, run_modify_bind, run_get_bind, h]
  rfl

/-- The table with its new part. -/
def Info.grown (fs : Info) : Info where
  inodtbl i := if i < fs.ninodes then fs.inodtbl i else fs.newInode i
  ninodes := (fs.ninodes + 64) % 2 ^ 32
  freehint := (fs.ninodes + 1) % 2 ^ 32
  heap := fs.tick.heap

theorem run_findfreeino_none (h : fs.scan = none) (hgrant : fs.mayGrow = true)
    (hlt : 56 * (fs.ninodes + 64) + 48 < 2 ^ 32) :
    findfreeino.run fs = .ok (fs.ninodes + 1) fs.grown := by
  have hrun := run_realloc false (56 * ((fs.ninodes + 64) % 2 ^ 32)) fs.hinted
  rw [if_pos (Or.inr ⟨by omega, hgrant⟩), run_malloc] at hrun
  unfold Info.scan hinted at h
  rw [findfreeino, run_modify_bind, run_get_bind, h]
  refine (run_bind_of_ok (hrun.trans ((if_pos hgrant).trans (if_pos (by omega)))) _).trans ?_
  have hmod : (fs.ninodes + 1) % 2 ^ 32 = fs.ninodes + 1 := Nat.mod_eq_of_lt (by omega)
  exact congrArg (EStateM.Result.ok · fs.grown) hmod

/-- The same inodes are in use, with the same contents. -/
structure Info.Same (fs fs' : Info) : Prop where
  has : ∀ m, fs'.Has m ↔ fs.Has m
  inode : ∀ m, fs.Has m → fs'.inode m = fs.inode m

theorem same_grown (h : 56 * (fs.ninodes + 64) + 48 < 2 ^ 32)
    (hclear : ∀ i < 64, (fs.newInode (fs.ninodes + i)).used = false) : fs.Same fs.grown := by
  have hin {m : Nat} (hm : m ≠ 0) (hle : m ≤ fs.ninodes) : m - 1 < fs.ninodes := by omega
  refine ⟨fun m => ?_, fun m hm => if_pos (hin hm.1 hm.2.1)⟩
  unfold Has inode grown
  by_cases hm : m - 1 < fs.ninodes
  · simp only [if_pos hm]
    exact and_congr_right fun _ => and_congr_left fun _ => by omega
  simp only [if_neg hm]
  refine iff_of_false ?_ fun hhas => hm (hin hhas.1 hhas.2.1)
  rintro ⟨hne, hle, hused⟩
  have hjunk := hclear (m - 1 - fs.ninodes) (by omega)
  rw [Nat.add_sub_cancel' (by omega), hused] at hjunk
  cases hjunk

theorem findfreeino_post (h : fs.GrowsClear) :
    Post findfreeino fs
      (fun ino fs' => fs.Same fs' ∧ ino ≠ 0 ∧ ino ≤ fs'.ninodes ∧ ¬ fs'.Has ino)
      (fun _ _ => False) := by
  have hrefl : fs.Same fs := ⟨fun _ => Iff.rfl, fun _ _ => rfl⟩
  cases hscan : fs.scan with
  | some i =>
    obtain ⟨hi, hunused⟩ := scan_some hscan
    refine Post.of_ok (run_findfreeino_some hscan) ⟨⟨hrefl.1, hrefl.2⟩, by omega, hi, ?_⟩
    exact fun hhas => Bool.false_ne_true (hunused.symm.trans hhas.2.2)
  | none =>
    obtain ⟨hgrant, hlt, hclear⟩ := h (scan_none.1 hscan)
    have hsame := same_grown hlt hclear
    refine Post.of_ok (run_findfreeino_none hscan hgrant hlt) ⟨hsame, by omega, ?_, fun hhas => ?_⟩
    · show fs.ninodes + 1 ≤ (fs.ninodes + 64) % 2 ^ 32
      omega
    · have hle := ((hsame.has _).1 hhas).2.1
      omega

theorem malloc_same (hn : n + 48 < 2 ^ 32) (fs : Info) :
    Post (malloc n) fs (fun _ fs' => fs' = fs.tick)
      (fun e fs' => e ≠ .fault ∧ fs' = fs.tick) := by
  unfold Post
  rw [run_malloc, if_pos hn]
  split_ifs
  · rfl
  · exact ⟨nofun, rfl⟩

theorem Info.Same.tick (h : fs.Same fs') : fs.Same fs'.tick := ⟨h.has, h.inode⟩

/-! ## Creation and removal -/

/-- From `fs` to `fs'`, number `ino` was handed out. -/
structure Info.Created (fs fs' : Info) (ino : Nat) : Prop where
  fresh : ¬ fs.Has ino
  has : ∀ m, fs'.Has m ↔ m = ino ∨ fs.Has m
  inode : ∀ m, fs.Has m → fs'.inode m = fs.inode m

theorem inode_putInode {m : Nat} (hino : ino ≠ 0) (hm : m ≠ 0) (inod : Inode) :
    (fs.putInode ino inod).inode m = if m = ino then inod else fs.inode m := by
  show update fs.inodtbl (ino - 1) inod (m - 1) = _
  rw [update_apply]
  exact if_congr (by omega) rfl rfl

theorem created_putInode (hsame : fs.Same fs') (hne : ino ≠ 0)
    (hle : ino ≤ fs'.ninodes) (hfree : ¬ fs'.Has ino) (hused : inod.used = true) :
    fs.Created (fs'.putInode ino inod) ino := by
  have hother {m : Nat} (hm : fs.Has m) : m ≠ ino := by
    rintro rfl
    exact hfree ((hsame.has m).2 hm)
  refine ⟨fun h => hother h rfl, fun m => ?_, fun m hm => ?_⟩
  · rw [← hsame.has]
    by_cases hm : m = ino
    · subst hm
      refine iff_of_true ⟨hne, hle, ?_⟩ (.inl rfl)
      rw [inode_putInode hne hne, if_pos rfl]
      exact hused
    · rw [or_iff_right hm]
      refine and_congr_right fun hm0 => and_congr_right fun _ => ?_
      rw [inode_putInode hne hm0, if_neg hm]
  · rw [inode_putInode hne hm.1, if_neg (hother hm)]
    exact hsame.inode m hm

theorem baseMkino_post (hsame : fs.Same fs') (hne : ino ≠ 0) (hle : ino ≤ fs'.ninodes)
    (hfree : ¬ fs'.Has ino) (hused : inod.used = true) (alloc : Bool) :
    Post (baseMkino ino inod alloc) fs' (fun n t => n = ino ∧ fs.Created t ino)
      (fun e t => e ≠ .fault ∧ fs.Same t) := by
  cases alloc with
  | true =>
    refine Post.bind (malloc_same (by decide) _) ?_ ?_
    · rintro junk _ rfl
      exact Post.modify_bind ⟨rfl, created_putInode hsame.tick hne hle hfree hused⟩
    · rintro _ _ ⟨hne, rfl⟩
      exact ⟨hne, hsame.tick⟩
  | false => exact Post.modify_bind ⟨rfl, created_putInode hsame hne hle hfree hused⟩

theorem creation_post (h : fs.GrowsClear) {c : Creation} (hshort : c.Short) :
    Post c.op fs (fun ino t => fs.Created t ino) (fun e t => e ≠ .fault ∧ fs.Same t) := by
  have hmono {ino : Nat} {x : Op Info Nat} {t : Info}
      (hx : Post x t (fun n t => n = ino ∧ fs.Created t ino) fun e t => e ≠ .fault ∧ fs.Same t) :
      Post x t (fun n t => fs.Created t n) fun e t => e ≠ .fault ∧ fs.Same t :=
    hx.mono (fun _ _ ⟨heq, hc⟩ => heq ▸ hc) fun _ _ => id
  cases c with
  | mkino mode uid gid =>
    refine Post.bind (findfreeino_post h) ?_ fun _ _ => False.elim
    exact fun ino t ⟨hsame, hne, hle, hfree⟩ => hmono (baseMkino_post hsame hne hle hfree rfl true)
  | mknod mode uid gid rdev =>
    refine Post.bind (findfreeino_post h) ?_ fun _ _ => False.elim
    exact fun ino t ⟨hsame, hne, hle, hfree⟩ => hmono (baseMkino_post hsame hne hle hfree rfl false)
  | symlink mode uid gid target =>
    refine Post.bind (findfreeino_post h) ?_ fun _ _ => False.elim
    rintro ino t ⟨hsame, hne, hle, hfree⟩
    refine Post.bind (malloc_same hshort _) ?_ ?_
    · rintro _ _ rfl
      exact hmono (baseMkino_post hsame.tick hne hle hfree rfl false)
    · rintro _ _ ⟨hne, rfl⟩
      exact ⟨hne, hsame.tick⟩

theorem getinod_post (ino : Nat) (fs : Info) :
    Post (getinod ino) fs (fun _ t => fs.Has ino ∧ t = fs) (fun _ t => t = fs) := by
  refine Post.get_bind ?_
  split
  · exact Post.fail rfl
  split
  next hused => exact Post.pure ⟨⟨by omega, by omega, hused⟩, rfl⟩
  next => exact Post.fail rfl

theorem getinod_ok_iff : (∃ inod, (getinod ino).run fs = .ok inod fs) ↔ fs.Has ino :=
  ⟨fun ⟨_, hrun⟩ => ((getinod_post ino fs).ok hrun).1, fun h => ⟨_, run_getinod h⟩⟩

theorem rmino_post (ino : Nat) (fs : Info) :
    Post (ramfsRmino ino) fs (fun _ t => ∀ m, t.Has m ↔ fs.Has m ∧ m ≠ ino)
      (fun _ t => t = fs) := by
  by_cases hhas : fs.Has ino
  swap
  · exact Post.bind (getinod_post ino fs) (fun _ _ h => absurd h.1 hhas) fun _ _ => id
  refine Post.bind_ok (run_getinod hhas) fun m => ?_
  by_cases hm : m = ino
  · refine iff_of_false (fun h => ?_) fun h => h.2 hm
    have hused := h.2.2
    change ((fs.putInode ino _).inode m).used = true at hused
    rw [inode_putInode hhas.1 h.1, if_pos hm] at hused
    cases hused
  · rw [and_iff_left hm]
    refine and_congr_right fun hm0 => and_congr_right fun _ => ?_
    change ((fs.putInode ino _).inode m).used = true ↔ _
    rw [inode_putInode hhas.1 hm0, if_neg hm]

/-! ## Every run -/

def InoRun.Exact (s : InoRun) : Prop := ∀ ino, s.fs.Has ino ↔ ino ∈ s.live

theorem inoStart_exact (h : InoStart s) : s.Exact := by
  obtain ⟨hn, -, hused, hlive⟩ := h
  intro ino
  rw [hlive, Set.mem_singleton_iff]
  unfold Has inode
  rw [hn]
  constructor
  · rintro ⟨hne, hle, hino⟩
    rw [hused _ (by omega), decide_eq_true_iff] at hino
    omega
  · rintro rfl
    exact ⟨by decide, by decide, hused 0 (by decide)⟩

theorem inoStep_exact {t : InoRun} {a : InoCall} (hinv : s.Exact) (hsafe : InoSafe s a)
    (hstep : InoStep s a t) : t.Exact := by
  cases a with
  | create c =>
    have hpost := Post.and hstep (creation_post hsafe.1 hsafe.2)
    refine Post.after (P := fun _ => t.Exact) (hpost.mono ?_ ?_)
    · rintro ino fs ⟨rfl, hnew⟩ m
      rw [Set.mem_insert_iff, ← hinv m]
      exact hnew.has m
    · rintro _ fs ⟨rfl, -, hsame⟩ m
      exact (hsame.has m).trans (hinv m)
  | rmino ino =>
    have hpost := Post.and hstep (rmino_post ino s.fs)
    refine Post.after (P := fun _ => t.Exact) (hpost.mono ?_ ?_)
    · rintro _ fs ⟨rfl, hrm⟩ m
      rw [Set.mem_sdiff, ← hinv m]
      exact hrm m
    · rintro _ _ ⟨rfl, rfl⟩
      exact hinv

theorem ino_numbers_sound {s : InoRun} (hs : Reach InoStart InoStep InoSafe s) : InoSound s := by
  have hnext : ∀ s a t, s.Exact → InoSafe s a → InoStep s a t → t.Exact :=
    fun _ _ _ hinv hok hst => inoStep_exact hinv hok hst
  have hinv := Reach.invariant (fun _ => inoStart_exact) hnext hs
  refine ⟨fun ino => getinod_ok_iff.trans (hinv ino), fun c hc => ?_⟩
  refine (creation_post hc.1 hc.2).mono (fun ino t h => ?_) fun _ t h => ?_
  · exact ⟨fun hmem => h.fresh ((hinv ino).2 hmem), fun m hm => h.inode m ((hinv m).2 hm)⟩
  · exact ⟨h.1, fun m hm => h.2.inode m ((hinv m).2 hm)⟩

/-! ### A table that is full -/

-- every allocation looks like inodes in use
def strayInodes : Heap where
  count := 0
  grants _ n := decide (n < 2 ^ 20)
  junk _ := ⟨Bytes.zero, fun _ => ⟨false, 0, 0, none⟩,
    fun _ => ⟨true, S_IFREG, 0, 0, 0, 0, 0, .raw Bytes.zero⟩⟩

def device : Inode := ⟨true, S_IFCHR, 0, 0, 0, 0, 0, .raw Bytes.zero⟩

/-- A new mount after `k` devices were made. -/
def devices (k : Nat) : Info where
  inodtbl i := if i = 0 then ⟨true, S_IFDIR, 0, 0, 0, 0, 1024, .dir fun _ => ⟨false, 0, 0, none⟩⟩
    else if i ≤ k then device else ⟨false, 0, 0, 0, 0, 0, 0, .raw Bytes.zero⟩
  ninodes := 1024
  freehint := if k = 0 then 0 else k + 1
  heap := strayInodes

theorem devices_used (k i : Nat) : ((devices k).inodtbl i).used = decide (i ≤ k) := by
  unfold devices device
  dsimp only
  split
  next hi => simp [hi]
  split <;> simp [*]

theorem devices_succ (k : Nat) :
    (devices (k + 1)).inodtbl = update (devices k).inodtbl (k + 1) device := by
  funext i
  rw [update_apply]
  unfold devices
  dsimp only
  split_ifs <;> first | rfl | omega

theorem run_mknod_devices (hk : k < 1023) :
    (ramfsMknod S_IFCHR 0 0 0).run (devices k) = .ok (k + 2) (devices (k + 1)) := by
  have hscan : (devices k).scan = some (k + 1) := by
    obtain rfl | hk0 := Nat.eq_zero_or_pos k
    · rfl
    have hfree : (devices k).freehint = k + 1 := if_neg (by omega)
    have hhint : (devices k).hinted.freehint = k + 1 := by
      unfold hinted
      rw [hfree]
      exact if_neg (by show ¬ 1024 ≤ k + 1; omega)
    have hn : (devices k).ninodes - (k + 1) = (1022 - k) + 1 := by
      show 1024 - (k + 1) = _
      omega
    rw [scan, hhint, hn, findUnused]
    have hused := devices_used k (k + 1)
    simp [hinted, hused]
  refine (run_bind_of_ok (run_findfreeino_some hscan) _).trans ?_
  change EStateM.Result.ok (k + 2) (⟨update (devices k).inodtbl (k + 1) device, 1024, k + 2,
    strayInodes⟩ : Info) = _
  rw [← devices_succ]
  rfl

theorem devices_reach (hk : k ≤ 1023) :
    Reach InoStart InoStep InoSafe ⟨devices k, Set.Icc 1 (k + 1)⟩ := by
  induction k with
  | zero => exact .start ⟨rfl, rfl, fun i _ => by simp [devices_used], by simp⟩
  | succ k ih =>
    refine .next (a := .create (.mknod S_IFCHR 0 0 0)) (ih (by omega)) ?_ ?_
    · refine Post.of_ok (run_mknod_devices (by omega)) ?_
      congr 1
      ext m
      simp only [Set.mem_Icc, Set.mem_insert_iff]
      omega
    · refine ⟨fun hfull => ?_, trivial⟩
      have hused := hfull (k + 1) (show k + 1 < 1024 by omega)
      rw [devices_used, decide_eq_true_iff] at hused
      omega

theorem ino_numbers_sound_full : InoSound ⟨devices 1023, Set.Icc 1 1024⟩ :=
  ino_numbers_sound (devices_reach le_rfl)

/-- Where the table grows by memory that looks like an inode in use, that inode is found. -/
theorem grown_stray {live : Set Nat} (hs : Reach InoStart InoStep InoSafe ⟨fs, live⟩)
    (hfull : fs.Full) (hgrant : fs.mayGrow = true)
    (hlt : 56 * (fs.ninodes + 64) + 48 < 2 ^ 32)
    (hjunk : (fs.newInode (fs.ninodes + 1)).used = true) (hlive : fs.ninodes + 2 ∉ live) :
    ∃ s, Reach InoStart InoStep (fun _ _ => True) s ∧ ¬ InoSound s := by
  have hrun := run_findfreeino_none (scan_none.2 hfull) hgrant hlt
  have hstep : InoStep ⟨fs, live⟩ (.create (.mknod S_IFCHR 0 0 0))
      ⟨fs.grown.putInode (fs.ninodes + 1) device, insert (fs.ninodes + 1) live⟩ :=
    Post.of_ok (run_bind_of_ok hrun _) rfl
  refine ⟨_, (hs.mono fun _ _ _ => trivial).next hstep trivial, fun h => ?_⟩
  have hhas : (fs.grown.putInode (fs.ninodes + 1) device).Has (fs.ninodes + 2) := by
    refine ⟨by omega, ?_, ?_⟩
    · show fs.ninodes + 2 ≤ (fs.ninodes + 64) % 2 ^ 32
      omega
    · rw [inode_putInode (by omega) (by omega), if_neg (by omega)]
      exact (congrArg Inode.used (if_neg (by omega))).trans hjunk
  obtain hnew | hold := (h.1 _).1 (getinod_ok_iff.2 hhas)
  · omega
  · exact hlive hold

/-- With 1023 devices the table is full; the next one makes it grow, and inode 1026 is there. -/
theorem stray_inode_found : ∃ s, Reach InoStart InoStep (fun _ _ => True) s ∧ ¬ InoSound s := by
  have hfull : (devices 1023).Full := by
    intro i hi
    rw [devices_used, decide_eq_true_iff]
    exact Nat.le_of_lt_succ hi
  exact grown_stray (devices_reach le_rfl) hfull (by decide) (by decide) rfl (by simp [devices])

end Ramfs
