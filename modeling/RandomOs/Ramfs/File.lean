import RandomOs.Lib.Runs
import RandomOs.Ramfs.Inode

/-!
# Files of the memory file system (`ramfs.c`)

`ramfs_write` copies the bytes and raises the size.  A write that starts behind the end does not
clear what lies between: those bytes are whatever the allocator handed out.
-/

namespace Ramfs

open Lib Kern

/-! ## Calls -/

section Calls

variable {fs : Info} {ino : Nat} {bytes : Bytes} {off nb : Nat}

/-- Byte `i` of a file as a write finds it that makes the memory reach beyond `i`. -/
def Info.found (fs : Info) (ino i : Nat) : UInt8 :=
  match (fs.inode ino).data with
  | .raw bytes =>
    if i < (fs.inode ino).allocd then bytes i else (fs.heap.junk fs.heap.count).bytes i
  | .dir _ => 0

/-- The file `d` holds `bytes` up to its size. -/
structure FileData (d : Inode) (bytes : Bytes) : Prop where
  data : d.data = .raw bytes
  size_le : d.size ≤ d.allocd
  allocd_lt : d.allocd < 2 ^ 63

theorem run_read (hhas : fs.Has ino) (hf : FileData (fs.inode ino) bytes)
    (hoff : off ≤ (fs.inode ino).size) (hnb : off + nb < 2 ^ 64) : (ramfsRead ino off nb).run fs =
      .ok ((List.range (min nb ((fs.inode ino).size - off))).map fun i => bytes (off + i)) fs := by
  have hle := hf.size_le
  unfold ramfsRead
  rw [Op.run_bind_of_ok (run_getinod hhas), if_neg (by omega)]
  have hclip : (if (fs.inode ino).size < (off + nb) % 2 ^ 64 then (fs.inode ino).size - off
      else nb) = min nb ((fs.inode ino).size - off) := by
    split <;> omega
  rw [hclip]
  unfold Inode.load
  rw [hf.data]
  dsimp only
  rw [if_pos (by omega)]
  rfl

-- a sum that wraps is not clipped to the size
theorem run_read_wraps (hhas : fs.Has ino) (hf : FileData (fs.inode ino) bytes)
    (hoff : off ≤ (fs.inode ino).size) (hnb : nb < 2 ^ 64) (hwrap : 2 ^ 64 ≤ off + nb) :
    (ramfsRead ino off nb).run fs = .error .fault fs := by
  have hlt := hf.allocd_lt
  unfold ramfsRead
  rw [Op.run_bind_of_ok (run_getinod hhas), if_neg (by omega)]
  rw [if_neg (by omega)]
  unfold Inode.load
  rw [hf.data]
  dsimp only
  rw [if_neg (by omega)]
  rfl

/-- What a write of `nb` bytes at `off` leaves. -/
structure Wrote (fs : Info) (ino off nb : Nat) (buf : Bytes) (d' : Inode) : Prop where
  used : d'.used = (fs.inode ino).used
  mode : d'.mode = (fs.inode ino).mode
  size : d'.size = max (fs.inode ino).size (off + nb)
  file : ∃ bytes', FileData d' bytes' ∧ ∀ i < d'.size,
    bytes' i = if off ≤ i ∧ i < off + nb then buf (i - off) else fs.found ino i

/-- The inode with room for `nb` bytes at `off`. -/
structure Ready (fs : Info) (ino off nb : Nat) (d : Inode) : Prop where
  used : d.used = (fs.inode ino).used
  mode : d.mode = (fs.inode ino).mode
  size : d.size = (fs.inode ino).size
  size_le : d.size ≤ d.allocd
  room : off + nb ≤ d.allocd
  allocd_lt : d.allocd < 2 ^ 63
  file : ∃ bytes, d.data = .raw bytes ∧ ∀ i < d.allocd, bytes i = fs.found ino i

-- below 2 ^ 63 the doubling does not wrap
theorem newcap_ge {need : Nat} (hneed : need ≤ 2 ^ 63) {fuel cap : Nat}
    (hfuel : need ≤ cap * 2 ^ fuel) : ∃ c, newcap need (fuel + 1) cap = some c ∧ need ≤ c := by
  induction fuel generalizing cap with
  | zero =>
    rw [Nat.pow_zero, Nat.mul_one] at hfuel
    exact ⟨cap, if_neg (by omega), hfuel⟩
  | succ fuel ih =>
    unfold newcap
    split
    · rw [Nat.mod_eq_of_lt (by omega)]
      apply ih
      rwa [Nat.mul_assoc, ← Nat.pow_succ']
    · exact ⟨cap, rfl, by omega⟩

theorem growFile_post (hf : FileData (fs.inode ino) bytes) (hend : off + nb < 2 ^ 63)
    (hgrow : (fs.inode ino).allocd < off + nb) :
    Op.Post (growFile (fs.inode ino) (off + nb)) fs
      (fun d fs' => fs' = fs.tick ∧ Ready fs ino off nb d) (fun _ _ => True) := by
  have hle := hf.size_le
  obtain ⟨cap, hcap, hneed⟩ : ∃ c, newcap (off + nb) 65
      (if (fs.inode ino).allocd = 0 then 1024 else (fs.inode ino).allocd) = some c ∧
      off + nb ≤ c := by
    apply newcap_ge (by omega)
    split <;> omega
  unfold growFile
  rw [hcap]
  refine Op.Post.bind (realloc_post _ cap fs) ?_ fun _ _ h => h
  rintro junk fs' ⟨hfs', hjunk, hsmall⟩
  refine Op.Post.pure ⟨hfs', rfl, rfl, rfl, ?_, hneed, by dsimp only; omega, ?_⟩
  · dsimp only
    omega
  · rw [hf.data]
    refine ⟨_, rfl, fun i _ => ?_⟩
    unfold Info.found
    rw [hf.data, hjunk]

-- the end of `ramfs_write`
theorem storeEnd_post {fs₁ : Info} {d : Inode}
    (hstate : fs₁.inodtbl = fs.inodtbl ∧ fs₁.ninodes = fs.ninodes ∧ fs₁.freehint = fs.freehint)
    (hd : Ready fs ino off nb d) (buf : Bytes) :
    Op.Post (do
      let inod ← Op.ofExcept (d.store off nb buf)
      modify (Info.putInode · ino { inod with
        size := if inod.size < off + nb then off + nb else inod.size })
      pure nb) fs₁
      (fun n fs' => n = nb ∧ ∃ d', fs.Stored fs' ino d' ∧ Wrote fs ino off nb buf d')
      (fun _ _ => False) := by
  obtain ⟨bytes, hdata, hfound⟩ := hd.file
  have hsize := hd.size
  have hle := hd.size_le
  have hroom := hd.room
  unfold Inode.store
  rw [hdata]
  dsimp only
  rw [if_pos hroom]
  refine ⟨rfl, { d with
      size := if d.size < off + nb then off + nb else d.size
      data := .raw (Bytes.copy bytes off buf 0 nb) },
    ⟨?_, hstate.2.1, hstate.2.2⟩, hd.used, hd.mode, ?_, _,
    ⟨rfl, ?_, hd.allocd_lt⟩, ?_⟩
  · change Function.update fs₁.inodtbl _ _ = _
    rw [hstate.1]
  · dsimp only
    split <;> omega
  · split <;> omega
  intro i hi
  have hi' : i < d.allocd := by
    dsimp only at hi
    split at hi <;> omega
  rw [← hfound i hi']
  unfold Bytes.copy
  rw [Nat.zero_add]

theorem write_post (hhas : fs.Has ino) (hf : FileData (fs.inode ino) bytes)
    (hend : off + nb < 2 ^ 63) (buf : Bytes) :
    Op.Post (ramfsWrite ino off nb buf) fs
      (fun n fs' => n = nb ∧ ∃ d', fs.Stored fs' ino d' ∧ Wrote fs ino off nb buf d')
      (fun _ _ => True) := by
  have hle := hf.size_le
  apply Op.Post.bind_ok (run_getinod hhas)
  dsimp only
  rw [Nat.mod_eq_of_lt (show off + nb < 2 ^ 64 by omega)]
  split
  · rename_i hgrow
    refine Op.Post.bind (growFile_post hf hend hgrow) ?_ fun _ _ h => h
    rintro d fs₁ ⟨hfs₁, hd⟩
    have hstate : fs₁.inodtbl = fs.inodtbl ∧ fs₁.ninodes = fs.ninodes ∧
        fs₁.freehint = fs.freehint := by
      rw [hfs₁]
      exact ⟨rfl, rfl, rfl⟩
    exact Op.Post.mono (storeEnd_post hstate hd buf) (fun _ _ h => h) fun _ _ h => h.elim
  · refine Op.Post.mono (@storeEnd_post fs ino off nb fs (fs.inode ino) ⟨rfl, rfl, rfl⟩
      ⟨rfl, rfl, rfl, hle, by omega, hf.allocd_lt, bytes, hf.data, fun i hi => ?_⟩ buf)
      (fun _ _ h => h) fun _ _ h => h.elim
    unfold Info.found
    rw [hf.data]
    exact (if_pos hi).symm

theorem trunc_post (hhas : fs.Has ino) (hf : FileData (fs.inode ino) bytes) :
    Op.Post (ramfsTrunc ino) fs
      (fun _ fs' => ∃ d', fs.Stored fs' ino d' ∧ d'.used = true ∧ d'.size = 0 ∧
        ∃ bytes', FileData d' bytes') (fun _ _ => False) := by
  have hle := hf.size_le
  apply Op.Post.bind_ok (run_getinod hhas)
  unfold Inode.store
  rw [hf.data]
  dsimp only
  rw [if_pos (by omega)]
  exact ⟨_, ⟨rfl, rfl, rfl⟩, hhas.2.2, rfl, _, rfl, Nat.zero_le _, hf.allocd_lt⟩

end Calls

/-! ## Writes stay in their memory -/

section Confined

variable {fs : Info} {ino off nb : Nat} {bytes buf : Bytes}

/-- The bytes are inside the capacity, or the value is negative and the files are as they were. -/
def Confined (fs : Info) (ino off nb : Nat) (x : Op Info Nat) (s : Info) : Prop :=
  Op.Post x s (fun _ fs' => off + nb ≤ (fs'.inode ino).allocd)
    (fun e fs' => ∃ code < 0, e = .err code ∧ fs'.inodtbl = fs.inodtbl)

/-- Doubling `cap` modulo 2 ^ 64 first reaches `need` at `c`. -/
def Doubled (need cap c : Nat) : Prop :=
  ∃ k, (∀ j < k, cap * 2 ^ j % 2 ^ 64 < need) ∧ c = cap * 2 ^ k % 2 ^ 64 ∧ need ≤ c

-- where the doubling starts
def Inode.cap (d : Inode) : Nat := if d.allocd = 0 then 1024 else d.allocd

/-- The end of the write does not wrap, and the memory has room for it or can be doubled to a size
that a block can have and that is granted; or there was no memory before and none is granted. -/
def WriteFits (fs : Info) (ino off nb : Nat) : Prop :=
  let need := (off + nb) % 2 ^ 64
  if need ≤ (fs.inode ino).allocd then off + nb < 2 ^ 64
  else ∃ c, Doubled need (fs.inode ino).cap c ∧
    if fs.heap.grants fs.heap.count c then off + nb < 2 ^ 64 ∧ c + 48 < 2 ^ 32
    else (fs.inode ino).allocd = 0

theorem newcap_iff {need fuel cap c : Nat} (hcap : cap < 2 ^ 64) :
    newcap need fuel cap = some c ↔ ∃ k < fuel, (∀ j < k, cap * 2 ^ j % 2 ^ 64 < need) ∧
      c = cap * 2 ^ k % 2 ^ 64 ∧ need ≤ c := by
  induction fuel generalizing cap with
  | zero => simp [newcap]
  | succ fuel ih =>
    have hpow : ∀ j, cap * 2 % 2 ^ 64 * 2 ^ j % 2 ^ 64 = cap * 2 ^ (j + 1) % 2 ^ 64 := by
      intro j
      rw [Nat.mod_mul_mod, Nat.mul_assoc, ← Nat.pow_succ']
    have hself : cap * 2 ^ 0 % 2 ^ 64 = cap := by
      rw [Nat.pow_zero, Nat.mul_one, Nat.mod_eq_of_lt hcap]
    unfold newcap
    split
    · rw [ih (Nat.mod_lt _ (by decide))]
      simp only [hpow]
      constructor
      · rintro ⟨k, hk, hbelow, hc⟩
        refine ⟨k + 1, by omega, fun j hj => ?_, hc⟩
        cases j with
        | zero => rwa [hself]
        | succ j => exact hbelow j (by omega)
      · rintro ⟨k, hk, hbelow, hc⟩
        cases k with
        | zero => omega
        | succ k => exact ⟨k, by omega, fun j hj => hbelow (j + 1) (by omega), hc⟩
    · constructor
      · rintro ⟨⟩
        exact ⟨0, by omega, fun j hj => by omega, hself.symm, by omega⟩
      · rintro ⟨k, -, hbelow, rfl, -⟩
        cases k with
        | zero => rw [hself]
        | succ k => exact absurd (hbelow 0 (by omega)) (by omega)

-- after 64 rounds nothing is left
theorem newcap_iff_doubled {need cap c : Nat} (hcap : cap < 2 ^ 64) (hneed : 0 < need) :
    newcap need 65 cap = some c ↔ Doubled need cap c := by
  rw [newcap_iff hcap]
  constructor
  · rintro ⟨k, -, h⟩
    exact ⟨k, h⟩
  · rintro ⟨k, hbelow, hc, hle⟩
    refine ⟨k, ?_, hbelow, hc, hle⟩
    by_contra hk
    have hzero : cap * 2 ^ k % 2 ^ 64 = 0 :=
      Nat.mod_eq_zero_of_dvd (Nat.dvd_mul_left_of_dvd (Nat.pow_dvd_pow 2 (by omega)) cap)
    omega

-- the end of `ramfs_write`, with the memory of `d`
theorem confined_storeEnd {d : Inode} (hdata : ∃ bytes, d.data = .raw bytes) (s : Info)
    (need : Nat) : Confined fs ino off nb (do
      let inod ← Op.ofExcept (d.store off nb buf)
      modify (Info.putInode · ino { inod with
        size := if inod.size < need then need else inod.size })
      pure nb) s ↔ off + nb ≤ d.allocd := by
  obtain ⟨bytes, hdata⟩ := hdata
  unfold Inode.store
  rw [hdata]
  dsimp only
  by_cases hroom : off + nb ≤ d.allocd
  · rw [if_pos hroom]
    refine iff_of_true ?_ hroom
    change off + nb ≤ (Function.update s.inodtbl (ino - 1) _ (ino - 1)).allocd
    rwa [Function.update_self]
  · rw [if_neg hroom]
    exact iff_of_false (fun ⟨_, _, h, _⟩ => nomatch h) hroom

/-- `ramfs_write` ends and is confined exactly where the write fits. -/
theorem write_confined_iff (hhas : fs.Has ino) (hf : FileData (fs.inode ino) bytes)
    (hoff : off < 2 ^ 63) (hnb : nb < 2 ^ 64) :
    Confined fs ino off nb (ramfsWrite ino off nb buf) fs ↔ WriteFits fs ino off nb := by
  have hlt := hf.allocd_lt
  have hcap : (fs.inode ino).cap < 2 ^ 64 := by
    unfold Inode.cap
    split <;> omega
  unfold Confined ramfsWrite WriteFits
  rw [Op.post_bind_iff (run_getinod hhas)]
  by_cases hneed : (off + nb) % 2 ^ 64 ≤ (fs.inode ino).allocd
  · rw [if_neg (Nat.not_lt.2 hneed), if_pos hneed]
    exact (confined_storeEnd ⟨_, hf.data⟩ fs _).trans (by omega)
  rw [if_pos (Nat.lt_of_not_le hneed), if_neg hneed]
  simp only [← newcap_iff_doubled hcap (by omega : 0 < (off + nb) % 2 ^ 64)]
  rw [growFile, ← Inode.cap]
  cases hnew : newcap ((off + nb) % 2 ^ 64) 65 (fs.inode ino).cap with
  | none =>
    apply iff_of_false
    · rintro ⟨_, _, h, _⟩
      cases h
    · rintro ⟨_, h, _⟩
      cases h
  | some c =>
    obtain ⟨-, -, -, hge⟩ := (newcap_iff_doubled hcap (by omega)).1 hnew
    simp only [Option.some.injEq, exists_eq_left']
    rw [bind_assoc]
    have hrun := run_realloc ((fs.inode ino).allocd == 0) c fs
    rw [run_malloc] at hrun
    cases hgrant : fs.heap.grants fs.heap.count c with
    | false =>
      simp only [hgrant, Bool.false_eq_true, if_false, and_false, or_false, beq_iff_eq] at hrun ⊢
      unfold Op.Post
      split_ifs at hrun with hnull
      all_goals
        rw [Op.run_bind_of_error hrun]
        simp [hnull, Info.tick, ENOMEM]
    | true =>
      rw [hgrant, if_pos (Or.inr ⟨by omega, rfl⟩), if_pos rfl] at hrun
      rw [if_pos rfl]
      by_cases hsmall : c + 48 < 2 ^ 32
      · rw [if_pos hsmall] at hrun
        rw [Op.post_bind_iff hrun, hf.data]
        exact (confined_storeEnd ⟨_, rfl⟩ fs.tick _).trans (by dsimp only; omega)
      · rw [if_neg hsmall] at hrun
        refine iff_of_false ?_ fun h => hsmall h.2
        unfold Op.Post
        rw [Op.run_bind_of_error hrun]
        simp

end Confined

/-! ## Runs -/

inductive FileCall
  | write (off nb : Nat) (buf : Bytes)
  | trunc

/-- The last byte written at an offset since the last truncation, or 0; the latest call comes
first. -/
def lastByte : List FileCall → Nat → UInt8
  | [], _ => 0
  | .write off nb buf :: calls, i =>
    if off ≤ i ∧ i < off + nb then buf (i - off) else lastByte calls i
  | .trunc :: _, _ => 0

structure FileRun where
  fs : Info
  calls : List FileCall

-- a file as `ramfs_mkino` leaves it, with any memory
def FileStart (ino : Nat) (s : FileRun) : Prop :=
  s.fs.Has ino ∧ (∃ bytes, (s.fs.inode ino).data = .raw bytes) ∧ (s.fs.inode ino).size = 0 ∧
    (s.fs.inode ino).allocd = 1024 ∧ s.calls = []

def FileStep (ino : Nat) (s : FileRun) : FileCall → FileRun → Prop
  | .write off nb buf, t =>
    off + nb < 2 ^ 63 ∧ (ramfsWrite ino off nb buf).run s.fs = .ok nb t.fs ∧
    t.calls = .write off nb buf :: s.calls
  | .trunc, t => (ramfsTrunc ino).run s.fs = .ok () t.fs ∧ t.calls = .trunc :: s.calls

/-- `ramfs_read` returns the bytes that were written. -/
def ReadRight (ino off nb : Nat) (s : FileRun) : Prop :=
  ∃ out, (ramfsRead ino off nb).run s.fs = .ok out s.fs ∧
    out.length = min nb ((s.fs.inode ino).size - off) ∧
    ∀ i < out.length, out[i]? = some (lastByte s.calls (off + i))

/-- A write behind the end finds zeros in between. -/
def FileSafe (ino : Nat) (s : FileRun) : FileCall → Prop
  | .write off _ _ => ∀ i, (s.fs.inode ino).size ≤ i → i < off → s.fs.found ino i = 0
  | .trunc => True

structure FileInv (ino : Nat) (s : FileRun) : Prop where
  has : s.fs.Has ino
  file : ∃ bytes, FileData (s.fs.inode ino) bytes ∧
    ∀ i < (s.fs.inode ino).size, bytes i = lastByte s.calls i
  beyond : ∀ i, (s.fs.inode ino).size ≤ i → lastByte s.calls i = 0

variable {ino : Nat} {s t : FileRun}

theorem fileStart_inv (h : FileStart ino s) : FileInv ino s := by
  obtain ⟨hhas, ⟨bytes, hdata⟩, hsize, hallocd, hcalls⟩ := h
  refine ⟨hhas, ⟨bytes, ⟨hdata, by omega, by omega⟩, fun i hi => by omega⟩, fun i _ => ?_⟩
  rw [hcalls]
  rfl

theorem fileStep_inv (hinv : FileInv ino s) {a : FileCall} (hsafe : FileSafe ino s a)
    (hstep : FileStep ino s a t) : FileInv ino t := by
  obtain ⟨bytes, hf, hbytes⟩ := hinv.file
  cases a with
  | write off nb buf =>
    obtain ⟨hend, hrun, hcalls⟩ := hstep
    obtain ⟨-, d', hput, hwrote⟩ := (write_post hinv.has hf hend buf).ok hrun
    obtain ⟨hhas, hinod⟩ := hput.has hinv.has (hwrote.used.trans hinv.has.2.2)
    obtain ⟨bytes', hf', hbytes'⟩ := hwrote.file
    have hsize := hwrote.size
    -- a byte the write leaves alone is old, or lies in the gap
    have hold : ∀ i, i < (s.fs.inode ino).size ∨ i < off →
        s.fs.found ino i = lastByte s.calls i := by
      intro i hi
      by_cases hin : i < (s.fs.inode ino).size
      · have hle := hf.size_le
        rw [← hbytes i hin]
        unfold Info.found
        rw [hf.data]
        exact if_pos (by omega)
      · rw [hinv.beyond i (by omega)]
        exact hsafe i (by omega) (by omega)
    refine ⟨hhas, ⟨bytes', ?_, ?_⟩, ?_⟩
    · rwa [hinod]
    · intro i hi
      rw [hinod] at hi
      rw [hbytes' i hi, hcalls, lastByte]
      split
      · rfl
      · exact hold i (by omega)
    · intro i hi
      rw [hinod] at hi
      rw [hcalls, lastByte, if_neg (by omega)]
      exact hinv.beyond i (by omega)
  | trunc =>
    obtain ⟨hrun, hcalls⟩ := hstep
    obtain ⟨d', hput, hused, hsize, bytes', hf'⟩ := (trunc_post hinv.has hf).ok hrun
    obtain ⟨hhas, hinod⟩ := hput.has hinv.has hused
    refine ⟨hhas, ⟨bytes', ?_, ?_⟩, ?_⟩
    · rwa [hinod]
    · intro i hi
      rw [hinod] at hi
      omega
    · intro i _
      rw [hcalls]
      rfl

/-- Where no write leaves a gap of old memory, reads that do not wrap return what was written. -/
theorem ramfs_file_is_array (hs : Reach (FileStart ino) (FileStep ino) (FileSafe ino) s)
    {off nb : Nat} (hoff : off ≤ (s.fs.inode ino).size) (hnb : nb < 2 ^ 64) :
    ReadRight ino off nb s ↔ off + nb < 2 ^ 64 := by
  have hstart : ∀ s, FileStart ino s → FileInv ino s := fun _ => fileStart_inv
  have hnext : ∀ s a t, FileInv ino s → FileSafe ino s a → FileStep ino s a t → FileInv ino t :=
    fun _ _ _ hi hok hst => fileStep_inv hi hok hst
  have hinv := Reach.invariant hstart hnext hs
  obtain ⟨bytes, hf, hbytes⟩ := hinv.file
  constructor
  · rintro ⟨out, hrun, -⟩
    by_contra hwrap
    rw [run_read_wraps hinv.has hf hoff hnb (by omega)] at hrun
    cases hrun
  · intro hlt
    refine ⟨_, run_read hinv.has hf hoff hlt, by rw [List.length_map, List.length_range], ?_⟩
    intro i hi
    rw [List.length_map, List.length_range] at hi
    rw [List.getElem?_map, List.getElem?_range hi, Option.map_some, hbytes _ (by omega)]

-- memory full of "z", and inode 1 a new file
def dirtyHeap : Heap where
  count := 0
  grants _ n := decide (n < 2 ^ 20)
  junk _ := ⟨fun _ => 122, fun _ => ⟨false, 0, 0, none⟩,
    fun _ => ⟨false, 0, 0, 0, 0, 0, 0, .raw Bytes.zero⟩⟩

def dirtyFile : Info where
  inodtbl _ := ⟨true, S_IFREG, 0, 0, 0, 0, 1024, .raw fun _ => 122⟩
  ninodes := 1024
  freehint := 1
  heap := dirtyHeap

theorem dirtyFile_start : FileStart 1 ⟨dirtyFile, []⟩ :=
  ⟨⟨by decide, by decide, rfl⟩, ⟨_, rfl⟩, rfl, rfl, rfl⟩

theorem write_confined_start :
    Confined dirtyFile 1 0 2000 (ramfsWrite 1 0 2000 Bytes.zero) dirtyFile := by
  refine (write_confined_iff dirtyFile_start.1 ⟨rfl, by decide, by decide⟩ (by decide)
    (by decide)).2 ?_
  unfold WriteFits
  rw [if_neg (by decide)]
  exact ⟨2048, ⟨1, by decide, by decide, by decide⟩, by decide⟩

/-- Two bytes at the last position that `lseek` allows: the doubling comes to 0 and does not end. -/
theorem write_last_position_hangs : (2 ^ 63 - 1 : Nat) < 2 ^ 63 ∧
    ¬ Confined dirtyFile 1 (2 ^ 63 - 1) 2 (ramfsWrite 1 (2 ^ 63 - 1) 2 Bytes.zero) dirtyFile := by
  refine ⟨by decide, ?_⟩
  have hrun : (ramfsWrite 1 (2 ^ 63 - 1) 2 Bytes.zero).run dirtyFile = .error .fault dirtyFile :=
    rfl
  unfold Confined Op.Post
  rw [hrun]
  exact fun ⟨_, _, h, _⟩ => nomatch h

-- the byte "A" at offset 0, and at offset 1
def wroteAt (off : Nat) : FileRun :=
  ⟨(ramfsWrite 1 off 1 fun _ => 65).after dirtyFile, [.write off 1 fun _ => 65]⟩

theorem ramfs_file_is_array_first :
    ReadRight 1 0 100 (wroteAt 0) ∧ ¬ ReadRight 1 1 (2 ^ 64 - 1) (wroteAt 0) := by
  have hstep : FileStep 1 ⟨dirtyFile, []⟩ (.write 0 1 fun _ => 65) (wroteAt 0) :=
    ⟨by decide, Op.run_of_returns (by decide), rfl⟩
  have hreach : Reach (FileStart 1) (FileStep 1) (FileSafe 1) (wroteAt 0) :=
    .next (.start dirtyFile_start) hstep fun i _ hi => absurd hi (Nat.not_lt_zero i)
  exact ⟨(ramfs_file_is_array hreach (by decide) (by decide)).2 (by decide),
    fun h => absurd ((ramfs_file_is_array hreach (by decide) (by decide)).1 h) (by decide)⟩

/-- A byte written at offset 1 of a new file leaves byte 0 as the allocator handed it out. -/
theorem ramfs_file_gap_dirty :
    ∃ s, Reach (FileStart 1) (FileStep 1) (fun _ _ => True) s ∧
      0 ≤ (s.fs.inode 1).size ∧ lastByte s.calls 0 = 0 ∧
      (ramfsRead 1 0 1).returns s.fs [122] = true ∧ ¬ ReadRight 1 0 1 s := by
  have hstep : FileStep 1 ⟨dirtyFile, []⟩ (.write 1 1 fun _ => 65) (wroteAt 1) :=
    ⟨by decide, Op.run_of_returns (by decide), rfl⟩
  have hread : (ramfsRead 1 0 1).returns (wroteAt 1).fs [122] = true := by decide
  refine ⟨wroteAt 1, .next (.start dirtyFile_start) hstep trivial, Nat.zero_le _, rfl, hread, ?_⟩
  rintro ⟨out, hrun, -, hbytes⟩
  rw [Op.run_of_returns hread] at hrun
  injection hrun with hout
  have hbyte := hbytes 0 (by rw [← hout]; decide)
  rw [← hout] at hbyte
  exact absurd hbyte (by decide)

end Ramfs
