import RandomOs.Vfs.Fd

/-!
# Seeking (`lseek` of `vfs.c`)

A position and a size are unsigned, an offset is signed, and the tests for overflow mix the two.
-/

namespace Vfs

open Kern

/-! ## Model -/

def FDTYPE_FILE : Int := 1
def SEEK_SET : Int := 0
def SEEK_CUR : Int := 1
def SEEK_END : Int := 2

/-- `(s64)x`. -/
def s64 (x : Int) : Int := (x + 2 ^ 63) % 2 ^ 64 - 2 ^ 63

structure VInode where
  size : Nat
  mode : Nat

structure File where
  mnt : Nat
  inod : VInode
  ino : Nat
  pos : Nat

-- the answers of `getino`, by mount and inode; `none` is a failure
abbrev Getino := Nat → Nat → Option VInode

def File.refresh (ent : File) (getino : Getino) : File :=
  { ent with inod := (getino ent.mnt ent.ino).getD ent.inod }

-- `pos` or `size` as the base; the sums are signed
def seekFrom (base off : Int) : Except Int Int :=
  if off < 0 ∧ s64 (base + off) < 0 then .error (-EINVAL)
  else if off > 0 ∧ base > s64 ((0x7FFFFFFFFFFFFFFF - off % 2 ^ 64) % 2 ^ 64) then .error (-ERANGE)
  else .ok (s64 (base + off))

def File.npos (ent : File) (off whence : Int) : Except Int Int :=
  if whence = SEEK_SET then if off < 0 then .error (-EINVAL) else .ok off
  else if whence = SEEK_CUR then seekFrom (s64 ent.pos) off
  else if whence = SEEK_END then seekFrom (s64 ent.inod.size) off
  else .error (-EINVAL)

def File.seek (ent : File) (off whence : Int) : Int × File :=
  match ent.npos off whence with
  | .error e => (e, ent)
  | .ok npos => (npos, { ent with pos := (npos % 2 ^ 64).toNat })

-- as in `fd.c`, `none` means that memory outside the table is used
def lseek (getino : Getino) (k : FdKernel File) (pid : Nat) (fd off whence : Int) :
    Option (Int × FdKernel File) := do
  let ret ← getfd k pid fd
  if ret < 0 then some (ret, k)
  else
    let (ptr, slots, info) ← fdSlot k pid fd
    if info.type ≠ FDTYPE_FILE then some (-EBADF, k)
    else
      let (ret, ent) := (info.data.refresh getino).seek off whence
      some (ret, k.setHeap ptr (some (slots.set fd.toNat { info with data := ent })))

/-! ## Exactness -/

/-- What the descriptor says of its file. -/
def fileOf (k : FdKernel File) (pid : Nat) (fd : Int) : Option File :=
  (fdSlot k pid fd).map (·.2.2.data)

def OpenFile (k : FdKernel File) (pid : Nat) (fd : Int) (ent : File) : Prop :=
  getfd k pid fd = some 0 ∧ (fdSlot k pid fd).map (·.2.2.type) = some FDTYPE_FILE ∧
    fileOf k pid fd = some ent

/-- The sum that is asked for, if `whence` is valid. -/
def File.target (ent : File) (off whence : Int) : Option Int :=
  if whence = SEEK_SET then some off
  else if whence = SEEK_CUR then some (ent.pos + off)
  else if whence = SEEK_END then some (ent.inod.size + off)
  else none

-- the positions that a signed number can name
def IsPos (t : Int) : Prop := 0 ≤ t ∧ t < 2 ^ 63

theorem s64_of_lt {x : Int} (hlo : -2 ^ 63 ≤ x) (hhi : x < 2 ^ 63) : s64 x = x := by
  unfold s64
  omega

theorem seekFrom_cases {base : Nat} {off : Int} (hbase : base < 2 ^ 63) (hlo : -2 ^ 63 ≤ off)
    (hhi : off < 2 ^ 63) : (IsPos (base + off) ∧ seekFrom (s64 base) off = .ok (base + off)) ∨
      (¬ IsPos (base + off) ∧ ∃ e < 0, seekFrom (s64 base) off = .error e) := by
  rw [s64_of_lt (by omega) (by omega)]
  unfold seekFrom IsPos
  split_ifs with hneg hbig
  · rw [s64_of_lt (by omega) (by omega)] at hneg
    exact .inr ⟨by omega, _, by decide, rfl⟩
  · unfold s64 at hbig
    exact .inr ⟨by omega, _, by decide, rfl⟩
  · have hsum : s64 (base + off) = base + off := by
      unfold s64 at *
      omega
    rw [hsum] at hneg ⊢
    unfold s64 at hbig
    exact .inl ⟨by omega, rfl⟩

section Seek

variable {getino : Getino} {k : FdKernel File} {pid : Nat} {fd off whence : Int} {ent : File}

theorem npos_cases (whence : Int) (hsize : ent.inod.size < 2 ^ 63) (hpos : ent.pos < 2 ^ 63)
    (hlo : -2 ^ 63 ≤ off) (hhi : off < 2 ^ 63) :
    (∃ t, ent.target off whence = some t ∧ IsPos t ∧ ent.npos off whence = .ok t) ∨
      ((∀ t, ent.target off whence = some t → ¬ IsPos t) ∧
        ∃ e < 0, ent.npos off whence = .error e) := by
  unfold File.target File.npos
  split_ifs with hset hneg hcur hend
  · exact .inr ⟨fun t ht hp => by cases ht; exact absurd hp.1 (by omega), _, by decide, rfl⟩
  · exact .inl ⟨off, rfl, ⟨by omega, hhi⟩, rfl⟩
  · rcases seekFrom_cases hpos hlo hhi with ⟨hp, heq⟩ | ⟨hp, herr⟩
    · exact .inl ⟨_, rfl, hp, heq⟩
    · exact .inr ⟨fun t ht => Option.some.inj ht ▸ hp, herr⟩
  · rcases seekFrom_cases hsize hlo hhi with ⟨hp, heq⟩ | ⟨hp, herr⟩
    · exact .inl ⟨_, rfl, hp, heq⟩
    · exact .inr ⟨fun t ht => Option.some.inj ht ▸ hp, herr⟩
  · exact .inr ⟨nofun, _, by decide, rfl⟩

-- the call on an open file, with the file it leaves
theorem lseek_run (getino : Getino) (off whence : Int) (hopen : OpenFile k pid fd ent) :
    ∃ k', lseek getino k pid fd off whence = some (((ent.refresh getino).seek off whence).1, k') ∧
      fileOf k' pid fd = some ((ent.refresh getino).seek off whence).2 := by
  obtain ⟨hget, htype, hent⟩ := hopen
  unfold fileOf at hent
  cases hslot : fdSlot k pid fd with
  | none => simp [hslot] at hent
  | some sl =>
    obtain ⟨ptr, slots, info⟩ := sl
    simp only [hslot, Option.map_some, Option.some.injEq] at htype hent
    subst hent
    simp only [fdSlot, Option.bind_eq_bind, Option.bind_eq_some_iff, Option.pure_def,
      Option.some.injEq, Prod.mk.injEq] at hslot
    obtain ⟨_, hfds, _, hheap, _, hidx, rfl, rfl, rfl⟩ := hslot
    refine ⟨_, by simp [lseek, hget, fdSlot, hfds, hheap, hidx, htype]; rfl, ?_⟩
    obtain ⟨hlt, -⟩ := List.getElem?_eq_some_iff.1 hidx
    simp [fileOf, fdSlot, FdKernel.setHeap, hfds, hlt]

/-- `lseek` moves to the exact sum, or fails and stays. -/
theorem lseek_exact (hopen : OpenFile k pid fd ent)
    (hsize : (ent.refresh getino).inod.size < 2 ^ 63) (hpos : ent.pos < 2 ^ 63)
    (hlo : -2 ^ 63 ≤ off) (hhi : off < 2 ^ 63) :
    ∃ r k', lseek getino k pid fd off whence = some (r, k') ∧
      ((∃ t, (ent.refresh getino).target off whence = some t ∧ IsPos t ∧ r = t ∧
          (fileOf k' pid fd).map (·.pos) = some t.toNat) ∨
        ((∀ t, (ent.refresh getino).target off whence = some t → ¬ IsPos t) ∧ r < 0 ∧
          (fileOf k' pid fd).map (·.pos) = some ent.pos)) := by
  obtain ⟨k', hrun, hfile⟩ := lseek_run getino off whence hopen
  refine ⟨_, k', hrun, ?_⟩
  rw [hfile]
  unfold File.seek
  rcases npos_cases whence hsize hpos hlo hhi with ⟨t, ht, hp, heq⟩ | ⟨hno, e, hneg, heq⟩
  · have hmod : t % 2 ^ 64 = t := Int.emod_eq_of_lt hp.1 (by have := hp.2; omega)
    rw [heq]
    exact .inl ⟨t, ht, hp, rfl, congrArg (fun x => some (Int.toNat x)) hmod⟩
  · rw [heq]
    exact .inr ⟨hno, hneg, rfl⟩

end Seek

-- one process with descriptor 0 on a file that has grown to 10 bytes since it was opened
def oneFile : FdKernel File where
  proctbl _ := ⟨some 0, 1⟩
  heap _ := some [⟨0, 1, FDTYPE_FILE, ⟨0, ⟨4, 0⟩, 2, 3⟩⟩]

theorem lseek_exact_end :
    ∃ r k', lseek (fun _ _ => some ⟨10, 0⟩) oneFile 0 0 (-3) SEEK_END = some (r, k') ∧ r = 7 := by
  obtain ⟨r, k', hrun, ⟨t, ht, -, hr, -⟩ | ⟨hno, -⟩⟩ :=
    @lseek_exact (fun _ _ => some ⟨10, 0⟩) oneFile 0 0 (-3) SEEK_END ⟨0, ⟨4, 0⟩, 2, 3⟩
      ⟨rfl, rfl, rfl⟩ (by decide) (by decide) (by decide) (by decide)
  · exact ⟨r, k', hrun, hr.trans (Option.some.inj ht).symm⟩
  · exact absurd ⟨by decide, by decide⟩ (hno 7 rfl)

end Vfs
