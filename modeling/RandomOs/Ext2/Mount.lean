import Mathlib.Data.Rat.Floor
import RandomOs.Ext2.Super

/-!
# The geometry of a mounted file system (`ext2fs_mount`)

What `ext2fs_mount` makes of the fields of the superblock: how many groups it counts, and which
descriptors its loop over the blocks of the table loads.  The number of descriptors in a block goes
through a `u8`, which is 0 for blocks of more than 4096 bytes.
-/

namespace Ext2

open Lib Bytes Kern

/-! ## The loop over the table -/

variable {n cblk ptr : Nat} {fs fs' : Ext2fs} {raw : Bytes}

-- the loop goes on as long as the blocks of the table lie in the file system
theorem loadDescs_returns (hcblk : cblk < 2 ^ 32) (hptr : 32 * ptr ≤ 32 * fs.nbgs % 2 ^ 32)
    (htable : ∀ i < n, (cblk + i) % 2 ^ 32 < fs.geo.blocksCount)
    (hfault : ∀ t, (loadDescs n cblk ptr).run fs ≠ .error .fault t) :
    ∃ fs', (loadDescs n cblk ptr).run fs = .ok () fs' := by
  induction n generalizing cblk ptr fs with
  | zero => exact ⟨fs, rfl⟩
  | succ n ih =>
    have hin : cblk < fs.geo.blocksCount := by
      have := htable 0 (by omega)
      rwa [Nat.add_zero, Nat.mod_eq_of_lt hcblk] at this
    rw [loadDescs_succ hin hptr] at hfault ⊢
    split at hfault
    · exact absurd rfl (hfault fs)
    rename_i hroom
    rw [if_neg hroom]
    refine ih (Nat.mod_lt _ (by decide)) (by dsimp only; omega) (fun i hi => ?_) hfault
    have := htable (i + 1) (by omega)
    rw [Nat.mod_add_mod, Nat.add_assoc, Nat.add_comm 1 i]
    exact this

/-- The loop leaves the memory of the table with the first block that is read and does not fit. -/
theorem loadDescs_fault_iff (hcblk : cblk < 2 ^ 32) (hptr : 32 * ptr ≤ 32 * fs.nbgs % 2 ^ 32) :
    (∃ t, (loadDescs n cblk ptr).run fs = .error .fault t) ↔
      ∃ i < n, (∀ j ≤ i, (cblk + j) % 2 ^ 32 < fs.geo.blocksCount) ∧
        32 * fs.nbgs % 2 ^ 32 < 32 * min fs.nbgs (ptr + (i + 1) * (fs.gpb % 256)) := by
  induction n generalizing cblk ptr fs with
  | zero =>
    apply iff_of_false
    · rintro ⟨t, h⟩
      cases h
    · rintro ⟨i, hi, -⟩
      omega
  | succ n ih =>
    by_cases hin : cblk < fs.geo.blocksCount
    swap
    · rw [loadDescs, Op.run_bind_of_error (run_rdblk_of_ge (Nat.le_of_not_lt hin))]
      apply iff_of_false
      · rintro ⟨t, h⟩
        cases h
      rintro ⟨i, -, hinside, -⟩
      have hfirst := hinside 0 (Nat.zero_le i)
      rw [Nat.add_zero, Nat.mod_eq_of_lt hcblk] at hfirst
      exact hin hfirst
    have hfirst : (cblk + 0) % 2 ^ 32 < fs.geo.blocksCount := by
      rwa [Nat.add_zero, Nat.mod_eq_of_lt hcblk]
    rw [loadDescs_succ hin hptr]
    split
    next hfull =>
      refine iff_of_true ⟨_, rfl⟩ ⟨0, by omega, fun j hj => ?_, by omega⟩
      rwa [Nat.le_zero.mp hj]
    next hfits =>
      rw [ih (Nat.mod_lt _ (by decide)) (by dsimp only; omega)]
      have hmin : ∀ x, min fs.nbgs (ptr + min (fs.gpb % 256) (fs.nbgs - ptr) + x) =
          min fs.nbgs (ptr + (x + fs.gpb % 256)) := fun x => by omega
      constructor
      · rintro ⟨i, hi, hinside, hlt⟩
        refine ⟨i + 1, by omega, fun j hj => ?_, ?_⟩
        · cases j with
          | zero => exact hfirst
          | succ j =>
            have := hinside j (by omega)
            rwa [Nat.mod_add_mod, Nat.add_assoc, Nat.add_comm 1 j] at this
        · rw [Nat.succ_mul (i + 1), ← hmin]
          exact hlt
      · rintro ⟨i, hi, hinside, hlt⟩
        cases i with
        | zero => omega
        | succ i =>
          refine ⟨i, by omega, fun j hj => ?_, ?_⟩
          · rw [Nat.mod_add_mod, Nat.add_assoc, Nat.add_comm 1 j]
            exact hinside (j + 1) (by omega)
          · dsimp only
            rw [hmin, ← Nat.succ_mul]
            exact hlt

-- up to 255 descriptors in a block: the descriptors from `ptr` on are loaded in order
theorem loadDescs_bgs (hgpb : fs.gpb < 256) (hptr : 32 * ptr ≤ 32 * fs.nbgs % 2 ^ 32)
    (h : (loadDescs n cblk ptr).run fs = .ok () fs') {g k : Nat} (hk : k < 32) :
    fs'.bgs (32 * g + k) =
      if ptr ≤ g ∧ g < fs.nbgs ∧ g < ptr + n * fs.gpb then
        blockRead fs.disk ((cblk + (g - ptr) / fs.gpb) % 2 ^ 32 * fs.spb % 2 ^ 32)
          (32 * ((g - ptr) % fs.gpb) + k)
      else fs.bgs (32 * g + k) := by
  induction n generalizing cblk ptr fs with
  | zero =>
    cases h
    rw [if_neg (by omega)]
  | succ n ih =>
    by_cases hin : cblk < fs.geo.blocksCount
    swap
    · rw [loadDescs, Op.run_bind_of_error (run_rdblk_of_ge (Nat.le_of_not_lt hin))] at h
      cases h
    rw [loadDescs_succ hin hptr] at h
    split at h
    · cases h
    obtain ⟨dscib, hd, hmin⟩ : ∃ dscib, min (fs.gpb % 256) (fs.nbgs - ptr) = dscib ∧
        dscib = min fs.gpb (fs.nbgs - ptr) := ⟨_, rfl, by omega⟩
    rw [hd] at h
    have hrest := ih (by exact hgpb) (by dsimp only; omega) h
    have hsucc : (n + 1) * fs.gpb = n * fs.gpb + fs.gpb := Nat.succ_mul _ _
    dsimp only at hrest
    rw [hrest]
    by_cases hfirst : ptr ≤ g ∧ g < ptr + dscib
    · -- the descriptor lies in this block
      have hdiv : (g - ptr) / fs.gpb = 0 := Nat.div_eq_of_lt (by omega)
      have hmod : (g - ptr) % fs.gpb = g - ptr := Nat.mod_eq_of_lt (by omega)
      have hbytes : 32 * g + k = 32 * ptr + (32 * (g - ptr) + k) := by omega
      rw [if_neg (by omega), if_pos (by omega), hdiv, hmod, hbytes,
        copy_apply (by omega), Nat.zero_add, Nat.add_zero, ← Nat.mod_mul_mod cblk]
    · have hkeep : copy fs.bgs (32 * ptr) (blockRead fs.disk (cblk * fs.spb % 2 ^ 32)) 0
          (32 * dscib) (32 * g + k) = fs.bgs (32 * g + k) := copy_of_ne (by omega)
      rw [hkeep]
      by_cases hlater : ptr + fs.gpb ≤ g ∧ g < fs.nbgs ∧ g < ptr + (n + 1) * fs.gpb
      swap
      · rw [if_neg (by omega), if_neg (by omega)]
      -- a full block was taken, the descriptor is in one of the next
      have hfull : dscib = fs.gpb := by omega
      have hpos : 0 < fs.gpb := by
        apply Nat.pos_of_ne_zero
        intro hzero
        rw [hzero] at hlater
        omega
      have hsub : g - ptr = g - (ptr + fs.gpb) + fs.gpb := by omega
      rw [hfull, if_pos (by omega), if_pos (by omega), hsub,
        Nat.add_div_right _ hpos, Nat.add_mod_right, Nat.mod_add_mod, Nat.add_assoc,
        Nat.add_comm 1]

-- 256 descriptors in a block are none
theorem loadDescs_bgs_of_wide (hgpb : fs.gpb % 256 = 0) (hptr : 32 * ptr ≤ 32 * fs.nbgs % 2 ^ 32)
    (h : (loadDescs n cblk ptr).run fs = .ok () fs') : fs'.bgs = fs.bgs := by
  induction n generalizing cblk fs with
  | zero =>
    cases h
    rfl
  | succ n ih =>
    by_cases hin : cblk < fs.geo.blocksCount
    swap
    · rw [loadDescs, Op.run_bind_of_error (run_rdblk_of_ge (Nat.le_of_not_lt hin))] at h
      cases h
    rw [loadDescs_succ hin hptr, hgpb, Nat.zero_min, if_neg (by omega)] at h
    rw [ih (by exact hgpb) (by exact hptr) h]
    funext i
    exact copy_of_ne (by omega)

/-! ## The mount as a whole -/

-- the fields that decide the geometry
def rawBlocksz (raw : Bytes) : Nat := 1024 * 2 ^ (get32 raw 24 % 32) % 2 ^ 32

def rawGroups (raw : Bytes) : Nat := (get32 raw 4 + get32 raw 32 - 1) / get32 raw 32

def rawTable (raw : Bytes) : Nat := (rawGroups raw * 32 + rawBlocksz raw - 1) / rawBlocksz raw

/-- The blocks that `ext2fs_mount` reads the descriptors from lie in the file system. -/
def TableInside (raw : Bytes) : Prop :=
  ∀ i < rawTable raw, (get32 raw 20 + 1 + i) % 2 ^ 32 < get32 raw 4

/-- The memory for the descriptors is too short, since `malloc` takes 32 bits of its size: the sum
with the tag wraps, or a block that is read does not fit. -/
def Overruns (raw : Bytes) : Prop :=
  2 ^ 32 ≤ 32 * rawGroups raw % 2 ^ 32 + 48 ∨
    ∃ i < rawTable raw, (∀ j ≤ i, (get32 raw 20 + 1 + j) % 2 ^ 32 < get32 raw 4) ∧
      32 * rawGroups raw % 2 ^ 32 < 32 * min (rawGroups raw) ((i + 1) * (rawBlocksz raw / 32 % 256))

/-- The device starts, behind the first kilobyte, with the given superblock. -/
def HasSuper (disk raw : Bytes) : Prop := ∀ i < 1024, blockRead disk 2 i = raw i

section Super

variable {disk raw : Bytes}

theorem HasSuper.field32 (h : HasSuper disk raw) {a : Nat} (ha : a + 4 ≤ 1024) :
    get32 (blockRead disk 2) a = get32 raw a :=
  get32_congr fun i hi => h (a + i) (by omega)

theorem HasSuper.field16 (h : HasSuper disk raw) {a : Nat} (ha : a + 2 ≤ 1024) :
    get16 (blockRead disk 2) a = get16 raw a :=
  get16_congr (h a (by omega)) (h (a + 1) (by omega))

theorem HasSuper.revision (h : HasSuper disk raw) :
    mountRevision (blockRead disk 2) = mountRevision raw := by
  unfold mountRevision
  rw [h.field16 (by decide), h.field16 (by decide), h.field32 (by decide), h.field32 (by decide),
    h.field32 (by decide)]

variable (heap : Bytes) (isdyn : Bool)

section

variable (h : HasSuper disk raw)

include h

theorem HasSuper.blocksz : (mountGeometry heap disk isdyn).blocksz = rawBlocksz raw := by
  change 1024 * 2 ^ (get32 (blockRead disk 2) 24 % 32) % 2 ^ 32 = _
  rw [h.field32 (by decide), rawBlocksz]

theorem HasSuper.nbgs (hbpg : get32 raw 32 ≠ 0) :
    (mountGeometry heap disk isdyn).nbgs = rawGroups raw := by
  change get32 (blockRead disk 2) 4 / get32 (blockRead disk 2) 32 + (if
    get32 (blockRead disk 2) 4 % get32 (blockRead disk 2) 32 ≠ 0 then 1 else 0) = _
  rw [h.field32 (by decide), h.field32 (by decide), div_add_ite_eq _ (Nat.pos_of_ne_zero hbpg),
    rawGroups]

theorem HasSuper.bgtbln (hbpg : get32 raw 32 ≠ 0)
    (hblocksz : rawBlocksz raw ≠ 0) : (mountGeometry heap disk isdyn).bgtbln = rawTable raw := by
  change (mountGeometry heap disk isdyn).nbgs * 32 / (mountGeometry heap disk isdyn).blocksz +
    (if (mountGeometry heap disk isdyn).nbgs * 32 % (mountGeometry heap disk isdyn).blocksz ≠ 0
      then 1 else 0) = _
  rw [h.nbgs heap isdyn hbpg, h.blocksz heap isdyn, div_add_ite_eq _ (Nat.pos_of_ne_zero hblocksz),
    rawTable]

theorem HasSuper.blocksCount : (mountGeometry heap disk isdyn).geo.blocksCount = get32 raw 4 :=
  (get32_mountGeometry_sb heap disk isdyn (by split <;> decide)).trans (h.field32 (by decide))

theorem HasSuper.firstDataBlock :
    (mountGeometry heap disk isdyn).geo.firstDataBlock = get32 raw 20 :=
  (get32_mountGeometry_sb heap disk isdyn (by split <;> decide)).trans (h.field32 (by decide))

-- a refused superblock, a fault before the loop, or the loop
theorem HasSuper.mount_cases :
    (mountRevision raw = none ∧ ext2fsMount heap disk = .error (.err (-EINVAL))) ∨
    (mountRevision raw ≠ none ∧ (get32 raw 32 = 0 ∨ rawBlocksz raw = 0 ∨
      2 ^ 32 ≤ 32 * rawGroups raw % 2 ^ 32 + 48) ∧ ext2fsMount heap disk = .error .fault) ∨
    ∃ isdyn, mountRevision raw = some isdyn ∧ get32 raw 32 ≠ 0 ∧ rawBlocksz raw ≠ 0 ∧
      32 * rawGroups raw % 2 ^ 32 + 48 < 2 ^ 32 ∧
      ext2fsMount heap disk = match (loadDescs (rawTable raw) ((get32 raw 20 + 1) % 2 ^ 32) 0).run
          (mountGeometry heap disk isdyn) with
      | .ok () fs => .ok fs
      | .error e _ => .error e := by
  unfold ext2fsMount
  dsimp only
  rw [h.revision]
  cases hrev : mountRevision raw with
  | none => exact Or.inl ⟨rfl, rfl⟩
  | some isdyn =>
    right
    dsimp only
    rw [h.field32 (by decide), h.blocksz heap isdyn]
    by_cases hzero : get32 raw 32 = 0 ∨ rawBlocksz raw = 0
    · exact Or.inl ⟨by simp, hzero.imp_right Or.inl, if_pos hzero⟩
    obtain ⟨hbpg, hblocksz⟩ := not_or.mp hzero
    rw [if_neg hzero, h.bgtbln heap isdyn hbpg hblocksz, h.firstDataBlock heap isdyn,
      h.nbgs heap isdyn hbpg]
    by_cases htag : 2 ^ 32 ≤ 32 * rawGroups raw % 2 ^ 32 + 48
    · exact Or.inl ⟨by simp, Or.inr (Or.inr htag), if_pos htag⟩
    · exact Or.inr ⟨isdyn, rfl, hbpg, hblocksz, Nat.lt_of_not_le htag, if_neg htag⟩

theorem HasSuper.mount_fault_iff : ext2fsMount heap disk = .error .fault ↔
    mountRevision raw ≠ none ∧ (get32 raw 32 = 0 ∨ rawBlocksz raw = 0 ∨ Overruns raw) := by
  rcases h.mount_cases heap with ⟨hnone, herr⟩ | ⟨hrev, hbad, herr⟩ |
    ⟨isdyn, hrev, hbpg, hblocksz, htag, hload⟩
  · exact iff_of_false (by rw [herr]; nofun) fun hsome => hsome.1 hnone
  · exact iff_of_true herr ⟨hrev, hbad.imp_right (Or.imp_right Or.inl)⟩
  have hiff := loadDescs_fault_iff (n := rawTable raw)
    (Nat.mod_lt (get32 raw 20 + 1) (show 0 < 2 ^ 32 by decide))
    (show 32 * 0 ≤ 32 * (mountGeometry heap disk isdyn).nbgs % 2 ^ 32 from Nat.zero_le _)
  have hgpb : (mountGeometry heap disk isdyn).gpb = rawBlocksz raw / 32 :=
    congrArg (· / 32) (h.blocksz heap isdyn)
  simp only [h.nbgs heap isdyn hbpg, h.blocksCount heap isdyn, hgpb, Nat.mod_add_mod,
    Nat.zero_add] at hiff
  have hover : Overruns raw ↔ ∃ t, (loadDescs (rawTable raw) ((get32 raw 20 + 1) % 2 ^ 32) 0).run
      (mountGeometry heap disk isdyn) = .error .fault t :=
    (or_iff_right (Nat.not_le_of_lt htag)).trans hiff.symm
  rw [hrev, or_iff_right hbpg, or_iff_right hblocksz, hover, hload,
    and_iff_right (Option.some_ne_none isdyn)]
  cases (loadDescs (rawTable raw) ((get32 raw 20 + 1) % 2 ^ 32) 0).run
    (mountGeometry heap disk isdyn) <;> simp

end

end Super

/-! ## What the mount is for -/

/-- The position of byte `k` of the descriptor of group `g` on the device. -/
def descByte (raw : Bytes) (g k : Nat) : Nat :=
  (get32 raw 20 + 1 + g / (rawBlocksz raw / 32)) * rawBlocksz raw +
    (32 * (g % (rawBlocksz raw / 32)) + k)

/-- A mount does not divide by zero; if it succeeds it has counted the groups, loaded the descriptor
of each from its place in the table and touched no memory behind them. -/
structure MountRight (heap disk raw : Bytes) : Prop where
  division : ext2fsMount heap disk ≠ .error .fault
  groups : ∀ fs, ext2fsMount heap disk = .ok fs →
    (fs.nbgs : ℤ) = ⌈((get32 raw 4 : ℚ) - get32 raw 20) / get32 raw 32⌉
  descs : ∀ fs, ext2fsMount heap disk = .ok fs →
    ∀ g < fs.nbgs, ∀ k < 32, fs.bgs (32 * g + k) = disk (descByte raw g k)
  bounds : ∀ fs, ext2fsMount heap disk = .ok fs → ∀ a, 32 * fs.nbgs ≤ a → fs.bgs a = heap a

/-- The superblocks whose geometry `ext2fs_mount` gets right. -/
structure SoundSuper (raw : Bytes) : Prop where
  perGroup : get32 raw 32 ≠ 0
  blocksz : rawBlocksz raw ≠ 0
  room : ¬ Overruns raw
  -- the blocks before the first data block make no group of their own
  groups : TableInside raw →
    get32 raw 20 + rawGroups raw * get32 raw 32 < get32 raw 4 + get32 raw 32
  -- at most 128 descriptors in a block, and sector numbers of 32 bits
  descs : TableInside raw → rawGroups raw ≠ 0 → rawBlocksz raw ≤ 4096 ∧
    ∀ i < rawTable raw, (get32 raw 20 + 1 + i) * (rawBlocksz raw / 512) < 2 ^ 32

theorem rawBlocksz_pow (h : rawBlocksz raw ≠ 0) :
    ∃ k, 10 ≤ k ∧ k < 32 ∧ rawBlocksz raw = 2 ^ k := by
  unfold rawBlocksz at h ⊢
  rw [show 1024 = 2 ^ 10 from rfl, ← Nat.pow_add] at h ⊢
  by_cases hlog : 10 + get32 raw 24 % 32 < 32
  · exact ⟨_, by omega, hlog, Nat.mod_eq_of_lt (Nat.pow_lt_pow_right (by decide) hlog)⟩
  · exact absurd (Nat.mod_eq_zero_of_dvd (Nat.pow_dvd_pow 2 (by omega))) h

theorem dvd_rawBlocksz (h : rawBlocksz raw ≠ 0) {j : Nat} (hj : j ≤ 10) :
    2 ^ j ∣ rawBlocksz raw := by
  obtain ⟨k, hlow, -, hk⟩ := rawBlocksz_pow h
  rw [hk]
  exact Nat.pow_dvd_pow 2 (by omega)

theorem rawGroups_bounds (hbpg : get32 raw 32 ≠ 0) : get32 raw 4 ≤ rawGroups raw * get32 raw 32 ∧
      rawGroups raw * get32 raw 32 < get32 raw 4 + get32 raw 32 := by
  have hpos := Nat.pos_of_ne_zero hbpg
  have hle := Nat.div_mul_le_self (get32 raw 4 + get32 raw 32 - 1) (get32 raw 32)
  have hlt := Nat.lt_div_mul_add hpos (a := get32 raw 4 + get32 raw 32 - 1)
  unfold rawGroups
  omega

theorem rawGroups_eq_ceil_iff (hbpg : get32 raw 32 ≠ 0) :
    (rawGroups raw : ℤ) = ⌈((get32 raw 4 : ℚ) - get32 raw 20) / get32 raw 32⌉ ↔
      get32 raw 20 + rawGroups raw * get32 raw 32 < get32 raw 4 + get32 raw 32 := by
  have hpos : (0 : ℚ) < get32 raw 32 := by
    exact_mod_cast Nat.pos_of_ne_zero hbpg
  obtain ⟨hcover, -⟩ := rawGroups_bounds hbpg
  have hcover' : (get32 raw 4 : ℚ) ≤ rawGroups raw * get32 raw 32 := by
    exact_mod_cast hcover
  rw [eq_comm, Int.ceil_eq_iff, lt_div_iff₀ hpos, div_le_iff₀ hpos]
  have hcast : get32 raw 20 + rawGroups raw * get32 raw 32 < get32 raw 4 + get32 raw 32 ↔
      (get32 raw 20 : ℚ) + rawGroups raw * get32 raw 32 < get32 raw 4 + get32 raw 32 := by
    exact_mod_cast Iff.rfl
  rw [hcast]
  push_cast
  constructor
  · rintro ⟨hlt, -⟩
    linarith
  · intro hlt
    constructor <;> linarith

section Super

variable {heap disk raw : Bytes} {fs : Ext2fs}

theorem HasSuper.mount_ok (h : HasSuper disk raw) (hok : ext2fsMount heap disk = .ok fs) :
    ∃ isdyn, mountRevision raw = some isdyn ∧ get32 raw 32 ≠ 0 ∧ rawBlocksz raw ≠ 0 ∧
      TableInside raw ∧ (loadDescs (rawTable raw) ((get32 raw 20 + 1) % 2 ^ 32) 0).run
        (mountGeometry heap disk isdyn) = .ok () fs ∧ fs.nbgs = rawGroups raw := by
  rcases h.mount_cases heap with ⟨-, herr⟩ | ⟨-, -, herr⟩ | ⟨isdyn, hrev, hbpg, hblocksz, -, hload⟩
  · rw [herr] at hok
    cases hok
  · rw [herr] at hok
    cases hok
  rw [hok] at hload
  split at hload <;> cases hload
  rename_i hrun
  obtain ⟨hfs, htable⟩ := loadDescs_ok (Nat.mod_lt _ (by decide)) (Nat.zero_le _) hrun
  refine ⟨isdyn, hrev, hbpg, hblocksz, fun i hi => ?_, hrun, ?_⟩
  · have := htable i hi
    rwa [h.blocksCount heap isdyn, Nat.mod_add_mod] at this
  · rw [hfs]
    exact h.nbgs heap isdyn hbpg

theorem HasSuper.mount_of_inside (h : HasSuper disk raw) (hrev : mountRevision raw ≠ none)
    (hinside : TableInside raw) (hfault : ext2fsMount heap disk ≠ .error .fault) :
    ∃ fs, ext2fsMount heap disk = .ok fs := by
  rcases h.mount_cases heap with ⟨hnone, -⟩ | ⟨-, -, herr⟩ | ⟨isdyn, -, -, -, -, hload⟩
  · exact absurd hnone hrev
  · exact absurd herr hfault
  · rw [hload] at hfault
    obtain ⟨fs, hrun⟩ := @loadDescs_returns (rawTable raw) ((get32 raw 20 + 1) % 2 ^ 32) 0
      (mountGeometry heap disk isdyn) (Nat.mod_lt _ (by decide)) (Nat.zero_le _)
      (fun i hi => by
        rw [h.blocksCount heap isdyn, Nat.mod_add_mod]
        exact hinside i hi)
      fun t ht => by
        rw [ht] at hfault
        exact hfault rfl
    rw [hrun] at hload
    exact ⟨fs, hload⟩

theorem rawTable_covers (hblocksz : rawBlocksz raw ≠ 0) {i : Nat} :
    i < rawTable raw ↔ i * (rawBlocksz raw / 32) < rawGroups raw := by
  have hmul : 32 * (rawBlocksz raw / 32) = rawBlocksz raw :=
    Nat.mul_div_cancel' (@dvd_rawBlocksz _ hblocksz 5 (by decide))
  have hpos := Nat.pos_of_ne_zero hblocksz
  unfold rawTable
  rw [← Nat.succ_le_iff, Nat.le_div_iff_mul_le hpos, Nat.succ_mul]
  have hassoc : i * rawBlocksz raw = 32 * (i * (rawBlocksz raw / 32)) := by
    rw [Nat.mul_left_comm, hmul]
  omega

-- what the loop reads for group `g`, where a block has at most 128 descriptors
theorem HasSuper.bgs_of_narrow (h : HasSuper disk raw) (hok : ext2fsMount heap disk = .ok fs)
    (hnarrow : rawBlocksz raw ≤ 4096) {g k : Nat} (hk : k < 32) :
    fs.bgs (32 * g + k) = if g < rawGroups raw then
        disk ((get32 raw 20 + 1 + g / (rawBlocksz raw / 32)) % 2 ^ 32 *
          (rawBlocksz raw / 512) % 2 ^ 32 * 512 + (32 * (g % (rawBlocksz raw / 32)) + k))
      else heap (32 * g + k) := by
  obtain ⟨isdyn, -, hbpg, hblocksz, -, hrun, -⟩ := h.mount_ok hok
  have hgpb : (mountGeometry heap disk isdyn).gpb = rawBlocksz raw / 32 :=
    congrArg (· / 32) (h.blocksz heap isdyn)
  have hspb : (mountGeometry heap disk isdyn).spb = rawBlocksz raw / 512 :=
    congrArg (· / 512) (h.blocksz heap isdyn)
  rw [loadDescs_bgs (by rw [hgpb]; omega) (Nat.zero_le _) hrun hk, h.nbgs heap isdyn hbpg, hgpb,
    hspb, Nat.mod_add_mod, Nat.zero_add]
  by_cases hg : g < rawGroups raw
  · have hcover : g < rawTable raw * (rawBlocksz raw / 32) := by
      have := (rawTable_covers hblocksz).not.mp (Nat.lt_irrefl (rawTable raw))
      omega
    rw [if_pos ⟨Nat.zero_le _, hg, hcover⟩, if_pos hg]
    rfl
  · rw [if_neg (fun hall => hg hall.2.1), if_neg hg]
    rfl

-- sector numbers that fit are not changed by the `u32` arithmetic
theorem sector_eq (hblocksz : rawBlocksz raw ≠ 0) (hfit : cblk * (rawBlocksz raw / 512) < 2 ^ 32) :
    cblk % 2 ^ 32 * (rawBlocksz raw / 512) % 2 ^ 32 * 512 = cblk * rawBlocksz raw := by
  have hdvd : 512 ∣ rawBlocksz raw := @dvd_rawBlocksz _ hblocksz 9 (by decide)
  have hspb : 0 < rawBlocksz raw / 512 :=
    Nat.div_pos (Nat.le_of_dvd (Nat.pos_of_ne_zero hblocksz) hdvd) (by decide)
  have hcblk : cblk < 2 ^ 32 := lt_of_le_of_lt (Nat.le_mul_of_pos_right _ hspb) hfit
  rw [Nat.mod_eq_of_lt hcblk, Nat.mod_eq_of_lt hfit, Nat.mul_assoc, Nat.div_mul_cancel hdvd]

theorem mountRight_of_sound (h : HasSuper disk raw)
    (hsound : mountRevision raw ≠ none → SoundSuper raw) : MountRight heap disk raw := by
  have hof : ∀ fs, ext2fsMount heap disk = .ok fs → SoundSuper raw := by
    intro fs hok
    obtain ⟨isdyn, hrev, -⟩ := h.mount_ok hok
    exact hsound (by rw [hrev]; simp)
  have hfault : ext2fsMount heap disk ≠ .error .fault := by
    rw [Ne, h.mount_fault_iff]
    rintro ⟨hrev, hbpg | hblocksz | hover⟩
    · exact (hsound hrev).perGroup hbpg
    · exact (hsound hrev).blocksz hblocksz
    · exact (hsound hrev).room hover
  refine ⟨hfault, fun fs hok => ?_, fun fs hok g hg k hk => ?_,
    fun fs hok a ha => ?_⟩
  · obtain ⟨isdyn, -, hbpg, -, hinside, -, hnbgs⟩ := h.mount_ok hok
    rw [hnbgs, rawGroups_eq_ceil_iff hbpg]
    exact (hof fs hok).groups hinside
  · obtain ⟨isdyn, -, -, hblocksz, hinside, -, hnbgs⟩ := h.mount_ok hok
    rw [hnbgs] at hg
    obtain ⟨hnarrow, hsectors⟩ := (hof fs hok).descs hinside (by omega)
    have htable : g / (rawBlocksz raw / 32) < rawTable raw :=
      (rawTable_covers hblocksz).mpr (lt_of_le_of_lt (Nat.div_mul_le_self _ _) hg)
    rw [h.bgs_of_narrow hok hnarrow hk, if_pos hg, sector_eq hblocksz (hsectors _ htable), descByte]
  · obtain ⟨isdyn, -, -, hblocksz, hinside, hrun, hnbgs⟩ := h.mount_ok hok
    by_cases hzero : rawGroups raw = 0
    · -- no group, no block of the table is read
      have htable : rawTable raw = 0 := by
        by_contra hne
        have := (rawTable_covers hblocksz).mp (Nat.pos_of_ne_zero hne)
        omega
      rw [htable] at hrun
      cases hrun
      rfl
    · have hnarrow := ((hof fs hok).descs hinside hzero).1
      rw [← Nat.div_add_mod a 32, h.bgs_of_narrow hok hnarrow (Nat.mod_lt _ (by decide)),
        if_neg (by omega)]

end Super

/-! ## Devices on which an unsound superblock goes wrong -/

/-- The device that holds the superblock, one other byte and nothing else. -/
def superDisk (raw : Bytes) (at' : Nat) (v : UInt8) : Bytes := fun a =>
  if 1024 ≤ a ∧ a < 2048 then raw (a - 1024) else if a = at' then v else 0

theorem hasSuper_superDisk (raw : Bytes) (at' : Nat) (v : UInt8) :
    HasSuper (superDisk raw at' v) raw := by
  intro i hi
  change superDisk raw at' v (2 * 512 + i) = raw i
  rw [superDisk, if_pos (by omega), Nat.add_sub_cancel_left]

theorem descByte_zero_ge (hblocksz : 4096 < rawBlocksz raw) : 2048 ≤ descByte raw 0 0 := by
  unfold descByte
  rw [Nat.zero_div, Nat.succ_mul]
  omega

section

variable (hrev : mountRevision raw ≠ none) (hblocksz : rawBlocksz raw ≠ 0)
  (hinside : TableInside raw)
  (hright : ∀ heap disk, HasSuper disk raw → MountRight heap disk raw)

include hrev hblocksz hinside hright

-- blocks of 8192 bytes and more: the table stays as `malloc` returned it
theorem narrow_of_mountRight (hgroups : rawGroups raw ≠ 0) : rawBlocksz raw ≤ 4096 := by
  by_contra hwide
  have hsuper := hasSuper_superDisk raw 0 0
  obtain ⟨fs, hok⟩ := hsuper.mount_of_inside hrev hinside (hright (fun _ => 1) _ hsuper).division
  obtain ⟨isdyn, -, -, -, -, hrun, hnbgs⟩ := hsuper.mount_ok hok
  have hgpb : (mountGeometry (fun _ => 1) (superDisk raw 0 0) isdyn).gpb % 256 = 0 := by
    change (mountGeometry (fun _ => 1) (superDisk raw 0 0) isdyn).blocksz / 32 % 256 = 0
    obtain ⟨k, -, -, hk⟩ := rawBlocksz_pow hblocksz
    have hlarge : 13 ≤ k := by
      by_contra hsmall
      have := Nat.pow_le_pow_right (show 0 < 2 by decide) (show k ≤ 12 by omega)
      omega
    rw [hsuper.blocksz, hk, show k = 13 + (k - 13) by omega, Nat.pow_add]
    omega
  have hheap := loadDescs_bgs_of_wide hgpb (Nat.zero_le _) hrun
  have hdesc := (hright _ _ hsuper).descs fs hok 0 (by omega) 0 (by decide)
  have hge := descByte_zero_ge (Nat.lt_of_not_le hwide)
  rw [hheap, superDisk, if_neg (by omega), ite_self] at hdesc
  cases hdesc

-- a wrapped sector number: another block is read than the one of the table
theorem sectors_of_mountRight (hnarrow : rawBlocksz raw ≤ 4096) {i : Nat}
    (hi : i < rawTable raw) : (get32 raw 20 + 1 + i) * (rawBlocksz raw / 512) < 2 ^ 32 := by
  by_contra hwrap
  obtain ⟨k, hlow, -, hk⟩ := rawBlocksz_pow hblocksz
  have hpow := Nat.pow_le_pow_right (show 0 < 2 by decide) hlow
  have hgpb : 0 < rawBlocksz raw / 32 := by omega
  have hg := (rawTable_covers hblocksz).mp hi
  -- the descriptor at the start of block `i` of the table
  have hdesc : descByte raw (i * (rawBlocksz raw / 32)) 0 =
      (get32 raw 20 + 1 + i) * rawBlocksz raw := by
    rw [descByte, Nat.mul_div_cancel _ hgpb, Nat.mul_mod_left]
    rfl
  have hfar : 2 ^ 32 * 512 ≤ (get32 raw 20 + 1 + i) * rawBlocksz raw := by
    have hle : (get32 raw 20 + 1 + i) * (rawBlocksz raw / 512) * 512 ≤
        (get32 raw 20 + 1 + i) * rawBlocksz raw := by
      rw [Nat.mul_assoc]
      exact Nat.mul_le_mul_left _ (Nat.div_mul_le_self _ _)
    exact (Nat.mul_le_mul_right 512 (Nat.le_of_not_lt hwrap)).trans hle
  have hnear : (get32 raw 20 + 1 + i) % 2 ^ 32 * (rawBlocksz raw / 512) % 2 ^ 32 * 512 <
      2 ^ 32 * 512 := Nat.mul_lt_mul_of_pos_right (Nat.mod_lt _ (by decide)) (by decide)
  obtain ⟨w, hread⟩ : ∃ w, (get32 raw 20 + 1 + i) % 2 ^ 32 * (rawBlocksz raw / 512) % 2 ^ 32 *
      512 = w := ⟨_, rfl⟩
  rw [hread] at hnear
  generalize (get32 raw 20 + 1 + i) * rawBlocksz raw = p at hdesc hfar
  -- the two places hold different bytes
  have hsuper := hasSuper_superDisk raw p (superDisk raw 0 0 w + 1)
  obtain ⟨fs, hok⟩ := hsuper.mount_of_inside hrev hinside (hright zero _ hsuper).division
  obtain ⟨isdyn, -, -, -, -, -, hnbgs⟩ := hsuper.mount_ok hok
  have hloaded := hsuper.bgs_of_narrow hok hnarrow (g := i * (rawBlocksz raw / 32)) (k := 0)
    (by decide)
  rw [(hright _ _ hsuper).descs fs hok _ (by omega) 0 (by decide), if_pos hg, hdesc,
    Nat.mul_div_cancel _ hgpb, Nat.mul_mod_left, hread] at hloaded
  have hw : superDisk raw p (superDisk raw 0 0 w + 1) w = superDisk raw 0 0 w := by
    unfold superDisk
    rw [if_neg (show w ≠ p by omega), ite_self]
  have hp : superDisk raw p (superDisk raw 0 0 w + 1) p = superDisk raw 0 0 w + 1 := by
    rw [superDisk, if_neg (by omega), if_pos rfl]
  rw [hp] at hloaded
  change _ = superDisk raw p _ w at hloaded
  rw [hw] at hloaded
  generalize superDisk raw 0 0 w = v at hloaded
  exact absurd hloaded (by simp)

end

/-- For every superblock: on all devices that start with it the mount gets the geometry right, if
and only if the superblock is refused or sound. -/
theorem mount_right_iff (raw : Bytes) :
    (∀ heap disk, HasSuper disk raw → MountRight heap disk raw) ↔
      (mountRevision raw ≠ none → SoundSuper raw) := by
  constructor
  · intro hright hrev
    have hsuper := hasSuper_superDisk raw 0 0
    have hdiv := (hright zero _ hsuper).division
    have hgood : ¬ (get32 raw 32 = 0 ∨ rawBlocksz raw = 0 ∨ Overruns raw) :=
      fun hbad => hdiv ((hsuper.mount_fault_iff zero).mpr ⟨hrev, hbad⟩)
    obtain ⟨hbpg, hblocksz, hroom⟩ := not_or.mp hgood |>.imp_right not_or.mp
    refine ⟨hbpg, hblocksz, hroom, fun hinside => ?_, fun hinside hgroups => ?_⟩
    · obtain ⟨fs, hok⟩ := hsuper.mount_of_inside hrev hinside hdiv
      obtain ⟨isdyn, -, -, -, -, -, hnbgs⟩ := hsuper.mount_ok hok
      have hceil := (hright zero _ hsuper).groups fs hok
      rwa [hnbgs, rawGroups_eq_ceil_iff hbpg] at hceil
    · have hnarrow := narrow_of_mountRight hrev hblocksz hinside hright hgroups
      exact ⟨hnarrow, fun i hi =>
        sectors_of_mountRight hrev hblocksz hinside hright hnarrow hi⟩
  · intro hsound heap disk h
    exact mountRight_of_sound h hsound

/-- 8193 blocks of 1024 bytes, the first of them before the first data block, and groups of 8192. -/
def oneGroupSuper : Bytes :=
  put16 (put16 (put32 (put32 (put32 zero 4 8193) 20 1) 32 8192) 56 0xEF53) 60 1

/-- The 8192 blocks from the first data block on are one group, and the mount counts two. -/
theorem mount_counts_two_groups :
    (∃ fs, ext2fsMount zero (superDisk oneGroupSuper 0 0) = .ok fs ∧ fs.nbgs = 2) ∧
      ¬ MountRight zero (superDisk oneGroupSuper 0 0) oneGroupSuper := by
  have hsuper := hasSuper_superDisk oneGroupSuper 0 0
  have hblocks : get32 oneGroupSuper 4 = 8193 := by decide
  have hfirst : get32 oneGroupSuper 20 = 1 := by decide
  have hbpg : get32 oneGroupSuper 32 = 8192 := by decide
  have hblocksz : rawBlocksz oneGroupSuper = 1024 := by decide
  have hgroups : rawGroups oneGroupSuper = 2 := by
    rw [rawGroups, hblocks, hbpg]
  have hinside : TableInside oneGroupSuper := by
    intro i hi
    rw [rawTable, hblocksz] at hi
    rw [show i = 0 by omega]
    decide
  have hroom : ¬ Overruns oneGroupSuper := by
    unfold Overruns
    rw [hgroups]
    rintro (htag | ⟨i, -, -, hlt⟩) <;> omega
  have hfault : ext2fsMount zero (superDisk oneGroupSuper 0 0) ≠ .error .fault := by
    rw [Ne, hsuper.mount_fault_iff]
    rintro ⟨-, hzero | hzero | hover⟩
    · omega
    · omega
    · exact hroom hover
  obtain ⟨fs, hok⟩ := hsuper.mount_of_inside (by decide) hinside hfault
  obtain ⟨isdyn, -, -, -, -, -, hnbgs⟩ := hsuper.mount_ok hok
  refine ⟨⟨fs, hok, hnbgs.trans hgroups⟩, fun hright => ?_⟩
  have hceil := hright.groups fs hok
  rw [hnbgs, rawGroups_eq_ceil_iff (by omega), hbpg] at hceil
  omega

end Ext2
