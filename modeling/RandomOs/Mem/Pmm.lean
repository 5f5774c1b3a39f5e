import Mathlib.Data.List.TakeWhile
import RandomOs.Lib.Bitmap
import RandomOs.Lib.Runs

/-!
# The physical frame allocator (`pmm.c`)

One bit of `state.mmap` stands for one 4 KiB frame, set when the frame is taken.  Frame indices and
counts are `u32`, and so is the product from which `pmm_falloc` computes the address it returns.
-/

namespace Mem

open Lib List

/-! ## Model -/

/-- `struct pmm_state`; the bitmap is given bit by bit and goes on with the memory after it. -/
structure PmmState where
  memHigh : Nat
  memLow : Nat
  nframes : Nat
  framesz : Nat
  mmapSz : Nat
  mmap : Nat → Bool

open PmmState

/-- The `u32` frame indices `stidx`, `stidx + 1`, ... of the loops over `cnt` frames. -/
def frameIdxs (stidx cnt : Nat) : List Nat :=
  (List.range cnt).map fun i => (stidx + i) % 2 ^ 32

/-- `pmm_try_resv`; `none` where it returns 0. -/
def pmmTryResv (s : PmmState) (stidx cnt : Nat) : Option PmmState :=
  if s.nframes < (stidx + cnt) % 2 ^ 32 then none
  else if (frameIdxs stidx cnt).any s.mmap then none
  else some { s with mmap := mark s.mmap (frameIdxs stidx cnt) true }

/-- `state.mmap[i] == 0xFF`. -/
def byteFull (s : PmmState) (i : Nat) : Bool := (List.range 8).all fun bit => s.mmap (i * 8 + bit)

/-- `pmm_falloc`: the state afterwards and the address, 0 for `NULL`. -/
def pmmFalloc (s : PmmState) (cnt : Nat) : PmmState × Nat :=
  let found := (List.range s.mmapSz).findSome? fun i =>
    if byteFull s i then none
    else (List.range 8).findSome? fun bit =>
      let fidx := i * 8 + bit
      -- `cnt` is a `size_t` here and a `u32` there; `fidx * state.framesz` is a `u32` product
      (pmmTryResv s fidx (cnt % 2 ^ 32)).map fun s' =>
        (s', s.memLow + fidx * s.framesz % 2 ^ 32)
  found.getD (s, 0)

/-- `pmm_ffree`. -/
def pmmFfree (s : PmmState) (ptr cnt : Nat) : PmmState :=
  if ptr < s.memLow ∨ s.memHigh ≤ ptr ∨ cnt = 0 then s
  else
    let stidx := (ptr - s.memLow) / s.framesz % 2 ^ 32
    -- the loop breaks at the first index past the last frame
    { s with mmap := mark s.mmap ((frameIdxs stidx cnt).takeWhile (· < s.nframes)) false }

/-- An entry of the boot loader's memory map. -/
structure MemmapEntry where
  base : Nat
  length : Nat
  usable : Bool

/-- The pass over one entry that frees the whole frames of usable memory. -/
def freeUsable (s : PmmState) (entry : MemmapEntry) : PmmState :=
  let sidx := (entry.base + s.framesz - 1) % 2 ^ 64 / s.framesz
  let eidx := (entry.base + entry.length) % 2 ^ 64 / s.framesz
  if entry.usable ∧ sidx < eidx then pmmFfree s (sidx * s.framesz) (eidx - sidx) else s

/-- The result of `pmm_try_resv` is ignored. -/
def resvOrKeep (s : PmmState) (stidx cnt : Nat) : PmmState := (pmmTryResv s stidx cnt).getD s

/-- The largest end of an entry. -/
def memHighOf (entries : List MemmapEntry) : Nat :=
  entries.foldl (fun high entry => max high ((entry.base + entry.length) % 2 ^ 64)) 0

def mmapSzOf (nframes : Nat) : Nat := nframes / 8 + if nframes % 8 ≠ 0 then 1 else 0

/-- The start of the first usable entry that the bitmap fits in, 0 if there is none. -/
def bmapaddrOf (entries : List MemmapEntry) (mmapSz : Nat) : Nat :=
  match entries.find? fun entry => entry.usable && decide (mmapSz ≤ entry.length) with
  | some entry => entry.base
  | none => 0

/-- The allocator with every frame taken; `mem` is the memory past the bitmap. -/
def allTaken (memHigh : Nat) (mem : Nat → Bool) : PmmState :=
  let nframes := memHigh / 4096 % 2 ^ 32
  { memHigh := memHigh, memLow := 0, nframes := nframes, framesz := 4096
    mmapSz := mmapSzOf nframes
    mmap := fun i => decide (i < 8 * mmapSzOf nframes) || mem i }

/-- `pmm_init`; `none` where it panics. -/
def pmmInit (entries : List MemmapEntry) (mem : Nat → Bool) : Option PmmState :=
  let s := allTaken (memHighOf entries) mem
  let bmapaddr := bmapaddrOf entries s.mmapSz
  if memHighOf entries = 0 ∨ bmapaddr = 0 then none
  else
    let s := entries.foldl freeUsable s
    let s := resvOrKeep s (bmapaddr / 4096 % 2 ^ 32) ((s.mmapSz + 4095) / 4096 % 2 ^ 32)
    -- the page of the SMP startup blob
    some (resvOrKeep s (0x8000 / 4096) 1)

/-! ## What stays fixed -/

/-- The layout that `pmm_init` sets up; the bits past the last frame are never cleared. -/
structure PmmState.Valid (s : PmmState) : Prop where
  framesz : s.framesz = 4096
  memLow : s.memLow = 0
  nframes_lt : s.nframes < 2 ^ 32
  nframes_le : s.nframes * 4096 ≤ s.memHigh
  mmapSz : s.mmapSz = mmapSzOf s.nframes
  padding : ∀ i, s.nframes ≤ i → i < 8 * s.mmapSz → s.mmap i = true

/-- The same allocator with other bits. -/
def PmmState.withMap (s : PmmState) (mmap : Nat → Bool) : PmmState := { s with mmap := mmap }

@[simp] theorem PmmState.withMap_mmap (s : PmmState) (mmap : Nat → Bool) :
    (s.withMap mmap).mmap = mmap := rfl

variable {s : PmmState} {stidx cnt j : Nat} {mmap : Nat → Bool}

theorem PmmState.Valid.withMap (hs : s.Valid)
    (hpad : ∀ i, s.nframes ≤ i → s.mmap i = true → mmap i = true) : (s.withMap mmap).Valid :=
  ⟨hs.framesz, hs.memLow, hs.nframes_lt, hs.nframes_le, hs.mmapSz,
    fun i hi hi' => hpad i hi (hs.padding i hi hi')⟩

theorem PmmState.Valid.bits_le (hs : s.Valid) :
    s.nframes ≤ 8 * s.mmapSz ∧ 8 * s.mmapSz ≤ 2 ^ 32 := by
  have hlt := hs.nframes_lt
  have hsz := hs.mmapSz
  unfold mmapSzOf at hsz
  split_ifs at hsz <;> omega

theorem mem_frameIdxs {f : Nat} :
    f ∈ frameIdxs stidx cnt ↔ ∃ i < cnt, (stidx + i) % 2 ^ 32 = f := by
  simp [frameIdxs]

-- without a wrap the loop visits the range itself
theorem mem_frameIdxs_of_le {f : Nat} (hle : stidx + cnt ≤ 2 ^ 32) :
    f ∈ frameIdxs stidx cnt ↔ InRange (stidx, cnt) f := by
  rw [mem_frameIdxs]
  constructor
  · rintro ⟨i, hi, rfl⟩
    rw [Nat.mod_eq_of_lt (by omega)]
    exact ⟨by omega, by simp only; omega⟩
  · rintro ⟨hlo, hhi⟩
    exact ⟨f - stidx, by omega, by rw [Nat.mod_eq_of_lt (by omega)]; omega⟩

theorem pmmTryResv_eq_some {s' : PmmState} : pmmTryResv s stidx cnt = some s' ↔
      (stidx + cnt) % 2 ^ 32 ≤ s.nframes ∧ (∀ f ∈ frameIdxs stidx cnt, s.mmap f = false) ∧
        s' = s.withMap (mark s.mmap (frameIdxs stidx cnt) true) := by
  unfold pmmTryResv
  split_ifs with hbound hany
  · simp only [false_iff]
    omega
  · simp only [false_iff]
    rw [any_eq_true] at hany
    obtain ⟨f, hf, hbit⟩ := hany
    rintro ⟨-, hclear, -⟩
    rw [hclear f hf] at hbit
    cases hbit
  · rw [Option.some.injEq]
    have hclear : ∀ f ∈ frameIdxs stidx cnt, s.mmap f = false := by
      intro f hf
      by_contra hbit
      exact hany (any_eq_true.mpr ⟨f, hf, by simpa using hbit⟩)
    constructor
    · rintro rfl
      exact ⟨by omega, hclear, rfl⟩
    · rintro ⟨-, -, rfl⟩
      rfl

theorem pmmTryResv_eq_none : pmmTryResv s stidx cnt = none ↔
      ¬ ((stidx + cnt) % 2 ^ 32 ≤ s.nframes ∧ ∀ f ∈ frameIdxs stidx cnt, s.mmap f = false) := by
  rw [Option.eq_none_iff_forall_ne_some]
  constructor
  · rintro h ⟨hbound, hclear⟩
    exact h _ (pmmTryResv_eq_some.mpr ⟨hbound, hclear, rfl⟩)
  · intro h s' hs'
    obtain ⟨hbound, hclear, -⟩ := pmmTryResv_eq_some.mp hs'
    exact h ⟨hbound, hclear⟩

theorem PmmState.Valid.resvOrKeep (hs : s.Valid) (stidx cnt : Nat) :
    (Mem.resvOrKeep s stidx cnt).Valid := by
  unfold Mem.resvOrKeep
  cases hres : pmmTryResv s stidx cnt with
  | none => exact hs
  | some s' =>
    obtain ⟨-, -, rfl⟩ := pmmTryResv_eq_some.mp hres
    apply hs.withMap
    intro i _ hbit
    rw [mark_apply, hbit]
    split <;> rfl

theorem PmmState.Valid.pmmFfree (hs : s.Valid) (ptr cnt : Nat) :
    (Mem.pmmFfree s ptr cnt).Valid := by
  unfold Mem.pmmFfree
  split
  · exact hs
  apply hs.withMap
  intro i hi hbit
  rw [mark_apply, if_neg, hbit]
  intro hmem
  have := mem_takeWhile_imp hmem
  simp only [decide_eq_true_eq] at this
  omega

theorem PmmState.Valid.freeUsable (hs : s.Valid) (entry : MemmapEntry) :
    (Mem.freeUsable s entry).Valid := by
  unfold Mem.freeUsable
  dsimp only
  split
  · exact hs.pmmFfree _ _
  · exact hs

theorem allTaken_valid (memHigh : Nat) (mem : Nat → Bool) : (allTaken memHigh mem).Valid := by
  refine ⟨rfl, rfl, Nat.mod_lt _ (by decide), ?_, rfl, fun i _ hi => ?_⟩
  · exact (Nat.mul_le_mul_right 4096 (Nat.mod_le _ _)).trans (Nat.div_mul_le_self memHigh 4096)
  · change (decide (i < 8 * mmapSzOf (memHigh / 4096 % 2 ^ 32)) || mem i) = true
    rw [decide_eq_true (show i < 8 * mmapSzOf (memHigh / 4096 % 2 ^ 32) from hi), Bool.true_or]

-- whatever the memory map, boot leaves a valid allocator
theorem pmmInit_valid {entries : List MemmapEntry} {mem : Nat → Bool}
    (hinit : pmmInit entries mem = some s) : s.Valid := by
  unfold pmmInit at hinit
  dsimp only at hinit
  split_ifs at hinit
  rw [Option.some.injEq] at hinit
  subst hinit
  apply Valid.resvOrKeep
  apply Valid.resvOrKeep
  have hfold : ∀ (l : List MemmapEntry) (s : PmmState), s.Valid → (l.foldl freeUsable s).Valid := by
    intro l
    induction l with
    | nil => exact fun _ hs => hs
    | cons entry l ih => exact fun s hs => ih _ (hs.freeUsable entry)
  apply hfold
  exact allTaken_valid _ _

/-! ## First fit -/

/-- `cnt` free frames from frame `j` on. -/
def PmmState.RunFree (s : PmmState) (j cnt : Nat) : Prop :=
  j + cnt ≤ s.nframes ∧ ∀ i < cnt, s.mmap (j + i) = false

-- as long as the end fits a `u32`, the code tests exactly for a free run
theorem pmmTryResv_isNone_iff (hle : j + cnt < 2 ^ 32) :
    pmmTryResv s j cnt = none ↔ ¬ s.RunFree j cnt := by
  rw [pmmTryResv_eq_none, Nat.mod_eq_of_lt hle]
  apply not_congr
  apply and_congr_right
  intro _
  constructor
  · intro h i hi
    exact h _ ((mem_frameIdxs_of_le (by omega)).mpr ⟨by simp, by simpa using hi⟩)
  intro h f hf
  obtain ⟨hlo, hhi⟩ := (mem_frameIdxs_of_le (by omega)).mp hf
  have := h (f - j) (by omega)
  rwa [Nat.add_sub_cancel' hlo] at this

-- a full byte holds no start of a run
theorem pmmTryResv_of_byteFull (hs : s.Valid) {i bit : Nat} (hi : i < s.mmapSz) (hbit : bit < 8)
    (hcnt : 0 < cnt) (hfull : byteFull s i = true) : pmmTryResv s (i * 8 + bit) cnt = none := by
  have hsz := hs.bits_le
  rw [pmmTryResv_eq_none]
  rintro ⟨-, hclear⟩
  have hset := all_eq_true.mp hfull bit (mem_range.mpr hbit)
  have hmem : i * 8 + bit ∈ frameIdxs (i * 8 + bit) cnt := by
    rw [mem_frameIdxs]
    exact ⟨0, hcnt, by rw [Nat.mod_eq_of_lt (by omega)]; rfl⟩
  rw [hclear _ hmem] at hset
  cases hset

-- the scan of `pmm_falloc`: it skips full bytes and stops at the first success
theorem pmmFalloc_scan (hs : s.Valid) (cnt : Nat) :
    (∃ j s', j < 8 * s.mmapSz ∧ byteFull s (j / 8) = false ∧
      pmmTryResv s j (cnt % 2 ^ 32) = some s' ∧ pmmFalloc s cnt = (s', j * 4096 % 2 ^ 32) ∧
      ∀ k < j, byteFull s (k / 8) = false → pmmTryResv s k (cnt % 2 ^ 32) = none) ∨
    (pmmFalloc s cnt = (s, 0) ∧ ∀ k < 8 * s.mmapSz, byteFull s (k / 8) = false →
      pmmTryResv s k (cnt % 2 ^ 32) = none) := by
  unfold pmmFalloc
  rw [hs.memLow, hs.framesz]
  generalize hfound : List.findSome? _ (List.range s.mmapSz) = found
  -- the scan of a byte that is not full has tried each of its bits
  have hbyte : ∀ k, byteFull s (k / 8) = false →
      (if byteFull s (k / 8) then none else (List.range 8).findSome? fun bit =>
        (pmmTryResv s (k / 8 * 8 + bit) (cnt % 2 ^ 32)).map fun s' =>
          (s', 0 + (k / 8 * 8 + bit) * 4096 % 2 ^ 32)) = none →
      pmmTryResv s k (cnt % 2 ^ 32) = none := by
    intro k hk hscan
    rw [hk] at hscan
    have hbit := List.findSome?_eq_none_iff.mp hscan (k % 8)
      (mem_range.mpr (Nat.mod_lt _ (by decide)))
    rw [show k / 8 * 8 + k % 8 = k by omega] at hbit
    exact Option.map_eq_none_iff.mp hbit
  cases found with
  | some r =>
    left
    obtain ⟨i, hi, hfi, hbefore⟩ := findSome_range_spec hfound
    split_ifs at hfi with hfull
    obtain ⟨bit, hbit, hmap, hbits⟩ := findSome_range_spec hfi
    obtain ⟨s', hs', rfl⟩ := Option.map_eq_some_iff.mp hmap
    refine ⟨i * 8 + bit, s', by omega, ?_, hs', by simp, fun k hk hkfull => ?_⟩
    · rw [show (i * 8 + bit) / 8 = i by omega]
      simpa using hfull
    by_cases hki : i * 8 ≤ k
    · have hbit' := hbits (k - i * 8) (by omega)
      rw [Nat.add_sub_cancel' hki] at hbit'
      exact Option.map_eq_none_iff.mp hbit'
    · exact hbyte k hkfull (hbefore (k / 8) (by omega))
  | none =>
    right
    refine ⟨rfl, fun k hk hkfull => hbyte k hkfull ?_⟩
    exact List.findSome?_eq_none_iff.mp hfound (k / 8) (mem_range.mpr (by omega))

/-- `pmm_falloc` reserves at the first index where `pmm_try_resv` succeeds, if there is one. -/
theorem pmmFalloc_cases (hs : s.Valid) (cnt : Nat) :
    (∃ j s', j < 8 * s.mmapSz ∧ pmmTryResv s j (cnt % 2 ^ 32) = some s' ∧
      pmmFalloc s cnt = (s', j * 4096 % 2 ^ 32) ∧
      (0 < cnt % 2 ^ 32 → ∀ k < j, pmmTryResv s k (cnt % 2 ^ 32) = none)) ∨
    (pmmFalloc s cnt = (s, 0) ∧
      (0 < cnt % 2 ^ 32 → ∀ k < 8 * s.mmapSz, pmmTryResv s k (cnt % 2 ^ 32) = none)) := by
  have hfull : ∀ k < 8 * s.mmapSz, 0 < cnt % 2 ^ 32 → byteFull s (k / 8) = true →
      pmmTryResv s k (cnt % 2 ^ 32) = none := by
    intro k hk hcnt hkfull
    have := pmmTryResv_of_byteFull hs (show k / 8 < s.mmapSz by omega)
      (Nat.mod_lt k (show 0 < 8 by decide)) hcnt hkfull
    rwa [show k / 8 * 8 + k % 8 = k by omega] at this
  rcases pmmFalloc_scan hs cnt with ⟨j, s', hj, -, hres, heq, hfirst⟩ | ⟨heq, hnone⟩
  · refine Or.inl ⟨j, s', hj, hres, heq, fun hcnt k hk => ?_⟩
    cases hkfull : byteFull s (k / 8) with
    | true => exact hfull k (by omega) hcnt hkfull
    | false => exact hfirst k hk hkfull
  · refine Or.inr ⟨heq, fun hcnt k hk => ?_⟩
    cases hkfull : byteFull s (k / 8) with
    | true => exact hfull k hk hcnt hkfull
    | false => exact hnone k hk hkfull

theorem pmmFalloc_of_first (hs : s.Valid) (hpos : 0 < cnt) (hfree : s.RunFree j cnt)
    (hfirst : ∀ k < j, ¬ s.RunFree k cnt) : pmmFalloc s cnt =
      (s.withMap (mark s.mmap (frameIdxs j cnt) true), j * 4096 % 2 ^ 32) := by
  have hn := hs.nframes_lt
  have hend := hfree.1
  have hsz := hs.bits_le
  have hcnt : cnt % 2 ^ 32 = cnt := Nat.mod_eq_of_lt (by omega)
  have hcases := pmmFalloc_cases hs cnt
  rw [hcnt] at hcases
  rcases hcases with ⟨k, s', hk, hres, heq, hbefore⟩ | ⟨-, hnone⟩
  · have hkj : k ≤ j := by
      by_contra hlt
      exact (pmmTryResv_isNone_iff (by omega)).mp (hbefore hpos j (by omega)) hfree
    have hkfree : s.RunFree k cnt := by
      by_contra hnot
      rw [(pmmTryResv_isNone_iff (by omega)).mpr hnot] at hres
      cases hres
    have hkeq : k = j := by
      by_contra hne
      exact hfirst k (by omega) hkfree
    subst hkeq
    obtain ⟨-, -, rfl⟩ := pmmTryResv_eq_some.mp hres
    exact heq
  · exact absurd hfree ((pmmTryResv_isNone_iff (by omega)).mp (hnone hpos j (by omega)))

/-- `pmm_falloc` takes and returns the first run of `cnt` free frames, if there is one. -/
def PmmState.FirstFit (s : PmmState) (cnt : Nat) : Prop :=
  (∃ j, s.RunFree j cnt ∧ (∀ k < j, ¬ s.RunFree k cnt) ∧ j ≠ 0 ∧ pmmFalloc s cnt =
    (s.withMap fun f => s.mmap f || decide (InRange (j, cnt) f), 4096 * j)) ∨
  (∀ j, ¬ s.RunFree j cnt) ∧ pmmFalloc s cnt = (s, 0)

theorem pmmFalloc_firstFit (hs : s.Valid) (hn : s.nframes ≤ 2 ^ 20) (hzero : s.mmap 0 = true)
    (hpos : 1 ≤ cnt) (hcnt : cnt < 2 ^ 31) : s.FirstFit cnt := by
  classical
  by_cases hrun : ∃ j, s.RunFree j cnt
  · left
    have hfree := Nat.find_spec hrun
    have hfirst : ∀ k < Nat.find hrun, ¬ s.RunFree k cnt := fun _ => Nat.find_min hrun
    generalize Nat.find hrun = j at hfree hfirst
    have hend := hfree.1
    refine ⟨j, hfree, hfirst, ?_, ?_⟩
    · rintro rfl
      have hclear := hfree.2 0 (by omega)
      rw [hzero] at hclear
      cases hclear
    · -- below 4 GiB the address does not wrap
      rw [pmmFalloc_of_first hs hpos hfree hfirst, Nat.mod_eq_of_lt (by omega), Nat.mul_comm]
      congr 2
      ext f
      simp only [mark_apply, mem_frameIdxs_of_le (show j + cnt ≤ 2 ^ 32 by omega)]
      by_cases hf : InRange (j, cnt) f <;> simp [hf]
  · right
    rw [not_exists] at hrun
    have hsz := hs.mmapSz
    unfold mmapSzOf at hsz
    have hcases := pmmFalloc_cases hs cnt
    rw [Nat.mod_eq_of_lt (by omega)] at hcases
    rcases hcases with ⟨j, s', hj, hres, -⟩ | ⟨heq, -⟩
    · rw [(pmmTryResv_isNone_iff (by split at hsz <;> omega)).mpr (hrun j)] at hres
      cases hres
    · exact ⟨hrun, heq⟩

-- frames 1 and 2 are free
def threeFrames : PmmState := ⟨0x3000, 0, 3, 4096, 1, fun f => decide (f ≠ 1 ∧ f ≠ 2)⟩

theorem pmmFalloc_firstFit_two : threeFrames.FirstFit 2 := by
  refine pmmFalloc_firstFit ⟨rfl, rfl, by decide, by decide, rfl, fun i hi _ => ?_⟩
    (by decide) (by decide) (by decide) (by decide)
  have hle : 3 ≤ i := hi
  exact decide_eq_true (by omega)

theorem pmmFfree_mmap (hs : s.Valid) (hend : j + cnt ≤ s.nframes) (f : Nat) :
    (pmmFfree s (j * 4096) cnt).mmap f = if InRange (j, cnt) f then false else s.mmap f := by
  have hn := hs.nframes_lt
  have hhigh := hs.nframes_le
  by_cases hzero : cnt = 0
  · have hout : ¬ InRange (j, cnt) f := by
      simp only [InRange]
      omega
    rw [pmmFfree, if_pos (Or.inr (Or.inr hzero)), if_neg hout]
  · have hkeep : ¬ (j * 4096 < s.memLow ∨ s.memHigh ≤ j * 4096 ∨ cnt = 0) := by
      rw [hs.memLow]
      omega
    have hstidx : (j * 4096 - s.memLow) / s.framesz % 2 ^ 32 = j := by
      rw [hs.memLow, hs.framesz, Nat.sub_zero, Nat.mul_div_cancel _ (by decide),
        Nat.mod_eq_of_lt (by omega)]
    have hall : ∀ g ∈ frameIdxs j cnt, decide (g < s.nframes) = true := by
      intro g hg
      obtain ⟨-, hhi⟩ := (mem_frameIdxs_of_le (by omega)).mp hg
      exact decide_eq_true (by omega)
    rw [pmmFfree, if_neg hkeep]
    simp only
    rw [hstidx, takeWhile_eq_self_iff.mpr hall, mark_apply]
    simp only [mem_frameIdxs_of_le (show j + cnt ≤ 2 ^ 32 by omega)]

/-! ## Low frames

An allocator whose free frames all lie below 4 GiB computes the addresses of frames correctly. -/

structure PmmState.LowFree (s : PmmState) : Prop where
  valid : s.Valid
  below : ∀ f, s.mmap f = false → f < 2 ^ 20 ∧ f < s.nframes

theorem PmmState.LowFree.withMap (hs : s.LowFree) (hbits : ∀ i, mmap i = false → s.mmap i = false) :
    (s.withMap mmap).LowFree := by
  constructor
  · apply hs.valid.withMap
    intro i _ hset
    by_contra hclear
    rw [hbits i (by simpa using hclear)] at hset
    cases hset
  · intro f hf
    exact hs.below f (hbits f hf)

theorem mark_true_eq_false {b : Nat → Bool} {l : List Nat} {i : Nat}
    (h : mark b l true i = false) : b i = false ∧ i ∉ l := by
  rw [mark_apply] at h
  split_ifs at h with hmem
  exact ⟨h, hmem⟩

theorem PmmState.LowFree.pmmFalloc (hs : s.LowFree) (cnt : Nat) : (Mem.pmmFalloc s cnt).1.LowFree ∧
      ∀ f, (Mem.pmmFalloc s cnt).1.mmap f = false → s.mmap f = false := by
  rcases pmmFalloc_cases hs.valid cnt with ⟨j, s', -, hres, heq, -⟩ | ⟨heq, -⟩
  · obtain ⟨-, -, rfl⟩ := pmmTryResv_eq_some.mp hres
    rw [heq]
    exact ⟨hs.withMap fun i hi => (mark_true_eq_false hi).1, fun i hi => (mark_true_eq_false hi).1⟩
  · rw [heq]
    exact ⟨hs, fun _ h => h⟩

theorem PmmState.LowFree.pmmFalloc_one (hs : s.LowFree) (hnull : (Mem.pmmFalloc s 1).2 ≠ 0) :
    ∃ f, 0 < f ∧ s.mmap f = false ∧ (Mem.pmmFalloc s 1).2 = f * 4096 ∧
      ∀ g, (Mem.pmmFalloc s 1).1.mmap g = false → g ≠ f := by
  rcases pmmFalloc_cases hs.valid 1 with ⟨j, s', hlt, hres, heq, -⟩ | ⟨heq, -⟩
  · obtain ⟨-, hclear, rfl⟩ := pmmTryResv_eq_some.mp hres
    have hsz := hs.valid.bits_le
    have hmem : j ∈ frameIdxs j (1 % 2 ^ 32) := (mem_frameIdxs_of_le (by omega)).mpr
      ⟨le_refl _, by simp⟩
    have hj := hs.below j (hclear j hmem)
    rw [heq] at hnull ⊢
    have haddr : j * 4096 % 2 ^ 32 = j * 4096 := Nat.mod_eq_of_lt (by omega)
    rw [haddr] at hnull ⊢
    refine ⟨j, by omega, hclear j hmem, rfl, fun g hg hgj => ?_⟩
    exact (mark_true_eq_false hg).2 (hgj ▸ hmem)
  · rw [heq] at hnull
    exact absurd rfl hnull

theorem PmmState.LowFree.pmmFalloc_eq_zero (hs : s.LowFree) (hcnt : 2 ^ 20 ≤ cnt % 2 ^ 32) :
    (Mem.pmmFalloc s cnt).2 = 0 := by
  rcases pmmFalloc_cases hs.valid cnt with ⟨j, s', hj, hres, heq, -⟩ | ⟨heq, -⟩
  · obtain ⟨-, hclear, -⟩ := pmmTryResv_eq_some.mp hres
    have hsz := hs.valid.bits_le
    -- frame `2 ^ 20` would be part of a run that starts later than frame 0
    by_cases hzero : j = 0
    · rw [heq, hzero]
      rfl
    exfalso
    have hfirst := hs.below j (hclear j (mem_frameIdxs.mpr
      ⟨0, by omega, by rw [Nat.mod_eq_of_lt (by omega)]; rfl⟩))
    have hlast := hs.below (2 ^ 20) (hclear _ (mem_frameIdxs.mpr
      ⟨2 ^ 20 - j, by omega, by rw [Nat.mod_eq_of_lt (by omega)]; omega⟩))
    omega
  · rw [heq]

/-! ## Runs -/

/-- The allocator with the ranges handed out and not given back, as address and frame count. -/
structure PmmRun where
  st : PmmState
  live : List (Nat × Nat)

open PmmRun

inductive PmmOp
  | falloc (cnt : Nat)
  | ffree (ptr cnt : Nat)

/-- `NULL` is no allocation, and a free gives back a range that is held. -/
def PmmRun.Step (r : PmmRun) : PmmOp → PmmRun → Prop
  | .falloc cnt, r' => cnt < 2 ^ 64 ∧
      r' = { st := (pmmFalloc r.st cnt).1
             live := if (pmmFalloc r.st cnt).2 = 0 then r.live
               else ((pmmFalloc r.st cnt).2, cnt) :: r.live }
  | .ffree ptr cnt, r' => (ptr, cnt) ∈ r.live ∧
      r' = { st := pmmFfree r.st ptr cnt, live := r.live.erase (ptr, cnt) }

/-- Boot on a memory map whose number of frames fits `nframes`. -/
def PmmRun.Init (r : PmmRun) : Prop :=
  (∃ entries mem, pmmInit entries mem = some r.st ∧ memHighOf entries / 4096 < 2 ^ 32) ∧
    r.live = []

/-- The live byte ranges are disjoint and lie in physical memory. -/
structure PmmRun.Safe (r : PmmRun) : Prop where
  disjoint : (r.live.map fun a => (a.1, 4096 * a.2)).Pairwise Apart
  inside : ∀ a ∈ r.live, r.st.memLow ≤ a.1 ∧ a.1 + 4096 * a.2 ≤ r.st.memHigh

/-- The requests that are served from the frames below 4 GiB: a run of free frames starts there,
or there is none at all and the `u32` sum of index and count cannot wrap into an accepted one. -/
def PmmRun.Low (r : PmmRun) : PmmOp → Prop
  | .falloc cnt => cnt = 0 ∨ (cnt < 2 ^ 32 ∧
      ((∃ j < 2 ^ 20, r.st.RunFree j cnt) ∨
        ((∀ j, ¬ r.st.RunFree j cnt) ∧
          (8 * r.st.mmapSz + cnt ≤ 2 ^ 32 ∨ r.st.nframes % 8 ≠ 0))))
  | .ffree _ _ => True

/-- The live ranges come from ranges of frames that the bitmap has taken. -/
structure PmmRun.Accounted (r : PmmRun) : Prop where
  valid : r.st.Valid
  held : ∃ frames : List (Nat × Nat), r.live = frames.map (fun f => (f.1 * 4096, f.2)) ∧
    Held r.st.mmap frames ∧ ∀ f ∈ frames, f.1 + f.2 ≤ r.st.nframes

namespace PmmRun

variable {cnt : Nat} {r r' : PmmRun}

theorem accounted_of_init (hinit : r.Init) : r.Accounted := by
  obtain ⟨⟨entries, mem, hinit, -⟩, hlive⟩ := hinit
  exact ⟨pmmInit_valid hinit, [], by simp [hlive], Held.nil _, by simp⟩

theorem Accounted.safe (hr : r.Accounted) : r.Safe := by
  obtain ⟨frames, hlive, hheld, hfit⟩ := hr.held
  constructor
  · rw [hlive, map_map, pairwise_map]
    apply hheld.apart.imp
    intro f g hfg a ha ha'
    -- a shared byte lies in a shared frame
    simp only [InRange, Function.comp_apply] at ha ha'
    apply hfg (a / 4096)
    · exact ⟨by omega, by omega⟩
    · exact ⟨by omega, by omega⟩
  · intro a ha
    rw [hlive, mem_map] at ha
    obtain ⟨f, hf, rfl⟩ := ha
    have hmem := hfit f hf
    have hhigh := hr.valid.nframes_le
    rw [hr.valid.memLow]
    refine ⟨Nat.zero_le _, ?_⟩
    calc f.1 * 4096 + 4096 * f.2 = (f.1 + f.2) * 4096 := by ring
      _ ≤ r.st.nframes * 4096 := Nat.mul_le_mul_right _ hmem
      _ ≤ r.st.memHigh := hhigh

/-! ### Allocation -/

-- under the condition an accepted index is that of a free run below 4 GiB
theorem runFree_of_low (hr : r.st.Valid) {s' : PmmState} (hpos : 0 < cnt)
    (hlow : r.Low (.falloc cnt)) (hj : j < 8 * r.st.mmapSz)
    (hres : pmmTryResv r.st j (cnt % 2 ^ 32) = some s')
    (hfirst : ∀ k < j, pmmTryResv r.st k (cnt % 2 ^ 32) = none) :
    r.st.RunFree j cnt ∧ j < 2 ^ 20 ∧ cnt < 2 ^ 32 := by
  have hn := hr.nframes_lt
  rcases hlow with hzero | ⟨hcnt, hrun⟩
  · omega
  rw [Nat.mod_eq_of_lt hcnt] at hres hfirst
  rcases hrun with ⟨k, hk, hfree⟩ | ⟨hnone, hwrap⟩
  · -- the scan stops at `k` at the latest, so no sum up to there wraps
    have hend := hfree.1
    have hjk : j ≤ k := by
      by_contra hlt
      exact (pmmTryResv_isNone_iff (by omega)).mp (hfirst k (by omega)) hfree
    have hjfree : r.st.RunFree j cnt := by
      by_contra hnot
      rw [(pmmTryResv_isNone_iff (by omega)).mpr hnot] at hres
      cases hres
    exact ⟨hjfree, by omega, hcnt⟩
  · exfalso
    by_cases hsum : j + cnt < 2 ^ 32
    · rw [(pmmTryResv_isNone_iff hsum).mpr (hnone j)] at hres
      cases hres
    rcases hwrap with hwrap | hpad
    · omega
    -- the wrapped run contains the frames past the last one, whose bits are set
    obtain ⟨-, hclear, -⟩ := pmmTryResv_eq_some.mp hres
    have hsz := hr.mmapSz
    unfold mmapSzOf at hsz
    rw [if_pos hpad] at hsz
    have hf : 8 * r.st.mmapSz - 1 ∈ frameIdxs j cnt := by
      rw [mem_frameIdxs]
      exact ⟨8 * r.st.mmapSz - 1 - j, by omega, by
        rw [Nat.mod_eq_of_lt (by omega)]; omega⟩
    have hset := hr.padding (8 * r.st.mmapSz - 1) (by omega) (by omega)
    rw [hclear _ hf] at hset
    cases hset

theorem Accounted.falloc (hr : r.Accounted) (hlow : r.Low (.falloc cnt))
    (hstep : r.Step (.falloc cnt) r') : r'.Accounted := by
  obtain ⟨-, rfl⟩ := hstep
  obtain ⟨frames, hlive, hheld, hfit⟩ := hr.held
  rcases pmmFalloc_cases hr.valid cnt with ⟨j, s', hj, hres, heq, hfirst⟩ | ⟨heq, -⟩
  · have hvalid := hr.valid.resvOrKeep j (cnt % 2 ^ 32)
    rw [Mem.resvOrKeep, hres] at hvalid
    obtain ⟨hbound, hclear, hs'⟩ := pmmTryResv_eq_some.mp hres
    have hbits : ∀ i, r.st.mmap i = true → s'.mmap i = true := by
      intro i hi
      rw [hs', withMap_mmap, mark_apply, hi]
      split <;> rfl
    have hnframes : s'.nframes = r.st.nframes := by rw [hs']; rfl
    rw [heq]
    refine ⟨hvalid, ?_⟩
    simp only
    split_ifs with hnull
    · -- frame 0 is taken but reads as NULL
      exact ⟨frames, hlive, hheld.mono hbits, by rw [hnframes]; exact hfit⟩
    by_cases hpos : 0 < cnt
    · have hcases := runFree_of_low hr.valid hpos hlow hj hres (hfirst (by
        rcases hlow with hzero | ⟨hcnt, -⟩
        · omega
        · rwa [Nat.mod_eq_of_lt hcnt]))
      obtain ⟨hfree, hj20, hcnt⟩ := hcases
      have hn := hr.valid.nframes_lt
      have hend := hfree.1
      have hidx : ∀ i, i ∈ frameIdxs j (cnt % 2 ^ 32) ↔ InRange (j, cnt) i := by
        intro i
        rw [Nat.mod_eq_of_lt hcnt]
        exact mem_frameIdxs_of_le (by omega)
      refine ⟨(j, cnt) :: frames, ?_, ?_, ?_⟩
      · rw [map_cons, ← hlive, Nat.mod_eq_of_lt (by omega)]
      · apply hheld.take _ _ hbits
        · intro i hi
          exact hclear i ((hidx i).mpr hi)
        · intro i hi
          rw [hs', withMap_mmap, mark_apply, if_pos ((hidx i).mpr hi)]
      · intro f hf
        rw [hnframes]
        rcases mem_cons.mp hf with rfl | hf
        · exact hend
        · exact hfit f hf
    · -- an empty range meets nothing
      have hzero : cnt = 0 := by omega
      refine ⟨(j % 2 ^ 20, 0) :: frames, ?_, ?_, ?_⟩
      · rw [map_cons]
        congr 2
        omega
      · apply hheld.take _ _ hbits
        · rintro i ⟨hlo, hhi⟩
          omega
        · rintro i ⟨hlo, hhi⟩
          omega
      · intro f hf
        rw [hnframes]
        rcases mem_cons.mp hf with rfl | hf
        · omega
        · exact hfit f hf
  · rw [heq]
    exact ⟨hr.valid, frames, by simpa using hlive, hheld, hfit⟩

/-! ### Release -/

theorem Accounted.ffree (hr : r.Accounted) {ptr : Nat} (hstep : r.Step (.ffree ptr cnt) r') :
    r'.Accounted := by
  obtain ⟨hmem, rfl⟩ := hstep
  obtain ⟨frames, hlive, hheld, hfit⟩ := hr.held
  have hinj : Function.Injective fun f : Nat × Nat => (f.1 * 4096, f.2) := by
    rintro ⟨a, b⟩ ⟨c, d⟩ h
    simp only [Prod.mk.injEq] at h ⊢
    omega
  rw [hlive, mem_map] at hmem
  obtain ⟨f, hf, hfeq⟩ := hmem
  obtain ⟨rfl, rfl⟩ := hfeq
  have hend := hfit f hf
  refine ⟨hr.valid.pmmFfree _ _, frames.erase f, ?_, ?_, ?_⟩
  · rw [map_erase hinj, hlive]
  · -- no bit outside the range of `f` changes
    apply hheld.give hf
    intro i hi
    rw [pmmFfree_mmap hr.valid hend, if_neg hi]
  · intro g hg
    have hsame : (Mem.pmmFfree r.st (f.1 * 4096) f.2).nframes = r.st.nframes := by
      unfold Mem.pmmFfree
      split <;> rfl
    rw [hsame]
    exact hfit g (mem_of_mem_erase hg)

theorem Accounted.step {op : PmmOp} (hr : r.Accounted) (hlow : r.Low op) (hstep : r.Step op r') :
    r'.Accounted := by
  cases op with
  | falloc cnt => exact hr.falloc hlow hstep
  | ffree ptr cnt => exact hr.ffree hstep

end PmmRun

/-- In every run in which each request is served below 4 GiB, the live ranges are disjoint and
inside physical memory. -/
theorem live_safe_of_low {r : PmmRun} (hreach : Reach Init Step Low r) : r.Safe := by
  have hr : r.Accounted := hreach.invariant (fun _ => accounted_of_init) fun _ _ _ hr hlow hstep =>
      hr.step hlow hstep
  exact hr.safe

/-- The machine after boot with 16 usable frames from frame 1 on. -/
def bootSmall : PmmRun where
  st := (pmmInit [⟨0x1000, 0x10000, true⟩] fun _ => true).getD (allTaken 0 fun _ => true)
  live := []

theorem bootSmall_init : bootSmall.Init := by
  refine ⟨⟨[⟨0x1000, 0x10000, true⟩], fun _ => true, ?_, by decide⟩, rfl⟩
  unfold bootSmall
  have hsome : (pmmInit [⟨0x1000, 0x10000, true⟩] fun _ => true).isSome := by decide
  obtain ⟨s, hs⟩ := Option.isSome_iff_exists.mp hsome
  simp only [hs, Option.getD_some]

theorem reach_falloc {r : PmmRun} {cnt : Nat} (h : Reach Init Step Low r) (hcnt : cnt < 2 ^ 64)
    (hlow : r.Low (.falloc cnt)) : Reach Init Step Low
      { st := (pmmFalloc r.st cnt).1
        live := if (pmmFalloc r.st cnt).2 = 0 then r.live
          else ((pmmFalloc r.st cnt).2, cnt) :: r.live } := by
  have hstep : r.Step (.falloc cnt) _ := ⟨hcnt, rfl⟩
  exact h.next hstep hlow

-- one frame and then two
theorem live_safe_after_two : ∃ r : PmmRun, r.live = [(0x3000, 2), (0x2000, 1)] ∧ r.Safe := by
  have h1 := reach_falloc (.start bootSmall_init) (show 1 < 2 ^ 64 by decide)
    (Or.inr ⟨by decide, Or.inl ⟨2, by decide, by decide, by decide⟩⟩)
  have h2 := reach_falloc h1 (show 2 < 2 ^ 64 by decide)
    (Or.inr ⟨by decide, Or.inl ⟨3, by decide, by decide, by decide⟩⟩)
  exact ⟨_, by decide, live_safe_of_low h2⟩

/-! ## A machine with one free frame below 4 GiB and one above -/

/-- 34 frames at 1 MiB, 33 of which hold the bitmap, and frame `2 ^ 20 + 289`. -/
def splitMap : List MemmapEntry :=
  [⟨0x100000, 0x22000, true⟩, ⟨0x100121000, 0x1000, true⟩]

theorem resvOrKeep_of_runFree (hs : s.Valid) (hfree : s.RunFree j cnt) :
    resvOrKeep s j cnt = s.withMap (mark s.mmap (frameIdxs j cnt) true) := by
  have hn := hs.nframes_lt
  have hend := hfree.1
  cases hres : pmmTryResv s j cnt with
  | none => exact absurd hfree ((pmmTryResv_isNone_iff (by omega)).mp hres)
  | some s' =>
    obtain ⟨-, -, rfl⟩ := pmmTryResv_eq_some.mp hres
    rw [resvOrKeep, hres, Option.getD_some]

theorem resvOrKeep_of_not_runFree (hle : j + cnt < 2 ^ 32) (hfree : ¬ s.RunFree j cnt) :
    resvOrKeep s j cnt = s := by
  rw [resvOrKeep, (pmmTryResv_isNone_iff hle).mpr hfree, Option.getD_none]

theorem splitMap_boot :
    ∃ s, pmmInit splitMap (fun _ => true) = some s ∧ s.nframes = 0x100122 ∧
      ∀ f, s.mmap f = false ↔ f = 289 ∨ f = 0x100121 := by
  -- the states of boot: all taken, the two entries freed, the bitmap reserved
  let s0 := allTaken 0x100122000 fun _ => true
  let s1 := pmmFfree s0 (256 * 4096) 34
  let s2 := pmmFfree s1 (0x100121 * 4096) 1
  have hv0 : s0.Valid := allTaken_valid _ _
  have hv1 : s1.Valid := hv0.pmmFfree _ _
  have hv2 : s2.Valid := hv1.pmmFfree _ _
  have hn1 : s1.nframes = 0x100122 := rfl
  have hn2 : s2.nframes = 0x100122 := rfl
  have hbits2 : ∀ f, s2.mmap f = false ↔ InRange (256, 34) f ∨ f = 0x100121 := by
    intro f
    have h0 : s0.mmap f = true := by simp [s0, allTaken]
    rw [pmmFfree_mmap hv1 (by rw [hn1]), pmmFfree_mmap hv0 (by decide), h0]
    by_cases hhi : InRange (0x100121, 1) f
    · rw [if_pos hhi]
      simp only [InRange] at hhi
      simp only [true_iff]
      omega
    · rw [if_neg hhi]
      have hne : f ≠ 0x100121 := by
        simp only [InRange] at hhi
        omega
      by_cases hlo : InRange (256, 34) f
      · simp [hlo]
      · simp [hlo, hne]
  have hfree : s2.RunFree 256 33 := by
    refine ⟨by rw [hn2]; decide, fun i hi => ?_⟩
    rw [hbits2]
    simp only [InRange]
    omega
  have hbits3 : ∀ f, (s2.withMap (mark s2.mmap (frameIdxs 256 33) true)).mmap f = false ↔
      f = 289 ∨ f = 0x100121 := by
    intro f
    rw [withMap_mmap, mark_apply]
    simp only [mem_frameIdxs_of_le (show 256 + 33 ≤ 2 ^ 32 by decide)]
    split_ifs with hin
    · simp only [InRange] at hin
      simp only [false_iff]
      omega
    · rw [hbits2]
      simp only [InRange] at hin ⊢
      omega
  have hlow : ¬ (s2.withMap (mark s2.mmap (frameIdxs 256 33) true)).RunFree 8 1 := by
    intro h
    have := (hbits3 8).mp (h.2 0 (by decide))
    omega
  refine ⟨_, ?_, ?_, hbits3⟩
  · have hboot : pmmInit splitMap (fun _ => true) =
        some (resvOrKeep (resvOrKeep s2 256 33) 8 1) := rfl
    rw [hboot, resvOrKeep_of_runFree hv2 hfree, resvOrKeep_of_not_runFree (by decide) hlow]
  · exact hn2

/-- The machine after boot, and after one frame has been requested. -/
theorem splitMap_first :
    ∃ r r' : PmmRun, r.Init ∧ r.Step (.falloc 1) r' ∧ r'.st.Valid ∧
      r'.live = [(0x121000, 1)] ∧ r'.st.nframes = 0x100122 ∧
      ∀ f, r'.st.mmap f = false ↔ f = 0x100121 := by
  obtain ⟨s, hboot, hn, hbits⟩ := splitMap_boot
  have hv := pmmInit_valid hboot
  have hfree : s.RunFree 289 1 := by
    refine ⟨by rw [hn]; decide, fun i hi => ?_⟩
    exact (hbits _).mpr (by omega)
  have hfirst : ∀ k < 289, ¬ s.RunFree k 1 := by
    intro k hk hrun
    have := (hbits (k + 0)).mp (hrun.2 0 (by decide))
    omega
  have halloc := pmmFalloc_of_first hv (by decide) hfree hfirst
  have hv' := hv.resvOrKeep 289 1
  rw [resvOrKeep_of_runFree hv hfree] at hv'
  refine ⟨⟨s, []⟩, _, ⟨⟨splitMap, _, hboot, by decide⟩, rfl⟩, ⟨by decide, rfl⟩, ?_⟩
  rw [halloc]
  refine ⟨hv', rfl, hn, fun f => ?_⟩
  rw [withMap_mmap, mark_apply]
  simp only [mem_frameIdxs_of_le (show 289 + 1 ≤ 2 ^ 32 by decide)]
  by_cases hin : InRange (289, 1) f
  · rw [if_pos hin]
    simp only [InRange] at hin
    simp only [Bool.true_eq_false, false_iff]
    omega
  · rw [if_neg hin, hbits]
    simp only [InRange] at hin
    omega

/-- The second request is served by frame `2 ^ 20 + 289`, whose address wraps to that of frame
289. -/
theorem high_frame_handed_out_twice :
    ∃ r : PmmRun, Reach Init Step (fun _ _ => True) r ∧
      r.live = [(0x121000, 1), (0x121000, 1)] ∧ ¬ r.Safe := by
  obtain ⟨r, r', hinit, hstep, hv, hlive, hn, hbits⟩ := splitMap_first
  have hfree : r'.st.RunFree 0x100121 1 := by
    refine ⟨by rw [hn], fun i hi => ?_⟩
    exact (hbits _).mpr (by omega)
  have hfirst : ∀ k < 0x100121, ¬ r'.st.RunFree k 1 := by
    intro k hk hrun
    have := (hbits (k + 0)).mp (hrun.2 0 (by decide))
    omega
  have halloc := pmmFalloc_of_first hv (by decide) hfree hfirst
  have hsecond : r'.Step (.falloc 1) ⟨(pmmFalloc r'.st 1).1, (0x121000, 1) :: r'.live⟩ := by
    refine ⟨by decide, ?_⟩
    rw [halloc]
    rfl
  refine ⟨_, ((Reach.start hinit).next hstep trivial).next hsecond trivial, by rw [hlive], ?_⟩
  intro hsafe
  have hdisjoint := hsafe.disjoint
  simp only [hlive, map_cons, pairwise_cons] at hdisjoint
  exact hdisjoint.1 (0x121000, 4096 * 1) (by simp) 0x121000 (by decide) (by decide)

end Mem
