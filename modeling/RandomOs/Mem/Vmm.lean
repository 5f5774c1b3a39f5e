import RandomOs.Kern.Errno
import RandomOs.Mem.PageMap
import RandomOs.Mem.Pmm
import RandomOs.Mem.Regions

/-!
# Mapping and unmapping pages (`vmm.c`)

The functions change the tables of one address space, draw frames for pages and tables from the
frame allocator, and record kernel mappings in the region list.  `none` stands for a call that does
not return: `alloctblpg` found no frame and its `NULL` is dereferenced.
-/

namespace Mem

open Kern

structure VmmState where
  mem : TableMem
  /-- the root of the running address space -/
  cr3 : Nat
  /-- the kernel's own root, the static `pml4` -/
  pml4 : Nat
  pmm : PmmState
  regions : VmmRegions
  /-- `current_pid` -/
  pid : Nat

namespace VmmState

/-! ## Model -/

def withMem (s : VmmState) (mem : TableMem) : VmmState := { s with mem := mem }
def withPmm (s : VmmState) (pmm : PmmState) : VmmState := { s with pmm := pmm }

@[simp] theorem withMem_mem (s : VmmState) (mem : TableMem) : (s.withMem mem).mem = mem := rfl

/-- `alloctblpg`; tables are named by their physical address. -/
def alloctblpg (s : VmmState) : Option (VmmState × Nat) :=
  let (pmm, page) := pmmFalloc s.pmm 1
  if page = 0 then none else some ((s.withPmm pmm).withMem (zeroTable s.mem page), page)

/-- One level of `vmm_map_page`: the table behind an entry, allocated when there is none. -/
def nextTable (s : VmmState) (table idx : Nat) : Option (VmmState × Nat) :=
  if present (s.mem table idx) then some (s, pageBase (s.mem table idx))
  else
    match s.alloctblpg with
    | none => none
    | some (s, page) => some (s.withMem (setEntry s.mem table idx (tableEntry page)), page)

/-- The first level: a new entry of the upper half is copied to the kernel's root. -/
def nextPdpt (s : VmmState) (pml4v virt : Nat) : Option (VmmState × Nat) :=
  if present (s.mem pml4v (pml4Idx virt)) then some (s, pageBase (s.mem pml4v (pml4Idx virt)))
  else
    match s.nextTable pml4v (pml4Idx virt) with
    | none => none
    | some (s, page) =>
      if s.pml4 ≠ pml4v ∧ 256 ≤ pml4Idx virt then
        some (s.withMem (setEntry s.mem s.pml4 (pml4Idx virt) (s.mem pml4v (pml4Idx virt))), page)
      else some (s, page)

/-- `vmm_map_page`. -/
def vmmMapPage (s : VmmState) (pml4v virt phys flg : Nat) : Option VmmState :=
  match s.nextPdpt pml4v virt with
  | none => none
  | some (s, pdpt) =>
    match s.nextTable pdpt (pdptIdx virt) with
    | none => none
    | some (s, pd) =>
      match s.nextTable pd (pdIdx virt) with
      | none => none
      | some (s, pt) =>
        some (s.withMem (setEntry s.mem pt (ptIdx virt) (pageBase phys ||| flg ||| 1)))

/-- The loop that maps `n` consecutive frames, from page `i` on. -/
def mapFrames (pml4v vst pst flg : Nat) : Nat → Nat → VmmState → Option VmmState
  | 0, _, s => some s
  | n + 1, i, s =>
    match s.vmmMapPage pml4v ((vst + i * 4096) % 2 ^ 64) ((pst + i * 4096) % 2 ^ 64) flg with
    | none => none
    | some s => mapFrames pml4v vst pst flg n (i + 1) s

/-- The loop that maps `n` frames allocated one by one; `false` when the frames run out. -/
def mapFresh (pml4v vst flg : Nat) : Nat → Nat → VmmState → Option (VmmState × Bool)
  | 0, _, s => some (s, true)
  | n + 1, i, s =>
    let (pmm, page) := pmmFalloc s.pmm 1
    if page = 0 then some (s.withPmm pmm, false)
    else
      match (s.withPmm pmm).vmmMapPage pml4v ((vst + i * 4096) % 2 ^ 64) page flg with
      | none => none
      | some s => mapFresh pml4v vst flg n (i + 1) s

/-- The frames behind the pages, in the three ways of `vmm_map_pages`. -/
def mapAt (s : VmmState) (pml4v vst pst pgcnt flg : Nat) : Option (VmmState × Nat) :=
  -- the flags without MAP_ANYPHYS, MAP_CONT, MAP_ANYVIRT and MAP_USRMAP
  let x86flgs := flg % 2 ^ 60
  if flg.testBit 60 then
    if flg.testBit 61 then
      let (pmm, bphys) := pmmFalloc s.pmm pgcnt
      if bphys = 0 then some (s.withPmm pmm, 0)
      else (mapFrames pml4v vst bphys x86flgs pgcnt 0 (s.withPmm pmm)).map fun s => (s, vst)
    else
      (mapFresh pml4v vst x86flgs pgcnt 0 s).map fun (s, done) => (s, if done then vst else 0)
  else (mapFrames pml4v vst pst x86flgs pgcnt 0 s).map fun s => (s, vst)

/-- `vmm_map_pages`: the state afterwards and the address, 0 for `NULL`. -/
def vmmMapPages (s : VmmState) (pml4v vst pst pgcnt flg : Nat) : Option (VmmState × Nat) :=
  if flg.testBit 62 then
    -- `flg & MAP_USRMAP` is passed as an `int`
    let user := decide ((flg &&& 2 ^ 63) % 2 ^ 32 ≠ 0)
    match s.regions.vmmFfreer s.pid pgcnt user with
    | none => none
    | some (regions, vaddr) =>
      let s := { s with regions := regions }
      if vaddr = 0 then some (s, 0) else s.mapAt pml4v vaddr pst pgcnt flg
  else if flg.testBit 63 ∧ (vst < (s.regions.umapr s.pid).vaddrBase ∨
      (s.regions.umapr s.pid).vaddrEnd < (vst + pgcnt * 4096) % 2 ^ 64) then some (s, 0)
  else s.mapAt pml4v vst pst pgcnt flg

/-- `is_table_empty`. -/
def isTableEmpty (mem : TableMem) (t : Nat) : Bool := (List.range 512).all fun i => mem t i == 0

/-- `vmm_unmap_page` from the lowest empty table upwards. -/
def reclaim (s : VmmState) (pml4v virt pdpt pd pt : Nat) : VmmState :=
  if !isTableEmpty s.mem pt then s
  else
    let s := (s.withPmm (pmmFfree s.pmm pt 1)).withMem (setEntry s.mem pd (pdIdx virt) 0)
    if !isTableEmpty s.mem pd then s
    else
      let s := (s.withPmm (pmmFfree s.pmm pd 1)).withMem (setEntry s.mem pdpt (pdptIdx virt) 0)
      if !isTableEmpty s.mem pdpt then s
      else (s.withPmm (pmmFfree s.pmm pdpt 1)).withMem (setEntry s.mem pml4v (pml4Idx virt) 0)

/-- The frame of an unmapped page is given back unless `UNMAP_KEEPPHYS` is set. -/
def dropFrame (s : VmmState) (flags pframe : Nat) : VmmState :=
  if flags.testBit 0 then s else s.withPmm (pmmFfree s.pmm pframe 1)

/-- `vmm_unmap_page` once the tables are found. -/
def unmapAt (s : VmmState) (pml4v virt flags pdpt pd pt : Nat) : VmmState :=
  let pframe := pageBase (s.mem pt (ptIdx virt))
  let s := (s.withMem (setEntry s.mem pt (ptIdx virt) 0)).dropFrame flags pframe
  -- tables of the upper half are shared by all address spaces
  if 256 ≤ pml4Idx virt then s else s.reclaim pml4v virt pdpt pd pt

/-- `vmm_unmap_page`. -/
def vmmUnmapPage (s : VmmState) (pml4v virt flags : Nat) : VmmState :=
  let pml4e := s.mem pml4v (pml4Idx virt)
  let pdpte := s.mem (pageBase pml4e) (pdptIdx virt)
  let pde := s.mem (pageBase pdpte) (pdIdx virt)
  if !present pml4e || !present pdpte || !present pde then s
  else s.unmapAt pml4v virt flags (pageBase pml4e) (pageBase pdpte) (pageBase pde)

/-- The first loop of `vmm_unmap_pages`. -/
def unmapLoop (pml4v vst flags : Nat) : Nat → Nat → VmmState → VmmState
  | 0, _, s => s
  | n + 1, i, s =>
    unmapLoop pml4v vst flags n (i + 1) (s.vmmUnmapPage pml4v ((vst + i * 4096) % 2 ^ 64) flags)

/-- `vmm_unmap_pages`. -/
def vmmUnmapPages (s : VmmState) (pml4v vst pgcnt flags : Nat) : Option VmmState :=
  let s := unmapLoop pml4v vst flags pgcnt 0 s
  (s.regions.vmmUnmapRegions vst pgcnt).map fun regions => { s with regions := regions }

/-- `vmm_setflgs` from page `i` on, with `n` pages to go. -/
def setflgsLoop (pml4v svirt flgs : Nat) : Nat → Nat → VmmState → VmmState × Int
  | 0, _, s => (s, 0)
  | n + 1, i, s =>
    let virt := (svirt + i * 4096) % 2 ^ 64
    let pml4e := s.mem pml4v (pml4Idx virt)
    let pdpte := s.mem (pageBase pml4e) (pdptIdx virt)
    let pde := s.mem (pageBase pdpte) (pdIdx virt)
    let pte := s.mem (pageBase pde) (ptIdx virt)
    if !present pml4e || !present pdpte || !present pde || !present pte then (s, -ENOEXIST)
    else
      setflgsLoop pml4v svirt flgs n (i + 1)
        (s.withMem (setEntry s.mem (pageBase pde) (ptIdx virt) (pageBase pte ||| flgs ||| 1)))

/-- `vmm_setflgs`. -/
def vmmSetflgs (s : VmmState) (pml4v svirt npgs flgs : Nat) : VmmState × Int :=
  setflgsLoop pml4v svirt flgs npgs 0 s

/-! ## Pages of the lower half -/

/-- The tables of the running address space are separated, and no free frame is one of them. -/
structure TreeOk (s : VmmState) : Prop where
  separated : Separated s.mem s.cr3
  low : s.pmm.LowFree
  fresh : ∀ f, s.pmm.mmap f = false → Unlinked s.mem s.cr3 (f * 4096)

/-- What a mapping call leaves alone. -/
structure Same (s s' : VmmState) : Prop where
  cr3 : s'.cr3 = s.cr3
  pml4 : s'.pml4 = s.pml4
  regions : s'.regions = s.regions
  pid : s'.pid = s.pid

theorem Same.refl (s : VmmState) : Same s s := ⟨rfl, rfl, rfl, rfl⟩

theorem same_withMem (s : VmmState) (mem : TableMem) : Same s (s.withMem mem) :=
  ⟨rfl, rfl, rfl, rfl⟩

theorem same_withPmm (s : VmmState) (pmm : PmmState) : Same s (s.withPmm pmm) :=
  ⟨rfl, rfl, rfl, rfl⟩

variable {s s' : VmmState} {t i root n virt flg vst : Nat} {mem : TableMem}

variable {c flags pdpt pd pt b v : Nat} {s'' : VmmState} {pmm : PmmState}

theorem Same.trans (h : Same s s') (h' : Same s' s'') : Same s s'' :=
  ⟨h'.cr3.trans h.cr3, h'.pml4.trans h.pml4, h'.regions.trans h.regions, h'.pid.trans h.pid⟩

/-- The free frames from 1 on. -/
def freeFrames (pmm : PmmState) : Finset Nat :=
  (Finset.range (2 ^ 20)).filter fun f => f ≠ 0 ∧ pmm.mmap f = false

theorem card_freeFrames_le (pmm : PmmState) : (freeFrames pmm).card ≤ 2 ^ 20 - 1 := by
  have hsub : freeFrames pmm ⊆ (Finset.range (2 ^ 20)).erase 0 := by
    intro f hf
    rw [freeFrames, Finset.mem_filter] at hf
    exact Finset.mem_erase.mpr ⟨hf.2.1, hf.1⟩
  have hcard := Finset.card_le_card hsub
  rwa [Finset.card_erase_of_mem (by simp), Finset.card_range] at hcard

theorem freeFrames_subset {pmm' : PmmState} (h : ∀ f, pmm'.mmap f = false → pmm.mmap f = false) :
    freeFrames pmm' ⊆ freeFrames pmm := by
  intro f hf
  rw [freeFrames, Finset.mem_filter] at hf ⊢
  exact ⟨hf.1, hf.2.1, h f hf.2.2⟩

-- each frame handed out is one free frame less
theorem card_freeFrames_pmmFalloc (hlow : pmm.LowFree) (hnull : (pmmFalloc pmm 1).2 ≠ 0) :
    (freeFrames (pmmFalloc pmm 1).1).card + 1 ≤ (freeFrames pmm).card := by
  obtain ⟨f, hpos, hclear, -, hother⟩ := hlow.pmmFalloc_one hnull
  have hmem : f ∈ freeFrames pmm := by
    rw [freeFrames, Finset.mem_filter, Finset.mem_range]
    exact ⟨(hlow.below f hclear).1, by omega, hclear⟩
  have hsub : freeFrames (pmmFalloc pmm 1).1 ⊆ (freeFrames pmm).erase f := by
    intro g hg
    apply Finset.mem_erase.mpr
    refine ⟨?_, freeFrames_subset (hlow.pmmFalloc 1).2 hg⟩
    rw [freeFrames, Finset.mem_filter] at hg
    exact hother g hg.2.2
  have hcard := Finset.card_le_card hsub
  rw [Finset.card_erase_of_mem hmem] at hcard
  have := Finset.card_pos.mpr ⟨f, hmem⟩
  omega

theorem nextTable_cases (h : s.nextTable t i = some (s', c)) :
    (present (s.mem t i) = true ∧ s' = s ∧ c = pageBase (s.mem t i)) ∨
    (present (s.mem t i) = false ∧ c = (pmmFalloc s.pmm 1).2 ∧ c ≠ 0 ∧
      s' = (s.withPmm (pmmFalloc s.pmm 1).1).withMem (linkTable s.mem t i c)) := by
  unfold VmmState.nextTable at h
  split at h
  · rename_i hpresent
    obtain ⟨rfl, rfl⟩ := Prod.mk.inj (Option.some.inj h)
    exact Or.inl ⟨hpresent, rfl, rfl⟩
  rename_i habsent
  unfold alloctblpg at h
  dsimp only at h
  by_cases hnull : (pmmFalloc s.pmm 1).2 = 0
  · rw [if_pos hnull] at h
    cases h
  · rw [if_neg hnull] at h
    obtain ⟨rfl, rfl⟩ := Prod.mk.inj (Option.some.inj h)
    exact Or.inr ⟨Bool.eq_false_of_not_eq_true habsent, rfl, hnull, rfl⟩

-- a present entry leads to the next table
theorem tableAt_of_entry (hn : n ≤ 2) (hhuge : NotHuge mem root virt)
    (ht : tableAt mem root n virt = some t) (hpresent : present (mem t (idxAt n virt)) = true) :
    tableAt mem root (n + 1) virt = some (pageBase (mem t (idxAt n virt))) := by
  have hlink : ¬ (n = 2 ∧ huge (mem t (idxAt n virt)) = true) := by
    rintro ⟨rfl, hset⟩
    rw [hhuge _ (entryAt_of_tableAt ht) hpresent] at hset
    cases hset
  rw [tableAt, ht, Option.bind_some, linkAt, if_neg hlink, if_pos hpresent]

/-- What one step towards the page table of `virt` gives: the table of the next level, with every
translation as before. -/
theorem TreeOk.nextTable (h : s.TreeOk) (hn : n ≤ 2) (hlow : idxAt 0 virt < 256)
    (ht : tableAt s.mem s.cr3 n virt = some t)
    (hnext : s.nextTable t (idxAt n virt) = some (s', c)) :
    s'.TreeOk ∧ Same s s' ∧ tableAt s'.mem s'.cr3 (n + 1) virt = some c ∧
      (∀ b, translate s'.mem s'.cr3 b = translate s.mem s.cr3 b) ∧
      ∀ f, s'.pmm.mmap f = false → s.pmm.mmap f = false := by
  have hsep := h.separated
  have hown := hsep.own hlow
  rcases nextTable_cases hnext with ⟨hpresent, rfl, rfl⟩ | ⟨habsent, rfl, hnull, rfl⟩
  · exact ⟨h, Same.refl s', tableAt_of_entry hn (hsep.notHuge virt hlow) ht hpresent,
      fun _ => rfl, fun _ hf => hf⟩
  obtain ⟨f, -, hclear, haddr, hother⟩ := h.low.pmmFalloc_one hnull
  have hfresh : Unlinked s.mem s.cr3 (f * 4096) := h.fresh f hclear
  have halign : f * 4096 % 4096 = 0 := Nat.mul_mod_left f 4096
  have hmono := (h.low.pmmFalloc 1).2
  rw [haddr]
  refine ⟨⟨hsep.linkTable hn hlow ht habsent halign hfresh, (h.low.pmmFalloc 1).1,
    fun g hg => ?_⟩, ⟨rfl, rfl, rfl, rfl⟩, ?_,
    hown.linkTable_translate hn ht habsent halign hfresh, hmono⟩
  · apply hown.linkTable_unlinked hn ht habsent halign hfresh (h.fresh g (hmono g hg))
    have := hother g hg
    omega
  · have htable := hown.linkTable_tableAt hn ht habsent halign hfresh (m := n + 1) (by omega) virt
    rwa [if_pos ⟨rfl, fun _ _ => rfl⟩] at htable

theorem nextPdpt_eq_nextTable (hlow : idxAt 0 virt < 256) :
    s.nextPdpt s.cr3 virt = s.nextTable s.cr3 (pml4Idx virt) := by
  unfold nextPdpt
  split
  · rename_i hpresent
    rw [VmmState.nextTable, if_pos hpresent]
  cases s.nextTable s.cr3 (pml4Idx virt) with
  | none => rfl
  | some r =>
    dsimp only
    rw [if_neg]
    have : pml4Idx virt < 256 := hlow
    omega

/-- Mapping a page of the lower half changes the translation of that page only. -/
theorem TreeOk.vmmMapPage (h : s.TreeOk) {phys : Nat} (hlow : idxAt 0 virt < 256)
    (hmap : s.vmmMapPage s.cr3 virt phys flg = some s') : s'.TreeOk ∧ Same s s' ∧
      (∀ b, ¬ SamePath 4 virt b → translate s'.mem s'.cr3 b = translate s.mem s.cr3 b) ∧
      ∀ f, s'.pmm.mmap f = false → s.pmm.mmap f = false := by
  unfold VmmState.vmmMapPage at hmap
  rw [nextPdpt_eq_nextTable hlow] at hmap
  split at hmap
  · cases hmap
  rename_i s1 pdpt h1
  split at hmap
  · cases hmap
  rename_i s2 pd h2
  split at hmap
  · cases hmap
  rename_i s3 pt h3
  obtain rfl := Option.some.inj hmap
  -- the three tables, each found or linked in turn
  obtain ⟨ok1, same1, ht1, htr1, hf1⟩ := h.nextTable (n := 0) (by omega) hlow rfl h1
  obtain ⟨ok2, same2, ht2, htr2, hf2⟩ := ok1.nextTable (n := 1) (by omega) hlow ht1 h2
  obtain ⟨ok3, same3, ht3, htr3, hf3⟩ := ok2.nextTable (n := 2) (by omega) hlow ht2 h3
  have hsep := ok3.separated
  refine ⟨⟨hsep.setLeaf hlow ht3 _, ok3.low, fun f hf m hm b => ?_⟩,
    ((same1.trans same2).trans same3).trans ⟨rfl, rfl, rfl, rfl⟩, fun b hb => ?_,
    fun f hf => hf1 f (hf2 f (hf3 f hf))⟩
  · have htables := (hsep.own hlow).setLeaf_tableAt ht3 (pageBase phys ||| flg ||| 1) hm b
    intro heq
    exact ok3.fresh f hf m hm b (htables.symm.trans heq)
  · calc translate (setEntry s3.mem pt (ptIdx virt) (pageBase phys ||| flg ||| 1)) s3.cr3 b
        = translate s3.mem s3.cr3 b := (hsep.own hlow).setEntry_translate (n := 3) le_rfl ht3 _ hb
      _ = translate s2.mem s2.cr3 b := htr3 b
      _ = translate s1.mem s1.cr3 b := htr2 b
      _ = translate s.mem s.cr3 b := htr1 b

/-- The addresses whose translation belongs to the kernel. -/
def KernelAddr (v : Nat) : Prop := userEnd ≤ v ∧ Canonical v

/-- The translations and flags of all kernel addresses are the same. -/
def KernelKept (s s' : VmmState) : Prop :=
  ∀ v, KernelAddr v → translate s'.mem s.cr3 v = translate s.mem s.cr3 v

theorem KernelKept.refl (s : VmmState) : KernelKept s s := fun _ _ => rfl

theorem KernelKept.trans (h : KernelKept s s') (h' : KernelKept s' s'')
    (hcr3 : s'.cr3 = s.cr3) : KernelKept s s'' := by
  intro v hv
  have := h' v hv
  rw [hcr3] at this
  rw [this, h v hv]

-- a user address is in the lower half and not on the page of a kernel address
theorem user_addr (hlt : virt < userEnd) :
    idxAt 0 virt < 256 ∧ ∀ v, KernelAddr v → ¬ SamePath 4 virt v := by
  have huser : userEnd = 0x00007FFFFFFFF000 := rfl
  constructor
  · unfold idxAt
    omega
  rintro v ⟨hge, hcanon⟩ hpath
  have h4 := hpath 0 (by omega)
  have h3 := hpath 1 (by omega)
  have h2 := hpath 2 (by omega)
  have h1 := hpath 3 (by omega)
  have hpage := page_mod_eq_of_idx_eq h4 h3 h2 h1
  unfold Canonical at hcanon
  omega

/-! ## Calls that stay below `USER_END` -/

-- the pages of the later rounds
theorem below_succ (h : ∀ k < n + 1, vst + (i + k) * 4096 < userEnd) :
    ∀ k < n, vst + (i + 1 + k) * 4096 < userEnd := by
  intro k hk
  rw [show i + 1 + k = i + (k + 1) by omega]
  exact h (k + 1) (by omega)

theorem TreeOk.mapFrames {pst : Nat} (h : s.TreeOk) (hin : ∀ k < n, vst + (i + k) * 4096 < userEnd)
    (hmap : mapFrames s.cr3 vst pst flg n i s = some s') : KernelKept s s' := by
  have huser : userEnd < 2 ^ 64 := by decide
  induction n generalizing i s with
  | zero =>
    obtain rfl := Option.some.inj hmap
    exact KernelKept.refl _
  | succ n ih =>
    rw [VmmState.mapFrames] at hmap
    split at hmap
    · cases hmap
    rename_i s1 hpage
    have hvirt : vst + i * 4096 < userEnd := hin 0 (by omega)
    rw [Nat.mod_eq_of_lt (by omega)] at hpage
    obtain ⟨hidx, hother⟩ := user_addr hvirt
    obtain ⟨h1, same1, htr1, -⟩ := h.vmmMapPage hidx hpage
    have hkept : KernelKept s s1 := by
      intro v hv
      have := htr1 v (hother v hv)
      rwa [same1.cr3] at this
    rw [← same1.cr3] at hmap
    have hrest := ih h1 (below_succ hin) hmap
    exact hkept.trans hrest same1.cr3

theorem TreeOk.mapFresh {done : Bool} (h : s.TreeOk)
    (hin : ∀ k < n, k < (freeFrames s.pmm).card → vst + (i + k) * 4096 < userEnd)
    (hmap : mapFresh s.cr3 vst flg n i s = some (s', done)) : KernelKept s s' := by
  have huser : userEnd < 2 ^ 64 := by decide
  induction n generalizing i s with
  | zero =>
    obtain ⟨rfl, -⟩ := Prod.mk.inj (Option.some.inj hmap)
    exact KernelKept.refl _
  | succ n ih =>
    rw [VmmState.mapFresh] at hmap
    dsimp only at hmap
    by_cases hnull : (pmmFalloc s.pmm 1).2 = 0
    · rw [if_pos hnull] at hmap
      obtain ⟨rfl, -⟩ := Prod.mk.inj (Option.some.inj hmap)
      exact KernelKept.refl _
    rw [if_neg hnull] at hmap
    split at hmap
    · cases hmap
    rename_i s1 hpage
    have hcard := card_freeFrames_pmmFalloc h.low hnull
    have hmono := (h.low.pmmFalloc 1).2
    have hvirt : vst + i * 4096 < userEnd := hin 0 (by omega) (by omega)
    rw [Nat.mod_eq_of_lt (by omega)] at hpage
    obtain ⟨hidx, hother⟩ := user_addr hvirt
    have h0 : (s.withPmm (pmmFalloc s.pmm 1).1).TreeOk :=
      ⟨h.separated, (h.low.pmmFalloc 1).1, fun f hf => h.fresh f (hmono f hf)⟩
    obtain ⟨h1, same1, htr1, hfree1⟩ := h0.vmmMapPage hidx hpage
    have hcard1 := Finset.card_le_card (freeFrames_subset hfree1)
    have hkept : KernelKept s s1 := by
      intro v hv
      have := htr1 v (hother v hv)
      rwa [same1.cr3] at this
    rw [show s.cr3 = s1.cr3 from same1.cr3.symm] at hmap
    have hrest := ih h1 (fun k hk hfree => by
      have := hin (k + 1) (by omega) (by
        have hle : (freeFrames s1.pmm).card ≤ (freeFrames (pmmFalloc s.pmm 1).1).card := hcard1
        omega)
      rwa [show i + (k + 1) = i + 1 + k by omega] at this) hmap
    exact hkept.trans hrest same1.cr3

/-! ### Unmapping -/

theorem reclaim_mem (s : VmmState) (pml4v virt pdpt pd pt : Nat) :
    Shrinks (s.reclaim pml4v virt pdpt pd pt).mem s.mem ∧
      Same s (s.reclaim pml4v virt pdpt pd pt) := by
  -- one round frees a table and clears the entry that leads to it
  have hround : ∀ (s : VmmState) t t' i,
      Shrinks ((s.withPmm (pmmFfree s.pmm t 1)).withMem (setEntry s.mem t' i 0)).mem s.mem ∧
        Same s ((s.withPmm (pmmFfree s.pmm t 1)).withMem (setEntry s.mem t' i 0)) :=
    fun s t t' i => ⟨shrinks_setEntry _ _ _, (same_withPmm s _).trans (same_withMem _ _)⟩
  unfold reclaim
  dsimp only
  split
  · exact ⟨Shrinks.refl _, Same.refl _⟩
  obtain ⟨hm1, hs1⟩ := hround s pt pd (pdIdx virt)
  split
  · exact ⟨hm1, hs1⟩
  obtain ⟨hm2, hs2⟩ := hround _ pd pdpt (pdptIdx virt)
  split
  · exact ⟨hm2.trans hm1, hs1.trans hs2⟩
  · obtain ⟨hm3, hs3⟩ := hround _ pdpt pml4v (pml4Idx virt)
    exact ⟨hm3.trans (hm2.trans hm1), (hs1.trans hs2).trans hs3⟩

@[simp] theorem dropFrame_mem (s : VmmState) (flags pframe : Nat) :
    (s.dropFrame flags pframe).mem = s.mem := by
  unfold dropFrame
  split <;> rfl

theorem same_dropFrame (s : VmmState) (flags pframe : Nat) : Same s (s.dropFrame flags pframe) := by
  unfold dropFrame
  split
  · exact Same.refl s
  · exact same_withPmm s _

-- after the entry of the page nothing but further entries is cleared
theorem unmapAt_mem (s : VmmState) (pml4v virt flags pdpt pd pt : Nat) :
    Shrinks (s.unmapAt pml4v virt flags pdpt pd pt).mem (setEntry s.mem pt (ptIdx virt) 0) ∧
      Same s (s.unmapAt pml4v virt flags pdpt pd pt) := by
  have hsame := (same_withMem s (setEntry s.mem pt (ptIdx virt) 0)).trans
    (same_dropFrame _ flags (pageBase (s.mem pt (ptIdx virt))))
  have hmem : Shrinks ((s.withMem (setEntry s.mem pt (ptIdx virt) 0)).dropFrame flags
      (pageBase (s.mem pt (ptIdx virt)))).mem (setEntry s.mem pt (ptIdx virt) 0) := by
    rw [dropFrame_mem]
    exact Shrinks.refl _
  unfold unmapAt
  split
  · exact ⟨hmem, hsame⟩
  · obtain ⟨hmem', hsame'⟩ := reclaim_mem ((s.withMem (setEntry s.mem pt (ptIdx virt) 0)).dropFrame
      flags (pageBase (s.mem pt (ptIdx virt)))) pml4v virt pdpt pd pt
    exact ⟨hmem'.trans hmem, hsame.trans hsame'⟩

theorem vmmUnmapPage_mem (s : VmmState) (pml4v virt flags : Nat) :
    Shrinks (s.vmmUnmapPage pml4v virt flags).mem s.mem ∧
      Same s (s.vmmUnmapPage pml4v virt flags) := by
  unfold vmmUnmapPage
  dsimp only
  split
  · exact ⟨Shrinks.refl _, Same.refl _⟩
  · obtain ⟨hmem, hsame⟩ := unmapAt_mem s pml4v virt flags _ _ _
    exact ⟨hmem.trans (shrinks_setEntry _ _ _), hsame⟩

theorem isTableEmpty_iff : isTableEmpty mem t = true ↔ ∀ i < 512, mem t i = 0 := by
  simp [isTableEmpty]

theorem tableAt_of_present (hhuge : NotHuge mem root virt)
    (h4 : present (mem root (pml4Idx virt)) = true)
    (h3 : present (mem (pageBase (mem root (pml4Idx virt))) (pdptIdx virt)) = true)
    (h2 : present (mem (pageBase (mem (pageBase (mem root (pml4Idx virt))) (pdptIdx virt)))
      (pdIdx virt)) = true) : tableAt mem root 1 virt = some (pageBase (mem root (pml4Idx virt))) ∧
    tableAt mem root 2 virt =
      some (pageBase (mem (pageBase (mem root (pml4Idx virt))) (pdptIdx virt))) ∧
    tableAt mem root 3 virt = some (pageBase (mem
      (pageBase (mem (pageBase (mem root (pml4Idx virt))) (pdptIdx virt))) (pdIdx virt))) := by
  have ht1 := tableAt_of_entry (n := 0) (by omega) hhuge rfl h4
  have ht2 := tableAt_of_entry (n := 1) (by omega) hhuge ht1 h3
  exact ⟨ht1, ht2, tableAt_of_entry (n := 2) le_rfl hhuge ht2 h2⟩

-- clearing the entry of one level leaves the tables above it in place
theorem tableAt_setEntry_above {m u : Nat} (hown : Own mem root virt) (hn : n ≤ 3)
    (ht : tableAt mem root n virt = some t) (hmn : m ≤ n) (hu : tableAt mem root m virt = some u)
    (e : Nat) : tableAt (setEntry mem t (idxAt n virt) e) root m virt = some u := by
  rw [← hu]
  refine tableAt_of_reads fun k hk w hw => ?_
  rw [setEntry_apply, if_neg]
  rintro ⟨rfl, -⟩
  have := (hown n hn k (by omega) virt w ht hw).1
  omega

section

variable (hown : Own s.mem root virt)

include hown

theorem reclaim_translate
    (ht1 : tableAt s.mem root 1 virt = some pdpt) (ht2 : tableAt s.mem root 2 virt = some pd)
    (ht3 : tableAt s.mem root 3 virt = some pt) (b : Nat) :
    translate (s.reclaim root virt pdpt pd pt).mem root b = translate s.mem root b := by
  unfold reclaim
  dsimp only
  split
  · rfl
  rename_i hpt
  simp only [Bool.not_eq_true', Bool.not_eq_false] at hpt
  have htr2 := hown.unlink_translate (n := 2) (by omega) ht2 ht3 (isTableEmpty_iff.mp hpt) b
  have hown2 := (shrinks_setEntry s.mem pd (pdIdx virt)).own hown
  split
  · exact htr2
  rename_i hpd
  simp only [withMem_mem, Bool.not_eq_true', Bool.not_eq_false] at hpd
  have ht1' := tableAt_setEntry_above (n := 2) (m := 1) hown (by omega) ht2 (by omega) ht1 0
  have ht2' := tableAt_setEntry_above (n := 2) (m := 2) hown (by omega) ht2 (by omega) ht2 0
  have htr1 := hown2.unlink_translate (n := 1) (by omega) ht1' ht2' (isTableEmpty_iff.mp hpd) b
  have hown1 := (shrinks_setEntry (setEntry s.mem pd (pdIdx virt) 0) pdpt (pdptIdx virt)).own hown2
  split
  · exact htr1.trans htr2
  rename_i hpdpt
  simp only [withMem_mem, Bool.not_eq_true', Bool.not_eq_false] at hpdpt
  have ht1'' := tableAt_setEntry_above (n := 1) (m := 1) hown2 (by omega) ht1' (by omega) ht1' 0
  have htr0 := hown1.unlink_translate (n := 0) (by omega) rfl ht1'' (isTableEmpty_iff.mp hpdpt) b
  exact htr0.trans (htr1.trans htr2)

theorem unmapAt_translate
    (ht1 : tableAt s.mem root 1 virt = some pdpt) (ht2 : tableAt s.mem root 2 virt = some pd)
    (ht3 : tableAt s.mem root 3 virt = some pt) (flags : Nat) (hb : ¬ SamePath 4 virt b) :
    translate (s.unmapAt root virt flags pdpt pd pt).mem root b = translate s.mem root b := by
  have hleaf := hown.setEntry_translate (n := 3) le_rfl ht3 0 hb
  have htables := fun m (hm : m ≤ 3) => hown.setLeaf_tableAt ht3 0 hm virt
  unfold unmapAt
  dsimp only
  -- the state with the entry cleared, whether its frame was given back or not
  generalize hs' : (s.withMem (setEntry s.mem pt (ptIdx virt) 0)).dropFrame flags
    (pageBase (s.mem pt (ptIdx virt))) = s'
  have hmem : s'.mem = setEntry s.mem pt (idxAt 3 virt) 0 := by
    rw [← hs', dropFrame_mem]
    rfl
  have htable : ∀ m t, m ≤ 3 → tableAt s.mem root m virt = some t →
      tableAt s'.mem root m virt = some t := by
    intro m t hm ht
    rw [hmem, htables m hm, ht]
  have hown' : Own s'.mem root virt := by
    rw [hmem]
    exact hown.setLeaf ht3 0 hown
  split
  · rw [hmem, hleaf]
  · rw [reclaim_translate hown' (htable 1 pdpt (by omega) ht1) (htable 2 pd (by omega) ht2)
      (htable 3 pt le_rfl ht3) b, hmem, hleaf]

/-- Unmapping a page changes the translation of that page only. -/
theorem vmmUnmapPage_translate (hhuge : NotHuge s.mem root virt)
    (flags : Nat) (hb : ¬ SamePath 4 virt b) :
    translate (s.vmmUnmapPage root virt flags).mem root b = translate s.mem root b := by
  unfold vmmUnmapPage
  dsimp only
  split
  · rfl
  rename_i hpresent
  simp only [Bool.or_eq_true, Bool.not_eq_true', not_or, Bool.not_eq_false] at hpresent
  obtain ⟨⟨h4, h3⟩, h2⟩ := hpresent
  obtain ⟨ht1, ht2, ht3⟩ := tableAt_of_present hhuge h4 h3 h2
  exact unmapAt_translate hown ht1 ht2 ht3 flags hb

theorem vmmUnmapPage_unmaps
    (hhuge : NotHuge s.mem root virt) (hpath : SamePath 4 virt v) (flags : Nat) :
    translate (s.vmmUnmapPage root virt flags).mem root v = none := by
  have hshrinks := (vmmUnmapPage_mem s root virt flags).1
  -- the walks for `virt` and `v` read the same entries
  have hentry : ∀ n ≤ 3, ∀ t, tableAt s.mem root n virt = some t →
      entryAt s.mem root n v = some (s.mem t (idxAt n virt)) := by
    intro n hn t ht
    rw [tableAt_congr (hpath.mono (by omega))] at ht
    rw [entryAt_of_tableAt ht, hpath n (by omega)]
  by_cases h4 : present (s.mem root (pml4Idx virt)) = true
  swap
  · exact hshrinks.translate_eq_none
      (translate_eq_none (by omega) (hentry 0 (by omega) root rfl)
        (Bool.eq_false_of_not_eq_true h4))
  have ht1 := tableAt_of_entry (n := 0) (by omega) hhuge rfl h4
  by_cases h3 : present (s.mem (pageBase (s.mem root (pml4Idx virt))) (pdptIdx virt)) = true
  swap
  · exact hshrinks.translate_eq_none
      (translate_eq_none (by omega) (hentry 1 (by omega) _ ht1) (Bool.eq_false_of_not_eq_true h3))
  have ht2 := tableAt_of_entry (n := 1) (by omega) hhuge ht1 h3
  by_cases h2 : present (s.mem (pageBase (s.mem (pageBase (s.mem root (pml4Idx virt)))
      (pdptIdx virt))) (pdIdx virt)) = true
  · have ht3 := tableAt_of_entry (n := 2) le_rfl hhuge ht2 h2
    unfold vmmUnmapPage
    rw [if_neg (by simp only [h4, h3, h2]; decide)]
    apply (unmapAt_mem s root virt flags _ _ _).1.translate_eq_none
    apply translate_eq_none (n := 3) (e := 0) le_rfl _ rfl
    have htv := ht3
    rw [tableAt_congr (hpath.mono (by omega)), ← hown.setLeaf_tableAt ht3 0 le_rfl v] at htv
    refine (entryAt_of_tableAt htv).trans ?_
    rw [setEntry_apply, if_pos ⟨rfl, (hpath 3 (by omega)).symm⟩]
  · exact hshrinks.translate_eq_none
      (translate_eq_none (by omega) (hentry 2 (by omega) _ ht2) (Bool.eq_false_of_not_eq_true h2))

end

theorem unmapLoop_kept (hsep : Separated s.mem s.cr3)
    (hin : ∀ k < n, vst + (i + k) * 4096 < userEnd) :
    KernelKept s (unmapLoop s.cr3 vst flags n i s) := by
  have huser : userEnd < 2 ^ 64 := by decide
  induction n generalizing i s with
  | zero => exact KernelKept.refl _
  | succ n ih =>
    rw [unmapLoop]
    have hvirt : vst + i * 4096 < userEnd := hin 0 (by omega)
    rw [Nat.mod_eq_of_lt (by omega)]
    obtain ⟨hidx, hother⟩ := user_addr hvirt
    obtain ⟨hmem, hsame⟩ := vmmUnmapPage_mem s s.cr3 (vst + i * 4096) flags
    have hkept : KernelKept s (s.vmmUnmapPage s.cr3 (vst + i * 4096) flags) :=
      fun v hv => vmmUnmapPage_translate (hsep.own hidx) (hsep.notHuge _ hidx) flags (hother v hv)
    have hrest := ih (s := s.vmmUnmapPage s.cr3 (vst + i * 4096) flags) (i := i + 1)
      (by rw [hsame.cr3]; exact hmem.separated hsep) (below_succ hin)
    rw [hsame.cr3] at hrest
    exact hkept.trans hrest hsame.cr3

/-! ### Changing flags -/

theorem setflgsLoop_kept {svirt flgs : Nat} (hsep : Separated s.mem s.cr3)
    (hin : ∀ k < n, svirt + (i + k) * 4096 < userEnd) :
    KernelKept s (setflgsLoop s.cr3 svirt flgs n i s).1 := by
  have huser : userEnd < 2 ^ 64 := by decide
  induction n generalizing i s with
  | zero => exact KernelKept.refl _
  | succ n ih =>
    rw [setflgsLoop]
    have hvirt : svirt + i * 4096 < userEnd := hin 0 (by omega)
    rw [Nat.mod_eq_of_lt (by omega)]
    obtain ⟨hidx, hother⟩ := user_addr hvirt
    split
    · exact KernelKept.refl _
    rename_i hpresent
    simp only [Bool.or_eq_true, Bool.not_eq_true', not_or, Bool.not_eq_false] at hpresent
    obtain ⟨⟨⟨h4, h3⟩, h2⟩, -⟩ := hpresent
    obtain ⟨-, -, ht3⟩ := tableAt_of_present (hsep.notHuge _ hidx) h4 h3 h2
    generalize hpte : pageBase (s.mem (pageBase (s.mem (pageBase (s.mem (pageBase
      (s.mem s.cr3 (pml4Idx (svirt + i * 4096)))) (pdptIdx (svirt + i * 4096))))
      (pdIdx (svirt + i * 4096)))) (ptIdx (svirt + i * 4096))) ||| flgs ||| 1 = e
    have hkept : KernelKept s (s.withMem (setEntry s.mem _ (ptIdx (svirt + i * 4096)) e)) :=
      fun v hv => (hsep.own hidx).setEntry_translate (n := 3) le_rfl ht3 e (hother v hv)
    have hrest := ih (s := s.withMem (setEntry s.mem _ (ptIdx (svirt + i * 4096)) e))
      (hsep.setLeaf hidx ht3 e) (i := i + 1) (below_succ hin)
    exact hkept.trans hrest rfl

end VmmState

end Mem
