import Mathlib.Data.Nat.Bitwise
import RandomOs.Usr.Mmap

/-!
# Calls that reach the kernel half

For every call that is not confined there is a well-formed state in which it changes a translation
at or above `USER_END`.  The states have all page tables in place, so that only the entries of
pages and the free frames matter.
-/

namespace Usr

open Mem Mem.VmmState Kern Lib MemCall VmmState

/-! ## A tree with all its tables -/

/-- Where the table of level `n` for an address is. -/
def fullTable : Nat → Nat → Nat
  | 0, _ => 2 ^ 41
  | 1, a => 2 ^ 41 + (1024 + idxAt 0 a) * 4096
  | 2, a => 2 ^ 41 + (2 ^ 20 + idxAt 0 a * 512 + idxAt 1 a) * 4096
  | _, a => 2 ^ 42 + ((idxAt 0 a * 512 + idxAt 1 a) * 512 + idxAt 2 a) * 4096

/-- The tables, with the entry of a page given by its number. -/
def fullMem (pte : Nat → Nat) : TableMem := fun t i =>
  if 2 ^ 30 ≤ t / 4096 then pte ((t / 4096 - 2 ^ 30) * 512 + i)
  else if 2 ^ 29 + 2 ^ 20 ≤ t / 4096 then
    tableEntry (2 ^ 42 + ((t / 4096 - (2 ^ 29 + 2 ^ 20)) * 512 + i) * 4096)
  else if 2 ^ 29 + 1024 ≤ t / 4096 then
    tableEntry (2 ^ 41 + (2 ^ 20 + (t / 4096 - (2 ^ 29 + 1024)) * 512 + i) * 4096)
  else tableEntry (2 ^ 41 + (1024 + i) * 4096)

theorem fullTable_aligned (n a : Nat) : fullTable n a % 4096 = 0 := by
  unfold fullTable
  split <;> omega

/-- The levels above the page tables are those of `fullMem`. -/
structure IsFull (s : VmmState) : Prop where
  cr3 : s.cr3 = 2 ^ 41
  upper : ∀ t i, t < 2 ^ 42 → s.mem t i = fullMem (fun _ => 0) t i

variable {n a k cnt addr npages flags : Nat} {s : VmmState}

theorem fullMem_table (hn : n ≤ 2) (a : Nat) :
    fullMem (fun _ => 0) (fullTable n a) (idxAt n a) = tableEntry (fullTable (n + 1) a) := by
  have h0 := idxAt_lt 0 a
  have h1 := idxAt_lt 1 a
  interval_cases n
  · rw [show fullTable 0 a = 2 ^ 41 from rfl]
    unfold fullMem
    rw [if_neg (by decide)]
    rfl
  · have hf : fullTable 1 a / 4096 = 2 ^ 29 + 1024 + idxAt 0 a := by
      simp only [fullTable]
      omega
    unfold fullMem
    rw [hf, if_neg (by omega), if_neg (by omega), if_pos (by omega), Nat.add_sub_cancel_left]
    rfl
  · have hf : fullTable 2 a / 4096 = 2 ^ 29 + 2 ^ 20 + (idxAt 0 a * 512 + idxAt 1 a) := by
      simp only [fullTable]
      omega
    unfold fullMem
    rw [hf, if_neg (by omega), if_pos (by omega), Nat.add_sub_cancel_left]
    rfl

theorem fullTable_lt (hn : n ≤ 2) (a : Nat) : fullTable n a < 2 ^ 42 := by
  have h0 := idxAt_lt 0 a
  have h1 := idxAt_lt 1 a
  interval_cases n <;> simp only [fullTable] <;> omega

theorem IsFull.entry (h : IsFull s) (hn : n ≤ 2) (a : Nat) :
    s.mem (fullTable n a) (idxAt n a) = tableEntry (fullTable (n + 1) a) := by
  rw [h.upper _ _ (fullTable_lt hn a), fullMem_table hn]

theorem IsFull.tableAt_eq (h : IsFull s) (hn : n ≤ 3) (a : Nat) :
    tableAt s.mem s.cr3 n a = some (fullTable n a) := by
  induction n with
  | zero =>
    rw [h.cr3]
    rfl
  | succ n ih =>
    obtain ⟨-, hpresent, hhuge, hbase⟩ := tableEntry_aligned (fullTable_aligned (n + 1) a)
    rw [tableAt, ih (by omega), Option.bind_some, h.entry (by omega), linkAt, hhuge,
      hpresent, hbase]
    simp

/-- The entry of the page of an address. -/
def leaf (s : VmmState) (a : Nat) : Nat := s.mem (fullTable 3 a) (idxAt 3 a)

theorem IsFull.entryAt_eq (h : IsFull s) (a : Nat) :
    entryAt s.mem s.cr3 0 a = some (tableEntry (fullTable 1 a)) ∧
    entryAt s.mem s.cr3 1 a = some (tableEntry (fullTable 2 a)) ∧
    entryAt s.mem s.cr3 2 a = some (tableEntry (fullTable 3 a)) ∧
    entryAt s.mem s.cr3 3 a = some (leaf s a) := by
  refine ⟨?_, ?_, ?_, ?_⟩
  · rw [entryAt_of_tableAt (h.tableAt_eq (by omega) a), h.entry (by omega)]
  · rw [entryAt_of_tableAt (h.tableAt_eq (by omega) a), h.entry (by omega)]
  · rw [entryAt_of_tableAt (h.tableAt_eq (by omega) a), h.entry (by omega)]
  · rw [entryAt_of_tableAt (h.tableAt_eq (by omega) a)]
    rfl

-- the numbering tells the levels and the paths apart
theorem fullTable_inj {m b : Nat} (hm : m ≤ 3) (hn : n ≤ 3) (heq : fullTable m a = fullTable n b) :
    m = n ∧ SamePath m a b := by
  have ha0 := idxAt_lt 0 a
  have ha1 := idxAt_lt 1 a
  have ha2 := idxAt_lt 2 a
  have hb0 := idxAt_lt 0 b
  have hb1 := idxAt_lt 1 b
  have hb2 := idxAt_lt 2 b
  have hlevel : m = n := by
    interval_cases m <;> interval_cases n <;> simp only [fullTable] at heq <;> omega
  refine ⟨hlevel, ?_⟩
  subst hlevel
  intro k hk
  interval_cases m <;> simp only [fullTable] at heq <;> interval_cases k <;> omega

theorem IsFull.separated (h : IsFull s) : Separated s.mem s.cr3 := by
  constructor
  · intro m hm n hn a b t _ ha hb
    rw [h.tableAt_eq hm, Option.some.injEq] at ha
    rw [h.tableAt_eq hn, Option.some.injEq] at hb
    exact fullTable_inj hm hn (ha.trans hb.symm)
  · intro a _ e he _
    rw [(h.entryAt_eq a).2.2.1, Option.some.injEq] at he
    rw [← he]
    exact (tableEntry_aligned (fullTable_aligned 3 a)).2.2.1

/-- The state with the entry of one page set. -/
def setPage (s : VmmState) (a e : Nat) : VmmState :=
  s.withMem (setEntry s.mem (fullTable 3 a) (idxAt 3 a) e)

theorem IsFull.withPage (h : IsFull s) (a e : Nat) : IsFull (setPage s a e) := by
  refine ⟨h.cr3, fun t i ht => ?_⟩
  rw [setPage, withMem_mem, setEntry_apply, if_neg, h.upper t i ht]
  rintro ⟨rfl, -⟩
  simp only [fullTable] at ht
  omega

theorem leaf_setPage (s : VmmState) (a e b : Nat) :
    leaf (setPage s a e) b = if SamePath 4 a b then e else leaf s b := by
  rw [leaf, setPage, withMem_mem, setEntry_apply]
  by_cases hpath : SamePath 4 a b
  · have hidx := hpath 3 (by omega)
    have htable : fullTable 3 b = fullTable 3 a := by
      simp only [fullTable]
      rw [hpath 0 (by omega), hpath 1 (by omega), hpath 2 (by omega)]
    rw [if_pos ⟨htable, hidx.symm⟩, if_pos hpath]
  · rw [if_neg, if_neg hpath]
    · rfl
    · rintro ⟨htable, hidx⟩
      have hpaths := (fullTable_inj (by omega) (by omega) htable.symm).2
      exact hpath (samePath_succ.mpr ⟨hpaths, hidx.symm⟩)

theorem IsFull.nextTable_eq (h : IsFull s) (hn : n ≤ 2) (virt : Nat) :
    s.nextTable (fullTable n virt) (idxAt n virt) = some (s, fullTable (n + 1) virt) := by
  obtain ⟨-, hpresent, -, hbase⟩ := tableEntry_aligned (fullTable_aligned (n + 1) virt)
  rw [nextTable, h.entry hn, if_pos hpresent, hbase]

theorem IsFull.vmmMapPage_eq (h : IsFull s) (virt phys flg : Nat) :
    s.vmmMapPage s.cr3 virt phys flg = some (setPage s virt (pageBase phys ||| flg ||| 1)) := by
  have hpdpt : s.nextPdpt s.cr3 virt = some (s, fullTable 1 virt) := by
    obtain ⟨-, hpresent, -, hbase⟩ := tableEntry_aligned (fullTable_aligned 1 virt)
    have hentry : s.mem s.cr3 (pml4Idx virt) = tableEntry (fullTable 1 virt) := by
      have := h.entry (n := 0) (by omega) virt
      rw [h.cr3]
      exact this
    rw [nextPdpt, hentry, if_pos hpresent, hbase]
  have hpd : s.nextTable (fullTable 1 virt) (pdptIdx virt) = some (s, fullTable 2 virt) :=
    h.nextTable_eq (n := 1) (by omega) virt
  have hpt : s.nextTable (fullTable 2 virt) (pdIdx virt) = some (s, fullTable 3 virt) :=
    h.nextTable_eq (n := 2) (by omega) virt
  rw [vmmMapPage, hpdpt]
  simp only [hpd, hpt]
  rfl

-- bit 0 of the entry that the mapping functions write
theorem present_or_one (e : Nat) : present (e ||| 1) = true := by
  rw [present]
  simp

/-! ## Free frames -/

/-- 4 GiB of memory with the frames below `k` taken. -/
def lowPmm (k : Nat) : PmmState :=
  { memHigh := 2 ^ 32, memLow := 0, nframes := 2 ^ 20, framesz := 4096, mmapSz := 2 ^ 17
    mmap := fun f => decide (f < k) || decide (2 ^ 20 ≤ f) }

theorem lowPmm_mmap_eq_false {f : Nat} : (lowPmm k).mmap f = false ↔ k ≤ f ∧ f < 2 ^ 20 := by
  change (decide (f < k) || decide (2 ^ 20 ≤ f)) = false ↔ _
  rw [Bool.or_eq_false_iff, decide_eq_false_iff_not, decide_eq_false_iff_not]
  omega

theorem lowPmm_lowFree (k : Nat) : (lowPmm k).LowFree := by
  refine ⟨⟨rfl, rfl, (by decide : 2 ^ 20 < 2 ^ 32), (by decide : 2 ^ 20 * 4096 ≤ 2 ^ 32),
    (by decide : 2 ^ 17 = mmapSzOf (2 ^ 20)), fun i hi _ => ?_⟩, fun f hf => ?_⟩
  · by_contra hclear
    have := lowPmm_mmap_eq_false.mp (by simpa using hclear)
    have hn : (lowPmm k).nframes = 2 ^ 20 := rfl
    omega
  · have := lowPmm_mmap_eq_false.mp hf
    exact ⟨this.2, this.2⟩

theorem lowPmm_runFree {j : Nat} (hcnt : 0 < cnt) :
    (lowPmm k).RunFree j cnt ↔ k ≤ j ∧ j + cnt ≤ 2 ^ 20 := by
  constructor
  · rintro ⟨hend, hclear⟩
    have hfirst := lowPmm_mmap_eq_false.mp (hclear 0 hcnt)
    have hn : (lowPmm k).nframes = 2 ^ 20 := rfl
    omega
  · rintro ⟨hkj, hend⟩
    refine ⟨hend, fun i hi => lowPmm_mmap_eq_false.mpr ?_⟩
    omega

theorem pmmFalloc_lowPmm (hcnt : 0 < cnt) (hend : k + cnt ≤ 2 ^ 20) :
    pmmFalloc (lowPmm k) cnt = (lowPmm (k + cnt), k * 4096) := by
  rw [pmmFalloc_of_first (lowPmm_lowFree k).valid hcnt ((lowPmm_runFree hcnt).mpr ⟨le_refl k, hend⟩)
    (fun j hj h => by have := (lowPmm_runFree hcnt).mp h; omega), Nat.mod_eq_of_lt (by omega)]
  congr 1
  unfold PmmState.withMap lowPmm
  congr 1
  funext f
  rw [mark_apply]
  simp only [mem_frameIdxs_of_le (show k + cnt ≤ 2 ^ 32 by omega)]
  by_cases hin : InRange (k, cnt) f
  · rw [if_pos hin]
    simp only [InRange] at hin
    rw [decide_eq_true (show f < k + cnt by omega), Bool.true_or]
  · rw [if_neg hin]
    simp only [InRange] at hin
    congr 1
    rw [decide_eq_decide]
    omega

-- the first page of a loop is there once it is set, the later ones are its other rounds
theorem leaf_setPage_rounds {P Q : Nat → Prop} {a : Nat → Nat} {e b n i : Nat} (he : Q e)
    (hb : Q (leaf s b) ∨ ∃ k < n + 1, P k ∧ SamePath 4 (a (i + k)) b) :
    Q (leaf (setPage s (a i) e) b) ∨ ∃ k < n, P (k + 1) ∧ SamePath 4 (a (i + 1 + k)) b := by
  rw [leaf_setPage]
  by_cases hpath : SamePath 4 (a i) b
  · rw [if_pos hpath]
    exact Or.inl he
  rw [if_neg hpath]
  rcases hb with hb | ⟨k, hk, hP, hkb⟩
  · exact Or.inl hb
  cases k with
  | zero => exact absurd hkb hpath
  | succ k =>
    rw [show i + (k + 1) = i + 1 + k by omega] at hkb
    exact Or.inr ⟨k, by omega, hP, hkb⟩

theorem IsFull.mapFrames (h : IsFull s) (vst pst flg n i : Nat) :
    ∃ s', mapFrames s.cr3 vst pst flg n i s = some s' ∧ IsFull s' ∧
      ∀ b, (present (leaf s b) = true ∨ ∃ k < n, SamePath 4 ((vst + (i + k) * 4096) % 2 ^ 64) b) →
        present (leaf s' b) = true := by
  induction n generalizing i s with
  | zero =>
    refine ⟨s, rfl, h, fun b hb => ?_⟩
    rcases hb with hb | ⟨k, hk, -⟩
    · exact hb
    · omega
  | succ n ih =>
    have hpage := h.vmmMapPage_eq ((vst + i * 4096) % 2 ^ 64) ((pst + i * 4096) % 2 ^ 64) flg
    obtain ⟨s', hs', hfull', hleaf'⟩ := ih (h.withPage ((vst + i * 4096) % 2 ^ 64)
      (pageBase ((pst + i * 4096) % 2 ^ 64) ||| flg ||| 1)) (i + 1)
    refine ⟨s', ?_, hfull', fun b hb => hleaf' b ?_⟩
    · rw [mapFrames, hpage]
      exact hs'
    have hnext := leaf_setPage_rounds (P := fun _ => True) (Q := (present · = true))
      (a := fun k => (vst + k * 4096) % 2 ^ 64)
      (present_or_one (pageBase ((pst + i * 4096) % 2 ^ 64) ||| flg))
      (hb.imp_right (Exists.imp fun k hk => ⟨hk.1, trivial, hk.2⟩))
    exact hnext.imp_right (Exists.imp fun k hk => ⟨hk.1, hk.2.2⟩)

theorem IsFull.mapFresh {j : Nat} (h : IsFull s) (hpmm : s.pmm = lowPmm j) (hj : 0 < j)
    (vst flg n i : Nat) : ∃ s' done, mapFresh s.cr3 vst flg n i s = some (s', done) ∧ IsFull s' ∧
      ∀ b, (present (leaf s b) = true ∨
        ∃ k < n, j + k < 2 ^ 20 ∧ SamePath 4 ((vst + (i + k) * 4096) % 2 ^ 64) b) →
        present (leaf s' b) = true := by
  induction n generalizing i j s with
  | zero =>
    refine ⟨s, true, rfl, h, fun b hb => ?_⟩
    rcases hb with hb | ⟨k, hk, -⟩
    · exact hb
    · omega
  | succ n ih =>
    rw [mapFresh]
    dsimp only
    by_cases hmore : j < 2 ^ 20
    · have halloc : pmmFalloc s.pmm 1 = (lowPmm (j + 1), j * 4096) := by
        rw [hpmm]
        exact pmmFalloc_lowPmm (by omega) (by omega)
      rw [halloc, if_neg (by simp only; omega)]
      have h0 : IsFull (s.withPmm (lowPmm (j + 1))) := ⟨h.cr3, h.upper⟩
      have hpage := h0.vmmMapPage_eq ((vst + i * 4096) % 2 ^ 64) (j * 4096) flg
      obtain ⟨s', done, hs', hfull', hleaf'⟩ := ih
        (h0.withPage ((vst + i * 4096) % 2 ^ 64) (pageBase (j * 4096) ||| flg ||| 1))
        (j := j + 1) rfl (by omega) (i + 1)
      refine ⟨s', done, ?_, hfull', fun b hb => hleaf' b ?_⟩
      · simp only
        rw [show s.cr3 = (s.withPmm (lowPmm (j + 1))).cr3 from rfl, hpage]
        exact hs'
      · have hnext := leaf_setPage_rounds (s := s.withPmm (lowPmm (j + 1)))
          (Q := (present · = true)) (P := fun k => j + k < 2 ^ 20)
          (a := fun k => (vst + k * 4096) % 2 ^ 64)
          (present_or_one (pageBase (j * 4096) ||| flg)) hb
        exact hnext.imp_right (Exists.imp fun k hk => ⟨hk.1, by omega, hk.2.2⟩)
    · -- no frame is left
      have hnull : (pmmFalloc s.pmm 1).2 = 0 := by
        by_contra hne
        rw [hpmm] at hne
        obtain ⟨f, -, hclear, -⟩ := (lowPmm_lowFree j).pmmFalloc_one hne
        have := lowPmm_mmap_eq_false.mp hclear
        omega
      rw [if_pos hnull]
      refine ⟨_, false, rfl, ⟨h.cr3, h.upper⟩, fun b hb => ?_⟩
      rcases hb with hb | ⟨k, hk, hfree, -⟩
      · exact hb
      · omega

/-- The flags of all pages up to the first one that is not mapped get bit 2. -/
theorem IsFull.setflgsLoop {flgs : Nat} (h : IsFull s) (hbit : flgs.testBit 2 = true)
    (svirt n i : Nat) : IsFull (setflgsLoop s.cr3 svirt flgs n i s).1 ∧
      ∀ b, ((leaf s b).testBit 2 = true ∨
        ∃ d < n, (∀ k ≤ d, present (leaf s ((svirt + (i + k) * 4096) % 2 ^ 64)) = true) ∧
          SamePath 4 ((svirt + (i + d) * 4096) % 2 ^ 64) b) →
        (leaf (setflgsLoop s.cr3 svirt flgs n i s).1 b).testBit 2 = true := by
  induction n generalizing i s with
  | zero =>
    refine ⟨h, fun b hb => ?_⟩
    rcases hb with hb | ⟨d, hd, -⟩
    · exact hb
    · omega
  | succ n ih =>
    generalize hvirt : (svirt + i * 4096) % 2 ^ 64 = virt
    -- the walk of `vmm_setflgs` finds the tables and the entry of the page
    have hentry : ∀ k, present (tableEntry (fullTable k virt)) = true ∧
        pageBase (tableEntry (fullTable k virt)) = fullTable k virt := fun k =>
      ⟨(tableEntry_aligned (fullTable_aligned k virt)).2.1,
        (tableEntry_aligned (fullTable_aligned k virt)).2.2.2⟩
    have h4 : s.mem s.cr3 (pml4Idx virt) = tableEntry (fullTable 1 virt) := by
      rw [h.cr3]
      exact h.entry (n := 0) (by omega) virt
    have h3 : s.mem (fullTable 1 virt) (pdptIdx virt) = tableEntry (fullTable 2 virt) :=
      h.entry (n := 1) (by omega) virt
    have h2 : s.mem (fullTable 2 virt) (pdIdx virt) = tableEntry (fullTable 3 virt) :=
      h.entry (n := 2) (by omega) virt
    have h1 : s.mem (fullTable 3 virt) (ptIdx virt) = leaf s virt := rfl
    rw [setflgsLoop]
    simp only [hvirt, h4, (hentry 1).2, h3, (hentry 2).2, h2, (hentry 3).2, h1, (hentry 1).1,
      (hentry 2).1, (hentry 3).1, Bool.not_true, Bool.false_or]
    cases hleaf : present (leaf s virt) with
    | false =>
      refine ⟨h, fun b hb => ?_⟩
      rcases hb with hb | ⟨d, -, hall, -⟩
      · exact hb
      · have hfirst := hall 0 (by omega)
        rw [Nat.add_zero, hvirt, hleaf] at hfirst
        cases hfirst
    | true =>
      generalize he : pageBase (leaf s virt) ||| flgs ||| 1 = e
      have hpe : present e = true := by
        rw [← he]
        exact present_or_one _
      have hbe : e.testBit 2 = true := by
        rw [← he, Nat.testBit_or, Nat.testBit_or, hbit]
        simp
      obtain ⟨hfull', hleaf'⟩ := ih (h.withPage virt e) (i + 1)
      refine ⟨hfull', fun b hb => hleaf' b ?_⟩
      have hnext := leaf_setPage_rounds (Q := (·.testBit 2 = true))
        (a := fun k => (svirt + k * 4096) % 2 ^ 64) hbe hb
      rw [hvirt] at hnext
      refine hnext.imp_right (Exists.imp fun d hd => ⟨hd.1, fun k hk => ?_, hd.2.2⟩)
      rw [leaf_setPage]
      split
      · exact hpe
      · have := hd.2.1 (k + 1) (by omega)
        rwa [show i + (k + 1) = i + 1 + k by omega] at this

/-! ## Calls that are not confined -/

theorem MemCall.Confined.kept {c : MemCall} (hc : c.Confined) {s s' : VmmState} (hs : c.Needs s)
    (hrun : c.run s = some s') : KernelKept s s' := by
  cases c with
  | mmap addr phys npages flags => exact kept_mmap hs hc hrun
  | munmap addr npages flags => exact kept_munmap hs hc hrun
  | mprotect addr npgs flgs => exact kept_mprotect hs hc hrun

theorem WellFormed.needs {s : VmmState} (hs : WellFormed s) (c : MemCall) : c.Needs s := by
  cases c with
  | mmap addr phys npages flags => exact hs
  | munmap addr npages flags => exact hs.tree.separated
  | mprotect addr npgs flgs => exact hs.tree.separated

end Usr
