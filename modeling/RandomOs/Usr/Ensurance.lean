import RandomOs.Mem.Paging

/-!
# Checks on user pointers (`usr/ensurance.c`)

`ensure_pointer` steps through a buffer in pages from its first byte, which misses the last page of
a buffer that starts in the middle of one page and ends in the middle of another.
-/

namespace Usr

open Mem

/-! ## Model -/

/-- `okaddr`; a null table pointer is `none`. -/
def okaddr (mem : TableMem) (tbl : Option Nat) (addr : Nat) (write : Bool) : Bool :=
  match tbl with
  | none => false
  | some root =>
    let pml4e := mem root (pml4Idx addr)
    if !present pml4e then false
    else if write && !writable pml4e then false
    else
      let pdpte := mem (pageBase pml4e) (pdptIdx addr)
      if !present pdpte then false
      else if write && !writable pdpte then false
      else
        let pde := mem (pageBase pdpte) (pdIdx addr)
        if !present pde then false
        else if write && !writable pde then false
        else if huge pde then true
        else
          let pte := mem (pageBase pde) (ptIdx addr)
          if !present pte then false
          else if write && !writable pte then false
          else true

/-- The loop of `ensure_pointer` from counter `i` on; `none` when `fuel` runs out. -/
def ensureLoop (mem : TableMem) (cr3 addr sz : Nat) (write : Bool) : Nat → Nat → Option Bool
  | 0, _ => none
  | fuel + 1, i =>
    if i < sz then
      let pg := pageBase ((addr + i) % 2 ^ 64)
      if okaddr mem (some cr3) pg write then
        ensureLoop mem cr3 addr sz write fuel ((i + 0x1000) % 2 ^ 64)
      else some false
    else some true

/-- `ensure_pointer` on the address space `cr3`. -/
def ensurePointer (fuel : Nat) (mem : TableMem) (cr3 uptr sz : Nat) (write : Bool) : Option Bool :=
  if uptr = 0 then some false
  else
    let cnon := uptr / 2 ^ 47
    if cnon ≠ 0 ∧ cnon ≠ 0x1FFFF then some false
    else ensureLoop mem cr3 uptr sz write fuel 0

/-- `ensure_pointer` comes back with `r`. -/
def EnsurePointerReturns (mem : TableMem) (cr3 uptr sz : Nat) (write r : Bool) : Prop :=
  ∃ fuel, ensurePointer fuel mem cr3 uptr sz write = some r

/-- Every byte of `[uptr, uptr + sz)` lies on a page fit for the access. -/
def RangeOnPages (mem : TableMem) (cr3 uptr sz : Nat) (write : Bool) : Prop :=
  ∀ k, k < sz → OnPage mem cr3 (uptr + k) write

/-! ## The walk of `okaddr` -/

/-- The two tests `okaddr` makes at every level. -/
theorem level_eq (e : Nat) (write r : Bool) :
    (if !present e then false else if write && !writable e then false else r) =
      (decide (present e ∧ (write → writable e)) && r) := by
  cases present e <;> cases write <;> cases writable e <;> simp

theorem okaddr_iff (mem : TableMem) (root addr : Nat) (write : Bool) :
    okaddr mem (some root) addr write = true ↔
      ∀ e ∈ walk mem root addr, present e ∧ (write → writable e) := by
  simp only [okaddr, level_eq, walk]
  split
  · simp only [Bool.and_true, Bool.and_eq_true, decide_eq_true_eq, List.forall_mem_cons,
      List.not_mem_nil, IsEmpty.forall_iff, implies_true, and_true]
  · simp only [Bool.and_true, Bool.and_eq_true, decide_eq_true_eq, List.forall_mem_cons,
      List.not_mem_nil, IsEmpty.forall_iff, implies_true, and_true]

theorem okaddr_congr {a b : Nat} (h : a / 4096 = b / 4096) (mem : TableMem) (root : Nat)
    (write : Bool) : okaddr mem (some root) a write = okaddr mem (some root) b write := by
  rw [Bool.eq_iff_iff, okaddr_iff, okaddr_iff, walk_congr h]

variable {uptr cr3 addr sz : Nat} {mem : TableMem} {write : Bool}

theorem canonical_iff_cnon (hu : uptr < 2 ^ 64) :
    Canonical uptr ↔ ¬ (uptr / 2 ^ 47 ≠ 0 ∧ uptr / 2 ^ 47 ≠ 0x1FFFF) := by
  unfold Canonical
  omega

/-! ## The pages the loop visits -/

/-- How many pages the loop looks at before it ends. -/
def pagesVisited (sz : Nat) : Nat := (sz + 0xFFF) / 0x1000

/-- The `j`-th visited page is fit for the access. -/
def VisitOk (mem : TableMem) (cr3 addr : Nat) (write : Bool) (j : Nat) : Prop :=
  okaddr mem (some cr3) (pageBase ((addr + 0x1000 * j) % 2 ^ 64)) write = true

theorem ensureLoop_visits (hsz : sz ≤ 2 ^ 64 - 0x1000) {fuel j : Nat} (hj : j ≤ pagesVisited sz)
    (h : ensureLoop mem cr3 addr sz write fuel (0x1000 * j) = some true) :
    ∀ j', j ≤ j' → j' < pagesVisited sz → VisitOk mem cr3 addr write j' := by
  induction fuel generalizing j with
  | zero => simp [ensureLoop] at h
  | succ fuel ih =>
    rw [ensureLoop] at h
    by_cases hlt : 0x1000 * j < sz
    · rw [if_pos hlt] at h
      have hnext : (0x1000 * j + 0x1000) % 2 ^ 64 = 0x1000 * (j + 1) := by omega
      dsimp only at h
      rw [hnext] at h
      split at h
      · rename_i hok
        intro j' hle hlt'
        rcases Nat.eq_or_lt_of_le hle with rfl | hgt
        · exact hok
        · exact ih (by unfold pagesVisited; omega) h j' hgt hlt'
      · simp at h
    · intro j' hle hlt'
      unfold pagesVisited at hlt'
      omega

theorem ensureLoop_returns (hsz : sz ≤ 2 ^ 64 - 0x1000)
    (hok : ∀ j, j < pagesVisited sz → VisitOk mem cr3 addr write j) (n : Nat)
    (hn : n ≤ pagesVisited sz) :
    ensureLoop mem cr3 addr sz write (n + 1) (0x1000 * (pagesVisited sz - n)) = some true := by
  induction n with
  | zero =>
    rw [ensureLoop, if_neg]
    unfold pagesVisited
    omega
  | succ n ih =>
    have hlt : 0x1000 * (pagesVisited sz - (n + 1)) < sz := by
      unfold pagesVisited at hn ⊢
      omega
    have hnext : (0x1000 * (pagesVisited sz - (n + 1)) + 0x1000) % 2 ^ 64 =
        0x1000 * (pagesVisited sz - n) := by
      omega
    have hvisit := hok (pagesVisited sz - (n + 1)) (by omega)
    unfold VisitOk at hvisit
    rw [ensureLoop, if_pos hlt]
    rw [if_pos hvisit, hnext]
    exact ih (by omega)

/-- Above `2 ^ 64 - 4096` bytes the counter wraps before it can reach `sz`. -/
theorem ensureLoop_not_true (hsz : 2 ^ 64 - 0x1000 < sz) (fuel i : Nat) (hi : i % 0x1000 = 0)
    (hlt : i < 2 ^ 64) : ensureLoop mem cr3 addr sz write fuel i ≠ some true := by
  induction fuel generalizing i with
  | zero => simp [ensureLoop]
  | succ fuel ih =>
    rw [ensureLoop, if_pos (by omega)]
    dsimp only
    split
    · exact ih _ (by omega) (by omega)
    · simp

theorem ensurePointerReturns_true_iff (hnull : uptr ≠ 0) (hu : uptr < 2 ^ 64) :
    EnsurePointerReturns mem cr3 uptr sz write true ↔ Canonical uptr ∧ sz ≤ 2 ^ 64 - 0x1000 ∧
        ∀ j, j < pagesVisited sz → VisitOk mem cr3 uptr write j := by
  constructor
  · rintro ⟨fuel, h⟩
    rw [ensurePointer, if_neg hnull] at h
    dsimp only at h
    split at h
    · simp at h
    rename_i hcnon
    have hsz : sz ≤ 2 ^ 64 - 0x1000 := by
      by_contra hgt
      exact ensureLoop_not_true (by omega) fuel 0 rfl (by decide) h
    refine ⟨(canonical_iff_cnon hu).mpr hcnon, hsz, ?_⟩
    exact fun j hj => ensureLoop_visits hsz (Nat.zero_le _) h j (Nat.zero_le _) hj
  · rintro ⟨hcan, hsz, hok⟩
    refine ⟨pagesVisited sz + 1, ?_⟩
    rw [ensurePointer, if_neg hnull]
    rw [if_neg ((canonical_iff_cnon hu).mp hcan)]
    have hret := ensureLoop_returns hsz hok (pagesVisited sz) le_rfl
    rwa [Nat.sub_self] at hret

/-! ## When the visited pages are all the pages of the buffer -/

/-- The buffer does not run out of the canonical half it starts in. -/
def StaysInHalf (uptr sz : Nat) : Prop :=
  if uptr < 2 ^ 47 then uptr + sz ≤ 2 ^ 47 else uptr + sz ≤ 2 ^ 64

/-- The last byte of the buffer lies on one of the pages counted from its first byte. -/
def EndsOnVisitedPage (uptr sz : Nat) : Prop :=
  uptr % 0x1000 + sz ≤ 0x1000 * pagesVisited sz

/-- The buffers for which an answer of 1 can be relied on. -/
def BufferCovered (uptr sz : Nat) : Prop :=
  ¬ Canonical uptr ∨ 2 ^ 64 - 0x1000 < sz ∨ sz = 0 ∨
    (StaysInHalf uptr sz ∧ EndsOnVisitedPage uptr sz)

theorem rangeOnPages_of_visits (hcan : Canonical uptr) (hhalf : StaysInHalf uptr sz)
    (hend : EndsOnVisitedPage uptr sz)
    (hok : ∀ j, j < pagesVisited sz → VisitOk mem cr3 uptr write j) :
    RangeOnPages mem cr3 uptr sz write := by
  intro k hk
  have hcan' : Canonical (uptr + k) := by
    unfold Canonical StaysInHalf at *
    split at hhalf <;> omega
  refine ⟨hcan', ?_⟩
  -- byte `k` lies on visited page `j`
  obtain ⟨j, hj⟩ : ∃ j, (uptr + k) / 0x1000 = uptr / 0x1000 + j :=
    ⟨(uptr + k) / 0x1000 - uptr / 0x1000, by omega⟩
  have hlt : j < pagesVisited sz := by
    unfold EndsOnVisitedPage at hend
    omega
  have hpage : pageBase ((uptr + 0x1000 * j) % 2 ^ 64) / 4096 = (uptr + k) / 4096 := by
    rw [pageBase_div]
    unfold Canonical at hcan'
    omega
  rw [← okaddr_iff, ← okaddr_congr hpage]
  exact hok j hlt

/-- Page tables that map every page but those with the indices of `q`. -/
def gapTree (q : Nat) : TableMem := fun base i =>
  if base = 0 then (if i = pml4Idx q then 0x1007 else 0x4007)
  else if base = 0x1000 then (if i = pdptIdx q then 0x2007 else 0x5007)
  else if base = 0x2000 then (if i = pdIdx q then 0x3007 else 0x6007)
  else if base = 0x3000 then (if i = ptIdx q then 0 else 7)
  else if base = 0x4000 then 0x5007
  else if base = 0x5000 then 0x6007
  else 7

theorem okaddr_gapTree (q a : Nat) (write : Bool) :
    okaddr (gapTree q) (some 0) a write = true ↔ a / 4096 % 2 ^ 36 ≠ q / 4096 % 2 ^ 36 := by
  have hidx : a / 4096 % 2 ^ 36 = q / 4096 % 2 ^ 36 ↔
      pml4Idx a = pml4Idx q ∧ pdptIdx a = pdptIdx q ∧ pdIdx a = pdIdx q ∧ ptIdx a = ptIdx q := by
    refine ⟨fun h => ?_, fun ⟨h4, h3, h2, h1⟩ => page_mod_eq_of_idx_eq h4 h3 h2 h1⟩
    unfold pml4Idx pdptIdx pdIdx ptIdx
    omega
  rw [okaddr_iff, Ne, hidx]
  by_cases h4 : pml4Idx a = pml4Idx q <;> by_cases h3 : pdptIdx a = pdptIdx q <;>
    by_cases h2 : pdIdx a = pdIdx q <;> by_cases h1 : ptIdx a = ptIdx q <;>
    simp [walk, gapTree, h4, h3, h2, h1, pageBase, present, writable, huge, Nat.testBit]

theorem not_onPage_gapTree (q : Nat) (write : Bool) : ¬ OnPage (gapTree q) 0 q write := by
  intro h
  exact (okaddr_gapTree q q write).mp ((okaddr_iff _ _ _ _).mpr h.2) rfl

/-- Page tables that map every page. -/
def fullTree : TableMem := fun base _ =>
  if base = 0 then 0x1007 else if base = 0x1000 then 0x2007
  else if base = 0x2000 then 0x3007 else 7

theorem okaddr_fullTree (a : Nat) (write : Bool) : okaddr fullTree (some 0) a write = true := by
  rw [okaddr_iff]
  simp [walk, fullTree, pageBase, present, writable, huge, Nat.testBit]

theorem exists_accepted_of_not_staysInHalf (write : Bool) (hnull : uptr ≠ 0) (hu : uptr < 2 ^ 64)
    (hcan : Canonical uptr) (hsz : sz ≤ 2 ^ 64 - 0x1000) (hhalf : ¬ StaysInHalf uptr sz) :
    EnsurePointerReturns fullTree 0 uptr sz write true ∧
      ¬ RangeOnPages fullTree 0 uptr sz write := by
  refine ⟨(ensurePointerReturns_true_iff hnull hu).mpr
    ⟨hcan, hsz, fun j _ => okaddr_fullTree _ write⟩, ?_⟩
  intro hrange
  unfold StaysInHalf at hhalf
  split at hhalf
  · have hbyte := (hrange (2 ^ 47 - uptr) (by omega)).1
    unfold Canonical at hbyte
    omega
  · have hbyte := (hrange (2 ^ 64 - uptr) (by omega)).1
    unfold Canonical at hbyte
    omega

theorem exists_accepted_of_not_endsOnVisitedPage (write : Bool) (hnull : uptr ≠ 0)
    (hu : uptr < 2 ^ 64) (hcan : Canonical uptr) (hsz : sz ≤ 2 ^ 64 - 0x1000) (hpos : sz ≠ 0)
    (hhalf : StaysInHalf uptr sz) (hend : ¬ EndsOnVisitedPage uptr sz) :
    EnsurePointerReturns (gapTree (uptr + sz - 1)) 0 uptr sz write true ∧
      ¬ RangeOnPages (gapTree (uptr + sz - 1)) 0 uptr sz write := by
  refine ⟨(ensurePointerReturns_true_iff hnull hu).mpr ⟨hcan, hsz, fun j hj => ?_⟩, ?_⟩
  · rw [VisitOk, okaddr_gapTree, pageBase_div]
    unfold EndsOnVisitedPage at hend
    unfold StaysInHalf at hhalf
    unfold Canonical at hcan
    split at hhalf <;> omega
  · intro hrange
    apply not_onPage_gapTree (uptr + sz - 1) write
    have hlast := hrange (sz - 1) (by omega)
    rwa [show uptr + (sz - 1) = uptr + sz - 1 by omega] at hlast

theorem ensurePointer_sound_iff (uptr sz : Nat) (write : Bool) (hnull : uptr ≠ 0)
    (hu : uptr < 2 ^ 64) : (∀ mem cr3, EnsurePointerReturns mem cr3 uptr sz write true →
        RangeOnPages mem cr3 uptr sz write) ↔ BufferCovered uptr sz := by
  constructor
  · intro h
    by_contra hcov
    simp only [BufferCovered, not_or, not_not, not_lt] at hcov
    obtain ⟨hcan, hsz, hpos, hnot⟩ := hcov
    by_cases hhalf : StaysInHalf uptr sz
    · obtain ⟨hret, hbad⟩ := exists_accepted_of_not_endsOnVisitedPage write hnull hu hcan hsz hpos
        hhalf (fun hend => hnot ⟨hhalf, hend⟩)
      exact hbad (h _ _ hret)
    · obtain ⟨hret, hbad⟩ := exists_accepted_of_not_staysInHalf write hnull hu hcan hsz hhalf
      exact hbad (h _ _ hret)
  · intro hcov mem cr3 hret
    obtain ⟨hcan, hsz, hok⟩ := (ensurePointerReturns_true_iff hnull hu).mp hret
    rcases hcov with hnc | hbig | rfl | ⟨hhalf, hend⟩
    · exact absurd hcan hnc
    · omega
    · exact fun k hk => absurd hk (Nat.not_lt_zero k)
    · exact rangeOnPages_of_visits hcan hhalf hend hok

/-- Sixteen bytes that start eight bytes before a page boundary. -/
theorem ensurePointer_sound_iff_at_0x1ff8 : 0x1ff8 ≠ 0 ∧ 0x1ff8 < 2 ^ 64 ∧
    ((∀ mem cr3, EnsurePointerReturns mem cr3 0x1ff8 16 false true →
        RangeOnPages mem cr3 0x1ff8 16 false) ↔ BufferCovered 0x1ff8 16) :=
  ⟨by decide, by decide, ensurePointer_sound_iff 0x1ff8 16 false (by decide) (by decide)⟩

/-- With the second of the two pages missing the sixteen bytes are accepted all the same. -/
theorem ensurePointer_accepts_unmapped_page :
    ¬ ∀ mem cr3, EnsurePointerReturns mem cr3 0x1ff8 16 false true →
      RangeOnPages mem cr3 0x1ff8 16 false := by
  intro h
  have hhalf : StaysInHalf 0x1ff8 16 := by unfold StaysInHalf; decide
  have hend : ¬ EndsOnVisitedPage 0x1ff8 16 := by unfold EndsOnVisitedPage pagesVisited; decide
  obtain ⟨hret, hbad⟩ := exists_accepted_of_not_endsOnVisitedPage false (by decide) (by decide)
    (by decide) (by decide) (by decide) hhalf hend
  exact hbad (h _ _ hret)

end Usr
