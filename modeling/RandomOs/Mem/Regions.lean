import RandomOs.Lib.Chain
import RandomOs.Lib.Runs
import RandomOs.Mem.Paging

/-!
# The list of kernel virtual regions (`vmm.c`)

The kernel heap is described by a linked list of regions, each used or free, whose nodes come from
a fixed pool.  A pool node counts as unused when its address, its length and its flag are zero.
-/

namespace Mem

open Lib List

/-! ## Model -/

/-- `MAX_VNODES`. -/
def maxVnodes : Nat := 1024

/-- `vmm_region_t`; `next` is an index into the pool. -/
structure VmmRegion where
  vaddrBase : Nat
  pageCount : Nat
  isFree : Bool
  next : Option Nat
deriving DecidableEq

def VmmRegion.zero : VmmRegion := ⟨0, 0, false, none⟩

/-- The test of `allocvmmr`. -/
def VmmRegion.unused (n : VmmRegion) : Bool :=
  n.vaddrBase == 0 && n.pageCount == 0 && !n.isFree

/-- `vaddr_base + page_count * 4096` in 64 bits. -/
def VmmRegion.stop (n : VmmRegion) : Nat := (n.vaddrBase + n.pageCount * 4096) % 2 ^ 64

/-- The fields of `vmm_range_t` that bound the user mappings of a process. -/
structure VmmRange where
  vaddrBase : Nat
  vaddrEnd : Nat

/-- `vmmr_head`, `vmmr_nodes` and `vmm_umapr`. -/
structure VmmRegions where
  head : Option Nat
  nodes : Nat → VmmRegion
  umapr : Nat → VmmRange

open VmmRegions

namespace VmmRegions

def next (r : VmmRegions) (i : Nat) : Option Nat := (r.nodes i).next

def setNode (r : VmmRegions) (i : Nat) (n : VmmRegion) : VmmRegions :=
  { r with nodes := Function.update r.nodes i n }

/-- `allocvmmr`. -/
def allocvmmr (r : VmmRegions) : Option Nat :=
  (List.range maxVnodes).find? fun i => (r.nodes i).unused

end VmmRegions

/-- `vmm_rangeinusrmap`. -/
def vmmRangeinusrmap (w : VmmRange) (addr npages : Nat) : Bool :=
  decide (w.vaddrBase ≤ addr) && decide ((addr + npages * 4096) % 2 ^ 64 ≤ w.vaddrEnd)

/-- `usable_start` in `vmm_ffreer`. -/
def usableStart (w : VmmRange) (start : Nat) : Nat :=
  if start < w.vaddrBase then w.vaddrBase else start

/-- The region that `vmm_ffreer` takes pages from. -/
def ffreerMatch (w : VmmRange) (pgcnt : Nat) (user : Bool) (n : VmmRegion) : Bool :=
  n.isFree && decide (pgcnt ≤ n.pageCount) &&
    (!user || (vmmRangeinusrmap w (usableStart w n.vaddrBase) pgcnt &&
      decide ((usableStart w n.vaddrBase + pgcnt * 4096) % 2 ^ 64 ≤ n.stop)))

namespace VmmRegions

/-- The end of `vmm_ffreer`: `pgcnt` pages are taken from node `i`. -/
def takePages (r : VmmRegions) (i pgcnt : Nat) : VmmRegions × Nat :=
  let n := r.nodes i
  if pgcnt < n.pageCount then
    match r.allocvmmr with
    | none => (r, 0)
    | some nblk =>
      ((r.setNode nblk
        { vaddrBase := (n.vaddrBase + pgcnt * 4096) % 2 ^ 64, pageCount := n.pageCount - pgcnt,
          isFree := true, next := n.next }).setNode i
        { n with pageCount := pgcnt, next := some nblk, isFree := false }, n.vaddrBase)
  else (r.setNode i { n with isFree := false }, n.vaddrBase)

/-- `vmm_ffreer` for process `pid`; the outer `none` stands for a walk that does not end. -/
def vmmFfreer (r : VmmRegions) (pid pgcnt : Nat) (user : Bool) : Option (VmmRegions × Nat) :=
  let w := r.umapr pid
  match firstLinked r.next (fun i => ffreerMatch w pgcnt user (r.nodes i)) maxVnodes r.head with
  | none => none
  | some none => some (r, 0)
  | some (some i) =>
    let n := r.nodes i
    let start := usableStart w n.vaddrBase
    if user ∧ n.vaddrBase < start then
      match r.allocvmmr with
      | none => some (r, 0)
      | some mid =>
        let pages := (start - n.vaddrBase) / 4096
        let r := r.setNode mid
          { vaddrBase := start, pageCount := (n.pageCount + 2 ^ 64 - pages) % 2 ^ 64,
            isFree := true, next := n.next }
        let r := r.setNode i { n with pageCount := pages, next := some mid }
        some (r.takePages mid pgcnt)
    else some (r.takePages i pgcnt)

/-- The region that `vmm_unmap_pages` changes. -/
def unmapMatch (vst pgcnt : Nat) (n : VmmRegion) : Bool :=
  !n.isFree && decide (n.vaddrBase ≤ vst) && decide ((vst + pgcnt * 4096) % 2 ^ 64 ≤ n.stop)

/-- `vmm_unmap_pages` frees part of the region of node `i`. -/
def unmapSplit (r : VmmRegions) (i vst pgcnt : Nat) : VmmRegions :=
  let n := r.nodes i
  let freeEnd := (vst + pgcnt * 4096) % 2 ^ 64
  if vst = n.vaddrBase ∧ freeEnd = n.stop then r.setNode i { n with isFree := true }
  else if vst = n.vaddrBase then
    match r.allocvmmr with
    | none => r
    | some left =>
      (r.setNode left
        { vaddrBase := freeEnd, pageCount := (n.pageCount + 2 ^ 64 - pgcnt) % 2 ^ 64,
          isFree := false, next := n.next }).setNode i
        { n with pageCount := pgcnt, isFree := true, next := some left }
  else if freeEnd = n.stop then
    match r.allocvmmr with
    | none => r
    | some left =>
      (r.setNode left
        { vaddrBase := vst, pageCount := pgcnt, isFree := true, next := n.next }).setNode i
        { n with pageCount := (n.pageCount + 2 ^ 64 - pgcnt) % 2 ^ 64, next := some left }
  else
    -- both calls see the same pool, no field has been written between them
    match r.allocvmmr, r.allocvmmr with
    | some mid, some trail =>
      let r := r.setNode trail
        { vaddrBase := freeEnd, pageCount := (n.stop - freeEnd) / 4096,
          isFree := false, next := n.next }
      let r := r.setNode mid
        { vaddrBase := vst, pageCount := pgcnt, isFree := true, next := some trail }
      r.setNode i { n with pageCount := (vst - n.vaddrBase) / 4096, next := some mid }
    | _, _ => r

/-- `curr` and `curr->next`, if both are there. -/
def pairAt (r : VmmRegions) (curr : Option Nat) : Option (Nat × Nat) :=
  curr.bind fun i => (r.next i).map fun j => (i, j)

/-- The free region `j` is joined to the free region `i` before it. -/
def join (r : VmmRegions) (i j : Nat) : VmmRegions :=
  let n := r.nodes i
  let m := r.nodes j
  (r.setNode i { n with pageCount := (n.pageCount + m.pageCount) % 2 ^ 64, next := m.next }).setNode
    j VmmRegion.zero

/-- The second loop of `vmm_unmap_pages`; `none` when `fuel` runs out. -/
def coalesce : Nat → VmmRegions → Option Nat → Option VmmRegions
  | 0, r, curr => if (r.pairAt curr).isNone then some r else none
  | fuel + 1, r, curr =>
    match r.pairAt curr with
    | none => some r
    | some (i, j) =>
      if (r.nodes i).isFree && (r.nodes j).isFree then coalesce fuel (r.join i j) (some i)
      else coalesce fuel r (some j)

/-- What `vmm_unmap_pages` does after it has unmapped the pages. -/
def vmmUnmapRegions (r : VmmRegions) (vst pgcnt : Nat) : Option VmmRegions :=
  if vst < heapStart ∨ heapEnd ≤ vst then some r
  else
    match firstLinked r.next (fun i => unmapMatch vst pgcnt (r.nodes i)) maxVnodes r.head with
    | none => none
    | some none => coalesce maxVnodes r r.head
    | some (some i) => coalesce maxVnodes (r.unmapSplit i vst pgcnt) (r.unmapSplit i vst pgcnt).head

end VmmRegions

/-- The end of `vmm_init`, in a pool that is all zero. -/
def vmmInitRegions (umapr : Nat → VmmRange) : VmmRegions :=
  { head := some 0
    nodes := Function.update (fun _ => VmmRegion.zero) 0
      ⟨heapStart, (heapEnd - heapStart) / 4096, true, none⟩
    umapr := umapr }

/-! ## The partition -/

namespace VmmRegions

def base (r : VmmRegions) (i : Nat) : Nat := (r.nodes i).vaddrBase
def size (r : VmmRegions) (i : Nat) : Nat := (r.nodes i).pageCount * 4096

/-- The list from the head visits the pool nodes `l`, each once, and they tile the heap. -/
structure Tiled (r : VmmRegions) (l : List Nat) : Prop where
  linked : Linked r.next r.head l
  nodup : l.Nodup
  pool : ∀ i ∈ l, i < maxVnodes
  tiles : Tiles r.base r.size heapStart l heapEnd

@[simp] theorem setNode_self (r : VmmRegions) (i : Nat) (n : VmmRegion) :
    (r.setNode i n).nodes i = n := by
  simp [setNode]

theorem setNode_of_ne (r : VmmRegions) {i k : Nat} (n : VmmRegion) (hne : k ≠ i) :
    (r.setNode i n).nodes k = r.nodes k := by
  simp [setNode, hne]

namespace Tiled

variable {r : VmmRegions} {l : List Nat}

theorem length_le (h : r.Tiled l) : l.length ≤ maxVnodes := by
  have hsub : l ⊆ List.range maxVnodes := fun i hi => mem_range.mpr (h.pool i hi)
  have := (h.nodup.subperm hsub).length_le
  rwa [length_range] at this

variable {i j : Nat} {pre post : List Nat}

theorem bounds (h : r.Tiled l) (hi : i ∈ l) : heapStart ≤ (r.nodes i).vaddrBase ∧
      (r.nodes i).vaddrBase + (r.nodes i).pageCount * 4096 ≤ heapEnd :=
  h.tiles.bounds hi

-- the address of a node in the list is never zero, so the pool does not hand it out again
theorem not_mem_of_unused (h : r.Tiled l) (hj : (r.nodes j).unused = true) : j ∉ l := by
  intro hmem
  have hb := (h.bounds hmem).1
  simp only [VmmRegion.unused, Bool.and_eq_true, beq_iff_eq] at hj
  rw [hj.1.1] at hb
  exact absurd hb (by decide)

theorem stop_eq (h : r.Tiled l) (hi : i ∈ l) :
    (r.nodes i).stop = (r.nodes i).vaddrBase + (r.nodes i).pageCount * 4096 := by
  have hb := (h.bounds hi).2
  have hend : heapEnd < 2 ^ 64 := by decide
  exact Nat.mod_eq_of_lt (by omega)

theorem setFlag (h : r.Tiled l) (i : Nat) (isFree : Bool) :
    (r.setNode i { r.nodes i with isFree := isFree }).Tiled l := by
  have hsame : ∀ k, (r.setNode i { r.nodes i with isFree := isFree }).next k = r.next k ∧
      (r.setNode i { r.nodes i with isFree := isFree }).base k = r.base k ∧
      (r.setNode i { r.nodes i with isFree := isFree }).size k = r.size k := by
    intro k
    by_cases hk : k = i
    · subst hk
      simp [next, base, size]
    · simp [next, base, size, setNode_of_ne _ _ hk]
  exact ⟨h.linked.congr fun k _ => (hsame k).1, h.nodup, h.pool,
    h.tiles.congr fun k _ => (hsame k).2⟩

theorem perm_insert (pre post : List Nat) (i j : Nat) :
    (pre ++ i :: j :: post).Perm (j :: (pre ++ i :: post)) := by
  rw [show pre ++ i :: j :: post = (pre ++ [i]) ++ j :: post by simp,
    show pre ++ i :: post = (pre ++ [i]) ++ post by simp]
  exact perm_middle

-- the other nodes of the list are neither `i` nor `j`
theorem ne_of_mem_rest {k : Nat} (hnodup : (pre ++ i :: post).Nodup) (hj : j ∉ pre ++ i :: post)
    (hk : k ∈ pre ++ post) : k ≠ i ∧ k ≠ j := by
  have hi := (nodup_cons.mp (perm_middle.nodup_iff.mp hnodup)).1
  constructor
  · rintro rfl
    exact hi hk
  · rintro rfl
    exact hj (perm_middle.mem_iff.mpr (mem_cons_of_mem i hk))

/-- A region is split in two, the second half going to an unused node. -/
theorem split (h : r.Tiled l) (hi : i ∈ l) (hj : j < maxVnodes)
    (hunused : (r.nodes j).unused = true) {n m : VmmRegion}
    (hbase : n.vaddrBase = (r.nodes i).vaddrBase)
    (hmid : m.vaddrBase = n.vaddrBase + n.pageCount * 4096)
    (hpages : n.pageCount + m.pageCount = (r.nodes i).pageCount) (hn : n.next = some j)
    (hm : m.next = (r.nodes i).next) : ∃ l', ((r.setNode j m).setNode i n).Tiled l' := by
  obtain ⟨pre, post, rfl⟩ := append_of_mem hi
  have hjl := h.not_mem_of_unused hunused
  have hij : j ≠ i := fun hji => hjl (hji ▸ hi)
  have hnodup := h.nodup
  have hother : ∀ k ∈ pre ++ post, ((r.setNode j m).setNode i n).nodes k = r.nodes k := by
    intro k hk
    obtain ⟨hki, hkj⟩ := ne_of_mem_rest hnodup hjl hk
    rw [setNode_of_ne _ _ hki, setNode_of_ne _ _ hkj]
  have hnodeI : ((r.setNode j m).setNode i n).nodes i = n := setNode_self _ _ _
  have hnodeJ : ((r.setNode j m).setNode i n).nodes j = m := by
    rw [setNode_of_ne _ _ hij, setNode_self]
  refine ⟨pre ++ i :: j :: post, ?_, ?_, ?_, ?_⟩
  · apply h.linked.insert
    · rw [next, hnodeI, hn]
    · rw [next, hnodeJ, hm, next]
    · intro k hk
      rw [next, hother k hk, next]
  · rw [(perm_insert pre post i j).nodup_iff]
    exact nodup_cons.mpr ⟨hjl, hnodup⟩
  · intro k hk
    by_cases hkj : k = j
    · rw [hkj]
      exact hj
    · apply h.pool
      simp only [mem_append, mem_cons] at hk ⊢
      tauto
  · apply h.tiles.insert
    · rw [base, hnodeI, hbase, base]
    · rw [base, size, base, hnodeI, hnodeJ, hmid, hbase]
    · rw [size, size, size, hnodeI, hnodeJ, ← hpages, Nat.add_mul]
    · intro k hk
      rw [base, size, hother k hk]
      exact ⟨rfl, rfl⟩

/-- A region is joined to the one before it, and its node goes back to the pool. -/
theorem join (h : r.Tiled (pre ++ i :: j :: post)) : (r.join i j).Tiled (pre ++ i :: post) := by
  obtain ⟨hjl, hnodup'⟩ := nodup_cons.mp ((perm_insert pre post i j).nodup_iff.mp h.nodup)
  have hij : i ≠ j := fun hij => hjl (hij ▸ mem_append_right _ mem_cons_self)
  have hother : ∀ k ∈ pre ++ post, (r.join i j).nodes k = r.nodes k := by
    intro k hk
    obtain ⟨hki, hkj⟩ := ne_of_mem_rest hnodup' hjl hk
    rw [VmmRegions.join, setNode_of_ne _ _ hkj, setNode_of_ne _ _ hki]
  have hpages : ((r.nodes i).pageCount + (r.nodes j).pageCount) % 2 ^ 64
      = (r.nodes i).pageCount + (r.nodes j).pageCount := by
    have hbi := h.bounds (i := i) (by simp)
    have hbj := h.bounds (i := j) (by simp)
    have hend : heapEnd < 2 ^ 64 := by decide
    apply Nat.mod_eq_of_lt
    omega
  have hnodeI : (r.join i j).nodes i = { r.nodes i with
      pageCount := (r.nodes i).pageCount + (r.nodes j).pageCount, next := (r.nodes j).next } := by
    rw [VmmRegions.join, setNode_of_ne _ _ hij, setNode_self, hpages]
  refine ⟨?_, hnodup', fun k hk => ?_, ?_⟩
  · apply h.linked.remove
    · rw [next, hnodeI, next]
    · intro k hk
      rw [next, hother k hk, next]
  · apply h.pool
    simp only [mem_append, mem_cons] at hk ⊢
    tauto
  · apply h.tiles.remove
    · rw [base, hnodeI, base]
    · rw [size, size, size, hnodeI, Nat.add_mul]
    · intro k hk
      rw [base, size, hother k hk]
      exact ⟨rfl, rfl⟩

-- induction on the nodes behind the cursor: each round passes or removes one of them
theorem coalesce_from {fuel : Nat} (h : r.Tiled (pre ++ i :: post)) (hfuel : post.length ≤ fuel) :
    ∃ r', coalesce fuel r (some i) = some r' ∧ r'.umapr = r.umapr ∧ ∃ l', r'.Tiled l' := by
  induction post generalizing pre i r fuel with
  | nil =>
    have hpair : r.pairAt (some i) = none := by
      simp [pairAt, h.linked.next_eq]
    refine ⟨r, ?_, rfl, _, h⟩
    cases fuel <;> simp [coalesce, hpair]
  | cons j post ih =>
    have hpair : r.pairAt (some i) = some (i, j) := by
      simp [pairAt, h.linked.next_eq]
    cases fuel with
    | zero => simp at hfuel
    | succ fuel =>
      have hle : post.length ≤ fuel := by simpa using hfuel
      rw [coalesce, hpair]
      simp only
      split
      · exact ih h.join hle
      · have hshift : r.Tiled ((pre ++ [i]) ++ j :: post) := by simpa using h
        exact ih hshift hle

theorem coalesce_head (h : r.Tiled l) :
    ∃ r', coalesce maxVnodes r r.head = some r' ∧ r'.umapr = r.umapr ∧ ∃ l', r'.Tiled l' := by
  have hlen := h.length_le
  cases l with
  | nil => exact absurd (show heapStart = heapEnd from h.tiles) (by decide)
  | cons i l =>
    rw [h.linked.1]
    have htiled : r.Tiled ([] ++ i :: l) := h
    exact coalesce_from htiled (by simp at hlen; omega)

/-! ### `vmm_ffreer` -/

theorem allocvmmr_spec (halloc : r.allocvmmr = some j) :
    j < maxVnodes ∧ (r.nodes j).unused = true := by
  have hmem := mem_of_find?_eq_some halloc
  have hunused := List.find?_some halloc
  exact ⟨mem_range.mp hmem, hunused⟩

theorem takePages (h : r.Tiled l) (hi : i ∈ l) (pgcnt : Nat) :
    (r.takePages i pgcnt).1.umapr = r.umapr ∧ ∃ l', (r.takePages i pgcnt).1.Tiled l' := by
  unfold VmmRegions.takePages
  dsimp only
  split
  swap
  · exact ⟨rfl, l, h.setFlag i false⟩
  cases halloc : r.allocvmmr with
  | none => exact ⟨rfl, l, h⟩
  | some j =>
    obtain ⟨hj, hunused⟩ := allocvmmr_spec halloc
    refine ⟨rfl, h.split hi hj hunused rfl ?_ ?_ rfl rfl⟩
    · have hb := h.bounds hi
      have hend : heapEnd < 2 ^ 64 := by decide
      simp only
      exact Nat.mod_eq_of_lt (by omega)
    · simp only
      omega

-- a window below the heap admits no heap region
theorem ffreerMatch_user (h : r.Tiled l) {w : VmmRange} (hwin : w.vaddrBase ≤ heapStart)
    (hend : w.vaddrEnd ≤ userEnd) (hi : i ∈ l) (pgcnt : Nat) :
    ffreerMatch w pgcnt true (r.nodes i) = false := by
  have hb := h.bounds hi
  have hlim : userEnd < heapStart ∧ heapEnd < 2 ^ 64 := by decide
  by_cases hcnt : pgcnt ≤ (r.nodes i).pageCount
  · have hstart : usableStart w (r.nodes i).vaddrBase = (r.nodes i).vaddrBase := by
      unfold usableStart
      rw [if_neg (by omega)]
    have hout : ¬ ((r.nodes i).vaddrBase + pgcnt * 4096) % 2 ^ 64 ≤ w.vaddrEnd := by
      omega
    rw [ffreerMatch, hstart, vmmRangeinusrmap, decide_eq_false hout]
    simp
  · simp [ffreerMatch, hcnt]

/-- `vmm_ffreer` keeps the partition. -/
theorem vmmFfreer (h : r.Tiled l) {pid : Nat} (hwin : (r.umapr pid).vaddrBase ≤ heapStart)
    (hend : (r.umapr pid).vaddrEnd ≤ userEnd) (pgcnt : Nat) (user : Bool) :
    ∃ r' v, r.vmmFfreer pid pgcnt user = some (r', v) ∧ r'.umapr = r.umapr ∧ ∃ l', r'.Tiled l' := by
  unfold VmmRegions.vmmFfreer
  dsimp only
  rw [firstLinked_eq_find h.linked _ h.length_le]
  cases hfind : l.find? fun i => ffreerMatch (r.umapr pid) pgcnt user (r.nodes i) with
  | none => exact ⟨r, 0, rfl, rfl, l, h⟩
  | some i =>
    have hi := mem_of_find?_eq_some hfind
    have hmatch := List.find?_some hfind
    cases user with
    | true =>
      simp only [h.ffreerMatch_user hwin hend hi] at hmatch
      cases hmatch
    | false =>
      have htaken := h.takePages hi pgcnt
      exact ⟨(r.takePages i pgcnt).1, (r.takePages i pgcnt).2, by simp, htaken⟩

end Tiled

/-! ### `vmm_unmap_pages` -/

/-- The first region that `vmm_unmap_pages` matches is freed as a whole, or at one of its ends and
by no more pages than it has, or the pool has no node left. -/
def SplitsAtEnd (r : VmmRegions) (vst pgcnt : Nat) : Prop :=
  ∀ i, firstLinked r.next (fun i => unmapMatch vst pgcnt (r.nodes i)) maxVnodes r.head
      = some (some i) →
    (vst = (r.nodes i).vaddrBase ∧ (vst + pgcnt * 4096) % 2 ^ 64 = (r.nodes i).stop) ∨
    r.allocvmmr = none ∨
    ((vst = (r.nodes i).vaddrBase ∨ (vst + pgcnt * 4096) % 2 ^ 64 = (r.nodes i).stop) ∧
      pgcnt ≤ (r.nodes i).pageCount)

namespace Tiled

variable {r : VmmRegions} {l : List Nat}

theorem unmapSplit (h : r.Tiled l) {i vst pgcnt : Nat} (hi : i ∈ l)
    (hsplit : (vst = (r.nodes i).vaddrBase ∧ (vst + pgcnt * 4096) % 2 ^ 64 = (r.nodes i).stop) ∨
      r.allocvmmr = none ∨
      ((vst = (r.nodes i).vaddrBase ∨ (vst + pgcnt * 4096) % 2 ^ 64 = (r.nodes i).stop) ∧
        pgcnt ≤ (r.nodes i).pageCount)) (hvst : vst < heapEnd) :
    (r.unmapSplit i vst pgcnt).umapr = r.umapr ∧ ∃ l', (r.unmapSplit i vst pgcnt).Tiled l' := by
  have hb := h.bounds hi
  have hstop := h.stop_eq hi
  have hend : heapEnd < 2 ^ 64 := by decide
  by_cases hwhole : vst = (r.nodes i).vaddrBase ∧ (vst + pgcnt * 4096) % 2 ^ 64 = (r.nodes i).stop
  · rw [VmmRegions.unmapSplit, if_pos hwhole]
    exact ⟨rfl, l, h.setFlag i true⟩
  cases halloc : r.allocvmmr with
  | none =>
    -- without a node every branch leaves the list alone
    have hsame : r.unmapSplit i vst pgcnt = r := by
      simp only [VmmRegions.unmapSplit, hwhole, if_false, halloc]
      split_ifs <;> rfl
    rw [hsame]
    exact ⟨rfl, l, h⟩
  | some j =>
    obtain ⟨hj, hunused⟩ := allocvmmr_spec halloc
    rcases hsplit with hsplit | hsplit | ⟨hedge, hle⟩
    · exact absurd hsplit hwhole
    · rw [hsplit] at halloc
      cases halloc
    by_cases hstart : vst = (r.nodes i).vaddrBase
    · have hfree : (vst + pgcnt * 4096) % 2 ^ 64 = vst + pgcnt * 4096 := Nat.mod_eq_of_lt (by omega)
      simp only [VmmRegions.unmapSplit, hwhole, if_false, if_pos hstart, halloc]
      refine ⟨rfl, h.split hi hj hunused rfl ?_ ?_ rfl rfl⟩
      · rw [hfree, hstart]
      · simp only
        omega
    · have hfree : (vst + pgcnt * 4096) % 2 ^ 64 = (r.nodes i).stop := by
        rcases hedge with hedge | hedge
        · exact absurd hedge hstart
        · exact hedge
      simp only [VmmRegions.unmapSplit, hwhole, if_false, if_neg hstart, if_pos hfree, halloc]
      refine ⟨rfl, h.split hi hj hunused rfl ?_ ?_ rfl rfl⟩
      · simp only
        omega
      · simp only
        omega

/-- `vmm_unmap_pages` keeps the partition when it does not split a region in three. -/
theorem vmmUnmapRegions (h : r.Tiled l) {vst pgcnt : Nat}
    (hsplit : heapStart ≤ vst → vst < heapEnd → r.SplitsAtEnd vst pgcnt) :
    ∃ r', r.vmmUnmapRegions vst pgcnt = some r' ∧ r'.umapr = r.umapr ∧ ∃ l', r'.Tiled l' := by
  unfold VmmRegions.vmmUnmapRegions
  split
  · exact ⟨r, rfl, rfl, l, h⟩
  have hsplits := hsplit (by omega) (by omega)
  unfold SplitsAtEnd at hsplits
  rw [firstLinked_eq_find h.linked _ h.length_le] at hsplits ⊢
  cases hfind : l.find? fun i => unmapMatch vst pgcnt (r.nodes i) with
  | none => exact h.coalesce_head
  | some i =>
    have hi := mem_of_find?_eq_some hfind
    obtain ⟨humapr, l', h'⟩ := h.unmapSplit hi (hsplits i (by rw [hfind])) (by omega)
    obtain ⟨r', hr', hu', hl'⟩ := h'.coalesce_head
    exact ⟨r', hr', hu'.trans humapr, hl'⟩

end Tiled

/-! ## Runs -/

/-- The list is finite and visits no node twice, its nodes are in address order, each ends where
the next begins, and together they cover the heap. -/
def IsPartition (r : VmmRegions) : Prop :=
  ∃ l, Linked r.next r.head l ∧ l.Nodup ∧ (l.Pairwise fun i j => r.base i ≤ r.base j) ∧
    Tiles r.base r.size heapStart l heapEnd

theorem Tiled.isPartition {r : VmmRegions} {l : List Nat} (h : r.Tiled l) : r.IsPartition := by
  refine ⟨l, h.linked, h.nodup, h.tiles.ordered.imp fun hij => ?_, h.tiles⟩
  omega

end VmmRegions

inductive RegionOp
  | ffreer (pid pgcnt : Nat) (user : Bool)
  | unmapPages (vst pgcnt : Nat)

namespace VmmRegions

def Step (r : VmmRegions) : RegionOp → VmmRegions → Prop
  | .ffreer pid pgcnt user, r' =>
    pgcnt < 2 ^ 64 ∧ ∃ v, r.vmmFfreer pid pgcnt user = some (r', v)
  | .unmapPages vst pgcnt, r' =>
    pgcnt < 2 ^ 64 ∧ vst < 2 ^ 64 ∧ r.vmmUnmapRegions vst pgcnt = some r'

/-- The list after `vmm_init`; the windows for user mappings lie below the kernel heap. -/
def Init (r : VmmRegions) : Prop :=
  ∃ umapr, r = vmmInitRegions umapr ∧
    ∀ pid, (umapr pid).vaddrBase ≤ heapStart ∧ (umapr pid).vaddrEnd ≤ userEnd

/-- No call of `vmm_unmap_pages` on the heap has to split a region in three. -/
def NoMiddle (r : VmmRegions) : RegionOp → Prop
  | .ffreer _ _ _ => True
  | .unmapPages vst pgcnt => heapStart ≤ vst → vst < heapEnd → r.SplitsAtEnd vst pgcnt

structure Sound (r : VmmRegions) : Prop where
  tiled : ∃ l, r.Tiled l
  windows : ∀ pid, (r.umapr pid).vaddrBase ≤ heapStart ∧ (r.umapr pid).vaddrEnd ≤ userEnd

variable {r : VmmRegions}

theorem sound_of_init (hinit : r.Init) : r.Sound := by
  obtain ⟨umapr, rfl, hwin⟩ := hinit
  refine ⟨⟨[0], ⟨rfl, rfl⟩, by simp, by simp [maxVnodes], ⟨rfl, ?_⟩⟩, hwin⟩
  change heapStart + (heapEnd - heapStart) / 4096 * 4096 = heapEnd
  decide

theorem Sound.step {r r' : VmmRegions} {op : RegionOp} (h : r.Sound) (hok : r.NoMiddle op)
    (hstep : r.Step op r') : r'.Sound := by
  obtain ⟨l, hl⟩ := h.tiled
  cases op with
  | ffreer pid pgcnt user =>
    obtain ⟨-, v, hres⟩ := hstep
    obtain ⟨r1, v1, hres1, hu, hl1⟩ := hl.vmmFfreer (h.windows pid).1 (h.windows pid).2 pgcnt user
    rw [hres] at hres1
    obtain ⟨rfl, -⟩ := Prod.mk.inj (Option.some.inj hres1)
    exact ⟨hl1, by rw [hu]; exact h.windows⟩
  | unmapPages vst pgcnt =>
    obtain ⟨-, -, hres⟩ := hstep
    obtain ⟨r1, hres1, hu, hl1⟩ := hl.vmmUnmapRegions hok
    rw [hres] at hres1
    obtain rfl := Option.some.inj hres1
    exact ⟨hl1, by rw [hu]; exact h.windows⟩

/-- Both calls return on a partitioned list: no walk runs in circles. -/
theorem Sound.returns (h : r.Sound) : (∀ pid pgcnt user, (r.vmmFfreer pid pgcnt user).isSome) ∧
      ∀ vst pgcnt, r.NoMiddle (.unmapPages vst pgcnt) → (r.vmmUnmapRegions vst pgcnt).isSome := by
  obtain ⟨l, hl⟩ := h.tiled
  constructor
  · intro pid pgcnt user
    obtain ⟨r1, v1, hres, -⟩ := hl.vmmFfreer (h.windows pid).1 (h.windows pid).2 pgcnt user
    simp [hres]
  · intro vst pgcnt hok
    obtain ⟨r1, hres, -⟩ := hl.vmmUnmapRegions hok
    simp [hres]

end VmmRegions

/-- In every run in which no region is split in three, the list is a partition of the heap, and
the next call that does not split in three returns. -/
theorem regions_partition_of_noMiddle {r : VmmRegions} (hreach : Reach Init Step NoMiddle r) :
    r.IsPartition ∧ (∀ pid pgcnt user, (r.vmmFfreer pid pgcnt user).isSome) ∧
      ∀ vst pgcnt, r.NoMiddle (.unmapPages vst pgcnt) → (r.vmmUnmapRegions vst pgcnt).isSome := by
  have h : r.Sound := hreach.invariant (fun _ => sound_of_init) fun _ _ _ h hok hstep =>
      h.step hok hstep
  obtain ⟨l, hl⟩ := h.tiled
  exact ⟨hl.isPartition, h.returns⟩

theorem allocvmmr_eq_some {r : VmmRegions} {j : Nat} (hj : j < maxVnodes)
    (hunused : (r.nodes j).unused = true) (hbefore : ∀ k < j, (r.nodes k).unused = false) :
    r.allocvmmr = some j := by
  unfold allocvmmr
  rw [List.find?_range_eq_some]
  exact ⟨hunused, mem_range.mpr hj, fun k hk => by rw [hbefore k hk]; rfl⟩

theorem allocvmmr_init (umapr : Nat → VmmRange) : (vmmInitRegions umapr).allocvmmr = some 1 := by
  apply allocvmmr_eq_some (by decide) rfl
  intro k hk
  rw [show k = 0 by omega]
  rfl

-- the first request is served from the one region of the heap
theorem vmmFfreer_init (umapr : Nat → VmmRange) {pgcnt : Nat} (hle : pgcnt ≤ 2 ^ 33) :
    (vmmInitRegions umapr).vmmFfreer 0 pgcnt false =
      some ((vmmInitRegions umapr).takePages 0 pgcnt) := by
  have hfound : firstLinked (vmmInitRegions umapr).next
      (fun i => ffreerMatch (umapr 0) pgcnt false ((vmmInitRegions umapr).nodes i)) maxVnodes
      (some 0) = some (some 0) := by
    have hmatch : ffreerMatch (umapr 0) pgcnt false ⟨heapStart, 2 ^ 33, true, none⟩ = true := by
      simpa [ffreerMatch] using hle
    rw [show maxVnodes = 1023 + 1 from rfl]
    exact if_pos hmatch
  unfold vmmFfreer
  dsimp only
  rw [show (vmmInitRegions umapr).umapr 0 = umapr 0 from rfl,
    show (vmmInitRegions umapr).head = some 0 from rfl, hfound]
  rfl

/-- The list after `vmm_init` and one request for three pages. -/
def threeTaken : VmmRegions :=
  ((vmmInitRegions fun _ => ⟨0, 0⟩).setNode 1 ⟨heapStart + 0x3000, 2 ^ 33 - 3, true, none⟩).setNode
    0 ⟨heapStart, 3, false, some 1⟩

theorem vmmInit_init : (vmmInitRegions fun _ => ⟨0, 0⟩).Init :=
  ⟨_, rfl, fun _ => ⟨by decide, by decide⟩⟩

theorem threeTaken_step : (vmmInitRegions fun _ => ⟨0, 0⟩).Step (.ffreer 0 3 false) threeTaken := by
  refine ⟨by decide, heapStart, ?_⟩
  rw [vmmFfreer_init _ (by decide), takePages, allocvmmr_init]
  rfl

-- three pages are taken and the first of them is given back
theorem regions_partition_after_unmap : ∃ r, threeTaken.vmmUnmapRegions heapStart 1 = some r ∧
    r.IsPartition := by
  have hreach : Reach Init Step NoMiddle threeTaken :=
    .next (.start vmmInit_init) threeTaken_step trivial
  have hmatch : firstLinked threeTaken.next (fun i => unmapMatch heapStart 1 (threeTaken.nodes i))
      maxVnodes (some 0) = some (some 0) := by
    rw [show maxVnodes = 1023 + 1 from rfl, firstLinked, if_pos (by decide)]
  have hends : threeTaken.NoMiddle (.unmapPages heapStart 1) := by
    intro _ _ i hi
    rw [show threeTaken.head = some 0 from rfl, hmatch] at hi
    obtain rfl : 0 = i := Option.some.inj (Option.some.inj hi)
    exact Or.inr (Or.inr ⟨Or.inl rfl, by decide⟩)
  obtain ⟨r, hr⟩ := Option.isSome_iff_exists.mp
    ((regions_partition_of_noMiddle hreach).2.2 heapStart 1 hends)
  have hstep : threeTaken.Step (.unmapPages heapStart 1) r := ⟨by decide, by decide, hr⟩
  exact ⟨r, hr, (regions_partition_of_noMiddle (hreach.next hstep hends)).1⟩

/-- The middle page of the three is unmapped: the node taken for it is also the one taken for the
page behind it, and joining it with itself clears it. -/
def middleLost : VmmRegions :=
  ((threeTaken.setNode 0 ⟨heapStart, 1, false, some 2⟩).setNode 2
    ⟨heapStart + 0x1000, 1, true, some 2⟩).join 2 2

theorem middleLost_step : threeTaken.Step (.unmapPages (heapStart + 0x1000) 1) middleLost := by
  refine ⟨by decide, by decide, ?_⟩
  have halloc : threeTaken.allocvmmr = some 2 := by
    apply allocvmmr_eq_some (by decide) rfl
    intro k hk
    interval_cases k <;> decide
  have hmatch : firstLinked threeTaken.next
      (fun i => unmapMatch (heapStart + 0x1000) 1 (threeTaken.nodes i))
      maxVnodes (some 0) = some (some 0) := by
    rw [show maxVnodes = 1023 + 1 from rfl, firstLinked, if_pos (by decide)]
  have hsplit : threeTaken.unmapSplit 0 (heapStart + 0x1000) 1 =
      (threeTaken.setNode 0 ⟨heapStart, 1, false, some 2⟩).setNode 2
        ⟨heapStart + 0x1000, 1, true, some 2⟩ := by
    rw [unmapSplit, if_neg (by decide), if_neg (by decide), if_neg (by decide), halloc]
    simp only [setNode]
    rw [Function.update_idem, Function.update_comm (by decide)]
    rfl
  rw [vmmUnmapRegions, show threeTaken.head = some 0 from rfl, hmatch]
  simp only
  rw [hsplit]
  rfl

theorem unmap_middle_loses_heap :
    Reach Init Step (fun _ _ => True) middleLost ∧
      ¬ middleLost.IsPartition := by
  refine ⟨((Reach.start vmmInit_init).next threeTaken_step trivial).next middleLost_step trivial,
    ?_⟩
  rintro ⟨l, hlinked, -, -, htiles⟩
  -- the list goes from node 0 to the cleared node 2
  cases l with
  | nil => cases hlinked
  | cons i l =>
    obtain ⟨hhead, hrest⟩ := hlinked
    obtain rfl : 0 = i := Option.some.inj hhead
    cases l with
    | nil => cases hrest
    | cons j l =>
      obtain rfl : 2 = j := Option.some.inj hrest.1
      exact absurd htiles.2.1 (by decide)

end Mem
