import Mathlib.Data.List.Perm.Subperm
import Mathlib.Data.List.Nodup
import Mathlib.Data.Nat.Bitwise
import RandomOs.Lib.Runs

/-!
# Virtqueues (`virtqueue.c`)

A queue is a table of descriptors with a list of free ones in it, and two rings: the driver puts the
heads of chains into `avail`, the device puts them into `used` when it is done.
-/

namespace Block

open List Function

/-! ## Model -/

-- where in the page of the driver a descriptor points
inductive Region
  | hdr
  | status
  | buf
deriving DecidableEq

structure Desc where
  addr : Option Region
  len : Nat
  hasNext : Bool
  write : Bool
  next : Nat
deriving DecidableEq

structure Virtqueue where
  size : Nat
  desc : Nat → Desc
  freeHead : Nat
  freeCount : Nat
  availRing : Nat → Nat
  availIdx : Nat
  usedRing : Nat → Nat
  usedIdx : Nat
  lastUsedIdx : Nat

namespace Virtqueue

def setDesc (vq : Virtqueue) (i : Nat) (d : Desc) : Virtqueue :=
  { vq with desc := update vq.desc i d }

def allocDesc (vq : Virtqueue) : Option (Nat × Virtqueue) :=
  if vq.freeCount = 0 then none
  else
    let idx := vq.freeHead
    some (idx, { vq with
      freeHead := (vq.desc idx).next
      freeCount := vq.freeCount - 1
      desc := update vq.desc idx ⟨none, 0, false, false, 0⟩ })

def freeDesc (vq : Virtqueue) (i : Nat) : Virtqueue :=
  if vq.size ≤ i then vq
  else { vq with
    desc := update vq.desc i
      { vq.desc i with next := vq.freeHead, hasNext := false, write := false }
    freeHead := i
    freeCount := vq.freeCount + 1 }

-- a descriptor that has been freed has no next one, so the loop ends within the table
def freeLoop : Nat → Virtqueue → Nat → Virtqueue
  | 0, vq, _ => vq
  | rounds + 1, vq, curr =>
    if (vq.desc curr).hasNext then freeLoop rounds (vq.freeDesc curr) (vq.desc curr).next
    else vq.freeDesc curr

def freeChain (vq : Virtqueue) (head : Nat) : Virtqueue :=
  if vq.size ≤ head then vq else freeLoop (vq.size + 1) vq head

def submitChain (vq : Virtqueue) (head : Nat) : Virtqueue :=
  { vq with
    availRing := update vq.availRing (vq.availIdx % vq.size) head
    availIdx := (vq.availIdx + 1) % 2 ^ 16 }

def hasUsed (vq : Virtqueue) : Bool := vq.lastUsedIdx != vq.usedIdx

-- the entry that `virtqueue_poll_used` takes is not looked at by its caller
def takeUsed (vq : Virtqueue) : Virtqueue :=
  { vq with lastUsedIdx := (vq.lastUsedIdx + 1) % 2 ^ 16 }

-- by the device
def pushUsed (vq : Virtqueue) (head : Nat) : Virtqueue :=
  { vq with
    usedRing := update vq.usedRing (vq.usedIdx % vq.size) head
    usedIdx := (vq.usedIdx + 1) % 2 ^ 16 }

/-! ## Rings -/

/-- The two queues differ in their descriptors only. -/
structure SameRings (vq vq' : Virtqueue) : Prop where
  size : vq'.size = vq.size
  availRing : vq'.availRing = vq.availRing
  availIdx : vq'.availIdx = vq.availIdx
  usedIdx : vq'.usedIdx = vq.usedIdx
  lastUsedIdx : vq'.lastUsedIdx = vq.lastUsedIdx

variable {vq vq' vq'' : Virtqueue} {i j : Nat} {l : List Nat}

theorem SameRings.refl (vq : Virtqueue) : SameRings vq vq := ⟨rfl, rfl, rfl, rfl, rfl⟩

theorem SameRings.trans (h : SameRings vq vq') (h' : SameRings vq' vq'') : SameRings vq vq'' :=
  ⟨h'.size.trans h.size, h'.availRing.trans h.availRing, h'.availIdx.trans h.availIdx,
    h'.usedIdx.trans h.usedIdx, h'.lastUsedIdx.trans h.lastUsedIdx⟩

theorem sameRings_freeDesc (vq : Virtqueue) (i : Nat) : SameRings vq (vq.freeDesc i) := by
  unfold freeDesc
  split
  · exact .refl vq
  · exact ⟨rfl, rfl, rfl, rfl, rfl⟩

theorem sameRings_freeLoop (rounds : Nat) (vq : Virtqueue) (i : Nat) :
    SameRings vq (freeLoop rounds vq i) := by
  induction rounds generalizing vq i with
  | zero => exact .refl vq
  | succ rounds ih =>
    unfold freeLoop
    split
    · exact (sameRings_freeDesc vq i).trans (ih _ _)
    · exact sameRings_freeDesc vq i

theorem sameRings_freeChain (vq : Virtqueue) (i : Nat) : SameRings vq (vq.freeChain i) := by
  unfold freeChain
  split
  · exact .refl vq
  · exact sameRings_freeLoop _ vq i

/-! ## The free list -/

-- the count ends the list, the last `next` does not
def FreeFrom (desc : Nat → Desc) : Nat → List Nat → Prop
  | _, [] => True
  | head, i :: l => head = i ∧ FreeFrom desc (desc i).next l

structure FreeList (vq : Virtqueue) (l : List Nat) : Prop where
  links : FreeFrom vq.desc vq.freeHead l
  nodup : l.Nodup
  bound : ∀ i ∈ l, i < vq.size
  count : l.length = vq.freeCount

theorem FreeFrom.congr {desc desc' : Nat → Desc} {head : Nat} (h : FreeFrom desc head l)
    (hsame : ∀ i ∈ l, desc' i = desc i) : FreeFrom desc' head l := by
  induction l generalizing head with
  | nil => trivial
  | cons i l ih =>
    refine ⟨h.1, ?_⟩
    rw [hsame i mem_cons_self]
    exact ih h.2 fun j hj => hsame j (mem_cons_of_mem i hj)

theorem freeFrom_range' {desc : Nat → Desc} {size : Nat}
    (hdesc : ∀ i, desc i = ⟨none, 0, false, false, if i + 1 < size then i + 1 else 0⟩)
    {k n : Nat} (h : k + n = size) : FreeFrom desc k (range' k n) := by
  induction n generalizing k with
  | zero => trivial
  | succ n ih =>
    refine ⟨rfl, ?_⟩
    cases n with
    | zero => trivial
    | succ n =>
      rw [hdesc k, if_pos (by omega : k + 1 < size)]
      exact ih (k := k + 1) (by omega)

-- at first every descriptor is free
theorem freeList_init
    (hdesc : ∀ i, vq.desc i = ⟨none, 0, false, false, if i + 1 < vq.size then i + 1 else 0⟩)
    (hhead : vq.freeHead = 0) (hcount : vq.freeCount = vq.size) :
    FreeList vq (range' 0 vq.size) where
  links := by
    rw [hhead]
    exact freeFrom_range' hdesc (Nat.zero_add _)
  nodup := nodup_range'
  bound i hi := by
    have hmem := mem_range'_1.mp hi
    omega
  count := by rw [length_range', hcount]

-- descriptors in use may be written
theorem FreeList.setDesc (h : FreeList vq l) (hi : i ∉ l) (d : Desc) :
    FreeList (vq.setDesc i d) l where
  links := by
    apply h.links.congr
    intro j hj
    apply update_of_ne
    rintro rfl
    exact hi hj
  nodup := h.nodup
  bound := h.bound
  count := h.count

theorem allocDesc_nil (h : FreeList vq []) : vq.allocDesc = none :=
  if_pos h.count.symm

theorem allocDesc_cons (h : FreeList vq (i :: l)) :
    ∃ vq', vq.allocDesc = some (i, vq') ∧ FreeList vq' l ∧ SameRings vq vq' := by
  have hhead : vq.freeHead = i := h.links.1
  have hcount := h.count
  rw [length_cons] at hcount
  have hne : vq.freeCount ≠ 0 := by omega
  unfold allocDesc
  rw [if_neg hne, hhead]
  refine ⟨_, rfl, ⟨?_, h.nodup.of_cons, ?_, ?_⟩, ⟨rfl, rfl, rfl, rfl, rfl⟩⟩
  · apply h.links.2.congr
    intro j hj
    apply update_of_ne
    rintro rfl
    exact (nodup_cons.mp h.nodup).1 hj
  · exact fun j hj => h.bound j (mem_cons_of_mem i hj)
  · show l.length = vq.freeCount - 1
    omega

theorem FreeList.freeDesc (h : FreeList vq l) (hi : i < vq.size) (hnot : i ∉ l) :
    FreeList (vq.freeDesc i) (i :: l) := by
  unfold Virtqueue.freeDesc
  rw [if_neg (Nat.not_le.mpr hi)]
  refine ⟨⟨rfl, ?_⟩, nodup_cons.mpr ⟨hnot, h.nodup⟩, ?_, ?_⟩
  · show FreeFrom _ (update vq.desc i _ i).next l
    rw [update_self]
    apply h.links.congr
    intro j hj
    apply update_of_ne
    rintro rfl
    exact hnot hj
  · intro j hj
    rcases mem_cons.mp hj with rfl | hj
    · exact hi
    · exact h.bound j hj
  · show l.length + 1 = vq.freeCount + 1
    rw [h.count]

theorem freeDesc_desc_of_ne (h : j ≠ i) : (vq.freeDesc i).desc j = vq.desc j := by
  unfold freeDesc
  split
  · rfl
  · exact update_of_ne h _ _

-- a chain: every descriptor but the last one has a next one
def Linked (desc : Nat → Desc) : Nat → List Nat → Prop
  | _, [] => False
  | head, [i] => head = i ∧ (desc i).hasNext = false
  | head, i :: j :: c => head = i ∧ (desc i).hasNext = true ∧ Linked desc (desc i).next (j :: c)

theorem Linked.congr {desc desc' : Nat → Desc} {head : Nat} {c : List Nat}
    (h : Linked desc head c) (hsame : ∀ i ∈ c, desc' i = desc i) : Linked desc' head c := by
  induction c generalizing head with
  | nil => exact h
  | cons i c ih =>
    have hi := hsame i mem_cons_self
    cases c with
    | nil => exact ⟨h.1, hi ▸ h.2⟩
    | cons j c =>
      refine ⟨h.1, hi ▸ h.2.1, ?_⟩
      rw [hi]
      exact ih h.2.2 fun k hk => hsame k (mem_cons_of_mem i hk)

-- each round moves the first descriptor of the chain to the free list
theorem FreeList.freeLoop {c : List Nat} {head rounds : Nat} (h : FreeList vq l)
    (hc : Linked vq.desc head c) (hapart : (c ++ l).Nodup) (hbound : ∀ i ∈ c, i < vq.size)
    (hrounds : c.length ≤ rounds) : FreeList (freeLoop rounds vq head) (c.reverse ++ l) := by
  induction c generalizing vq l head rounds with
  | nil => exact hc.elim
  | cons i c ih =>
    obtain ⟨rounds, rfl⟩ : ∃ n, rounds = n + 1 := ⟨rounds - 1, by simp at hrounds; omega⟩
    obtain ⟨hnot, hrest⟩ := nodup_cons.mp hapart
    have hfree := h.freeDesc (hbound i mem_cons_self) fun hm => hnot (mem_append_right c hm)
    cases c with
    | nil =>
      obtain ⟨rfl, hlast⟩ := hc
      simpa [Virtqueue.freeLoop, hlast] using hfree
    | cons j c =>
      obtain ⟨rfl, hnext, hc⟩ := hc
      rw [Virtqueue.freeLoop, if_pos hnext, reverse_cons, append_assoc]
      apply ih hfree
      · apply hc.congr
        intro k hk
        apply freeDesc_desc_of_ne
        rintro rfl
        exact hnot (mem_append_left l hk)
      · exact (perm_middle.nodup_iff).mpr hapart
      · intro k hk
        rw [(sameRings_freeDesc vq head).size]
        exact hbound k (mem_cons_of_mem _ hk)
      · simpa using hrounds

theorem FreeList.freeChain {c : List Nat} {head : Nat} (h : FreeList vq l)
    (hc : Linked vq.desc head c) (hapart : (c ++ l).Nodup) (hbound : ∀ i ∈ c, i < vq.size) :
    FreeList (vq.freeChain head) (c.reverse ++ l) := by
  have hhead : head < vq.size := by
    match c, hc with
    | [i], hc => exact hc.1 ▸ hbound i mem_cons_self
    | i :: j :: c, hc => exact hc.1 ▸ hbound i mem_cons_self
  have hlen : c.length ≤ vq.size := by
    have hsub : c ⊆ range vq.size := fun i hi => mem_range.mpr (hbound i hi)
    simpa using (Nodup.subperm hapart.of_append_left hsub).length_le
  unfold Virtqueue.freeChain
  rw [if_neg (Nat.not_le.mpr hhead)]
  exact h.freeLoop hc hapart hbound (Nat.le_succ_of_le hlen)

/-! ## Requests -/

/-- The chain of a request: the header, the buffer and the status byte. -/
def IsRequest (vq : Virtqueue) (out : Bool) (d0 : Nat) : Prop :=
  let a := vq.desc d0
  let b := vq.desc a.next
  let c := vq.desc b.next
  (a.addr = some .hdr ∧ a.len = 16 ∧ a.hasNext = true ∧ a.write = false) ∧
    (b.addr = some .buf ∧ b.len = 512 ∧ b.hasNext = true ∧ b.write = !out) ∧
    (c.addr = some .status ∧ c.len = 1 ∧ c.hasNext = false ∧ c.write = true)

instance (vq : Virtqueue) (out : Bool) (d0 : Nat) : Decidable (vq.IsRequest out d0) :=
  inferInstanceAs (Decidable (_ ∧ _ ∧ _))

def fillRequest (vq : Virtqueue) (out : Bool) (d0 d1 d2 : Nat) : Virtqueue :=
  ((vq.setDesc d0 ⟨some .hdr, 16, true, false, d1⟩).setDesc d1
    ⟨some .buf, 512, true, !out, d2⟩).setDesc d2 ⟨some .status, 1, false, true, 0⟩

/-- The chain at `d0` is made of three descriptors that are not free. -/
structure Lent (vq : Virtqueue) (out : Bool) (d0 : Nat) (l : List Nat) : Prop where
  free : FreeList vq l
  request : vq.IsRequest out d0
  apart : (d0 :: (vq.desc d0).next :: (vq.desc (vq.desc d0).next).next :: l).Nodup
  bound : ∀ i ∈ [d0, (vq.desc d0).next, (vq.desc (vq.desc d0).next).next], i < vq.size

-- the rings are not part of it
theorem FreeList.congr (h : FreeList vq l) (hdesc : vq'.desc = vq.desc)
    (hhead : vq'.freeHead = vq.freeHead) (hcount : vq'.freeCount = vq.freeCount)
    (hsize : vq'.size = vq.size) : FreeList vq' l := by
  obtain ⟨hlinks, hnodup, hbound, hlen⟩ := h
  rw [← hdesc, ← hhead] at hlinks
  rw [← hsize] at hbound
  exact ⟨hlinks, hnodup, hbound, hlen.trans hcount.symm⟩

theorem Lent.congr {out : Bool} {d0 : Nat} (h : Lent vq out d0 l) (hdesc : vq'.desc = vq.desc)
    (hhead : vq'.freeHead = vq.freeHead) (hcount : vq'.freeCount = vq.freeCount)
    (hsize : vq'.size = vq.size) : Lent vq' out d0 l := by
  obtain ⟨hfree, hreq, hapart, hbound⟩ := h
  unfold IsRequest at hreq
  rw [← hdesc] at hreq hapart hbound
  rw [← hsize] at hbound
  exact ⟨hfree.congr hdesc hhead hcount hsize, hreq, hapart, hbound⟩

theorem sameRings_fillRequest (vq : Virtqueue) (out : Bool) (d0 d1 d2 : Nat) :
    SameRings vq (vq.fillRequest out d0 d1 d2) :=
  ⟨rfl, rfl, rfl, rfl, rfl⟩

theorem lent_fillRequest {out : Bool} {d0 d1 d2 : Nat} (h : FreeList vq l)
    (hapart : (d0 :: d1 :: d2 :: l).Nodup) (hbound : ∀ i ∈ [d0, d1, d2], i < vq.size) :
    Lent (vq.fillRequest out d0 d1 d2) out d0 l := by
  have hne := hapart
  simp only [nodup_cons, mem_cons, not_or] at hne
  obtain ⟨⟨h01, h02, h0⟩, ⟨h12, h1⟩, h2, -⟩ := hne
  have hd0 : (vq.fillRequest out d0 d1 d2).desc d0 = ⟨some .hdr, 16, true, false, d1⟩ :=
    (update_of_ne h02 _ _).trans ((update_of_ne h01 _ _).trans (update_self ..))
  have hd1 : (vq.fillRequest out d0 d1 d2).desc d1 = ⟨some .buf, 512, true, !out, d2⟩ :=
    (update_of_ne h12 _ _).trans (update_self ..)
  have hd2 : (vq.fillRequest out d0 d1 d2).desc d2 = ⟨some .status, 1, false, true, 0⟩ :=
    update_self ..
  refine ⟨?_, ?_, ?_, ?_⟩
  · apply FreeList.setDesc
    · apply FreeList.setDesc
      · exact h.setDesc h0 _
      · exact h1
    · exact h2
  · unfold IsRequest
    rw [hd0]
    dsimp only
    rw [hd1]
    rw [hd2]
    exact ⟨⟨rfl, rfl, rfl, rfl⟩, ⟨rfl, rfl, rfl, rfl⟩, rfl, rfl, rfl, rfl⟩
  · rw [hd0]
    rw [hd1]
    exact hapart
  · rw [hd0]
    rw [hd1]
    exact hbound

theorem Lent.freeChain {out : Bool} {d0 : Nat} (h : Lent vq out d0 l) :
    (∃ l', FreeList (vq.freeChain d0) l') ∧ SameRings vq (vq.freeChain d0) := by
  obtain ⟨⟨-, -, hnext0, -⟩, ⟨-, -, hnext1, -⟩, -, -, hnext2, -⟩ := h.request
  have hlinked : Linked vq.desc d0 [d0, _, _] := ⟨rfl, hnext0, rfl, hnext1, rfl, hnext2⟩
  exact ⟨⟨_, h.free.freeChain hlinked h.apart h.bound⟩, sameRings_freeChain vq d0⟩

/-! ## The allocations of a request -/

-- three descriptors, or none: what was had is given back
def allocRequest (vq : Virtqueue) (out : Bool) : Option Nat × Virtqueue :=
  match vq.allocDesc with
  | none => (none, vq)
  | some (d0, vq) =>
    match vq.allocDesc with
    | none => (none, vq.freeDesc d0)
    | some (d1, vq) =>
      match vq.allocDesc with
      | none => (none, (vq.freeDesc d0).freeDesc d1)
      | some (d2, vq) => (some d0, vq.fillRequest out d0 d1 d2)

theorem allocRequest_spec (h : FreeList vq l) (out : Bool) : SameRings vq (vq.allocRequest out).2 ∧
      match (vq.allocRequest out).1 with
      | none => ∃ l', FreeList (vq.allocRequest out).2 l'
      | some d0 => ∃ l', Lent (vq.allocRequest out).2 out d0 l' := by
  unfold allocRequest
  match l, h with
  | [], h =>
    rw [allocDesc_nil h]
    exact ⟨.refl vq, [], h⟩
  | [d0], h =>
    obtain ⟨vq₁, halloc, hfree, hsame⟩ := allocDesc_cons h
    rw [halloc]
    dsimp only
    rw [allocDesc_nil hfree]
    have hb0 : d0 < vq₁.size := hsame.size ▸ h.bound d0 (by simp)
    exact ⟨hsame.trans (sameRings_freeDesc vq₁ d0), _, hfree.freeDesc hb0 not_mem_nil⟩
  | [d0, d1], h =>
    obtain ⟨vq₁, halloc, hfree, hsame⟩ := allocDesc_cons h
    obtain ⟨vq₂, halloc₂, hfree₂, hsame₂⟩ := allocDesc_cons hfree
    rw [halloc]
    dsimp only
    rw [halloc₂]
    dsimp only
    rw [allocDesc_nil hfree₂]
    have hsame' := hsame.trans hsame₂
    have hb0 : d0 < vq₂.size := hsame'.size ▸ h.bound d0 (by simp)
    have hs0 := sameRings_freeDesc vq₂ d0
    have hb1 : d1 < (vq₂.freeDesc d0).size := by
      rw [hs0.size, hsame'.size]
      exact h.bound d1 (by simp)
    have h01 : d1 ∉ [d0] := by
      intro hm
      have hne := (nodup_cons.mp h.nodup).1
      rw [mem_singleton.mp hm] at hne
      exact hne mem_cons_self
    exact ⟨(hsame'.trans hs0).trans (sameRings_freeDesc _ d1), _,
      (hfree₂.freeDesc hb0 not_mem_nil).freeDesc hb1 h01⟩
  | d0 :: d1 :: d2 :: l, h =>
    obtain ⟨vq₁, halloc, hfree, hsame⟩ := allocDesc_cons h
    obtain ⟨vq₂, halloc₂, hfree₂, hsame₂⟩ := allocDesc_cons hfree
    obtain ⟨vq₃, halloc₃, hfree₃, hsame₃⟩ := allocDesc_cons hfree₂
    rw [halloc]
    dsimp only
    rw [halloc₂]
    dsimp only
    rw [halloc₃]
    have hsame' := (hsame.trans hsame₂).trans hsame₃
    refine ⟨hsame'.trans (sameRings_fillRequest vq₃ out d0 d1 d2), l, ?_⟩
    apply lent_fillRequest hfree₃ h.nodup
    intro i hi
    rw [hsame'.size]
    apply h.bound
    rcases mem_cons.mp hi with rfl | hi
    · exact mem_cons_self
    · rcases mem_pair.mp hi with rfl | rfl
      · simp
      · simp

/-! ## Every sequence of allocations -/

-- the table as `virtqueue_init` leaves it
def init (size : Nat) : Virtqueue where
  size := size
  desc i := ⟨none, 0, false, false, if i + 1 < size then i + 1 else 0⟩
  freeHead := 0
  freeCount := size
  availRing _ := 0
  availIdx := 0
  usedRing _ := 0
  usedIdx := 0
  lastUsedIdx := 0

-- the indices met when `next` is followed for `n` steps
def walk (desc : Nat → Desc) : Nat → Nat → List Nat
  | 0, _ => []
  | n + 1, i => i :: walk desc n (desc i).next

/-- A queue and the descriptors that its users hold. -/
structure Held where
  vq : Virtqueue
  held : List Nat

inductive HeldOp
  | alloc
  | write (i : Nat) (d : Desc)
  | free (i : Nat)
  | freeChain (c : List Nat)

-- users write the descriptors they hold, which is how chains are made
inductive HeldStep : Held → HeldOp → Held → Prop
  | alloc {s i vq} : s.vq.allocDesc = some (i, vq) → HeldStep s .alloc ⟨vq, i :: s.held⟩
  | full {s} : s.vq.allocDesc = none → HeldStep s .alloc s
  | write {s i d} : i ∈ s.held → HeldStep s (.write i d) ⟨s.vq.setDesc i d, s.held⟩
  | free {s i} : i ∈ s.held → HeldStep s (.free i) ⟨s.vq.freeDesc i, s.held.erase i⟩
  | freeChain {s c head} : Linked s.vq.desc head c → c.Nodup → c ⊆ s.held →
      HeldStep s (.freeChain c) ⟨s.vq.freeChain head, s.held.diff c⟩

/-- The free list and the held descriptors share out the table. -/
structure Held.Split (s : Held) (l : List Nat) : Prop where
  free : FreeList s.vq l
  parts : (l ++ s.held).Perm (range s.vq.size)

theorem FreeFrom.walk_eq {desc : Nat → Desc} {head : Nat} (h : FreeFrom desc head l) :
    walk desc l.length head = l := by
  induction l generalizing head with
  | nil => rfl
  | cons i l ih =>
    obtain ⟨rfl, h⟩ := h
    exact congrArg _ (ih h)

theorem split_init (size : Nat) : Held.Split ⟨init size, []⟩ (range' 0 size) where
  free := freeList_init (fun i => rfl) rfl rfl
  parts := by simp [init, range_eq_range']

theorem Held.Split.mem {s : Held} (h : s.Split l) (k : Nat) :
    k ∈ l ↔ k < s.vq.size ∧ k ∉ s.held := by
  have hapart := disjoint_of_nodup_append (h.parts.nodup_iff.mpr nodup_range)
  have hk := h.parts.mem_iff (a := k)
  rw [mem_append, mem_range] at hk
  exact ⟨fun hl => ⟨hk.mp (.inl hl), hapart hl⟩, fun ⟨hlt, hnot⟩ => (hk.mpr hlt).resolve_right hnot⟩

theorem Held.Split.lt {s : Held} (h : s.Split l) {k : Nat} (hk : k ∈ s.held) : k < s.vq.size :=
  mem_range.mp (h.parts.mem_iff.mp (mem_append_right l hk))

theorem Held.Split.step {s t : Held} {op : HeldOp} (h : s.Split l) (hst : HeldStep s op t) :
    t.vq.size = s.vq.size ∧ ∃ l', t.Split l' := by
  have hout : ∀ {i}, i ∈ s.held → i ∉ l := fun hi hm => ((h.mem _).mp hm).2 hi
  cases hst with
  | alloc halloc =>
    cases l with
    | nil =>
      rw [allocDesc_nil h.free] at halloc
      cases halloc
    | cons j l =>
      obtain ⟨vq', halloc', hfree, hsame⟩ := allocDesc_cons h.free
      rw [halloc] at halloc'
      cases halloc'
      refine ⟨hsame.size, l, hfree, ?_⟩
      rw [hsame.size]
      exact perm_middle.trans h.parts
  | full => exact ⟨rfl, l, h⟩
  | write hi => exact ⟨rfl, l, h.free.setDesc (hout hi) _, h.parts⟩
  | @free i hi =>
    have hsize := (sameRings_freeDesc s.vq i).size
    refine ⟨hsize, _, h.free.freeDesc (h.lt hi) (hout hi), ?_⟩
    rw [hsize]
    exact (perm_middle.symm.trans ((perm_cons_erase hi).symm.append_left l)).trans h.parts
  | @freeChain c head hc hnodup hsub =>
    have hsize := (sameRings_freeChain s.vq head).size
    have hapart : (c ++ l).Nodup :=
      nodup_append'.mpr ⟨hnodup, h.free.nodup, fun i hi => hout (hsub hi)⟩
    refine ⟨hsize, _, h.free.freeChain hc hapart fun i hi => h.lt (hsub hi), ?_⟩
    have hheld : (c ++ s.held.diff c).Perm s.held :=
      subperm_append_diff_self_of_count_le (subperm_ext_iff.mp (Nodup.subperm hnodup hsub))
    rw [hsize]
    calc c.reverse ++ l ++ s.held.diff c
      _ ~ l ++ c ++ s.held.diff c :=
        (((reverse_perm c).append_right l).trans perm_append_comm).append_right _
      _ = l ++ (c ++ s.held.diff c) := append_assoc ..
      _ ~ l ++ s.held := hheld.append_left l
      _ ~ range s.vq.size := h.parts

def HeldReach (size : Nat) : Held → Prop :=
  Lib.Reach (· = ⟨init size, []⟩) HeldStep fun _ _ => True

theorem HeldReach.split {size : Nat} {s : Held} (hs : HeldReach size s) :
    s.vq.size = size ∧ ∃ l, s.Split l := by
  apply Lib.Reach.invariant _ _ hs
  · rintro _ rfl
    exact ⟨rfl, _, split_init size⟩
  · rintro s op t ⟨hsize, l, hl⟩ - hst
    obtain ⟨hsame, hsplit⟩ := hl.step hst
    exact ⟨hsame.trans hsize, hsplit⟩

/-- In every run the free list is made of the descriptors that nobody holds, and an allocation
returns one of them or fails because there is none. -/
theorem descriptors_partitioned {size : Nat} {s : Held} (hs : HeldReach size s) :
    let free := walk s.vq.desc s.vq.freeCount s.vq.freeHead
    free.Nodup ∧ (∀ i, i ∈ free ↔ i < size ∧ i ∉ s.held) ∧
      (∀ i vq, s.vq.allocDesc = some (i, vq) → i < size ∧ i ∉ s.held) ∧
      (s.vq.allocDesc = none ↔ ∀ i < size, i ∈ s.held) := by
  obtain ⟨rfl, l, hl⟩ := hs.split
  have hfree := hl.free
  have hparts := hl.mem
  have hwalk : walk s.vq.desc s.vq.freeCount s.vq.freeHead = l := by
    rw [← hfree.count]
    exact hfree.links.walk_eq
  intro free
  rw [show free = l from hwalk]
  refine ⟨hfree.nodup, hparts, ?_⟩
  cases l with
  | nil =>
    rw [allocDesc_nil hfree]
    refine ⟨nofun, ⟨fun _ i hi => ?_, fun _ => rfl⟩⟩
    by_contra hnot
    exact not_mem_nil ((hparts i).mpr ⟨hi, hnot⟩)
  | cons j l =>
    obtain ⟨vq', halloc, -⟩ := allocDesc_cons hfree
    have hj := (hparts j).mp mem_cons_self
    rw [halloc]
    refine ⟨fun i vq he => ?_, ⟨nofun, fun hall => absurd (hall j hj.1) hj.2⟩⟩
    cases he
    exact hj

-- two of three descriptors are taken, and the first is given back
theorem descriptors_partitioned_after_free : ∃ vq vq', (init 3).allocDesc = some (0, vq) ∧
    vq.allocDesc = some (1, vq') ∧
    (∀ i, i ∈ walk (vq'.freeDesc 0).desc (vq'.freeDesc 0).freeCount (vq'.freeDesc 0).freeHead ↔
      i < 3 ∧ i ∉ [1]) ∧ (vq'.freeDesc 0).allocDesc ≠ none := by
  have h1 : HeldReach 3 ⟨_, [0]⟩ := .next (.start rfl) (.alloc rfl) trivial
  have h2 : HeldReach 3 ⟨_, [1, 0]⟩ := .next h1 (.alloc rfl) trivial
  have h3 : HeldReach 3 ⟨_, [1]⟩ := .next h2 (.free (i := 0) (by decide)) trivial
  obtain ⟨-, hmem, -, hnone⟩ := descriptors_partitioned h3
  refine ⟨_, _, rfl, rfl, hmem, fun he => ?_⟩
  exact absurd (hnone.mp he 0 (by decide)) (by decide)

end Virtqueue

end Block
