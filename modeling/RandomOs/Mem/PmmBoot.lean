import RandomOs.Mem.Pmm

/-!
# The free frames after boot (`pmm_init`)

`pmm_init` takes every frame, gives the frames of usable memory back entry by entry and then takes
those that hold the bitmap and the page of the SMP startup blob.
-/

namespace Mem

open Lib List

/-! ## Memory maps -/

/-- The frame lies wholly inside the entry. -/
def MemmapEntry.Holds (entry : MemmapEntry) (f : Nat) : Prop :=
  entry.base ≤ f * 4096 ∧ (f + 1) * 4096 ≤ entry.base + entry.length

/-- Some byte of the bitmap lies in the frame. -/
def BitmapFrame (entries : List MemmapEntry) (f : Nat) : Prop :=
  ∃ a, bmapaddrOf entries (mmapSzOf (memHighOf entries / 4096)) ≤ a ∧
    a < bmapaddrOf entries (mmapSzOf (memHighOf entries / 4096)) +
      mmapSzOf (memHighOf entries / 4096) ∧ a / 4096 = f

/-- The memory maps of the boot protocol on machines with less than `2 ^ 44` bytes of addresses. -/
structure BootMap (entries : List MemmapEntry) : Prop where
  aligned : ∀ entry ∈ entries, entry.usable = true → 4096 ∣ entry.base ∧ 4096 ∣ entry.length
  disjoint : (entries.filter (·.usable)).Pairwise fun entry entry' =>
    Apart (entry.base, entry.length) (entry'.base, entry'.length)
  base_ne : ∀ entry ∈ entries, entry.usable = true → entry.base ≠ 0
  below : ∀ entry ∈ entries, entry.base + entry.length < 2 ^ 44
  -- the bitmap fits in one usable entry
  room : ∃ entry ∈ entries, entry.usable = true ∧
    mmapSzOf (memHighOf entries / 4096) ≤ entry.length

/-- The bitmap has a clear bit for the frame. -/
def PmmState.MarkedFree (s : PmmState) (f : Nat) : Prop := f < 8 * s.mmapSz ∧ s.mmap f = false

variable {b j : Nat} {α : Type} {s : PmmState} {entry : MemmapEntry}

theorem foldl_max_le (g : α → Nat) {bound : Nat} {l : List α}
    (hl : ∀ x ∈ l, g x ≤ bound) (hb : b ≤ bound) :
    l.foldl (fun high x => max high (g x)) b ≤ bound := by
  induction l generalizing b with
  | nil => exact hb
  | cons x l ih =>
    apply ih (fun y hy => hl y (mem_cons_of_mem x hy))
    exact max_le hb (hl x mem_cons_self)

theorem le_foldl_max (g : α → Nat) {l : List α} :
    b ≤ l.foldl (fun high x => max high (g x)) b ∧
      ∀ x ∈ l, g x ≤ l.foldl (fun high x => max high (g x)) b := by
  induction l generalizing b with
  | nil => exact ⟨Nat.le_refl b, fun x hx => by cases hx⟩
  | cons y l ih =>
    obtain ⟨hstart, hrest⟩ := @ih (max b (g y))
    refine ⟨(le_max_left _ _).trans hstart, fun x hx => ?_⟩
    rcases mem_cons.mp hx with rfl | hx
    · exact (le_max_right _ _).trans hstart
    · exact hrest x hx

namespace BootMap

variable {entries : List MemmapEntry}

variable {entry : MemmapEntry}

section

variable (h : BootMap entries)

include h

-- below `2 ^ 44` no end wraps around
theorem end_mod (he : entry ∈ entries) :
    (entry.base + entry.length) % 2 ^ 64 = entry.base + entry.length := by
  have := h.below entry he
  exact Nat.mod_eq_of_lt (by omega)

theorem end_le_memHigh (he : entry ∈ entries) :
    entry.base + entry.length ≤ memHighOf entries := by
  rw [← h.end_mod he]
  exact (le_foldl_max fun entry : MemmapEntry => (entry.base + entry.length) % 2 ^ 64).2 entry he

theorem memHigh_lt : memHighOf entries < 2 ^ 44 := by
  have hle : memHighOf entries ≤ 2 ^ 44 - 1 := by
    apply foldl_max_le fun entry : MemmapEntry => (entry.base + entry.length) % 2 ^ 64
    · intro entry he
      have := h.below entry he
      omega
    · exact Nat.zero_le _
  omega

theorem nframes_mod :
    memHighOf entries / 4096 % 2 ^ 32 = memHighOf entries / 4096 := by
  have := h.memHigh_lt
  exact Nat.mod_eq_of_lt (by omega)

theorem bmapaddr_spec : ∃ entry ∈ entries, entry.usable = true ∧
    mmapSzOf (memHighOf entries / 4096) ≤ entry.length ∧
      bmapaddrOf entries (mmapSzOf (memHighOf entries / 4096)) = entry.base := by
  unfold bmapaddrOf
  cases hfind : entries.find? fun entry =>
      entry.usable && decide (mmapSzOf (memHighOf entries / 4096) ≤ entry.length) with
  | none =>
    obtain ⟨entry, he, husable, hroom⟩ := h.room
    have := List.find?_eq_none.mp hfind entry he
    simp [husable, hroom] at this
  | some entry =>
    have htest := List.find?_some hfind
    rw [Bool.and_eq_true, decide_eq_true_eq] at htest
    exact ⟨entry, mem_of_find?_eq_some hfind, htest.1, htest.2, rfl⟩

end

end BootMap

/-! ## The passes of `pmm_init` -/

theorem freeUsable_mmap (hs : s.Valid)
    (haligned : entry.usable = true → 4096 ∣ entry.base ∧ 4096 ∣ entry.length)
    (hbelow : entry.base + entry.length < 2 ^ 44)
    (hend : (entry.base + entry.length) / 4096 ≤ s.nframes) (f : Nat) :
    (freeUsable s entry).mmap f = false ↔
      (entry.usable = true ∧ entry.Holds f) ∨ s.mmap f = false := by
  by_cases husable : entry.usable = true
  · obtain ⟨⟨b, hb⟩, ⟨n, hn⟩⟩ := haligned husable
    have hsidx : (entry.base + s.framesz - 1) % 2 ^ 64 / s.framesz = b := by
      rw [hs.framesz]
      omega
    have heidx : (entry.base + entry.length) % 2 ^ 64 / s.framesz = b + n := by
      rw [hs.framesz]
      omega
    have hholds : entry.Holds f ↔ InRange (b, n) f := by
      unfold MemmapEntry.Holds InRange
      omega
    unfold freeUsable
    rw [hsidx, heidx, hholds, hs.framesz]
    by_cases hempty : n = 0
    · have hout : ¬ InRange (b, n) f := by
        unfold InRange
        omega
      rw [if_neg (by omega)]
      simp [hout]
    · rw [if_pos ⟨husable, by omega⟩, pmmFfree_mmap hs (by omega)]
      by_cases hin : InRange (b, n) f <;> simp [hin, husable]
  · unfold freeUsable
    simp [husable]

@[simp] theorem pmmFfree_nframes (s : PmmState) (ptr cnt : Nat) :
    (pmmFfree s ptr cnt).nframes = s.nframes := by
  unfold pmmFfree
  split <;> rfl

@[simp] theorem pmmFfree_mmapSz (s : PmmState) (ptr cnt : Nat) :
    (pmmFfree s ptr cnt).mmapSz = s.mmapSz := by
  unfold pmmFfree
  split <;> rfl

theorem freeUsable_sizes (s : PmmState) (entry : MemmapEntry) :
    (freeUsable s entry).nframes = s.nframes ∧ (freeUsable s entry).mmapSz = s.mmapSz := by
  unfold freeUsable
  dsimp only
  split <;> simp

theorem foldl_freeUsable {l : List MemmapEntry} (hs : s.Valid)
    (haligned : ∀ entry ∈ l, entry.usable = true → 4096 ∣ entry.base ∧ 4096 ∣ entry.length)
    (hbelow : ∀ entry ∈ l, entry.base + entry.length < 2 ^ 44)
    (hend : ∀ entry ∈ l, (entry.base + entry.length) / 4096 ≤ s.nframes) :
    (l.foldl freeUsable s).Valid ∧ (l.foldl freeUsable s).nframes = s.nframes ∧
      (l.foldl freeUsable s).mmapSz = s.mmapSz ∧ ∀ f, (l.foldl freeUsable s).mmap f = false ↔
        (∃ entry ∈ l, entry.usable = true ∧ entry.Holds f) ∨ s.mmap f = false := by
  induction l generalizing s with
  | nil => simp [hs]
  | cons entry l ih =>
    have hsizes := freeUsable_sizes s entry
    have hhead := freeUsable_mmap hs (haligned entry mem_cons_self)
      (hbelow entry mem_cons_self) (hend entry mem_cons_self)
    obtain ⟨hvalid, hnframes, hmmapSz, hmmap⟩ := ih (hs.freeUsable entry)
      (fun e he => haligned e (mem_cons_of_mem _ he))
      (fun e he => hbelow e (mem_cons_of_mem _ he))
      (fun e he => hsizes.1.symm ▸ hend e (mem_cons_of_mem _ he))
    refine ⟨hvalid, hnframes.trans hsizes.1, hmmapSz.trans hsizes.2, fun f => ?_⟩
    rw [foldl_cons, hmmap, hhead, ← or_assoc, exists_mem_cons_iff,
      or_comm (a := entry.usable = true ∧ entry.Holds f)]

theorem resvOrKeep_mmap_of_runFree (hs : s.Valid) {cnt : Nat} (hfree : s.RunFree j cnt) (f : Nat) :
    (resvOrKeep s j cnt).mmap f = false ↔ s.mmap f = false ∧ ¬ InRange (j, cnt) f := by
  have hle : j + cnt ≤ 2 ^ 32 := hfree.1.trans hs.nframes_lt.le
  rw [resvOrKeep_of_runFree hs hfree, PmmState.withMap_mmap, mark_apply]
  simp only [mem_frameIdxs_of_le hle]
  by_cases hin : InRange (j, cnt) f <;> simp [hin]

theorem resvOrKeep_mmap_one (hs : s.Valid) (hj : j + 1 < 2 ^ 32) {f : Nat} (hf : f < 8 * s.mmapSz) :
    (resvOrKeep s j 1).mmap f = false ↔ s.mmap f = false ∧ f ≠ j := by
  by_cases hfree : s.RunFree j 1
  · rw [resvOrKeep_mmap_of_runFree hs hfree]
    unfold InRange
    have hne : ¬ (j ≤ f ∧ f < j + 1) ↔ f ≠ j := by omega
    rw [hne]
  · rw [resvOrKeep_of_not_runFree hj hfree]
    refine ⟨fun hbit => ⟨hbit, ?_⟩, And.left⟩
    -- a free frame is one of the machine, and a run of length one
    rintro rfl
    apply hfree
    constructor
    · by_contra hout
      have hpad := hs.padding f (by omega) hf
      rw [hbit] at hpad
      cases hpad
    · intro i hi
      rwa [show f + i = f by omega]

theorem resvOrKeep_mmapSz (s : PmmState) (stidx cnt : Nat) :
    (resvOrKeep s stidx cnt).mmapSz = s.mmapSz := by
  unfold resvOrKeep
  cases hres : pmmTryResv s stidx cnt with
  | none => rfl
  | some s' =>
    obtain ⟨-, -, rfl⟩ := pmmTryResv_eq_some.mp hres
    rfl

/-! ## Boot -/

/-- The allocator after the frames of usable memory have been given back. -/
def usableFreed (entries : List MemmapEntry) (mem : Nat → Bool) : PmmState :=
  entries.foldl freeUsable (allTaken (memHighOf entries) mem)

/-- The allocator after the frames of the bitmap have been taken again. -/
def bitmapReserved (entries : List MemmapEntry) (mem : Nat → Bool) : PmmState :=
  resvOrKeep (usableFreed entries mem)
    (bmapaddrOf entries (mmapSzOf (memHighOf entries / 4096)) / 4096)
    ((mmapSzOf (memHighOf entries / 4096) + 4095) / 4096)

namespace BootMap

variable {entries : List MemmapEntry}

section

variable (h : BootMap entries)

include h

theorem usableFreed_spec (mem : Nat → Bool) :
    (usableFreed entries mem).Valid ∧ (usableFreed entries mem).nframes = memHighOf entries / 4096 ∧
      (usableFreed entries mem).mmapSz = mmapSzOf (memHighOf entries / 4096) ∧
      ∀ f < 8 * mmapSzOf (memHighOf entries / 4096), (usableFreed entries mem).mmap f = false ↔
        ∃ entry ∈ entries, entry.usable = true ∧ entry.Holds f := by
  have hnframes : (allTaken (memHighOf entries) mem).nframes = memHighOf entries / 4096 :=
    h.nframes_mod
  have hmmapSz : (allTaken (memHighOf entries) mem).mmapSz =
      mmapSzOf (memHighOf entries / 4096) := congrArg mmapSzOf h.nframes_mod
  obtain ⟨hvalid, hn, hsz, hmmap⟩ := foldl_freeUsable (allTaken_valid (memHighOf entries) mem)
    h.aligned h.below fun entry he => by
      rw [hnframes]
      exact Nat.div_le_div_right (h.end_le_memHigh he)
  refine ⟨hvalid, hn.trans hnframes, hsz.trans hmmapSz, fun f hf => ?_⟩
  have htaken : (allTaken (memHighOf entries) mem).mmap f = true := by
    change (decide (f < 8 * (allTaken (memHighOf entries) mem).mmapSz) || mem f) = true
    rw [hmmapSz, decide_eq_true hf, Bool.true_or]
  unfold usableFreed
  rw [hmmap, htaken]
  simp

-- the bitmap has a bit for every frame inside an entry
theorem lt_bits_of_holds (he : entry ∈ entries) {f : Nat} (hf : entry.Holds f) :
    f < memHighOf entries / 4096 ∧
      f < 8 * mmapSzOf (memHighOf entries / 4096) := by
  have hend := h.end_le_memHigh he
  unfold MemmapEntry.Holds at hf
  have hlt : f < memHighOf entries / 4096 := by omega
  refine ⟨hlt, ?_⟩
  unfold mmapSzOf
  split <;> omega

theorem bitmapFrame_iff (f : Nat) : BitmapFrame entries f ↔
      InRange (bmapaddrOf entries (mmapSzOf (memHighOf entries / 4096)) / 4096,
        (mmapSzOf (memHighOf entries / 4096) + 4095) / 4096) f := by
  obtain ⟨entry, he, husable, -, haddr⟩ := h.bmapaddr_spec
  obtain ⟨⟨b, hb⟩, -⟩ := h.aligned entry he husable
  unfold BitmapFrame InRange
  constructor
  · omega
  · rintro ⟨hlo, hhi⟩
    exact ⟨f * 4096, by omega, by omega, by omega⟩

theorem bitmap_runFree (mem : Nat → Bool) : (usableFreed entries mem).RunFree
      (bmapaddrOf entries (mmapSzOf (memHighOf entries / 4096)) / 4096)
      ((mmapSzOf (memHighOf entries / 4096) + 4095) / 4096) := by
  obtain ⟨-, hnframes, -, hmmap⟩ := h.usableFreed_spec mem
  obtain ⟨entry, he, husable, hroom, haddr⟩ := h.bmapaddr_spec
  obtain ⟨⟨b, hb⟩, ⟨n, hn⟩⟩ := h.aligned entry he husable
  have hend := h.end_le_memHigh he
  rw [haddr, hb, Nat.mul_div_cancel_left b (by decide)]
  refine ⟨by rw [hnframes]; omega, fun i hi => ?_⟩
  have hholds : entry.Holds (b + i) := by
    unfold MemmapEntry.Holds
    omega
  exact (hmmap _ (h.lt_bits_of_holds he hholds).2).mpr ⟨entry, he, husable, hholds⟩

theorem bitmapReserved_spec (mem : Nat → Bool) : (bitmapReserved entries mem).Valid ∧
      (bitmapReserved entries mem).mmapSz = mmapSzOf (memHighOf entries / 4096) ∧
      ∀ f < 8 * mmapSzOf (memHighOf entries / 4096), (bitmapReserved entries mem).mmap f = false ↔
        (∃ entry ∈ entries, entry.usable = true ∧ entry.Holds f) ∧ ¬ BitmapFrame entries f := by
  obtain ⟨hvalid, -, hmmapSz, hmmap⟩ := h.usableFreed_spec mem
  refine ⟨hvalid.resvOrKeep _ _, (resvOrKeep_mmapSz _ _ _).trans hmmapSz, fun f hf => ?_⟩
  unfold bitmapReserved
  rw [resvOrKeep_mmap_of_runFree hvalid (h.bitmap_runFree mem), hmmap f hf, h.bitmapFrame_iff]

theorem pmmInit_eq (mem : Nat → Bool) :
    pmmInit entries mem = some (resvOrKeep (bitmapReserved entries mem) (0x8000 / 4096) 1) := by
  obtain ⟨-, -, hmmapSz, -⟩ := h.usableFreed_spec mem
  obtain ⟨entry, he, husable, -, haddr⟩ := h.bmapaddr_spec
  have hbase := h.base_ne entry he husable
  have hend := h.end_le_memHigh he
  have hhigh := h.memHigh_lt
  have hsz : (allTaken (memHighOf entries) mem).mmapSz = mmapSzOf (memHighOf entries / 4096) :=
    congrArg mmapSzOf h.nframes_mod
  have hcnt : mmapSzOf (memHighOf entries / 4096) ≤ 2 ^ 32 := by
    unfold mmapSzOf
    split <;> omega
  unfold pmmInit
  dsimp only
  rw [hsz, if_neg (by rw [haddr]; omega)]
  change some (resvOrKeep (resvOrKeep (usableFreed entries mem) _
    (((usableFreed entries mem).mmapSz + 4095) / 4096 % 2 ^ 32)) _ 1) = _
  rw [hmmapSz, Nat.mod_eq_of_lt (show _ / 4096 < 2 ^ 32 by rw [haddr]; omega),
    Nat.mod_eq_of_lt (show (_ + 4095) / 4096 < 2 ^ 32 by omega)]
  rfl

end

end BootMap

/-- On every memory map of the boot protocol `pmm_init` returns, and exactly the frames of usable
memory that hold neither a part of the bitmap nor the SMP startup blob are marked free. -/
theorem pmmInit_markedFree_iff {entries : List MemmapEntry} (h : BootMap entries)
    (mem : Nat → Bool) : ∃ s, pmmInit entries mem = some s ∧ ∀ f, s.MarkedFree f ↔
      (∃ entry ∈ entries, entry.usable = true ∧ entry.Holds f) ∧ ¬ BitmapFrame entries f ∧
        f ≠ 0x8000 / 4096 := by
  obtain ⟨hvalid, hmmapSz, hmmap⟩ := h.bitmapReserved_spec mem
  refine ⟨_, h.pmmInit_eq mem, fun f => ?_⟩
  unfold PmmState.MarkedFree
  rw [resvOrKeep_mmapSz]
  constructor
  · rintro ⟨hf, hfree⟩
    obtain ⟨hfree, htramp⟩ := (resvOrKeep_mmap_one hvalid (by decide) hf).mp hfree
    rw [hmmapSz] at hf
    obtain ⟨husable, hbitmap⟩ := (hmmap f hf).mp hfree
    exact ⟨husable, hbitmap, htramp⟩
  · rintro ⟨⟨entry, he, husable, hholds⟩, hbitmap, htramp⟩
    have hf := (h.lt_bits_of_holds he hholds).2
    have hfree := (hmmap f hf).mpr ⟨⟨entry, he, husable, hholds⟩, hbitmap⟩
    rw [← hmmapSz] at hf
    exact ⟨hf, (resvOrKeep_mmap_one hvalid (by decide) hf).mpr ⟨hfree, htramp⟩⟩

-- 16 usable frames from frame 1 on: the bitmap is in frame 1
theorem pmmInit_sixteen_frames :
    ∃ s, pmmInit [⟨0x1000, 0x10000, true⟩] (fun _ => true) = some s ∧ s.MarkedFree 2 ∧
      ¬ s.MarkedFree 1 ∧ ¬ s.MarkedFree 8 := by
  have hmap : BootMap [⟨0x1000, 0x10000, true⟩] := by
    refine ⟨?_, ?_, ?_, ?_, ⟨0x1000, 0x10000, true⟩, ?_⟩
    · exact forall_mem_singleton.mpr fun _ => ⟨by decide, by decide⟩
    · exact pairwise_singleton _ _
    · exact forall_mem_singleton.mpr fun _ => by decide
    · exact forall_mem_singleton.mpr (by decide)
    · exact ⟨mem_singleton_self _, rfl, by decide⟩
  obtain ⟨s, hs, hfree⟩ := pmmInit_markedFree_iff hmap fun _ => true
  refine ⟨s, hs, (hfree 2).mpr ⟨?_, ?_, by decide⟩, fun hone => ?_, fun height => ?_⟩
  · exact ⟨_, mem_singleton_self _, rfl, by decide, by decide⟩
  · rw [hmap.bitmapFrame_iff]
    decide
  · exact ((hfree 1).mp hone).2.1 ((hmap.bitmapFrame_iff 1).mpr (by decide))
  · exact ((hfree 8).mp height).2.2 rfl

end Mem
