import RandomOs.Ext2.Ledger

/-!
# Files without holes (`ext2.c`)

`ino_allocblk` scans for the first empty pointer, `ino_getblkid` computes the place of an index.
For a file whose first blocks are all there the two agree on the next index.  `rdblk` and `wrblk`
pass sector numbers of 32 bits, so this holds for devices of at most 2 TiB only.
-/

namespace Ext2

open Lib Bytes Kern List Geo Held

/-- The blocks `0 .. m - 1` of the file are allocated, and no later one is. -/
def Vol.Dense (v : Vol) (n m : Nat) : Prop :=
  (∀ i < m, v.blockAt n i ≠ none) ∧ ∀ i, m ≤ i → i < v.geo.fileBlocks → v.blockAt n i = none

/-- Block `b` is the new block `m` of the file, and was free.  An index of 64 bits is cut to 32 bits
behind the third slot of tables, where it may meet `m`. -/
structure Held.Appended (n m : Nat) (s : Held) (b : Nat) (s' : Held) : Prop where
  found : (inoGetblkid s'.inod m).run s'.fs = .ok b s'.fs
  others : ∀ i, i < 2 ^ 32 ∨ m < 12 + s.fs.geo.ppb + s.fs.geo.ppb ^ 2 → i ≠ m → ∀ w,
    (inoGetblkid s'.inod i).run s'.fs = .ok w s'.fs ↔ (inoGetblkid s.inod i).run s.fs = .ok w s.fs
  free : s.fs.vol.marked b = false
  blocks : ∃ T : Finset Nat,
    (∀ x, x ∈ T ↔ s'.fs.vol.marked x = true ∧ s.fs.vol.marked x = false) ∧
    get32 s'.inod 28 = (get32 s.inod 28 + s.fs.geo.spb * T.card) % 2 ^ 32 ∧
    (s.fs.vol.Tally n → get32 s'.inod 28 = get32 s.inod 28 + s.fs.geo.spb * T.card)

theorem Geo.flushSafe_of_copies {g : Geo} (hg : g.Mounted)
    (hcopies : ∀ bg < g.nbgs, g.KeepsCopy bg) (hcount : g.blocksCount < 2 ^ 31)
    (hfirst : g.firstDataBlock = if g.blocksz = 1024 then 1 else 0) : g.FlushSafe := by
  have hsmall : g.firstDataBlock ≤ 1 := by
    rw [hfirst]
    split <;> omega
  have hstart : ∀ bg < g.nbgs, g.start bg + 1 < 2 ^ 32 := by
    intro bg hbg
    have hmul := hg.mul_lt hbg
    unfold start
    omega
  refine ⟨⟨?_, fun bg hbg _ hbig => ?_, fun bg hbg _ hbig => ?_⟩, ?_⟩
  · by_cases hsz : g.blocksz = 1024
    · exact Or.inl hsz
    · rw [hfirst, if_neg hsz]
      exact Or.inr (Or.inl rfl)
  · have := hstart bg hbg
    omega
  · have := hstart bg hbg
    omega
  · by_cases htwo : 2 < g.nbgs
    · rcases hcopies 2 htwo with hoff | hbackup
      · exact Or.inl hoff
      · exact absurd hbackup (by decide)
    · right
      left
      have hle := hg.blocksCount_le
      have hmul : g.nbgs * g.blocksPerGroup ≤ 2 * g.blocksPerGroup :=
        Nat.mul_le_mul_right _ (by omega)
      unfold start
      omega

section Dense

variable {n m : Nat} {s s' : Held} {b : Nat}

variable {i : Nat}

-- the lowest hole of a dense file is the next index
theorem Vol.Dense.lowest {v : Vol} (h : v.Dense n m) (hm : m < v.geo.fileBlocks)
    (hhole : v.blockAt n i = none) (hlow : ∀ j < i, v.blockAt n j ≠ none) : i = m := by
  by_contra hne
  rcases Nat.lt_or_gt_of_ne hne with hlt | hlt
  · exact h.1 i hlt hhole
  · exact hlow m hlt (h.2 m (Nat.le_refl m) hm)

/-- The lookup tells whether two volumes have the same block at a path. -/
theorem getblkid_congr (hs : s.Synced n) (hs' : s'.Synced n) (hgeo : s'.fs.geo = s.fs.geo)
    (href : ∀ k es, s.fs.geo.blkPath i = some (k, es) →
      s'.fs.vol.ref n (k :: es) = s.fs.vol.ref n (k :: es)) (w : Nat) :
    (inoGetblkid s'.inod i).run s'.fs = .ok w s'.fs ↔
      (inoGetblkid s.inod i).run s.fs = .ok w s.fs := by
  cases hpath : s.fs.geo.blkPath i with
  | none =>
    rw [run_inoGetblkid_of_none hpath, run_inoGetblkid_of_none (by rw [hgeo, hpath])]
    constructor
    · intro h
      cases h
    · intro h
      cases h
  | some p =>
    obtain ⟨k, es⟩ := p
    obtain ⟨x, hrun, hx⟩ := run_inoGetblkid hs.geo hs.sound hs.live hpath
    obtain ⟨x', hrun', hx'⟩ := run_inoGetblkid hs'.geo hs'.sound hs'.live (by rw [hgeo, hpath])
    have hsame : x' = x := by
      rw [href k es hpath, hx] at hx'
      unfold ptr at hx'
      split at hx' <;> split at hx' <;> simp_all
    rw [hs.inod, hs'.inod, hrun, hrun', hsame]
    constructor
    · intro h
      cases h
      rfl
    · intro h
      cases h
      rfl

-- an index with the path of `m` is `m`
theorem Geo.Layout.eq_of_blkPath {g : Geo} (hg : g.Layout) {p : Nat × List Nat}
    (hm : m < g.fileBlocks) (hwide : i < 2 ^ 32 ∨ m < 12 + g.ppb + g.ppb ^ 2)
    (hi : g.blkPath i = some p) (hp : g.blkPath m = some p) : i = m := by
  by_cases hlt : i < g.fileBlocks
  · exact hg.blkPath_injective hlt hm (hi.trans hp.symm)
  rcases hwide with h32 | hlow
  · rw [hg.blkPath_of_ge (by omega) h32] at hi
    cases hi
  -- `m` is not reached through the last slot
  exfalso
  obtain ⟨k, es⟩ := p
  obtain ⟨-, hb1, hb2, hb3⟩ := @slotBase_eq g
  have hk : k = 14 := hg.blkPath_last (by omega) hi
  rcases index_cases hm with h12 | ⟨d, j, hd, hj, rfl⟩
  · rw [blkPath_of_lt h12] at hp
    injection hp with hp
    injection hp with hp
    omega
  · rw [hg.blkPath_slot hd hj] at hp
    injection hp with hp
    injection hp with hp
    obtain rfl : d = 2 := by omega
    omega

theorem Held.Lowest.appended (hs : s.Synced n) (hm : m < s.fs.geo.fileBlocks)
    (hdense : s.fs.vol.Dense n m) (hlow : s.Lowest n b s') {T : Finset Nat}
    (htook : s.fs.vol.Took n s'.fs.vol T) (hfree : s.fs.vol.marked b = false) :
    s.Appended n m b s' := by
  obtain ⟨hs', i, hi, k, es, hpath, hfills, hbefore⟩ := hlow
  have hgeo : s'.fs.geo = s.fs.geo := hfills.geo
  have him : i = m := by
    apply hdense.lowest hm _ hbefore
    rw [Vol.blockAt_of_path hpath]
    exact hfills.was
  subst him
  refine ⟨?_, fun j hj hne w => ?_, hfree, T, fun x => ?_, ?_, fun htally => ?_⟩
  · obtain ⟨w, hrun, hw⟩ := run_inoGetblkid hs'.geo hs'.sound hs'.live (by rw [hgeo, hpath])
    rw [hfills.now] at hw
    obtain ⟨hb, -⟩ := ptr_eq_some hw.symm
    cases hb
    rw [hs'.inod]
    exact hrun
  · apply getblkid_congr hs hs' hgeo
    intro k' es' hpath'
    apply hfills.refs n _ hs.live (hs.geo.toLayout.blkPath_full hpath').2.1
    rintro ⟨-, heq⟩
    cases heq
    exact hne (hs.geo.toLayout.eq_of_blkPath hm hj hpath' hpath)
  · rw [htook.marked]
    constructor
    · exact fun hx => ⟨Or.inr hx, htook.free x hx⟩
    · rintro ⟨hmark | hx, hwas⟩
      · rw [hwas] at hmark
        cases hmark
      · exact hx
  · rw [hs.inod, hs'.inod]
    exact htook.blocks
  have htally' := htook.tally hs.sound hs'.sound hs.geo hs.live hs.live htally
  unfold Vol.Tally at htally htally'
  rw [htook.ncard hs.sound hs.live, htook.keeps.geo, Nat.mul_add, ← htally] at htally'
  rw [hs.inod, hs'.inod]
  exact htally'

end Dense

/-- On a device whose sector numbers fit 32 bits, `ino_allocblk` appends to a dense file.  The bound
is one on the whole volume: every call flushes the copies at the start of all groups. -/
theorem allocblk_appends_dense {n m : Nat} {fs : Ext2fs} (hfs : fs.Consistent)
    (hcopies : ∀ bg < fs.geo.nbgs, fs.geo.KeepsCopy bg) (hcount : fs.geo.blocksCount < 2 ^ 31)
    (hfirst : fs.geo.firstDataBlock = if fs.geo.blocksz = 1024 then 1 else 0)
    (hn : fs.vol.Live n) (hm : m < 12 + fs.geo.ppb + fs.geo.ppb ^ 2 + fs.geo.ppb ^ 3)
    (hdense : fs.vol.Dense n m) (hsectors : fs.geo.blocksCount * fs.geo.spb ≤ 2 ^ 32)
    {b : Nat} {s' : Held} (hrun : (inoAllocblk n).run ⟨fs, fs.vol.inode n⟩ = .ok b s') :
    Appended n m ⟨fs, fs.vol.inode n⟩ b s' := by
  have hflush := flushSafe_of_copies hfs.layout.mounted hcopies hcount hfirst
  have hs : Synced n ⟨fs, fs.vol.inode n⟩ := ⟨⟨hfs.layout, hsectors⟩, hfs.sound, hn, rfl⟩
  obtain ⟨-, -, -, hblocks⟩ := @slotBase_eq fs.geo
  obtain ⟨hlow, T, htook, hmem⟩ := (inoAllocblk_took hs hflush).ok hrun
  have hfree := htook.free b (hmem b rfl)
  exact hlow.appended hs (by rw [hblocks]; exact hm) hdense htook hfree

theorem dense_of_empty {v : Vol} {n : Nat} (h : ∀ k < 15, iBlock (v.inode n) k = 0) :
    v.Dense n 0 := by
  refine ⟨fun i hi => by omega, fun i _ _ => ?_⟩
  unfold Vol.blockAt
  split
  · rfl
  · by_contra hne
    obtain ⟨c, hc⟩ := Option.ne_none_iff_exists'.mp hne
    cases (Vol.ref_of_empty h hc).1

/-- The first block of the empty file of the small volume. -/
theorem allocblk_appends_small :
    ∃ s', (inoAllocblk 7).run ⟨smallFs, smallFs.vol.inode 7⟩ = .ok 6 s' ∧
      Appended 7 0 ⟨smallFs, smallFs.vol.inode 7⟩ 6 s' := by
  obtain ⟨hnbgs, hbc, hfdb, -, -, hbs, -, -, hspb⟩ := small_geo
  have hrun : (inoAllocblk 7).run ⟨smallFs, smallFs.vol.inode 7⟩ =
      .ok 6 ((inoAllocblk 7).after ⟨smallFs, smallFs.vol.inode 7⟩) := by
    rw [small_inode]
    exact Op.run_of_returns (by decide)
  refine ⟨_, hrun, allocblk_appends_dense small_consistent (fun bg _ => Or.inl rfl) (by omega)
    (by rw [hbs]; rfl) small_regular.live (by omega) (dense_of_empty fun k _ => small_slots k)
    (by rw [hbc]; decide) hrun⟩

theorem takeBlock_geo (fs : Ext2fs) (grp : Nat) : (fs.takeBlock grp).geo = fs.geo :=
  count_geo (Or.inl rfl) (Or.inl rfl)

theorem takeBlock_disk (fs : Ext2fs) (grp : Nat) : (fs.takeBlock grp).disk = fs.disk := rfl

variable {n b : Nat} {fs : Ext2fs}

theorem run_newSlot {k : Nat} {fs₁ fs₂ : Ext2fs} {inod : Bytes}
    (halloc : (allocblk (fs.geo.inoGrp n)).run fs = .ok b fs₁)
    (hflush : (flushInode n ((mk fs₁ inod).setBlock k b).addBlocks.inod).run fs₁ = .ok () fs₂) :
    (newSlot n k).run ⟨fs, inod⟩ = .ok b ⟨fs₂, ((mk fs₁ inod).setBlock k b).addBlocks.inod⟩ := by
  unfold newSlot
  rw [Op.run_get_bind, Op.run_bind_of_ok (run_onFs_of_ok halloc)]
  change (onFs (flushInode n ((mk fs₁ inod).setBlock k b).addBlocks.inod) >>= fun _ =>
    pure b).run ((mk fs₁ inod).setBlock k b).addBlocks = _
  rw [Op.run_bind_of_ok (run_onFs_of_ok hflush)]
  rfl

theorem run_allocblk_here {bg idx : Nat} {bmp : Bytes} (hbg : bg < fs.geo.nbgs)
    (hfree : fs.freeBlocks bg ≠ 0) (hdev : fs.geo.blockBitmap bg < fs.geo.blocksCount)
    (hread : (rdblk (fs.geo.blockBitmap bg)).run fs = .ok bmp fs)
    (hclear : firstClear bmp (fs.geo.scanBits fs.geo.blocksPerGroup) = some idx) :
    (allocblk bg).run fs =
      (do flushBgs; flushSbs; pure (fs.geo.start bg % 2 ^ 32 + idx) : Op Ext2fs Nat).run
        ((fs.putBlock (fs.geo.blockBitmap bg) (setBit bmp idx)).takeBlock bg) := by
  obtain ⟨m, hm⟩ : ∃ m, fs.geo.nbgs = m + 1 := ⟨fs.geo.nbgs - 1, by omega⟩
  have hfrom : allocblkFrom bg fs.geo.nbgs 0 = allocblkFrom bg (m + 1) 0 := by rw [hm]
  rw [allocblk, Op.run_get_bind, if_neg (Nat.not_le_of_lt hbg), hfrom, allocblkFrom,
    Op.run_get_bind]
  rw [Nat.add_zero, Nat.mod_eq_of_lt hbg, if_neg hfree, Op.run_bind_of_ok hread, hclear]
  rw [Op.run_bind_of_ok (run_wrblk hdev _)]
  rfl

/-! ## A device of more than 2 TiB

Blocks of 4096 bytes in 16385 groups.  Every group starts with its copies of the superblock and the
descriptors, and has its bitmaps and its inode table behind them; but the block bitmap of the last
group is in its block 200.  The first inode of every group is an empty regular file.
-/

-- the place of the block bitmap in a group
def wideMap (grp : Nat) : Nat := if grp = 16384 then 200 else 130

def wideUsed (grp rel : Nat) : Bool := rel < 130 || rel == wideMap grp || rel == 131 || rel == 132

def wideDesc (grp : Nat) : Nat → Nat
  | 0 => grp * 32768 + wideMap grp
  | 1 => grp * 32768 + 131
  | 2 => grp * 32768 + 132
  -- the free inodes and the free blocks
  | 3 => 31 * 2 ^ 16 + 32635
  | _ => 0

def wideDisk : Bytes := fun a =>
  let grp := a / 4096 / 32768
  let rel := a / 4096 % 32768
  if rel = wideMap grp then ofBits (wideUsed grp) (a % 4096)
  else if rel = 131 then ofBits (· == 0) (a % 4096)
  else if rel = 132 then put16 zero 0 0x81A4 (a % 4096)
  else 0

def wideFs : Ext2fs :=
  { disk := wideDisk, written := [], isdyn := false
    sb := put32 (put32 (put32 (put32 zero 4 (16385 * 32768)) 12 (16385 * 32635)) 32 32768) 40 32
    nbgs := 16385, bgtbln := 129, bgs := ofWords fun w => wideDesc (w / 8) (w % 8)
    blocksz := 4096, spb := 8, ppb := 1024, gpb := 128 }

@[simp] theorem wide_geo : wideFs.geo.nbgs = 16385 ∧ wideFs.geo.blocksCount = 16385 * 32768 ∧
    wideFs.geo.firstDataBlock = 0 ∧ wideFs.geo.blocksPerGroup = 32768 ∧
    wideFs.geo.inodesPerGroup = 32 ∧ wideFs.geo.blocksz = 4096 ∧ wideFs.geo.inosz = 128 ∧
    wideFs.geo.bgtbln = 129 ∧ wideFs.geo.spb = 8 ∧ wideFs.geo.isdyn = false := by
  decide

theorem wideMap_cases (grp : Nat) :
    grp = 16384 ∧ wideMap grp = 200 ∨ grp ≠ 16384 ∧ wideMap grp = 130 := by
  unfold wideMap
  split
  · exact Or.inl ⟨by assumption, rfl⟩
  · exact Or.inr ⟨by assumption, rfl⟩

theorem wide_desc (grp : Nat) {o : Nat} (ho : o < 8) :
    get32 wideFs.bgs (32 * grp + 4 * o) = wideDesc grp o % 2 ^ 32 ∧
      get16 wideFs.bgs (32 * grp + 4 * o) = wideDesc grp o % 2 ^ 16 := by
  have hword : wideDesc ((8 * grp + o) / 8) ((8 * grp + o) % 8) = wideDesc grp o := by
    rw [show (8 * grp + o) / 8 = grp by omega, show (8 * grp + o) % 8 = o by omega]
  rw [show 32 * grp + 4 * o = 4 * (8 * grp + o) by omega, ← hword]
  exact ⟨get32_ofWords _ _, get16_ofWords _ _⟩

-- the three metadata blocks of a group
theorem wide_metadata {grp : Nat} (h : grp < 16385) :
    wideFs.geo.blockBitmap grp = grp * 32768 + wideMap grp ∧
      wideFs.geo.inodeBitmap grp = grp * 32768 + 131 ∧
      wideFs.geo.inodeTable grp = grp * 32768 + 132 := by
  have hmap := wideMap_cases grp
  refine ⟨(wide_desc grp (o := 0) (by omega)).1.trans ?_,
    (wide_desc grp (o := 1) (by omega)).1.trans ?_, (wide_desc grp (o := 2) (by omega)).1.trans ?_⟩
  · change (grp * 32768 + wideMap grp) % 2 ^ 32 = _
    omega
  · change (grp * 32768 + 131) % 2 ^ 32 = _
    omega
  · change (grp * 32768 + 132) % 2 ^ 32 = _
    omega

theorem wide_free (grp : Nat) : wideFs.freeBlocks grp = 32635 := by
  refine (wide_desc grp (o := 3) (by omega)).2.trans ?_
  change (31 * 2 ^ 16 + 32635) % 2 ^ 16 = _
  omega

theorem wide_mounted : wideFs.geo.Mounted := by
  refine ⟨⟨12, by decide, by decide, by simp⟩, by decide, by decide,
    by decide, by simp, by simp, by simp, by simp, by simp, by simp, fun i hi => ?_⟩
  simp only [wide_geo] at hi ⊢
  omega

-- where a metadata block is
def wideRel : Role → Nat
  | .blockBitmap grp => wideMap grp
  | .inodeBitmap _ => 131
  | .inodeTable _ _ => 132

def wideGrp : Role → Nat
  | .blockBitmap grp => grp
  | .inodeBitmap grp => grp
  | .inodeTable grp _ => grp

theorem wide_role {r : Role} (hr : r.Valid wideFs.geo) :
    wideGrp r < 16385 ∧ r.blk wideFs.geo = wideGrp r * 32768 + wideRel r := by
  cases r with
  | blockBitmap grp =>
    exact ⟨hr, (wide_metadata hr).1⟩
  | inodeBitmap grp =>
    exact ⟨hr, (wide_metadata hr).2.1⟩
  | inodeTable grp k =>
    simp only [Role.Valid, wide_geo] at hr
    obtain rfl : k = 0 := by omega
    exact ⟨hr.1, (wide_metadata hr.1).2.2⟩

theorem wide_sparseSuper : wideFs.geo.sparseSuper = false := by
  simp [sparseSuper]

theorem wide_reserved : wideFs.geo.Reserved b ↔ b % 32768 ≤ 129 := by
  simp [Reserved, KeepsCopy, wide_sparseSuper]

theorem wideRel_cases (r : Role) : wideRel r = wideMap (wideGrp r) ∨ wideRel r = 131 ∨
    wideRel r = 132 := by
  cases r with
  | blockBitmap grp => exact Or.inl rfl
  | inodeBitmap grp => exact Or.inr (Or.inl rfl)
  | inodeTable grp k => exact Or.inr (Or.inr rfl)

theorem wideRel_bounds (r : Role) : 130 ≤ wideRel r ∧ wideRel r ≤ 200 := by
  have := wideMap_cases (wideGrp r)
  have := wideRel_cases r
  omega

-- a metadata block is told by its group and its place
theorem wide_apart {r r' : Role} (hr : r.Valid wideFs.geo) (hr' : r'.Valid wideFs.geo)
    (hgrp : wideGrp r = wideGrp r') (hrel : wideRel r = wideRel r') : r = r' := by
  have htable : ∀ {grp k}, (Role.inodeTable grp k).Valid wideFs.geo → k = 0 := by
    intro grp k h
    simp only [Role.Valid, wide_geo] at h
    omega
  have hmap := wideMap_cases (wideGrp r)
  have hmap' := wideMap_cases (wideGrp r')
  cases r <;> cases r' <;> simp only [wideRel, wideGrp] at hgrp hrel hmap hmap' <;> try omega
  · rw [hgrp]
  · rw [hgrp]
  · rw [hgrp, htable hr, htable hr']

theorem wide_layout : wideFs.geo.Layout := by
  refine ⟨wide_mounted, by simp, by simp, by simp, by simp, by simp, by simp, by simp,
    fun r hr => ?_, fun r r' hr hr' heq => ?_, fun r hr hres => ?_⟩
  · obtain ⟨hgrp, hblk⟩ := wide_role hr
    have := wideRel_bounds r
    simp only [wide_geo]
    omega
  · obtain ⟨-, hblk⟩ := wide_role hr
    obtain ⟨-, hblk'⟩ := wide_role hr'
    have := wideRel_bounds r
    have := wideRel_bounds r'
    exact wide_apart hr hr' (by omega) (by omega)
  · obtain ⟨-, hblk⟩ := wide_role hr
    have := wideRel_bounds r
    rw [wide_reserved] at hres
    omega

-- the bytes of a block
theorem wide_disk (b : Nat) {i : Nat} (hi : i < 4096) : wideDisk (b * 4096 + i) =
    if b % 32768 = wideMap (b / 32768) then ofBits (wideUsed (b / 32768)) i
    else if b % 32768 = 131 then ofBits (· == 0) i
    else if b % 32768 = 132 then put16 zero 0 0x81A4 i
    else 0 := by
  unfold wideDisk
  rw [show (b * 4096 + i) / 4096 = b by omega, show (b * 4096 + i) % 4096 = i by omega]

theorem wide_block (b i : Nat) : wideFs.block b i = wideDisk (b * 4096 + i) := by
  rfl

theorem wide_marked (hb : b < 16385 * 32768) :
    wideFs.vol.marked b = wideUsed (b / 32768) (b % 32768) := by
  have hin : wideFs.geo.InGroups b := by simpa [InGroups] using hb
  have hgrp : b / 32768 < 16385 := by omega
  have hmap := wideMap_cases (b / 32768)
  have hgrpOf : wideFs.geo.grpOf b = b / 32768 := by simp [grpOf]
  have hposOf : wideFs.geo.posOf b = b % 32768 := by simp [posOf]
  rw [vol_marked hin, hgrpOf, (wide_metadata hgrp).1]
  refine Eq.trans (bit_congr ?_) (bit_ofBits (wideUsed (b / 32768)) (b % 32768))
  rw [wide_block, wide_disk _ (by omega),
    show (b / 32768 * 32768 + wideMap (b / 32768)) / 32768 = b / 32768 by omega,
    show (b / 32768 * 32768 + wideMap (b / 32768)) % 32768 = wideMap (b / 32768) by omega,
    if_pos rfl]

theorem wide_spares : wideFs.vol.Spares := by
  intro b hb hdata
  have hlt : b < 16385 * 32768 := by simpa [InGroups] using hb
  rw [wide_marked hlt]
  by_contra hnot
  rw [Bool.not_eq_true] at hnot
  simp only [wideUsed, Bool.or_eq_false_iff, decide_eq_false_iff_not, beq_eq_false_iff_ne] at hnot
  obtain ⟨⟨⟨hres, hmap⟩, h131⟩, h132⟩ := hnot
  apply hdata
  refine ⟨by simp, by simpa using hlt, ?_⟩
  rintro (hr | ⟨r, hr, heq⟩)
  · have := wide_reserved.mp hr
    omega
  obtain ⟨hgrp, hblk⟩ := wide_role hr
  have hbounds := wideRel_bounds r
  change r.blk wideFs.geo = b at heq
  have hdiv : b / 32768 = wideGrp r := by omega
  rw [hdiv] at hmap
  rcases wideRel_cases r with h | h | h <;> omega

-- only the mode of an inode is not zero
theorem wide_inode (hn : wideFs.geo.InodeNo n) {i : Nat} (hi : 2 ≤ i) :
    wideFs.vol.inode n i = 0 := by
  have hgrp := hn.inoGrp_lt wide_layout
  have hpos := inoPos_lt wide_layout n
  have hoff := inoOff_le wide_layout n
  simp only [wide_geo] at hgrp hpos hoff
  rw [vol_inode hn]
  by_cases h128 : i < 128
  swap
  · exact trim_of_ge _ (by omega)
  have hblk : wideFs.geo.inoBlk n = wideFs.geo.inoGrp n * 32768 + 132 := by
    simp only [inoBlk, wide_geo, (wide_metadata hgrp).2.2]
    omega
  have hmap := wideMap_cases (wideFs.geo.inoGrp n)
  rw [trim_apply _ h128, hblk, wide_block, wide_disk _ (by omega),
    show (wideFs.geo.inoGrp n * 32768 + 132) / 32768 = wideFs.geo.inoGrp n by omega,
    show (wideFs.geo.inoGrp n * 32768 + 132) % 32768 = 132 by omega, if_neg (by omega),
    put16_of_ne (by omega)]
  rfl

theorem wide_slots (hn : wideFs.vol.Live n) (k : Nat) : iBlock (wideFs.vol.inode n) k = 0 := by
  rw [← get32_zero (40 + 4 * k)]
  exact get32_congr fun i _ => wide_inode (inodeNo_of_inUse hn.1) (by omega)

theorem wide_consistent : wideFs.Consistent := by
  refine ⟨wide_layout, Vol.Sound.of_empty wide_spares fun n hn k _ => wide_slots hn k,
    fun n hn => ?_⟩
  have hsize : wideFs.geo.getisize (wideFs.vol.inode n) = 0 := by
    rw [← get32_zero 4]
    exact get32_congr fun i _ => wide_inode (inodeNo_of_inUse hn.1) (by omega)
  omega

-- the inode of the last group
theorem wide_last : wideFs.geo.InodeNo 524289 ∧ wideFs.geo.inoGrp 524289 = 16384 ∧
    wideFs.geo.inoPos 524289 = 0 := by
  simp [InodeNo, inoGrp, inoPos]

theorem wide_last_blk : wideFs.geo.inoBlk 524289 = 16384 * 32768 + 132 := by
  obtain ⟨-, hgrp, hpos⟩ := wide_last
  unfold inoBlk
  rw [hgrp, hpos, (wide_metadata (by omega)).2.2, Nat.zero_mul, Nat.zero_div]

theorem wide_last_live : wideFs.vol.Live 524289 := by
  obtain ⟨hno, hgrp, hpos⟩ := wide_last
  refine ⟨?_, Or.inl ?_⟩
  · rw [vol_inUse hno, hgrp]
    refine Eq.trans (bit_congr ?_) (bit_ofBits (· == 0) 0)
    rw [wide_block]
    decide
  · have hoff : wideFs.geo.inoOff 524289 = 0 := by
      unfold inoOff
      rw [hpos, Nat.zero_mul, Nat.zero_mod]
    have hbyte : ∀ i < 2, wideFs.vol.inode 524289 i = put16 zero 0 0x81A4 i := by
      intro i hi
      rw [vol_inode hno, trim_apply _ (by omega), hoff, wide_block, wide_disk _ (by omega),
        if_neg (by decide), if_neg (by decide), if_pos (by decide), Nat.zero_add]
    unfold iType
    rw [get16_congr (hbyte 0 (by omega)) (hbyte 1 (by omega))]
    decide

theorem wide_copies : wideFs.geo.CopiesFit := by
  intro bg hbg
  simp only [start, wide_geo] at hbg ⊢
  omega

theorem wide_offCopies {c : Nat} (hc : 130 ≤ c ∧ c < 32768) : wideFs.geo.OffCopies (c * 4096) := by
  refine ⟨fun bg _ r hr => ?_, ?_⟩
  · simp only [Spans, start, wide_geo] at hr ⊢
    omega
  · simp only [Spans, wide_geo]
    omega

/-- The bitmap of the last group is read from block 200 of the device: the block that comes back is
the copy of the superblock in that group. -/
theorem wide_allocblk : ∃ fs, (allocblk 16384).run wideFs = .ok (16384 * 32768) fs ∧
    fs.geo = wideFs.geo ∧ fs.disk (131 * 4096) = wideDisk (131 * 4096) := by
  have hmap : wideFs.geo.blockBitmap 16384 = 16384 * 32768 + 200 := (wide_metadata (by omega)).1
  have hdev : wideFs.geo.blockBitmap 16384 < wideFs.geo.blocksCount := by simp [hmap]
  have hread : (rdblk (wideFs.geo.blockBitmap 16384)).run wideFs =
      .ok (blockRead wideDisk 1600) wideFs := by
    rw [hmap]
    rfl
  have hclear : firstClear (blockRead wideDisk 1600)
      (wideFs.geo.scanBits wideFs.geo.blocksPerGroup) = some 0 := by
    apply List.find?_range_eq_some.mpr
    refine ⟨?_, ?_, fun j hj => by omega⟩
    · have hbyte : blockRead wideDisk 1600 0 = 0 := by
        unfold blockRead
        rw [show 1600 * 512 + 0 = 200 * 4096 + 0 from rfl, wide_disk _ (by omega),
          if_neg (by decide), if_neg (by decide), if_neg (by decide)]
      unfold bit
      rw [hbyte]
      rfl
    · simp [scanBits]
  -- the state with the block marked, in block 200
  generalize hfs₁ : (wideFs.putBlock (wideFs.geo.blockBitmap 16384)
    (setBit (blockRead wideDisk 1600) 0)).takeBlock 16384 = fs₁
  have hgeo₁ : fs₁.geo = wideFs.geo := by
    rw [← hfs₁, takeBlock_geo, putBlock_geo]
  have hdisk₁ : fs₁.disk (131 * 4096) = wideDisk (131 * 4096) := by
    have hout : ¬ wideFs.geo.Spans (wideFs.geo.blockBitmap 16384) (131 * 4096) := by
      simp [Spans, hmap]
    rw [← hfs₁, takeBlock_disk, putBlock_disk_of_not_spans hout]
    rfl
  obtain ⟨fs₂, hrun, hgeo₂, -, hframe⟩ := run_flushes (hgeo₁ ▸ wide_mounted)
    (hgeo₁ ▸ wide_copies) (pure (wideFs.geo.start 16384 % 2 ^ 32 + 0))
  refine ⟨fs₂, ?_, hgeo₂.trans hgeo₁, ?_⟩
  · rw [run_allocblk_here (by simp) (by rw [wide_free]; decide) hdev hread hclear, hfs₁, hrun]
    simp [start]
  · rw [hframe (hgeo₁ ▸ wide_offCopies (by decide)), hdisk₁]

-- the inode bitmap of the first group is read for the one of the last
theorem wide_flushInode (hgeo : fs.geo = wideFs.geo)
    (hdisk : fs.disk (131 * 4096) = wideDisk (131 * 4096)) (inod : Bytes) :
    ∃ fs', (flushInode 524289 inod).run fs = .ok () fs' := by
  obtain ⟨hno, hgrp, hpos⟩ := wide_last
  have hbitmap := (@wide_metadata 16384 (by omega)).2.1
  have hbyte : blockRead fs.disk 1048 0 = 1 := by
    change fs.disk (131 * 4096) = 1
    rw [hdisk]
    exact (wide_disk 131 (i := 0) (by omega)).trans (by decide)
  have hread : (rdblk (fs.geo.inodeBitmap (fs.geo.inoGrp 524289))).run fs =
      .ok (blockRead fs.disk 1048) fs := by
    rw [hgeo, hgrp, hbitmap, run_rdblk (by simp [hgeo]), hgeo]
    simp
  have hused : (inodeused 524289).run fs = .ok true fs := by
    rw [run_inodeused_of_read (hgeo ▸ wide_layout) (hgeo ▸ hno) hread, hgeo, hpos]
    exact congrArg (EStateM.Result.ok · fs) (by unfold bit; rw [hbyte]; rfl)
  have hblk : fs.geo.inoBlk 524289 = 16384 * 32768 + 132 := by
    rw [hgeo, wide_last_blk]
  have hdev : fs.geo.inoBlk 524289 % 2 ^ 32 < fs.geo.blocksCount := by
    rw [hblk]
    simp [hgeo]
  refine ⟨_, run_flushInode_of_used (by decide) hused (run_rdblk hdev) hdev ?_⟩
  rw [hgeo]
  exact inoOff_le wide_layout _

/-- A group behind 2 TiB takes the bitmap of another block for its own: the new block of the file is
one that was in use. -/
theorem wide_alloc_not_free : wideFs.Consistent ∧
    (∀ bg < wideFs.geo.nbgs, wideFs.geo.KeepsCopy bg) ∧ wideFs.geo.blocksCount < 2 ^ 31 ∧
    wideFs.geo.firstDataBlock = (if wideFs.geo.blocksz = 1024 then 1 else 0) ∧
    wideFs.vol.Live 524289 ∧ wideFs.vol.Dense 524289 0 ∧
    ∃ s', (inoAllocblk 524289).run ⟨wideFs, wideFs.vol.inode 524289⟩ = .ok (2 ^ 29) s' ∧
      ¬ Appended 524289 0 ⟨wideFs, wideFs.vol.inode 524289⟩ (2 ^ 29) s' := by
  obtain ⟨hno, hgrp, hpos⟩ := wide_last
  obtain ⟨fs₁, hrun₁, hgeo₁, hdisk₁⟩ := wide_allocblk
  have hfind : (List.range 12).find? (fun i => iBlock (wideFs.vol.inode 524289) i == 0) =
      some 0 := by
    apply List.find?_range_eq_some.mpr
    refine ⟨?_, by decide, fun j hj => by omega⟩
    rw [wide_slots wide_last_live]
    rfl
  have halloc : (allocblk (wideFs.geo.inoGrp 524289)).run wideFs = .ok (2 ^ 29) fs₁ := by
    rw [hgrp, hrun₁]
    rfl
  obtain ⟨fs₂, hrun₂⟩ := wide_flushInode hgeo₁ hdisk₁
    ((mk fs₁ (wideFs.vol.inode 524289)).setBlock 0 (2 ^ 29)).addBlocks.inod
  refine ⟨wide_consistent, fun bg _ => Or.inl wide_sparseSuper, by simp, by simp,
    wide_last_live, dense_of_empty fun k _ => wide_slots wide_last_live k,
    ⟨fs₂, ((mk fs₁ (wideFs.vol.inode 524289)).setBlock 0 (2 ^ 29)).addBlocks.inod⟩, ?_, ?_⟩
  · unfold inoAllocblk
    rw [Op.run_get_bind]
    rw [hfind]
    exact run_newSlot halloc hrun₂
  · intro happ
    have hfree := happ.free
    rw [wide_marked (by omega)] at hfree
    revert hfree
    decide

end Ext2
