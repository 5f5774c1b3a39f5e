import RandomOs.Ext2.Volume

/-!
# Allocating and freeing blocks (`ext2.c`)
-/

namespace Ext2

open Lib Bytes Kern
open Op (Post)

/-! ## Model -/

inductive BmpOp
  | set
  | clr
  | get

def modbmp (blkid idx : Nat) (op : BmpOp) : Op Ext2fs Nat := do
  let fs ← get
  if fs.geo.blocksCount ≤ blkid then Op.fail (-ERANGE)
  else
    let bmp ← rdblk blkid
    -- the buffer has the size of a block
    if fs.geo.blocksz ≤ idx / 8 then Op.fault
    else
      match op with
      | .set =>
        wrblk blkid (setBit bmp idx)
        pure 0
      | .clr =>
        wrblk blkid (clrBit bmp idx)
        pure 0
      | .get => pure ((bmp (idx / 8)).toNat &&& 2 ^ (idx % 8))

/-- Adds to a counter of a group and to the one of the superblock. -/
def Ext2fs.count (fs : Ext2fs) (grp bgOff sbOff d16 d32 : Nat) : Ext2fs :=
  { fs with
    bgs := put16 fs.bgs (32 * grp + bgOff) (get16 fs.bgs (32 * grp + bgOff) + d16)
    sb := put32 fs.sb sbOff (get32 fs.sb sbOff + d32) }

-- `bg_free_blocks_count` and `s_free_blocks_count`, `bg_free_inodes_count` and
-- `s_free_inodes_count`; the words wrap around
def Ext2fs.giveBlock (fs : Ext2fs) (grp : Nat) : Ext2fs := fs.count grp 12 12 1 1
def Ext2fs.takeBlock (fs : Ext2fs) (grp : Nat) : Ext2fs :=
  fs.count grp 12 12 (2 ^ 16 - 1) (2 ^ 32 - 1)
def Ext2fs.giveInode (fs : Ext2fs) (grp : Nat) : Ext2fs := fs.count grp 14 16 1 1
def Ext2fs.takeInode (fs : Ext2fs) (grp : Nat) : Ext2fs :=
  fs.count grp 14 16 (2 ^ 16 - 1) (2 ^ 32 - 1)

def Ext2fs.freeBlocks (fs : Ext2fs) (grp : Nat) : Nat := get16 fs.bgs (32 * grp + 12)
def Ext2fs.freeInodes (fs : Ext2fs) (grp : Nat) : Nat := get16 fs.bgs (32 * grp + 14)

/-- How many bits of a bitmap for `n` things the searches look at. -/
def Geo.scanBits (g : Geo) (n : Nat) : Nat := min n (8 * min ((n + 7) % 2 ^ 32 / 8) g.blocksz)

def firstClear (bmp : Bytes) (n : Nat) : Option Nat := (List.range n).find? fun k => !bit bmp k

/-- The loop of `allocblk`, with `m` groups to go. -/
def allocblkFrom (bg : Nat) : (m n : Nat) → Op Ext2fs Nat
  | 0, _ => Op.fail (-ENOSPC)
  | m + 1, n => do
      let fs ← get
      let grp := (bg + n) % fs.geo.nbgs
      if fs.freeBlocks grp = 0 then allocblkFrom bg m (n + 1)
      else
        let bmp ← rdblk (fs.geo.blockBitmap grp)
        match firstClear bmp (fs.geo.scanBits fs.geo.blocksPerGroup) with
        | none => allocblkFrom bg m (n + 1)
        | some idx =>
          wrblk (fs.geo.blockBitmap grp) (setBit bmp idx)
          modify (·.takeBlock grp)
          flushBgs
          flushSbs
          pure (fs.geo.start grp % 2 ^ 32 + idx)

def allocblk (bg : Nat) : Op Ext2fs Nat := do
  let fs ← get
  if fs.geo.nbgs ≤ bg then Op.fail (-EINVAL) else allocblkFrom bg fs.geo.nbgs 0

def freeblk (blkid : Nat) : Op Ext2fs Unit := do
  if blkid = 0 then pure ()
  else
    let fs ← get
    -- a difference of two `u32`
    let rel := (blkid + (2 ^ 32 - fs.geo.firstDataBlock)) % 2 ^ 32
    let bg := rel / fs.geo.blocksPerGroup
    Op.ignore (wrblk blkid zero)
    -- `bgs` has `nbgs` entries
    if fs.geo.nbgs ≤ bg then Op.fault
    else
      let _ ← modbmp (fs.geo.blockBitmap bg) (rel % fs.geo.blocksPerGroup) .clr
      modify (·.giveBlock bg)
      flushBgs
      flushSbs
      pure ()

def zeroNewblk (blk : Nat) : Op Ext2fs Unit := wrblk blk zero

def readIndr (blkn : Nat) : Op Ext2fs Bytes := if blkn = 0 then pure zero else rdblk blkn

/-! ## Bitmaps and counters -/

theorem firstClear_some {bmp : Bytes} {n idx : Nat} (h : firstClear bmp n = some idx) :
    idx < n ∧ bit bmp idx = false := by
  refine ⟨List.mem_range.mp (List.mem_of_find?_eq_some h), ?_⟩
  simpa using List.find?_some h

variable {fs : Ext2fs} {v : Vol} {b : Nat}

variable {grp bgOff sbOff d16 d32 : Nat} {E : Stop → Ext2fs → Prop} {Q : Unit → Ext2fs → Prop}

theorem count_geo (hbg : bgOff = 12 ∨ bgOff = 14)
    (hsb : sbOff = 12 ∨ sbOff = 16) : (fs.count grp bgOff sbOff d16 d32).geo = fs.geo := by
  have hdesc : ∀ k o, o + 4 ≤ 12 → get32 (put16 fs.bgs (32 * grp + bgOff)
      (get16 fs.bgs (32 * grp + bgOff) + d16)) (32 * k + o) = get32 fs.bgs (32 * k + o) :=
    fun k o ho => get32_put16_of_ne (by omega)
  have hword : ∀ o, o + 4 ≤ 12 ∨ 20 ≤ o → get32 (put32 fs.sb sbOff (get32 fs.sb sbOff + d32)) o =
      get32 fs.sb o := fun o ho => get32_put32_of_ne (by omega)
  have hhalf : get16 (put32 fs.sb sbOff (get32 fs.sb sbOff + d32)) 88 = get16 fs.sb 88 :=
    get16_put32_of_ne (by omega)
  unfold Ext2fs.geo Ext2fs.count
  congr 1
  · exact hword 4 (by omega)
  · exact hword 20 (by omega)
  · exact hword 32 (by omega)
  · exact hword 40 (by omega)
  · exact hword 100 (by omega)
  · funext k
    exact hdesc k 0 (by omega)
  · funext k
    exact hdesc k 4 (by omega)
  · funext k
    exact hdesc k 8 (by omega)

theorem vol_count (hbg : bgOff = 12 ∨ bgOff = 14)
    (hsb : sbOff = 12 ∨ sbOff = 16) : (fs.count grp bgOff sbOff d16 d32).vol = fs.vol :=
  vol_congr (count_geo hbg hsb) rfl

@[simp] theorem vol_giveBlock (fs : Ext2fs) (grp : Nat) : (fs.giveBlock grp).vol = fs.vol :=
  vol_count (Or.inl rfl) (Or.inl rfl)

@[simp] theorem vol_takeBlock (fs : Ext2fs) (grp : Nat) : (fs.takeBlock grp).vol = fs.vol :=
  vol_count (Or.inl rfl) (Or.inl rfl)

@[simp] theorem vol_takeInode (fs : Ext2fs) (grp : Nat) : (fs.takeInode grp).vol = fs.vol :=
  vol_count (Or.inr rfl) (Or.inr rfl)

-- the geometry is part of the volume
theorem geo_ok_of_vol (h : fs.vol = v) (hv : v.geo.Ok) : fs.geo.Ok := by
  subst h
  exact hv

theorem flushSafe_of_vol (h : fs.vol = v) (hv : v.geo.FlushSafe) : fs.geo.FlushSafe := by
  subst h
  exact hv

/-- Both flushes in a row leave the volume as it is, whether they succeed or not. -/
theorem flushes_bind (hvol : fs.vol = v) (hg : v.geo.Ok) (hflush : v.geo.FlushSafe) {α : Type}
    {k : Op Ext2fs α} {Q : α → Ext2fs → Prop}
    (hk : ∀ fs', fs'.vol = v → Post k fs' Q E) (hE : ∀ e fs', fs'.vol = v → E e fs') :
    Post (do flushBgs; flushSbs; k) fs Q E := by
  have hbgs : (flushBgs.after fs).vol = v :=
    (vol_after_flushBgs (geo_ok_of_vol hvol hg) (flushSafe_of_vol hvol hflush)).trans hvol
  refine Post.bind (Post.of_after (P := fun fs' => fs'.vol = v) hbgs) ?_ hE
  intro _ fs₁ h₁
  have hsbs : (flushSbs.after fs₁).vol = v :=
    (vol_after_flushSbs (geo_ok_of_vol h₁ hg) (flushSafe_of_vol h₁ hflush)).trans h₁
  exact Post.bind (Post.of_after (P := fun fs' => fs'.vol = v) hsbs) (fun _ => hk) hE

/-- All that the flushes write is on the device. -/
structure Geo.FlushFits (g : Geo) : Prop where
  copies : ∀ i < g.nbgs, ∀ b ∈ g.sbTargets i, b < g.blocksCount
  tables : ∀ i < g.nbgs, ∀ b ∈ g.bgTargets i, b < g.blocksCount

-- then they do not fail
theorem Emits.run_of_fits {g : Geo} {x : Op Ext2fs Unit} {f : Nat → List Nat}
    (h : Emits g x ((List.range' 0 g.nbgs).flatMap f)) (hfs : fs.geo = g)
    (hfits : ∀ i < g.nbgs, ∀ b ∈ f i, b < g.blocksCount) : x.run fs = .ok () (x.after fs) := by
  have hres := (h fs hfs).2
  rwa [if_pos] at hres
  rw [List.all_eq_true]
  intro b hb
  obtain ⟨i, hi, hbi⟩ := List.mem_flatMap.mp hb
  rw [List.mem_range'_1] at hi
  exact decide_eq_true (hfits i (by omega) b hbi)

theorem run_flushes_of_fits (hvol : fs.vol = v) (hg : v.geo.Ok) (hflush : v.geo.FlushSafe)
    (hfits : v.geo.FlushFits) :
    ∃ fs', (do flushBgs; flushSbs; pure () : Op Ext2fs Unit).run fs = .ok () fs' ∧ fs'.vol = v := by
  have hgeo : fs.geo = v.geo := congrArg Vol.geo hvol
  have hbgs : (flushBgs.after fs).vol = v :=
    (vol_after_flushBgs (geo_ok_of_vol hvol hg) (flushSafe_of_vol hvol hflush)).trans hvol
  have hsbs : (flushSbs.after (flushBgs.after fs)).vol = v :=
    (vol_after_flushSbs (geo_ok_of_vol hbgs hg) (flushSafe_of_vol hbgs hflush)).trans hbgs
  refine ⟨_, ?_, hsbs⟩
  rw [Op.run_bind_of_ok ((flushBgs_emits hg.mounted).run_of_fits hgeo hfits.tables)]
  exact Op.run_bind_of_ok
    ((flushSbs_emits v.geo).run_of_fits (congrArg Vol.geo hbgs) hfits.copies) _

/-- The copies of every group are on the device. -/
def Geo.CopiesFit (g : Geo) : Prop := ∀ bg < g.nbgs, g.start bg + g.bgtbln < g.blocksCount

/-- No copy is written to the byte. -/
def Geo.OffCopies (g : Geo) (a : Nat) : Prop :=
  (∀ bg < g.nbgs, ∀ r ≤ g.bgtbln, ¬ g.Spans (g.start bg + r) a) ∧ ¬ g.Spans 0 a

-- the blocks that are written for a group
theorem Geo.CopiesFit.targets {g : Geo} (h : g.CopiesFit) (hbc : g.blocksCount < 2 ^ 32) (bg : Nat)
    (hbg : bg < g.nbgs) : (∀ b ∈ g.sbTargets bg, b = 0 ∨ b = g.start bg) ∧
      ∀ b ∈ g.bgTargets bg, ∃ r ≤ g.bgtbln, b = g.start bg + r := by
  have hfit := h bg hbg
  unfold sbTargets bgTargets
  split
  · refine ⟨fun b hb => ?_, fun b hb => ?_⟩
    · simp only [List.mem_cons, List.not_mem_nil, or_false] at hb
      split at hb <;> omega
    · obtain ⟨r, hr, hb⟩ := List.mem_flatMap.mp hb
      have hr := List.mem_range'_1.mp hr
      rw [List.mem_singleton] at hb
      exact ⟨1 + r, by omega, by omega⟩
  · exact ⟨nofun, nofun⟩

theorem run_flushes (hg : fs.geo.Mounted) (hfit : fs.geo.CopiesFit) {α : Type} (k : Op Ext2fs α) :
    ∃ fs', (do flushBgs; flushSbs; k : Op Ext2fs α).run fs = k.run fs' ∧ fs'.geo = fs.geo ∧
      fs'.bgs = fs.bgs ∧ ∀ {a}, fs.geo.OffCopies a → fs'.disk a = fs.disk a := by
  have htargets := hfit.targets hg.blocksCount_lt
  have hbgs := (flushBgs_emits hg).run_of_fits rfl fun i hi b hb => by
    obtain ⟨r, hr, rfl⟩ := (htargets i hi).2 b hb
    have := hfit i hi
    omega
  have hwrote := (flushBgs_emits hg fs rfl).1
  have hwrote' := (flushSbs_emits fs.geo (flushBgs.after fs) hwrote.geo).1
  have hsbs := (flushSbs_emits fs.geo).run_of_fits hwrote.geo fun i hi b hb => by
    have := hfit i hi
    rcases (htargets i hi).1 b hb with rfl | rfl <;> omega
  refine ⟨flushSbs.after (flushBgs.after fs), ?_, hwrote'.geo.trans hwrote.geo, ?_, ?_⟩
  · rw [Op.run_bind_of_ok hbgs, Op.run_bind_of_ok hsbs]
  · exact ((keeps_flushSbs.comp (·.bgs)).after _).trans ((keeps_flushBgs.comp (·.bgs)).after fs)
  intro a ha
  rw [hwrote'.frame, hwrote.frame]
  · intro b hb
    obtain ⟨bg, hmem, hb⟩ := List.mem_flatMap.mp ((List.takeWhile_sublist _).subset hb)
    have hbg : bg < fs.geo.nbgs := by simpa using hmem
    obtain ⟨r, hr, rfl⟩ := (htargets bg hbg).2 b hb
    exact ha.1 bg hbg r hr
  · intro b hb
    obtain ⟨bg, hmem, hb⟩ := List.mem_flatMap.mp ((List.takeWhile_sublist _).subset hb)
    have hbg : bg < fs.geo.nbgs := by simpa using hmem
    rw [hwrote.geo]
    rcases (htargets bg hbg).1 b hb with rfl | rfl
    · exact ha.2
    · exact ha.1 bg hbg 0 (Nat.zero_le _)

/-! ## Specifications -/

theorem Geo.scanBits_le (g : Geo) (n : Nat) : g.scanBits n ≤ n := Nat.min_le_left _ _

/-- All that the block bitmaps do not offer: blocks that are no data blocks are marked. -/
def Vol.Spares (v : Vol) : Prop :=
  ∀ b, v.geo.InGroups b → ¬ v.geo.IsData b → v.marked b = true

/-- A block comes back that no one had, or the marks only grow. -/
def AllocResult (v : Vol) (b : Nat) (v' : Vol) : Prop :=
  v.geo.IsData b ∧ v.marked b = false ∧ v' = v.mark b true

theorem allocblkFrom_post (hg : fs.geo.Ok) (hflush : fs.geo.FlushSafe) (hspare : fs.vol.Spares)
    (bg m n : Nat) (hnbgs : 0 < fs.geo.nbgs) :
    Post (allocblkFrom bg m n) fs (fun b fs' => AllocResult fs.vol b fs'.vol)
      (fun _ fs' => fs'.vol = fs.vol ∨ ∃ b, fs'.vol = fs.vol.mark b true) := by
  induction m generalizing n with
  | zero => exact Post.fail (Or.inl rfl)
  | succ m ih =>
    apply Post.get_bind
    dsimp only
    have hgrp : (bg + n) % fs.geo.nbgs < fs.geo.nbgs := Nat.mod_lt _ hnbgs
    generalize (bg + n) % fs.geo.nbgs = grp at hgrp
    have hvalid : (Role.blockBitmap grp).Valid fs.geo := hgrp
    have hdev : fs.geo.blockBitmap grp < fs.geo.blocksCount := hg.onDevice _ hvalid
    split
    · exact ih (n + 1)
    apply Post.bind_ok (hg.run_rdblk hdev)
    split
    · exact ih (n + 1)
    rename_i idx hidx
    obtain ⟨hlt, hclear⟩ := firstClear_some hidx
    have hlt' : idx < fs.geo.blocksPerGroup := Nat.lt_of_lt_of_le hlt (Geo.scanBits_le _ _)
    obtain ⟨hin, hgrpOf, hposOf⟩ := Geo.inGroups_start hg.mounted hgrp hlt'
    have hunmarked : fs.vol.marked (fs.geo.start grp + idx) = false := by
      rw [vol_marked hin, hgrpOf, hposOf, hclear]
    have hdata : fs.geo.IsData (fs.geo.start grp + idx) := by
      by_contra hnot
      rw [hspare _ hin hnot] at hunmarked
      cases hunmarked
    have hvol : ((fs.putBlock (fs.geo.blockBitmap grp)
        (setBit (fs.block (fs.geo.blockBitmap grp)) idx)).takeBlock grp).vol =
          fs.vol.mark (fs.geo.start grp + idx) true := by
      rw [vol_takeBlock]
      apply vol_putBlock_blockBitmap hg hgrp hlt'
      intro j
      rw [bit_setBit]
      by_cases hj : j = idx
      · simp [hj]
      · simp [hj]
    have hb : fs.geo.start grp % 2 ^ 32 + idx = fs.geo.start grp + idx := by
      have hbc := hg.mounted.blocksCount_lt
      have hlow := hdata.2.1
      rw [Nat.mod_eq_of_lt (by omega)]
    apply Post.bind_ok (run_wrblk hdev _)
    apply Post.modify_bind
    apply flushes_bind hvol hg hflush
    · intro fs' hfs'
      apply Post.pure
      rw [hb]
      exact ⟨hdata, hunmarked, hfs'⟩
    · intro e fs' hfs'
      exact Or.inr ⟨_, hfs'⟩

theorem allocblk_post (hg : fs.geo.Ok) (hflush : fs.geo.FlushSafe) (hspare : fs.vol.Spares)
    (bg : Nat) :
    Post (allocblk bg) fs (fun b fs' => AllocResult fs.vol b fs'.vol)
      (fun _ fs' => fs'.vol = fs.vol ∨ ∃ b, fs'.vol = fs.vol.mark b true) := by
  apply Post.get_bind
  split
  · exact Post.fail (Or.inl rfl)
  · exact allocblkFrom_post hg hflush hspare bg _ 0 (by omega)

section FreeSteps

variable {rel : Nat} (hne : b ≠ 0) (hdev : b < fs.geo.blocksCount)
  (hrel : (b + (2 ^ 32 - fs.geo.firstDataBlock)) % 2 ^ 32 = rel)
  (hgrp : rel / fs.geo.blocksPerGroup < fs.geo.nbgs)
  (hbmp : fs.geo.blockBitmap (rel / fs.geo.blocksPerGroup) < fs.geo.blocksCount)
  (hpos : rel % fs.geo.blocksPerGroup / 8 < fs.geo.blocksz)

include hne hdev hrel hgrp hbmp hpos

/-- What `freeblk` does before it flushes: the block is cleared, then its bit, and both counters go
up. -/
theorem freeblk_steps (h : Post (do flushBgs; flushSbs; pure ())
      (((fs.putBlock b zero).putBlock (fs.geo.blockBitmap (rel / fs.geo.blocksPerGroup))
        (clrBit (blockRead (fs.putBlock b zero).disk (fs.geo.blockBitmap
          (rel / fs.geo.blocksPerGroup) * fs.geo.spb % 2 ^ 32))
          (rel % fs.geo.blocksPerGroup))).giveBlock (rel / fs.geo.blocksPerGroup)) Q E) :
    Post (freeblk b) fs Q E := by
  have hzero : (Op.ignore (wrblk b zero)).run fs = .ok () (fs.putBlock b zero) := by
    rw [← Op.after_of_ok (run_wrblk hdev zero)]
    rfl
  unfold freeblk
  rw [if_neg hne]
  apply Post.get_bind
  rw [hrel]
  apply Post.bind_ok hzero
  rw [if_neg (Nat.not_le_of_lt hgrp)]
  have hbmp' : fs.geo.blockBitmap (rel / fs.geo.blocksPerGroup) <
      (fs.putBlock b zero).geo.blocksCount := hbmp
  have hpos' : rel % fs.geo.blocksPerGroup / 8 < (fs.putBlock b zero).geo.blocksz := hpos
  have hclr : (modbmp (fs.geo.blockBitmap (rel / fs.geo.blocksPerGroup))
      (rel % fs.geo.blocksPerGroup) .clr).run (fs.putBlock b zero) = .ok 0
        ((fs.putBlock b zero).putBlock (fs.geo.blockBitmap (rel / fs.geo.blocksPerGroup))
          (clrBit (blockRead (fs.putBlock b zero).disk (fs.geo.blockBitmap
            (rel / fs.geo.blocksPerGroup) * fs.geo.spb % 2 ^ 32))
            (rel % fs.geo.blocksPerGroup))) := by
    rw [modbmp, Op.run_get_bind, if_neg (Nat.not_le_of_lt hbmp'),
      Op.run_bind_of_ok (run_rdblk hbmp'), if_neg (Nat.not_le_of_lt hpos')]
    exact Op.run_bind_of_ok (run_wrblk hbmp' _) _
  apply Post.bind_ok hclr
  exact Post.modify_bind h

/-- The block is cleared where its sectors are, which may be the place of another block, unless the
bitmap or a copy is written there. -/
theorem freeblk_clears {a : Nat} (hg : fs.geo.Mounted) (hfit : fs.geo.CopiesFit)
    (hspans : fs.geo.Spans b a) (hcopies : fs.geo.OffCopies a)
    (hmap : ¬ fs.geo.Spans (fs.geo.blockBitmap (rel / fs.geo.blocksPerGroup)) a) :
    Post (freeblk b) fs (fun _ fs' => fs'.geo = fs.geo ∧ fs'.disk a = 0 ∧
      fs'.bgs = (fs.giveBlock (rel / fs.geo.blocksPerGroup)).bgs) E := by
  apply freeblk_steps hne hdev hrel hgrp hbmp hpos
  generalize hbuf : clrBit _ _ = buf
  generalize hfs₁ : Ext2fs.giveBlock _ _ = fs₁
  have hgeo₁ : fs₁.geo = fs.geo := by
    rw [← hfs₁]
    exact count_geo (Or.inl rfl) (Or.inl rfl)
  have hdisk₁ : fs₁.disk a = 0 := by
    obtain ⟨i, rfl⟩ := Nat.exists_eq_add_of_le hspans.1
    have hi := hspans.2
    rw [← hfs₁]
    change ((fs.putBlock b zero).putBlock _ buf).disk _ = 0
    refine (@putBlock_disk_of_not_spans (fs.putBlock b zero) _ _ hmap buf).trans ?_
    exact copy_apply (by omega)
  obtain ⟨fs₂, hrun, hgeo₂, hbgs, hframe⟩ := run_flushes (hgeo₁ ▸ hg) (hgeo₁ ▸ hfit) (pure ())
  refine Post.of_ok hrun ⟨hgeo₂.trans hgeo₁, ?_, ?_⟩
  · rw [hframe (hgeo₁ ▸ hcopies), hdisk₁]
  · rw [hbgs, ← hfs₁]
    rfl

end FreeSteps

/-- For a data block that is a change of the volume in two places. -/
theorem freeblk_flushes (hg : fs.geo.Ok) (hb : fs.geo.IsData b)
    (h : ∀ fs₁ : Ext2fs, fs₁.vol = (fs.vol.setData b zero).mark b false →
      Post (do flushBgs; flushSbs; pure ()) fs₁ Q E) :
    Post (freeblk b) fs Q E := by
  have hin := hb.inGroups hg.mounted
  have hgrp := hin.grpOf_lt hg.mounted
  have hpos := Geo.posOf_lt hg.mounted b
  have hle := hg.blocksPerGroup_le
  have hrel : (b + (2 ^ 32 - fs.geo.firstDataBlock)) % 2 ^ 32 = b - fs.geo.firstDataBlock := by
    have hbc := hg.mounted.blocksCount_lt
    have hfdb := hb.1
    have hlow := hb.2.1
    omega
  have hvalid : (Role.blockBitmap (fs.geo.grpOf b)).Valid fs.geo := hgrp
  have hdev : fs.geo.blockBitmap (fs.geo.grpOf b) < fs.geo.blocksCount := hg.onDevice _ hvalid
  have hvol : (((fs.putBlock b zero).putBlock (fs.geo.blockBitmap (fs.geo.grpOf b))
      (clrBit (blockRead (fs.putBlock b zero).disk (fs.geo.blockBitmap (fs.geo.grpOf b) *
        fs.geo.spb % 2 ^ 32)) (fs.geo.posOf b))).giveBlock (fs.geo.grpOf b)).vol =
        (fs.vol.setData b zero).mark b false := by
    have hclr := @vol_putBlock_blockBitmap (fs.putBlock b zero) hg (fs.geo.grpOf b)
      (fs.geo.posOf b) hgrp hpos false (clrBit ((fs.putBlock b zero).block
        (fs.geo.blockBitmap (fs.geo.grpOf b))) (fs.geo.posOf b)) (by
          intro j
          rw [bit_clrBit]
          by_cases hj : j = fs.geo.posOf b
          · simp [hj]
          · simp [hj])
    rw [putBlock_geo, hin.start_add, vol_putBlock_data hg hb] at hclr
    rw [vol_giveBlock, ← hclr]
    unfold blockRead Ext2fs.block
    rw [hg.sector hdev, putBlock_geo]
  refine freeblk_steps hb.ne_zero hb.2.1 hrel hgrp hdev ?_ (h _ hvol)
  change fs.geo.posOf b / 8 < _
  omega

/-- Freeing a data block clears it and its mark.  It fails only if a flush leaves the device. -/
theorem freeblk_post (hg : fs.geo.Ok) (hflush : fs.geo.FlushSafe) (hb : fs.geo.IsData b) :
    Post (freeblk b) fs (fun _ fs' => fs'.vol = (fs.vol.setData b zero).mark b false)
      (fun _ _ => ¬ fs.geo.FlushFits) := by
  refine freeblk_flushes hg hb fun _ hvol => ?_
  by_cases hfits : fs.geo.FlushFits
  · obtain ⟨fs', hrun, hvol'⟩ := run_flushes_of_fits hvol hg hflush hfits
    exact Post.of_ok hrun hvol'
  · exact flushes_bind hvol hg hflush (fun _ h => Post.pure h) fun _ _ _ => hfits

end Ext2
