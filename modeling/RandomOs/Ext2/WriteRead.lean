import RandomOs.Ext2.File

/-!
# Files as arrays of bytes

A write puts its bytes into the lowest hole of the file, not at its offset, whenever the block of
the offset is not there yet.  So a file is an array of bytes only as long as it has no holes below
the offset of a write.
-/

namespace Ext2

open Lib Bytes Kern

/-- A file system as `mke2fs` and a clean history leave it. -/
structure Ext2fs.Consistent (fs : Ext2fs) : Prop where
  layout : fs.geo.Layout
  sound : fs.vol.Sound
  size_le : ∀ n, fs.vol.Live n → fs.geo.getisize (fs.vol.inode n) ≤ fs.geo.maxBytes

def Ext2fs.RegularFile (fs : Ext2fs) (n : Nat) : Prop :=
  fs.vol.inUse n = true ∧ iType (fs.vol.inode n) = S_IFREG

-- `i_size` as the driver takes it
noncomputable def Ext2fs.size (fs : Ext2fs) (n : Nat) : Nat := fs.geo.getisize (fs.vol.inode n)

/-- `ext2fs_read` gives all of `data`, whatever was in the buffer. -/
def Ext2fs.Reads (fs : Ext2fs) (n off nb : Nat) (data : Bytes) : Prop :=
  ∀ mem, ∃ out, (ext2fsRead n off nb mem).run fs = .ok (nb, out) fs ∧ ∀ j < nb, out j = data j

def Ext2fs.ReadsByte (fs : Ext2fs) (n i : Nat) (x : UInt8) : Prop := fs.Reads n i 1 fun _ => x

/-- What a write of an array of bytes does. -/
structure WriteCorrect (n off nb : Nat) (buf : Bytes) (fs fs' : Ext2fs) : Prop where
  written : fs'.Reads n off nb buf
  others : ∀ i < fs.size n, i < off ∨ off + nb ≤ i →
    ∀ x, fs.ReadsByte n i x → fs'.ReadsByte n i x
  gap : ∀ i, fs.size n ≤ i → i < off → fs'.ReadsByte n i 0

/-- The writes that land where they should. -/
structure WriteSafe (n off nb : Nat) (buf : Bytes) (fs : Ext2fs) : Prop where
  -- the end of the write has a block number
  inRange : off + nb ≤ fs.geo.maxBytes
  -- the new size fits `i_size`
  fitsSize : fs.geo.largeFile = true ∨ off + nb < 2 ^ 32
  -- no bytes of an earlier, longer life of the file are behind its end
  cleanGap : ∀ x, fs.size n ≤ x → x < off → (fs.vol.file n).byte x = 0
  -- no hole is below the first block, or it does not matter where the new blocks go
  dense : (∀ i < off / fs.geo.blocksz, (fs.vol.file n).held i) ∨
    ∀ x, off ≤ x → x < off + nb → ¬ (fs.vol.file n).held (x / fs.geo.blocksz) → buf (x - off) = 0

section Reads

variable {fs : Ext2fs} {n : Nat}

theorem Ext2fs.RegularFile.live (h : fs.RegularFile n) : fs.vol.Live n := ⟨h.1, Or.inl h.2⟩

variable {off nb i : Nat} {data : Bytes} {x : UInt8}

theorem reads_of_file (hg : fs.geo.Ok) (hv : fs.vol.Sound) (hn : fs.vol.Live n)
    (hsize : off + nb ≤ fs.size n) (hend : off + nb ≤ fs.geo.maxBytes)
    (hdata : ∀ j < nb, (fs.vol.file n).byte (off + j) = data j) : fs.Reads n off nb data := by
  intro mem
  obtain ⟨out, hrun, hbytes⟩ := run_read hg hv hn hsize hend mem
  exact ⟨out, hrun, fun j hj => (hbytes j hj).trans (hdata j hj)⟩

theorem size_of_reads (hg : fs.geo.Ok) (hn : fs.vol.Live n)
    (h : fs.Reads n off nb data) (hnb : 0 < nb) : off + nb ≤ fs.size n := by
  obtain ⟨out, hrun, -⟩ := h zero
  rcases read_count hg hn.1 hrun with hzero | hle
  · omega
  · exact hle

section

variable (hg : fs.geo.Ok) (hv : fs.vol.Sound) (hn : fs.vol.Live n)

include hg hv hn

theorem file_of_reads (h : fs.Reads n off nb data) (hend : off + nb ≤ fs.geo.maxBytes) :
    ∀ j < nb, (fs.vol.file n).byte (off + j) = data j := by
  intro j hj
  have hsize := size_of_reads hg hn h (by omega)
  obtain ⟨out, hrun, hout⟩ := h zero
  obtain ⟨out', hrun', hbytes⟩ := run_read hg hv hn hsize hend zero
  rw [hrun] at hrun'
  cases hrun'
  rw [← hbytes j hj, hout j hj]

theorem readsByte_of_file (hsize : i < fs.size n) (hend : i < fs.geo.maxBytes)
    (hx : (fs.vol.file n).byte i = x) : fs.ReadsByte n i x := by
  apply reads_of_file hg hv hn hsize hend
  intro j hj
  obtain rfl : j = 0 := by omega
  exact hx

theorem file_of_readsByte
    (h : fs.ReadsByte n i x) (hend : i < fs.geo.maxBytes) : (fs.vol.file n).byte i = x :=
  file_of_reads hg hv hn h hend 0 (by omega)

end

-- the first byte that no block number reaches cannot be read
theorem not_readsByte_maxBytes (hg : fs.geo.Ok) (hn : fs.vol.Live n) (x : UInt8) :
    ¬ fs.ReadsByte n fs.geo.maxBytes x := by
  intro h
  have hsize := size_of_reads hg hn h (by omega)
  obtain ⟨out, hrun, -⟩ := h zero
  rw [read_behind_fault hg hn.1 zero hsize] at hrun
  cases hrun

end Reads

/-! ## The size after a write -/

theorem getisize_lt (g : Geo) (inod : Bytes) (hsmall : g.largeFile = false) :
    g.getisize inod < 2 ^ 32 := by
  unfold Geo.getisize
  rw [hsmall]
  exact get32_lt _ _

-- the type bits of a regular file do not hold `S_IFDIR`
theorem mode_and_dir {w : Nat} (h : w &&& 0xF000 = S_IFREG) : w &&& S_IFDIR = 0 := by
  have hmask : w &&& S_IFDIR = (w &&& 0xF000) &&& S_IFDIR := by
    rw [Nat.and_assoc]
    rfl
  rw [hmask, h]
  rfl

variable {size n : Nat} {g : Geo} {inod : Bytes}

theorem getisize_putSize_large (hlarge : g.largeFile = true)
    (hreg : iType inod = S_IFREG) (hsize : size < 2 ^ 64) :
    g.getisize (g.putSize inod size) = size := by
  have hput : g.putSize inod size = put32 (put32 inod 4 size) 108 (size / 2 ^ 32) := by
    unfold Geo.putSize
    rw [hlarge, hreg]
    rfl
  have hmode : get16 (g.putSize inod size) 0 = get16 inod 0 := by
    rw [hput, get16_put32_of_ne (by omega), get16_put32_of_ne (by omega)]
  unfold Geo.getisize
  rw [if_pos hlarge, hmode, mode_and_dir hreg, if_neg (by simp), hput, get32_put32,
    get32_put32_of_ne (by omega), get32_put32]
  omega

theorem getisize_putSize_small (hsmall : g.largeFile = false) :
    g.getisize (g.putSize inod size) = size % 2 ^ 32 := by
  unfold Geo.getisize Geo.putSize
  rw [hsmall]
  exact get32_put32 _ _ _

section Write

variable {n off nb : Nat} {buf : Bytes} {fs fs' : Ext2fs}

section

variable (h : WriteResult n off nb buf fs nb fs')

include h

-- the file of a write that ends in range
theorem WriteResult.size_eq
    (hreg : iType (fs.vol.inode n) = S_IFREG) (hend : off + nb < 2 ^ 64)
    (hold : fs.size n < 2 ^ 64) (hfits : fs.geo.largeFile = true ∨ off + nb < 2 ^ 32) :
    fs'.size n = max (off + nb) (fs.size n) := by
  obtain ⟨x, hinode, htype, -⟩ := h.inode
  unfold Ext2fs.size at hold ⊢
  rw [h.geo, hinode, Nat.mod_eq_of_lt hend]
  cases hlarge : fs.geo.largeFile with
  | true => exact getisize_putSize_large hlarge (htype.trans hreg) (by omega)
  | false =>
    have hlt := getisize_lt fs.geo (fs.vol.inode n) hlarge
    rw [hlarge] at hfits
    rw [getisize_putSize_small hlarge]
    rcases hfits with hfalse | hlow
    · cases hfalse
    · omega

theorem WriteResult.size_lt
    (hsmall : fs.geo.largeFile = false) : fs'.size n < 2 ^ 32 := by
  unfold Ext2fs.size
  rw [h.geo]
  exact getisize_lt _ _ hsmall

theorem WriteResult.geo_ok (hg : fs.geo.Ok) :
    fs'.geo.Ok := by
  rw [h.geo]
  exact hg

end

variable (hfs : fs.Consistent) (hg : fs.geo.Ok) (hn : fs.RegularFile n)
  (hres : WriteResult n off nb buf fs nb fs')

include hfs hg hn hres

section

variable (h : WriteCorrect n off nb buf fs fs')

include h

theorem WriteCorrect.inRange : off + nb ≤ fs.geo.maxBytes := by
  have hg' := hres.geo_ok hg
  by_cases hoff : off ≤ fs.geo.maxBytes
  · exact (hres.run rfl hoff).1
  · -- the gap has a byte that cannot be read
    have hgap := h.gap fs.geo.maxBytes (hfs.size_le n hn.live) (by omega)
    rw [← hres.geo] at hgap
    exact absurd hgap (not_readsByte_maxBytes hg' hres.live 0)

omit hfs hn in
theorem WriteCorrect.fitsSize : fs.geo.largeFile = true ∨ off + nb < 2 ^ 32 := by
  have hg' := hres.geo_ok hg
  cases hlarge : fs.geo.largeFile with
  | true => exact Or.inl rfl
  | false =>
    right
    have hlt := hres.size_lt hlarge
    by_cases hnb : nb = 0
    · by_contra hbig
      -- the last byte of the gap is in the file
      have hold : fs.size n < 2 ^ 32 := getisize_lt _ _ hlarge
      have hsize := size_of_reads hg' hres.live (h.gap (off - 1) (by omega) (by omega)) (by omega)
      omega
    · have hsize := size_of_reads hg' hres.live h.written (by omega)
      omega

theorem WriteCorrect.bytes :
    (∀ x, off ≤ x → x < off + nb → (fs'.vol.file n).byte x = buf (x - off)) ∧
      (∀ x < off, x < fs.size n → (fs'.vol.file n).byte x = (fs.vol.file n).byte x) ∧
      ∀ x, fs.size n ≤ x → x < off → (fs'.vol.file n).byte x = 0 := by
  have hg' := hres.geo_ok hg
  have hend := h.inRange hfs hg hn hres
  refine ⟨fun x hlo hhi => ?_, fun x hx hold => ?_, fun x hold hx => ?_⟩
  · have hbyte := file_of_reads hg' hres.sound hres.live h.written (by rwa [hres.geo])
      (x - off) (by omega)
    rwa [show off + (x - off) = x by omega] at hbyte
  · have hread := readsByte_of_file hg hfs.sound hn.live hold (by omega) rfl
    exact file_of_readsByte hg' hres.sound hres.live (h.others x hold (Or.inl hx) _ hread)
      (by rw [hres.geo]; omega)
  · exact file_of_readsByte hg' hres.sound hres.live (h.gap x hold hx) (by rw [hres.geo]; omega)

theorem WriteCorrect.safe : WriteSafe n off nb buf fs := by
  have hbs := hfs.layout.mounted.blocksz_ge
  have hend := h.inRange hfs hg hn hres
  obtain ⟨-, hrun⟩ := hres.run rfl (by omega)
  obtain ⟨hin, hbefore, hzero⟩ := h.bytes hfs hg hn hres
  have hclean : ∀ x, fs.size n ≤ x → x < off → (fs.vol.file n).byte x = 0 := by
    intro x hold hx
    by_cases hheld : (fs.vol.file n).held (x / fs.geo.blocksz)
    · rw [← hrun.byte_of_held (by omega) hx hheld, hzero x hold hx]
    · exact fs.vol.file_blank n x hheld
  refine ⟨hend, h.fitsSize hg hres, hclean, ?_⟩
  apply (hrun.correct_iff (by omega) (fs.vol.file_blank n)).mp
  refine ⟨hin, fun x hx => ?_⟩
  by_cases hold : x < fs.size n
  · exact hbefore x hx hold
  · rw [hzero x (by omega) hx, hclean x (by omega) hx]

end

theorem WriteSafe.correct (h : WriteSafe n off nb buf fs) : WriteCorrect n off nb buf fs fs' := by
  have hg' := hres.geo_ok hg
  have hbs := hfs.layout.mounted.blocksz_ge
  have hmax := hfs.layout.maxBytes_lt
  have hend := h.inRange
  have hold : fs.size n ≤ fs.geo.maxBytes := hfs.size_le n hn.live
  have hsize := hres.size_eq hn.2 (by omega) (by omega) h.fitsSize
  obtain ⟨-, hrun⟩ := hres.run rfl (by omega)
  have hbyte := hrun.byte_eq (by omega) (fs.vol.file_blank n) h.dense
  constructor
  · apply reads_of_file hg' hres.sound hres.live (by omega) (by rwa [hres.geo])
    intro j hj
    rw [hbyte, if_pos (by omega), show off + j - off = j by omega]
  · intro i hi hout x hx
    apply readsByte_of_file hg' hres.sound hres.live (by omega) (by rw [hres.geo]; omega)
    rw [hbyte, if_neg (by omega)]
    exact file_of_readsByte hg hfs.sound hn.live hx (by omega)
  · intro i hi hlt
    apply readsByte_of_file hg' hres.sound hres.live (by omega) (by rw [hres.geo]; omega)
    rw [hbyte, if_neg (by omega)]
    exact h.cleanGap i hi hlt

end Write

/-- A write that returns all its bytes is one of an array of bytes exactly if it is safe.  It
flushes only where a block is missing. -/
theorem write_correct_iff {n off nb : Nat} {buf : Bytes} {fs fs' : Ext2fs} (hfs : fs.Consistent)
    (hsectors : fs.geo.blocksCount * fs.geo.spb ≤ 2 ^ 32)
    (hflush : fs.vol.HoleIn n off nb → fs.geo.FlushSafe) (hn : fs.RegularFile n)
    (h : (ext2fsWrite n off nb buf).run fs = .ok nb fs') :
    WriteCorrect n off nb buf fs fs' ↔ WriteSafe n off nb buf fs := by
  have hg : fs.geo.Ok := ⟨hfs.layout, hsectors⟩
  have hres := (write_post hg hfs.sound hn.live hflush buf).ok h
  exact ⟨fun hc => hc.safe hfs hg hn hres, fun hs => hs.correct hfs hg hn hres⟩

/-! ## A volume of one group

Eight blocks: the superblock, the descriptor, the two bitmaps and the inode table are in blocks 1 to
5, and blocks 6 and 7 are free.  Inode 7 is an empty regular file and inode 8 is free.
-/

def smallDisk : Bytes :=
  let m := put32 zero (1024 + 4) 8
  let m := put32 m (1024 + 12) 2
  let m := put32 m (1024 + 16) 1
  let m := put32 m (1024 + 20) 1
  let m := put32 m (1024 + 32) 8
  let m := put32 m (1024 + 40) 8
  let m := put16 m (1024 + 56) 0xEF53
  let m := put16 m (1024 + 60) 1
  let m := put32 m 2048 3
  let m := put32 m (2048 + 4) 4
  let m := put32 m (2048 + 8) 5
  let m := put16 m (2048 + 12) 2
  let m := put16 m (2048 + 14) 1
  let m := put16 m (3 * 1024) 0x9F
  let m := put16 m (4 * 1024) 0x7F
  put16 m (5 * 1024 + 6 * 128) 0x81A4

def smallFs : Ext2fs :=
  { mountGeometry zero smallDisk false with bgs := copy zero 0 (blockRead smallDisk 4) 0 32 }

theorem mount_small : ext2fsMount zero smallDisk = .ok smallFs := rfl

@[simp] theorem small_geo : smallFs.geo.nbgs = 1 ∧ smallFs.geo.blocksCount = 8 ∧
    smallFs.geo.firstDataBlock = 1 ∧ smallFs.geo.blocksPerGroup = 8 ∧
    smallFs.geo.inodesPerGroup = 8 ∧ smallFs.geo.blocksz = 1024 ∧ smallFs.geo.inosz = 128 ∧
    smallFs.geo.bgtbln = 1 ∧ smallFs.geo.spb = 2 := by
  decide

theorem small_mounted : smallFs.geo.Mounted := (mount_geometry mount_small).1

theorem small_role {r : Role} (hr : r.Valid smallFs.geo) :
    r = .blockBitmap 0 ∨ r = .inodeBitmap 0 ∨ r = .inodeTable 0 0 := by
  cases r with
  | blockBitmap grp =>
    change grp < 1 at hr
    left
    congr
    omega
  | inodeBitmap grp =>
    change grp < 1 at hr
    right
    left
    congr
    omega
  | inodeTable grp k =>
    change grp < 1 ∧ k * 1024 < 8 * 128 at hr
    right
    right
    congr <;> omega

@[simp] theorem small_role_blk : (Role.blockBitmap 0).blk smallFs.geo = 3 ∧
    (Role.inodeBitmap 0).blk smallFs.geo = 4 ∧ (Role.inodeTable 0 0).blk smallFs.geo = 5 := by
  decide

theorem small_reserved {b : Nat} (h : smallFs.geo.Reserved b) (hb : b < 9) : b = 1 ∨ b = 2 := by
  obtain ⟨hle, -, hmod⟩ := h
  simp only [small_geo] at hle hmod
  omega

theorem small_layout : smallFs.geo.Layout := by
  refine ⟨small_mounted, by simp, by simp, by simp, by simp, by simp, by simp, by simp,
    fun r hr => ?_, fun r r' hr hr' heq => ?_, fun r hr hres => ?_⟩
  · rcases small_role hr with rfl | rfl | rfl <;> simp
  · rcases small_role hr with rfl | rfl | rfl <;> rcases small_role hr' with rfl | rfl | rfl <;>
      first | rfl | simp at heq
  · have hlt : r.blk smallFs.geo < 9 := by
      rcases small_role hr with rfl | rfl | rfl <;> simp
    have := small_reserved hres hlt
    rcases small_role hr with rfl | rfl | rfl <;> simp at this

theorem small_inReach : smallFs.geo.InReach := by
  refine ⟨by simp, ⟨Or.inl (by simp), fun bg hbg hs hbig => ?_, fun bg hbg hs hbig => ?_⟩,
    Or.inl rfl⟩
  · simp only [Geo.start, small_geo] at hbg hbig
    omega
  · simp only [Geo.start, small_geo] at hbg hbig
    omega

theorem small_spares : smallFs.vol.Spares := by
  intro b hb hdata
  change smallFs.geo.InGroups b at hb
  have hrange := hb
  simp only [Geo.InGroups, small_geo] at hrange
  rw [vol_marked hb]
  -- blocks 6 and 7 are data
  by_cases hfree : b = 6 ∨ b = 7
  · exfalso
    apply hdata
    refine ⟨?_, ?_, ?_⟩
    · change 1 ≤ b
      omega
    · change b < 8
      omega
    rintro (hres | ⟨r, hr, heq⟩)
    · have := small_reserved hres (by omega)
      omega
    · change r.blk smallFs.geo = b at heq
      rcases small_role hr with rfl | rfl | rfl <;> simp at heq <;> omega
  · have hmarks : ∀ b < 9, 1 ≤ b → b ≠ 6 → b ≠ 7 →
        bit (smallFs.block (smallFs.geo.blockBitmap (smallFs.geo.grpOf b)))
          (smallFs.geo.posOf b) = true := by
      decide
    exact hmarks b (by omega) (by omega) (by omega) (by omega)

theorem small_inodeNo : smallFs.geo.InodeNo n ↔ 0 < n ∧ n ≤ 8 := by
  simp [Geo.InodeNo]

theorem small_live (h : smallFs.vol.Live n) : n = 7 := by
  have hno := inodeNo_of_inUse h.1
  have hrange := small_inodeNo.mp hno
  have htype : ∀ n < 9, 0 < n → n ≠ 7 →
      iType (trim 128 fun i => smallFs.block (smallFs.geo.inoBlk n) (smallFs.geo.inoOff n + i)) =
        0 := by
    decide
  by_contra hne
  have hmode := h.2
  rw [vol_inode hno, htype n (by omega) (by omega) hne] at hmode
  rcases hmode with hreg | hdir
  · cases hreg
  · cases hdir

theorem small_inode : smallFs.vol.inode 7 = put16 zero 0 0x81A4 := by
  rw [vol_inode (small_inodeNo.mpr (by omega))]
  have hbytes : ∀ i < 128, smallFs.block (smallFs.geo.inoBlk 7) (smallFs.geo.inoOff 7 + i) =
      put16 zero 0 0x81A4 i := by
    decide +kernel
  rw [trim_congr hbytes, trim_put16 _ _ (by omega), trim_zero]

theorem small_slots (k : Nat) : iBlock (smallFs.vol.inode 7) k = 0 := by
  rw [small_inode]
  exact (get32_put16_of_ne (by omega)).trans (get32_zero _)

theorem small_regular : smallFs.RegularFile 7 := by
  refine ⟨?_, ?_⟩
  · rw [vol_inUse (small_inodeNo.mpr (by omega))]
    decide
  · rw [small_inode]
    decide

theorem small_consistent : smallFs.Consistent := by
  refine ⟨small_layout, Vol.Sound.of_empty small_spares fun n hn k hk => ?_, fun n hn => ?_⟩
  · rw [small_live hn]
    exact small_slots k
  · rw [small_live hn, small_inode]
    have hsize : smallFs.geo.getisize (put16 zero 0 0x81A4) = 0 := by decide
    omega

theorem small_hole (i : Nat) : ¬ (smallFs.vol.file 7).held i := by
  intro hheld
  obtain ⟨c, hblock⟩ := Option.ne_none_iff_exists'.mp hheld
  obtain ⟨-, k, es, -, -, href⟩ := Vol.fileBlock_path (v := smallFs.vol) small_layout hblock
  cases (Vol.ref_of_empty (fun k _ => small_slots k) href).1

theorem write_at_start_correct : ∃ fs', (ext2fsWrite 7 0 1 fun _ => 65).run smallFs = .ok 1 fs' ∧
    WriteCorrect 7 0 1 (fun _ => 65) smallFs fs' := by
  have hrun := Op.run_of_returns (x := ext2fsWrite 7 0 1 fun _ => 65) (s := smallFs) (a := 1)
    (by decide)
  refine ⟨_, hrun, (write_correct_iff small_consistent small_inReach.sectors
    (fun _ => small_inReach.flush) small_regular hrun).mpr ?_⟩
  refine ⟨?_, by decide, fun x _ hx => by omega, Or.inl fun i hi => ?_⟩
  · have hmax : 0 + 1 ≤ smallFs.geo.maxBytes := by decide
    exact hmax
  · rw [Nat.zero_div] at hi
    omega

/-- A byte written to the second block of an empty file is in its first block. -/
theorem write_behind_hole_misplaced : ∃ fs', ext2fsMount zero smallDisk = .ok smallFs ∧
    smallFs.Consistent ∧ smallFs.RegularFile 7 ∧
    (ext2fsWrite 7 1024 1 fun _ => 65).run smallFs = .ok 1 fs' ∧
    ¬ WriteCorrect 7 1024 1 (fun _ => 65) smallFs fs' := by
  have hrun := Op.run_of_returns (x := ext2fsWrite 7 1024 1 fun _ => 65) (s := smallFs) (a := 1)
    (by decide)
  refine ⟨_, mount_small, small_consistent, small_regular, hrun, fun hcorrect => ?_⟩
  have hg := small_layout.ok small_inReach
  have hres := (write_post hg small_consistent.sound small_regular.live
    (fun _ => small_inReach.flush) _).ok hrun
  rcases (hcorrect.safe small_consistent hg small_regular hres).dense with hbelow | hzero
  · have hblocks : 0 < 1024 / smallFs.geo.blocksz := by decide
    exact small_hole 0 (hbelow 0 hblocks)
  · cases hzero 1024 (Nat.le_refl _) (by decide) (small_hole _)

end Ext2
