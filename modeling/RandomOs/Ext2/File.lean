import RandomOs.Ext2.Fill
import RandomOs.Lib.Sparse

/-!
# Reading and writing files (`ext2.c`)

A file is a sparse array of bytes.  `ext2fs_read` reads it as such; every iteration of
`ext2fs_write` is a put into the block of the position or, if there is none, into the lowest hole.
-/

namespace Ext2

open Lib Bytes Kern Sparse
open Op (Post)

/-! ## Model -/

/-- The loop of `ext2fs_read`. -/
def readLoop (inod : Bytes) (off nb : Nat) :
    (fuel nread : Nat) → (buf : Bytes) → Op Ext2fs (Nat × Bytes)
  | 0, nread, buf => pure (nread, buf)
  | fuel + 1, nread, buf =>
    if nb ≤ nread then pure (nread, buf)
    else do
      let fs ← get
      let pos := (off + nread) % 2 ^ 64
      let blkoff := pos % fs.geo.blocksz
      let blkid ← (inoGetblkid inod (pos / fs.geo.blocksz)).attempt
      match blkid with
      | .error _ => pure (nread, buf)
      | .ok blkid =>
        let n := min (fs.geo.blocksz - blkoff) (nb - nread)
        if blkid = 0 then readLoop inod off nb fuel (nread + n) (copy buf nread zero 0 n)
        else do
          let blkd ← rdblk blkid
          readLoop inod off nb fuel (nread + n) (copy buf nread blkd blkoff n)

/-- The number of bytes read, and the buffer. -/
def ext2fsRead (ino off nb : Nat) (buf : Bytes) : Op Ext2fs (Nat × Bytes) := do
  let inod ← getino ino
  let fs ← get
  let size := fs.geo.getisize inod
  if size ≤ off then pure (0, buf)
  else readLoop inod off (min nb (size - off)) (min nb (size - off)) 0 buf

/-- The block to write to and its contents: a new one is all zeros. -/
def writeTarget (ino idx : Nat) : Op Held (Nat × Bytes) := do
  let s ← get
  let blkid ← onFs (inoGetblkid s.inod idx)
  if blkid = 0 then do
    let nbk ← inoAllocblk ino
    pure (nbk, zero)
  else do
    let blkd ← onFs (rdblk blkid)
    pure (blkid, blkd)

/-- One iteration of `ext2fs_write`: the number of bytes it writes. -/
def writeChunk (ino off nb : Nat) (buf : Bytes) (nwritten : Nat) : Op Held Nat := do
  let s ← get
  let pos := (off + nwritten) % 2 ^ 64
  let blkoff := pos % s.fs.geo.blocksz
  let tgt ← writeTarget ino (pos / s.fs.geo.blocksz)
  let n := min (s.fs.geo.blocksz - blkoff) (nb - nwritten)
  onFs (wrblk tgt.1 (copy tgt.2 blkoff buf nwritten n))
  pure n

/-- The loop of `ext2fs_write`, with `werr`. -/
def writeLoop (ino off nb : Nat) (buf : Bytes) : (fuel nwritten : Nat) → Op Held (Nat × Int)
  | 0, nwritten => pure (nwritten, 0)
  | fuel + 1, nwritten =>
    if nb ≤ nwritten then pure (nwritten, 0)
    else do
      let res ← (writeChunk ino off nb buf nwritten).attempt
      match res with
      | .error werr => pure (nwritten, werr)
      | .ok n => writeLoop ino off nb buf fuel (nwritten + n)

-- `i_size`, and `i_dir_acl` for its high word
def Geo.putSize (g : Geo) (inod : Bytes) (size : Nat) : Bytes :=
  if g.largeFile && iType inod != S_IFDIR then put32 (put32 inod 4 size) 108 (size / 2 ^ 32)
  else put32 inod 4 size

/-- A call on a copy of an inode, which it gives back. -/
def withInode {α : Type} (inod : Bytes) (x : Op Held α) : Op Ext2fs (α × Bytes) := fun fs =>
  match x.run ⟨fs, inod⟩ with
  | .ok a s => .ok (a, s.inod) s.fs
  | .error e s => .error e s.fs

def ext2fsWrite (ino off nb : Nat) (buf : Bytes) : Op Ext2fs Nat := do
  let inod ← getino ino
  let fs ← get
  let oldSize := fs.geo.getisize inod
  let res ← withInode inod (writeLoop ino off nb buf nb 0)
  let nwritten := res.1.1
  let newSize := max ((off + nwritten) % 2 ^ 64) oldSize
  flushInode ino (fs.geo.putSize res.2 newSize)
  if nwritten = 0 ∧ nb ≠ 0 ∧ res.1.2 < 0 then Op.fail res.1.2 else pure nwritten

theorem post_withInode {α : Type} {inod : Bytes} {x : Op Held α} {fs : Ext2fs}
    {R : α → Held → Prop} {F : Stop → Held → Prop} {Q : α × Bytes → Ext2fs → Prop}
    {E : Stop → Ext2fs → Prop} (h : Post x ⟨fs, inod⟩ R F)
    (hR : ∀ a s, R a s → Q (a, s.inod) s.fs) (hF : ∀ e s, F e s → E e s.fs) :
    Post (withInode inod x) fs Q E := by
  have hdef : (withInode inod x).run fs = match x.run ⟨fs, inod⟩ with
    | .ok a s => .ok (a, s.inod) s.fs
    | .error e s => .error e s.fs := rfl
  unfold Post at h ⊢
  rw [hdef]
  cases hx : x.run ⟨fs, inod⟩ with
  | ok a s =>
    rw [hx] at h
    exact hR a s h
  | error e s =>
    rw [hx] at h
    exact hF e s h

/-! ## Files as sparse arrays -/

def Vol.fileBlock (v : Vol) (n idx : Nat) : Option Node :=
  if idx < v.geo.fileBlocks then v.blockAt n idx else none

open Vol

def Vol.file (v : Vol) (n : Nat) : Sparse where
  held := fun idx => v.fileBlock n idx ≠ none
  byte := fun x =>
    match v.fileBlock n (x / v.geo.blocksz) with
    | some (.blk b) => v.data b (x % v.geo.blocksz)
    | _ => 0

section View

variable {v v' : Vol} {n : Nat}

variable {x b idx : Nat} {es : List Nat}

theorem Vol.file_byte_none (h : v.fileBlock n (x / v.geo.blocksz) = none) :
    (v.file n).byte x = 0 := by
  unfold file
  dsimp only
  rw [h]

theorem Vol.file_byte_some (h : v.fileBlock n (x / v.geo.blocksz) = some (.blk b)) :
    (v.file n).byte x = v.data b (x % v.geo.blocksz) := by
  unfold file
  dsimp only
  rw [h]

theorem Vol.file_blank (v : Vol) (n : Nat) : (v.file n).Blank v.geo.blocksz :=
  fun _ hx => file_byte_none (not_not.mp hx)

theorem Vol.fileBlock_path (hg : v.geo.Layout) {c : Node} (h : v.fileBlock n idx = some c) :
    idx < v.geo.fileBlocks ∧ ∃ k es,
      v.geo.blkPath idx = some (k, es) ∧ Full (k :: es) ∧ v.ref n (k :: es) = some c := by
  unfold fileBlock at h
  split at h
  · rename_i hidx
    refine ⟨hidx, ?_⟩
    unfold blockAt at h
    split at h
    · cases h
    · rename_i k es hpath
      exact ⟨k, es, hpath, (hg.blkPath_full hpath).2.1, h⟩
  · cases h

theorem Vol.fileBlock_of_path {k : Nat} (hidx : idx < v.geo.fileBlocks)
    (hpath : v.geo.blkPath idx = some (k, es)) : v.fileBlock n idx = v.ref n (k :: es) := by
  unfold fileBlock
  rw [if_pos hidx, blockAt_of_path hpath]

-- every index of a file has a path
theorem Geo.Layout.exists_path {g : Geo} (hg : g.Layout) (hidx : idx < g.fileBlocks) :
    ∃ k es, g.blkPath idx = some (k, es) := by
  rcases Geo.index_cases hidx with hlt | ⟨d, j, hd, hj, rfl⟩
  · exact ⟨_, _, Geo.blkPath_of_lt hlt⟩
  · exact ⟨_, _, hg.blkPath_slot hd hj⟩

theorem Vol.Sound.fileBlock_injective (hv : v.Sound) (hg : v.geo.Layout) (hn : v.Live n) {i j : Nat}
    {c : Node} (hi : v.fileBlock n i = some c) (hj : v.fileBlock n j = some c) : i = j := by
  obtain ⟨hi', k, es, hpath, hfull, href⟩ := fileBlock_path hg hi
  obtain ⟨hj', k', es', hpath', hfull', href'⟩ := fileBlock_path hg hj
  obtain ⟨-, hsame⟩ := hv.eq_of_ref hn hn hfull.fits hfull'.fits href href'
  injection hsame with hk hes
  apply hg.blkPath_injective hi' hj'
  rw [hpath, hpath', hk, hes]

theorem Vol.Sound.fileBlock_setData (hv : v.Sound) (hg : v.geo.Layout) (hn : v.Live n)
    (hes : Full es) (hb : v.ref n es = some (.blk b)) (buf : Bytes) (i : Nat) :
    (v.setData b buf).fileBlock n i = v.fileBlock n i := by
  unfold fileBlock blockAt
  rw [setData_geo]
  split
  · cases hpath : v.geo.blkPath i with
    | none => rfl
    | some p => exact hv.ref_setData hn hes hb buf hn (hg.blkPath_full hpath).2.1.fits
  · rfl

theorem Vol.Fills.fileBlock (hg : v.geo.Layout) (hn : v.Live n) {h k : Nat}
    (hfills : v.Fills n v' (k :: es) b) (hh : h < v.geo.fileBlocks)
    (hpath : v.geo.blkPath h = some (k, es)) (i : Nat) :
    v'.fileBlock n i = if i = h then some (.blk b) else v.fileBlock n i := by
  by_cases hi : i < v.geo.fileBlocks
  · obtain ⟨k', es', hpath'⟩ := hg.exists_path hi
    rw [fileBlock_of_path (v := v') (by rwa [hfills.geo]) (by rwa [hfills.geo]),
      fileBlock_of_path hi hpath']
    split
    · rename_i heq
      rw [heq, hpath] at hpath'
      cases hpath'
      exact hfills.now
    · rename_i hne
      apply hfills.refs n _ hn (hg.blkPath_full hpath').2.1
      rintro ⟨-, hsame⟩
      injection hsame with hk hes
      apply hne
      apply hg.blkPath_injective hi hh
      rw [hpath, hpath', hk, hes]
  · have hne : i ≠ h := by omega
    rw [if_neg hne]
    unfold Vol.fileBlock
    rw [hfills.geo, if_neg hi, if_neg hi]

-- a byte of a chunk, by its block and its offset
theorem chunk_div_mod {bs pos x : Nat} (hx : pos ≤ x) (hlt : pos % bs + (x - pos) < bs) :
    x / bs = pos / bs ∧ x % bs = pos % bs + (x - pos) := by
  have hpos := Nat.div_add_mod' pos bs
  have hx' : pos / bs * bs + (pos % bs + (x - pos)) = x := by omega
  generalize pos % bs + (x - pos) = o at *
  subst hx'
  refine ⟨div_mul_add hlt, ?_⟩
  rw [Nat.mul_comm, Nat.mul_add_mod, Nat.mod_eq_of_lt hlt]

/-- The put of a chunk: block `b` is at index `q` of `v'`, the rest of the file is that of `v`. -/
theorem Vol.file_putAt {off nw m q : Nat} {old buf : Bytes} (hgeo : v'.geo = v.geo)
    (hbs : 0 < v.geo.blocksz)
    (hblocks : ∀ i, v'.fileBlock n i = if i = q then some (.blk b) else v.fileBlock n i)
    (hset : ∀ i, (v'.setData b (copy old ((off + nw) % v.geo.blocksz) buf nw m)).fileBlock n i =
      v'.fileBlock n i)
    (hinj : ∀ i x, i ≠ q → v.fileBlock n i = some (.blk x) → x ≠ b ∧ v'.data x = v.data x)
    (hnode : ∀ i c, v.fileBlock n i = some c → ∃ x, c = .blk x)
    (hold : ∀ o < v.geo.blocksz, old o = (v.file n).byte (q * v.geo.blocksz + o))
    (hm : (off + nw) % v.geo.blocksz + m ≤ v.geo.blocksz) :
    PutAt v.geo.blocksz (fun x => buf (x - off)) (v.file n)
      ((v'.setData b (copy old ((off + nw) % v.geo.blocksz) buf nw m)).file n) (off + nw) m q := by
  refine ⟨fun i => ?_, fun x => ?_⟩
  · change fileBlock _ n i ≠ none ↔ v.fileBlock n i ≠ none ∨ i = q
    rw [hset, hblocks]
    split
    · rename_i heq
      simp [heq]
    · rename_i hne
      simp [hne]
  · have hmod := Nat.mod_lt x hbs
    have hdiv := Nat.div_add_mod' x v.geo.blocksz
    by_cases hx : x / v.geo.blocksz = q
    · have hnew : (v'.setData b (copy old ((off + nw) % v.geo.blocksz) buf nw m)).fileBlock n
          (x / v.geo.blocksz) = some (.blk b) := by
        rw [hset, hblocks, if_pos hx]
      rw [file_byte_some (by rw [setData_geo, hgeo]; exact hnew), setData_data,
        if_pos rfl, setData_geo, hgeo, trim_apply _ hmod]
      rw [hx] at hdiv
      unfold copy
      by_cases hin : (off + nw) % v.geo.blocksz ≤ x % v.geo.blocksz ∧
          x % v.geo.blocksz < (off + nw) % v.geo.blocksz + m
      · rw [if_pos hin, if_pos (by omega)]
        congr 1
        omega
      · rw [if_neg hin, if_neg (by omega), hold _ hmod, hdiv]
    · rw [if_neg]
      · have hold' : (v'.setData b (copy old ((off + nw) % v.geo.blocksz) buf nw m)).fileBlock n
            (x / v.geo.blocksz) = v.fileBlock n (x / v.geo.blocksz) := by
          rw [hset, hblocks, if_neg hx]
        cases hcase : v.fileBlock n (x / v.geo.blocksz) with
        | none =>
          rw [hcase] at hold'
          rw [file_byte_none hcase, file_byte_none (by rw [setData_geo, hgeo]; exact hold')]
        | some c =>
          obtain ⟨y, rfl⟩ := hnode _ c hcase
          obtain ⟨hyb, hydata⟩ := hinj _ y hx hcase
          rw [hcase] at hold'
          rw [file_byte_some hcase,
            file_byte_some (by rw [setData_geo, hgeo]; exact hold'), setData_data,
            if_neg hyb, hydata, setData_geo, hgeo]
      · rintro ⟨hlow, hhigh⟩
        apply hx
        rw [show x = q * v.geo.blocksz + (x - q * v.geo.blocksz) by omega]
        exact div_mul_add (by omega)

end View

/-! ## Reading -/

section Read

variable {fs : Ext2fs} {n : Nat}

/-- The end of the part of a file that can be reached. -/
def Geo.maxBytes (g : Geo) : Nat := g.fileBlocks * g.blocksz

-- positions in a file are far from the end of a `usize`
theorem Geo.Layout.maxBytes_lt {g : Geo} (hg : g.Layout) : g.maxBytes < 2 ^ 64 := by
  obtain ⟨h2, h3, -, -⟩ := hg.ppb_pow
  obtain ⟨-, -, -, hblocks⟩ := @Geo.slotBase_eq g
  have hppb := hg.ppb_bounds.2
  calc g.fileBlocks * g.blocksz ≤ 2 ^ 31 * 4096 :=
        Nat.mul_le_mul (by omega) hg.blocksz_le
    _ < 2 ^ 64 := by decide

theorem div_lt_fileBlocks {g : Geo} (hg : g.Layout) {x : Nat} (hx : x < g.maxBytes) :
    x / g.blocksz < g.fileBlocks := by
  have hbs := hg.mounted.blocksz_ge
  rw [Nat.div_lt_iff_lt_mul (by omega)]
  exact hx

theorem getblkid_fileBlock (hg : fs.geo.Ok) (hv : fs.vol.Sound) (hn : fs.vol.Live n) {idx : Nat}
    (hidx : idx < fs.geo.fileBlocks) : ∃ w, (inoGetblkid (fs.vol.inode n) idx).run fs = .ok w fs ∧
      fs.vol.fileBlock n idx = ptr w := by
  obtain ⟨k, es, hpath⟩ := hg.toLayout.exists_path hidx
  obtain ⟨w, hrun, href⟩ := run_inoGetblkid hg hv hn hpath
  exact ⟨w, hrun, (fileBlock_of_path (v := fs.vol) hidx hpath).trans href⟩

variable {off nb : Nat}

/-- The loop reads the rest of the range. -/
theorem readLoop_run (hg : fs.geo.Ok) (hv : fs.vol.Sound) (hn : fs.vol.Live n) {off nb : Nat}
    (hend : off + nb ≤ fs.geo.maxBytes) {fuel nread : Nat} {buf : Bytes}
    (hfuel : nb - nread ≤ fuel) (hle : nread ≤ nb) :
    ∃ out, (readLoop (fs.vol.inode n) off nb fuel nread buf).run fs = .ok (nb, out) fs ∧
      (∀ j < nread, out j = buf j) ∧
      ∀ j, nread ≤ j → j < nb → out j = (fs.vol.file n).byte (off + j) := by
  have hbs := hg.mounted.blocksz_ge
  have hmax := hg.toLayout.maxBytes_lt
  induction fuel generalizing nread buf with
  | zero =>
    obtain rfl : nread = nb := by omega
    exact ⟨buf, rfl, fun _ _ => rfl, fun j h1 h2 => by omega⟩
  | succ fuel ih =>
    unfold readLoop
    by_cases hdone : nb ≤ nread
    · obtain rfl : nread = nb := by omega
      rw [if_pos hdone]
      exact ⟨buf, rfl, fun _ _ => rfl, fun j h1 h2 => by omega⟩
    have hpos : (off + nread) % 2 ^ 64 = off + nread := Nat.mod_eq_of_lt (by omega)
    have hmod := Nat.mod_lt (off + nread) (show 0 < fs.geo.blocksz by omega)
    obtain ⟨w, hrun, hw⟩ := getblkid_fileBlock hg hv hn
      (div_lt_fileBlocks hg.toLayout (x := off + nread) (by omega))
    rw [if_neg hdone, Op.run_get_bind]
    rw [hpos, Op.run_bind_of_ok (Op.run_attempt_of_ok hrun)]
    dsimp only
    generalize hcnt : min (fs.geo.blocksz - (off + nread) % fs.geo.blocksz) (nb - nread) = cnt
    -- the bytes of the chunk, once they are in the buffer
    have hchunk : ∀ j, nread ≤ j → j < nread + cnt →
        (off + j) / fs.geo.blocksz = (off + nread) / fs.geo.blocksz ∧
        (off + j) % fs.geo.blocksz = (off + nread) % fs.geo.blocksz + (j - nread) := by
      intro j h1 h2
      have := @chunk_div_mod fs.geo.blocksz (off + nread) (off + j) (by omega) (by omega)
      rwa [show off + j - (off + nread) = j - nread by omega] at this
    have hstep : ∀ src s, (∀ j, nread ≤ j → j < nread + cnt →
        src (s + (j - nread)) = (fs.vol.file n).byte (off + j)) →
        ∃ out, (readLoop (fs.vol.inode n) off nb fuel (nread + cnt)
          (copy buf nread src s cnt)).run fs = .ok (nb, out) fs ∧ (∀ j < nread, out j = buf j) ∧
          ∀ j, nread ≤ j → j < nb → out j = (fs.vol.file n).byte (off + j) := by
      intro src s hsrc
      obtain ⟨out, hout, hlow, hhigh⟩ := @ih (nread + cnt)
        (copy buf nread src s cnt) (by omega) (by omega)
      refine ⟨out, hout, fun j hj => ?_, fun j h1 h2 => ?_⟩
      · rw [hlow j (by omega), copy_of_ne (by omega)]
      by_cases hj : j < nread + cnt
      · rw [hlow j hj, ← hsrc j h1 hj]
        have hcopy : copy buf nread src s cnt (nread + (j - nread)) = src (s + (j - nread)) :=
          copy_apply (by omega)
        rwa [Nat.add_sub_cancel' h1] at hcopy
      · exact hhigh j (by omega) h2
    by_cases hzero : w = 0
    · rw [if_pos hzero]
      apply hstep
      intro j h1 h2
      rw [file_byte_none]
      · rfl
      · rw [vol_geo, (hchunk j h1 h2).1, hw, ptr_eq_none.mpr hzero]
    · rw [if_neg hzero]
      rw [ptr_of_ne hzero] at hw
      obtain ⟨-, k, es, -, hfull, href⟩ := fileBlock_path hg.toLayout hw
      have hdata := (hv.owned n _ w hn hfull.fits href).1
      rw [Op.run_bind_of_ok (hg.run_rdblk hdata.2.1)]
      apply hstep
      intro j h1 h2
      obtain ⟨hdiv, hoff⟩ := hchunk j h1 h2
      rw [file_byte_some (b := w) (by rw [vol_geo, hdiv, hw]), vol_geo, hoff,
        vol_data hdata, trim_apply _ (by omega)]

theorem run_read (hg : fs.geo.Ok) (hv : fs.vol.Sound) (hn : fs.vol.Live n)
    (hsize : off + nb ≤ fs.geo.getisize (fs.vol.inode n)) (hend : off + nb ≤ fs.geo.maxBytes)
    (buf : Bytes) : ∃ out, (ext2fsRead n off nb buf).run fs = .ok (nb, out) fs ∧
      ∀ j < nb, out j = (fs.vol.file n).byte (off + j) := by
  unfold ext2fsRead
  rw [Op.run_bind_of_ok (run_getino hg hn.1), Op.run_get_bind]
  by_cases hempty : fs.geo.getisize (fs.vol.inode n) ≤ off
  · obtain rfl : nb = 0 := by omega
    rw [if_pos hempty]
    exact ⟨buf, rfl, fun j hj => by omega⟩
  · rw [if_neg hempty, show min nb (fs.geo.getisize (fs.vol.inode n) - off) = nb by omega]
    obtain ⟨out, hrun, -, hbytes⟩ := @readLoop_run _ _ hg hv hn _ _ hend nb 0 buf
      (by omega) (by omega)
    exact ⟨out, hrun, fun j hj => hbytes j (by omega) hj⟩

theorem readLoop_count (inod : Bytes) (off nb fuel nread : Nat) (buf : Bytes) (hle : nread ≤ nb) :
    Post (readLoop inod off nb fuel nread buf) fs (fun r _ => r.1 ≤ nb) (fun _ _ => True) := by
  induction fuel generalizing nread buf fs with
  | zero => exact Post.pure hle
  | succ fuel ih =>
    unfold readLoop
    split
    · exact Post.pure hle
    apply Post.get_bind
    refine Post.bind (R := fun _ _ => True) (F := fun _ _ => True) ?_ ?_ fun _ _ _ => trivial
    · unfold Post
      split <;> trivial
    rintro (code | w) fs₁ -
    · exact Post.pure hle
    dsimp only
    split
    · exact ih _ _ (by omega)
    refine Post.bind (R := fun _ _ => True) (F := fun _ _ => True) ?_ ?_ fun _ _ _ => trivial
    · unfold Post
      split <;> trivial
    · exact fun _ _ _ => ih _ _ (by omega)

theorem read_count {r : Nat} {buf out : Bytes} {fs' : Ext2fs} (hg : fs.geo.Ok)
    (hn : fs.vol.inUse n = true) (h : (ext2fsRead n off nb buf).run fs = .ok (r, out) fs') :
    r = 0 ∨ off + r ≤ fs.geo.getisize (fs.vol.inode n) := by
  unfold ext2fsRead at h
  rw [Op.run_bind_of_ok (run_getino hg hn), Op.run_get_bind] at h
  by_cases hempty : fs.geo.getisize (fs.vol.inode n) ≤ off
  · rw [if_pos hempty] at h
    cases h
    exact Or.inl rfl
  · rw [if_neg hempty] at h
    have hcount := (readLoop_count _ off _ _ 0 buf (Nat.zero_le _)).ok h
    omega

-- behind the last block that a slot leads to
theorem read_behind_fault (hg : fs.geo.Ok) (hn : fs.vol.inUse n = true) (buf : Bytes)
    (hsize : fs.geo.maxBytes < fs.geo.getisize (fs.vol.inode n)) :
    (ext2fsRead n fs.geo.maxBytes 1 buf).run fs = .error .fault fs := by
  have hbs := hg.mounted.blocksz_ge
  have hmax := hg.toLayout.maxBytes_lt
  have hidx : fs.geo.maxBytes / fs.geo.blocksz = fs.geo.fileBlocks :=
    Nat.mul_div_cancel _ (by omega)
  unfold ext2fsRead
  rw [Op.run_bind_of_ok (run_getino hg hn), Op.run_get_bind]
  rw [if_neg (by omega),
    show min 1 (fs.geo.getisize (fs.vol.inode n) - fs.geo.maxBytes) = 1 by omega]
  unfold readLoop
  rw [if_neg (by omega), Op.run_get_bind]
  dsimp only
  rw [Nat.add_zero, Nat.mod_eq_of_lt hmax, hidx]
  exact Op.run_bind_of_error (Op.run_attempt_of_fault
    (run_inoGetblkid_of_none hg.toLayout.blkPath_fileBlocks)) _

end Read

/-! ## Writing -/

section Write

variable {s : Held} {n : Nat}

/-- The block that a write at index `idx` goes to: it ends up at index `q`, with the contents that
the file had there. -/
structure Held.Targets (n : Nat) (s s' : Held) (idx q b : Nat) (old : Bytes) : Prop where
  target : q = idx ∧ (s.fs.vol.file n).held q ∨ ¬ (s.fs.vol.file n).held idx ∧
    ¬ (s.fs.vol.file n).held q ∧ ∀ i < q, (s.fs.vol.file n).held i
  blocks : ∀ i, s'.fs.vol.fileBlock n i =
    if i = q then some (.blk b) else s.fs.vol.fileBlock n i
  others : ∀ i x, i ≠ q → s.fs.vol.fileBlock n i = some (.blk x) →
    x ≠ b ∧ s'.fs.vol.data x = s.fs.vol.data x
  old : ∀ o < s.fs.geo.blocksz, old o = (s.fs.vol.file n).byte (q * s.fs.geo.blocksz + o)

theorem Held.Synced.fileBlock_blk (hs : s.Synced n) {i : Nat} {c : Node}
    (h : s.fs.vol.fileBlock n i = some c) : ∃ x, c = .blk x := by
  obtain ⟨-, k, es, -, -, href⟩ := fileBlock_path hs.geo.toLayout h
  cases c with
  | blk x => exact ⟨x, rfl⟩
  | ino m => cases (ref_eq_ino href).1

-- the lowest hole as a target
theorem Held.Lowest.targets (hs : s.Synced n) {b idx : Nat} {s' : Held} (h : s.Lowest n b s')
    (hidx : s.fs.vol.fileBlock n idx = none) : ∃ q, s.Targets n s' idx q b zero := by
  obtain ⟨hs', q, hq, k, es, hpath, hfills, hlow⟩ := h
  have hblocks := hfills.fileBlock hs.geo.toLayout hs.live hq hpath
  have hhole : s.fs.vol.fileBlock n q = none := by
    rw [fileBlock_of_path (v := s.fs.vol) hq hpath]
    exact hfills.was
  refine ⟨q, Or.inr ⟨not_not.mpr hidx, not_not.mpr hhole, fun i hi => ?_⟩, hblocks, ?_, ?_⟩
  · change fileBlock _ n i ≠ none
    unfold fileBlock
    rw [vol_geo, if_pos (by omega)]
    exact hlow i hi
  · intro i x hi hx
    obtain ⟨-, k', es', -, hfull', href'⟩ := fileBlock_path hs.geo.toLayout hx
    refine ⟨?_, hfills.data n _ x hs.live hfull' href'⟩
    rintro rfl
    -- the new block is at its own index only
    apply hi
    apply hs'.sound.fileBlock_injective hs'.geo.toLayout hs'.live (c := .blk x)
    · rw [hblocks, if_neg hi, hx]
    · rw [hblocks, if_pos rfl]
  · intro o ho
    rw [file_byte_none]
    · rfl
    · rw [vol_geo, div_mul_add ho]
      exact hhole

theorem writeTarget_post (hs : s.Synced n) (idx : Nat)
    (hflush : s.fs.vol.fileBlock n idx = none → s.fs.geo.FlushSafe) :
    Post (writeTarget n idx) s
      (fun r s' => s'.Synced n ∧ s.fs.vol.Keeps n s'.fs.vol ∧
        (∃ ρ, Full ρ ∧ s'.fs.vol.ref n ρ = some (.blk r.1)) ∧
        (idx < s.fs.geo.fileBlocks → ∃ q, s.Targets n s' idx q r.1 r.2))
      (fun _ s' => s'.Synced n ∧ s.fs.vol.Keeps n s'.fs.vol) := by
  apply Post.get_bind
  cases hpath : s.fs.geo.blkPath idx with
  | none =>
    have hget := @run_inoGetblkid_of_none s.fs s.inod idx hpath
    have hrun := run_onFs_of_error (s := s) hget
    exact Post.of_error (Op.run_bind_of_error hrun _) ⟨hs, Keeps.refl n _⟩
  | some p =>
    have hfull := (hs.geo.toLayout.blkPath_full hpath).2.1
    obtain ⟨w, hrun, href⟩ := run_inoGetblkid hs.geo hs.sound hs.live hpath
    rw [← hs.inod] at hrun
    apply Post.bind_ok (run_onFs_of_ok hrun)
    split
    · -- a hole
      rename_i hzero
      have hhole : s.fs.vol.fileBlock n idx = none := by
        by_cases hidx : idx < s.fs.geo.fileBlocks
        · rw [fileBlock_of_path (v := s.fs.vol) hidx hpath, href, ptr_eq_none.mpr hzero]
        · exact if_neg hidx
      refine Post.bind (inoAllocblk_post hs (hflush hhole)) ?_ ?_
      · intro b s' hlow
        obtain ⟨hs', q, hq, k', es', hpath', hfills, -⟩ := id hlow
        exact Post.pure ⟨hs', hfills.toKeeps, ⟨_, hfills.full, hfills.now⟩,
          fun _ => hlow.targets hs hhole⟩
      · rintro e s' ⟨hs', hgrows⟩
        exact ⟨hs', hgrows.toKeeps⟩
    · rename_i hne
      rw [ptr_of_ne hne] at href
      have hdata := (hs.sound.owned n _ w hs.live hfull.fits href).1
      apply Post.bind_ok (run_onFs_of_ok (hs.geo.run_rdblk hdata.2.1))
      refine Post.pure ⟨hs, Keeps.refl n _, ⟨_, hfull, href⟩, fun hidx => ⟨idx, ?_⟩⟩
      have hat : s.fs.vol.fileBlock n idx = some (.blk w) :=
        (fileBlock_of_path (v := s.fs.vol) hidx hpath).trans href
      refine ⟨Or.inl ⟨rfl, ?_⟩, ?_, ?_, ?_⟩
      · change s.fs.vol.fileBlock n idx ≠ none
        rw [hat]
        exact Option.some_ne_none _
      · intro i
        split
        · rename_i heq
          rw [heq, hat]
        · rfl
      · intro i x hi hx
        refine ⟨?_, rfl⟩
        rintro rfl
        exact hi (hs.sound.fileBlock_injective hs.geo.toLayout hs.live hx hat)
      · intro o ho
        have hmod : (idx * s.fs.geo.blocksz + o) % s.fs.geo.blocksz = o := by
          rw [Nat.mul_comm, Nat.mul_add_mod, Nat.mod_eq_of_lt ho]
        rw [file_byte_some (b := w) (by rw [vol_geo, div_mul_add ho, hat]), vol_geo,
          hmod, vol_data hdata, trim_apply _ ho]

/-- The result of an iteration: a put of the next `m` bytes, if the position is in the file. -/
structure Held.PutChunk (n off nb : Nat) (buf : Bytes) (nw : Nat) (s : Held) (m : Nat) (s' : Held) :
    Prop where
  synced : s'.Synced n
  keeps : s.fs.vol.Keeps n s'.fs.vol
  pos : nw < nb → 0 < m
  le : m ≤ nb - nw
  put : off + nw < s.fs.geo.maxBytes →
    m = min (s.fs.geo.blocksz - (off + nw) % s.fs.geo.blocksz) (nb - nw) ∧
    ∃ q, Target s.fs.geo.blocksz (s.fs.vol.file n) (off + nw) q ∧
      PutAt s.fs.geo.blocksz (fun x => buf (x - off)) (s.fs.vol.file n)
        (s'.fs.vol.file n) (off + nw) m q

/-- A byte of the range has no block. -/
def Vol.HoleIn (v : Vol) (n off nb : Nat) : Prop :=
  ∃ x, off ≤ x ∧ x < off + nb ∧ ¬ (v.file n).held (x / v.geo.blocksz)

theorem Vol.holeIn_of_maxBytes {v : Vol} (hg : v.geo.Layout) {off nb : Nat}
    (hoff : v.geo.maxBytes ≤ off) (hnb : 0 < nb) : v.HoleIn n off nb := by
  have hbs := hg.mounted.blocksz_ge
  have hidx : v.geo.fileBlocks ≤ off / v.geo.blocksz :=
    (Nat.le_div_iff_mul_le (by omega)).mpr hoff
  exact ⟨off, Nat.le_refl _, by omega, not_not.mpr (if_neg (by omega))⟩

theorem Held.PutChunk.holeIn {off nb nw m : Nat} {buf : Bytes} {s' : Held}
    (h : s.PutChunk n off nb buf nw m s') (hs : s.Synced n) (hnw : nw < nb)
    (hhole : s'.fs.vol.HoleIn n (off + (nw + m)) (nb - (nw + m))) :
    s.fs.vol.HoleIn n (off + nw) (nb - nw) := by
  by_cases hin : off + nw < s.fs.geo.maxBytes
  · obtain ⟨x, hlow, hhigh, hnot⟩ := hhole
    obtain ⟨-, q, -, hput⟩ := h.put hin
    rw [h.keeps.geo, hput.held] at hnot
    exact ⟨x, by omega, by omega, fun hheld => hnot (Or.inl hheld)⟩
  · exact holeIn_of_maxBytes hs.geo.toLayout (Nat.le_of_not_lt hin) (by omega)

theorem writeChunk_post (hs : s.Synced n) (off nb : Nat) (buf : Bytes) {nw : Nat} (hnw : nw < nb)
    (hflush : s.fs.vol.HoleIn n (off + nw) (nb - nw) → s.fs.geo.FlushSafe) :
    Post (writeChunk n off nb buf nw) s (s.PutChunk n off nb buf nw)
      (fun _ s' => s'.Synced n ∧ s.fs.vol.Keeps n s'.fs.vol) := by
  have hbs := hs.geo.mounted.blocksz_ge
  have hmax := hs.geo.toLayout.maxBytes_lt
  have hhole : s.fs.vol.fileBlock n ((off + nw) % 2 ^ 64 / s.fs.geo.blocksz) = none →
      s.fs.vol.HoleIn n (off + nw) (nb - nw) := by
    intro hnone
    by_cases hin : off + nw < s.fs.geo.maxBytes
    · rw [Nat.mod_eq_of_lt (by omega)] at hnone
      exact ⟨off + nw, Nat.le_refl _, by omega, not_not.mpr hnone⟩
    · exact holeIn_of_maxBytes hs.geo.toLayout (Nat.le_of_not_lt hin) (by omega)
  apply Post.get_bind
  refine Post.bind (writeTarget_post hs _ fun hnone => hflush (hhole hnone)) ?_ fun _ _ h => h
  rintro ⟨b, old⟩ s₁ ⟨hs₁, hkeeps, ⟨ρ, hρ, href⟩, htarget⟩
  have hdata : s₁.fs.geo.IsData b := (hs₁.sound.owned n ρ b hs₁.live hρ.fits href).1
  apply Post.bind_ok (run_onFs_of_ok (run_wrblk hdata.2.1 _))
  apply Post.pure
  generalize hbuf : copy old ((off + nw) % 2 ^ 64 % s.fs.geo.blocksz) buf nw
    (min (s.fs.geo.blocksz - (off + nw) % 2 ^ 64 % s.fs.geo.blocksz) (nb - nw)) = new
  have hvol := vol_putBlock_data hs₁.geo hdata new
  have hpmod := Nat.mod_lt ((off + nw) % 2 ^ 64) (show 0 < s.fs.geo.blocksz by omega)
  refine ⟨⟨hs₁.geo, ?_, ?_, ?_⟩, ?_, fun _ => by omega, Nat.min_le_right _ _, ?_⟩
  · rw [hvol]
    exact hs₁.sound.setData hs₁.live hρ href new
  · change (s₁.fs.putBlock b new).vol.Live n
    rw [hvol]
    exact hs₁.live
  · change s₁.inod = (s₁.fs.putBlock b new).vol.inode n
    rw [hvol]
    exact hs₁.inod
  · rw [hvol]
    exact ⟨hkeeps.geo, hkeeps.inUse, hkeeps.others, hkeeps.head⟩
  intro hlt
  have hpos : (off + nw) % 2 ^ 64 = off + nw := Nat.mod_eq_of_lt (by omega)
  rw [hpos] at htarget hbuf ⊢
  refine ⟨rfl, ?_⟩
  obtain ⟨q, hq⟩ := htarget (div_lt_fileBlocks hs.geo.toLayout hlt)
  refine ⟨q, hq.target, ?_⟩
  rw [hvol, ← hbuf]
  have hmod := Nat.mod_lt (off + nw) (show 0 < s.fs.geo.blocksz by omega)
  exact file_putAt (v := s.fs.vol) hkeeps.geo (by rw [vol_geo]; omega) hq.blocks
    (fun i => hs₁.sound.fileBlock_setData hs₁.geo.toLayout hs₁.live hρ href _ i) hq.others
    (fun i c hc => hs.fileBlock_blk hc) hq.old (by rw [vol_geo]; omega)

-- at the end of what the slots lead to, the lookup is out of bounds
theorem writeChunk_fault (hg : s.fs.geo.Ok) {off nb nw : Nat} {buf : Bytes}
    (hpos : off + nw = s.fs.geo.maxBytes) :
    (writeChunk n off nb buf nw).run s = .error .fault s := by
  have hbs := hg.mounted.blocksz_ge
  have hmax := hg.toLayout.maxBytes_lt
  have hidx : s.fs.geo.maxBytes / s.fs.geo.blocksz = s.fs.geo.fileBlocks :=
    Nat.mul_div_cancel _ (by omega)
  unfold writeChunk
  rw [Op.run_get_bind]
  dsimp only
  rw [hpos, Nat.mod_eq_of_lt hmax, hidx]
  apply Op.run_bind_of_error
  unfold writeTarget
  rw [Op.run_get_bind]
  exact Op.run_bind_of_error (run_onFs_of_error
    (run_inoGetblkid_of_none hg.toLayout.blkPath_fileBlocks)) _

/-- The loop keeps the volume sound; if it writes everything, it was a run of puts. -/
theorem writeLoop_post (hs : s.Synced n) {off nb : Nat} {buf : Bytes} {fuel nw : Nat}
    (hfuel : nb - nw ≤ fuel) (hnw : nw ≤ nb)
    (hflush : s.fs.vol.HoleIn n (off + nw) (nb - nw) → s.fs.geo.FlushSafe) :
    Post (writeLoop n off nb buf fuel nw) s
      (fun r s' => s'.Synced n ∧ s.fs.vol.Keeps n s'.fs.vol ∧
        (r.1 = nb → off + nw ≤ s.fs.geo.maxBytes → off + nb ≤ s.fs.geo.maxBytes ∧
          Run s.fs.geo.blocksz (fun x => buf (x - off)) (s.fs.vol.file n) (off + nw)
            (off + nb) (s'.fs.vol.file n)))
      (fun _ _ => True) := by
  induction fuel generalizing nw s with
  | zero =>
    obtain rfl : nw = nb := by omega
    exact Post.pure ⟨hs, Keeps.refl n _, fun _ h => ⟨h, Run.done _ _⟩⟩
  | succ fuel ih =>
    unfold writeLoop
    split
    · obtain rfl : nw = nb := by omega
      exact Post.pure ⟨hs, Keeps.refl n _, fun _ h => ⟨h, Run.done _ _⟩⟩
    by_cases hend : off + nw = s.fs.geo.maxBytes
    · exact Post.of_error (Op.run_bind_of_error
        (Op.run_attempt_of_fault (writeChunk_fault hs.geo hend)) _) trivial
    have hlt : nw < nb := by omega
    refine Post.attempt_bind (writeChunk_post hs off nb buf hlt hflush) ?_ ?_ fun _ _ => trivial
    · intro m s₁ hput
      have hm := hput.pos (by omega)
      have hle := hput.le
      have hgeo : s₁.fs.geo = s.fs.geo := hput.keeps.geo
      refine Post.mono (@ih _ hput.synced (nw + m) (by omega) (by omega) fun hhole =>
        hput.keeps.flushSafe (hflush (hput.holeIn hs hlt hhole))) ?_ fun _ _ h => h
      rintro r s₂ ⟨hs₂, hkeeps₂, hrest⟩
      refine ⟨hs₂, hput.keeps.trans hkeeps₂, fun hr hin => ?_⟩
      obtain ⟨hmin, q, hq, hputAt⟩ := hput.put (by omega)
      rw [hgeo] at hrest
      have hfits : off + (nw + m) ≤ s.fs.geo.maxBytes := by
        -- a chunk does not leave its block
        have hdiv := div_lt_fileBlocks hs.geo.toLayout (x := off + nw) (by omega)
        have hmul := Nat.mul_le_mul_right s.fs.geo.blocksz (Nat.succ_le_of_lt hdiv)
        have hpos := Nat.div_add_mod' (off + nw) s.fs.geo.blocksz
        rw [Nat.succ_mul] at hmul
        unfold Geo.maxBytes
        omega
      obtain ⟨hend', hrun⟩ := hrest hr hfits
      refine ⟨hend', Run.step (by omega) ?_ hq hputAt ?_⟩
      · rw [hmin]
        congr 1
        omega
      · rwa [Nat.add_assoc]
    · rintro code s₁ ⟨hs₁, hkeeps⟩
      refine Post.pure ⟨hs₁, hkeeps, fun hr => ?_⟩
      omega

theorem putSize_words (g : Geo) (inod : Bytes) (size : Nat) :
    iType (g.putSize inod size) = iType inod ∧
      ∀ k < 15, iBlock (g.putSize inod size) k = iBlock inod k := by
  unfold Geo.putSize iType iBlock
  split
  · refine ⟨?_, fun k hk => ?_⟩
    · rw [get16_put32_of_ne (by omega), get16_put32_of_ne (by omega)]
    · rw [get32_put32_of_ne (by omega), get32_put32_of_ne (by omega)]
  · refine ⟨?_, fun k hk => ?_⟩
    · rw [get16_put32_of_ne (by omega)]
    · rw [get32_put32_of_ne (by omega)]

theorem trim_putSize (g : Geo) (inod : Bytes) (size : Nat) :
    trim 128 (g.putSize inod size) = g.putSize (trim 128 inod) size := by
  have htype : iType (trim 128 inod) = iType inod :=
    congrArg (· &&& 0xF000) (get16_trim _ (by omega))
  unfold Geo.putSize
  rw [htype]
  split
  · rw [trim_put32 _ _ (by omega), trim_put32 _ _ (by omega)]
  · rw [trim_put32 _ _ (by omega)]

theorem Vol.ref_setInode {v : Vol} {x : Bytes}
    (hslots : ∀ k < 15, iBlock x k = iBlock (v.inode n) k)
    (m : Nat) (es : List Nat) : (v.setInode n x).ref m es = v.ref m es := by
  apply ref_congr
  intro es₁ y _ d _
  cases d with
  | blk _ => rfl
  | ino m' =>
    rw [next_ino, next_ino, setInode_inode]
    split
    · rename_i hy
      split
      · rename_i hm
        have hword : iBlock (trim 128 x) y = iBlock x y := get32_trim _ (by omega)
        rw [hword, hslots y hy, hm]
      · rfl
    · rfl

theorem Vol.file_setInode {v : Vol} {x : Bytes}
    (hslots : ∀ k < 15, iBlock x k = iBlock (v.inode n) k)
    (m : Nat) : (v.setInode n x).file m = v.file m := by
  have hblock : ∀ i, (v.setInode n x).fileBlock m i = v.fileBlock m i := by
    intro i
    unfold fileBlock blockAt
    rw [setInode_geo]
    split
    · cases v.geo.blkPath i with
      | none => rfl
      | some p => exact ref_setInode hslots m _
    · rfl
  unfold file
  simp only [hblock, setInode_geo, setInode_data]

/-- What a write that returns leaves: the file after the puts, with its new size. -/
structure WriteResult (n off nb : Nat) (buf : Bytes) (fs : Ext2fs) (r : Nat) (fs' : Ext2fs) :
    Prop where
  geo : fs'.geo = fs.geo
  sound : fs'.vol.Sound
  live : fs'.vol.Live n
  inode : ∃ x, fs'.vol.inode n = fs.geo.putSize x
      (max ((off + r) % 2 ^ 64) (fs.geo.getisize (fs.vol.inode n))) ∧
    iType x = iType (fs.vol.inode n) ∧ get16 x 0 = get16 (fs.vol.inode n) 0
  run : r = nb → off ≤ fs.geo.maxBytes → off + nb ≤ fs.geo.maxBytes ∧
    Run fs.geo.blocksz (fun x => buf (x - off)) (fs.vol.file n) off (off + nb)
      (fs'.vol.file n)

theorem write_post {fs : Ext2fs} (hg : fs.geo.Ok) (hv : fs.vol.Sound) (hn : fs.vol.Live n)
    {off nb : Nat} (hflush : fs.vol.HoleIn n off nb → fs.geo.FlushSafe) (buf : Bytes) :
    Post (ext2fsWrite n off nb buf) fs (WriteResult n off nb buf fs) (fun _ _ => True) := by
  have hs : Held.Synced n ⟨fs, fs.vol.inode n⟩ := ⟨hg, hv, hn, rfl⟩
  apply Post.bind_ok (run_getino hg hn.1)
  apply Post.get_bind
  refine Post.bind (post_withInode (@writeLoop_post _ n hs off nb buf nb 0 (by omega)
    (Nat.zero_le _) hflush) (Q := fun r fs₁ => Held.Synced n ⟨fs₁, r.2⟩ ∧ fs.vol.Keeps n fs₁.vol ∧
      (r.1.1 = nb → off ≤ fs.geo.maxBytes → off + nb ≤ fs.geo.maxBytes ∧
        Run fs.geo.blocksz (fun x => buf (x - off)) (fs.vol.file n) off (off + nb)
          (fs₁.vol.file n))) ?_ fun _ _ h => h) ?_ fun _ _ h => h
  · rintro r s ⟨hsync, hkeeps, hrun⟩
    exact ⟨hsync, hkeeps, hrun⟩
  rintro ⟨⟨r, werr⟩, inod⟩ fs₁ ⟨hs₁, hkeeps, hrun⟩
  dsimp only at hs₁ hrun ⊢
  have hinod : inod = fs₁.vol.inode n := hs₁.inod
  generalize hsize : max ((off + r) % 2 ^ 64) (fs.geo.getisize (fs.vol.inode n)) = size
  obtain ⟨htype, hslots⟩ := putSize_words fs.geo inod size
  obtain ⟨fs₂, hflush, hvol⟩ := run_flushInode hs₁.geo hs₁.live.1 (fs.geo.putSize inod size)
  apply Post.bind_ok hflush
  split
  · exact Post.fail trivial
  apply Post.pure
  rw [hinod] at htype hslots
  have hhead := get16_congr (hkeeps.head 0 (by omega)) (hkeeps.head 1 (by omega))
  have hinode : fs₂.vol.inode n = fs.geo.putSize inod size := by
    rw [hvol, setInode_inode, if_pos rfl, trim_putSize, hinod]
    exact congrArg (fs.geo.putSize · size) (trim_inode hs₁.live.1)
  refine ⟨?_, ?_, ?_, ⟨inod, ?_, ?_, ?_⟩, ?_⟩
  · exact (congrArg geo hvol).trans hkeeps.geo
  · rw [hvol, hinod]
    exact hs₁.sound.setInode htype fun k hk => Or.inl (hslots k hk)
  · have hlive := hs₁.live
    unfold Live at hlive ⊢
    rw [hinode, hinod, htype, hvol]
    exact hlive
  · rw [hinode, hsize]
  · rw [hinod]
    unfold iType
    rw [hhead]
  · rw [hinod, hhead]
  · intro hr hoff
    rw [hvol, hinod, file_setInode hslots]
    exact hrun hr hoff

end Write

end Ext2
