import RandomOs.Ext2.DirViews

/-!
# Directories after a new link (`ext2.c`)

`ext2fs_mklink` writes its record into a record without an inode, behind the name of a record in
use, or into a new block.  What the driver reads afterwards is the directory of the volume, with
its entries and the new one; with a new block and a link to the directory itself it is the old one.
-/

namespace Ext2

open Lib Bytes Kern List Vol

/-! ## Directories of a sound volume -/

/-- A directory and its blocks in order. -/
structure Vol.Dir (v : Vol) (n : Nat) (ws : List Nat) : Prop where
  used : v.inUse n = true
  dir : iType (v.inode n) = S_IFDIR
  size : get32 (v.inode n) 4 = ws.length * v.geo.blocksz
  block : ∀ b w, ws[b]? = some w → v.blockAt n b = some (.blk w)
  chain : ∀ w ∈ ws, Chain v.geo.blocksz (v.data w)

/-- The entries of a block. -/
def blockEnts (bs : Nat) (blk : Bytes) : List Dirent := (entOffs bs blk bs 0).map (direntAt blk)

theorem blockEnts_of_recs {bs : Nat} {blk : Bytes} {l : List Nat} (h : Recs blk 0 bs l) :
    blockEnts bs blk = l.map (direntAt blk) := by
  have hchain : Chain bs blk := h.ents
  rw [blockEnts, hchain.recs.unique h]

theorem blockEnts_congr {bs : Nat} {blk blk' : Bytes} (h : Chain bs blk)
    (hbytes : ∀ x < bs, blk' x = blk x) : blockEnts bs blk' = blockEnts bs blk := by
  obtain ⟨hrecs, hmap⟩ := h.recs.congr blk' fun x _ hx => hbytes x hx
  rw [blockEnts_of_recs hrecs, hmap, blockEnts]

section VolDir

variable {fs : Ext2fs} {n : Nat} {ws : List Nat} {inod : Bytes}

theorem dirEnts_eq (fs : Ext2fs) (ws : List Nat) :
    fs.dirEnts ws = ws.flatMap fun w => blockEnts fs.geo.blocksz (fs.rd w) := by
  induction ws with
  | nil => rfl
  | cons w ws ih =>
    rw [dirEnts_cons, ih]
    rfl

variable {v : Vol} {w : Nat}

theorem Vol.Dir.live (h : v.Dir n ws) : v.Live n := ⟨h.used, Or.inr h.dir⟩

theorem Vol.Dir.ref (h : v.Dir n ws) {b : Nat} (hw : ws[b]? = some w) :
    ∃ k es, v.geo.blkPath b = some (k, es) ∧ v.ref n (k :: es) = some (.blk w) := by
  have hblock := h.block b w hw
  unfold blockAt at hblock
  split at hblock
  · cases hblock
  · rename_i k es hpath
    exact ⟨k, es, hpath, hblock⟩

theorem Vol.Dir.owned (h : v.Dir n ws) (hg : v.geo.Layout) (hv : v.Sound) (hw : w ∈ ws) :
    ∃ ρ, Full ρ ∧ v.ref n ρ = some (.blk w) ∧ v.geo.IsData w := by
  obtain ⟨b, hb⟩ := List.getElem?_of_mem hw
  obtain ⟨k, es, hpath, href⟩ := h.ref hb
  have hfull := (hg.blkPath_full hpath).2.1
  exact ⟨k :: es, hfull, href, (hv.owned n _ w h.live hfull.fits href).1⟩

-- a directory has fewer blocks than the slots lead to
theorem Vol.Dir.length_lt (h : v.Dir n ws) (hg : v.geo.Layout) : ws.length < v.geo.fileBlocks := by
  have hlt := get32_lt (v.inode n) 4
  have hge := hg.mounted.blocksz_ge
  have hppb := hg.mounted.ppb_mul
  obtain ⟨-, -, -, hblocks⟩ := @Geo.slotBase_eq v.geo
  have hcube : 256 ^ 3 ≤ v.geo.ppb ^ 3 := Nat.pow_le_pow_left (by omega) 3
  rw [h.size] at hlt
  have hmul : ws.length * 1024 ≤ ws.length * v.geo.blocksz := Nat.mul_le_mul_left _ hge
  omega

theorem Vol.Dir.nodup (h : v.Dir n ws) (hg : v.geo.Layout) (hv : v.Sound) : ws.Nodup := by
  have hlt := h.length_lt hg
  rw [nodup_iff_injective_getElem]
  rintro ⟨i, hi⟩ ⟨j, hj⟩ heq
  dsimp only at heq
  obtain ⟨k, es, hpath, href⟩ := h.ref (List.getElem?_eq_getElem hi)
  obtain ⟨k', es', hpath', href'⟩ := h.ref (List.getElem?_eq_getElem hj)
  rw [heq] at href
  have hsame := (hv.eq_of_ref h.live h.live (hg.blkPath_full hpath).2.1.fits
    (hg.blkPath_full hpath').2.1.fits href href').2
  cases hsame
  exact Fin.ext (hg.blkPath_injective (by omega) (by omega) (hpath.trans hpath'.symm))

-- what `rdblk` reads of a data block
theorem rd_data (hg : fs.geo.Ok) (hw : fs.geo.IsData w) {x : Nat} (hx : x < fs.geo.blocksz) :
    fs.rd w x = fs.vol.data w x := by
  have hread : fs.rd w = fs.block w := by
    unfold Ext2fs.rd blockRead Ext2fs.block
    rw [hg.sector hw.2.1]
  rw [hread, vol_data hw, trim_apply _ hx]

theorem Vol.Dir.dirBlocks (h : fs.vol.Dir n ws) (hg : fs.geo.Ok) (hv : fs.vol.Sound) :
    DirBlocks fs n (fs.vol.inode n) ws := by
  have hdata : ∀ w ∈ ws, fs.geo.IsData w := by
    intro w hw
    obtain ⟨-, -, -, hw⟩ := h.owned hg.toLayout hv hw
    exact hw
  refine ⟨run_getino hg h.used, h.dir, h.size, ?_, ?_, ?_, ?_⟩
  · intro b w hw
    obtain ⟨k, es, hpath, href⟩ := h.ref hw
    obtain ⟨w', hrun, href'⟩ := run_inoGetblkid hg hv h.live hpath
    rw [href] at href'
    cases (ptr_eq_some href'.symm).1
    exact hrun
  · exact fun w hw => (hdata w hw).ne_zero
  · exact fun w hw => (hdata w hw).2.1
  · intro w hw
    exact (h.chain w hw).congr fun x hx => (rd_data hg (hdata w hw) hx).symm

theorem Vol.Dir.dirEnts (h : fs.vol.Dir n ws) (hg : fs.geo.Ok) (hv : fs.vol.Sound) :
    fs.dirEnts ws = ws.flatMap fun w => blockEnts fs.geo.blocksz (fs.vol.data w) := by
  rw [dirEnts_eq]
  apply flatMap_congr
  intro w hw
  obtain ⟨-, -, -, hdata⟩ := h.owned hg.toLayout hv hw
  exact blockEnts_congr (h.chain w hw) fun x hx => rd_data hg hdata hx

theorem DirBlocks.volDir (hd : DirBlocks fs n inod ws) (hg : fs.geo.Ok) (hv : fs.vol.Sound) :
    fs.vol.Dir n ws ∧ inod = fs.vol.inode n := by
  obtain ⟨-, hused, hinod⟩ := (getino_post hg n).ok hd.inode
  subst hinod
  have hlive : fs.vol.Live n := ⟨hused, Or.inr hd.dir⟩
  have hblock : ∀ b w, ws[b]? = some w → fs.vol.blockAt n b = some (.blk w) := by
    intro b w hw
    have hrun := hd.block b w hw
    cases hpath : fs.geo.blkPath b with
    | none =>
      rw [run_inoGetblkid_of_none hpath] at hrun
      cases hrun
    | some p =>
      obtain ⟨w', hrun', href⟩ := run_inoGetblkid hg hv hlive hpath
      rw [hrun] at hrun'
      cases hrun'
      rw [blockAt_of_path (v := fs.vol) hpath, href, ptr_of_ne (hd.nonzero w (mem_of_getElem? hw))]
  refine ⟨⟨hused, hd.dir, hd.size, hblock, ?_⟩, rfl⟩
  intro w hw
  obtain ⟨b, hb⟩ := List.getElem?_of_mem hw
  have hat := hblock b w hb
  unfold blockAt at hat
  split at hat
  · cases hat
  · rename_i k es hpath
    have hfull := (hg.toLayout.blkPath_full hpath).2.1
    have hdata := (hv.owned n _ w hlive hfull.fits hat).1
    exact (hd.chain w hw).congr fun x hx => rd_data hg hdata hx

end VolDir

/-! ## Where the record goes -/

def roomAt (blk : Bytes) (nsz i : Nat) : Bool :=
  if entIno blk i = 0 then decide (nsz ≤ recLen blk i)
  else decide (dirReclen (nameLen blk i) ≤ recLen blk i ∧
    nsz ≤ recLen blk i - dirReclen (nameLen blk i))

theorem hasRoom_eq (blk : Bytes) (nsz i : Nat) : hasRoom blk nsz i = .ok (roomAt blk nsz i) := by
  unfold hasRoom roomAt
  split
  · rfl
  · rfl

/-- The number of records before the first one with room for a name. -/
def Ext2fs.roomIdx (fs : Ext2fs) (ws : List Nat) (name : List UInt8) : Nat :=
  (fs.places ws).findIdx fun q => roomAt (fs.rd q.1) (dirReclen name.length) q.2

/-- The entries with a new one at the record of number `k`: in its place if it has no inode, and
behind it otherwise. -/
def linkEnts (ents : List Dirent) (k : Nat) (new : Dirent) : List Dirent :=
  ents.take k ++ ((match ents[k]? with
    | some e => if e.ino = 0 then [new] else [e, new]
    | none => [new]) ++ ents.drop (k + 1))

section Run

variable {fs : Ext2fs} {n : Nat} {ws : List Nat} {inod : Bytes}

theorem DirBlocks.run_mklinkLoop (hd : DirBlocks fs n inod ws) (ent : Nat → Bytes)
    (nsz ino : Nat) (x : Bytes) {m b : Nat} (hm : b + m = ws.length) :
    (mklinkLoop inod ent nsz ino x m b).run fs =
      match findHit fs (fun blk => hasRoom blk nsz) (ws.drop b) with
      | none => .ok false fs
      | some (w, i, _) => (do
          wrblk w (putEnt (fs.rd w) ent nsz i)
          flushInode ino (addLinks x 1)
          pure true : Op Ext2fs Bool).run fs := by
  induction m generalizing b with
  | zero =>
    rw [drop_eq_nil_of_le (by omega)]
    rfl
  | succ m ih =>
    have hb : b < ws.length := by omega
    have hmem : ws[b] ∈ ws := getElem_mem hb
    have hrecs := (hd.chain _ hmem).recs
    have hlen := hrecs.length_le
    obtain ⟨r, hscan, -⟩ := hrecs.scan (fun j _ => hasRoom_eq (fs.rd ws[b]) nsz j)
      (by omega : _ ≤ fs.geo.blocksz) none
    rw [mklinkLoop]
    refine (Op.run_bind_of_ok (hd.block b _ (List.getElem?_eq_getElem hb)) _).trans ?_
    rw [if_neg (hd.nonzero _ hmem)]
    refine (Op.run_bind_of_ok (hd.run_rdblk hmem) _).trans ?_
    rw [drop_eq_getElem_cons hb, findHit, hscan]
    cases r with
    | none => exact ih (by omega)
    | some r => rfl

/-- The volume after a link was made. -/
inductive Linked (n : Nat) (stack : Bytes) (ino : Nat) (name : List UInt8) (ws : List Nat)
    (fs : Ext2fs) (v' : Vol) : Prop
  | inPlace {w i : Nat} {pdir : Option Nat} {ftype : Nat} :
      findHit fs (fun blk => hasRoom blk (dirReclen name.length)) ws = some (w, i, pdir) →
      v' = (fs.vol.setData w (putEnt (fs.rd w) (fun len => newEnt stack ino len ftype name)
        (dirReclen name.length) i)).setInode ino (addLinks (fs.vol.inode ino) 1) →
      Linked n stack ino name ws fs v'
  | grown {v₁ : Vol} {h b : Nat} {ρ : List Nat} {ftype : Nat} :
      findHit fs (fun blk => hasRoom blk (dirReclen name.length)) ws = none →
      LinkedAt n (copy zero 0 (newEnt stack ino (fs.geo.blocksz % 2 ^ 16) ftype name) 0
        (dirReclen name.length)) ino fs v' v₁ h b ρ →
      Linked n stack ino name ws fs v'

/-- A successful call found its place in the blocks of the directory or took a new one. -/
theorem DirBlocks.mklink_linked (hd : DirBlocks fs n inod ws) (hg : fs.geo.Ok)
    (hv : fs.vol.Sound) (stack : Bytes) (ino mode : Nat) {name : List UInt8}
    (hflush : findHit fs (fun blk => hasRoom blk (dirReclen name.length)) ws = none →
      fs.geo.FlushSafe) :
    Op.Post (ext2fsMklink stack ino mode n name) fs
      (fun _ fs' => name.length ≤ 255 ∧ fs.vol.inUse ino = true ∧
        Linked n stack ino name ws fs fs'.vol) (fun _ _ => True) := by
  obtain ⟨hdir, rfl⟩ := hd.volDir hg hv
  refine Op.Post.bind (getino_post hg ino) ?_ fun _ _ _ => trivial
  rintro _ _ ⟨rfl, hino, rfl⟩
  rename_i fs
  apply Op.Post.bind_ok hd.inode
  split
  · exact Op.Post.fault trivial
  apply Op.Post.get_bind
  generalize (if fs.geo.isdyn then fileType mode else 0) = ftype
  rw [hd.sizeBlocks hg.mounted]
  have hloop := hd.run_mklinkLoop (fun len => newEnt stack ino len ftype name)
    (dirReclen name.length) ino (fs.vol.inode ino) (Nat.zero_add ws.length)
  rw [drop_zero] at hloop
  cases hfind : findHit fs (fun blk => hasRoom blk (dirReclen name.length)) ws with
  | none =>
    rw [hfind] at hloop
    apply Op.Post.bind_ok hloop
    rw [if_neg Bool.false_ne_true]
    refine Op.Post.mono (mklinkGrow_linkedAt hg (hflush hfind) hv hdir.live _ _ hino) ?_
      fun _ _ h => h
    rintro _ fs' ⟨v₁, h, b, ρ, hnew⟩
    exact ⟨by omega, hino, .grown hfind hnew⟩
  | some r =>
    obtain ⟨w, i, pdir⟩ := r
    rw [hfind] at hloop
    obtain ⟨-, -, -, hdata⟩ := hdir.owned hg.toLayout hv (findHit_mem hfind)
    have hvol := vol_putBlock_data hg hdata (putEnt (fs.rd w)
      (fun len => newEnt stack ino len ftype name) (dirReclen name.length) i)
    obtain ⟨fs', hflush, hvol'⟩ := @run_flushInode ino (fs.putBlock w (putEnt (fs.rd w)
      (fun len => newEnt stack ino len ftype name) (dirReclen name.length) i)) hg
      (by rw [hvol]; exact hino) (addLinks (fs.vol.inode ino) 1)
    rw [hvol] at hvol'
    have hdone : (mklinkLoop (fs.vol.inode n) (fun len => newEnt stack ino len ftype name)
        (dirReclen name.length) ino (fs.vol.inode ino) ws.length 0).run fs = .ok true fs' := by
      rw [hloop]
      dsimp only
      rw [Op.run_bind_of_ok (run_wrblk hdata.2.1 _), Op.run_bind_of_ok hflush]
      rfl
    apply Op.Post.bind_ok hdone
    exact Op.Post.pure ⟨by omega, hino, .inPlace hfind hvol'⟩

end Run

/-! ## The directory after the call -/

section Effects

-- an element of a list of lists, joined, and what stands around it
theorem flatMap_split {α β : Type} {f : α → List β} {l : List α} {P Q : List β} {q : β}
    (h : l.flatMap f = P ++ q :: Q) :
    ∃ pre a post x y, l = pre ++ a :: post ∧ f a = x ++ q :: y ∧ P = pre.flatMap f ++ x ∧
      Q = y ++ post.flatMap f := by
  induction l generalizing P with
  | nil => simp at h
  | cons a l ih =>
    rw [flatMap_cons] at h
    rcases append_eq_append_iff.mp h with ⟨P', rfl, hrest⟩ | ⟨R, hfa, hR⟩
    · obtain ⟨pre, a', post, x, y, rfl, hx, rfl, rfl⟩ := ih hrest
      exact ⟨a :: pre, a', post, x, y, rfl, hx, by simp, rfl⟩
    cases R with
    | nil =>
      obtain ⟨pre, a', post, x, y, rfl, hx, hP, rfl⟩ := ih (P := []) hR.symm
      refine ⟨a :: pre, a', post, x, y, rfl, hx, ?_, rfl⟩
      rw [flatMap_cons, hfa, append_nil, append_assoc, ← hP, append_nil]
    | cons r R =>
      rw [cons_append] at hR
      obtain ⟨rfl, rfl⟩ := hR
      exact ⟨[], a, l, P, R, rfl, hfa, rfl, rfl⟩

theorem findIdx_of_split {α : Type} {p : α → Bool} {P Q : List α} {q : α}
    (hP : ∀ a ∈ P, p a = false) (hq : p q = true) : (P ++ q :: Q).findIdx p = P.length := by
  induction P with
  | nil => rw [nil_append, findIdx_cons, hq]; rfl
  | cons a P ih =>
    rw [cons_append, findIdx_cons, hP a mem_cons_self, ih fun c hc => hP c (mem_cons_of_mem a hc)]
    rfl

variable {w i : Nat} {pdir : Option Nat}

theorem Recs.split {blk : Bytes} {j k : Nat} {l₁ l₂ : List Nat} (h : Recs blk i j (l₁ ++ k :: l₂)) :
    Recs blk i k l₁ ∧ Ent blk k ∧ Recs blk (k + recLen blk k) j l₂ := by
  induction l₁ generalizing i with
  | nil =>
    cases h with
    | cons hent hrest => exact ⟨.nil _, hent, hrest⟩
  | cons c l₁ ih =>
    cases h with
    | cons hent hrest =>
      obtain ⟨h₁, hk, h₂⟩ := ih hrest
      exact ⟨.cons hent h₁, hk, h₂⟩

variable {fs fs' : Ext2fs} {n ino : Nat} {ws : List Nat} {stack : Bytes} {name : List UInt8}

theorem addLinks_inode (u : Vol) (ino m : Nat) {x : Bytes} (hx : x = u.inode ino) :
    iType ((u.setInode ino (addLinks x 1)).inode m) = iType (u.inode m) ∧
      get32 ((u.setInode ino (addLinks x 1)).inode m) 4 = get32 (u.inode m) 4 ∧
      get16 ((u.setInode ino (addLinks x 1)).inode m) 26 =
        if m = ino then (get16 (u.inode m) 26 + 1) % 2 ^ 16 else get16 (u.inode m) 26 := by
  subst hx
  rw [setInode_inode]
  split
  swap
  · exact ⟨rfl, rfl, rfl⟩
  rename_i hm
  subst hm
  refine ⟨?_, ?_, ?_⟩
  · have htrim : iType (trim 128 (addLinks (u.inode m) 1)) = iType (addLinks (u.inode m) 1) := by
      unfold iType
      rw [get16_trim _ (by omega)]
    rw [htrim, addLinks_type]
  · rw [get32_trim _ (by omega)]
    exact get32_put16_of_ne (by omega)
  · rw [get16_trim _ (by omega)]
    exact get16_put16 _ _ _

theorem linkEnts_split (A B : List Dirent) (e new : Dirent) : linkEnts (A ++ e :: B) A.length new =
      A ++ ((if e.ino = 0 then [new] else [e, new]) ++ B) := by
  unfold linkEnts
  rw [take_left, List.getElem?_append_right (Nat.le_refl _), Nat.sub_self, drop_append,
    drop_eq_nil_of_le (by omega), show A.length + 1 - A.length = 1 by omega]
  rfl

theorem linkEnts_end (ents : List Dirent) {k : Nat} (hk : ents.length ≤ k) (new : Dirent) :
    linkEnts ents k new = ents ++ [new] := by
  unfold linkEnts
  rw [take_of_length_le hk, List.getElem?_eq_none hk, drop_eq_nil_of_le (by omega),
    append_nil]

theorem dirEnts_append (fs : Ext2fs) (vs ws : List Nat) :
    fs.dirEnts (vs ++ ws) = fs.dirEnts vs ++ fs.dirEnts ws := by
  rw [dirEnts_eq, dirEnts_eq, dirEnts_eq, flatMap_append]

section

variable (hchain : ∀ w ∈ ws, Chain fs.geo.blocksz (fs.rd w))

include hchain

theorem findHit_room (name : List UInt8) :
    (findHit fs (fun blk => hasRoom blk (dirReclen name.length)) ws).map (fun r => (r.1, r.2.1)) =
      (fs.places ws).find? fun q => roomAt (fs.rd q.1) (dirReclen name.length) q.2 :=
  findHit_find hchain fun q _ => hasRoom_eq (fs.rd q.1) (dirReclen name.length) q.2

/-- The place that the search finds, among the blocks and among the records of its block. -/
theorem room_place
    (hfind : findHit fs (fun blk => hasRoom blk (dirReclen name.length)) ws = some (w, i, pdir)) :
    roomAt (fs.rd w) (dirReclen name.length) i = true ∧
      ∃ pre post l₁ l₂, ws = pre ++ w :: post ∧
        entOffs fs.geo.blocksz (fs.rd w) fs.geo.blocksz 0 = l₁ ++ i :: l₂ ∧
        fs.roomIdx ws name = (fs.dirEnts pre ++ l₁.map (direntAt (fs.rd w))).length := by
  have hplace := findHit_room hchain name
  rw [hfind] at hplace
  obtain ⟨hroom, P, Q, hsplit, hP⟩ := List.find?_eq_some_iff_append.mp hplace.symm
  have hidx : fs.roomIdx ws name = P.length := by
    unfold Ext2fs.roomIdx
    rw [hsplit]
    exact findIdx_of_split (fun a ha => by simpa using hP a ha) hroom
  obtain ⟨pre, w', post, x, y, hws, hoffs, hPeq, -⟩ := flatMap_split hsplit
  obtain ⟨l₁, r, hoffs', rfl, hr⟩ := map_eq_append_iff.mp hoffs
  obtain ⟨i', l₂, rfl, hwi, -⟩ := map_eq_cons_iff.mp hr
  cases hwi
  refine ⟨hroom, pre, post, l₁, l₂, hws, hoffs', ?_⟩
  rw [hidx, hPeq, length_append, length_append, length_map, length_map, Ext2fs.dirEnts, length_map]
  rfl

-- without a place the new record goes behind all others
theorem roomIdx_of_none
    (hfind : findHit fs (fun blk => hasRoom blk (dirReclen name.length)) ws = none) :
    (fs.dirEnts ws).length ≤ fs.roomIdx ws name := by
  have hplace := findHit_room hchain name
  rw [hfind] at hplace
  have hnone := List.find?_eq_none.mp hplace.symm
  unfold Ext2fs.roomIdx Ext2fs.dirEnts
  rw [length_map, findIdx_eq_length.mpr fun q hq => by simpa using hnone q hq]

end

theorem Geo.Ok.inode_mod (hg : fs.geo.Ok) (hino : fs.vol.inUse ino = true) :
    ino % 2 ^ 32 = ino := by
  have hno : fs.geo.InodeNo ino := inodeNo_of_inUse hino
  exact Nat.mod_eq_of_lt (Nat.lt_of_le_of_lt hno.2 hg.inodes_lt)

theorem inPlace_block (hg : fs.geo.Ok) (hino : fs.vol.inUse ino = true)
    (hchain : ∀ w ∈ ws, Chain fs.geo.blocksz (fs.rd w)) (hname : name.length ≤ 255) {ftype : Nat}
    {buf : Bytes}
    (hfind : findHit fs (fun blk => hasRoom blk (dirReclen name.length)) ws = some (w, i, pdir))
    (hbuf : putEnt (fs.rd w) (fun len => newEnt stack ino len ftype name)
      (dirReclen name.length) i = buf) :
    ∃ pre post, ws = pre ++ w :: post ∧ Chain fs.geo.blocksz buf ∧
      fs.roomIdx ws name < (fs.dirEnts ws).length ∧
      linkEnts (fs.dirEnts ws) (fs.roomIdx ws name) ⟨ino, name⟩ =
        fs.dirEnts pre ++ (blockEnts fs.geo.blocksz buf ++ fs.dirEnts post) := by
  obtain ⟨hbs, -, -⟩ := hg.toLayout.blocksz_facts
  obtain ⟨hroom, pre, post, l₁, l₂, hws, hoffs, hidx⟩ := room_place hchain hfind
  have hrecs := (hchain w (findHit_mem hfind)).recs
  rw [hoffs] at hrecs
  obtain ⟨h₁, hent, h₂⟩ := hrecs.split
  have hhas : hasRoom (fs.rd w) (dirReclen name.length) i = .ok true := by
    rw [hasRoom_eq, hroom]
  obtain ⟨l, hl, hmap⟩ := putEnt_recs hbs h₁ hent h₂ hname hhas hbuf.symm
  rw [hg.inode_mod hino] at hmap
  have hents : fs.dirEnts ws = (fs.dirEnts pre ++ l₁.map (direntAt (fs.rd w))) ++
      direntAt (fs.rd w) i :: (l₂.map (direntAt (fs.rd w)) ++ fs.dirEnts post) := by
    rw [hws, dirEnts_append, dirEnts_cons, hoffs, map_append]
    simp
  refine ⟨pre, post, hws, hl.ents, ?_, ?_⟩
  · generalize fs.dirEnts pre ++ l₁.map (direntAt (fs.rd w)) = A at hidx hents
    rw [hents, length_append, length_cons]
    omega
  · rw [hidx, hents, linkEnts_split, blockEnts_of_recs hl, hmap]
    simp only [append_assoc]
    rfl

theorem inPlace_dir (hg : fs.geo.Ok) (hv : fs.vol.Sound) (hdir : fs.vol.Dir n ws)
    (hino : fs.vol.inUse ino = true) (hname : name.length ≤ 255) {ftype : Nat}
    (hfind : findHit fs (fun blk => hasRoom blk (dirReclen name.length)) ws = some (w, i, pdir))
    (hvol : fs'.vol = (fs.vol.setData w (putEnt (fs.rd w)
      (fun len => newEnt stack ino len ftype name) (dirReclen name.length) i)).setInode ino
        (addLinks (fs.vol.inode ino) 1)) :
    fs'.vol.Dir n ws ∧ fs'.vol.Sound ∧ fs.roomIdx ws name < (fs.dirEnts ws).length ∧
      fs'.dirEnts ws = linkEnts (fs.dirEnts ws) (fs.roomIdx ws name) ⟨ino, name⟩ := by
  have hd := hdir.dirBlocks hg hv
  generalize hbuf : putEnt (fs.rd w) (fun len => newEnt stack ino len ftype name)
    (dirReclen name.length) i = buf at hvol
  obtain ⟨pre, post, hws, hchain, hlt, hlink⟩ := inPlace_block hg hino hd.chain hname hfind hbuf
  have hnodup := hdir.nodup hg.toLayout hv
  have hmem : w ∈ ws := findHit_mem hfind
  obtain ⟨ρ, hρ, href, hdata⟩ := hdir.owned hg.toLayout hv hmem
  have hdataw : fs'.vol.data w = trim fs.geo.blocksz buf := by
    rw [hvol, setInode_data, setData_data, if_pos rfl]
    rfl
  have hother : ∀ v, v ≠ w → fs'.vol.data v = fs.vol.data v := by
    intro v hv
    rw [hvol, setInode_data, setData_data, if_neg hv]
  have hgeo : fs'.geo = fs.geo := congrArg geo hvol
  have hinode := @addLinks_inode (fs.vol.setData w buf) ino n (fs.vol.inode ino) rfl
  have hsound : fs'.vol.Sound := by
    rw [hvol]
    exact (hv.setData hdir.live hρ href buf).setInode (addLinks_type _ _)
      fun j _ => Or.inl (addLinks_slot _ _ j)
  have hdir' : fs'.vol.Dir n ws := by
    refine ⟨?_, ?_, ?_, ?_, ?_⟩
    · rw [hvol]
      exact hdir.used
    · rw [hvol, hinode.1]
      exact hdir.dir
    · rw [vol_geo, hgeo, hvol, hinode.2.1]
      exact hdir.size
    · intro b v hv'
      obtain ⟨k, es, hpath, href'⟩ := hdir.ref hv'
      have hfull := (hg.toLayout.blkPath_full hpath).2.1
      rw [blockAt_of_path (v := fs'.vol) (by rw [vol_geo, hgeo]; exact hpath), hvol,
        ref_setInode (v := fs.vol.setData w buf) (x := addLinks (fs.vol.inode ino) 1)
          (fun j _ => addLinks_slot _ _ j),
        hv.ref_setData hdir.live hρ href buf hdir.live hfull.fits]
      exact href'
    · intro v hv'
      rw [vol_geo, hgeo]
      by_cases hvw : v = w
      · rw [hvw, hdataw]
        exact hchain.congr fun x hx => (trim_apply _ hx).symm
      · rw [hother v hvw]
        exact hdir.chain v hv'
  refine ⟨hdir', hsound, hlt, ?_⟩
  -- blocks before, the block itself, and blocks behind
  have hg' : fs'.geo.Ok := by
    rw [hgeo]
    exact hg
  rw [hws] at hnodup
  have hpre : ∀ v ∈ pre, v ≠ w := by
    rintro v hv' rfl
    exact (nodup_append.mp hnodup).2.2 v hv' v mem_cons_self rfl
  have hpost : ∀ v ∈ post, v ≠ w := by
    rintro v hv' rfl
    exact (nodup_cons.mp (nodup_append.mp hnodup).2.1).1 hv'
  have hsame : ∀ vs : List Nat, (∀ v ∈ vs, v ≠ w) → (∀ v ∈ vs, v ∈ ws) →
      vs.flatMap (fun v => blockEnts fs.geo.blocksz (fs'.vol.data v)) = fs.dirEnts vs := by
    intro vs hne hin
    rw [dirEnts_eq]
    apply flatMap_congr
    intro v hv'
    obtain ⟨-, -, -, hdata'⟩ := hdir.owned hg.toLayout hv (hin v hv')
    rw [hother v (hne v hv')]
    exact (blockEnts_congr (hdir.chain v (hin v hv')) fun x hx => rd_data hg hdata' hx).symm
  have hblock : blockEnts fs.geo.blocksz (fs'.vol.data w) = blockEnts fs.geo.blocksz buf := by
    rw [hdataw]
    exact blockEnts_congr hchain fun x hx => trim_apply _ hx
  rw [hdir'.dirEnts hg' hsound, hlink, hgeo, ← hblock, ← hsame pre hpre fun v hv' => by
    rw [hws]; simp [hv'], ← hsame post hpost fun v hv' => by rw [hws]; simp [hv']]
  rw [hws, flatMap_append, flatMap_cons]

/-! ### A new block -/

section Grown

variable {v₁ : Vol} {h b : Nat} {ρ : List Nat} {buf : Bytes}

section

variable (hl : LinkedAt n buf ino fs fs'.vol v₁ h b ρ)

include hl

theorem LinkedAt.old (hg : fs.geo.Ok) (hdir : fs.vol.Dir n ws) (hw : ws[i]? = some w) :
    ∃ k es, fs.geo.blkPath i = some (k, es) ∧ fs.vol.ref n (k :: es) = some (.blk w) ∧
      (v₁.setData b buf).ref n (k :: es) = some (.blk w) ∧
      (v₁.setData b buf).data w = fs.vol.data w := by
  obtain ⟨k, es, hpath, href⟩ := hdir.ref hw
  have hfull := (hg.toLayout.blkPath_full hpath).2.1
  have hlive : v₁.Live n := (hl.fills.live n).mpr hdir.live
  have hne : ¬ (n = n ∧ k :: es = ρ) := by
    rintro ⟨-, heq⟩
    rw [heq, hl.fills.was] at href
    cases href
  have href₁ : v₁.ref n (k :: es) = some (.blk w) :=
    (hl.fills.refs n _ hdir.live hfull hne).trans href
  have hwb : w ≠ b := by
    rintro rfl
    exact hne ⟨rfl, (hl.sound.eq_of_ref hlive hlive hfull.fits hl.fills.full.fits href₁
      hl.fills.now).2⟩
  refine ⟨k, es, hpath, href, ?_, ?_⟩
  · rw [hl.sound.ref_setData hlive hl.fills.full hl.fills.now buf hlive hfull.fits]
    exact href₁
  · rw [setData_data, if_neg hwb]
    exact hl.fills.data n _ w hdir.live hfull href

theorem LinkedAt.index (hdir : fs.vol.Dir n ws)
    (hend : fs.vol.blockAt n ws.length = none) : h = ws.length := by
  obtain ⟨k, es, rfl, hpath⟩ := hl.path
  have hwas := hl.fills.was
  rcases Nat.lt_trichotomy h ws.length with hlt | heq | hgt
  · obtain ⟨w, hw⟩ : ∃ w, ws[h]? = some w := ⟨_, List.getElem?_eq_getElem hlt⟩
    have hat := hdir.block h w hw
    rw [blockAt_of_path (v := fs.vol) hpath, hwas] at hat
    cases hat
  · exact heq
  · exact absurd hend (hl.lowest _ hgt)

theorem LinkedAt.geo_eq : fs'.geo = fs.geo :=
  (congrArg geo hl.vol).trans hl.fills.geo

theorem LinkedAt.head :
    iType (v₁.inode n) = iType (fs.vol.inode n) ∧ get32 (v₁.inode n) 4 = get32 (fs.vol.inode n) 4 ∧
      get16 (v₁.inode n) 26 = get16 (fs.vol.inode n) 26 := by
  have hbyte : ∀ i < 28, v₁.inode n i = fs.vol.inode n i := fun i hi => hl.fills.head i (Or.inl hi)
  refine ⟨?_, get32_congr fun i hi => hbyte _ (by omega),
    get16_congr (hbyte _ (by omega)) (hbyte _ (by omega))⟩
  unfold iType
  rw [get16_congr (hbyte 0 (by omega)) (hbyte 1 (by omega))]

theorem LinkedAt.inode (hne : ino ≠ n) : iType (fs'.vol.inode n) = iType (fs.vol.inode n) ∧
      get32 (fs'.vol.inode n) 4 = (get32 (fs.vol.inode n) 4 + fs.geo.blocksz) % 2 ^ 32 ∧
      ∀ es, fs'.vol.ref n es = (v₁.setData b buf).ref n es := by
  obtain ⟨htype, hsize, -⟩ := hl.head
  have hother : v₁.inode ino = fs.vol.inode ino := hl.fills.others ino hne
  have hvol := hl.vol
  generalize hx : put32 (v₁.inode n) 4 (get32 (v₁.inode n) 4 + fs.geo.blocksz) = x at hvol
  have hinode : ((v₁.setData b buf).setInode n x).inode ino = fs.vol.inode ino := by
    rw [setInode_inode, if_neg hne]
    exact hother
  obtain ⟨htype', hsize', -⟩ := addLinks_inode ((v₁.setData b buf).setInode n x) ino n hinode.symm
  refine ⟨?_, ?_, ?_⟩
  · rw [hvol, htype', setInode_inode, if_pos rfl, ← htype, ← hx]
    unfold iType
    rw [get16_trim _ (by omega), get16_put32_of_ne (by omega)]
  · rw [hvol, hsize', setInode_inode, if_pos rfl, ← hx, get32_trim _ (by omega), get32_put32,
      hsize]
  intro es
  rw [hvol, ref_setInode (v := (v₁.setData b buf).setInode n x) (x := addLinks (fs.vol.inode ino) 1)
    (fun j _ => by rw [hinode]; exact addLinks_slot _ _ j)]
  apply ref_setInode
  intro j _
  rw [← hx]
  unfold iBlock
  rw [get32_put32_of_ne (by omega)]
  rfl

theorem LinkedAt.links (m : Nat) : get16 (fs'.vol.inode m) 26 =
      if m = ino then (get16 (fs.vol.inode m) 26 + 1) % 2 ^ 16 else get16 (fs.vol.inode m) 26 := by
  obtain ⟨-, -, hlinks⟩ := hl.head
  rw [hl.vol, setInode_inode]
  split
  · rename_i hm
    rw [hm, get16_trim _ (by omega)]
    exact get16_put16 _ _ _
  · rw [setInode_inode]
    split
    · rename_i hm
      rw [hm, get16_trim _ (by omega), get16_put32_of_ne (by omega), hlinks]
    · rename_i hm
      rw [setData_inode, hl.fills.others m hm]

theorem LinkedAt.data : fs'.vol.data = (v₁.setData b buf).data := by
  rw [hl.vol]
  rfl

-- the entries of the blocks that were there
theorem LinkedAt.ents_old (hg : fs.geo.Ok) (hv : fs.vol.Sound) (hdir : fs.vol.Dir n ws) :
    (ws.flatMap fun w => blockEnts fs.geo.blocksz (fs'.vol.data w)) = fs.dirEnts ws := by
  rw [hdir.dirEnts hg hv]
  apply flatMap_congr
  intro w hw
  obtain ⟨i, hi⟩ := List.getElem?_of_mem hw
  obtain ⟨-, -, -, -, -, hdata⟩ := hl.old hg hdir hi
  rw [hl.data, hdata]

theorem LinkedAt.chain_old (hg : fs.geo.Ok) (hdir : fs.vol.Dir n ws) (hw : w ∈ ws) :
    Chain fs'.vol.geo.blocksz (fs'.vol.data w) := by
  obtain ⟨i, hi⟩ := List.getElem?_of_mem hw
  obtain ⟨-, -, -, -, -, hdata⟩ := hl.old hg hdir hi
  rw [vol_geo, hl.geo_eq, hl.data, hdata]
  exact hdir.chain w hw

theorem LinkedAt.used : fs'.vol.inUse = fs.vol.inUse := by
  rw [hl.vol]
  exact hl.fills.inUse

/-- The link is to another file, and the size has room for one more block. -/
theorem LinkedAt.dir_grown (hg : fs.geo.Ok)
    (hv : fs.vol.Sound) (hino : fs.vol.inUse ino = true) (hdir : fs.vol.Dir n ws)
    (hend : fs.vol.blockAt n ws.length = none) (hne : ino ≠ n)
    (hsize : (ws.length + 1) * fs.geo.blocksz < 2 ^ 32) (hbuf : Chain fs.geo.blocksz buf) :
    fs'.vol.Dir n (ws ++ [b]) ∧
      fs'.dirEnts (ws ++ [b]) = fs.dirEnts ws ++ blockEnts fs.geo.blocksz buf := by
  obtain ⟨htype', hsize', hrefs⟩ := hl.inode hne
  have hgeo : fs'.geo = fs.geo := hl.geo_eq
  have hindex := hl.index hdir hend
  have hlive : v₁.Live n := (hl.fills.live n).mpr hdir.live
  have hdatab : fs'.vol.data b = trim fs.geo.blocksz buf := by
    rw [hl.data, setData_data, if_pos rfl, hl.fills.geo]
    rfl
  have hdir' : fs'.vol.Dir n (ws ++ [b]) := by
    refine ⟨?_, ?_, ?_, ?_, ?_⟩
    · rw [hl.used]
      exact hdir.used
    · rw [htype']
      exact hdir.dir
    · have hmul : (ws.length + 1) * fs.geo.blocksz = ws.length * fs.geo.blocksz + fs.geo.blocksz :=
        Nat.succ_mul _ _
      rw [hsize', hdir.size, vol_geo, vol_geo, hgeo, length_append, length_singleton,
        hmul, Nat.mod_eq_of_lt (by omega)]
    · intro i w hw
      by_cases hi : i < ws.length
      · rw [List.getElem?_append_left hi] at hw
        obtain ⟨k, es, hpath, -, href, -⟩ := hl.old hg hdir hw
        rw [blockAt_of_path (v := fs'.vol) (by rw [vol_geo, hgeo]; exact hpath), hrefs]
        exact href
      · rw [List.getElem?_append_right (Nat.le_of_not_lt hi)] at hw
        obtain ⟨hlt, heq⟩ := List.getElem?_eq_some_iff.mp hw
        rw [length_singleton] at hlt
        rw [getElem_singleton] at heq
        subst heq
        obtain ⟨k, es, rfl, hpath⟩ := hl.path
        have hi : i = h := by omega
        rw [blockAt_of_path (v := fs'.vol) (by rw [vol_geo, hgeo, hi]; exact hpath), hrefs,
          hl.sound.ref_setData hlive hl.fills.full hl.fills.now buf hlive hl.fills.full.fits]
        exact hl.fills.now
    · intro w hw
      rcases mem_append.mp hw with hw | hw
      · exact hl.chain_old hg hdir hw
      · rw [mem_singleton.mp hw, hdatab, vol_geo, hgeo]
        exact hbuf.congr fun x hx => (trim_apply _ hx).symm
  refine ⟨hdir', ?_⟩
  have hsound := ((hl.linkedNew hino).sound hdir.live).2
  have hg' : fs'.geo.Ok := by
    rw [hgeo]
    exact hg
  rw [hdir'.dirEnts hg' hsound, flatMap_append, flatMap_singleton, hgeo,
    hl.ents_old hg hv hdir, hdatab]
  congr 1
  exact blockEnts_congr hbuf fun x hx => trim_apply _ hx

/-- The size of a directory of 4 GiB wraps around. -/
theorem LinkedAt.dir_wrapped
    (hd : DirBlocks fs n (fs.vol.inode n) ws) (hg : fs.geo.Mounted) (hne : ino ≠ n)
    (hsize : 2 ^ 32 ≤ (ws.length + 1) * fs.geo.blocksz) (hdir : fs.vol.Dir n ws) :
    fs'.vol.Dir n [] := by
  obtain ⟨htype', hsize', -⟩ := hl.inode hne
  have hle := hd.size_le hg
  refine ⟨?_, ?_, ?_, ?_, ?_⟩
  · rw [hl.used]
    exact hdir.used
  · rw [htype']
    exact hdir.dir
  · have hmul : (ws.length + 1) * fs.geo.blocksz = ws.length * fs.geo.blocksz + fs.geo.blocksz :=
      Nat.succ_mul _ _
    have hsum : ws.length * fs.geo.blocksz + fs.geo.blocksz = 2 ^ 32 := by omega
    rw [hsize', hdir.size, vol_geo, hsum, Nat.mod_self, length_nil, Nat.zero_mul]
  · intro i w hw
    cases hw
  · intro w hw
    cases hw

end

/-- The link is to the directory itself: its inode is as before but for the number of links. -/
theorem LinkedAt.dir_self (hl : LinkedAt n buf n fs fs'.vol v₁ h b ρ) (hg : fs.geo.Ok)
    (hv : fs.vol.Sound) (hdir : fs.vol.Dir n ws) :
    fs'.vol.Dir n ws ∧ fs'.dirEnts ws = fs.dirEnts ws := by
  have hgeo : fs'.geo = fs.geo := hl.geo_eq
  have hinode : fs'.vol.inode n = trim 128 (addLinks (fs.vol.inode n) 1) := by
    rw [hl.vol, setInode_inode, if_pos rfl]
  have hslot : ∀ k < 15, iBlock (fs'.vol.inode n) k = iBlock (fs.vol.inode n) k := by
    intro k hk
    have htrim : iBlock (trim 128 (addLinks (fs.vol.inode n) 1)) k =
        iBlock (addLinks (fs.vol.inode n) 1) k := get32_trim _ (by omega)
    rw [hinode, htrim, addLinks_slot]
  have hdir' : fs'.vol.Dir n ws := by
    refine ⟨?_, ?_, ?_, ?_, fun w hw => hl.chain_old hg hdir hw⟩
    · rw [hl.used]
      exact hdir.used
    · rw [hinode, ← hdir.dir]
      unfold iType
      rw [get16_trim _ (by omega)]
      exact congrArg (· &&& 0xF000) (get16_put16_of_ne (by omega))
    · rw [hinode, get32_trim _ (by omega), vol_geo, hgeo, ← vol_geo, ← hdir.size]
      exact get32_put16_of_ne (by omega)
    intro i w hw
    obtain ⟨k, es, hpath, href, href₁, -⟩ := hl.old hg hdir hw
    rw [blockAt_of_path (v := fs'.vol) (by rw [vol_geo, hgeo]; exact hpath), ← href₁]
    have hk := (hg.toLayout.blkPath_full hpath).1
    -- the slot was in use before the call, so that `ino_allocblk` left it alone
    have hused : iBlock (fs.vol.inode n) k ≠ 0 := by
      intro hzero
      have hnone : fs.vol.ref n [k] = none := by
        rw [ref_slot _ _ hk, hzero]
        rfl
      have hbelow : fs.vol.ref n ([k] ++ es) = none := ref_append_none hnone
      rw [singleton_append, href] at hbelow
      cases hbelow
    apply ref_congr
    intro es₁ x hpre d hd
    cases d with
    | ino m =>
      obtain ⟨rfl, rfl⟩ := ref_eq_ino hd
      have hx : x = k := by simpa using hpre
      subst hx
      rw [next_ino, next_ino, hslot x hk, setData_inode, hl.fills.slots x hk hused]
    | blk c =>
      rw [next_blk, next_blk, hl.data, vol_geo, hgeo]
      rw [setData_geo, hl.fills.geo]
      rfl
  refine ⟨hdir', ?_⟩
  have hsound := ((hl.linkedNew hdir.used).sound hdir.live).2
  have hg' : fs'.geo.Ok := by
    rw [hgeo]
    exact hg
  rw [hdir'.dirEnts hg' hsound, hgeo, hl.ents_old hg hv hdir]

end Grown

end Effects

end Ext2
