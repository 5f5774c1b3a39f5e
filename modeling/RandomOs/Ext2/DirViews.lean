import Mathlib.Data.List.Nodup
import RandomOs.Ext2.Lookup

/-!
# The three views of a directory (`ext2.c`)

`ext2fs_readdir` from cursor 0 on, `ext2fs_lookup` and `ext2fs_rmlink` walk the same records.  They
agree when every record has a name of its own and an inode in use; at a record without an inode
`ext2fs_readdir` reports an error and leaves the cursor where it is.
-/

namespace Ext2

open Lib Bytes Kern List

/-! ## Views -/

/-- The string in a buffer of `n` bytes. -/
def cString (n : Nat) (buf : Bytes) : List UInt8 := ((List.range n).map buf).takeWhile (· != 0)

/-- Repeated calls of `ext2fs_readdir` up to its end, with the same two buffers; the list has what
each call returned. -/
inductive Lists (fs : Ext2fs) (n namlen : Nat) :
    (prv : Nat) → Bytes → Vinode → List (List UInt8 × Nat) → Prop
  | done {prv : Nat} {name : Bytes} {buf : Vinode} :
      (ext2fsReaddir n prv namlen name buf).run fs = .error (.err (-1)) fs →
      Lists fs n namlen prv name buf []
  | more {prv : Nat} {name : Bytes} {buf : Vinode} {f : Found} {l : List (List UInt8 × Nat)} :
      (ext2fsReaddir n prv namlen name buf).run fs = .ok f fs →
      Lists fs n namlen f.prv f.name f.buf l →
      Lists fs n namlen prv name buf ((cString namlen f.name, f.ino) :: l)

/-- From cursor 0 the calls come to the end and return each name with its inode once, and the names
are those that `ext2fs_lookup` finds and `ext2fs_rmlink` removes. -/
def ViewsAgree (fs : Ext2fs) (n namlen : Nat) : Prop :=
  ∀ (name₀ : Bytes) (buf₀ : Vinode) (obuf : Bytes) (tmp : Bool),
    ∃ l, Lists fs n namlen 0 name₀ buf₀ l ∧ l.Nodup ∧
      (∀ (name : List UInt8) (i : Nat), 0 ∉ name →
        ((name, i) ∈ l ↔ (ext2fsLookup (some obuf) tmp n name).run fs = .ok i fs ∧ 1 ≤ i)) ∧
      ∀ name : List UInt8, 0 ∉ name →
        ((∃ fs', (ext2fsRmlink n name).run fs = .ok () fs') ↔ ∃ i, (name, i) ∈ l)

/-- The block, the place in it and the record before, for the entry that `ext2fs_rmlink` takes. -/
def findEnt (fs : Ext2fs) (name : List UInt8) (ws : List Nat) : Option (Nat × Nat × Option Nat) :=
  findHit fs (fun blk => hasName fs.geo.blocksz blk name) ws

/-- Every record has an inode in use and a name of its own, and the bitmap still says so once the
record is taken out of its block. -/
structure Tidy (fs : Ext2fs) (ws : List Nat) : Prop where
  inUse : ∀ e ∈ fs.dirEnts ws, ∃ inod, (getino e.ino).run fs = .ok inod fs
  nulFree : ∀ e ∈ fs.dirEnts ws, 0 ∉ e.name
  distinct : ((fs.dirEnts ws).map Dirent.name).Nodup
  keeps : ∀ name w i pdir, findEnt fs name ws = some (w, i, pdir) →
    (inodeused (entIno (fs.rd w) i)).run (fs.putBlock w (dropEnt (fs.rd w) i pdir)) =
      .ok true (fs.putBlock w (dropEnt (fs.rd w) i pdir))

section Views

variable {fs : Ext2fs} {n namlen : Nat} {inod : Bytes} {ws : List Nat} {name : List UInt8}

/-! ### Removal -/

/-- What `ext2fs_rmlink` does with the entry it found. -/
def unlinkEnt (blkd : Bytes) (w i : Nat) (pdir : Option Nat) : Op Ext2fs Unit := do
  let inod ← getino (entIno blkd i)
  wrblk w (dropEnt blkd i pdir)
  flushInode (entIno blkd i) (addLinks inod (2 ^ 16 - 1))

theorem hasName_place (hchain : ∀ w ∈ ws, Chain fs.geo.blocksz (fs.rd w)) {q : Nat × Nat}
    (hq : q ∈ fs.places ws) :
    hasName fs.geo.blocksz (fs.rd q.1) name q.2 = .ok ((fs.dirent q).name == name) := by
  obtain ⟨hw, hi⟩ := mem_places.mp hq
  obtain ⟨hent, -, hle⟩ := (hchain _ hw).recs.ent hi
  have hroom := hent.room
  exact hasName_eq (by omega)

theorem findEnt_find (hchain : ∀ w ∈ ws, Chain fs.geo.blocksz (fs.rd w)) :
    (findEnt fs name ws).map (fun r => direntAt (fs.rd r.1) r.2.1) =
      (fs.dirEnts ws).find? fun e => e.name == name := by
  have hfind : (findEnt fs name ws).map (fun r => (r.1, r.2.1)) =
      (fs.places ws).find? fun q => (fs.dirent q).name == name :=
    findHit_find hchain fun q hq => hasName_place hchain hq
  unfold Ext2fs.dirEnts
  rw [List.find?_map, show (fun e : Dirent => e.name == name) ∘ fs.dirent =
    fun q => (fs.dirent q).name == name from rfl, ← hfind, Option.map_map]
  rfl

theorem findEnt_mem {w i : Nat} {pdir : Option Nat} (h : findEnt fs name ws = some (w, i, pdir)) :
    w ∈ ws := findHit_mem h

variable {m prv : Nat} {e : Dirent} {ents : List Dirent}

theorem DirBlocks.run_rmlinkLoop (hd : DirBlocks fs n inod ws) (name : List UInt8) {b : Nat}
    (hm : b + m = ws.length) : (rmlinkLoop inod name m b).run fs =
      match findEnt fs name (ws.drop b) with
      | none => .error (.err (-ENOENT)) fs
      | some (w, i, pdir) => (unlinkEnt (fs.rd w) w i pdir).run fs := by
  induction m generalizing b with
  | zero =>
    rw [drop_eq_nil_of_le (by omega)]
    rfl
  | succ m ih =>
    have hb : b < ws.length := by omega
    have hmem : ws[b] ∈ ws := getElem_mem hb
    have hrecs := (hd.chain _ hmem).recs
    have hlen := hrecs.length_le
    have hhit : ∀ j ∈ entOffs fs.geo.blocksz (fs.rd ws[b]) fs.geo.blocksz 0,
        hasName fs.geo.blocksz (fs.rd ws[b]) name j =
          .ok ((direntAt (fs.rd ws[b]) j).name == name) := by
      intro j hj
      exact hasName_place (q := (ws[b], j)) hd.chain (mem_places.mpr ⟨hmem, hj⟩)
    obtain ⟨r, hscan, -⟩ := hrecs.scan hhit (by omega : _ ≤ fs.geo.blocksz) none
    have hread : ((rdblk ws[b]).orFail (-1)).run fs = .ok (fs.rd ws[b]) fs :=
      Op.run_orFail_of_ok (hd.run_rdblk hmem) _
    rw [rmlinkLoop]
    refine (Op.run_bind_of_ok (hd.block b _ (List.getElem?_eq_getElem hb)) _).trans ?_
    rw [if_neg (hd.nonzero _ hmem)]
    refine (Op.run_bind_of_ok hread _).trans ?_
    rw [drop_eq_getElem_cons hb, findEnt, findHit, hscan]
    cases r with
    | none => exact ih (by omega)
    | some r => rfl

theorem DirBlocks.run_rmlink (hd : DirBlocks fs n inod ws) (hg : fs.geo.Mounted)
    (name : List UInt8) : (ext2fsRmlink n name).run fs = match findEnt fs name ws with
      | none => .error (.err (-ENOENT)) fs
      | some (w, i, pdir) => (unlinkEnt (fs.rd w) w i pdir).run fs := by
  unfold ext2fsRmlink
  rw [Op.run_bind_of_ok hd.inode, Op.run_get_bind, hd.sizeBlocks hg]
  exact hd.run_rmlinkLoop name (by omega)

theorem flushInode_ok_iff (hg : fs.geo.Mounted) (hm : m ≠ 0)
    (hblk : fs.geo.inoBlk m < fs.geo.blocksCount) (hoff : fs.geo.inoOff m + 128 ≤ fs.geo.blocksz)
    (x : Bytes) :
    (∃ fs', (flushInode m x).run fs = .ok () fs') ↔ (inodeused m).run fs = .ok true fs := by
  have hbc := hg.blocksCount_lt
  have hdev : fs.geo.inoBlk m % 2 ^ 32 < fs.geo.blocksCount := by omega
  constructor
  · rintro ⟨fs', h⟩
    exact ((flushInode_writes fs m x).ok h).2.1
  · intro hused
    exact ⟨_, run_flushInode_of_used hm hused (Ext2.run_rdblk hdev) hdev hoff⟩

theorem unlinkEnt_ok_iff (hg : fs.geo.Mounted) {blkd : Bytes} {w i : Nat} {pdir : Option Nat}
    (hw : w < fs.geo.blocksCount) : (∃ fs', (unlinkEnt blkd w i pdir).run fs = .ok () fs') ↔
      (∃ inod, (getino (entIno blkd i)).run fs = .ok inod fs) ∧
        (inodeused (entIno blkd i)).run (fs.putBlock w (dropEnt blkd i pdir)) =
          .ok true (fs.putBlock w (dropEnt blkd i pdir)) := by
  unfold unlinkEnt
  cases hget : (getino (entIno blkd i)).run fs with
  | error e fs' =>
    rw [Op.run_bind_of_error hget]
    constructor
    · rintro ⟨_, h⟩
      cases h
    · rintro ⟨⟨_, h⟩, -⟩
      cases h
  | ok inod fs' =>
    obtain ⟨rfl, hm, hblk, hoff⟩ := (getino_frame fs _).ok hget
    rw [Op.run_bind_of_ok hget, Op.run_bind_of_ok (run_wrblk hw _),
      flushInode_ok_iff (by exact hg) hm (by exact hblk) (by exact hoff)]
    constructor
    · intro h
      exact ⟨⟨inod, rfl⟩, h⟩
    · intro h
      exact h.2

/-! ### Enumeration -/

theorem dirEnts_length (hchain : ∀ w ∈ ws, Chain fs.geo.blocksz (fs.rd w)) :
    8 * (fs.dirEnts ws).length ≤ ws.length * fs.geo.blocksz := by
  induction ws with
  | nil => exact Nat.zero_le _
  | cons w ws ih =>
    have hfirst := (hchain w mem_cons_self).recs.length_le
    have hrest := ih (DirBlocks.tail hchain)
    have hmul : (ws.length + 1) * fs.geo.blocksz = ws.length * fs.geo.blocksz + fs.geo.blocksz :=
      Nat.succ_mul _ _
    rw [dirEnts_cons, length_append, length_map, length_cons]
    omega

theorem dirEnts_name_length (he : e ∈ fs.dirEnts ws) : e.name.length ≤ 255 := by
  obtain ⟨⟨w, i⟩, -, rfl⟩ := mem_map.mp he
  have hlt := (fs.rd w (i + 6)).toNat_lt
  change (nameAt (fs.rd w) i).length ≤ 255
  rw [nameAt_length]
  unfold nameLen
  omega

/-- What the caller sees of an entry. -/
def Dirent.seen (e : Dirent) : List UInt8 × Nat := (e.name.takeWhile (· != 0), e.ino)

-- the string that the caller finds in its buffer
theorem cString_found (hlen : e.name.length + 1 ≤ namlen) (buf : Bytes) :
    cString namlen (terminate (copy buf 0 (ofString e.name) 0 e.name.length) e.name.length) =
      e.name.takeWhile (· != 0) := by
  obtain ⟨d, rfl⟩ : ∃ d, namlen = e.name.length + (d + 1) := ⟨namlen - e.name.length - 1, by omega⟩
  have hname : (List.range e.name.length).map
      (terminate (copy buf 0 (ofString e.name) 0 e.name.length) e.name.length) = e.name := by
    apply ext_getElem (by simp)
    intro k hk hk'
    have hcopy : copy buf 0 (ofString e.name) 0 e.name.length (0 + k) = ofString e.name (0 + k) :=
      copy_apply hk'
    rw [Nat.zero_add] at hcopy
    rw [getElem_map, getElem_range, terminate, if_neg (by omega), hcopy, ofString,
      getD_eq_getElem _ _ hk']
  unfold cString
  rw [range_add, map_append, hname, range_succ_eq_map, map_cons, map_cons]
  rw [takeWhile_append]
  split
  · rename_i hall
    have hend : terminate (copy buf 0 (ofString e.name) 0 e.name.length) e.name.length
        (e.name.length + 0) = 0 := if_pos rfl
    rw [hend, takeWhile_cons_of_neg (by decide), append_nil]
    have hpre := takeWhile_prefix (· != 0) (l := e.name)
    exact (hpre.eq_of_length hall).symm
  · rfl

theorem run_readOf {x : Bytes} (hget : (getino e.ino).run fs = .ok x fs) (prv : Nat)
    (nbuf : Bytes) (buf : Vinode) :
    (e.read prv namlen nbuf buf).run fs = .ok (e.found fs.geo prv namlen nbuf buf x) fs := by
  have hne := ((getino_frame fs _).ok hget).2.1
  unfold Dirent.read
  rw [if_neg hne, Op.run_bind_of_ok hget]
  rfl

theorem read_ok {nbuf : Bytes} {buf : Vinode} {f : Found}
    (h : (e.read prv namlen nbuf buf).run fs = .ok f fs) :
    ∃ x, (getino e.ino).run fs = .ok x fs ∧ f = e.found fs.geo prv namlen nbuf buf x := by
  cases hget : (getino e.ino).run fs with
  | ok x fs' =>
    obtain ⟨rfl, -⟩ := (getino_frame fs _).ok hget
    rw [run_readOf hget] at h
    cases h
    exact ⟨x, rfl, rfl⟩
  | error err fs' =>
    unfold Dirent.read at h
    split at h
    · cases h
    · rw [Op.run_bind_of_error hget] at h
      cases h

theorem read_not_end (e : Dirent) (prv : Nat) (nbuf : Bytes) (buf : Vinode) :
    (e.read prv namlen nbuf buf).run fs ≠ .error (.err (-1)) fs := by
  intro h
  unfold Dirent.read at h
  split at h
  · cases h
  have hframe := getino_frame fs e.ino
  unfold Op.Post at hframe
  cases hget : (getino e.ino).run fs with
  | ok x fs' =>
    rw [Op.run_bind_of_ok hget] at h
    cases h
  | error err fs' =>
    rw [hget] at hframe
    rw [Op.run_bind_of_error hget] at h
    cases h
    exact hframe.2 rfl

section

variable (hd : DirBlocks fs n inod ws) (hg : fs.geo.Mounted)

include hd hg

/-- The calls from a cursor on come to the end if every entry from there on has an inode in use. -/
theorem DirBlocks.lists
    (hnamlen : 256 ≤ namlen) (hm : prv + m = (fs.dirEnts ws).length) (nbuf : Bytes) (buf : Vinode)
    (hread : ∀ e ∈ (fs.dirEnts ws).drop prv, ∃ x, (getino e.ino).run fs = .ok x fs) :
    Lists fs n namlen prv nbuf buf (((fs.dirEnts ws).drop prv).map Dirent.seen) := by
  induction m generalizing prv nbuf buf with
  | zero =>
    rw [drop_eq_nil_of_le (by omega)]
    apply Lists.done
    rw [hd.run_readdir hg, List.getElem?_eq_none (by omega)]
  | succ m ih =>
    have hlt : prv < (fs.dirEnts ws).length := by omega
    have hbound := dirEnts_length hd.chain
    have hsize := get32_lt inod 4
    rw [hd.size] at hsize
    have hlen := dirEnts_name_length (getElem_mem hlt)
    rw [drop_eq_getElem_cons hlt] at hread ⊢
    obtain ⟨x, hget⟩ := hread _ mem_cons_self
    have hrun : (ext2fsReaddir n prv namlen nbuf buf).run fs =
        .ok ((fs.dirEnts ws)[prv].found fs.geo prv namlen nbuf buf x) fs := by
      rw [hd.run_readdir hg, List.getElem?_eq_getElem hlt]
      exact run_readOf hget prv nbuf buf
    have hnext : (prv + 1) % 2 ^ 64 = prv + 1 := Nat.mod_eq_of_lt (by omega)
    have hstr : cString namlen ((fs.dirEnts ws)[prv].found fs.geo prv namlen nbuf buf x).name =
        (fs.dirEnts ws)[prv].name.takeWhile (· != 0) := by
      rw [Dirent.found, if_pos (by omega)]
      exact cString_found (by omega) nbuf
    have hrest := ih (by omega : prv + 1 + m = _)
      ((fs.dirEnts ws)[prv].found fs.geo prv namlen nbuf buf x).name
      ((fs.dirEnts ws)[prv].found fs.geo prv namlen nbuf buf x).buf
      fun e he => hread e (mem_cons_of_mem _ he)
    have hmore := Lists.more hrun (by
      change Lists fs n namlen ((prv + 1) % 2 ^ 64) _ _ _
      rw [hnext]
      exact hrest)
    rw [hstr] at hmore
    exact hmore

theorem DirBlocks.of_lists
    (hnamlen : 256 ≤ namlen) {nbuf : Bytes} {buf : Vinode} {l : List (List UInt8 × Nat)}
    (hl : Lists fs n namlen prv nbuf buf l) : l = ((fs.dirEnts ws).drop prv).map Dirent.seen ∧
      ∀ e ∈ (fs.dirEnts ws).drop prv, ∃ x, (getino e.ino).run fs = .ok x fs := by
  induction hl with
  | @done prv nbuf buf hend =>
    rw [hd.run_readdir hg] at hend
    cases hent : (fs.dirEnts ws)[prv]? with
    | none =>
      rw [drop_eq_nil_of_le (List.getElem?_eq_none_iff.mp hent)]
      exact ⟨rfl, fun e he => by cases he⟩
    | some e =>
      rw [hent] at hend
      exact absurd hend (read_not_end e prv nbuf buf)
  | @more prv nbuf buf f l hrun _ ih =>
    rw [hd.run_readdir hg] at hrun
    cases hent : (fs.dirEnts ws)[prv]? with
    | none =>
      rw [hent] at hrun
      cases hrun
    | some e =>
      rw [hent] at hrun
      obtain ⟨x, hget, rfl⟩ := read_ok hrun
      obtain ⟨hlt, rfl⟩ := List.getElem?_eq_some_iff.mp hent
      have hbound := dirEnts_length hd.chain
      have hsize := get32_lt inod 4
      rw [hd.size] at hsize
      have hlen := dirEnts_name_length (getElem_mem hlt)
      have hnext : ((fs.dirEnts ws)[prv].found fs.geo prv namlen nbuf buf x).prv = prv + 1 :=
        Nat.mod_eq_of_lt (by omega)
      rw [hnext] at ih
      obtain ⟨hl, hread⟩ := ih
      rw [drop_eq_getElem_cons hlt]
      refine ⟨?_, ?_⟩
      · rw [map_cons]
        congr 1
        rw [Dirent.found, if_pos (by omega)]
        exact Prod.ext (cString_found (by omega) nbuf) rfl
      · intro e he
        rcases mem_cons.mp he with rfl | he
        · exact ⟨x, hget⟩
        · exact hread e he

/-! ### Agreement -/

theorem DirBlocks.lookup_iff (obuf : Bytes) (tmp : Bool) (name : List UInt8) (i : Nat) :
    (ext2fsLookup (some obuf) tmp n name).run fs = .ok i fs ∧ 1 ≤ i ↔
      ∃ e, (fs.dirEnts ws).find? (fun e => e.name == name) = some e ∧ e.ino = i ∧ 1 ≤ i := by
  rw [hd.run_lookup hg]
  split
  · rename_i hempty
    subst hempty
    constructor
    · rintro ⟨h, hi⟩
      cases h
      omega
    · rintro ⟨e, h, -⟩
      cases h
  · rw [lookupIn]
    cases (fs.dirEnts ws).find? fun e => e.name == name with
    | none =>
      constructor
      · rintro ⟨h, -⟩
        cases h
      · rintro ⟨e, h, -⟩
        cases h
    | some e =>
      constructor
      · rintro ⟨h, hi⟩
        cases h
        exact ⟨e, rfl, rfl, hi⟩
      · rintro ⟨e', h, rfl, hi⟩
        cases h
        exact ⟨rfl, hi⟩

theorem DirBlocks.rmlink_iff
    (name : List UInt8) : (∃ fs', (ext2fsRmlink n name).run fs = .ok () fs') ↔
      ∃ w i pdir, findEnt fs name ws = some (w, i, pdir) ∧
        (∃ x, (getino (entIno (fs.rd w) i)).run fs = .ok x fs) ∧
        (inodeused (entIno (fs.rd w) i)).run (fs.putBlock w (dropEnt (fs.rd w) i pdir)) =
          .ok true (fs.putBlock w (dropEnt (fs.rd w) i pdir)) := by
  rw [hd.run_rmlink hg]
  cases hfind : findEnt fs name ws with
  | none =>
    constructor
    · rintro ⟨_, h⟩
      cases h
    · rintro ⟨w, i, pdir, h, -⟩
      cases h
  | some r =>
    obtain ⟨w, i, pdir⟩ := r
    have hiff := @unlinkEnt_ok_iff fs hg (fs.rd w) w i pdir (hd.onDevice w (findEnt_mem hfind))
    constructor
    · intro h
      exact ⟨w, i, pdir, rfl, hiff.mp h⟩
    · rintro ⟨_, _, _, h, hok⟩
      cases h
      exact hiff.mpr hok

end

theorem find_eq_of_distinct (h : (ents.map Dirent.name).Nodup) (he : e ∈ ents) :
    ents.find? (fun e' => e'.name == e.name) = some e := by
  cases hfind : ents.find? fun e' => e'.name == e.name with
  | none =>
    have hnone := List.find?_eq_none.mp hfind e he
    simp at hnone
  | some e' =>
    have hname : e'.name = e.name := by simpa using List.find?_some hfind
    rw [inj_on_of_nodup_map h (mem_of_find?_eq_some hfind) he hname]

theorem Dirent.seen_of_nulFree (h : 0 ∉ e.name) : e.seen = (e.name, e.ino) := by
  unfold Dirent.seen
  rw [takeWhile_eq_self_iff.mpr]
  intro c hc
  rw [bne_iff_ne]
  rintro rfl
  exact h hc

theorem nul_not_mem_cut (l : List UInt8) : 0 ∉ l.takeWhile (· != 0) := by
  intro h
  have := mem_takeWhile_imp h
  simp at this

/-- Names that are seen once each, with the inode that a search from the start finds, are
distinct. -/
theorem distinct_of_seen (hnodup : (ents.map Dirent.seen).Nodup)
    (hfind : ∀ e ∈ ents, ∃ e', ents.find? (fun d => d.name == e.seen.1) = some e' ∧
      e'.ino = e.ino) :
    (∀ e ∈ ents, 0 ∉ e.name) ∧ (ents.map Dirent.name).Nodup := by
  have hinj := inj_on_of_nodup_map hnodup
  have hfree : ∀ e ∈ ents, 0 ∉ e.name := by
    intro e he
    obtain ⟨e', hfound, hino⟩ := hfind e he
    have hname : e'.name = e.seen.1 := by simpa using List.find?_some hfound
    have hcut := nul_not_mem_cut e.name
    have hfree' : 0 ∉ e'.name := by
      rw [hname]
      exact hcut
    have hsame : e' = e := by
      apply hinj (mem_of_find?_eq_some hfound) he
      rw [Dirent.seen_of_nulFree hfree', hname, hino]
      rfl
    rw [hsame] at hfree'
    exact hfree'
  refine ⟨hfree, ?_⟩
  apply List.Nodup.map_on _ (List.Nodup.of_map _ hnodup)
  intro e he e' he' hname
  obtain ⟨d, hd, hino⟩ := hfind e he
  obtain ⟨d', hd', hino'⟩ := hfind e' he'
  rw [Dirent.seen_of_nulFree (hfree e he)] at hd
  rw [Dirent.seen_of_nulFree (hfree e' he'), ← hname] at hd'
  rw [hd] at hd'
  cases hd'
  apply hinj he he'
  rw [Dirent.seen_of_nulFree (hfree e he), Dirent.seen_of_nulFree (hfree e' he'), hname, ← hino,
    hino']

theorem DirBlocks.agree_of_tidy (hd : DirBlocks fs n inod ws) (hg : fs.geo.Mounted)
    (hnamlen : 256 ≤ namlen) (h : Tidy fs ws) : ViewsAgree fs n namlen := by
  intro name₀ buf₀ obuf tmp
  have hlists := hd.lists hg hnamlen (Nat.zero_add _) name₀ buf₀ h.inUse
  rw [drop_zero] at hlists
  have hseen : (fs.dirEnts ws).map Dirent.seen = (fs.dirEnts ws).map fun e => (e.name, e.ino) :=
    map_congr_left fun e he => Dirent.seen_of_nulFree (h.nulFree e he)
  rw [hseen] at hlists
  have hmem : ∀ name i, (name, i) ∈ (fs.dirEnts ws).map (fun e => (e.name, e.ino)) ↔
      ∃ e, (fs.dirEnts ws).find? (fun e => e.name == name) = some e ∧ e.ino = i ∧ 1 ≤ i := by
    intro name i
    constructor
    · intro hin
      obtain ⟨e, he, heq⟩ := mem_map.mp hin
      cases heq
      obtain ⟨x, hx⟩ := h.inUse e he
      have hne := ((getino_frame fs _).ok hx).2.1
      exact ⟨e, find_eq_of_distinct h.distinct he, rfl, Nat.pos_of_ne_zero hne⟩
    · rintro ⟨e, hfind, rfl, -⟩
      have hname : e.name = name := by simpa using List.find?_some hfind
      exact mem_map.mpr ⟨e, mem_of_find?_eq_some hfind, by rw [hname]⟩
  refine ⟨_, hlists, ?_, ?_, ?_⟩
  · apply List.Nodup.of_map Prod.fst
    rw [map_map]
    exact h.distinct
  · intro name i _
    rw [hd.lookup_iff hg, hmem]
  intro name _
  rw [hd.rmlink_iff hg]
  have hfound := @findEnt_find fs ws name hd.chain
  constructor
  · rintro ⟨w, i, pdir, hfind, ⟨x, hx⟩, -⟩
    rw [hfind] at hfound
    have hne := ((getino_frame fs _).ok hx).2.1
    exact ⟨_, (hmem name _).mpr ⟨_, hfound.symm, rfl, Nat.pos_of_ne_zero hne⟩⟩
  · rintro ⟨i, hin⟩
    obtain ⟨e, hfind, -, -⟩ := (hmem name i).mp hin
    rw [hfind] at hfound
    obtain ⟨⟨w, j, pdir⟩, hent, rfl⟩ := Option.map_eq_some_iff.mp hfound
    exact ⟨w, j, pdir, hent, h.inUse _ (mem_of_find?_eq_some hfind), h.keeps name w j pdir hent⟩

theorem DirBlocks.tidy_of_agree (hd : DirBlocks fs n inod ws) (hg : fs.geo.Mounted)
    (hnamlen : 256 ≤ namlen) (h : ViewsAgree fs n namlen) : Tidy fs ws := by
  obtain ⟨l, hlists, hnodup, hlookup, hrmlink⟩ := h zero ⟨0, 0, 0, 0, 0, 0, 0, 0, 0, 0⟩ zero false
  obtain ⟨rfl, hread⟩ := hd.of_lists hg hnamlen hlists
  obtain ⟨hfree, hdistinct⟩ := distinct_of_seen hnodup fun e he => by
    have hin : (e.seen.1, e.ino) ∈ (fs.dirEnts ws).map Dirent.seen := mem_map.mpr ⟨e, he, rfl⟩
    obtain ⟨e', hfind, hino, -⟩ :=
      (hd.lookup_iff hg _ _ _ _).mp ((hlookup _ _ (nul_not_mem_cut _)).mp hin)
    exact ⟨e', hfind, hino⟩
  refine ⟨hread, hfree, hdistinct, ?_⟩
  intro name w i pdir hent
  have hfound := @findEnt_find fs ws name hd.chain
  rw [hent] at hfound
  have hmem := mem_of_find?_eq_some hfound.symm
  have hname : (direntAt (fs.rd w) i).name = name := by
    simpa using List.find?_some hfound.symm
  have hseen := Dirent.seen_of_nulFree (hfree _ hmem)
  rw [hname] at hseen
  have hnul : 0 ∉ name := by
    rw [← hname]
    exact hfree _ hmem
  have hin : (name, (direntAt (fs.rd w) i).ino) ∈ (fs.dirEnts ws).map Dirent.seen :=
    mem_map.mpr ⟨_, hmem, hseen⟩
  obtain ⟨_, _, _, hent', -, hkeeps⟩ :=
    (hd.rmlink_iff hg name).mp ((hrmlink name hnul).mpr ⟨_, hin⟩)
  rw [hent] at hent'
  cases hent'
  exact hkeeps

end Views

variable {fs : Ext2fs}

/-- On a sound volume the bitmap of the inodes is no block of a directory. -/
theorem keeps_of_data (hg : fs.geo.Ok) {ws : List Nat} (hdata : ∀ w ∈ ws, fs.geo.IsData w)
    (hchain : ∀ w ∈ ws, Chain fs.geo.blocksz (fs.rd w))
    (hused : ∀ e ∈ fs.dirEnts ws, fs.vol.inUse e.ino = true) (name : List UInt8) {w i : Nat}
    {pdir : Option Nat} (hfind : findEnt fs name ws = some (w, i, pdir)) :
    (inodeused (entIno (fs.rd w) i)).run (fs.putBlock w (dropEnt (fs.rd w) i pdir)) =
      .ok true (fs.putBlock w (dropEnt (fs.rd w) i pdir)) := by
  have hfound := @findEnt_find fs ws name hchain
  rw [hfind] at hfound
  have hin : fs.vol.inUse (entIno (fs.rd w) i) = true := hused _ (mem_of_find?_eq_some hfound.symm)
  have hvol := vol_putBlock_data hg (hdata w (findEnt_mem hfind)) (dropEnt (fs.rd w) i pdir)
  have hno : fs.geo.InodeNo (entIno (fs.rd w) i) := inodeNo_of_inUse hin
  rw [@run_inodeused _ (fs.putBlock w _) hg hno, hvol, Vol.setData_inUse, hin]

/-- The views of a directory agree exactly if it is tidy. -/
theorem directory_views_agree_iff {fs : Ext2fs} {n namlen : Nat} {inod : Bytes} {ws : List Nat}
    (hg : fs.geo.Mounted) (hd : DirBlocks fs n inod ws) (hnamlen : 256 ≤ namlen) :
    ViewsAgree fs n namlen ↔ Tidy fs ws :=
  ⟨hd.tidy_of_agree hg hnamlen, hd.agree_of_tidy hg hnamlen⟩

/-! ### Directories on the small volume -/

-- what `getino` reads, by a test
theorem getino_of_test {m : Nat} {p : Bytes → Bool}
    (h : (getino m >>= fun x => pure (p x)).returns fs true = true) :
    ∃ x, (getino m).run fs = .ok x fs ∧ p x = true := by
  have hrun := Op.run_of_returns h
  cases hget : (getino m).run fs with
  | error e fs' =>
    rw [Op.run_bind_of_error hget] at hrun
    cases hrun
  | ok x fs' =>
    obtain ⟨rfl, -⟩ := (getino_frame fs _).ok hget
    rw [Op.run_bind_of_ok hget] at hrun
    cases hp : p x with
    | true => exact ⟨x, rfl, hp⟩
    | false =>
      rw [hp] at hrun
      cases hrun

theorem dirBlocks_of_test {n w : Nat}
    (htest : (getino n >>= fun x => pure (iType x == S_IFDIR && get32 x 4 == fs.geo.blocksz &&
      iBlock x 0 == w)).returns fs true = true)
    (hw : w ≠ 0) (hdev : w < fs.geo.blocksCount) (hlt : w < 2 ^ 31)
    (hchain : Chain fs.geo.blocksz (fs.rd w)) : ∃ inod, DirBlocks fs n inod [w] := by
  obtain ⟨inod, hget, hp⟩ := getino_of_test htest
  obtain ⟨⟨hdir, hsize⟩, hslot⟩ : (iType inod = S_IFDIR ∧ get32 inod 4 = fs.geo.blocksz) ∧
      iBlock inod 0 = w := by simpa using hp
  refine ⟨inod, hget, hdir, ?_, ?_, ?_, ?_, ?_⟩
  · rw [hsize, length_singleton, Nat.one_mul]
  · intro b v hv
    cases b with
    | zero =>
      cases hv
      change (Op.asInt (iBlock inod 0)).run fs = _
      rw [hslot, Op.asInt, if_neg (Nat.not_le_of_lt hlt)]
      rfl
    | succ b => cases hv
  · intro v hv
    rw [mem_singleton.mp hv]
    exact hw
  · intro v hv
    rw [mem_singleton.mp hv]
    exact hdev
  · intro v hv
    rw [mem_singleton.mp hv]
    exact hchain

instance (blk : Bytes) (i : Nat) : Decidable (Ent blk i) :=
  decidable_of_iff (8 ≤ recLen blk i ∧ 4 ∣ recLen blk i ∧ dirReclen (nameLen blk i) ≤ recLen blk i)
    ⟨fun h => ⟨h.1, h.2.1, h.2.2⟩, fun h => ⟨h.ge, h.dvd, h.name⟩⟩

theorem oneName_inv : DirInv 8 oneName := by
  have hstart := smallDir_start
  have hok : DirCall.Ok 8 smallDir (.mklink zero 7 0x81A4 [97]) := by
    refine ⟨?_, trivial⟩
    rw [smallDir_geo]
    exact small_inReach
  exact DirInv.step ⟨hstart.consistent.layout, hstart.consistent.sound,
    ⟨hstart.used, Or.inr hstart.dir⟩, hstart.chains⟩ hok oneName_step

theorem oneName_geo : oneName.geo = smallFs.geo := by
  have hstart := smallDir_start
  have hlive : smallDir.vol.Live 8 := ⟨hstart.used, Or.inr hstart.dir⟩
  have hreach : smallDir.geo.InReach := by
    rw [smallDir_geo]
    exact small_inReach
  obtain ⟨-, ftype, ⟨w, i, pdir, -, hrel⟩ | hnew⟩ :=
    (mklink_post (hstart.consistent.layout.ok hreach) hreach.flush hstart.consistent.sound hlive
      zero 7 0x81A4 [97]).ok oneName_step
  · exact (hrel.sound hstart.consistent.sound hlive).1.trans smallDir_geo
  · exact (hnew.sound hlive).1.trans smallDir_geo

theorem oneName_ents : oneName.dirEnts [6] = [⟨7, [97]⟩] := by decide +kernel

theorem oneName_dir : ∃ inod, DirBlocks oneName 8 inod [6] := by
  refine dirBlocks_of_test (by decide) (by decide) (by decide) (by decide) ?_
  have hbs : oneName.geo.blocksz = 0 + recLen (oneName.rd 6) 0 := by decide
  rw [hbs]
  exact Ents.single (by decide)

theorem oneName_isData : oneName.geo.IsData 6 := by
  have hinv := oneName_inv
  have href : oneName.vol.ref 8 [0] = some (.blk 6) := by
    rw [ref_slot _ _ (by omega), vol_inode (inodeNo_of_inUse hinv.live.1)]
    rfl
  have hfull : Full [0] := rfl
  exact (hinv.sound.owned 8 [0] 6 hinv.live hfull.fits href).1

theorem oneName_tidy : Tidy oneName [6] := by
  have hg : oneName.geo.Ok := by
    rw [oneName_geo]
    exact small_layout.ok small_inReach
  obtain ⟨inod, hd⟩ := oneName_dir
  have hno : oneName.geo.InodeNo 7 := by decide
  have hused : oneName.vol.inUse 7 = true := by
    rw [vol_inUse hno]
    decide
  have hall : ∀ e ∈ oneName.dirEnts [6], e = ⟨7, [97]⟩ := by
    intro e he
    rw [oneName_ents] at he
    exact mem_singleton.mp he
  refine ⟨?_, ?_, by decide, ?_⟩
  · intro e he
    rw [hall e he]
    exact ⟨_, run_getino hg hused⟩
  · intro e he
    rw [hall e he]
    decide
  · intro name w i pdir hfind
    refine keeps_of_data hg ?_ hd.chain ?_ name hfind
    · intro v hv
      rw [mem_singleton.mp hv]
      exact oneName_isData
    · intro e he
      rw [hall e he]
      exact hused

theorem directory_views_agree_one : ∃ inod, DirBlocks oneName 8 inod [6] ∧
    ViewsAgree oneName 8 1024 := by
  obtain ⟨inod, hd⟩ := oneName_dir
  have hg : oneName.geo.Mounted := by
    rw [oneName_geo]
    exact small_mounted
  exact ⟨inod, hd, (directory_views_agree_iff hg hd (by decide)).mpr oneName_tidy⟩

-- the names "a" and "b" for the file of the small volume
def twoNames : Ext2fs := (ext2fsMklink zero 7 0x81A4 8 [98]).after oneName

/-- The first record of the block without its inode, as a name at the start of a block is commonly
removed. -/
def deadFirst : Ext2fs := twoNames.putBlock 6 (put32 (twoNames.rd 6) 0 0)

theorem deadFirst_mounted : deadFirst.geo.Mounted where
  blocksz := ⟨10, by decide, by decide, by decide⟩
  spb := by decide
  ppb := by decide
  gpb := by decide
  blocksCount_lt := by decide
  firstDataBlock_lt := by decide
  blocksPerGroup := by decide
  nbgs := by decide
  bgtbln := by decide
  roCompat := by decide
  table := by decide

theorem deadFirst_dir : ∃ inod, DirBlocks deadFirst 8 inod [6] := by
  refine dirBlocks_of_test (by decide) (by decide) (by decide) (by decide) ?_
  have hbs : deadFirst.geo.blocksz = 12 + recLen (deadFirst.rd 6) 12 := by decide
  have hfirst : Ents (deadFirst.rd 6) 0 (0 + recLen (deadFirst.rd 6) 0) :=
    Ents.single (by decide)
  rw [hbs]
  exact hfirst.trans (Ents.single (by decide))

/-- A record without an inode in front of the name "b": the name is found and can be removed, but
every call of `ext2fs_readdir` at cursor 0 fails. -/
theorem readdir_stops_at_dead_record : ∃ inod, deadFirst.geo.Mounted ∧
    DirBlocks deadFirst 8 inod [6] ∧ (∀ name buf, (ext2fsReaddir 8 0 1024 name buf).run deadFirst =
      .error (.err (-ENOENT)) deadFirst) ∧
    (ext2fsLookup (some zero) false 8 [98]).returns deadFirst 7 = true ∧
    ¬ ViewsAgree deadFirst 8 1024 := by
  obtain ⟨inod, hd⟩ := deadFirst_dir
  have hents : deadFirst.dirEnts [6] = [⟨0, [97]⟩, ⟨7, [98]⟩] := by decide +kernel
  refine ⟨inod, deadFirst_mounted, hd, ?_, by decide, ?_⟩
  · intro name buf
    rw [hd.run_readdir deadFirst_mounted]
    rfl
  · intro hagree
    have htidy := hd.tidy_of_agree deadFirst_mounted (by decide) hagree
    obtain ⟨x, hx⟩ := htidy.inUse ⟨0, [97]⟩ (by rw [hents]; exact mem_cons_self)
    exact ((getino_frame deadFirst 0).ok hx).2.1 rfl

end Ext2
