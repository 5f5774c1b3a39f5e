import Mathlib.Data.Finset.Card
import RandomOs.Ext2.BlockMap

/-!
# Giving a file another block (`ext2.c`)

`ino_allocblk` does not take an index: it fills the lowest hole of the file.  The slots are scanned
in order, then the tables; a table that is missing on the way is allocated and cleared first.
-/

namespace Ext2

open Lib Bytes Kern List Vol
open Op (Post)

/-! ## Model -/

/-- The state of a call that works on a copy of an inode. -/
structure Held where
  fs : Ext2fs
  inod : Bytes

def onFs {α : Type} (x : Op Ext2fs α) : Op Held α := fun s =>
  match x.run s.fs with
  | .ok a fs => .ok a { s with fs := fs }
  | .error e fs => .error e { s with fs := fs }

def Held.setBlock (s : Held) (k w : Nat) : Held := { s with inod := put32 s.inod (40 + 4 * k) w }

-- `i_blocks += spb`
def Held.addBlocks (s : Held) : Held :=
  { s with inod := put32 s.inod 28 (get32 s.inod 28 + s.fs.geo.spb) }

/-- A block for slot `k`. -/
def newSlot (ino k : Nat) : Op Held Nat := do
  let s ← get
  let blk ← onFs (allocblk (s.fs.geo.inoGrp ino))
  modify fun s => (s.setBlock k blk).addBlocks
  let s ← get
  onFs (flushInode ino s.inod)
  pure blk

/-- A block for entry `e` of table `blkn`, which was read into `indr`. -/
def newEntry (ino blkn : Nat) (indr : Bytes) (e : Nat) : Op Held (Nat × Bytes) := do
  let s ← get
  let blk ← onFs (allocblk (s.fs.geo.inoGrp ino))
  modify Held.addBlocks
  onFs (wrblk blkn (put32 indr (4 * e) blk))
  let s ← get
  onFs (flushInode ino s.inod)
  pure (blk, put32 indr (4 * e) blk)

/-- The loop over a table of data blocks, with `m` entries to go. -/
def fillLeaf (ino blkn : Nat) : (m i : Nat) → (indr : Bytes) → Op Held (Option Nat)
  | 0, _, _ => pure none
  | m + 1, i, indr =>
    if get32 indr (4 * i) = 0 then do
      let new ← newEntry ino blkn indr i
      pure (some new.1)
    else fillLeaf ino blkn m (i + 1) indr

-- a missing table is linked, and cleared after that
def ensureTable (ino blkn : Nat) (indr : Bytes) (i : Nat) : Op Held Bytes :=
  if get32 indr (4 * i) = 0 then do
    let new ← newEntry ino blkn indr i
    onFs (zeroNewblk new.1)
    pure new.2
  else pure indr

/-- The loop over a table of tables, each scanned by `sub`. -/
def fillNode (sub : Nat → Op Held (Option Nat)) (ino blkn : Nat) :
    (m i : Nat) → (indr : Bytes) → Op Held (Option Nat)
  | 0, _, _ => pure none
  | m + 1, i, indr => do
      let indr ← ensureTable ino blkn indr i
      let found ← sub (get32 indr (4 * i))
      match found with
      | some blk => pure (some blk)
      | none => fillNode sub ino blkn m (i + 1) indr

/-- The scan of a table with `d` levels of tables below. -/
def fill (ino : Nat) : (d blkn : Nat) → Op Held (Option Nat)
  | 0, blkn => do
      let s ← get
      let indr ← onFs (readIndr blkn)
      fillLeaf ino blkn s.fs.geo.ppb 0 indr
  | d + 1, blkn => do
      let s ← get
      let indr ← onFs (readIndr blkn)
      fillNode (fill ino d) ino blkn s.fs.geo.ppb 0 indr

def ensureSlot (ino k : Nat) : Op Held Unit := do
  let s ← get
  if iBlock s.inod k = 0 then do
    let blk ← newSlot ino k
    onFs (zeroNewblk blk)
  else pure ()

/-- The slots of tables from `12 + d` on, with `m` to go. -/
def fillSlots (ino : Nat) : (m d : Nat) → Op Held Nat
  | 0, _ => Op.fail (-ENOSPC)
  | m + 1, d => do
      ensureSlot ino (12 + d)
      let s ← get
      let found ← fill ino d (iBlock s.inod (12 + d))
      match found with
      | some blk => pure blk
      | none => fillSlots ino m (d + 1)

def inoAllocblk (ino : Nat) : Op Held Nat := do
  let s ← get
  match (List.range 12).find? fun i => iBlock s.inod i == 0 with
  | some i => newSlot ino i
  | none => fillSlots ino 3 0

section OnFs

variable {α β : Type} {x : Op Ext2fs α} {s : Held}

variable {fs : Ext2fs} {F : Stop → Ext2fs → Prop} {E : Stop → Held → Prop} {R : α → Ext2fs → Prop}

theorem run_onFs_of_ok {a : α} (h : x.run s.fs = .ok a fs) :
    (onFs x).run s = .ok a { s with fs := fs } := by
  change (match x.run s.fs with
    | .ok a fs => EStateM.Result.ok a { s with fs := fs }
    | .error e fs => .error e { s with fs := fs }) = _
  rw [h]

theorem run_onFs_of_error {e : Stop} (h : x.run s.fs = .error e fs) :
    (onFs x).run s = .error e { s with fs := fs } := by
  change (match x.run s.fs with
    | .ok a fs => EStateM.Result.ok a { s with fs := fs }
    | .error e fs => .error e { s with fs := fs }) = _
  rw [h]

theorem post_onFs {Q : α → Held → Prop} (hx : Post x s.fs R F)
    (hR : ∀ a fs, R a fs → Q a { s with fs := fs })
    (hF : ∀ e fs, F e fs → E e { s with fs := fs }) :
    Post (onFs x) s Q E := by
  unfold Post at hx
  cases hrun : x.run s.fs with
  | ok a fs =>
    rw [hrun] at hx
    exact Post.of_ok (run_onFs_of_ok hrun) (hR a fs hx)
  | error e fs =>
    rw [hrun] at hx
    exact Post.of_error (run_onFs_of_error hrun) (hF e fs hx)

theorem post_onFs_bind {f : α → Op Held β} {Q : β → Held → Prop} (hx : Post x s.fs R F)
    (hf : ∀ a fs, R a fs → Post (f a) { s with fs := fs } Q E)
    (hF : ∀ e fs, F e fs → E e { s with fs := fs }) : Post (onFs x >>= f) s Q E :=
  Post.bind (post_onFs (Q := fun a t => Post (f a) t Q E) hx hf hF) (fun _ _ h => h)
    fun _ _ h => h

end OnFs

/-! ## What the calls leave alone -/

/-- Other inodes, and of inode `n` all but `i_blocks` and the slots. -/
structure Vol.Keeps (n : Nat) (v v' : Vol) : Prop where
  geo : v'.geo = v.geo
  inUse : v'.inUse = v.inUse
  others : ∀ m, m ≠ n → v'.inode m = v.inode m
  head : ∀ i, i < 28 ∨ 100 ≤ i → v'.inode n i = v.inode n i

/-- No slot of inode `n` loses its block. -/
structure Vol.Extends (n : Nat) (v v' : Vol) : Prop extends v.Keeps n v' where
  slots : ∀ k < 15, iBlock (v.inode n) k ≠ 0 → iBlock (v'.inode n) k = iBlock (v.inode n) k

/-- Tables were added: the data blocks of all files are the same. -/
structure Vol.Grows (n : Nat) (v v' : Vol) : Prop extends v.Extends n v' where
  refs : ∀ m ρ, v.Live m → Full ρ → v'.ref m ρ = v.ref m ρ
  data : ∀ m ρ b, v.Live m → Full ρ → v.ref m ρ = some (.blk b) → v'.data b = v.data b

/-- Block `b` was added at `ρ`: all other data blocks are the same. -/
structure Vol.Fills (n : Nat) (v v' : Vol) (ρ : List Nat) (b : Nat) : Prop
    extends v.Extends n v' where
  full : Full ρ
  was : v.ref n ρ = none
  now : v'.ref n ρ = some (.blk b)
  refs : ∀ m ρ', v.Live m → Full ρ' → ¬ (m = n ∧ ρ' = ρ) → v'.ref m ρ' = v.ref m ρ'
  data : ∀ m ρ' x, v.Live m → Full ρ' → v.ref m ρ' = some (.blk x) → v'.data x = v.data x

section Relations

variable {n : Nat} {v v' v'' : Vol}

theorem Vol.Keeps.refl (n : Nat) (v : Vol) : v.Keeps n v :=
  ⟨rfl, rfl, fun _ _ => rfl, fun _ _ => rfl⟩

theorem Vol.Keeps.trans (h : v.Keeps n v') (h' : v'.Keeps n v'') : v.Keeps n v'' :=
  ⟨h'.geo.trans h.geo, h'.inUse.trans h.inUse, fun m hm => (h'.others m hm).trans (h.others m hm),
    fun i hi => (h'.head i hi).trans (h.head i hi)⟩

theorem Vol.Keeps.flushSafe (h : v.Keeps n v') (hflush : v.geo.FlushSafe) : v'.geo.FlushSafe := by
  rw [h.geo]
  exact hflush

theorem Vol.Keeps.live (h : v.Keeps n v') (m : Nat) : v'.Live m ↔ v.Live m := by
  have htype : iType (v'.inode m) = iType (v.inode m) := by
    by_cases hm : m = n
    · subst hm
      unfold iType
      rw [get16_congr (h.head 0 (by omega)) (h.head 1 (by omega))]
    · rw [h.others m hm]
  unfold Live
  rw [h.inUse, htype]

theorem Vol.Extends.trans (h : v.Extends n v') (h' : v'.Extends n v'') : v.Extends n v'' := by
  refine ⟨h.toKeeps.trans h'.toKeeps, fun k hk hne => ?_⟩
  have hfirst := h.slots k hk hne
  rw [h'.slots k hk (by rwa [hfirst]), hfirst]

theorem Vol.Grows.refl (n : Nat) (v : Vol) : v.Grows n v :=
  ⟨⟨Keeps.refl n v, fun _ _ _ => rfl⟩, fun _ _ _ _ => rfl, fun _ _ _ _ _ _ => rfl⟩

theorem Vol.Grows.trans (h : v.Grows n v') (h' : v'.Grows n v'') : v.Grows n v'' := by
  refine ⟨h.toExtends.trans h'.toExtends, ?_, ?_⟩
  · intro m ρ hm hρ
    rw [h'.refs m ρ ((h.live m).mpr hm) hρ, h.refs m ρ hm hρ]
  · intro m ρ b hm hρ href
    rw [h'.data m ρ b ((h.live m).mpr hm) hρ (by rwa [h.refs m ρ hm hρ]),
      h.data m ρ b hm hρ href]

theorem Vol.Grows.fills (h : v.Grows n v') (hn : v.Live n) {ρ : List Nat} {b : Nat}
    (h' : v'.Fills n v'' ρ b) : v.Fills n v'' ρ b := by
  refine ⟨h.toExtends.trans h'.toExtends, h'.full, ?_, h'.now, ?_, ?_⟩
  · rw [← h.refs n ρ hn h'.full]
    exact h'.was
  · intro m ρ' hm hρ' hne
    rw [h'.refs m ρ' ((h.live m).mpr hm) hρ' hne, h.refs m ρ' hm hρ']
  · intro m ρ' x hm hρ' href
    rw [h'.data m ρ' x ((h.live m).mpr hm) hρ' (by rwa [h.refs m ρ' hm hρ']),
      h.data m ρ' x hm hρ' href]

theorem Vol.Grows.mark (n : Nat) (v : Vol) (b : Nat) : v.Grows n (v.mark b true) :=
  ⟨⟨⟨rfl, rfl, fun _ _ => rfl, fun _ _ => rfl⟩, fun _ _ _ => rfl⟩, fun _ _ _ _ => rfl,
    fun _ _ _ _ _ _ => rfl⟩

end Relations

/-! ## One pointer -/

/-- Entry `e` of node `c` is set to `b`, and what else the code does on the way. -/
structure Vol.Puts (n : Nat) (v v' : Vol) (c : Node) (e b : Nat) : Prop where
  keeps : v.Keeps n v'
  linked : v.Linked v' c e b
  data : ∀ x, c ≠ .blk x → x ≠ b → v'.data x = v.data x

section Puts

variable {n : Nat} {v v' : Vol} {c : Node} {e b : Nat} {es : List Nat}

variable {w : Nat}

-- bytes of an inode outside the written word
theorem setInode_put32 (v : Vol) (n : Nat) {x : Bytes} {a i : Nat} (hi : i < a ∨ a + 4 ≤ i)
    (hx : trim 128 x = v.inode n) : (v.setInode n (put32 x a w)).inode n i = v.inode n i := by
  rw [setInode_inode, if_pos rfl, ← hx]
  unfold trim
  rw [put32_of_ne hi]

theorem puts_slot {k : Nat} (hk : k < 15) (hb : b ≠ 0) (hlt : b < 2 ^ 32)
    (hx : trim 128 (v.inode n) = v.inode n) :
    v.Puts n ((v.mark b true).setInode n (put32 (put32 (v.inode n) (40 + 4 * k) b) 28 w))
      (.ino n) k b := by
  have hkeeps : v.Keeps n
      ((v.mark b true).setInode n (put32 (put32 (v.inode n) (40 + 4 * k) b) 28 w)) := by
    refine ⟨rfl, rfl, fun m hm => ?_, fun i hi => ?_⟩
    · rw [setInode_inode, if_neg hm, mark_inode]
    · rw [setInode_inode, if_pos rfl, ← congrFun hx i]
      unfold trim
      rw [put32_of_ne (by omega), put32_of_ne (by omega)]
  -- the words of the new inode
  have hword : ∀ j < 15, iBlock (trim 128 (put32 (put32 (v.inode n) (40 + 4 * k) b) 28 w)) j =
      if j = k then b else iBlock (v.inode n) j := by
    intro j hj
    unfold iBlock
    rw [get32_trim _ (by omega), get32_put32_of_ne (by omega)]
    split
    · rename_i heq
      rw [heq, get32_put32, Nat.mod_eq_of_lt hlt]
    · rw [get32_put32_of_ne (by omega)]
  refine ⟨hkeeps, ⟨rfl, hkeeps.live, ?_, ?_, ?_, ?_⟩, fun _ _ _ => rfl⟩
  · intro x hx
    rw [setInode_marked, mark_marked]
    split
    · rfl
    · exact hx
  · rw [setInode_marked, mark_marked, if_pos rfl]
  · rw [next_ino, if_pos hk, setInode_inode, if_pos rfl, hword k hk, if_pos rfl, ptr_of_ne hb]
  intro d x hne _
  cases d with
  | blk _ => rfl
  | ino m =>
    rw [next_ino, next_ino, setInode_inode]
    by_cases hm : m = n
    · subst hm
      have hxk : x ≠ k := fun heq => hne ⟨rfl, heq⟩
      split
      · rename_i hx15
        rw [if_pos rfl, hword x hx15, if_neg hxk]
      · rfl
    · rw [if_neg hm, mark_inode]

theorem puts_entry {t : Nat} {buf : Bytes} (hppb : v.geo.ppb * 4 = v.geo.blocksz)
    (he : e < v.geo.ppb) (hb : b ≠ 0) (hlt : b < 2 ^ 32) (htb : t ≠ b)
    (hx : trim 128 (v.inode n) = v.inode n) (hbuf : trim v.geo.blocksz buf = v.data t)
    (hv' : v' = ((v.mark b true).setData t (put32 buf (4 * e) b)).setInode n
      (put32 (v.inode n) 28 w)) : v.Puts n v' (.blk t) e b := by
  have hgeo : v'.geo = v.geo := by rw [hv']; rfl
  have hkeeps : v.Keeps n v' := by
    refine ⟨hgeo, by rw [hv']; rfl, fun m hm => ?_, fun i hi => ?_⟩
    · rw [hv', setInode_inode, if_neg hm, setData_inode, mark_inode]
    · rw [hv']
      exact setInode_put32 _ n (by omega) hx
  have hmarked : ∀ x, v'.marked x = if x = b then true else v.marked x := by
    intro x
    rw [hv', setInode_marked, setData_marked, mark_marked]
  have hdata : ∀ x, x ≠ t → v'.data x = v.data x := by
    intro x hxt
    rw [hv', setInode_data, setData_data, if_neg hxt, mark_data]
  -- the words of the table
  have hword : ∀ x < v.geo.ppb, get32 (v'.data t) (4 * x) =
      if x = e then b else get32 (v.data t) (4 * x) := by
    intro x hx
    rw [hv', setInode_data, setData_data, if_pos rfl]
    change get32 (trim v.geo.blocksz (put32 buf (4 * e) b)) (4 * x) = _
    rw [get32_trim _ (by omega)]
    split
    · rename_i heq
      rw [heq, get32_put32, Nat.mod_eq_of_lt hlt]
    · rw [get32_put32_of_ne (by omega), ← hbuf, get32_trim _ (by omega)]
  refine ⟨hkeeps, ⟨hgeo, hkeeps.live, ?_, ?_, ?_, ?_⟩, fun x hx _ => hdata x ?_⟩
  · intro x hx
    rw [hmarked]
    split
    · rfl
    · exact hx
  · rw [hmarked, if_pos rfl]
  · rw [next_blk, hgeo, if_pos he, hword e he, if_pos rfl, ptr_of_ne hb]
  · intro d x hne _
    cases d with
    | ino m =>
      have hslots : ∀ k < 15, iBlock (v'.inode m) k = iBlock (v.inode m) k := by
        intro k hk
        by_cases hm : m = n
        · subst hm
          apply get32_congr
          intro i hi
          rw [hv']
          exact setInode_put32 _ m (by omega) hx
        · rw [hkeeps.others m hm]
      rw [next_ino, next_ino]
      split
      · rename_i hx15
        rw [hslots x hx15]
      · rfl
    | blk d =>
      rw [next_blk, next_blk, hgeo]
      by_cases hd : d = t
      · subst hd
        have hxe : x ≠ e := fun heq => hne ⟨rfl, heq⟩
        split
        · rename_i hxp
          rw [hword x hxp, if_neg hxe]
        · rfl
      · rw [hdata d hd]
  · rintro rfl
    exact hx rfl

theorem Vol.Puts.zero (h : v.Puts n v' c e b) (hc : c ≠ .blk b) :
    v.Puts n (v'.setData b zero) c e b := by
  have hnext : ∀ d x, d ≠ .blk b → (v'.setData b Bytes.zero).next d x = v'.next d x := by
    intro d x hd
    cases d with
    | ino _ => rfl
    | blk y =>
      have hy : y ≠ b := fun heq => hd (by rw [heq])
      rw [next_blk, next_blk, setData_data, if_neg hy, setData_geo]
  refine ⟨⟨h.keeps.geo, h.keeps.inUse, h.keeps.others, h.keeps.head⟩,
    ⟨h.linked.geo, h.linked.live, h.linked.marked, h.linked.fresh, ?_, ?_⟩, ?_⟩
  · rw [hnext c e hc]
    exact h.linked.entry
  · intro d x hne hd
    rw [hnext d x hd]
    exact h.linked.rest d x hne hd
  · intro x hx hxb
    rw [setData_data, if_neg hxb]
    exact h.data x hx hxb

theorem Vol.next_setData_zero (v : Vol) (b x : Nat) :
    (v.setData b zero).next (.blk b) x = none := by
  rw [next_blk, setData_data, if_pos rfl, trim_zero]
  split
  · rfl
  · rfl

-- the data blocks of the files are not touched
theorem Vol.Puts.data_of_full (h : v.Puts n v' c e b) (hv : v.Sound) (hp : v.Vacant n es e c b)
    {m x : Nat} {ρ : List Nat} (hm : v.Live m) (hρ : Full ρ) (href : v.ref m ρ = some (.blk x)) :
    v'.data x = v.data x := by
  apply h.data
  · rintro rfl
    obtain ⟨-, rfl⟩ := hv.eq_of_ref hm hp.live hρ.fits hp.fits.of_append href hp.node
    exact hρ.not_fits e hp.fits
  · rintro rfl
    exact hv.ref_ne_of_free hp.free hm hρ.fits href

-- the pointer that is set was empty
theorem Vol.Puts.extends (h : v.Puts n v' c e b) (hp : v.Vacant n es e c b) : v.Extends n v' := by
  refine ⟨h.keeps, fun k hk hne => ?_⟩
  have hold : v.next (.ino n) k = some (.blk (iBlock (v.inode n) k)) := by
    rw [next_ino, if_pos hk, ptr_of_ne hne]
  have hother : ¬ (Node.ino n = c ∧ k = e) := by
    rintro ⟨rfl, rfl⟩
    rw [hp.empty] at hold
    cases hold
  have hnew := h.linked.rest (.ino n) k hother (by rintro ⟨⟩)
  rw [hold, next_ino, if_pos hk] at hnew
  obtain ⟨hblk, -⟩ := ptr_eq_some hnew
  exact (Node.blk.inj hblk).symm

theorem Vol.Puts.grows (h : v.Puts n v' c e b) (hv : v.Sound) (hp : v.Vacant n es e c b)
    (hnot : ¬ Full (es ++ [e])) (hleaf : ∀ x, v'.next (.blk b) x = none) : v.Grows n v' := by
  refine ⟨h.extends hp, ?_, fun m ρ x hm hρ href => h.data_of_full hv hp hm hρ href⟩
  intro m ρ hm hρ
  apply h.linked.ref_of_ne hv hp (fun x _ => hleaf x) hm hρ.fits
  rintro ⟨-, rfl⟩
  exact hnot hρ

theorem Vol.Puts.fills (h : v.Puts n v' c e b) (hv : v.Sound) (hp : v.Vacant n es e c b)
    (hfull : Full (es ++ [e])) : v.Fills n v' (es ++ [e]) b := by
  have hleaf : ∀ x, Fits (es ++ [e] ++ [x]) → v'.next (.blk b) x = none :=
    fun x hx => absurd hx (hfull.not_fits x)
  refine ⟨h.extends hp, hfull, ?_, h.linked.ref_new hv hp, ?_,
    fun m ρ x hm hρ href => h.data_of_full hv hp hm hρ href⟩
  · rw [ref_of_snoc hp.node]
    exact hp.empty
  · exact fun m ρ hm hρ hne => h.linked.ref_of_ne hv hp hleaf hm hρ.fits hne

end Puts

/-! ## The blocks that a file takes -/

/-- A data block or a table of the file. -/
def Vol.Owns (v : Vol) (n b : Nat) : Prop := ∃ es, Fits es ∧ v.ref n es = some (.blk b)

/-- Inode `n` has the blocks `T` on top, which no one had; nothing else changed hands. -/
structure Vol.Took (n : Nat) (v v' : Vol) (T : Finset Nat) : Prop where
  keeps : v.Keeps n v'
  free : ∀ b ∈ T, v.marked b = false
  marked : ∀ b, v'.marked b = true ↔ v.marked b = true ∨ b ∈ T
  owns : ∀ m b, v.Live m → (v'.Owns m b ↔ v.Owns m b ∨ m = n ∧ b ∈ T)
  blocks : get32 (v'.inode n) 28 = (get32 (v.inode n) 28 + v.geo.spb * T.card) % 2 ^ 32

/-- Blocks were taken; the one that comes back is among them. -/
def Held.Taken (n : Nat) (s : Held) (r : Option Nat) (s' : Held) : Prop :=
  ∃ T, s.fs.vol.Took n s'.fs.vol T ∧ ∀ b, r = some b → b ∈ T

/-- Blocks were taken, and a last one was at most marked. -/
def Held.Failed (n : Nat) (s : Held) (_ : Stop) (s' : Held) : Prop :=
  ∃ T v, s.fs.vol.Took n v T ∧ (s'.fs.vol = v ∨ ∃ b, s'.fs.vol = v.mark b true)

section Took

variable {n : Nat} {v v' v'' : Vol} {T T' : Finset Nat}

theorem Vol.Took.refl (n : Nat) (v : Vol) : v.Took n v ∅ := by
  refine ⟨Keeps.refl n v, fun b hb => ?_, fun b => ?_, fun m b _ => ?_, ?_⟩
  · cases hb
  · simp
  · simp
  · rw [Finset.card_empty, Nat.mul_zero, Nat.add_zero, Nat.mod_eq_of_lt (get32_lt _ _)]

theorem Vol.Took.disjoint (h : v.Took n v' T) (h' : v'.Took n v'' T') : Disjoint T T' := by
  rw [Finset.disjoint_left]
  intro b hb hb'
  have hfree := h'.free b hb'
  rw [(h.marked b).mpr (Or.inr hb)] at hfree
  cases hfree

theorem Vol.Took.trans (h : v.Took n v' T) (h' : v'.Took n v'' T') : v.Took n v'' (T ∪ T') := by
  refine ⟨h.keeps.trans h'.keeps, fun b hb => ?_, fun b => ?_, fun m b hm => ?_, ?_⟩
  · rcases Finset.mem_union.mp hb with hb | hb
    · exact h.free b hb
    -- unmarked later, so unmarked before
    by_contra hmark
    rw [Bool.not_eq_false] at hmark
    have hfree := h'.free b hb
    rw [(h.marked b).mpr (Or.inl hmark)] at hfree
    cases hfree
  · rw [h'.marked, h.marked, Finset.mem_union, or_assoc]
  · rw [h'.owns m b ((h.keeps.live m).mpr hm), h.owns m b hm, Finset.mem_union, or_assoc,
      and_or_left]
  · rw [h'.blocks, h.blocks, h.keeps.geo, Finset.card_union_of_disjoint (h.disjoint h'),
      Nat.mod_add_mod, Nat.mul_add, Nat.add_assoc]

variable {s s' : Held}

variable {s₁ : Held} {b : Nat}

theorem Vol.Took.failed {e : Stop} (h : s.fs.vol.Took n s₁.fs.vol T)
    (h' : s₁.Failed n e s') : s.Failed n e s' := by
  obtain ⟨T', v, htook, hv⟩ := h'
  exact ⟨_, v, h.trans htook, hv⟩

theorem Held.taken_none (n : Nat) (s : Held) : s.Taken n none s :=
  ⟨∅, Took.refl n _, fun _ h => by cases h⟩

theorem Vol.Took.taken_singleton (h : s.fs.vol.Took n s'.fs.vol {b}) : s.Taken n (some b) s' := by
  refine ⟨{b}, h, fun x hx => ?_⟩
  cases hx
  exact Finset.mem_singleton_self b

theorem Vol.Took.taken {r : Option Nat} (h : s.fs.vol.Took n s₁.fs.vol T)
    (h' : s₁.Taken n r s') : s.Taken n r s' := by
  obtain ⟨T', htook, hr⟩ := h'
  exact ⟨_, h.trans htook, fun b hb => Finset.mem_union_right T (hr b hb)⟩

/-! ## One block -/

/-- Block `b` was marked and counted. -/
structure Vol.Paid (n : Nat) (v : Vol) (b : Nat) (v' : Vol) : Prop where
  marked : ∀ x, v'.marked x = if x = b then true else v.marked x
  blocks : get32 (v'.inode n) 28 = (get32 (v.inode n) 28 + v.geo.spb) % 2 ^ 32

theorem Vol.Puts.took {es : List Nat} {e : Nat} {c : Node} (h : v.Puts n v' c e b)
    (hv : v.Sound) (hp : v.Vacant n es e c b)
    (hleaf : ∀ x, Fits (es ++ [e] ++ [x]) → v'.next (.blk b) x = none) (hpaid : v.Paid n b v') :
    v.Took n v' {b} := by
  refine ⟨h.keeps, fun x hx => ?_, fun x => ?_, fun m x hm => ?_, ?_⟩
  · rw [Finset.mem_singleton.mp hx]
    exact hp.free
  · rw [hpaid.marked]
    by_cases hx : x = b
    · simp [hx]
    · simp [hx]
  · rw [Finset.mem_singleton]
    constructor
    · rintro ⟨ρ, hρ, href⟩
      by_cases hplace : m = n ∧ ρ = es ++ [e]
      · obtain ⟨rfl, rfl⟩ := hplace
        rw [h.linked.ref_new hv hp] at href
        cases href
        exact Or.inr ⟨rfl, rfl⟩
      · rw [h.linked.ref_of_ne hv hp hleaf hm hρ hplace] at href
        exact Or.inl ⟨ρ, hρ, href⟩
    · rintro (⟨ρ, hρ, href⟩ | ⟨rfl, rfl⟩)
      · refine ⟨ρ, hρ, ?_⟩
        rw [h.linked.ref_of_ne hv hp hleaf hm hρ, href]
        -- the place was empty
        rintro ⟨rfl, rfl⟩
        rw [ref_of_snoc hp.node, hp.empty] at href
        cases href
      · exact ⟨_, hp.fits, h.linked.ref_new hv hp⟩
  · rw [hpaid.blocks, Finset.card_singleton, Nat.mul_one]

end Took

/-! ## Allocation at a place -/

/-- The copy is the inode on the device, of a live file of a sound volume. -/
structure Held.Synced (n : Nat) (s : Held) : Prop where
  geo : s.fs.geo.Ok
  sound : s.fs.vol.Sound
  live : s.fs.vol.Live n
  inod : s.inod = s.fs.vol.inode n

/-- A block was allocated and linked at `es ++ [e]`. -/
structure Held.Placed (n : Nat) (s s' : Held) (es : List Nat) (e : Nat) (c : Node) (b : Nat) :
    Prop where
  vacant : s.fs.vol.Vacant n es e c b
  puts : s.fs.vol.Puts n s'.fs.vol c e b
  inod : s'.inod = s'.fs.vol.inode n

section Placed

variable {n : Nat} {s s' : Held} {es : List Nat} {e b : Nat} {c : Node}

variable {fs : Ext2fs}

theorem trim_inode (hn : fs.vol.inUse n = true) : trim 128 (fs.vol.inode n) = fs.vol.inode n := by
  rw [vol_inode (inodeNo_of_inUse hn), trim_trim]

theorem Held.Synced.of_vol (hs : s.Synced n) {v : Vol} (hfs : fs.vol = v) (hv : v.Sound)
    (hgrows : s.fs.vol.Keeps n v) (hinode : v.inode n = s.inod) :
    Held.Synced n { s with fs := fs } := by
  subst hfs
  have hgeo : fs.geo = s.fs.geo := hgrows.geo
  refine ⟨?_, hv, ?_, hinode.symm⟩
  · change fs.geo.Ok
    rw [hgeo]
    exact hs.geo
  · exact (hgrows.live n).mpr hs.live

/-- A failed allocation may leave a mark behind. -/
theorem Held.Synced.alloc_failed (hs : s.Synced n)
    (h : fs.vol = s.fs.vol ∨ ∃ b, fs.vol = s.fs.vol.mark b true) :
    Held.Synced n { s with fs := fs } ∧ s.fs.vol.Grows n fs.vol := by
  rcases h with hsame | ⟨x, hmark⟩
  · refine ⟨hs.of_vol hsame hs.sound (Keeps.refl n _) hs.inod.symm, ?_⟩
    rw [hsame]
    exact Grows.refl n _
  · refine ⟨hs.of_vol hmark (hs.sound.mark x) (Grows.mark n _ x).toKeeps hs.inod.symm, ?_⟩
    rw [hmark]
    exact Grows.mark n _ x

theorem Held.Synced.data_facts (hs : s.Synced n) (hb : s.fs.geo.IsData b) : b ≠ 0 ∧ b < 2 ^ 32 :=
  ⟨hb.ne_zero, Nat.lt_trans hb.2.1 hs.geo.mounted.blocksCount_lt⟩

-- a block that could not be had may be marked all the same
def Held.NoBlock (s : Held) (_ : Stop) (s' : Held) : Prop :=
  s'.inod = s.inod ∧ (s'.fs.vol = s.fs.vol ∨ ∃ b, s'.fs.vol = s.fs.vol.mark b true)

/-- What a failed call leaves. -/
def Held.Grew (n : Nat) (s : Held) (_ : Stop) (s' : Held) : Prop :=
  s'.Synced n ∧ s.fs.vol.Grows n s'.fs.vol

/-- The account of a failed call. -/
def Held.Stopped (n : Nat) (s : Held) (e : Stop) (s' : Held) : Prop :=
  s.Grew n e s' ∧ s.Failed n e s'

variable {x : Stop} {t : Nat}

theorem Held.NoBlock.stopped (h : s.NoBlock x s') (hs : s.Synced n) : s.Stopped n x s' := by
  obtain ⟨hinod, hvol⟩ := h
  obtain ⟨hs', hgrows⟩ := hs.alloc_failed hvol
  rw [← hinod] at hs'
  exact ⟨⟨hs', hgrows⟩, ∅, _, Took.refl n _, hvol⟩

theorem Held.Stopped.after {s₁ : Held} {T : Finset Nat} (h : s₁.Stopped n x s')
    (hgrows : s.fs.vol.Grows n s₁.fs.vol) (htook : s.fs.vol.Took n s₁.fs.vol T) :
    s.Stopped n x s' :=
  ⟨⟨h.1.1, hgrows.trans h.1.2⟩, htook.failed h.2⟩

theorem newSlot_vol (hs : s.Synced n) (hflush : s.fs.geo.FlushSafe) (k : Nat) :
    Post (newSlot n k) s
      (fun b s' => s.fs.geo.IsData b ∧ s.fs.vol.marked b = false ∧
        s'.fs.vol = (s.fs.vol.mark b true).setInode n
          (put32 (put32 (s.fs.vol.inode n) (40 + 4 * k) b) 28
            (get32 (put32 (s.fs.vol.inode n) (40 + 4 * k) b) 28 + s.fs.geo.spb)) ∧
        s'.inod = put32 (put32 (s.fs.vol.inode n) (40 + 4 * k) b) 28
          (get32 (put32 (s.fs.vol.inode n) (40 + 4 * k) b) 28 + s.fs.geo.spb))
      s.NoBlock := by
  apply Post.get_bind
  apply post_onFs_bind (allocblk_post hs.geo hflush hs.sound.spares _)
  · rintro b fs₁ ⟨hdata, hfree, hvol₁⟩
    have hgeo₁ : fs₁.geo = s.fs.geo := congrArg geo hvol₁
    apply Post.modify_bind
    apply Post.get_bind
    obtain ⟨fs₂, hrun, hvol₂⟩ := run_flushInode (geo_ok_of_vol hvol₁ hs.geo)
      (by rw [hvol₁]; exact hs.live.1)
      (put32 (put32 s.inod (40 + 4 * k) b) 28
        (get32 (put32 s.inod (40 + 4 * k) b) 28 + fs₁.geo.spb))
    apply Post.bind_ok (run_onFs_of_ok hrun)
    apply Post.pure
    rw [hvol₁, hgeo₁, hs.inod] at hvol₂
    refine ⟨hdata, hfree, hvol₂, ?_⟩
    change put32 (put32 s.inod (40 + 4 * k) b) 28
      (get32 (put32 s.inod (40 + 4 * k) b) 28 + fs₁.geo.spb) = _
    rw [hgeo₁, hs.inod]
  · exact fun _ _ h => ⟨rfl, h⟩

theorem newSlot_post (hs : s.Synced n) (hflush : s.fs.geo.FlushSafe) {k : Nat} (hk : k < 15)
    (hzero : iBlock s.inod k = 0) :
    Post (newSlot n k) s
      (fun b s' => s.Placed n s' [] k (.ino n) b ∧ s.fs.vol.Paid n b s'.fs.vol) (s.Stopped n) := by
  refine Post.mono (newSlot_vol hs hflush k) ?_ fun _ _ h => h.stopped hs
  rintro b s' ⟨hdata, hfree, hvol, hinod⟩
  obtain ⟨hb0, hblt⟩ := hs.data_facts hdata
  refine ⟨⟨⟨hs.live, ?_, rfl, ?_, hdata, hfree⟩, ?_, ?_⟩, fun x => ?_, ?_⟩
  · exact Nat.zero_le _
  · rw [next_ino, if_pos hk, ← hs.inod, hzero]
    rfl
  · rw [hvol]
    exact puts_slot hk hb0 hblt (trim_inode hs.live.1)
  · rw [hvol, hinod, setInode_inode, if_pos rfl, trim_put32 _ _ (by omega),
      trim_put32 _ _ (by omega), trim_inode hs.live.1]
  · rw [hvol, setInode_marked, mark_marked]
  · rw [hvol, setInode_inode, if_pos rfl, get32_trim _ (by omega), get32_put32,
      get32_put32_of_ne (by omega)]
    rfl

theorem newEntry_vol (hs : s.Synced n) (hflush : s.fs.geo.FlushSafe) (indr : Bytes)
    (hnode : s.fs.vol.ref n es = some (.blk t)) (hfits : Fits es) (e : Nat) :
    Post (newEntry n t indr e) s
      (fun r s' => s.fs.geo.IsData r.1 ∧ s.fs.vol.marked r.1 = false ∧
        r.2 = put32 indr (4 * e) r.1 ∧
        s'.fs.vol = ((s.fs.vol.mark r.1 true).setData t (put32 indr (4 * e) r.1)).setInode n
          (put32 (s.fs.vol.inode n) 28 (get32 (s.fs.vol.inode n) 28 + s.fs.geo.spb)) ∧
        s'.inod = put32 (s.fs.vol.inode n) 28 (get32 (s.fs.vol.inode n) 28 + s.fs.geo.spb))
      s.NoBlock := by
  have htdata := (hs.sound.owned n es t hs.live hfits hnode).1
  apply Post.get_bind
  apply post_onFs_bind (allocblk_post hs.geo hflush hs.sound.spares _)
  · rintro b fs₁ ⟨hdata, hfree, hvol₁⟩
    have hg₁ := geo_ok_of_vol hvol₁ hs.geo
    have hgeo₁ : fs₁.geo = s.fs.geo := congrArg geo hvol₁
    have htdata₁ : fs₁.geo.IsData t := by rwa [hgeo₁]
    apply Post.modify_bind
    apply Post.bind_ok (run_onFs_of_ok (s := Held.addBlocks ⟨fs₁, s.inod⟩)
      (run_wrblk htdata₁.2.1 (put32 indr (4 * e) b)))
    have hvol₂ := vol_putBlock_data hg₁ htdata₁ (put32 indr (4 * e) b)
    rw [hvol₁] at hvol₂
    apply Post.get_bind
    obtain ⟨fs₃, hrun, hvol₃⟩ := run_flushInode (geo_ok_of_vol hvol₂ hs.geo)
      (by rw [hvol₂]; exact hs.live.1)
      (put32 s.inod 28 (get32 s.inod 28 + fs₁.geo.spb))
    apply Post.bind_ok (run_onFs_of_ok hrun)
    apply Post.pure
    rw [hvol₂, hgeo₁, hs.inod] at hvol₃
    refine ⟨hdata, hfree, rfl, hvol₃, ?_⟩
    change put32 s.inod 28 (get32 s.inod 28 + fs₁.geo.spb) = _
    rw [hgeo₁, hs.inod]
  · exact fun _ _ h => ⟨rfl, h⟩

theorem newEntry_post (hs : s.Synced n) (hflush : s.fs.geo.FlushSafe) {indr : Bytes}
    (hnode : s.fs.vol.ref n es = some (.blk t)) (hfits : Fits (es ++ [e]))
    (he : e < s.fs.geo.ppb) (hindr : trim s.fs.geo.blocksz indr = s.fs.vol.data t)
    (hzero : get32 indr (4 * e) = 0) :
    Post (newEntry n t indr e) s
      (fun r s' => s.Placed n s' es e (.blk t) r.1 ∧ get32 r.2 (4 * e) = r.1 ∧
        s.fs.vol.Paid n r.1 s'.fs.vol) (s.Stopped n) := by
  have hppb := hs.geo.mounted.ppb_mul
  have htmark := (hs.sound.owned n es t hs.live hfits.of_append hnode).2
  refine Post.mono (newEntry_vol hs hflush indr hnode hfits.of_append e) ?_
    fun _ _ h => h.stopped hs
  rintro ⟨b, indr'⟩ s' ⟨hdata, hfree, hindr', hvol, hinod⟩
  obtain ⟨hb0, hblt⟩ := hs.data_facts hdata
  have htb : t ≠ b := by
    rintro rfl
    rw [htmark] at hfree
    cases hfree
  refine ⟨⟨⟨hs.live, hfits, hnode, ?_, hdata, hfree⟩, ?_, ?_⟩, ?_, fun x => ?_, ?_⟩
  · rw [next_blk, vol_geo, if_pos he, ← hindr, get32_trim _ (by omega), hzero]
    rfl
  · exact puts_entry hppb he hb0 hblt htb (trim_inode hs.live.1) hindr hvol
  · rw [hvol, hinod, setInode_inode, if_pos rfl, trim_put32 _ _ (by omega),
      trim_inode hs.live.1]
  · rw [hindr', get32_put32, Nat.mod_eq_of_lt hblt]
  · rw [hvol, setInode_marked, setData_marked, mark_marked]
  · rw [hvol, setInode_inode, if_pos rfl, get32_trim _ (by omega), get32_put32]
    rfl

section

variable (h : s.Placed n s' es e c b) (hs : s.Synced n)

include h hs

theorem Held.Placed.leaf (hfull : Full (es ++ [e])) :
    s'.Synced n ∧ s.fs.vol.Fills n s'.fs.vol (es ++ [e]) b := by
  have hfills := h.puts.fills hs.sound h.vacant hfull
  refine ⟨⟨@geo_ok_of_vol s'.fs _ rfl ?_, ?_, ?_, h.inod⟩, hfills⟩
  · rw [h.puts.keeps.geo]
    exact hs.geo
  · exact h.puts.linked.sound hs.sound h.vacant fun x hx => absurd hx (hfull.not_fits x)
  · exact (h.puts.keeps.live n).mpr hs.live

theorem Held.Placed.table
    (hnot : ¬ Full (es ++ [e])) : ∃ s'', (onFs (zeroNewblk b)).run s' = .ok () s'' ∧ s''.Synced n ∧
      s.fs.vol.Grows n s''.fs.vol ∧ s''.inod = s'.inod ∧ s''.fs.vol = s'.fs.vol.setData b zero ∧
      s''.fs.vol.ref n (es ++ [e]) = some (.blk b) := by
  have hgeo : s'.fs.geo = s.fs.geo := h.puts.keeps.geo
  have hdata : s'.fs.geo.IsData b := by
    rw [hgeo]
    exact h.vacant.data
  have hok : s'.fs.geo.Ok := by
    rw [hgeo]
    exact hs.geo
  have hc : c ≠ .blk b := by
    rintro rfl
    exact hs.sound.ref_ne_of_free h.vacant.free h.vacant.live h.vacant.fits.of_append h.vacant.node
  have hvol := vol_putBlock_data hok hdata zero
  have hputs := h.puts.zero hc
  have hleaf := next_setData_zero s'.fs.vol b
  rw [← hvol] at hputs hleaf
  refine ⟨_, run_onFs_of_ok (run_wrblk hdata.2.1 zero), ⟨hok, ?_, ?_, ?_⟩, ?_, rfl, hvol, ?_⟩
  · exact hputs.linked.sound hs.sound h.vacant fun x _ => hleaf x
  · exact (hputs.keeps.live n).mpr hs.live
  · change s'.inod = (s'.fs.putBlock b zero).vol.inode n
    rw [hvol]
    exact h.inod
  · exact hputs.grows hs.sound h.vacant hnot hleaf
  · exact hputs.linked.ref_new hs.sound h.vacant

theorem Held.Placed.took_leaf (hfull : Full (es ++ [e])) (hpaid : s.fs.vol.Paid n b s'.fs.vol) :
    s.fs.vol.Took n s'.fs.vol {b} :=
  h.puts.took hs.sound h.vacant (fun x hx => absurd hx (hfull.not_fits x)) hpaid

theorem Held.Placed.took_table
    (hpaid : s.fs.vol.Paid n b s'.fs.vol) : s.fs.vol.Took n (s'.fs.vol.setData b zero) {b} := by
  have hc : c ≠ .blk b := by
    rintro rfl
    exact hs.sound.ref_ne_of_free h.vacant.free h.vacant.live h.vacant.fits.of_append h.vacant.node
  exact (h.puts.zero hc).took hs.sound h.vacant (fun x _ => next_setData_zero _ b x)
    ⟨hpaid.marked, hpaid.blocks⟩

end

end Placed

/-! ## Scans -/

/-- From `π` a data block is `d` entries away. -/
def Room (π : List Nat) (d : Nat) : Prop := ∃ k es, π = k :: es ∧ es.length + d = depth k

/-- A scan of the places `path 0`, `path 1`, ... finds them all taken and changes nothing, or fills
the first that is not. -/
def Held.Scanned (n : Nat) (s : Held) (path : Nat → List Nat) (cnt : Nat) :
    Option Nat → Held → Prop
  | none, s' => s' = s ∧ ∀ j < cnt, s.fs.vol.ref n (path j) ≠ none
  | some b, s' => s'.Synced n ∧ ∃ j < cnt, s.fs.vol.Fills n s'.fs.vol (path j) b ∧
      ∀ i < j, s.fs.vol.ref n (path i) ≠ none

section Room

variable {π : List Nat} {d : Nat}

theorem Room.snoc (h : Room π (d + 1)) (e : Nat) : Room (π ++ [e]) d := by
  obtain ⟨k, es, rfl, hlen⟩ := h
  refine ⟨k, es ++ [e], rfl, ?_⟩
  rw [length_append, length_singleton]
  omega

theorem Room.full {es : List Nat} (h : Room π es.length) : Full (π ++ es) := by
  obtain ⟨k, es', rfl, hlen⟩ := h
  rw [cons_append, full_cons, length_append]
  exact hlen

theorem Room.full_digits (h : Room π (d + 1)) (p j : Nat) : Full (π ++ digits p d j) := by
  apply Room.full
  rwa [digits_length]

theorem Room.fits (h : Room π d) : Fits π := by
  obtain ⟨k, es, rfl, hlen⟩ := h
  rw [fits_cons]
  omega

theorem Room.not_full (h : Room π (d + 1)) : ¬ Full π := by
  obtain ⟨k, es, rfl, hlen⟩ := h
  rw [full_cons]
  omega

theorem room_slot (d : Nat) : Room [12 + d] (d + 1) := by
  refine ⟨12 + d, [], rfl, ?_⟩
  unfold depth
  rw [length_nil]
  omega

end Room

section Scans

variable {n : Nat} {s : Held} {π : List Nat} {t : Nat} {indr : Bytes}

-- an entry of a table in memory
theorem ref_entry (hg : s.fs.geo.Ok) (hnode : s.fs.vol.ref n π = some (.blk t))
    (hindr : trim s.fs.geo.blocksz indr = s.fs.vol.data t) {e : Nat} (he : e < s.fs.geo.ppb) :
    s.fs.vol.ref n (π ++ [e]) = ptr (get32 indr (4 * e)) := by
  have hppb := hg.mounted.ppb_mul
  rw [ref_of_snoc hnode, next_blk, vol_geo, if_pos he, ← hindr, get32_trim _ (by omega)]

variable {i m d : Nat}

theorem fillLeaf_post (hs : s.Synced n) (hflush : s.fs.geo.FlushSafe)
    (hnode : s.fs.vol.ref n π = some (.blk t)) (hroom : Room π 1)
    (hindr : trim s.fs.geo.blocksz indr = s.fs.vol.data t)
    (hm : i + m = s.fs.geo.ppb) (hprev : ∀ j < i, s.fs.vol.ref n (π ++ [j]) ≠ none) :
    Post (fillLeaf n t m i indr) s
      (fun r s' => s.Scanned n (fun j => π ++ [j]) s.fs.geo.ppb r s' ∧ s.Taken n r s')
      (s.Stopped n) := by
  induction m generalizing i with
  | zero => exact Post.pure ⟨⟨rfl, fun j hj => hprev j (by omega)⟩, Held.taken_none n s⟩
  | succ m ih =>
    have hi : i < s.fs.geo.ppb := by omega
    unfold fillLeaf
    split
    · rename_i hzero
      refine Post.bind (newEntry_post hs hflush hnode (hroom.snoc i).fits hi hindr hzero) ?_
        fun _ _ h => h
      rintro new s' ⟨hplaced, -, hpaid⟩
      have hfull : Full (π ++ [i]) := hroom.full
      obtain ⟨hs', hfills⟩ := hplaced.leaf hs hfull
      exact Post.pure ⟨⟨hs', i, hi, hfills, hprev⟩,
        (hplaced.took_leaf hs hfull hpaid).taken_singleton⟩
    · rename_i hne
      apply ih (by omega)
      intro j hj
      by_cases hji : j = i
      · rw [hji, ref_entry hs.geo hnode hindr hi, ptr_of_ne hne]
        exact Option.some_ne_none _
      · exact hprev j (by omega)

theorem ensureTable_post (hs : s.Synced n) (hflush : s.fs.geo.FlushSafe)
    (hnode : s.fs.vol.ref n π = some (.blk t)) (hroom : Room π (d + 2))
    (hindr : trim s.fs.geo.blocksz indr = s.fs.vol.data t)
    (hi : i < s.fs.geo.ppb) :
    Post (ensureTable n t indr i) s
      (fun indr' s' => s'.Synced n ∧ s.fs.vol.Grows n s'.fs.vol ∧
        s'.fs.vol.ref n (π ++ [i]) = some (.blk (get32 indr' (4 * i))) ∧
        (s' = s ∧ indr' = indr ∨ ∀ x, s'.fs.vol.next (.blk (get32 indr' (4 * i))) x = none) ∧
        ∃ T, s.fs.vol.Took n s'.fs.vol T)
      (s.Stopped n) := by
  unfold ensureTable
  split
  · rename_i hzero
    refine Post.bind (newEntry_post hs hflush hnode (hroom.snoc i).fits hi hindr hzero) ?_
      fun _ _ h => h
    rintro ⟨b, indr'⟩ s₁ ⟨hplaced, hb, hpaid⟩
    obtain ⟨s₂, hrun, hs₂, hgrows, -, hvol, href⟩ := hplaced.table hs (hroom.snoc i).not_full
    apply Post.bind_ok hrun
    apply Post.pure
    rw [hb]
    refine ⟨hs₂, hgrows, href, Or.inr fun x => ?_, {b}, ?_⟩
    · rw [hvol]
      exact next_setData_zero _ _ _
    · rw [hvol]
      exact hplaced.took_table hs hpaid
  · rename_i hne
    refine Post.pure ⟨hs, Grows.refl n _, ?_, Or.inl ⟨rfl, rfl⟩, ∅, Took.refl n _⟩
    rw [ref_entry hs.geo hnode hindr hi, ptr_of_ne hne]

-- a table without entries leads nowhere
theorem ref_below_empty {v : Vol} {b : Nat} (href : v.ref n π = some (.blk b))
    (hempty : ∀ x, v.next (.blk b) x = none) (p d j : Nat) :
    v.ref n (π ++ digits p d j) = none := by
  have hdig : ∃ x xs, digits p d j = x :: xs := by
    cases d with
    | zero => exact ⟨_, _, rfl⟩
    | succ d => exact ⟨_, _, rfl⟩
  obtain ⟨x, xs, hdig⟩ := hdig
  rw [hdig, ← singleton_append, ← append_assoc]
  apply ref_append_none
  rw [ref_of_snoc href]
  exact hempty x

theorem fillNode_post {sub : Nat → Op Held (Option Nat)} (hs : s.Synced n)
    (hflush : s.fs.geo.FlushSafe)
    (hsub : ∀ s₁ π₁ t₁, s₁.Synced n → s₁.fs.geo = s.fs.geo → s₁.fs.vol.ref n π₁ = some (.blk t₁) →
      Room π₁ (d + 1) → Post (sub t₁) s₁
        (fun r s₂ => s₁.Scanned n (fun j => π₁ ++ digits s.fs.geo.ppb d j)
          (s.fs.geo.ppb ^ (d + 1)) r s₂ ∧ s₁.Taken n r s₂) (s₁.Stopped n))
    (hnode : s.fs.vol.ref n π = some (.blk t)) (hroom : Room π (d + 2))
    (hindr : trim s.fs.geo.blocksz indr = s.fs.vol.data t) (hm : i + m = s.fs.geo.ppb)
    (hprev : ∀ j < i * s.fs.geo.ppb ^ (d + 1),
      s.fs.vol.ref n (π ++ digits s.fs.geo.ppb (d + 1) j) ≠ none) :
    Post (fillNode sub n t m i indr) s
      (fun r s' => s.Scanned n (fun j => π ++ digits s.fs.geo.ppb (d + 1) j)
        (s.fs.geo.ppb ^ (d + 2)) r s' ∧ s.Taken n r s') (s.Stopped n) := by
  have hpow : s.fs.geo.ppb ^ (d + 2) = s.fs.geo.ppb * s.fs.geo.ppb ^ (d + 1) := by
    rw [Nat.pow_succ, Nat.mul_comm]
  have hqpos : 0 < s.fs.geo.ppb ^ (d + 1) := Nat.pow_pos hs.geo.toLayout.ppb_bounds.1
  have hpath : ∀ i j, j < s.fs.geo.ppb ^ (d + 1) →
      π ++ digits s.fs.geo.ppb (d + 1) (i * s.fs.geo.ppb ^ (d + 1) + j) =
        π ++ [i] ++ digits s.fs.geo.ppb d j := by
    intro i j hj
    rw [digits_mul_add hj, append_assoc, singleton_append]
  generalize hq : s.fs.geo.ppb ^ (d + 1) = q at *
  induction m generalizing i with
  | zero =>
    refine Post.pure ⟨⟨rfl, fun j hj => hprev j ?_⟩, Held.taken_none n s⟩
    rwa [show i = s.fs.geo.ppb by omega, ← hpow]
  | succ m ih =>
    have hi : i < s.fs.geo.ppb := by omega
    have hmul : (i + 1) * q ≤ s.fs.geo.ppb * q := Nat.mul_le_mul_right q hi
    have hsucc : (i + 1) * q = i * q + q := Nat.succ_mul i q
    refine Post.bind (ensureTable_post hs hflush hnode hroom hindr hi) ?_ fun _ _ h => h
    rintro indr₁ s₁ ⟨hs₁, hgrows, href, hwhich, T, htook⟩
    have hgeo₁ : s₁.fs.geo = s.fs.geo := hgrows.geo
    refine Post.bind (hsub s₁ _ _ hs₁ hgeo₁ href (hroom.snoc i)) ?_
      fun _ _ h => h.after hgrows htook
    rintro (_ | b) s₂ ⟨hscan, htaken'⟩
    · -- every place below the entry is taken, so the table was there
      obtain ⟨rfl, htaken⟩ := hscan
      rcases hwhich with ⟨rfl, rfl⟩ | hempty
      · apply ih (by omega)
        intro j hj
        by_cases hjq : j < i * q
        · exact hprev j hjq
        · have hrest := htaken (j - i * q) (by omega)
          beta_reduce at hrest
          rwa [← hpath i (j - i * q) (by omega), Nat.add_sub_cancel' (by omega)] at hrest
      · exfalso
        apply htaken 0 hqpos
        exact ref_below_empty href hempty _ _ _
    · -- the block was placed below the entry
      obtain ⟨hs₂, j, hj, hfills, hlow⟩ := hscan
      refine Post.pure ⟨⟨hs₂, i * q + j, by omega, ?_, ?_⟩, htook.taken htaken'⟩
      · beta_reduce
        rw [hpath i j hj]
        exact hgrows.fills hs.live hfills
      · intro j' hj'
        by_cases hjq : j' < i * q
        · exact hprev j' hjq
        have hfull : Full (π ++ [i] ++ digits s.fs.geo.ppb d (j' - i * q)) :=
          (hroom.snoc i).full_digits _ _
        have hrest := hlow (j' - i * q) (by omega)
        beta_reduce at hrest
        rw [hgrows.refs n _ hs.live hfull] at hrest
        rwa [← hpath i (j' - i * q) (by omega), Nat.add_sub_cancel' (by omega)] at hrest

theorem run_readTable (hs : s.Synced n) (hnode : s.fs.vol.ref n π = some (.blk t))
    (hfits : Fits π) :
    (onFs (readIndr t)).run s = .ok (s.fs.block t) s ∧
      trim s.fs.geo.blocksz (s.fs.block t) = s.fs.vol.data t := by
  have hdata := (hs.sound.owned n π t hs.live hfits hnode).1
  refine ⟨?_, (vol_data hdata).symm⟩
  apply run_onFs_of_ok
  unfold readIndr
  rw [if_neg hdata.ne_zero]
  exact hs.geo.run_rdblk hdata.2.1

/-- The scan of a table: the first hole below it is filled. -/
theorem fill_post (d : Nat) (hs : s.Synced n) (hflush : s.fs.geo.FlushSafe)
    (hnode : s.fs.vol.ref n π = some (.blk t)) (hroom : Room π (d + 1)) :
    Post (fill n d t) s
      (fun r s' => s.Scanned n (fun j => π ++ digits s.fs.geo.ppb d j)
        (s.fs.geo.ppb ^ (d + 1)) r s' ∧ s.Taken n r s') (s.Stopped n) := by
  induction d generalizing s π t with
  | zero =>
    obtain ⟨hrun, hindr⟩ := run_readTable hs hnode hroom.fits
    apply Post.get_bind
    apply Post.bind_ok hrun
    rw [Nat.pow_one]
    exact fillLeaf_post hs hflush hnode hroom hindr (Nat.zero_add _) fun j hj => by omega
  | succ d ih =>
    obtain ⟨hrun, hindr⟩ := run_readTable hs hnode hroom.fits
    apply Post.get_bind
    apply Post.bind_ok hrun
    refine fillNode_post hs hflush ?_ hnode hroom hindr (Nat.zero_add _) fun j hj => by omega
    intro s₁ π₁ t₁ hs₁ hgeo₁ hnode₁ hroom₁
    rw [← hgeo₁] at hflush ⊢
    exact ih hs₁ hflush hnode₁ hroom₁

theorem ensureSlot_post (hs : s.Synced n) (hflush : s.fs.geo.FlushSafe) (hd : d < 3) :
    Post (ensureSlot n (12 + d)) s
      (fun _ s' => s'.Synced n ∧ s.fs.vol.Grows n s'.fs.vol ∧
        s'.fs.vol.ref n [12 + d] = some (.blk (iBlock s'.inod (12 + d))) ∧
        (s' = s ∨ ∀ x, s'.fs.vol.next (.blk (iBlock s'.inod (12 + d))) x = none) ∧
        ∃ T, s.fs.vol.Took n s'.fs.vol T)
      (s.Stopped n) := by
  have hslot : ∀ {s : Held}, s.Synced n →
      s.fs.vol.ref n [12 + d] = ptr (iBlock s.inod (12 + d)) := by
    intro s hs
    rw [ref_slot _ _ (by omega), hs.inod]
  apply Post.get_bind
  split
  · rename_i hzero
    refine Post.bind (newSlot_post hs hflush (by omega) hzero) ?_ fun _ _ h => h
    rintro b s₁ ⟨hplaced, hpaid⟩
    obtain ⟨s₂, hrun, hs₂, hgrows, -, hvol, href⟩ := hplaced.table hs (room_slot d).not_full
    refine Post.of_ok hrun ?_
    have htook := hplaced.took_table hs hpaid
    rw [← hvol] at htook
    rw [nil_append] at href
    have hblk := hslot hs₂
    rw [href] at hblk
    obtain ⟨hb, -⟩ := ptr_eq_some hblk.symm
    cases hb
    refine ⟨hs₂, hgrows, href, Or.inr fun x => ?_, _, htook⟩
    rw [hvol]
    exact next_setData_zero _ _ _
  · rename_i hne
    refine Post.pure ⟨hs, Grows.refl n _, ?_, Or.inl rfl, ∅, Took.refl n _⟩
    rw [hslot hs, ptr_of_ne hne]

/-- The result of `ino_allocblk`: the block is at the lowest hole. -/
def Held.Lowest (n : Nat) (s : Held) (b : Nat) (s' : Held) : Prop :=
  s'.Synced n ∧ ∃ h < s.fs.geo.fileBlocks, ∃ k es, s.fs.geo.blkPath h = some (k, es) ∧
    s.fs.vol.Fills n s'.fs.vol (k :: es) b ∧ ∀ i < h, s.fs.vol.blockAt n i ≠ none

theorem fillSlots_post (hs : s.Synced n) (hflush : s.fs.geo.FlushSafe) (hm : d + m = 3)
    (hprev : ∀ i < s.fs.geo.slotBase d, s.fs.vol.blockAt n i ≠ none) :
    Post (fillSlots n m d) s (fun b s' => s.Lowest n b s' ∧ s.Taken n (some b) s')
      (s.Stopped n) := by
  have hbase : ∀ d < 3, s.fs.geo.slotBase (d + 1) ≤ s.fs.geo.fileBlocks := by
    intro d hd
    rcases (by omega : d = 0 ∨ d = 1 ∨ d = 2) with rfl | rfl | rfl
    · exact (Geo.slotBase_mono 1).trans (Geo.slotBase_mono 2)
    · exact Geo.slotBase_mono 2
    · exact Nat.le_refl _
  induction m generalizing d with
  | zero => exact Post.fail ⟨⟨hs, Grows.refl n _⟩, ∅, _, Took.refl n _, Or.inl rfl⟩
  | succ m ih =>
    have hd : d < 3 := by omega
    have hnext : s.fs.geo.slotBase (d + 1) = s.fs.geo.slotBase d + s.fs.geo.ppb ^ (d + 1) := rfl
    have hat : ∀ j < s.fs.geo.ppb ^ (d + 1), s.fs.vol.blockAt n (s.fs.geo.slotBase d + j) =
        s.fs.vol.ref n ([12 + d] ++ digits s.fs.geo.ppb d j) :=
      fun j hj => blockAt_of_path (hs.geo.toLayout.blkPath_slot hd hj)
    refine Post.bind (ensureSlot_post hs hflush hd) ?_ fun _ _ h => h
    rintro _ s₁ ⟨hs₁, hgrows, href, hwhich, T, htook⟩
    have hgeo₁ : s₁.fs.geo = s.fs.geo := hgrows.geo
    apply Post.get_bind
    have hfill := fill_post d hs₁ (hgeo₁ ▸ hflush) href (room_slot d)
    rw [hgeo₁] at hfill
    refine Post.bind hfill ?_ fun _ _ h => h.after hgrows htook
    rintro (_ | b) s₂ ⟨hscan, htaken'⟩
    · -- every place of the slot is taken, so its table was there
      obtain ⟨rfl, htaken⟩ := hscan
      rcases hwhich with rfl | hempty
      · apply ih (by omega)
        intro i hi
        by_cases hid : i < s₂.fs.geo.slotBase d
        · exact hprev i hid
        · have hrest := htaken (i - s₂.fs.geo.slotBase d) (by omega)
          beta_reduce at hrest
          rwa [← hat _ (by omega), Nat.add_sub_cancel' (by omega)] at hrest
      · exfalso
        apply htaken 0 (Nat.pow_pos hs.geo.toLayout.ppb_bounds.1)
        exact ref_below_empty href hempty _ _ _
    · obtain ⟨hs₂, j, hj, hfills, hlow⟩ := hscan
      have hle := hbase d hd
      refine Post.pure ⟨⟨hs₂, s.fs.geo.slotBase d + j, by omega, 12 + d,
        digits s.fs.geo.ppb d j, hs.geo.toLayout.blkPath_slot hd hj,
        hgrows.fills hs.live hfills, ?_⟩, htook.taken htaken'⟩
      intro i hi
      by_cases hid : i < s.fs.geo.slotBase d
      · exact hprev i hid
      · have hrest := hlow (i - s.fs.geo.slotBase d) (by omega)
        beta_reduce at hrest
        rw [hgrows.refs n _ hs.live ((room_slot d).full_digits _ _)] at hrest
        rwa [← hat _ (by omega), Nat.add_sub_cancel' (by omega)] at hrest

/-- `ino_allocblk` fills the lowest hole, and all that it takes is marked, linked and counted; if it
fails, the data blocks of the files are as before. -/
theorem inoAllocblk_took (hs : s.Synced n) (hflush : s.fs.geo.FlushSafe) :
    Post (inoAllocblk n) s (fun b s' => s.Lowest n b s' ∧ s.Taken n (some b) s')
      (s.Stopped n) := by
  have hslot : ∀ i < 12, s.fs.vol.blockAt n i = ptr (iBlock s.inod i) := by
    intro i hi
    rw [blockAt_of_path (Geo.blkPath_of_lt hi), ref_slot _ _ (by omega), hs.inod]
  apply Post.get_bind
  split
  · rename_i i hfind
    obtain ⟨hzero, hi, hbefore⟩ := List.find?_range_eq_some.mp hfind
    rw [beq_iff_eq] at hzero
    rw [mem_range] at hi
    have hfull : Full ([] ++ [i]) := by
      rw [nil_append, full_cons]
      unfold depth
      rw [length_nil]
      omega
    refine Post.mono (newSlot_post hs hflush (by omega) hzero) ?_ fun _ _ h => h
    rintro b s' ⟨hplaced, hpaid⟩
    obtain ⟨hs', hfills⟩ := hplaced.leaf hs hfull
    obtain ⟨-, -, -, hblocks⟩ := @Geo.slotBase_eq s.fs.geo
    refine ⟨⟨hs', i, by omega, i, [], Geo.blkPath_of_lt hi, hfills, ?_⟩,
      (hplaced.took_leaf hs hfull hpaid).taken_singleton⟩
    intro j hj
    rw [hslot j (by omega), ptr_of_ne (by simpa using hbefore j hj)]
    exact Option.some_ne_none _
  · rename_i hfind
    apply fillSlots_post hs hflush rfl
    intro i hi
    have hne : iBlock s.inod i ≠ 0 := by
      simpa using List.find?_eq_none.mp hfind i (mem_range.mpr hi)
    rw [hslot i hi, ptr_of_ne hne]
    exact Option.some_ne_none _

theorem inoAllocblk_post (hs : s.Synced n) (hflush : s.fs.geo.FlushSafe) :
    Post (inoAllocblk n) s (s.Lowest n) (s.Grew n) :=
  (inoAllocblk_took hs hflush).mono (fun _ _ h => h.1) fun _ _ h => h.1

end Scans

end Ext2
