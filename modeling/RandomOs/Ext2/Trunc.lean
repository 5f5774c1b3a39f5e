import RandomOs.Ext2.File

/-!
# Taking blocks from a file (`ext2.c`)

`ino_freeblk` frees the block of an index.  On the way back it frees every table that has become
empty, and writes the first one that has not.
-/

namespace Ext2

open Lib Bytes Kern List Vol
open Op (Post)

/-! ## Model -/

def membeq (ptr : Bytes) (b : UInt8) (sz : Nat) : Bool := (List.range sz).all fun i => ptr i == b

-- `i_blocks -= spb`, but not below 0
def Held.subBlocks (s : Held) : Held :=
  { s with inod := put32 s.inod 28 (get32 s.inod 28 - s.fs.geo.spb) }

/-- What happened at a pointer: there was no block, the table was written, or the pointer has to be
cleared. -/
inductive Freed
  | nothing
  | kept
  | gone

/-- Frees `p`, which is in use. -/
def dropBlock (p : Nat) : Op Held Freed := do
  onFs (freeblk p)
  modify Held.subBlocks
  pure .gone

/-- Frees the block that is reached from `p` through the entries. -/
def freePath : Nat → List Nat → Op Held Freed
  | p, [] => if p = 0 then pure .nothing else dropBlock p
  | p, e :: es => do
      let indr ← onFs (readIndr p)
      let r ← freePath (get32 indr (4 * e)) es
      match r with
      | .nothing => pure .nothing
      | .kept => pure .kept
      | .gone => do
          let s ← get
          if membeq (put32 indr (4 * e) 0) 0 s.fs.geo.blocksz then dropBlock p
          else do
            onFs (wrblk p (put32 indr (4 * e) 0))
            pure .kept

def flushHeld (ino : Nat) : Op Held Unit := do
  let s ← get
  onFs (flushInode ino s.inod)

def inoFreeblk (ino idx : Nat) : Op Held Unit := do
  let s ← get
  match s.fs.geo.blkPath idx with
  | none => Op.fault
  | some (k, es) => do
      let r ← freePath (iBlock s.inod k) es
      match r with
      | .nothing => pure ()
      | .kept => flushHeld ino
      | .gone => do
          modify (·.setBlock k 0)
          flushHeld ino

/-- The blocks of a file, `m` of them from index `i` on. -/
def freeLoop (ino : Nat) : (m i : Nat) → Op Held Unit
  | 0, _ => pure ()
  | m + 1, i => do
      inoFreeblk ino i
      freeLoop ino m (i + 1)

-- `nblks`
def Geo.sizeBlocks (g : Geo) (inod : Bytes) : Nat :=
  (g.getisize inod + (g.blocksz - 1)) % 2 ^ 64 / g.blocksz

def ext2fsTrunc (ino : Nat) : Op Ext2fs Unit := do
  let inod ← getino ino
  let fs ← get
  let _ ← withInode inod (freeLoop ino (fs.geo.sizeBlocks inod) 0)
  let inod ← getino ino
  -- `i_size` and `i_dir_acl`
  flushInode ino (put32 (put32 inod 4 0) 108 0)

def ext2fsRmino (ino : Nat) : Op Ext2fs Unit := do
  let inod ← getino ino
  let fs ← get
  let _ ← withInode inod (freeLoop ino (fs.geo.sizeBlocks inod) 0)
  let inobg := fs.geo.inoGrp ino
  modify (·.giveInode inobg)
  let _ ← modbmp (fs.geo.inodeBitmap inobg) (fs.geo.inoPos ino) .clr
  flushInode ino zero
  flushBgs
  flushSbs

/-! ## Freeing a block -/

/-- Below the place there is nothing but what is on the path. -/
def Vol.Alone (v : Vol) (n : Nat) (path π : List Nat) : Prop :=
  ∀ ρ, π <+: ρ → Fits ρ → v.ref n ρ ≠ none → ρ <+: path

variable {x e n : Nat} {π : List Nat}

-- the next entry of a path
theorem entry_unique {path : List Nat} (hx : π ++ [x] <+: path)
    (he : π ++ [e] <+: path) : x = e := by
  obtain ⟨σ, rfl⟩ := he
  have hle : (π ++ [x]).length ≤ (π ++ [e]).length := by
    rw [length_append, length_append]
    exact Nat.le_refl _
  have hpre := prefix_of_prefix_length_le hx (prefix_append (π ++ [e]) σ) hle
  have heq := append_cancel_left (hpre.eq_of_length (by simp))
  exact singleton_inj.mp heq

theorem fits_snoc (h : Fits (π ++ [e])) : Fits (π ++ [x]) := by
  cases π with
  | nil => exact Nat.zero_le _
  | cons k π =>
    rw [cons_append, fits_cons, length_append] at h ⊢
    exact h

section Alone

variable {v : Vol} {n : Nat} {path π : List Nat}

theorem Vol.Alone.mono (h : v.Alone n path π) {π' : List Nat} (hpre : π <+: π') :
    v.Alone n path π' := fun ρ hρ => h ρ (hpre.trans hρ)

-- nothing is below a data block
theorem Vol.alone_of_full (hfull : Full path) : v.Alone n path path := by
  rintro ρ ⟨σ, rfl⟩ hfits _
  cases σ with
  | nil => rw [append_nil]
  | cons x σ =>
    rw [← singleton_append, ← append_assoc] at hfits
    exact absurd hfits.of_append (hfull.not_fits x)

section Table

variable {p e : Nat} (href : v.ref n π = some (.blk p)) (hpre : π ++ [e] <+: path)
include href hpre

theorem Vol.Alone.of_table (halone : v.Alone n path (π ++ [e]))
    (hrest : ∀ x, x ≠ e → v.next (.blk p) x = none) : v.Alone n path π := by
  rintro ρ ⟨σ, rfl⟩ hfits hsome
  cases σ with
  | nil =>
    rw [append_nil]
    exact (prefix_append π [e]).trans hpre
  | cons x σ =>
    rw [← singleton_append, ← append_assoc] at hfits hsome ⊢
    by_cases hx : x = e
    · subst hx
      exact halone _ (prefix_append _ σ) hfits hsome
    · exact absurd (ref_append_none (by rw [ref_of_snoc href, hrest x hx])) hsome

theorem Vol.not_alone_of_table (hfits : Fits (π ++ [e])) (hx : x ≠ e)
    (hnext : v.next (.blk p) x ≠ none) : ¬ v.Alone n path π := by
  intro halone
  have hsome : v.ref n (π ++ [x]) ≠ none := by
    rw [ref_of_snoc href]
    exact hnext
  exact hx (entry_unique (halone _ (prefix_append π [x]) (fits_snoc hfits) hsome) hpre)

omit href hpre in
theorem Vol.Below.of_snoc {d : Node} (h : v.Below n (π ++ [e]) d) : v.Below n π d := by
  obtain ⟨ρ, hpre, hρ, href⟩ := h
  exact ⟨ρ, (List.prefix_append π [e]).trans hpre, hρ, href⟩

/-- What is below a table on the path, if that is all on the path. -/
theorem Vol.Alone.below_table (halone : v.Alone n path π) (hfits : Fits π) (b : Nat) :
    v.Below n π (.blk b) ↔ b = p ∨ v.Below n (π ++ [e]) (.blk b) := by
  constructor
  · rintro ⟨ρ, ⟨σ, rfl⟩, hρ, hb⟩
    cases σ with
    | nil =>
      rw [append_nil, href] at hb
      cases hb
      exact Or.inl rfl
    | cons x σ =>
      right
      have hpath := halone _ (prefix_append π (x :: σ)) hρ (by rw [hb]; nofun)
      rw [← singleton_append, ← append_assoc] at hpath hρ hb
      obtain rfl := entry_unique ((prefix_append (π ++ [x]) σ).trans hpath) hpre
      exact ⟨_, prefix_append _ σ, hρ, hb⟩
  · rintro (rfl | hbelow)
    · exact ⟨π, prefix_refl π, hfits, href⟩
    · exact hbelow.of_snoc

end Table

-- below a data block there is only the block
theorem Vol.below_full {p : Nat} (hfull : Full path) (href : v.ref n path = some (.blk p))
    (b : Nat) : v.Below n path (.blk b) ↔ b = p := by
  constructor
  · rintro ⟨ρ, hpre, hρ, hb⟩
    have hback : ρ <+: path := alone_of_full hfull ρ hpre hρ (by rw [hb]; nofun)
    obtain rfl := hpre.eq_of_length (Nat.le_antisymm hpre.length_le hback.length_le)
    rw [href] at hb
    cases hb
    rfl
  · rintro rfl
    exact ⟨path, prefix_refl path, hfull.fits, href⟩

end Alone

/-! ## Where the freeing stops -/

/-- Entry `e` of the node `c` at `τ` is cleared, and what was below it is free. -/
structure Vol.Cut (v v' : Vol) (n : Nat) (path τ : List Nat) (e : Nat) (c : Node) : Prop where
  node : v.ref n τ = some c
  on_path : τ ++ [e] <+: path
  alone : v.Alone n path (τ ++ [e])
  shared : τ ≠ [] → ¬ v.Alone n path τ
  geo : v'.geo = v.geo
  marked : ∀ b, v'.marked b = true ↔ v.marked b = true ∧ ¬ v.Below n (τ ++ [e]) (.blk b)
  entry : v'.next c e = none
  rest : ∀ d x, ¬ (d = c ∧ x = e) → ¬ v.Below n (τ ++ [e]) d → v'.next d x = v.next d x

section Free

variable {n e p k : Nat} {s s₁ : Held} {path π : List Nat}

variable {inod indr : Bytes} {v : Vol} {c : Node} {es : List Nat}

theorem Vol.Cut.sound {v' : Vol} (h : v.Cut v' n path π e c) (hfull : Full path)
    (hv : v.Sound) (hn : v.Live n) (hlive : ∀ m, v'.Live m ↔ v.Live m) : v'.Sound := by
  have hdrops : v.Drops v' n (π ++ [e]) := by
    refine ⟨h.geo, hlive, fun b hb => ?_⟩
    by_cases hbelow : v.Below n (π ++ [e]) (.blk b)
    · exact Or.inr hbelow
    · exact Or.inl ((h.marked b).mpr ⟨hb, hbelow⟩)
  exact hdrops.sound hv hn (hfull.fits.of_prefix h.on_path) h.node h.entry h.rest

-- a new `i_blocks` changes no pointer
theorem Vol.Cut.flush {v₁ : Vol} {τ : List Nat}
    (h : s.fs.vol.Cut v₁ n path τ e c)
    (hslots : ∀ k < 15, iBlock inod k = iBlock (v₁.inode n) k) :
    s.fs.vol.Cut (v₁.setInode n inod) n path τ e c := by
  have hnext : (v₁.setInode n inod).next = v₁.next := by
    funext d x
    cases d with
    | blk b => rfl
    | ino m =>
      rw [next_ino, next_ino, setInode_inode]
      by_cases hx : x < 15
      · rw [if_pos hx]
        split
        · rename_i hm
          rw [hm, ← hslots x hx]
          unfold iBlock
          rw [get32_trim _ (by omega)]
        · rfl
      · rw [if_neg hx, if_neg hx]
  refine ⟨h.node, h.on_path, h.alone, h.shared, h.geo, h.marked, ?_, ?_⟩
  · rw [hnext]
    exact h.entry
  · rw [hnext]
    exact h.rest

/-! ## The way back through the tables -/

/-- The inodes are the same, and the copy but for `i_blocks`. -/
structure Held.SameInodes (s s' : Held) : Prop where
  geo : s'.fs.geo = s.fs.geo
  inUse : s'.fs.vol.inUse = s.fs.vol.inUse
  inode : s'.fs.vol.inode = s.fs.vol.inode
  inod : ∀ i, i < 28 ∨ 32 ≤ i → s'.inod i = s.inod i

/-- The blocks below the place are free, and nothing else has changed. -/
structure Held.Cleared (n : Nat) (π : List Nat) (s s' : Held) : Prop extends s.SameInodes s' where
  marked : ∀ b, s'.fs.vol.marked b = true ↔
    s.fs.vol.marked b = true ∧ ¬ s.fs.vol.Below n π (.blk b)
  data : ∀ b, ¬ s.fs.vol.Below n π (.blk b) → s'.fs.vol.data b = s.fs.vol.data b

def Held.Outcome (n : Nat) (path π : List Nat) (s : Held) : Freed → Held → Prop
  | .nothing, s' => s' = s ∧ s.fs.vol.ref n path = none
  | .kept, s' => s.SameInodes s' ∧ ∃ τ e b, s.fs.vol.Cut s'.fs.vol n path τ e (.blk b)
  | .gone, s' => s.Cleared n π s' ∧ s.fs.vol.Alone n path π ∧ s.fs.vol.ref n path ≠ none

theorem membeq_table (hg : v.geo.Ok) (hindr : trim v.geo.blocksz indr = v.data p) :
    membeq (put32 indr (4 * e) 0) 0 v.geo.blocksz = true ↔
      ∀ x, x ≠ e → v.next (.blk p) x = none := by
  have hppb := hg.mounted.ppb_mul
  have hword : ∀ x < v.geo.ppb, x ≠ e →
      get32 (put32 indr (4 * e) 0) (4 * x) = get32 (v.data p) (4 * x) := by
    intro x hx hne
    rw [get32_put32_of_ne (by omega), ← hindr, get32_trim _ (by omega)]
  unfold membeq
  rw [all_eq_true]
  constructor
  · intro hall x hx
    rw [next_blk]
    split
    · rename_i hlt
      have hzero : get32 (put32 indr (4 * e) 0) (4 * x) = get32 zero (4 * x) := by
        apply get32_congr
        intro i hi
        exact eq_of_beq (hall _ (mem_range.mpr (by omega)))
      rw [← hword x hlt hx, hzero]
      rfl
    · rfl
  · intro hrest i hi
    rw [mem_range] at hi
    have hdiv := Nat.div_add_mod i 4
    -- the word that the byte is in
    have hzero : get32 (put32 indr (4 * e) 0) (4 * (i / 4)) = 0 := by
      by_cases hx : i / 4 = e
      · rw [hx, get32_put32]
        rfl
      have hlt : i / 4 < v.geo.ppb := by omega
      have hnone := hrest (i / 4) hx
      rw [next_blk, if_pos hlt] at hnone
      rw [hword _ hlt hx]
      exact ptr_eq_none.mp hnone
    rw [beq_iff_eq, ← hdiv]
    apply UInt8.toNat_inj.mp
    rw [UInt8.toNat_zero]
    unfold get32 get16 at hzero
    rcases (by omega : i % 4 = 0 ∨ i % 4 = 1 ∨ i % 4 = 2 ∨ i % 4 = 3) with h | h | h | h <;>
      rw [h] <;> simp only [Nat.add_assoc, Nat.reduceAdd, Nat.add_zero] at hzero ⊢ <;> omega

/-- A table loses one entry, and what was below the entry may be gone. -/
theorem Held.Cleared.next_table (h : s.Cleared n (π ++ [e]) s₁)
    (hg : s.fs.geo.Ok) (he : e < s.fs.geo.ppb)
    (hindr : trim s.fs.geo.blocksz indr = s.fs.vol.data p) :
    (s₁.fs.vol.setData p (put32 indr (4 * e) 0)).next (.blk p) e = none ∧
    ∀ d x, ¬ (d = .blk p ∧ x = e) → ¬ s.fs.vol.Below n (π ++ [e]) d →
      (s₁.fs.vol.setData p (put32 indr (4 * e) 0)).next d x = s.fs.vol.next d x := by
  have hppb := hg.mounted.ppb_mul
  have hgeo : s₁.fs.vol.geo = s.fs.vol.geo := h.geo
  have hbs : s₁.fs.vol.geo.blocksz = s.fs.geo.blocksz := congrArg Geo.blocksz h.geo
  have hentry : ∀ x < s.fs.geo.ppb,
      get32 (trim s₁.fs.vol.geo.blocksz (put32 indr (4 * e) 0)) (4 * x) =
        if x = e then 0 else get32 (s.fs.vol.data p) (4 * x) := by
    intro x hx
    rw [get32_trim _ (by omega)]
    split
    · rename_i hxe
      rw [hxe, get32_put32]
      rfl
    · rw [get32_put32_of_ne (by omega), ← hindr, get32_trim _ (by omega)]
  constructor
  · rw [next_blk, setData_data, if_pos rfl, setData_geo, hgeo]
    change (if e < s.fs.geo.ppb then _ else _) = _
    rw [if_pos he, ← hgeo, hentry e he, if_pos rfl]
    rfl
  · intro d x hne hbelow
    cases d with
    | ino m => rw [next_ino, next_ino, setData_inode, h.inode]
    | blk q =>
      rw [next_blk, next_blk, setData_data, setData_geo, hgeo]
      by_cases hx : x < s.fs.vol.geo.ppb
      · by_cases hq : q = p
        · subst hq
          have hxe : x ≠ e := fun hxe => hne ⟨rfl, hxe⟩
          rw [if_pos rfl, ← hgeo, hentry x hx, if_neg hxe]
        · rw [if_neg hq, h.data q hbelow]
      · rw [if_neg hx, if_neg hx]

/-- The last block to be freed at a place, after those in `L`. -/
theorem dropBlock_cleared (hg : s.fs.geo.Ok) (hflush : s.fs.geo.FlushSafe)
    (hmapped : s.fs.vol.ref n path ≠ none)
    (hdata : s.fs.geo.IsData p) {L : Nat → Prop}
    (hbelow : ∀ b, s.fs.vol.Below n π (.blk b) ↔ b = p ∨ L b) (hsame : s.SameInodes s₁)
    (hmarked : ∀ b, s₁.fs.vol.marked b = true ↔ s.fs.vol.marked b = true ∧ ¬ L b)
    (hbytes : ∀ b, ¬ L b → s₁.fs.vol.data b = s.fs.vol.data b) (halone : s.fs.vol.Alone n path π) :
    Post (dropBlock p) s₁ (s.Outcome n path π) (fun _ _ => ¬ s.fs.geo.FlushFits) := by
  have hg₁ : s₁.fs.geo.Ok := by
    rw [hsame.geo]
    exact hg
  have hdata₁ : s₁.fs.geo.IsData p := by
    rw [hsame.geo]
    exact hdata
  rw [← hsame.geo] at hflush ⊢
  refine post_onFs_bind (freeblk_post hg₁ hflush hdata₁) ?_ fun _ _ h => h
  intro _ fs' hvol
  apply Post.modify_bind
  apply Post.pure
  refine ⟨⟨⟨?_, ?_, ?_, ?_⟩, ?_, ?_⟩, halone, hmapped⟩
  · exact (congrArg geo hvol).trans hsame.geo
  · exact (congrArg inUse hvol).trans hsame.inUse
  · exact (congrArg inode hvol).trans hsame.inode
  · intro i hi
    change put32 s₁.inod 28 _ i = _
    rw [put32_of_ne (by omega), hsame.inod i hi]
  · intro b
    change fs'.vol.marked b = true ↔ _
    rw [hvol, mark_marked, hbelow]
    by_cases hbp : b = p
    · simp [hbp]
    · rw [if_neg hbp, setData_marked, hmarked]
      simp [hbp]
  · intro b hb
    change fs'.vol.data b = _
    rw [hbelow, not_or] at hb
    rw [hvol, mark_data, setData_data, if_neg hb.1, hbytes b hb.2]

theorem freePath_outcome (hg : s.fs.geo.Ok) (hflush : s.fs.geo.FlushSafe) (ht : s.fs.vol.Tree n)
    (hfull : Full path) (hleaf : ∀ b, s.fs.vol.ref n path = some (.blk b) → s.fs.geo.IsData b)
    (hpath : π ++ es = path) (hes : ∀ e ∈ es, e < s.fs.geo.ppb) (href : s.fs.vol.ref n π = ptr p) :
    Post (freePath p es) s (s.Outcome n path π) (fun _ _ => ¬ s.fs.geo.FlushFits) := by
  induction es generalizing π p with
  | nil =>
    rw [append_nil] at hpath
    subst hpath
    unfold freePath
    split
    · rename_i hzero
      exact Post.pure ⟨rfl, by rw [href, ptr_eq_none.mpr hzero]⟩
    rename_i hp
    rw [ptr_of_ne hp] at href
    refine dropBlock_cleared hg hflush (by rw [href]; nofun) (hleaf p href)
      (L := fun _ => False) ?_ ⟨rfl, rfl, rfl, fun _ _ => rfl⟩ (fun b => by simp) (fun _ _ => rfl)
      (alone_of_full hfull)
    intro b
    rw [below_full hfull href, or_false]
  | cons e es ih =>
    have happ : π ++ [e] ++ es = path := by
      rw [append_assoc, singleton_append, hpath]
    have hpre : π ++ [e] <+: path := ⟨es, happ⟩
    have hfits' : Fits (π ++ [e]) := hfull.fits.of_prefix hpre
    have he := hes e mem_cons_self
    obtain ⟨indr, hread, hindr, hentry⟩ := ht.run_readIndr hg hfits' he href
    apply Post.bind_ok (run_onFs_of_ok hread)
    refine Post.bind (ih happ (fun x hx => hes x (mem_cons_of_mem _ hx)) hentry) ?_ fun _ _ h => h
    intro r s₁ hr
    cases r with
    | nothing => exact Post.pure hr
    | kept => exact Post.pure hr
    | gone =>
      obtain ⟨hcleared, halone, hmapped⟩ := hr
      -- the table is there, since the path goes on
      have hp : p ≠ 0 := by
        intro hzero
        apply hmapped
        rw [← hpath, ref_append_none (by rw [href, ptr_eq_none.mpr hzero])]
      rw [ptr_of_ne hp] at href
      have hdata := ht.tables π p hfits'.of_append (fun hfull => hfull.not_fits e hfits') href
      apply Post.get_bind
      rw [show s₁.fs.geo.blocksz = s.fs.vol.geo.blocksz from congrArg Geo.blocksz hcleared.geo]
      have htable := membeq_table (v := s.fs.vol) (e := e) hg (hindr hp)
      split
      · -- the table goes as well
        rename_i hempty
        have halone' := halone.of_table href hpre (htable.mp hempty)
        exact dropBlock_cleared hg hflush hmapped hdata
          (halone'.below_table href hpre hfits'.of_append) hcleared.toSameInodes
          hcleared.marked hcleared.data halone'
      · -- the table has another entry
        rename_i hnot
        rw [htable] at hnot
        obtain ⟨x, hx⟩ := not_forall.mp hnot
        obtain ⟨hne, hnext⟩ := Classical.not_imp.mp hx
        have hdata₁ : s₁.fs.geo.IsData p := by
          rw [hcleared.geo]
          exact hdata
        have hg₁ : s₁.fs.geo.Ok := by
          rw [hcleared.geo]
          exact hg
        apply Post.bind_ok (run_onFs_of_ok (run_wrblk hdata₁.2.1 _))
        apply Post.pure
        have hvol := vol_putBlock_data hg₁ hdata₁ (put32 indr (4 * e) 0)
        obtain ⟨hnone, hrest⟩ := hcleared.next_table hg he (hindr hp)
        refine ⟨⟨hcleared.geo, ?_, ?_, hcleared.inod⟩, π, e, p, ?_⟩
        · exact (congrArg inUse hvol).trans hcleared.inUse
        · exact (congrArg inode hvol).trans hcleared.inode
        rw [hvol]
        exact ⟨href, hpre, halone,
          fun _ => not_alone_of_table href hpre hfits' hne hnext, hcleared.geo,
          hcleared.marked, hnone, hrest⟩

/-- The copy goes back to the device, if it differs from what is there in the slots at most. -/
theorem run_flushHeld (hg : s₁.fs.geo.Ok) (hused : s₁.fs.vol.inUse n = true) {inod : Bytes}
    (hinod : ∀ i, 100 ≤ i → inod i = s₁.fs.vol.inode n i) :
    ∃ fs', (flushHeld n).run ⟨s₁.fs, inod⟩ = .ok () ⟨fs', inod⟩ ∧
      fs'.vol = s₁.fs.vol.setInode n inod ∧ fs'.vol.inode n = inod := by
  obtain ⟨fs', hrun, hvol⟩ := run_flushInode hg hused inod
  refine ⟨fs', run_onFs_of_ok hrun, hvol, ?_⟩
  rw [hvol, setInode_inode, if_pos rfl]
  funext i
  by_cases hi : i < 128
  · exact trim_apply _ hi
  · rw [trim_of_ge _ (by omega), hinod i (by omega), ← trim_inode hused, trim_of_ge _ (by omega)]

-- the slots of the copy after slot `k` is cleared
theorem Held.SameInodes.iBlock_setBlock (hinod : s.inod = s.fs.vol.inode n)
    (hsame : s.SameInodes s₁) {j : Nat} (hj : j < 15) : iBlock (trim 128 (s₁.setBlock k 0).inod) j =
      if j = k then 0 else iBlock (s.fs.vol.inode n) j := by
  unfold Held.setBlock iBlock
  rw [get32_trim _ (by omega)]
  split
  · rename_i hjk
    rw [hjk, get32_put32]
    rfl
  · rw [get32_put32_of_ne (by omega)]
    apply get32_congr
    intro i hi
    rw [hsame.inod _ (by omega), hinod]

theorem Held.Cleared.next_slot (h : s.Cleared n [k] s₁) (hinod : s.inod = s.fs.vol.inode n)
    (hk : k < 15) : (s₁.fs.vol.setInode n (s₁.setBlock k 0).inod).next (.ino n) k = none ∧
    ∀ d x, ¬ (d = .ino n ∧ x = k) → ¬ s.fs.vol.Below n [k] d →
      (s₁.fs.vol.setInode n (s₁.setBlock k 0).inod).next d x = s.fs.vol.next d x := by
  have hgeo : s₁.fs.vol.geo = s.fs.vol.geo := h.geo
  constructor
  · rw [next_ino, if_pos hk, setInode_inode, if_pos rfl, h.toSameInodes.iBlock_setBlock hinod hk,
      if_pos rfl]
    rfl
  · intro d x hne hbelow
    cases d with
    | ino m =>
      rw [next_ino, next_ino, setInode_inode]
      by_cases hx : x < 15
      · rw [if_pos hx, if_pos hx]
        split
        · rename_i hm
          subst hm
          have hxk : x ≠ k := fun hxk => hne ⟨rfl, hxk⟩
          rw [h.toSameInodes.iBlock_setBlock hinod hx, if_neg hxk]
        · rw [h.inode]
      · rw [if_neg hx, if_neg hx]
    | blk q =>
      rw [next_blk, next_blk, setInode_data, setInode_geo, hgeo, h.data q hbelow]

/-- The copy is on the device, and the pointers have changed in one place. -/
def Held.CutAt (n : Nat) (path : List Nat) (s s' : Held) : Prop :=
  s'.inod = s'.fs.vol.inode n ∧ s.fs.vol.Keeps n s'.fs.vol ∧
    ∃ τ e c, s.fs.vol.Cut s'.fs.vol n path τ e c

theorem flushHeld_post {E : Stop → Held → Prop} (hg : s.fs.geo.Ok)
    (hused : s.fs.vol.inUse n = true) (hinod : s.inod = s.fs.vol.inode n) (hsame : s.SameInodes s₁)
    (hbytes : ∀ i, i < 28 ∨ 100 ≤ i → inod i = s₁.inod i)
    (hcut : s.fs.vol.Cut (s₁.fs.vol.setInode n inod) n path π e c) :
    Post (flushHeld n) ⟨s₁.fs, inod⟩ (fun _ s' => s.CutAt n path s') E := by
  have hg₁ : s₁.fs.geo.Ok := by
    rw [hsame.geo]
    exact hg
  have hused₁ : s₁.fs.vol.inUse n = true := by
    rw [hsame.inUse]
    exact hused
  have hhead : ∀ i, i < 28 ∨ 100 ≤ i → inod i = s.fs.vol.inode n i := by
    intro i hi
    rw [hbytes i hi, hsame.inod i (by omega), hinod]
  obtain ⟨fs', hrun, hvol, hinode⟩ := @run_flushHeld n s₁ hg₁ hused₁ inod fun i hi => by
    rw [hhead i (Or.inr hi), hsame.inode]
  refine Post.of_ok hrun ⟨hinode.symm, ⟨?_, ?_, fun m hm => ?_, fun i hi => ?_⟩, π, e, c, ?_⟩
  · exact (congrArg geo hvol).trans hsame.geo
  · exact (congrArg inUse hvol).trans hsame.inUse
  · rw [hvol, setInode_inode, if_neg hm, hsame.inode]
  · rw [hinode, hhead i hi]
  · rwa [hvol]

theorem inoFreeblk_cut (hg : s.fs.geo.Ok) (hflush : s.fs.geo.FlushSafe) (ht : s.fs.vol.Tree n)
    (hused : s.fs.vol.inUse n = true) (hinod : s.inod = s.fs.vol.inode n) {idx : Nat}
    (hpath : s.fs.geo.blkPath idx = some (k, es))
    (hleaf : ∀ b, s.fs.vol.ref n (k :: es) = some (.blk b) → s.fs.geo.IsData b) :
    Post (inoFreeblk n idx) s (fun _ s' => s' = s ∧ s.fs.vol.ref n (k :: es) = none ∨
      s.CutAt n (k :: es) s') (fun _ _ => ¬ s.fs.geo.FlushFits) := by
  obtain ⟨hk, hfull, hes⟩ := hg.toLayout.blkPath_full hpath
  have hslot : s.fs.vol.ref n [k] = ptr (iBlock s.inod k) := by
    rw [ref_slot _ _ hk, hinod]
  apply Post.get_bind
  rw [hpath]
  refine Post.bind (freePath_outcome hg hflush ht hfull hleaf (π := [k]) rfl hes hslot) ?_
    fun _ _ h => h
  intro r s₁ hr
  cases r with
  | nothing => exact Post.pure (Or.inl hr)
  | kept =>
    obtain ⟨hsame, τ, e, b, hcut⟩ := hr
    refine (flushHeld_post hg hused hinod hsame (fun _ _ => rfl) (hcut.flush ?_)).mono
      (fun _ _ => Or.inr) fun _ _ h => h
    intro j _
    refine get32_congr fun i _ => ?_
    rw [hsame.inod _ (by omega), hinod, hsame.inode]
  | gone =>
    obtain ⟨hcleared, halone, -⟩ := hr
    apply Post.modify_bind
    obtain ⟨hnone, hrest⟩ := hcleared.next_slot hinod hk
    have hcut : s.fs.vol.Cut (s₁.fs.vol.setInode n (s₁.setBlock k 0).inod) n (k :: es) [] k
        (.ino n) :=
      ⟨ref_nil n, ⟨es, rfl⟩, halone, fun h => absurd rfl h, hcleared.geo, hcleared.marked,
        hnone, hrest⟩
    refine (flushHeld_post hg hused hinod hcleared.toSameInodes (fun i hi => ?_) hcut).mono
      (fun _ _ => Or.inr) fun _ _ h => h
    exact put32_of_ne (by omega)

theorem inoFreeblk_post (hs : s.Synced n) (hflush : s.fs.geo.FlushSafe) (idx : Nat) :
    Post (inoFreeblk n idx) s (fun _ s' => s'.Synced n ∧ s.fs.vol.Keeps n s'.fs.vol)
      (fun _ _ => True) := by
  cases hpath : s.fs.geo.blkPath idx with
  | none =>
    apply Post.get_bind
    rw [hpath]
    exact Post.fault trivial
  | some p =>
    have hfull := (hs.geo.toLayout.blkPath_full hpath).2.1
    refine (inoFreeblk_cut hs.geo hflush (hs.sound.tree hs.live) hs.live.1 hs.inod hpath
      fun b hb => (hs.sound.owned n _ b hs.live hfull.fits hb).1).mono ?_ fun _ _ _ => trivial
    rintro _ s' (⟨rfl, -⟩ | ⟨hinod, hkeeps, τ, e, c, hcut⟩)
    · exact ⟨hs, Keeps.refl _ _⟩
    · have hgeo : s'.fs.geo = s.fs.geo := hkeeps.geo
      refine ⟨⟨?_, hcut.sound hfull hs.sound hs.live hkeeps.live, (hkeeps.live n).mpr hs.live,
        hinod⟩, hkeeps⟩
      rw [hgeo]
      exact hs.geo

theorem freeLoop_post (hs : s.Synced n) (hflush : s.fs.geo.FlushSafe) (m i : Nat) :
    Post (freeLoop n m i) s (fun _ s' => s'.Synced n ∧ s.fs.vol.Keeps n s'.fs.vol)
      (fun _ _ => True) := by
  induction m generalizing s i with
  | zero => exact Post.pure ⟨hs, Keeps.refl _ _⟩
  | succ m ih =>
    refine Post.bind (inoFreeblk_post hs hflush i) ?_ fun _ _ _ => trivial
    intro _ s₁ h₁
    refine Post.mono (ih h₁.1 (h₁.2.flushSafe hflush) (i + 1)) ?_ fun _ _ _ => trivial
    intro _ s₂ h₂
    exact ⟨h₂.1, h₁.2.trans h₂.2⟩

end Free

/-! ## Truncation -/

variable {fs : Ext2fs}

theorem trunc_post (hg : fs.geo.Ok) (hflush : fs.geo.FlushSafe) (hv : fs.vol.Sound)
    (hn : fs.vol.Live n) :
    Post (ext2fsTrunc n) fs (fun _ fs' => fs'.geo = fs.geo ∧ fs'.vol.Sound)
      (fun _ _ => True) := by
  have hs : Held.Synced n ⟨fs, fs.vol.inode n⟩ := ⟨hg, hv, hn, rfl⟩
  apply Post.bind_ok (run_getino hg hn.1)
  apply Post.get_bind
  refine Post.bind (post_withInode (freeLoop_post hs hflush _ 0) (Q := fun r fs₁ =>
    Held.Synced n ⟨fs₁, r.2⟩ ∧ fs.vol.Keeps n fs₁.vol) (fun _ _ h => h) fun _ _ h => h) ?_
    fun _ _ h => h
  rintro r fs₁ ⟨hs₁, hkeeps⟩
  apply Post.bind_ok (run_getino hs₁.geo hs₁.live.1)
  apply flushInode_post hs₁.geo hs₁.live.1
  intro fs' hvol
  refine ⟨(congrArg geo hvol).trans hkeeps.geo, ?_⟩
  rw [hvol]
  apply hs₁.sound.setInode
  · unfold iType
    rw [get16_put32_of_ne (by omega), get16_put32_of_ne (by omega)]
  · intro k hk
    left
    unfold iBlock
    rw [get32_put32_of_ne (by omega), get32_put32_of_ne (by omega)]

/-! ## Removing an inode

`ext2fs_rmino` clears the bit of the inode before it calls `flush_inode`, which refuses inodes that
are not in use.  So it never succeeds.  It is also called for inodes whose slots are not block
numbers, and then only the geometry is left as it was.
-/

section Geometry

open Op

theorem keeps_modbmp (blkid idx : Nat) (op : BmpOp) :
    Keeps Ext2fs.inMemory (modbmp blkid idx op) := by
  refine keeps_get_bind fun fs => ?_
  split
  · exact keeps_fail ⟨by decide, by decide⟩
  refine (keeps_rdblk _).bind fun bmp => ?_
  split
  · exact keeps_fault
  · cases op with
    | set => exact (keeps_wrblk _ _).bind fun _ => keeps_pure _
    | clr => exact (keeps_wrblk _ _).bind fun _ => keeps_pure _
    | get => exact keeps_pure _

theorem keeps_freeblk (blkid : Nat) : Keeps Ext2fs.geo (freeblk blkid) := by
  unfold freeblk
  split
  · exact keeps_pure ()
  refine keeps_get_bind fun fs => ?_
  have hzero : Keeps Ext2fs.inMemory (Op.ignore (wrblk blkid zero)) :=
    (keeps_wrblk blkid zero).after
  refine (keeps_geo hzero).bind fun _ => ?_
  split
  · exact keeps_fault
  refine (keeps_geo (keeps_modbmp _ _ _)).bind fun _ => ?_
  refine keeps_modify_bind (fun fs => count_geo (.inl rfl) (.inl rfl)) ?_
  exact (keeps_geo keeps_flushBgs).bind fun _ => (keeps_geo keeps_flushSbs).bind fun _ =>
    keeps_pure _

theorem keeps_inodeused (ino : Nat) : Keeps Ext2fs.inMemory (inodeused ino) := by
  refine keeps_get_bind fun fs => ?_
  dsimp only
  split
  · exact keeps_fail ⟨by decide, by decide⟩
  · split
    · exact keeps_fail ⟨by decide, by decide⟩
    · exact (keeps_modbmp _ _ _).bind fun _ => keeps_pure _

theorem keeps_flushInode (ino : Nat) (inod : Bytes) :
    Keeps Ext2fs.inMemory (flushInode ino inod) := by
  unfold flushInode
  split
  · exact keeps_fail ⟨by decide, by decide⟩
  refine (keeps_inodeused ino).bind fun used => ?_
  split
  · exact keeps_fail ⟨by decide, by decide⟩
  refine keeps_get_bind fun fs => (keeps_rdblk _).bind fun blk => ?_
  split
  · exact keeps_fault
  · exact keeps_wrblk _ _

def Held.geo (s : Held) : Geo := s.fs.geo

theorem keeps_onFs {α : Type} {x : Op Ext2fs α} (hx : Keeps Ext2fs.geo x) :
    Keeps Held.geo (onFs x) := fun s => post_onFs (hx s.fs) (fun _ _ h => h) fun _ _ h => h

theorem keeps_dropBlock (p : Nat) : Keeps Held.geo (dropBlock p) := by
  refine (keeps_onFs (keeps_freeblk p)).bind fun _ => ?_
  exact keeps_modify_bind (g := Held.subBlocks) (fun _ => rfl) (keeps_pure _)

theorem keeps_freePath (p : Nat) (es : List Nat) : Keeps Held.geo (freePath p es) := by
  induction es generalizing p with
  | nil =>
    unfold freePath
    split
    · exact keeps_pure _
    · exact keeps_dropBlock p
  | cons e es ih =>
    have hread : Keeps Ext2fs.inMemory (readIndr p) := by
      unfold readIndr
      split
      · exact keeps_pure _
      · exact keeps_rdblk p
    refine (keeps_onFs (keeps_geo hread)).bind fun indr => (ih _).bind fun r => ?_
    cases r with
    | nothing => exact keeps_pure _
    | kept => exact keeps_pure _
    | gone =>
      refine keeps_get_bind fun s => ?_
      split
      · exact keeps_dropBlock p
      · exact (keeps_onFs (keeps_geo (keeps_wrblk p _))).bind fun _ => keeps_pure _

theorem keeps_inoFreeblk (ino idx : Nat) : Keeps Held.geo (inoFreeblk ino idx) := by
  have hflush : Keeps Held.geo (flushHeld ino) :=
    keeps_get_bind fun s => keeps_onFs (keeps_geo (keeps_flushInode ino s.inod))
  refine keeps_get_bind fun s => ?_
  cases s.fs.geo.blkPath idx with
  | none => exact keeps_fault
  | some p =>
    refine (keeps_freePath _ p.2).bind fun r => ?_
    cases r with
    | nothing => exact keeps_pure _
    | kept => exact hflush
    | gone =>
      exact keeps_modify_bind (g := (Held.setBlock · p.1 0)) (fun _ => rfl) (by exact hflush)

theorem keeps_freeLoop (ino m i : Nat) : Keeps Held.geo (freeLoop ino m i) := by
  induction m generalizing i with
  | zero => exact keeps_pure _
  | succ m ih => exact (keeps_inoFreeblk ino i).bind fun _ => ih _

theorem keeps_getino (n : Nat) : Keeps Ext2fs.inMemory (getino n) := by
  unfold getino
  split
  · exact keeps_fail ⟨by decide, by decide⟩
  refine keeps_get_bind fun fs => ?_
  dsimp only
  split
  · exact keeps_fail ⟨by decide, by decide⟩
  refine (keeps_inodeused n).bind fun used => ?_
  split
  · exact keeps_fail ⟨by decide, by decide⟩
  split
  · exact keeps_fail ⟨by decide, by decide⟩
  split
  · exact keeps_fail ⟨by decide, by decide⟩
  refine (keeps_rdblk _).bind fun blk => ?_
  split
  · exact keeps_fault
  · exact keeps_pure _

end Geometry

-- a look at the bitmap changes nothing, and its errors are not the one for the end of a directory
theorem modbmp_get_frame (fs : Ext2fs) (b idx : Nat) :
    Post (modbmp b idx .get) fs (fun _ fs' => fs' = fs)
      (fun e fs' => fs' = fs ∧ e ≠ .err (-1)) := by
  apply Post.get_bind
  split
  · exact Post.fail ⟨rfl, by decide⟩
  rename_i hb
  apply Post.bind_ok (run_rdblk (Nat.lt_of_not_le hb))
  split
  · exact Post.fault ⟨rfl, by decide⟩
  · exact Post.pure rfl

theorem inodeused_frame (fs : Ext2fs) (m : Nat) :
    Post (inodeused m) fs (fun _ fs' => fs' = fs ∧ fs.geo.inoGrp m < fs.geo.nbgs)
      (fun e fs' => fs' = fs ∧ e ≠ .err (-1)) := by
  apply Post.get_bind
  dsimp only
  split
  · exact Post.fail ⟨rfl, by decide⟩
  rename_i hgrp
  split
  · exact Post.fail ⟨rfl, by decide⟩
  · refine Post.bind (modbmp_get_frame fs _ _) ?_ fun _ _ h => h
    intro res fs' hsame
    exact Post.pure ⟨hsame, Nat.lt_of_not_le hgrp⟩

/-- `flush_inode` looks at the bit of the inode and writes one block. -/
theorem flushInode_writes (fs : Ext2fs) (n : Nat) (x : Bytes) :
    Post (flushInode n x) fs (fun _ fs' => n ≠ 0 ∧ (inodeused n).run fs = .ok true fs ∧
      fs.geo.inoGrp n < fs.geo.nbgs ∧ fs' = fs.putBlock (fs.geo.inoBlk n % 2 ^ 32)
        (copy (blockRead fs.disk (fs.geo.inoBlk n % 2 ^ 32 * fs.geo.spb % 2 ^ 32))
          (fs.geo.inoOff n) x 0 128)) (fun _ _ => True) := by
  have hframe := inodeused_frame fs n
  unfold flushInode
  split
  · exact Post.fail trivial
  rename_i hn
  cases hused : (inodeused n).run fs with
  | error e fs₁ => exact Post.of_error (Op.run_bind_of_error hused _) trivial
  | ok used fs₁ =>
    obtain ⟨rfl, hgrp⟩ := hframe.ok hused
    apply Post.bind_ok hused
    cases used with
    | false => exact Post.fail trivial
    | true =>
      apply Post.get_bind
      by_cases hdev : fs₁.geo.inoBlk n % 2 ^ 32 < fs₁.geo.blocksCount
      · apply Post.bind_ok (run_rdblk hdev)
        split
        · exact Post.fault trivial
        · exact Post.of_ok (run_wrblk hdev _) ⟨hn, rfl, hgrp, rfl⟩
      · have hfail := run_rdblk_of_ge (Nat.le_of_not_lt hdev)
        exact Post.of_error (Op.run_bind_of_error hfail _) trivial

-- a bit that was cleared is read back clear, wherever the sectors of the block are
theorem modbmp_get_of_clr {fs' : Ext2fs} (hg : fs.geo.Mounted) {blkid idx r : Nat}
    (h : (modbmp blkid idx .clr).run fs = .ok r fs') :
    fs'.geo = fs.geo ∧ (modbmp blkid idx .get).run fs' = .ok 0 fs' := by
  have hspb := hg.spb_mul
  unfold modbmp at h
  rw [Op.run_get_bind] at h
  by_cases hdev : fs.geo.blocksCount ≤ blkid
  · rw [if_pos hdev] at h
    cases h
  have hlt : blkid < fs.geo.blocksCount := Nat.lt_of_not_le hdev
  rw [if_neg hdev, Op.run_bind_of_ok (run_rdblk hlt)] at h
  by_cases hidx : fs.geo.blocksz ≤ idx / 8
  · rw [if_pos hidx] at h
    cases h
  rw [if_neg hidx] at h
  generalize blockRead fs.disk (blkid * fs.geo.spb % 2 ^ 32) = bmp at h
  rw [Op.run_bind_of_ok (run_wrblk hlt _)] at h
  cases h
  refine ⟨rfl, ?_⟩
  have hlt' : blkid < (fs.putBlock blkid (clrBit bmp idx)).geo.blocksCount := hlt
  have hbyte : blockRead (fs.putBlock blkid (clrBit bmp idx)).disk
      (blkid * fs.geo.spb % 2 ^ 32) (idx / 8) = clrBit bmp idx (idx / 8) := by
    change copy fs.disk _ (clrBit bmp idx) 0 _ _ = _
    rw [copy_apply (by omega), Nat.zero_add]
  have hbit : (clrBit bmp idx (idx / 8)).toNat &&& 2 ^ (idx % 8) = 0 := by
    have hclear := bit_clrBit bmp idx idx
    rw [decide_eq_true rfl, Bool.not_true, Bool.and_false] at hclear
    unfold bit at hclear
    rw [Nat.and_two_pow, hclear, Bool.toNat_false, Nat.zero_mul]
  unfold modbmp
  rw [Op.run_get_bind, if_neg (Nat.not_le_of_lt hlt'), Op.run_bind_of_ok (run_rdblk hlt'),
    putBlock_geo, if_neg hidx]
  change EStateM.Result.ok (_ &&& _) _ = _
  rw [hbyte, hbit]

-- `flush_inode` refuses an inode whose bit is clear
theorem flushInode_cleared
    (hclear : (modbmp (fs.geo.inodeBitmap (fs.geo.inoGrp n)) (fs.geo.inoPos n) .get).run fs =
      .ok 0 fs) (x : Bytes) : Post (flushInode n x) fs (fun _ _ => False) (fun _ _ => True) := by
  have hused : Post (inodeused n) fs (fun used _ => used = false) (fun _ _ => True) := by
    apply Post.get_bind
    dsimp only
    split
    · exact Post.fail trivial
    · split
      · exact Post.fail trivial
      · exact Post.bind_ok hclear (Post.pure rfl)
  refine (flushInode_writes fs n x).mono (fun _ _ h => ?_) fun _ _ h => h
  cases hused.ok h.2.1

theorem rmino_fails (hg : fs.geo.Mounted) (n : Nat) :
    Post (ext2fsRmino n) fs (fun _ _ => False) (fun _ _ => True) := by
  refine Post.bind ((keeps_geo (keeps_getino n)).post fs) ?_ fun _ _ _ => trivial
  intro inod fs₁ h₁
  apply Post.get_bind
  refine Post.bind (post_withInode ((keeps_freeLoop n _ 0).post ⟨fs₁, inod⟩)
    (Q := fun _ fs₂ => fs₂.geo = fs.geo) (fun _ _ h => h.trans h₁) fun _ _ _ => trivial) ?_
    fun _ _ h => h
  intro _ fs₂ h₂
  rw [h₁]
  apply Post.modify_bind
  have h₃ : (fs₂.giveInode (fs.geo.inoGrp n)).geo = fs.geo :=
    (count_geo (Or.inr rfl) (Or.inr rfl)).trans h₂
  generalize fs₂.giveInode (fs.geo.inoGrp n) = fs₃ at h₃
  cases hrun : (modbmp (fs.geo.inodeBitmap (fs.geo.inoGrp n)) (fs.geo.inoPos n) .clr).run fs₃ with
  | error e fs₄ => exact Post.of_error (Op.run_bind_of_error hrun _) trivial
  | ok r fs₄ =>
    apply Post.bind_ok hrun
    obtain ⟨hgeo, hclear⟩ := modbmp_get_of_clr (by rwa [h₃]) hrun
    refine Post.bind (flushInode_cleared ?_ zero) (fun _ _ h => h.elim) fun _ _ h => h
    rwa [hgeo, h₃]

end Ext2
