import RandomOs.Ext2.Tree

/-!
# From file positions to blocks (`ext2.c`)

`ino_getblkid` and `ino_freeblk` find the block of a logical index through the same slot and the
same entries of the tables.
-/

namespace Ext2

open Lib Bytes List Geo

/-! ## Model -/

/-- The slot and the entries for an index.  The sums and the index into the tables are of type
`u32`; an entry behind the end of the first table is out of bounds. -/
def Geo.blkPath (g : Geo) (idx : Nat) : Option (Nat × List Nat) :=
  let ppb := g.ppb
  let ppb2 := ppb * ppb % 2 ^ 32
  if idx < 12 then some (idx, [])
  else if idx < (12 + ppb) % 2 ^ 32 then some (12, [idx - 12])
  else if idx < (12 + ppb + ppb2) % 2 ^ 32 then
    let ridx := (idx + (2 ^ 64 - (12 + ppb))) % 2 ^ 32
    some (13, [ridx / ppb, ridx % ppb])
  else
    let ridx := (idx + (2 ^ 64 - (12 + ppb + ppb2))) % 2 ^ 32
    if ppb ≤ ridx / ppb2 then none
    else some (14, [ridx / ppb2, ridx / ppb % ppb, ridx % ppb])

/-- Reads the tables one after the other. -/
def follow : Nat → List Nat → Op Ext2fs Nat
  | b, [] => pure b
  | b, e :: es => do
      let indr ← readIndr b
      follow (get32 indr (4 * e)) es

def inoGetblkid (inod : Bytes) (idx : Nat) : Op Ext2fs Nat := do
  let fs ← get
  match fs.geo.blkPath idx with
  | none => Op.fault
  | some (k, es) =>
    let ret ← follow (iBlock inod k) es
    Op.asInt ret

/-! ## Digits -/

/-- The `d + 1` digits of a number to the base `p`; the first one is not bounded. -/
def digits (p : Nat) : Nat → Nat → List Nat
  | 0, r => [r]
  | d + 1, r => r / p ^ (d + 1) :: digits p d (r % p ^ (d + 1))

theorem digits_length (p d r : Nat) : (digits p d r).length = d + 1 := by
  induction d generalizing r with
  | zero => rfl
  | succ d ih => rw [digits, length_cons, ih]

variable {p d : Nat}

theorem digits_injective {r r' : Nat} (h : digits p d r = digits p d r') : r = r' := by
  induction d generalizing r r' with
  | zero => exact singleton_inj.mp h
  | succ d ih =>
    rw [digits, digits, List.cons.injEq] at h
    rw [← Nat.div_add_mod r (p ^ (d + 1)), ← Nat.div_add_mod r' (p ^ (d + 1)), h.1, ih h.2]

-- the digits below an entry
theorem digits_mul_add {i j : Nat} (hj : j < p ^ (d + 1)) :
    digits p (d + 1) (i * p ^ (d + 1) + j) = i :: digits p d j := by
  rw [digits, Nat.mul_comm, Nat.mul_add_div (by omega), Nat.div_eq_of_lt hj, Nat.add_zero,
    Nat.mul_add_mod, Nat.mod_eq_of_lt hj]

/-! ## Indices -/

/-- The first index that goes through slot `12 + d`. -/
def Geo.slotBase (g : Geo) : Nat → Nat
  | 0 => 12
  | d + 1 => g.slotBase d + g.ppb ^ (d + 1)

/-- The number of blocks that the slots lead to. -/
def Geo.fileBlocks (g : Geo) : Nat := g.slotBase 3

section Indices

variable {g : Geo}

theorem Geo.slotBase_mono (d : Nat) : g.slotBase d ≤ g.slotBase (d + 1) := Nat.le_add_right _ _

theorem Geo.Layout.ppb_bounds (hg : g.Layout) : 0 < g.ppb ∧ g.ppb ≤ 1024 := by
  have hppb := hg.mounted.ppb_mul
  have hge := hg.mounted.blocksz_ge
  have hle := hg.blocksz_le
  omega

-- the numbers of the code do not wrap around
theorem Geo.Layout.ppb_pow (hg : g.Layout) :
    g.ppb ^ 2 ≤ 2 ^ 20 ∧ g.ppb ^ 3 ≤ 2 ^ 30 ∧ g.ppb * g.ppb % 2 ^ 32 = g.ppb ^ 2 ∧
      g.ppb ^ 3 = g.ppb * g.ppb ^ 2 := by
  have hle := hg.ppb_bounds.2
  have h2 : g.ppb ^ 2 ≤ 1024 ^ 2 := Nat.pow_le_pow_left hle 2
  have h3 : g.ppb ^ 3 ≤ 1024 ^ 3 := Nat.pow_le_pow_left hle 3
  have hsq : g.ppb * g.ppb = g.ppb ^ 2 := (Nat.pow_two g.ppb).symm
  refine ⟨h2, h3, ?_, ?_⟩
  · rw [hsq, Nat.mod_eq_of_lt (by omega)]
  · rw [Nat.pow_succ, Nat.mul_comm]

theorem Geo.slotBase_eq : g.slotBase 0 = 12 ∧ g.slotBase 1 = 12 + g.ppb ∧
    g.slotBase 2 = 12 + g.ppb + g.ppb ^ 2 ∧ g.fileBlocks = 12 + g.ppb + g.ppb ^ 2 + g.ppb ^ 3 := by
  unfold fileBlocks slotBase slotBase slotBase slotBase
  rw [Nat.pow_one]
  exact ⟨rfl, rfl, rfl, rfl⟩

variable {idx j k : Nat} {es : List Nat}

theorem Geo.blkPath_of_lt (h : idx < 12) : g.blkPath idx = some (idx, []) := by
  exact if_pos h

theorem Geo.Layout.blkPath_slot (hg : g.Layout) (hd : d < 3) (hj : j < g.ppb ^ (d + 1)) :
    g.blkPath (g.slotBase d + j) = some (12 + d, digits g.ppb d j) := by
  obtain ⟨h2, h3, hmod, hcube⟩ := hg.ppb_pow
  obtain ⟨hb0, hb1, hb2, -⟩ := @slotBase_eq g
  obtain ⟨hpos, hle⟩ := hg.ppb_bounds
  have hsq : g.ppb ^ 2 = g.ppb * g.ppb := Nat.pow_two _
  unfold blkPath
  dsimp only
  rw [hmod]
  rcases (by omega : d = 0 ∨ d = 1 ∨ d = 2) with rfl | rfl | rfl
  · rw [Nat.pow_one] at hj
    rw [hb0, if_neg (by omega), if_pos (by omega), Nat.add_sub_cancel_left, digits]
  · change j < g.ppb ^ 2 at hj
    rw [hb1, if_neg (by omega), if_neg (by omega), if_pos (by omega),
      show (12 + g.ppb + j + (2 ^ 64 - (12 + g.ppb))) % 2 ^ 32 = j by omega, digits, digits,
      Nat.pow_one]
  · change j < g.ppb ^ 3 at hj
    have hlt : j / g.ppb ^ 2 < g.ppb := by
      rw [Nat.div_lt_iff_lt_mul (Nat.pow_pos hpos), ← hcube]
      exact hj
    rw [hb2, if_neg (by omega), if_neg (by omega), if_neg (by omega),
      show (12 + g.ppb + g.ppb ^ 2 + j + (2 ^ 64 - (12 + g.ppb + g.ppb ^ 2))) % 2 ^ 32 = j by omega,
      if_neg (Nat.not_le_of_lt hlt), digits, digits, digits, Nat.pow_one, hsq,
      Nat.mod_mul_right_div_self, Nat.mod_mul_right_mod]

theorem Geo.index_cases (h : idx < g.fileBlocks) :
    idx < 12 ∨ ∃ d j, d < 3 ∧ j < g.ppb ^ (d + 1) ∧ idx = g.slotBase d + j := by
  obtain ⟨hb0, hb1, hb2, hb3⟩ := @slotBase_eq g
  by_cases h0 : idx < 12
  · exact Or.inl h0
  right
  by_cases h1 : idx < g.slotBase 1
  · exact ⟨0, idx - g.slotBase 0, by omega, by rw [Nat.pow_one]; omega, by omega⟩
  by_cases h2 : idx < g.slotBase 2
  · exact ⟨1, idx - g.slotBase 1, by omega, show _ < g.ppb ^ 2 by omega, by omega⟩
  · exact ⟨2, idx - g.slotBase 2, by omega, show _ < g.ppb ^ 3 by omega, by omega⟩

theorem Geo.Layout.blkPath_injective (hg : g.Layout) {i : Nat} (hi : i < g.fileBlocks)
    (hj : j < g.fileBlocks) (h : g.blkPath i = g.blkPath j) : i = j := by
  rcases index_cases hi with hi | ⟨d, r, hd, hr, rfl⟩
  · rw [blkPath_of_lt hi] at h
    rcases index_cases hj with hj | ⟨d', r', hd', hr', rfl⟩
    · rw [blkPath_of_lt hj] at h
      injection h with h
      injection h
    · rw [hg.blkPath_slot hd' hr'] at h
      injection h with h
      injection h with h
      omega
  · rw [hg.blkPath_slot hd hr] at h
    rcases index_cases hj with hj | ⟨d', r', hd', hr', rfl⟩
    · rw [blkPath_of_lt hj] at h
      injection h with h
      injection h with h
      omega
    · rw [hg.blkPath_slot hd' hr'] at h
      injection h with h
      injection h with hslot hdigits
      obtain rfl : d = d' := by omega
      rw [digits_injective hdigits]

-- an index behind the last one is out of bounds, unless it is cut to 32 bits
theorem Geo.Layout.blkPath_of_ge (hg : g.Layout) (hge : g.fileBlocks ≤ idx)
    (hlt : idx < 2 ^ 32) : g.blkPath idx = none := by
  obtain ⟨h2, h3, hmod, hcube⟩ := hg.ppb_pow
  obtain ⟨-, -, -, hb3⟩ := @slotBase_eq g
  obtain ⟨hpos, hle⟩ := hg.ppb_bounds
  have hquot : g.ppb ≤ (idx - (12 + g.ppb + g.ppb ^ 2)) / g.ppb ^ 2 := by
    rw [Nat.le_div_iff_mul_le (Nat.pow_pos hpos)]
    omega
  unfold blkPath
  dsimp only
  rw [hmod, if_neg (by omega), if_neg (by omega), if_neg (by omega),
    show (idx + (2 ^ 64 - (12 + g.ppb + g.ppb ^ 2))) % 2 ^ 32 =
      idx - (12 + g.ppb + g.ppb ^ 2) by omega, if_pos hquot]

theorem Geo.Layout.blkPath_fileBlocks (hg : g.Layout) : g.blkPath g.fileBlocks = none := by
  obtain ⟨h2, h3, -, -⟩ := hg.ppb_pow
  obtain ⟨-, -, -, hb3⟩ := @slotBase_eq g
  have hle := hg.ppb_bounds.2
  exact hg.blkPath_of_ge (Nat.le_refl _) (by omega)

-- the last slot takes all indices behind the others
theorem Geo.Layout.blkPath_last (hg : g.Layout)
    (hge : g.slotBase 2 ≤ idx) (h : g.blkPath idx = some (k, es)) : k = 14 := by
  obtain ⟨h2, h3, hmod, -⟩ := hg.ppb_pow
  obtain ⟨-, -, hb2, -⟩ := @slotBase_eq g
  unfold blkPath at h
  dsimp only at h
  rw [if_neg (by omega), if_neg (by omega), if_neg (by omega)] at h
  split at h
  · cases h
  · cases h
    rfl

theorem Geo.Layout.blkPath_full (hg : g.Layout)
    (h : g.blkPath idx = some (k, es)) : k < 15 ∧ Full (k :: es) ∧ ∀ e ∈ es, e < g.ppb := by
  obtain ⟨hpos, hle⟩ := hg.ppb_bounds
  unfold blkPath at h
  dsimp only at h
  split at h
  · cases h
    refine ⟨by omega, ?_, fun e he => by cases he⟩
    rw [full_cons]
    unfold depth
    rw [length_nil]
    omega
  split at h
  · cases h
    refine ⟨by omega, rfl, ?_⟩
    intro e he
    rw [mem_singleton.mp he]
    omega
  split at h
  · cases h
    refine ⟨by omega, rfl, ?_⟩
    intro e he
    rcases mem_cons.mp he with rfl | he
    · rw [Nat.div_lt_iff_lt_mul hpos]
      omega
    · rw [mem_singleton.mp he]
      exact Nat.mod_lt _ hpos
  split at h
  · cases h
  cases h
  refine ⟨by omega, rfl, ?_⟩
  intro e he
  rcases mem_cons.mp he with rfl | he
  · omega
  rcases mem_cons.mp he with rfl | he
  · exact Nat.mod_lt _ hpos
  · rw [mem_singleton.mp he]
    exact Nat.mod_lt _ hpos

end Indices

/-! ## Lookup -/

/-- The block at an index. -/
def Vol.blockAt (v : Vol) (n idx : Nat) : Option Node :=
  match v.geo.blkPath idx with
  | none => none
  | some (k, es) => v.ref n (k :: es)

theorem Vol.blockAt_of_path {v : Vol} {n idx k : Nat} {es : List Nat}
    (h : v.geo.blkPath idx = some (k, es)) : v.blockAt n idx = v.ref n (k :: es) := by
  unfold Vol.blockAt
  rw [h]

section Lookup

variable {fs : Ext2fs} {n : Nat}

variable {k : Nat}

theorem ref_slot (v : Vol) (n : Nat) (hk : k < 15) : v.ref n [k] = ptr (iBlock (v.inode n) k) := by
  rw [← nil_append [k], Vol.ref_of_snoc (Vol.ref_nil n), Vol.next_ino, if_pos hk]

section Tree

variable (ht : fs.vol.Tree n) (hg : fs.geo.Ok)
include ht hg

variable {π es : List Nat} {w : Nat}

-- a table, and one of its entries
theorem Vol.Tree.run_readIndr {e : Nat} (hfits : Fits (π ++ [e]))
    (he : e < fs.geo.ppb) (hw : fs.vol.ref n π = ptr w) :
    ∃ indr, (readIndr w).run fs = .ok indr fs ∧ (w ≠ 0 → trim fs.geo.blocksz indr = fs.vol.data w) ∧
      fs.vol.ref n (π ++ [e]) = ptr (get32 indr (4 * e)) := by
  by_cases hzero : w = 0
  · refine ⟨zero, ?_, fun hne => absurd hzero hne, ?_⟩
    · unfold readIndr
      rw [if_pos hzero]
      rfl
    · rw [Vol.ref_append_none (by rw [hw, ptr_eq_none.mpr hzero])]
      rfl
  · rw [ptr_of_ne hzero] at hw
    have hdata := ht.tables π w hfits.of_append (fun hfull => hfull.not_fits e hfits) hw
    have hppb := hg.mounted.ppb_mul
    refine ⟨fs.block w, ?_, fun _ => (vol_data hdata).symm, ?_⟩
    · unfold readIndr
      rw [if_neg hzero, hg.run_rdblk hdata.2.1]
    · rw [Vol.ref_of_snoc hw, Vol.next_blk, vol_geo, if_pos he, vol_data hdata,
        get32_trim _ (by omega)]

theorem Vol.Tree.follow_run (hfits : Fits (π ++ es))
    (hes : ∀ e ∈ es, e < fs.geo.ppb) (hw : fs.vol.ref n π = ptr w) :
    ∃ w', (follow w es).run fs = .ok w' fs ∧ fs.vol.ref n (π ++ es) = ptr w' := by
  induction es generalizing π w with
  | nil => exact ⟨w, rfl, by rwa [append_nil]⟩
  | cons e es ih =>
    have happ : π ++ e :: es = π ++ [e] ++ es := by
      rw [append_assoc, singleton_append]
    rw [happ] at hfits ⊢
    obtain ⟨indr, hrun, -, href⟩ := ht.run_readIndr hg hfits.of_append (hes e mem_cons_self) hw
    obtain ⟨w', hrun', href'⟩ := ih hfits (fun x hx => hes x (mem_cons_of_mem _ hx)) href
    refine ⟨w', ?_, href'⟩
    rw [follow, Op.run_bind_of_ok hrun]
    exact hrun'

/-- The lookup finds the block, or 0 for a hole. -/
theorem Vol.Tree.run_inoGetblkid {idx k : Nat} (hpath : fs.geo.blkPath idx = some (k, es)) :
    ∃ w, (inoGetblkid (fs.vol.inode n) idx).run fs = .ok w fs ∧ fs.vol.ref n (k :: es) = ptr w := by
  obtain ⟨hk, hfull, hes⟩ := hg.toLayout.blkPath_full hpath
  obtain ⟨w, hrun, href⟩ := ht.follow_run hg (π := [k]) hfull.fits hes (ref_slot fs.vol n hk)
  refine ⟨w, ?_, href⟩
  have hlt : w < 2 ^ 31 := by
    by_cases hzero : w = 0
    · omega
    rw [ptr_of_ne hzero] at href
    have hdev : w < fs.geo.blocksCount := ht.below _ w hfull.fits href
    have hbc := hg.blocksCount_le
    omega
  unfold inoGetblkid
  rw [Op.run_get_bind, hpath]
  refine (Op.run_bind_of_ok hrun _).trans ?_
  unfold Op.asInt
  rw [if_neg (Nat.not_le_of_lt hlt)]
  rfl

end Tree

theorem run_inoGetblkid (hg : fs.geo.Ok) (hv : fs.vol.Sound) (hn : fs.vol.Live n) {idx : Nat}
    {es : List Nat} (hpath : fs.geo.blkPath idx = some (k, es)) :
    ∃ w, (inoGetblkid (fs.vol.inode n) idx).run fs = .ok w fs ∧ fs.vol.ref n (k :: es) = ptr w :=
  (hv.tree hn).run_inoGetblkid hg hpath

theorem run_inoGetblkid_of_none {inod : Bytes} {idx : Nat} (hpath : fs.geo.blkPath idx = none) :
    (inoGetblkid inod idx).run fs = .error .fault fs := by
  unfold inoGetblkid
  rw [Op.run_get_bind, hpath]
  rfl

end Lookup

end Ext2
