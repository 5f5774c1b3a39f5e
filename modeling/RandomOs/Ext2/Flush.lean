import Mathlib.Data.List.TakeWhile
import Mathlib.Tactic.IntervalCases
import RandomOs.Ext2.Super

/-!
# Writing back the superblock and the descriptors (`ext2.c`)

`flush_sbs` and `flush_bgs` run after every allocation.  They write the copies of the groups that
`has_sparse` names, which is not the set of groups that keep a copy.
-/

namespace Ext2

open Lib Bytes Kern List Geo Ext2fs

/-! ## Model -/

/-- The loop of `ispow`, for numbers of at most `fuel`. -/
def ispowLoop (base : Nat) : Nat → Nat → Nat
  | 0, n => n
  | fuel + 1, n => if n % base = 0 then ispowLoop base fuel (n / base) else n

def ispow (n base : Nat) : Bool := n != 0 && ispowLoop base n n == 1

def Geo.hasSparse (g : Geo) (bg : Nat) : Bool :=
  if !g.isdyn || g.roCompat &&& clearMask 1 != 0 then true
  else bg == 0 || bg == 1 || ispow bg 3 || ispow bg 5 || ispow bg 7

-- without the dynamic revision only the old part of the superblock is written
def Ext2fs.copySb (fs : Ext2fs) (buf : Bytes) (off : Nat) : Bytes :=
  copy buf off fs.sb 0 (if fs.isdyn then 204 else 84)

/-- One iteration of `flush_sbs`. -/
def flushSb (i : Nat) : Op Ext2fs Unit := do
  let fs ← get
  if fs.geo.hasSparse i then
    let blkid := (fs.geo.firstDataBlock + i * fs.geo.blocksPerGroup) % 2 ^ 32
    if i = 0 ∧ 1024 < fs.geo.blocksz then
      let buf ← (rdblk 0).orFail (-1)
      let buf := fs.copySb buf 1024
      (wrblk 0 buf).orFail (-1)
      wrblk blkid buf
    else
      let buf := fs.copySb zero 0
      (wrblk blkid buf).orFail (-1)
      wrblk blkid buf

def flushSbs : Op Ext2fs Unit := do
  let fs ← get
  Op.loop flushSb fs.geo.nbgs 0

/-- One block of descriptors, for the group whose table starts at `bgtst`. -/
def flushDesc (bgtst blk : Nat) : Op Ext2fs Unit := do
  let fs ← get
  let fst := blk * fs.geo.gpb
  if fs.geo.nbgs ≤ fst then pure ()
  else
    let cnt := min (fs.geo.nbgs - fst) fs.geo.gpb
    wrblk ((bgtst + blk) % 2 ^ 32) (copy zero 0 fs.bgs (32 * fst) (32 * cnt))

/-- One iteration of `flush_bgs`. -/
def flushBg (grp : Nat) : Op Ext2fs Unit := do
  let fs ← get
  if fs.geo.hasSparse grp then
    let bgtst := (fs.geo.firstDataBlock + grp * fs.geo.blocksPerGroup + 1) % 2 ^ 32
    Op.loop (flushDesc bgtst) fs.geo.bgtbln 0

def flushBgs : Op Ext2fs Unit := do
  let fs ← get
  Op.loop flushBg fs.geo.nbgs 0

/-! ## What the flushes leave alone -/

/-- The state apart from the device. -/
def Ext2fs.inMemory (fs : Ext2fs) : Ext2fs := { fs with disk := zero, written := [] }

section InMemory

open Op

theorem keeps_rdblk (blk : Nat) : Keeps inMemory (rdblk blk) := by
  intro fs
  by_cases hdev : blk < fs.geo.blocksCount
  · exact Post.of_ok (run_rdblk hdev) rfl
  · exact Post.of_error (run_rdblk_of_ge (Nat.le_of_not_lt hdev)) ⟨rfl, by decide, by decide⟩

theorem keeps_wrblk (blk : Nat) (buf : Bytes) : Keeps inMemory (wrblk blk buf) := by
  intro fs
  by_cases hdev : blk < fs.geo.blocksCount
  · exact Post.of_ok (run_wrblk hdev buf) rfl
  · exact Post.of_error (run_wrblk_of_ge (Nat.le_of_not_lt hdev) buf) ⟨rfl, by decide, by decide⟩

theorem keeps_flushSbs : Keeps inMemory flushSbs := by
  have hcode : (Stop.err (-1)).IsCode := ⟨by decide, by decide⟩
  refine keeps_get_bind fun fs => keeps_loop (fun i => keeps_get_bind fun fs => ?_) _ _
  split
  · split
    · refine ((keeps_rdblk 0).orFail hcode).bind fun buf => ?_
      exact ((keeps_wrblk 0 _).orFail hcode).bind fun _ => keeps_wrblk _ _
    · exact ((keeps_wrblk _ _).orFail hcode).bind fun _ => keeps_wrblk _ _
  · exact keeps_pure ()

theorem keeps_flushBgs : Keeps inMemory flushBgs := by
  refine keeps_get_bind fun fs => keeps_loop (fun grp => keeps_get_bind fun fs => ?_) _ _
  split
  · refine keeps_loop (fun blk => keeps_get_bind fun fs => ?_) _ _
    dsimp only
    split
    · exact keeps_pure ()
    · exact keeps_wrblk _ _
  · exact keeps_pure ()

theorem keeps_geo {α : Type} {x : Op Ext2fs α} (hx : Keeps inMemory x) : Keeps geo x := hx.comp geo

end InMemory

/-! ## Groups with a copy -/

/-- The groups that keep a copy when `sparse_super` is on. -/
def IsBackup (bg : Nat) : Prop :=
  bg = 0 ∨ bg = 1 ∨ (∃ k, bg = 3 ^ k) ∨ (∃ k, bg = 5 ^ k) ∨ ∃ k, bg = 7 ^ k

def Geo.sparseSuper (g : Geo) : Bool := g.isdyn && g.roCompat.testBit 0
def Geo.largeFile (g : Geo) : Bool := g.isdyn && g.roCompat.testBit 1

/-- The groups that keep a copy. -/
def Geo.KeepsCopy (g : Geo) (bg : Nat) : Prop := g.sparseSuper = false ∨ IsBackup bg

/-- The first block of a group. -/
def Geo.start (g : Geo) (bg : Nat) : Nat := g.firstDataBlock + bg * g.blocksPerGroup

/-- A block that the layout reserves: it lies in a group with a copy, among the blocks at the head
of the group that hold the superblock and the descriptors. -/
def Geo.Reserved (g : Geo) (blk : Nat) : Prop :=
  g.firstDataBlock ≤ blk ∧ g.KeepsCopy ((blk - g.firstDataBlock) / g.blocksPerGroup) ∧
    (blk - g.firstDataBlock) % g.blocksPerGroup ≤ g.bgtbln

variable {n bg : Nat} {g : Geo}

variable {base blk : Nat} {fs : Ext2fs} {ts : List Nat} {p : Nat → Bool} {f : Nat → List Nat}
  {l l' : List Nat}

theorem ispowLoop_eq_one {fuel : Nat} (hbase : 2 ≤ base) (hpos : 0 < n) (hle : n ≤ fuel) :
    ispowLoop base fuel n = 1 ↔ ∃ k, n = base ^ k := by
  induction fuel generalizing n with
  | zero => omega
  | succ fuel ih =>
    rw [ispowLoop]
    by_cases hdvd : n % base = 0
    · have hmul : base * (n / base) = n := Nat.mul_div_cancel' (Nat.dvd_of_mod_eq_zero hdvd)
      have hlt : n / base < n := Nat.div_lt_self hpos (by omega)
      have hpos' : 0 < n / base := Nat.div_pos (Nat.le_of_dvd hpos (Nat.dvd_of_mod_eq_zero hdvd))
        (by omega)
      rw [if_pos hdvd, ih hpos' (by omega)]
      constructor
      · rintro ⟨k, hk⟩
        exact ⟨k + 1, by rw [Nat.pow_succ, ← hk, Nat.mul_comm, hmul]⟩
      rintro ⟨k, hk⟩
      cases k with
      | zero =>
        rw [Nat.pow_zero] at hk
        subst hk
        exact absurd (Nat.le_of_dvd (by decide) (Nat.dvd_of_mod_eq_zero hdvd)) (by omega)
      | succ k =>
        exact ⟨k, by rw [hk, Nat.pow_succ, Nat.mul_div_cancel _ (by omega)]⟩
    · rw [if_neg hdvd]
      constructor
      · intro h1
        exact ⟨0, h1⟩
      · rintro ⟨k, hk⟩
        cases k with
        | zero => exact hk
        | succ k => exact absurd (by rw [hk, Nat.pow_succ, Nat.mul_mod_left]) hdvd

theorem ispow_iff (hbase : 2 ≤ base) : ispow n base = true ↔ ∃ k, n = base ^ k := by
  unfold ispow
  by_cases hn : n = 0
  · subst hn
    constructor
    · intro h
      cases h
    · rintro ⟨k, hk⟩
      exact absurd hk.symm (Nat.pow_pos (by omega)).ne'
  · rw [Bool.and_eq_true, bne_iff_ne, beq_iff_eq,
      ispowLoop_eq_one hbase (Nat.pos_of_ne_zero hn) le_rfl]
    exact ⟨fun h => h.2, fun h => ⟨hn, h⟩⟩

theorem isBackup_iff : IsBackup bg ↔
    (bg == 0 || bg == 1 || ispow bg 3 || ispow bg 5 || ispow bg 7) = true := by
  simp only [IsBackup, Bool.or_eq_true, beq_iff_eq, ispow_iff (show 2 ≤ 3 by decide),
    ispow_iff (show 2 ≤ 5 by decide), ispow_iff (show 2 ≤ 7 by decide), or_assoc]

instance (bg : Nat) : Decidable (IsBackup bg) := decidable_of_iff _ isBackup_iff.symm

instance (g : Geo) (blk : Nat) : Decidable (g.Reserved blk) :=
  inferInstanceAs (Decidable (_ ∧ (_ ∨ IsBackup _) ∧ _))

theorem isBackup_of_lt_two (h : bg < 2) : IsBackup bg := by
  unfold IsBackup
  omega

-- a feature word of at most two bits
theorem hasSparse_of_isdyn (hg : g.Mounted) (hdyn : g.isdyn = true) (bg : Nat) :
    g.hasSparse bg = true ↔ g.roCompat.testBit 1 = true ∨ IsBackup bg := by
  have hro := hg.roCompat hdyn
  have hmask : (g.roCompat &&& clearMask 1 != 0) = g.roCompat.testBit 1 := by
    interval_cases g.roCompat <;> decide
  rw [hasSparse, hdyn, Bool.not_true, hmask, isBackup_iff]
  cases g.roCompat.testBit 1 <;> simp

/-- `has_sparse` is right unless both features are on. -/
theorem keepsCopy_of_hasSparse (hg : g.Mounted) (h : g.hasSparse bg = true)
    (hnot : g.sparseSuper = false ∨ g.largeFile = false) : g.KeepsCopy bg := by
  cases hdyn : g.isdyn with
  | false =>
    left
    rw [sparseSuper, hdyn, Bool.false_and]
  | true =>
    rcases hnot with hoff | hsmall
    · exact Or.inl hoff
    rw [largeFile, hdyn, Bool.true_and] at hsmall
    rcases (hasSparse_of_isdyn hg hdyn bg).mp h with hlarge | hbackup
    · rw [hsmall] at hlarge
      cases hlarge
    · exact Or.inr hbackup

/-! ## What the flushes write -/

/-- From `fs` to `fs'` the blocks `ws` were written, and no byte outside of them has changed. -/
structure Wrote (fs fs' : Ext2fs) (ws : List Nat) : Prop where
  geo : fs'.geo = fs.geo
  written : fs'.written = fs.written ++ ws
  frame : ∀ a, (∀ b ∈ ws, ¬ fs.geo.Spans b a) → fs'.disk a = fs.disk a

theorem Wrote.nil (fs : Ext2fs) : Wrote fs fs [] :=
  ⟨rfl, (append_nil _).symm, fun _ _ => rfl⟩

theorem Wrote.putBlock (fs : Ext2fs) (blk : Nat) (buf : Bytes) :
    Wrote fs (fs.putBlock blk buf) [blk] :=
  ⟨rfl, rfl, fun _ ha => putBlock_disk_of_not_spans (ha blk (mem_singleton_self blk)) buf⟩

theorem Wrote.append {fs' fs'' : Ext2fs} {ws ws' : List Nat} (h : Wrote fs fs' ws)
    (h' : Wrote fs' fs'' ws') : Wrote fs fs'' (ws ++ ws') := by
  refine ⟨h'.geo.trans h.geo, by rw [h'.written, h.written, append_assoc], fun a ha => ?_⟩
  rw [h'.frame a, h.frame a (fun b hb => ha b (mem_append_left _ hb))]
  rw [h.geo]
  exact fun b hb => ha b (mem_append_right _ hb)

/-- From every state with the geometry `g` the operation writes the blocks `ts` in this order, and
stops at the first one that is not on the device. -/
def Emits (g : Geo) (x : Op Ext2fs Unit) (ts : List Nat) : Prop :=
  ∀ fs, fs.geo = g →
    Wrote fs (x.after fs) (ts.takeWhile (· < g.blocksCount)) ∧
      if ts.all (· < g.blocksCount) then x.run fs = .ok () (x.after fs)
      else ∃ e, x.run fs = .error e (x.after fs)

section Emits

variable {g : Geo} {x y : Op Ext2fs Unit} {ts us : List Nat}

theorem Emits.of_ok (h : ∀ fs, fs.geo = g → ∃ fs', x.run fs = .ok () fs' ∧ Wrote fs fs' ts)
    (hall : ∀ b ∈ ts, b < g.blocksCount) : Emits g x ts := by
  intro fs hfs
  obtain ⟨fs', hrun, hwrote⟩ := h fs hfs
  have hall' : ts.all (· < g.blocksCount) = true := by simpa using hall
  rw [if_pos hall', Op.after_of_ok hrun, takeWhile_eq_self_iff.mpr (by simpa using hall)]
  exact ⟨hwrote, hrun⟩

theorem Emits.pure : Emits g (pure ()) [] :=
  Emits.of_ok (fun fs _ => ⟨fs, rfl, Wrote.nil fs⟩) (fun _ hb => by cases hb)

theorem emits_wrblk (blk : Nat) (buf : Bytes) : Emits g (wrblk blk buf) [blk] := by
  intro fs hfs
  by_cases hin : blk < fs.geo.blocksCount
  · have hrun := run_wrblk hin buf
    rw [hfs] at hin
    simp only [List.takeWhile, all_cons, all_nil, hin, decide_true, Bool.and_true,
      if_true, Op.after_of_ok hrun]
    exact ⟨Wrote.putBlock fs blk buf, hrun⟩
  · have hrun := run_wrblk_of_ge (Nat.le_of_not_lt hin) buf
    rw [hfs] at hin
    simp only [List.takeWhile, all_cons, all_nil, hin, decide_false, Bool.and_true,
      Bool.false_eq_true, if_false, Op.after_of_error hrun]
    exact ⟨Wrote.nil fs, _, hrun⟩

theorem Emits.orFail (h : Emits g x ts) (code : Int) : Emits g (x.orFail code) ts := by
  intro fs hfs
  obtain ⟨hwrote, hres⟩ := h fs hfs
  split at hres
  · rename_i hall
    have hrun := Op.run_orFail_of_ok hres code
    rw [if_pos hall, Op.after_of_ok hrun]
    exact ⟨hwrote, hrun⟩
  · rename_i hall
    obtain ⟨e, he⟩ := hres
    have hrun := Op.run_orFail_of_error he code
    rw [if_neg hall, Op.after_of_error hrun]
    exact ⟨hwrote, _, hrun⟩

-- a list that stops hides the one after it
theorem takeWhile_append_of_not (h : ¬ ∀ x ∈ l, p x = true) :
    (l ++ l').takeWhile p = l.takeWhile p := by
  rw [takeWhile_append, if_neg]
  intro hlen
  exact h (takeWhile_eq_self_iff.mp ((takeWhile_sublist p).eq_of_length hlen))

theorem Emits.seq (hx : Emits g x ts) (hy : Emits g y us) :
    Emits g (x >>= fun _ => y) (ts ++ us) := by
  intro fs hfs
  obtain ⟨hwrote, hres⟩ := hx fs hfs
  rw [all_append]
  split at hres
  · rename_i hall
    obtain ⟨hwrote', hres'⟩ := hy (x.after fs) (hwrote.geo.trans hfs)
    have hbind : (x >>= fun _ => y).run fs = y.run (x.after fs) := Op.run_bind_of_ok hres _
    have hafter : (x >>= fun _ => y).after fs = y.after (x.after fs) := Op.after_congr hbind
    rw [hall, hafter, hbind, takeWhile_append_of_pos (by simpa using hall)]
    rw [takeWhile_eq_self_iff.mpr (by simpa using hall)] at hwrote
    exact ⟨hwrote.append hwrote', hres'⟩
  · rename_i hall
    obtain ⟨e, he⟩ := hres
    have hbind : (x >>= fun _ => y).run fs = .error e (x.after fs) := Op.run_bind_of_error he _
    rw [Bool.eq_false_of_not_eq_true hall, Bool.false_and, Op.after_of_error hbind]
    rw [takeWhile_append_of_not (by simpa using hall)]
    exact ⟨hwrote, e, hbind⟩

theorem Emits.fail (h : g.blocksCount ≤ blk) (code : Int) : Emits g (Op.fail code) (blk :: ts) := by
  intro fs _
  simp only [List.takeWhile, all_cons, Nat.not_lt_of_le h, decide_false, Bool.false_and,
    Bool.false_eq_true, if_false]
  exact ⟨Wrote.nil fs, _, rfl⟩

theorem Emits.loop {body : Nat → Op Ext2fs Unit} {i : Nat}
    (h : ∀ k < i + n, Emits g (body k) (f k)) :
    Emits g (Op.loop body n i) ((List.range' i n).flatMap f) := by
  induction n generalizing i with
  | zero => exact Emits.pure
  | succ n ih =>
    rw [List.range'_succ]
    exact (h i (by omega)).seq (ih fun k hk => h k (by omega))

end Emits

/-- The blocks of the superblock copies, in the order of `flush_sbs`. -/
def Geo.sbTargets (g : Geo) (i : Nat) : List Nat :=
  if g.hasSparse i then
    [if i = 0 ∧ 1024 < g.blocksz then 0 else g.start i % 2 ^ 32, g.start i % 2 ^ 32]
  else []

/-- The blocks of the descriptor tables, in the order of `flush_bgs`. -/
def Geo.bgTargets (g : Geo) (grp : Nat) : List Nat :=
  if g.hasSparse grp then
    (List.range' 0 g.bgtbln).flatMap fun blk => [((g.start grp + 1) % 2 ^ 32 + blk) % 2 ^ 32]
  else []

-- operations that run alike from `fs` write alike
theorem Emits.congr {x : Op Ext2fs Unit}
    (h : ∀ fs, fs.geo = g → ∃ y, x.run fs = y.run fs ∧ Emits g y ts) : Emits g x ts := by
  intro fs hfs
  obtain ⟨y, hrun, hy⟩ := h fs hfs
  rw [hrun, Op.after_congr hrun]
  exact hy fs hfs

theorem flushSb_emits (g : Geo) (i : Nat) : Emits g (flushSb i) (g.sbTargets i) := by
  apply Emits.congr
  rintro fs rfl
  unfold sbTargets
  by_cases hs : fs.geo.hasSparse i = true
  · rw [if_pos hs]
    by_cases hzero : i = 0 ∧ 1024 < fs.geo.blocksz
    · -- the block that `rdblk` reads is the first one written
      rw [if_pos hzero]
      by_cases hdev : 0 < fs.geo.blocksCount
      · refine ⟨_, ?_, ((emits_wrblk 0 (fs.copySb (blockRead fs.disk (0 * fs.geo.spb % 2 ^ 32))
          1024)).orFail (-1)).seq (emits_wrblk (fs.geo.start i % 2 ^ 32)
          (fs.copySb (blockRead fs.disk (0 * fs.geo.spb % 2 ^ 32)) 1024))⟩
        rw [flushSb, Op.run_get_bind, if_pos hs, if_pos hzero,
          Op.run_bind_of_ok (Op.run_orFail_of_ok (run_rdblk hdev) _)]
        rfl
      · refine ⟨_, ?_, Emits.fail (Nat.le_of_not_lt hdev) (-1)⟩
        rw [flushSb, Op.run_get_bind, if_pos hs, if_pos hzero, Op.run_bind_of_error
            (Op.run_orFail_of_error (run_rdblk_of_ge (Nat.le_of_not_lt hdev)) _)]
        rfl
    · rw [if_neg hzero]
      refine ⟨_, ?_, ((emits_wrblk (fs.geo.start i % 2 ^ 32) (fs.copySb zero 0)).orFail (-1)).seq
        (emits_wrblk (fs.geo.start i % 2 ^ 32) (fs.copySb zero 0))⟩
      rw [flushSb, Op.run_get_bind, if_pos hs, if_neg hzero]
      rfl
  · rw [if_neg hs]
    refine ⟨_, ?_, Emits.pure⟩
    rw [flushSb, Op.run_get_bind, if_neg hs]

theorem flushSbs_emits (g : Geo) :
    Emits g flushSbs ((List.range' 0 g.nbgs).flatMap g.sbTargets) := by
  apply Emits.congr
  rintro fs rfl
  have hloop := Emits.loop (n := fs.geo.nbgs) (i := 0) fun k _ => flushSb_emits fs.geo k
  exact ⟨_, Op.run_get_bind _ _, hloop⟩

theorem Geo.Mounted.blocksz_pos (hg : g.Mounted) : 0 < g.blocksz := by
  obtain ⟨k, -, -, hblocksz⟩ := hg.blocksz
  rw [hblocksz]
  exact Nat.pow_pos (by decide)

-- the table has no block without descriptors
theorem Geo.Mounted.mul_gpb_lt (hg : g.Mounted) (h : blk < g.bgtbln) : blk * g.gpb < g.nbgs := by
  obtain ⟨k, hk, -, hblocksz⟩ := hg.blocksz
  have hpos := hg.blocksz_pos
  have hgpb : g.gpb * 32 = g.blocksz := by
    rw [hg.gpb, hblocksz]
    exact Nat.div_mul_cancel (Nat.pow_dvd_pow 2 (show 5 ≤ k by omega))
  have hlt : blk * g.blocksz < g.nbgs * 32 := by
    rw [hg.bgtbln, Nat.lt_div_iff_mul_lt hpos] at h
    omega
  rw [← hgpb, ← Nat.mul_assoc] at hlt
  omega

theorem flushDesc_emits (hg : g.Mounted) (bgtst : Nat) (h : blk < g.bgtbln) :
    Emits g (flushDesc bgtst blk) [(bgtst + blk) % 2 ^ 32] := by
  apply Emits.congr
  rintro fs rfl
  refine ⟨_, ?_, emits_wrblk ((bgtst + blk) % 2 ^ 32) (copy zero 0 fs.bgs
    (32 * (blk * fs.geo.gpb)) (32 * min (fs.geo.nbgs - blk * fs.geo.gpb) fs.geo.gpb))⟩
  rw [flushDesc, Op.run_get_bind, if_neg (Nat.not_le_of_lt (hg.mul_gpb_lt h))]

theorem flushBg_emits (hg : g.Mounted) (grp : Nat) : Emits g (flushBg grp) (g.bgTargets grp) := by
  apply Emits.congr
  rintro fs rfl
  unfold bgTargets
  by_cases hs : fs.geo.hasSparse grp = true
  · have hloop := Emits.loop (n := fs.geo.bgtbln) (i := 0) fun blk hblk =>
      flushDesc_emits hg ((fs.geo.start grp + 1) % 2 ^ 32) (by omega : blk < fs.geo.bgtbln)
    rw [if_pos hs]
    refine ⟨_, ?_, hloop⟩
    rw [flushBg, Op.run_get_bind, if_pos hs]
    rfl
  · rw [if_neg hs]
    refine ⟨_, ?_, Emits.pure⟩
    rw [flushBg, Op.run_get_bind, if_neg hs]

theorem flushBgs_emits (hg : g.Mounted) :
    Emits g flushBgs ((List.range' 0 g.nbgs).flatMap g.bgTargets) := by
  apply Emits.congr
  rintro fs rfl
  have hloop := Emits.loop (n := fs.geo.nbgs) (i := 0) fun k _ => flushBg_emits hg k
  exact ⟨_, Op.run_get_bind _ _, hloop⟩

theorem mem_takeWhile_append {b : Nat} :
    b ∈ (l ++ l').takeWhile p ↔ b ∈ l.takeWhile p ∨ (∀ x ∈ l, p x = true) ∧ b ∈ l'.takeWhile p := by
  by_cases hall : ∀ x ∈ l, p x = true
  · rw [takeWhile_append_of_pos hall, mem_append, takeWhile_eq_self_iff.mpr hall,
      and_iff_right hall]
  · rw [takeWhile_append_of_not hall, or_iff_left fun h => hall h.1]

-- what is written before the first block off the device
theorem mem_takeWhile_flatMap {i b : Nat} :
    b ∈ ((List.range' i n).flatMap f).takeWhile p ↔
      ∃ k, i ≤ k ∧ k < i + n ∧ (∀ j, i ≤ j → j < k → ∀ x ∈ f j, p x = true) ∧
        b ∈ (f k).takeWhile p := by
  induction n generalizing i with
  | zero =>
    constructor
    · intro h
      cases h
    · omega
  | succ n ih =>
    rw [List.range'_succ, flatMap_cons, mem_takeWhile_append, ih]
    constructor
    · rintro (hb | ⟨hall, k, hik, hkn, hbefore, hb⟩)
      · exact ⟨i, le_rfl, by omega, fun j _ _ => by omega, hb⟩
      refine ⟨k, by omega, by omega, fun j hij hjk => ?_, hb⟩
      by_cases hji : j = i
      · rw [hji]
        exact hall
      · exact hbefore j (by omega) hjk
    · rintro ⟨k, hik, hkn, hbefore, hb⟩
      by_cases hki : k = i
      · left
        rwa [hki] at hb
      · exact Or.inr ⟨hbefore i le_rfl (by omega), k, by omega, by omega,
          fun j hij => hbefore j (by omega), hb⟩

/-! ## When the flushes stay on reserved blocks -/

/-- The block whose place is written for `blk`: the sector number has 32 bits. -/
def Geo.lands (g : Geo) (blk : Nat) : Nat := blk * g.spb % 2 ^ 32 / g.spb

/-- No block number that is written is cut to 32 bits or lies before the first group. -/
structure Geo.FlushStops (g : Geo) : Prop where
  -- `flush_sbs` writes block 0 when blocks are larger than 1024 bytes
  primary : g.blocksz = 1024 ∨ g.firstDataBlock = 0 ∨ g.blocksCount = 0
  -- block numbers beyond 32 bits come after one that is not on the device
  copies : ∀ bg < g.nbgs, g.hasSparse bg = true → 2 ^ 32 ≤ g.start bg →
    ∃ bg' < bg, g.hasSparse bg' = true ∧ g.blocksCount ≤ g.start bg'
  tables : ∀ bg < g.nbgs, g.hasSparse bg = true → 2 ^ 32 ≤ g.start bg + 1 →
    ∃ bg' < bg, g.hasSparse bg' = true ∧ g.blocksCount ≤ g.start bg' + g.bgtbln

/-- The flushes stay on reserved blocks, as far as sector numbers have 32 bits. -/
structure Geo.FlushSafe (g : Geo) : Prop extends g.FlushStops where
  -- all groups keep a copy, or there is no third group, or `has_sparse` is right and the copies
  -- of different groups do not meet
  features : g.sparseSuper = false ∨ g.blocksCount ≤ g.start 2 ∨
    g.largeFile = false ∧ g.bgtbln < g.blocksPerGroup

-- blocks are made of whole sectors, and `2 ^ 32` sectors of whole blocks
theorem Geo.Mounted.div_of_spans (hg : g.Mounted) {a : Nat} (h : g.Spans blk a) :
    a / g.blocksz = g.lands blk := by
  obtain ⟨k, hlow, hhigh, hblocksz⟩ := hg.blocksz
  have hspb : g.spb = 2 ^ (k - 9) := by
    rw [hg.spb, hblocksz, show 512 = 2 ^ 9 from rfl, Nat.pow_div (by omega) (by decide)]
  have hsize : g.spb * 512 = g.blocksz := by
    rw [hspb, hblocksz, show 512 = 2 ^ 9 from rfl, ← Nat.pow_add, Nat.sub_add_cancel (by omega)]
  have hpos : 0 < g.spb := by
    rw [hspb]
    exact Nat.pow_pos (by decide)
  have hdvd : g.spb ∣ 2 ^ 32 := by
    rw [hspb]
    exact Nat.pow_dvd_pow 2 (by omega)
  have hlands : g.lands blk * g.spb = blk * g.spb % 2 ^ 32 :=
    Nat.div_mul_cancel ((Nat.dvd_mod_iff hdvd).mpr (Nat.dvd_mul_left _ _))
  unfold Spans at h
  rw [← hlands, Nat.mul_assoc, hsize] at h
  exact Nat.div_eq_of_lt_le h.1 (by rw [Nat.succ_mul]; exact h.2)

section FlushSafe

variable {g : Geo}

variable {bg : Nat}

theorem Geo.Mounted.mul_lt (hg : g.Mounted) (h : bg < g.nbgs) :
    bg * g.blocksPerGroup < g.blocksCount := by
  have hpos := hg.blocksPerGroup
  rw [hg.nbgs, Nat.lt_div_iff_mul_lt hpos] at h
  omega

variable {bg' blk : Nat}

theorem Geo.start_mono (h : bg ≤ bg') : g.start bg ≤ g.start bg' :=
  Nat.add_le_add_left (Nat.mul_le_mul_right _ h) _

theorem Geo.start_lt (hg : g.Mounted) (h : bg < bg') : g.start bg < g.start bg' :=
  Nat.add_lt_add_left (Nat.mul_lt_mul_of_pos_right h hg.blocksPerGroup) _

-- a block counted from the head of its group
theorem Geo.group_of_start (hg : g.Mounted) (bg k : Nat) : g.firstDataBlock ≤ g.start bg + k ∧
      (g.start bg + k - g.firstDataBlock) / g.blocksPerGroup = bg + k / g.blocksPerGroup ∧
      (g.start bg + k - g.firstDataBlock) % g.blocksPerGroup = k % g.blocksPerGroup := by
  have hsub : g.start bg + k - g.firstDataBlock = g.blocksPerGroup * bg + k := by
    have hcomm := Nat.mul_comm g.blocksPerGroup bg
    unfold start
    omega
  refine ⟨?_, ?_, ?_⟩
  · unfold start
    omega
  · rw [hsub, Nat.mul_add_div hg.blocksPerGroup]
  · rw [hsub, Nat.mul_add_mod]

theorem Geo.FlushSafe.reserved (hg : g.Mounted) (h : g.FlushSafe) {k : Nat}
    (hs : g.hasSparse bg = true) (hk : k ≤ g.bgtbln) (hdev : g.start bg + k < g.blocksCount) :
    g.Reserved (g.start bg + k) := by
  obtain ⟨hle, hdiv, hmod⟩ := group_of_start hg bg k
  refine ⟨hle, ?_, ?_⟩
  · rw [hdiv]
    rcases h.features with hoff | htwo | ⟨hsmall, hfits⟩
    · exact Or.inl hoff
    · -- the block lies before the third group
      right
      apply isBackup_of_lt_two
      by_contra hge
      have hquot : g.start 2 ≤ g.start (bg + k / g.blocksPerGroup) := start_mono (by omega)
      have hpart : g.start (bg + k / g.blocksPerGroup) ≤ g.start bg + k := by
        have := Nat.div_mul_le_self k g.blocksPerGroup
        unfold start
        rw [Nat.add_mul]
        omega
      omega
    · rw [Nat.div_eq_of_lt (by omega)]
      exact keepsCopy_of_hasSparse hg hs (Or.inr hsmall)
  · rw [hmod]
    exact (Nat.mod_le _ _).trans hk

-- of the places that lead back to earlier ones, the last one met is below `2 ^ 32`
theorem exists_fitting {f : Nat → Nat} {Q : Nat → Prop}
    (h : ∀ bg < g.nbgs, g.hasSparse bg = true → 2 ^ 32 ≤ f bg →
      ∃ bg' < bg, g.hasSparse bg' = true ∧ Q bg') (hbg : bg < g.nbgs)
    (hs : g.hasSparse bg = true) (hbig : 2 ^ 32 ≤ f bg) :
    ∃ bg' < bg, g.hasSparse bg' = true ∧ Q bg' ∧ f bg' < 2 ^ 32 := by
  induction bg using Nat.strong_induction_on with
  | _ bg ih =>
    obtain ⟨bg', hlt, hs', hoff⟩ := h bg hbg hs hbig
    by_cases hfit : f bg' < 2 ^ 32
    · exact ⟨bg', hlt, hs', hoff, hfit⟩
    · obtain ⟨bg'', hlt', hrest⟩ := ih bg' hlt (by omega) hs' (by omega)
      exact ⟨bg'', by omega, hrest⟩

-- consecutive block numbers do not jump over the end of the device
theorem consecutive_lt {c m bc : Nat} (hc : c < 2 ^ 32) (hbc : bc < 2 ^ 32)
    (h : ∀ j < m, (c % 2 ^ 32 + j) % 2 ^ 32 < bc) {j : Nat} (hj : j < m) : c + j < bc := by
  by_contra hge
  have hfirst := h (bc - c) (by omega)
  rw [Nat.mod_eq_of_lt hc] at hfirst
  by_cases hle : bc ≤ c
  · omega
  · omega

-- a copy of the superblock that is written is the first block of its group
theorem Geo.FlushStops.flushSbs (h : g.FlushStops) {b : Nat}
    (hb : b ∈ ((List.range' 0 g.nbgs).flatMap g.sbTargets).takeWhile (· < g.blocksCount)) :
    ∃ bg < g.nbgs, g.hasSparse bg = true ∧ b = g.start bg ∧ g.start bg < g.blocksCount := by
  obtain ⟨bg, -, hbg, hbefore, hb⟩ := mem_takeWhile_flatMap.mp hb
  have hdev : b < g.blocksCount := by simpa using mem_takeWhile_imp hb
  have hmem := (takeWhile_sublist _).subset hb
  unfold sbTargets at hmem
  split at hmem
  swap
  · cases hmem
  rename_i hs
  have hcopy : b = g.start bg % 2 ^ 32 → b = g.start bg := by
    intro heq
    by_cases hbig : 2 ^ 32 ≤ g.start bg
    · -- the flush has stopped before
      exfalso
      obtain ⟨bg', hlt, hs', hoff, hfit⟩ := exists_fitting h.copies (by omega) hs hbig
      have hin := hbefore bg' (by omega) hlt (g.start bg' % 2 ^ 32) (by
        rw [sbTargets, if_pos hs']
        simp)
      have := of_decide_eq_true hin
      omega
    · rwa [Nat.mod_eq_of_lt (by omega)] at heq
  have heq : b = g.start bg := by
    rcases mem_cons.mp hmem with hfirst | hsecond
    · split at hfirst
      · -- block 0
        rename_i hzero
        rw [hfirst, hzero.1, start, Nat.zero_mul]
        rcases h.primary with h1024 | h0 | hnone <;> omega
      · exact hcopy hfirst
    · exact hcopy (mem_singleton.mp hsecond)
  exact ⟨bg, by omega, hs, heq, by omega⟩

-- a block of descriptors that is written comes after complete tables
theorem Geo.FlushStops.flushBgs (hg : g.Mounted) (h : g.FlushStops) {b : Nat}
    (hb : b ∈ ((List.range' 0 g.nbgs).flatMap g.bgTargets).takeWhile (· < g.blocksCount)) :
    ∃ bg < g.nbgs, g.hasSparse bg = true ∧
      (∀ bg' < bg, g.hasSparse bg' = true → g.start bg' + g.bgtbln < g.blocksCount) ∧
      ∃ k ≤ g.bgtbln, b = g.start bg + k ∧ g.start bg + k < g.blocksCount := by
  obtain ⟨bg, -, hbg, hbefore, hb⟩ := mem_takeWhile_flatMap.mp hb
  unfold bgTargets at hb
  split at hb
  swap
  · cases hb
  rename_i hs
  obtain ⟨blk, -, hblk, hprev, hb⟩ := mem_takeWhile_flatMap.mp hb
  have hdev : b < g.blocksCount := by simpa using mem_takeWhile_imp hb
  have heq := mem_singleton.mp ((takeWhile_sublist _).subset hb)
  have hfull : ∀ bg' < bg, g.hasSparse bg' = true → g.start bg' + 1 < 2 ^ 32 →
      g.start bg' + g.bgtbln < g.blocksCount := by
    intro bg' hlt hs' hfit
    have hall : ∀ j < g.bgtbln, ((g.start bg' + 1) % 2 ^ 32 + j) % 2 ^ 32 < g.blocksCount := by
      intro j hj
      have := hbefore bg' (by omega) hlt (((g.start bg' + 1) % 2 ^ 32 + j) % 2 ^ 32) (by
        rw [bgTargets, if_pos hs']
        exact mem_flatMap.mpr ⟨j, by simpa using hj, mem_singleton_self _⟩)
      exact of_decide_eq_true this
    have := consecutive_lt hfit hg.blocksCount_lt hall (j := g.bgtbln - 1) (by omega)
    omega
  have hbig : g.start bg + 1 < 2 ^ 32 := by
    by_contra hbig
    obtain ⟨bg', hlt, hs', hoff, hfit⟩ := exists_fitting h.tables (by omega) hs (by omega)
    have := hfull bg' hlt hs' hfit
    omega
  have hall : ∀ j < blk + 1, ((g.start bg + 1) % 2 ^ 32 + j) % 2 ^ 32 < g.blocksCount := by
    intro j hj
    by_cases hjb : j = blk
    · rw [hjb, ← heq]
      exact hdev
    · exact of_decide_eq_true (hprev j (by omega) (by omega) _ (mem_singleton_self _))
  have hlt := consecutive_lt hbig hg.blocksCount_lt hall (j := blk) (by omega)
  have hbc := hg.blocksCount_lt
  refine ⟨bg, by omega, hs, fun bg' hlt' hs' => hfull bg' hlt' hs' ?_, blk + 1, by omega, by omega,
    by omega⟩
  have := start_lt hg hlt'
  omega

theorem Geo.FlushSafe.flushSbs (hg : g.Mounted) (h : g.FlushSafe) :
    ∀ b ∈ ((List.range' 0 g.nbgs).flatMap g.sbTargets).takeWhile (· < g.blocksCount),
      g.Reserved b := by
  intro b hb
  obtain ⟨bg, -, hs, rfl, hdev⟩ := h.toFlushStops.flushSbs hb
  exact h.reserved hg hs (Nat.zero_le _) hdev

theorem Geo.FlushSafe.flushBgs (hg : g.Mounted) (h : g.FlushSafe) :
    ∀ b ∈ ((List.range' 0 g.nbgs).flatMap g.bgTargets).takeWhile (· < g.blocksCount),
      g.Reserved b := by
  intro b hb
  obtain ⟨bg, -, hs, -, k, hk, rfl, hdev⟩ := h.toFlushStops.flushBgs hg hb
  exact h.reserved hg hs hk hdev

/-! ### Other superblocks -/

section

variable (hg : g.Mounted)
  (h : ∀ b ∈ ((List.range' 0 g.nbgs).flatMap g.sbTargets).takeWhile (· < g.blocksCount),
    g.Reserved (g.lands b))
  (h' : ∀ b ∈ ((List.range' 0 g.nbgs).flatMap g.bgTargets).takeWhile (· < g.blocksCount),
    g.Reserved (g.lands b))

include hg

section

include h

end

include h'

end

end FlushSafe

end Ext2
