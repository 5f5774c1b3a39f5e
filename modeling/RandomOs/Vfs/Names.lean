import RandomOs.Vfs.Links

/-!
# Paths of the whole system (`vfs.c`)

The current directory, the mount table, and the parent directory and last name of a path.
-/

namespace Vfs

open Kern Lib Lib.Paths List

structure Sys where
  cwd : Str
  mounts : List Mount

def vfsAbspath (cwd path : Str) (outlen : Nat) : Except Stop Str :=
  if outlen = 0 ∨ path = [] then
    .error (.err (-EINVAL))
  else if path.head? = some slash then
    if path.length + 1 > 1024 then .error (.err (-ETOOSMALL)) else vfsCanonicalize path outlen
  else if cwd.length + 1 + path.length + 1 > 1024 then
    .error (.err (-ETOOSMALL))
  else if 0 < cwd.length ∧ cwd.getLast? ≠ some slash then
    vfsCanonicalize (cwd ++ [slash] ++ path) outlen
  else
    vfsCanonicalize (cwd ++ path) outlen

/-- The mount holds the path, and not only a longer name. -/
def Mount.holds (m : Mount) (abs : Str) : Bool :=
  m.inuse && m.path.isPrefixOf abs &&
    (m.path.length ≤ 1 || abs[m.path.length]? = none || abs[m.path.length]? = some slash)

/-- The loop over the mount table: the last one of the longest. -/
def getmntLoop (abs : Str) : List Mount → Nat → Option Nat → Nat → Option Nat
  | [], _, mnt, _ => mnt
  | m :: ms, i, mnt, mntlen =>
    if m.path.length ≥ mntlen ∧ m.holds abs then
      getmntLoop abs ms (i + 1) (some i) m.path.length
    else
      getmntLoop abs ms (i + 1) mnt mntlen

/-- The number of the mount in the table. -/
def vfsGetmnt (s : Sys) (path : Str) : Option Nat :=
  match vfsAbspath s.cwd path 1024 with
  | .error _ => none
  | .ok abs => getmntLoop abs s.mounts 0 none 0

def Sys.mount (s : Sys) (i : Option Nat) : Option Mount := i.bind (s.mounts[·]?)

def vfsDirname (path : Str) (dirlen : Nat) : Except Stop Str :=
  if dirlen = 0 then
    .error (.err (-EINVAL))
  else
    let p := path.rdropWhile (· == slash)
    let d := p.rdropWhile (· != slash)
    if p = [] then
      if dirlen < 2 then .error (.err (-ETOOSMALL)) else .ok [slash]
    else if d = [] then
      if dirlen < 2 then .error (.err (-ETOOSMALL)) else .ok [dot]
    else if d = [slash] then
      if dirlen < 2 then .error (.err (-ETOOSMALL)) else .ok [slash]
    else if dirlen ≤ d.length - 1 then
      .error (.err (-ETOOSMALL))
    else
      .ok d.dropLast

def vfsBasename (path : Str) (baselen : Nat) : Except Stop Str :=
  if baselen = 0 then
    .error (.err (-EINVAL))
  else
    let p := path.rdropWhile (· == slash)
    let base := p.drop (p.rdropWhile (· != slash)).length
    if p = [] then .ok []
    else if baselen ≤ base.length then .error (.err (-ETOOSMALL))
    else .ok base

/-- `VFS_MUST_BE_DIR | VFS_FOLLOW_FINAL`. -/
def FOLLOW_DIR : Flags := { noSymlinks := false, mustBeDir := true, followFinal := true }

def vfsGetdino (m : Mount) (path : Str) : Except Stop Nat := do
  let dir ← vfsDirname path 1024
  vfsResolve (some m) dir FOLLOW_DIR

/-- A call of the driver of the mount number `i` that changes its files. -/
def change (i : Nat) (f : Mount → Except Stop Table) : Op Sys Unit := fun s =>
  match s.mounts[i]? with
  | none => .error .fault s
  | some m =>
    match f m with
    | .error e => .error e s
    | .ok t => .ok () { s with mounts := s.mounts.set i { m with tbl := t } }

def vfsBaseunlink (i ino : Nat) (path : Str) : Op Sys Unit := do
  let s ← get
  match s.mounts[i]? with
  | none => Op.fault
  | some m => do
    let dino ← Op.ofExcept (vfsGetdino m path)
    let base ← Op.ofExcept (vfsBasename path 1024)
    let inod ← Op.ofExcept (m.tbl.getino ino)
    if inod.lnkcnt > 1 then
      change i fun m => m.tbl.rmlink dino base
    else do
      change i fun m => m.tbl.rmlink dino base
      change i fun m => m.tbl.rmino ino

/-! ## What a path means -/

/-- The mount and the inode that a path leads to. -/
def Sys.resolve (s : Sys) (path : Str) : Except Stop (Nat × Nat) := do
  let abs ← vfsAbspath s.cwd path 1024
  match vfsGetmnt s abs with
  | none => .error (.err (-EINVAL))
  | some i =>
    match s.mounts[i]? with
    | none => .error (.err (-EINVAL))
    | some m => do
      let ino ← m.resolves VFS_MAX_SYMLINKS (comps slash (m.relPath abs))
      .ok (i, ino)

/-- The components of a path below its mount. -/
structure Sys.Below (s : Sys) (path : Str) (i : Nat) (m : Mount) (cs : List Str) : Prop where
  abs : ∃ abs, vfsAbspath s.cwd path 1024 = .ok abs ∧ vfsGetmnt s abs = some i ∧
    comps slash (m.relPath abs) = cs
  mount : s.mounts[i]? = some m

/-- The directory entry that `path` names is looked up on the way along `path'`. -/
def Sys.Through (s : Sys) (path path' : Str) : Prop :=
  ∃ i m p name d cs, s.Below path i m (p ++ [name]) ∧
    walk m true VFS_MAX_SYMLINKS m.rootIno p = .ok d ∧ s.Below path' i m cs ∧
    (d, name) ∈ looked m true VFS_MAX_SYMLINKS m.rootIno cs

def Sys.IsDir (s : Sys) (i ino : Nat) : Prop := ∃ m, s.mounts[i]? = some m ∧ m.tbl.IsDir ino

/-! ## Error codes -/

theorem coded_vfsCanonicalize (path : Str) {outlen : Nat} (hlen : 1 < outlen) :
    Coded (vfsCanonicalize path outlen) := by
  by_cases hpath : path = []
  · unfold vfsCanonicalize
    rw [if_pos (.inr hpath)]
    exact coded_err (by decide)
  rcases vfsCanonicalize_cases hpath (by omega : 0 < outlen) with
    ⟨_, hrun⟩ | ⟨_, hone, _⟩ | ⟨_, _, hrun⟩
  · rw [hrun]
    exact coded_err (by decide)
  · omega
  · rw [hrun]
    exact coded_ok _

theorem coded_vfsAbspath (cwd path : Str) : Coded (vfsAbspath cwd path 1024) := by
  have hcanon := fun p => coded_vfsCanonicalize p (by decide : 1 < 1024)
  unfold vfsAbspath
  split
  · exact coded_err (by decide)
  split
  · split
    · exact coded_err (by decide)
    · exact hcanon _
  · split
    · exact coded_err (by decide)
    · split <;> exact hcanon _

section Coded

variable {m : Mount}

theorem coded_getino (t : Table) (ino : Nat) : Coded (t.getino ino) := by
  unfold Table.getino
  split
  · exact coded_ok _
  · exact coded_err (by decide)

theorem coded_lookup (t : Table) (d : Nat) (name : Str) : Coded (t.lookup d name) := by
  refine (coded_getino t d).bind fun i => ?_
  split
  · split
    · exact coded_ok _
    · exact coded_err (by decide)
  · exact coded_err (by decide)

theorem coded_splitLoop (fuel : Nat) (buf : Str) (p : Nat) (items : List Nat) :
    Coded (splitLoop fuel buf p items) := by
  induction fuel generalizing buf p items with
  | zero => exact coded_ok _
  | succ fuel ih =>
    rw [splitLoop]
    dsimp only
    split
    · exact coded_ok _
    · split
      · exact coded_err (by decide)
      · split <;> exact ih _ _ _

theorem coded_followLink (stk : List Comp) (w : Walk) (nxt : Nat) :
    Coded (followLink m stk w nxt) := by
  have hsym : Coded (m.tbl.readsym nxt VFS_PATH_MAX) := by
    refine (coded_getino _ _).bind fun i => ?_
    split
    · exact coded_err (by decide)
    · exact coded_ok _
  refine hsym.bind fun target => (coded_splitLoop _ _ _ _).bind fun ⟨tgt, lnkbuf⟩ => ?_
  dsimp only
  split
  · exact coded_err (by decide)
  · exact coded_ok _

theorem coded_resolveStep (fl : Flags) (comp : Str) (stk : List Comp) (w : Walk) :
    Coded (resolveStep m fl comp stk w) := by
  unfold resolveStep
  split
  · exact coded_ok _
  split
  · split
    · exact coded_ok _
    · exact (coded_lookup _ _ _).bind fun _ => coded_ok _
  refine (coded_lookup _ _ _).bind fun nxt => (coded_getino _ _).bind fun inod => ?_
  split
  · split
    · exact coded_err (by decide)
    split
    · split
      · exact coded_err (by decide)
      · exact coded_ok _
    · split
      · exact coded_err (by decide)
      · exact coded_followLink _ _ _
  · split
    · exact coded_err (by decide)
    · exact coded_ok _

theorem coded_resolveLoop (fl : Flags) (fuel : Nat) (stk : List Comp) (w : Walk) :
    Coded (resolveLoop m fl fuel stk w) := by
  induction fuel generalizing stk w with
  | zero => cases stk <;> exact coded_ok _
  | succ fuel ih =>
    cases stk with
    | nil => exact coded_ok _
    | cons c stk => exact (coded_resolveStep fl _ _ _).bind fun next => ih next.1 next.2

theorem coded_vfsResolve (m : Option Mount) (path : Str) (fl : Flags) :
    Coded (vfsResolve m path fl) := by
  unfold vfsResolve
  split
  · exact coded_err (by decide)
  split
  · exact coded_err (by decide)
  split
  · exact coded_err (by decide)
  refine (coded_splitLoop _ _ _ _).bind fun next =>
    (coded_resolveLoop fl _ _ _).bind fun ino => ?_
  unfold Mount.finish
  split
  · refine (coded_getino _ _).bind fun inod => ?_
    split
    · exact coded_ok _
    · exact coded_err (by decide)
  · exact coded_ok _

theorem coded_vfsGetdino (path : Str) : Coded (vfsGetdino m path) := by
  have hdir : Coded (vfsDirname path 1024) := by
    unfold vfsDirname
    split
    · exact coded_err (by decide)
    · dsimp only
      repeat' split
      all_goals first | exact coded_err (by decide) | exact coded_ok _
  exact hdir.bind fun dir => coded_vfsResolve _ dir _

theorem coded_vfsBasename (path : Str) (baselen : Nat) : Coded (vfsBasename path baselen) := by
  unfold vfsBasename
  split
  · exact coded_err (by decide)
  · dsimp only
    repeat' split
    all_goals first | exact coded_err (by decide) | exact coded_ok _

end Coded

/-! ## Absolute paths -/

variable {abs path : Str} {st : List Str}

theorem comps_shape {tr : Bool} (h : Shaped st tr) : comps slash (shape st tr) = st := by
  unfold shape
  cases tr with
  | false => rw [if_neg Bool.false_ne_true, append_nil, comps_join h.words]
  | true => rw [if_pos rfl, comps_append_sep, comps_nil, append_nil, comps_join h.words]

/-- The absolute path `abs` has the components `st`. -/
structure IsAbs (abs : Str) (st : List Str) : Prop where
  shape : ∃ tr, Shaped st tr ∧ abs = shape st tr
  dots : NoDots st
  length_lt : abs.length < 1024

theorem IsAbs.comps (h : IsAbs abs st) : comps slash abs = st := by
  obtain ⟨tr, hsh, rfl⟩ := h.shape
  exact comps_shape hsh

theorem isAbs_of_vfsCanonicalize {outlen : Nat} (hpos : 0 < outlen) (hmax : outlen ≤ 1024)
    (h : vfsCanonicalize path outlen = .ok abs) :
    IsAbs abs (canon dot (Paths.comps slash path)) ∧ abs.length < outlen := by
  have hpath : path ≠ [] := by
    rintro rfl
    unfold vfsCanonicalize at h
    rw [if_pos (Or.inr rfl)] at h
    cases h
  rcases vfsCanonicalize_cases hpath hpos with
    ⟨_, hrun⟩ | ⟨_, _, _, hrun⟩ | ⟨_, hlen, hrun⟩
  · rw [hrun] at h
    cases h
  · rw [hrun] at h
    cases h
  · rw [hrun, Except.ok.injEq] at h
    subst h
    refine ⟨⟨⟨_, shaped_canon fun _ hc => word_of_mem_comps hc, rfl⟩, ?_, by omega⟩, hlen⟩
    exact fun c hc => (mem_canon hc).2

theorem isAbs_of_abspath {cwd : Str} {outlen : Nat} (hmax : outlen ≤ 1024)
    (h : vfsAbspath cwd path outlen = .ok abs) : ∃ st, IsAbs abs st ∧ abs.length < outlen ∧
      (0 ∉ cwd → 0 ∉ path → ∀ c ∈ st, 0 ∉ c) := by
  unfold vfsAbspath at h
  split at h
  · cases h
  rename_i hgiven
  have hcanon : ∀ {tmp}, vfsCanonicalize tmp outlen = .ok abs → (0 ∉ cwd → 0 ∉ path → 0 ∉ tmp) →
      ∃ st, IsAbs abs st ∧ abs.length < outlen ∧ (0 ∉ cwd → 0 ∉ path → ∀ c ∈ st, 0 ∉ c) := by
    intro tmp htmp hzero
    obtain ⟨habs, hlen⟩ := isAbs_of_vfsCanonicalize (by omega) hmax htmp
    refine ⟨_, habs, hlen, fun hcwd hpath c hc hmem => ?_⟩
    exact hzero hcwd hpath (mem_of_mem_comps tmp (mem_canon hc).1 hmem)
  split at h
  · split at h
    · cases h
    · exact hcanon h fun _ hpath => hpath
  split at h
  · cases h
  split at h
  · refine hcanon h fun hcwd hpath => ?_
    simp only [mem_append, mem_singleton, not_or]
    exact ⟨⟨hcwd, by decide⟩, hpath⟩
  · refine hcanon h fun hcwd hpath => ?_
    rw [mem_append, not_or]
    exact ⟨hcwd, hpath⟩

theorem isAbs_of_vfsAbspath {cwd : Str} (h : vfsAbspath cwd path 1024 = .ok abs) :
    ∃ st, IsAbs abs st ∧ (0 ∉ cwd → 0 ∉ path → ∀ c ∈ st, 0 ∉ c) := by
  obtain ⟨st, habs, -, hzero⟩ := isAbs_of_abspath (Nat.le_refl _) h
  exact ⟨st, habs, hzero⟩

section IsAbs

variable {abs : Str} {st : List Str}

theorem IsAbs.head (h : IsAbs abs st) : ∃ rest, abs = slash :: rest := by
  obtain ⟨tr, hsh, rfl⟩ := h.shape
  cases st with
  | nil =>
    rw [hsh.root rfl]
    exact ⟨[], rfl⟩
  | cons c st => exact ⟨_, rfl⟩

theorem IsAbs.canonical_eq (h : IsAbs abs st) :
    canonical abs = if st = [] then [slash] else join slash st := by
  unfold canonical
  rw [h.comps, canon_of_noDots h.dots]

-- a second pass only takes a last `/` away
theorem IsAbs.eq_canonical (h : IsAbs abs st) :
    abs = canonical abs ∨ st ≠ [] ∧ abs = canonical abs ++ [slash] := by
  rw [h.canonical_eq]
  obtain ⟨tr, hsh, rfl⟩ := h.shape
  by_cases hnil : st = []
  · left
    rw [hnil, hsh.root hnil]
    rfl
  · rw [if_neg hnil]
    cases tr with
    | false => exact .inl (append_nil _)
    | true => exact .inr ⟨hnil, rfl⟩

theorem IsAbs.abspath (h : IsAbs abs st) (cwd : Str) {outlen : Nat} (hout : abs.length < outlen) :
    vfsAbspath cwd abs outlen = .ok (canonical abs) := by
  obtain ⟨rest, hhead⟩ := h.head
  have hne : abs ≠ [] := by
    rw [hhead]
    exact cons_ne_nil _ _
  have hlen := h.length_lt
  have hjoin : (join slash st).length ≤ abs.length := by
    obtain ⟨tr, _, heq⟩ := h.shape
    rw [heq, length_shape]
    omega
  have hpos : 0 < abs.length := length_pos_iff.mpr hne
  unfold vfsAbspath
  rw [if_neg (by rw [not_or]; exact ⟨by omega, hne⟩), if_pos (by rw [hhead]; rfl),
    if_neg (by omega)]
  apply vfsCanonicalize_of_noDots hne
  · rw [h.comps]
    exact h.dots
  · omega
  · rw [h.comps]
    omega

theorem IsAbs.vfsAbspath (h : IsAbs abs st) (cwd : Str) :
    Vfs.vfsAbspath cwd abs 1024 = .ok (canonical abs) := h.abspath cwd h.length_lt

theorem IsAbs.length_canonical_le (h : IsAbs abs st) : (canonical abs).length ≤ abs.length := by
  rcases h.eq_canonical with heq | ⟨-, heq⟩
  · rw [← heq]
  · have hlen := congrArg length heq
    rw [length_append] at hlen
    omega

/-! ## Mounts -/

variable {i : Nat} {s : Sys} {m : Mount}

theorem getmntLoop_holds {ms : List Mount} {j len : Nat} {mnt : Option Nat}
    (h : getmntLoop abs ms j mnt len = some i) :
    mnt = some i ∨ j ≤ i ∧ ∃ m, ms[i - j]? = some m ∧ m.holds abs = true := by
  induction ms generalizing j mnt len with
  | nil => exact .inl h
  | cons m ms ih =>
    have hnext : ∀ {mnt len}, getmntLoop abs ms (j + 1) mnt len = some i →
        mnt = some i ∨ j ≤ i ∧ ∃ m', (m :: ms)[i - j]? = some m' ∧ m'.holds abs = true := by
      intro mnt len hloop
      cases ih hloop with
      | inl heq => exact .inl heq
      | inr hrest =>
        obtain ⟨hle, m', hm', hholds⟩ := hrest
        refine .inr ⟨by omega, m', ?_, hholds⟩
        rw [show i - j = i - (j + 1) + 1 by omega, List.getElem?_cons_succ, hm']
    unfold getmntLoop at h
    split at h
    · rename_i hm
      cases hnext h with
      | inl heq =>
        rw [Option.some_inj] at heq
        refine .inr ⟨by omega, m, ?_, hm.2⟩
        rw [heq, Nat.sub_self, List.getElem?_cons_zero]
      | inr hrest => exact .inr hrest
    · exact hnext h

theorem IsAbs.holds (h : IsAbs abs st) (hi : vfsGetmnt s abs = some i)
    (hm : s.mounts[i]? = some m) : m.holds (canonical abs) = true := by
  unfold vfsGetmnt at hi
  rw [h.vfsAbspath] at hi
  cases getmntLoop_holds hi with
  | inl heq => cases heq
  | inr hrest =>
    obtain ⟨_, m', hm', hholds⟩ := hrest
    rw [Nat.sub_zero, hm, Option.some_inj] at hm'
    rwa [hm']

-- a mount point ends where a component ends
theorem Mount.holds_split {p : Str} (h : m.holds (slash :: p) = true) :
    ∃ rest, slash :: p = m.path ++ rest ∧
      (m.path = [] ∨ m.path = [slash] ∨ rest = [] ∨ rest.head? = some slash) := by
  unfold Mount.holds at h
  simp only [Bool.and_eq_true, Bool.or_eq_true, decide_eq_true_eq] at h
  obtain ⟨⟨_, hpre⟩, hend⟩ := h
  obtain ⟨rest, hrest⟩ := isPrefixOf_iff_prefix.mp hpre
  refine ⟨rest, hrest.symm, ?_⟩
  have hget : (slash :: p)[m.path.length]? = rest.head? := by
    rw [← hrest, List.getElem?_append_right (Nat.le_refl _), Nat.sub_self]
    cases rest <;> rfl
  rw [hget] at hend
  rcases hend with (hle | hnil) | hslash
  · cases hpath : m.path with
    | nil => exact .inl rfl
    | cons x t =>
      rw [hpath, length_cons] at hle
      have ht : t = [] := length_eq_zero_iff.mp (by omega)
      rw [hpath] at hrest
      have hx := (List.cons.inj hrest).1
      rw [ht, hx]
      exact .inr (.inl rfl)
  · exact .inr (.inr (.inl (List.head?_eq_none_iff.mp hnil)))
  · exact .inr (.inr (.inr hslash))

theorem comps_relPath {path rest : Str} (hpath : path = m.path ++ rest)
    (h : m.path = [] ∨ m.path = [slash] ∨ rest = [] ∨ rest.head? = some slash) :
    comps slash path = comps slash m.path ++ comps slash (m.relPath path) := by
  have hrel : comps slash (m.relPath path) = comps slash rest := by
    unfold Mount.relPath
    have hpre := isPrefixOf_iff_prefix.mpr ⟨rest, hpath.symm⟩
    rw [if_pos hpre, hpath, drop_left]
    dsimp only
    split
    · rename_i hhead
      obtain ⟨t, rfl⟩ := List.head?_eq_some_iff.mp hhead
      rw [tail_cons, comps_sep_cons]
    · rfl
  rw [hrel, hpath]
  rcases h with hnil | hroot | rfl | hhead
  · rw [hnil]
    rfl
  · rw [hroot, singleton_append, comps_sep_cons, comps_sep_cons]
    rfl
  · rw [append_nil, comps_nil, append_nil]
  · obtain ⟨t, rfl⟩ := List.head?_eq_some_iff.mp hhead
    rw [comps_append_sep, comps_sep_cons]

-- the components of a path are those of the mount point and those below it
theorem IsAbs.comps_below (h : IsAbs abs st)
    (hi : vfsGetmnt s abs = some i) (hm : s.mounts[i]? = some m) :
    st = Paths.comps slash m.path ++ Paths.comps slash (m.relPath abs) := by
  have hholds := h.holds hi hm
  obtain ⟨p, hp⟩ : ∃ p, canonical abs = slash :: p := by
    rw [h.canonical_eq]
    cases st with
    | nil => exact ⟨[], rfl⟩
    | cons c st => exact ⟨_, rfl⟩
  rw [hp] at hholds
  obtain ⟨rest, hrest, hend⟩ := Mount.holds_split hholds
  rw [← hp] at hrest
  conv_lhs => rw [← h.comps]
  rcases h.eq_canonical with heq | ⟨hne, heq⟩
  · rw [← heq] at hrest
    exact comps_relPath hrest hend
  rw [hrest, append_assoc] at heq
  refine comps_relPath heq ?_
  rcases hend with hnil | hroot | rfl | hhead
  · exact .inl hnil
  · exact .inr (.inl hroot)
  · exact .inr (.inr (.inr rfl))
  · obtain ⟨t, rfl⟩ := List.head?_eq_some_iff.mp hhead
    exact .inr (.inr (.inr rfl))

/-! ## The last name -/

/-- The last component, or the empty string. -/
def lastName (st : List Str) : Str := st.getLast?.getD []

theorem IsAbs.vfsBasename (h : IsAbs abs st) : Vfs.vfsBasename abs 1024 = .ok (lastName st) := by
  have hlen := h.length_lt
  obtain ⟨tr, hsh, rfl⟩ := h.shape
  unfold Vfs.vfsBasename
  rw [if_neg (by decide)]
  dsimp only
  rcases eq_nil_or_concat st with rfl | ⟨st, w, rfl⟩
  · rw [hsh.root rfl]
    rfl
  rw [concat_eq_append] at hsh hlen ⊢
  have hw := hsh.words w (by simp)
  obtain ⟨w', x, rfl⟩ : ∃ w' x, w = w' ++ [x] := by
    rcases eq_nil_or_concat w with heq | ⟨w', x, heq⟩
    · exact absurd heq hw.1
    · exact ⟨w', x, by rw [heq, concat_eq_append]⟩
  have hx : x ≠ slash := by
    rintro rfl
    exact hw.2 (by simp)
  have hp : (Vfs.shape (st ++ [w' ++ [x]]) tr).rdropWhile (· == slash) =
      join slash st ++ slash :: (w' ++ [x]) := by
    have hend : (join slash st ++ slash :: (w' ++ [x])).rdropWhile (· == slash) =
        join slash st ++ slash :: (w' ++ [x]) := by
      rw [← cons_append, ← append_assoc, rdropWhile_concat_neg _ _ _ (by simpa using hx)]
    unfold Vfs.shape
    rw [join_concat]
    cases tr with
    | false => rw [if_neg Bool.false_ne_true, append_nil, hend]
    | true => rw [if_pos rfl, rdropWhile_concat_pos _ _ _ (by simp), hend]
  have hbase : (join slash st ++ slash :: (w' ++ [x])).drop
      (join slash st ++ [slash]).length = w' ++ [x] := by
    rw [show join slash st ++ slash :: (w' ++ [x]) = join slash st ++ [slash] ++ (w' ++ [x])
      by simp, drop_left]
  rw [hp, rdropWhile_word hw.2, hbase, if_neg (by simp)]
  rw [length_shape, length_join_concat] at hlen
  rw [if_neg (by omega)]
  unfold lastName
  rw [List.getLast?_concat]
  rfl

theorem lastName_concat (st : List Str) (c : Str) : lastName (st ++ [c]) = c := by
  unfold lastName
  rw [List.getLast?_concat]
  rfl

end IsAbs

/-- The second `vfs_abspath` is final, in every working directory and with every buffer that is no
smaller. -/
theorem vfsAbspath_settles {cwd : Str} {n : Nat} (hn : n ≤ 1024)
    (h : vfsAbspath cwd path n = .ok abs) : ∃ out, ∀ d k, n ≤ k →
      vfsAbspath d abs k = .ok out ∧ vfsAbspath d out k = .ok out := by
  obtain ⟨st, habs, hlen, -⟩ := isAbs_of_abspath hn h
  obtain ⟨st', hout, -⟩ := isAbs_of_vfsAbspath (habs.vfsAbspath [])
  have hst : st' = st := by
    rw [← hout.comps, comps_canonical, habs.comps, canon_of_noDots habs.dots]
  have hle := habs.length_canonical_le
  refine ⟨_, fun d k hk => ⟨habs.abspath d (by omega), ?_⟩⟩
  rw [hout.abspath d (by omega), hout.canonical_eq, hst, habs.canonical_eq]

-- ".." in "/a/b" gives "/a/"
theorem vfsAbspath_settles_dotdot : ∃ out, ∀ d k, 5 ≤ k →
    vfsAbspath d [47, 97, 47] k = .ok out ∧ vfsAbspath d out k = .ok out :=
  @vfsAbspath_settles _ [46, 46] [47, 97, 47, 98] 5 (by decide) rfl

/-- For every path with a name in it, directory and base make up the path again. -/
theorem dirname_basename_recompose {dir base : Str} {n m : Nat} (hpath : comps slash path ≠ [])
    (hdir : vfsDirname path n = .ok dir) (hbase : vfsBasename path m = .ok base) :
    Word slash base ∧ canonical (dir ++ slash :: base) = canonical path := by
  have hcs := comps_rdropWhile_sep slash path
  have hlast := rdropWhile_last_not (· == slash) path
  have hp : path.rdropWhile (· == slash) ≠ [] := fun hnil => hpath (by rw [← hcs, hnil, comps_nil])
  unfold vfsDirname at hdir
  unfold vfsBasename at hbase
  unfold canonical
  rw [← hcs]
  generalize path.rdropWhile (· == slash) = p at *
  simp only [hp, if_false] at hdir hbase
  have hsplit := @rdropWhile_append_rtakeWhile _ (· != slash) p
  have hend := rdropWhile_last_not (· != slash) p
  have hword : Word slash (p.rtakeWhile (· != slash)) :=
    ⟨fun hnil => hlast hp (by simpa using rtakeWhile_eq_nil_iff.1 hnil hp),
      fun hmem => by simpa using mem_rtakeWhile_imp hmem⟩
  generalize p.rdropWhile (· != slash) = d, p.rtakeWhile (· != slash) = w at *
  rw [← hsplit, drop_left] at hbase
  have hcs' : canon dot (comps slash (dir ++ slash :: w)) = canon dot (comps slash (d ++ w)) := by
    split_ifs at hdir with _ hd _ hd' <;> cases hdir
    · rw [hd, nil_append, comps_append_sep]
      rfl
    · rw [hd']
      rfl
    · have hx : d.getLast hd = slash := by simpa using hend hd
      rw [← dropLast_concat_getLast hd, hx, append_assoc, dropLast_concat]
      rfl
  split_ifs at hbase
  cases hbase
  rw [hcs', hsplit]
  exact ⟨hword, rfl⟩

-- "a//"
theorem dirname_basename_recompose_a :
    canonical ([dot] ++ slash :: [97]) = canonical [97, slash, slash] :=
  (dirname_basename_recompose (n := 2) (m := 2) (by decide) rfl rfl).2

/-! ## Changed tables -/

def Sys.setTbl (s : Sys) (i : Nat) (m : Mount) (t : Table) : Sys :=
  { s with mounts := s.mounts.set i { m with tbl := t } }

section SetTbl

variable {s : Sys} {i : Nat} {m : Mount} {t : Table} {f : Mount → Except Stop Table}

theorem run_change_of_ok (hm : s.mounts[i]? = some m) (hf : f m = .ok t) :
    (change i f).run s = .ok () (s.setTbl i m t) := by
  show change i f s = _
  unfold change
  rw [hm]
  dsimp only
  rw [hf]
  rfl

theorem run_change_of_error {e : Stop} (hm : s.mounts[i]? = some m) (hf : f m = .error e) :
    (change i f).run s = .error e s := by
  show change i f s = _
  unfold change
  rw [hm]
  dsimp only
  rw [hf]

theorem setTbl_mounts (hm : s.mounts[i]? = some m) (j : Nat) :
    (s.setTbl i m t).mounts[j]? = if j = i then some { m with tbl := t } else s.mounts[j]? := by
  have hi : i < s.mounts.length := (List.getElem?_eq_some_iff.mp hm).1
  show (s.mounts.set i _)[j]? = _
  rw [List.getElem?_set]
  by_cases hj : j = i
  · rw [if_pos hj.symm, if_pos hj, if_pos hi]
  · rw [if_neg (Ne.symm hj), if_neg hj]

theorem setTbl_mount (hm : s.mounts[i]? = some m) (t : Table) :
    (s.setTbl i m t).mounts[i]? = some { m with tbl := t } :=
  (setTbl_mounts hm i).trans (if_pos rfl)

theorem setTbl_setTbl (t' : Table) :
    (s.setTbl i m t).setTbl i { m with tbl := t } t' = s.setTbl i m t' := by
  unfold Sys.setTbl
  rw [List.set_set]

end SetTbl

end Vfs
