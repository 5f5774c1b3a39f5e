import RandomOs.Vfs.Unlink

/-!
# Moving a name (`rename`, `vfs.c`)

The call links the inode under the new name and removes the old one.  Both parent directories are
looked up from `nname`, and as it is given, so a relative name starts at the root of the mount.

The driver is a parameter.  Its `mklink` and `rmlink` may leave any table behind, also when they
fail; a driver that is exact leaves what the names of the table say, or the table as it was.
-/

namespace Vfs

open Kern Lib Lib.Paths Lib.NameTree List Table

/-- The calls of a driver that change directories, with their outcome and the table they leave. -/
structure Driver where
  mklink : Mount → Nat → Nat → Str → Except Stop Unit × Table
  rmlink : Mount → Nat → Str → Except Stop Unit × Table

/-- A call of the driver of the mount number `i`. -/
def drive (i : Nat) (f : Mount → Except Stop Unit × Table) : Op Sys Unit := fun s =>
  match s.mounts[i]? with
  | none => .error .fault s
  | some m =>
    match f m with
    | (.error e, t) => .error e (s.setTbl i m t)
    | (.ok _, t) => .ok () (s.setTbl i m t)

/-- A call that does what it is asked, or fails and changes nothing. -/
def settled (t : Table) : Except Stop Table → Except Stop Unit × Table
  | .ok t' => (.ok (), t')
  | .error e => (.error e, t)

/-- The driver that keeps its names as the table does. -/
def Driver.plain : Driver where
  mklink m ino dino name := settled m.tbl (m.tbl.mklink m.place ino dino name)
  rmlink m dino name := settled m.tbl (m.tbl.rmlink dino name)

def rename (drv : Driver) (oname nname : Str) : Op Sys Unit := do
  let s ← get
  let oabs ← Op.ofExcept (vfsAbspath s.cwd oname 1024)
  let nabs ← Op.ofExcept (vfsAbspath s.cwd nname 1024)
  let nbase ← Op.ofExcept (vfsBasename nabs 1024)
  let obase ← Op.ofExcept (vfsBasename oabs 1024)
  match vfsGetmnt s oabs, vfsGetmnt s nabs with
  | some i, some j =>
    match s.mounts[i]? with
    | none => Op.fault
    | some m =>
      if i ≠ j then
        Op.fail (-EINVAL)
      else do
        let ino ← Op.ofExcept (vfsResolve (some m) oabs FOLLOW)
        let _ ← Op.ofExcept (m.tbl.getino ino)
        let odino ← Op.ofExcept (vfsGetdino m nname)
        let ndino ← Op.ofExcept (vfsGetdino m nname)
        (drive i fun m => drv.mklink m ino ndino nbase).orFail (-1)
        drive i fun m => drv.rmlink m odino obase
  | _, _ => Op.fault

/-! ## What the call is for -/

section Ents

variable {ents : List (Str × Nat)} {n ob nb : Str} {ino : Nat} {front : Bool}

theorem lookup_eraseP_of_ne (h : n ≠ ob) : (ents.eraseP (·.1 = ob)).lookup n = ents.lookup n := by
  induction ents with
  | nil => rfl
  | cons e ents ih =>
    obtain ⟨a, c⟩ := e
    by_cases ha : a = ob
    · rw [eraseP_cons_of_pos (by simpa using ha), lookup_cons, ha]
      have hbeq : (n == ob) = false := by simpa using h
      rw [hbeq]
    · rw [eraseP_cons_of_neg (by simpa using ha), lookup_cons, lookup_cons, ih]

theorem lookup_eq_none_of_not_mem (h : n ∉ ents.map (·.1)) : ents.lookup n = none := by
  rw [lookup_eq_none_iff]
  intro e he
  rw [bne_iff_ne]
  rintro rfl
  exact h (mem_map_of_mem he)

theorem lookup_eraseP_self (h : (ents.map (·.1)).Nodup) :
    (ents.eraseP (·.1 = ob)).lookup ob = none := by
  induction ents with
  | nil => rfl
  | cons e ents ih =>
    obtain ⟨a, c⟩ := e
    rw [map_cons, nodup_cons] at h
    by_cases ha : a = ob
    · rw [eraseP_cons_of_pos (by simpa using ha)]
      subst ha
      exact lookup_eq_none_of_not_mem h.1
    · have hbeq : (ob == a) = false := by simpa using Ne.symm ha
      rw [eraseP_cons_of_neg (by simpa using ha), lookup_cons, hbeq]
      exact ih h.2

/-- The entries after the name `nb` was linked and `ob` removed. -/
def moveEnts (front : Bool) (nb ob : Str) (ino : Nat) (ents : List (Str × Nat)) :
    List (Str × Nat) :=
  (linkEnts front nb ino ents).eraseP (·.1 = ob)

theorem lookup_moveEnts_of_ne (h : n ≠ ob) : (moveEnts front nb ob ino ents).lookup n =
    if n = nb then (if front then some ino else (ents.lookup n).or (some ino))
    else ents.lookup n := by
  unfold moveEnts
  rw [lookup_eraseP_of_ne h, lookup_linkEnts]

theorem lookup_moveEnts_old (hnodup : (ents.map (·.1)).Nodup) (h : ob ≠ nb) :
    (moveEnts front nb ob ino ents).lookup ob = none := by
  have hbeq : (ob == nb) = false := by simpa using h
  have hne : ¬ nb = ob := Ne.symm h
  unfold moveEnts linkEnts
  cases front with
  | true =>
    rw [if_pos rfl, eraseP_cons_of_neg (by simpa using hne), lookup_cons, hbeq]
    exact lookup_eraseP_self hnodup
  | false =>
    rw [if_neg Bool.false_ne_true, eraseP_append]
    split
    · rw [lookup_append, lookup_eraseP_self hnodup, lookup_cons, hbeq]
      rfl
    rename_i hany
    have hold : ob ∉ ents.map (·.1) := by
      intro hmem
      obtain ⟨e, he, heq⟩ := mem_map.mp hmem
      exact hany (any_eq_true.mpr ⟨e, he, by simpa using heq⟩)
    rw [lookup_append, lookup_eq_none_of_not_mem hold, eraseP_cons_of_neg (by simpa using hne),
      lookup_cons, hbeq]
    rfl

-- the new entry is the one that is removed
theorem moveEnts_same (h : front = true ∨ ents.lookup nb = none) :
    moveEnts front nb nb ino ents = ents := by
  unfold moveEnts linkEnts
  cases front with
  | true => rw [if_pos rfl, eraseP_cons_of_pos (by simp)]
  | false =>
    have hnone := h.resolve_left Bool.false_ne_true
    rw [lookup_eq_none_iff] at hnone
    rw [if_neg Bool.false_ne_true, eraseP_append_right, eraseP_cons_of_pos (by simp),
      append_nil]
    intro e he
    have := hnone e he
    simpa using Ne.symm (bne_iff_ne.mp this)

-- the older entry of the name is removed
theorem lookup_moveEnts_same (hnodup : (ents.map (·.1)).Nodup) {v : Nat}
    (h : ents.lookup nb = some v) : (moveEnts false nb nb ino ents).lookup nb = some ino := by
  obtain ⟨a, b, rfl, _⟩ := lookup_eq_some_iff.mp h
  have herase : (a ++ (nb, v) :: b ++ [(nb, ino)]).eraseP (·.1 = nb) =
      (a ++ (nb, v) :: b).eraseP (·.1 = nb) ++ [(nb, ino)] :=
    eraseP_append_left (a := (nb, v)) (by simp) _ (by simp)
  unfold moveEnts linkEnts
  rw [if_neg Bool.false_ne_true, herase, lookup_append, lookup_eraseP_self hnodup, lookup_cons_self]
  rfl

end Ents

/-! ## Before and after -/

/-- `m'` is `m` after the call: `oname` and `nname` are the paths `ocs` and `ncs` of the mount, with
the last names `ob` and `nb`; `oname` leads to `ino`, and `D` is the directory that is changed. -/
structure Moved (m m' : Mount) (ocs ncs : List Str) (ob nb : Str) (ino D : Nat) (front : Bool) :
    Prop where
  tree : m.tbl.IsTree m.rootIno
  odots : NoDots ocs
  ndots : NoDots ncs
  oplain : Plain m true m.rootIno ocs
  nplain : Plain m true m.rootIno ncs
  found : follow m.tbl.child m.rootIno ocs = some ino
  olast : ∀ p b, ocs = p ++ [b] → b = ob
  nlast : ∀ p b, ncs = p ++ [b] → b = nb
  same : ocs = ncs → ob = nb
  bases : NoDots [ob, nb]
  dir : m.tbl.IsDir D
  shape : SameShape m m'
  ents : ∃ di, m.tbl D = some di ∧ ∀ d n, m'.tbl.ent d n =
    if d = D then (moveEnts front nb ob ino di.ents).lookup n else m.tbl.ent d n

namespace Moved

variable {m m' : Mount} {ocs ncs cs : List Str} {ob nb n : Str} {ino D k : Nat} {fl front : Bool}
  (h : Moved m m' ocs ncs ob nb ino D front)

include h

theorem ent_dir :
    ∃ di : Inode, (di.ents.map (·.1)).Nodup ∧ (∀ n, m.tbl.ent D n = di.ents.lookup n) ∧
      ∀ d n, m'.tbl.ent d n =
        if d = D then (moveEnts front nb ob ino di.ents).lookup n else m.tbl.ent d n := by
  obtain ⟨di, hdi, hent⟩ := h.ents
  exact ⟨di, h.tree.nodup hdi, h.dir.ent_eq hdi, hent⟩

theorem ent_of_ne_dir {d : Nat} (hd : d ≠ D) (n : Str) : m'.tbl.ent d n = m.tbl.ent d n := by
  obtain ⟨di, _, _, hent⟩ := h.ent_dir
  rw [hent, if_neg hd]

theorem ent_of_ne (hn : n ≠ ob) :
    m'.tbl.ent D n =
      if n = nb then (if front then some ino else (m.tbl.ent D n).or (some ino))
      else m.tbl.ent D n := by
  obtain ⟨di, _, hold, hent⟩ := h.ent_dir
  rw [hent, if_pos rfl, lookup_moveEnts_of_ne hn, hold]

theorem ent_old (hne : ob ≠ nb) : m'.tbl.ent D ob = none := by
  obtain ⟨di, hnodup, _, hent⟩ := h.ent_dir
  rw [hent, if_pos rfl, lookup_moveEnts_old hnodup hne]

omit h in
theorem ent_same (h : Moved m m' ocs ncs nb nb ino D front)
    (hplace : front = true ∨ m.tbl.ent D nb = none) (d : Nat) (n : Str) :
    m'.tbl.ent d n = m.tbl.ent d n := by
  obtain ⟨di, _, hold, hent⟩ := h.ent_dir
  rw [hold] at hplace
  by_cases hd : d = D
  · rw [hent, if_pos hd, moveEnts_same hplace, hd, hold]
  · exact h.ent_of_ne_dir hd n

omit h in
theorem ent_behind (h : Moved m m' ocs ncs nb nb ino D false) {v : Nat}
    (hv : m.tbl.ent D nb = some v) : m'.tbl.ent D nb = some ino := by
  obtain ⟨di, hnodup, hold, hent⟩ := h.ent_dir
  rw [hold] at hv
  rw [hent, if_pos rfl, lookup_moveEnts_same hnodup hv]

theorem ino_present : ∃ i, m.tbl ino = some i ∧ i.isLink = false := by
  rcases eq_nil_or_concat ocs with heq | ⟨p, b, heq⟩
  · have hino := h.found
    rw [heq, follow_nil, Option.some_inj] at hino
    have hdir := h.tree.rooted.root_dir
    rw [hino] at hdir
    obtain ⟨i, hi, hi'⟩ := hdir
    exact ⟨i, hi, IsDir.isLink_eq_false ⟨i, hi, hi'⟩ hi⟩
  · rw [concat_eq_append] at heq
    have hino := h.found
    rw [heq, follow_concat, Option.bind_eq_some_iff] at hino
    obtain ⟨P, _, hb⟩ := hino
    obtain ⟨i, hi⟩ := h.tree.present (ent_of_child hb)
    exact ⟨i, hi, h.oplain.isLink_eq_false (by simp [heq]) h.found hi⟩

variable {c : Nat} {d : List Str}

theorem present (hc : m'.tbl.ent D n = some c) : ∃ i, m'.tbl c = some i := by
  have hold : c = ino ∨ m.tbl.ent D n = some c := by
    by_cases hn : n = ob
    · by_cases hne : ob = nb
      · subst hn hne
        by_cases hplace : front = true ∨ m.tbl.ent D n = none
        · rw [h.ent_same hplace] at hc
          exact .inr hc
        rw [not_or, Bool.not_eq_true] at hplace
        obtain ⟨v, hv⟩ := Option.ne_none_iff_exists'.mp hplace.2
        obtain ⟨rfl⟩ := hplace.1
        rw [h.ent_behind hv, Option.some_inj] at hc
        exact .inl hc.symm
      · rw [hn, h.ent_old hne] at hc
        cases hc
    · rw [h.ent_of_ne hn] at hc
      split at hc
      · split at hc
        · exact .inl (Option.some_inj.mp hc).symm
        · rcases Option.or_eq_some_iff.mp hc with hent | ⟨_, hc⟩
          · exact .inr hent
          · exact .inl (Option.some_inj.mp hc).symm
      · exact .inr hc
  have hpresent : ∃ i, m.tbl c = some i := by
    cases hold with
    | inl heq =>
      obtain ⟨i, hi, _⟩ := h.ino_present
      exact ⟨i, by rw [heq, hi]⟩
    | inr hent => exact h.tree.present hent
  obtain ⟨i, hi⟩ := hpresent
  obtain ⟨i', hi', _⟩ := h.shape.nodes.some hi
  exact ⟨i', hi'⟩

/-! ### Paths to the changed directory -/

variable {q rest : List Str}

variable (hd : follow m.tbl.child m.rootIno d = some D)

include hd

end Moved

/-! ## When the call is right -/

namespace Moved

variable {m m' : Mount} {ocs ncs cs : List Str} {ob nb n : Str} {ino D k : Nat} {fl front : Bool}

section

variable (h : Moved m m' ocs ncs ob nb ino D front)

include h

theorem exists_path :
    ∃ d, follow m.tbl.child m.rootIno d = some D := h.tree.rooted.exists_path h.dir

section

variable {d : List Str} (hd : follow m.tbl.child m.rootIno d = some D)

include hd

end

/-! ### Two names -/

end

/-! ### One name -/

section

variable (h : Moved m m' ocs ncs nb nb ino D false)

include h

end

end Moved

/-! ## The call -/

/-- The path `path` is `abs` on the mount number `i`, and none of its components is a link. -/
structure OnMount (s : Sys) (path abs : Str) (i : Nat) (m : Mount) : Prop where
  absolute : vfsAbspath s.cwd path 1024 = .ok abs
  mnt : vfsGetmnt s abs = some i
  mount : s.mounts[i]? = some m
  plain : Plain m true m.rootIno (comps slash (m.relPath abs))
  zero : 0 ∉ s.cwd ∧ 0 ∉ path

/-- `got` is what a call leaves that was to change the table `t` as in `want`. -/
def Exact (t : Table) (got : Except Stop Unit × Table) (want : Except Stop Table) : Prop :=
  match want with
  | .ok t' => got = (.ok (), t')
  | .error _ => ∃ code < 0, got = (.error (.err code), t)

section Run

variable {drv : Driver} {s : Sys} {path oname nname abs oabs nabs : Str} {i : Nat} {m : Mount}

section

variable (h : OnMount s path abs i m)

include h

theorem OnMount.isAbs : IsAbs abs (comps slash abs) ∧ 0 ∉ abs ∧
      comps slash abs = comps slash m.path ++ comps slash (m.relPath abs) := by
  obtain ⟨st, hst, hzero⟩ := isAbs_of_vfsAbspath h.absolute
  obtain rfl := hst.comps
  refine ⟨hst, ?_, hst.comps_below h.mnt h.mount⟩
  have hcs := hzero h.zero.1 h.zero.2
  obtain ⟨tr, hsh, heq⟩ := hst.shape
  rw [heq]
  unfold shape
  rw [mem_append, not_or]
  refine ⟨not_mem_join fun c hc => ⟨hsh.words c hc, hcs c hc⟩, ?_⟩
  cases tr <;> decide

theorem OnMount.noDots : NoDots (comps slash (m.relPath abs)) := by
  obtain ⟨hst, _, hcs⟩ := h.isAbs
  intro c hc
  apply hst.dots c
  rw [hcs]
  exact mem_append_right _ hc

theorem OnMount.last_eq {p : List Str} {b : Str}
    (hp : comps slash (m.relPath abs) = p ++ [b]) : b = lastName (comps slash abs) := by
  rw [h.isAbs.2.2, hp, ← append_assoc, lastName_concat]

theorem OnMount.vfsResolve (ht : m.tbl.IsTree m.rootIno) :
    Vfs.vfsResolve (some m) abs FOLLOW =
      m.resolves VFS_MAX_SYMLINKS (comps slash (m.relPath abs)) := by
  obtain ⟨hst, hzero, _⟩ := h.isAbs
  have hne : abs ≠ [] := by
    obtain ⟨rest, heq⟩ := hst.head
    rw [heq]
    exact cons_ne_nil _ _
  have hlen : (m.relPath abs).length < VFS_PATH_MAX := by
    have h₁ := (m.relPath_suffix abs).length_le
    have h₂ := hst.length_lt
    unfold VFS_PATH_MAX
    omega
  unfold Mount.resolves
  cases hlong : tooLong (comps slash (m.relPath abs)) with
  | true =>
    rw [if_pos rfl]
    exact vfsResolve_long hne hzero hlen hlong
  | false =>
    rw [vfsResolve_follow ⟨hne, hzero, hlen, hlong⟩]
    exact resolveLoop_plain ht (stands_start hlen) h.noDots h.plain

end

theorem noDots_lastName {st : List Str} (h : NoDots st) :
    lastName st ≠ [dot] ∧ lastName st ≠ [dot, dot] := by
  rcases eq_nil_or_concat st with rfl | ⟨st, c, rfl⟩
  · decide
  · rw [concat_eq_append] at h ⊢
    rw [lastName_concat]
    exact h c (by simp)

/-- The table after the first step. -/
def linkedTable (t : Table) (D ino : Nat) (nb : Str) (front : Bool) (ents : List (Str × Nat)) :
    Table :=
  (t.setEnts D (linkEnts front nb ino ents)).setLnkcnt ino (· + 1)

/-- The table after both steps. -/
def movedTable (t : Table) (D ino x : Nat) (nb ob : Str) (front : Bool) (ents : List (Str × Nat)) :
    Table :=
  ((linkedTable t D ino nb front ents).setEnts D (moveEnts front nb ob ino ents)).setLnkcnt x
    (· - 1)

variable {t : Table} {D ino : Nat} {nb ob : Str} {front : Bool} {d : Inode}

variable {ocs ncs : List Str} {ents : List (Str × Nat)}

theorem ent_movedTable {x : Nat} (hD : t.IsDir D) (d : Nat) (n : Str) :
    (movedTable t D ino x nb ob front ents).ent d n =
      if d = D then (moveEnts front nb ob ino ents).lookup n else t.ent d n := by
  have hD' := (sameNodes_setLnkcnt _ ino (· + 1)).isDir
    ((sameNodes_setEnts t D (linkEnts front nb ino ents)).isDir hD)
  unfold movedTable linkedTable
  rw [ent_setLnkcnt, ent_setEnts _ hD']
  split
  · rfl
  · rename_i hne
    rw [ent_setLnkcnt, ent_setEnts _ hD, if_neg hne]

theorem sameNodes_movedTable (t : Table) (D ino x : Nat) (nb ob : Str) (front : Bool)
    (ents : List (Str × Nat)) : SameNodes t (movedTable t D ino x nb ob front ents) :=
  ((((sameNodes_setEnts t D _).trans (sameNodes_setLnkcnt _ ino _)).trans
    (sameNodes_setEnts _ D _)).trans (sameNodes_setLnkcnt _ x _))

theorem OnMount.moved (ho : OnMount s oname oabs i m) (hn : OnMount s nname nabs i m)
    (ht : m.tbl.IsTree m.rootIno) {ino D x : Nat} {d : Inode} {front : Bool}
    (hino : m.resolves VFS_MAX_SYMLINKS (comps slash (m.relPath oabs)) = .ok ino)
    (hD : m.tbl.IsDir D) (hd : m.tbl D = some d) : Moved m
      { m with tbl := (movedTable m.tbl D ino x (lastName (comps slash nabs))
          (lastName (comps slash oabs)) front d.ents) }
      (comps slash (m.relPath oabs)) (comps slash (m.relPath nabs)) (lastName (comps slash oabs))
      (lastName (comps slash nabs)) ino D front where
  tree := ht
  odots := ho.noDots
  ndots := hn.noDots
  oplain := ho.plain
  nplain := hn.plain
  found := by
    unfold Mount.resolves at hino
    split at hino
    · cases hino
    · exact (walk_plain ht ho.noDots ho.plain ino).mp hino
  olast := fun p b hp => ho.last_eq hp
  nlast := fun p b hp => hn.last_eq hp
  same := by
    intro heq
    rw [ho.isAbs.2.2, hn.isAbs.2.2, heq]
  bases := by
    intro c hc
    rw [mem_cons, mem_singleton] at hc
    rcases hc with rfl | rfl
    · exact noDots_lastName ho.isAbs.1.dots
    · exact noDots_lastName hn.isAbs.1.dots
  dir := hD
  shape := ⟨rfl, rfl, sameNodes_movedTable _ _ _ _ _ _ _ _⟩
  ents := ⟨d, hd, fun e n => ent_movedTable hD e n⟩

end Run

end Vfs
