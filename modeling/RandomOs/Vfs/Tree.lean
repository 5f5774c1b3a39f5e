import RandomOs.Lib.NameTree
import RandomOs.Vfs.Canon

/-!
# Mounted file systems

A driver is modelled by its inode table.  `lookup`, `getino`, `readsym` and `readdir` read it,
`mklink`, `rmlink` and `rmino` change it.  A directory holds its entries in the order in which a
lookup finds them, `.` and `..` among them.
-/

namespace Vfs

open Kern Lib Lib.Paths Lib.NameTree Function List

def S_IFLNK : Nat := 0xA000

def S_IFREG : Nat := 0x8000

def S_IFDIR : Nat := 0x4000

def sType (mode : Nat) : Nat := mode &&& 0xF000

def VFS_PATH_MAX : Nat := 4096

def VFS_NAME_MAX : Nat := 255

def VFS_MAX_SYMLINKS : Nat := 40

structure Inode where
  mode : Nat
  lnkcnt : Nat
  ents : List (Str × Nat)
  target : Str
  deriving DecidableEq

def Inode.isDir (i : Inode) : Bool := sType i.mode = S_IFDIR

def Inode.isLink (i : Inode) : Bool := sType i.mode = S_IFLNK

abbrev Table := Nat → Option Inode

/-- `vfs_t` with the state of its driver.  `place` is where the driver finds room for one more entry
of a directory: nowhere, in front of the older entries of that name, or behind them. -/
structure Mount where
  inuse : Bool
  path : Str
  rootIno : Nat
  tbl : Table
  place : List (Str × Nat) → Str → Option Bool

namespace Table

def getino (t : Table) (ino : Nat) : Except Stop Inode :=
  match t ino with
  | some i => .ok i
  | none => .error (.err (-ENOENT))

def lookup (t : Table) (dino : Nat) (name : Str) : Except Stop Nat := do
  let d ← t.getino dino
  if d.isDir then
    match d.ents.lookup name with
    | some ino => .ok ino
    | none => .error (.err (-ENOENT))
  else
    .error (.err (-ENOTDIR))

def readsym (t : Table) (ino buflen : Nat) : Except Stop Str := do
  let i ← t.getino ino
  if i.target.length ≥ buflen then .error (.err (-ETOOSMALL)) else .ok i.target

/-- The name of the entry number `pos`. -/
def readdir (t : Table) (dino pos : Nat) : Except Stop Str := do
  let d ← t.getino dino
  match d.ents[pos]? with
  | some e => .ok e.1
  | none => .error (.err (-1))

def set (t : Table) (ino : Nat) (i : Option Inode) : Table := Function.update t ino i

def setEnts (t : Table) (dino : Nat) (ents : List (Str × Nat)) : Table :=
  t.set dino ((t dino).map fun d => { d with ents := ents })

def setLnkcnt (t : Table) (ino : Nat) (f : Nat → Nat) : Table :=
  t.set ino ((t ino).map fun i => { i with lnkcnt := f i.lnkcnt })

def linkEnts (front : Bool) (name : Str) (ino : Nat) (ents : List (Str × Nat)) :
    List (Str × Nat) :=
  if front then (name, ino) :: ents else ents ++ [(name, ino)]

def mklink (t : Table) (place : List (Str × Nat) → Str → Option Bool) (ino dino : Nat)
    (name : Str) : Except Stop Table := do
  let d ← t.getino dino
  match place d.ents name with
  | none => .error (.err (-ENOSPC))
  | some front => .ok ((t.setEnts dino (linkEnts front name ino d.ents)).setLnkcnt ino (· + 1))

def rmlink (t : Table) (dino : Nat) (name : Str) : Except Stop Table := do
  let d ← t.getino dino
  match d.ents.lookup name with
  | none => .error (.err (-ENOENT))
  | some ino => .ok ((t.setEnts dino (d.ents.eraseP (·.1 = name))).setLnkcnt ino (· - 1))

def rmino (t : Table) (ino : Nat) : Except Stop Table := do
  let _ ← t.getino ino
  .ok (t.set ino none)

def IsDir (t : Table) (ino : Nat) : Prop := ∃ i, t ino = some i ∧ i.isDir = true

def IsLink (t : Table) (ino : Nat) : Prop := ∃ i, t ino = some i ∧ i.isLink = true

/-- What a directory entry names. -/
def ent (t : Table) (d : Nat) (name : Str) : Option Nat :=
  match t d with
  | some i => if i.isDir then i.ents.lookup name else none
  | none => none

/-- The entries besides `.` and `..`. -/
def child (t : Table) (d : Nat) (name : Str) : Option Nat :=
  if name = [dot] ∨ name = [dot, dot] then none else t.ent d name

/-- A tree of directories, files and symbolic links.  A file or a link may have several names. -/
structure IsTree (t : Table) (root : Nat) : Prop where
  zero : t 0 = none
  self : ∀ {d}, t.IsDir d → t.ent d [dot] = some d
  rooted : Rooted t.child t.IsDir root
  up : ∀ {d n c}, t.child d n = some c → t.IsDir c → t.ent c [dot, dot] = some d
  up_root : t.ent root [dot, dot] = some root
  present : ∀ {d n c}, t.ent d n = some c → ∃ i, t c = some i
  names : ∀ {d n c}, t.child d n = some c → Word slash n ∧ 0 ∉ n
  nodup : ∀ {d i}, t d = some i → (i.ents.map (·.1)).Nodup
  targets : ∀ {l i}, t l = some i → 0 ∉ i.target

end Table

/-! ## Facts about tables -/

namespace Table

variable {t : Table} {d c : Nat} {n : Str}

theorem lookup_eq_ok_iff : t.lookup d n = .ok c ↔ t.ent d n = some c := by
  unfold lookup ent getino
  cases t d with
  | none => exact ⟨nofun, nofun⟩
  | some i =>
    simp only [bind, Except.bind]
    cases i.isDir with
    | false => simp
    | true => cases i.ents.lookup n <;> simp

theorem child_of_ne (h₁ : n ≠ [dot]) (h₂ : n ≠ [dot, dot]) : t.child d n = t.ent d n :=
  if_neg (not_or.mpr ⟨h₁, h₂⟩)

theorem ent_of_child (h : t.child d n = some c) : t.ent d n = some c := by
  unfold child at h
  split at h
  · cases h
  · exact h

theorem ne_dots_of_child (h : t.child d n = some c) : n ≠ [dot] ∧ n ≠ [dot, dot] := by
  unfold child at h
  split at h
  · cases h
  · rename_i hne
    exact not_or.mp hne

variable {i : Inode}

theorem getino_of_eq_some (h : t c = some i) : t.getino c = .ok i := by
  unfold getino
  rw [h]

theorem isDir_of_ent (h : t.ent d n = some c) : t.IsDir d := by
  unfold ent at h
  cases hd : t d with
  | none =>
    rw [hd] at h
    cases h
  | some i =>
    rw [hd] at h
    cases hdir : i.isDir with
    | true => exact ⟨i, hd, hdir⟩
    | false =>
      simp only [hdir, Bool.false_eq_true, if_false] at h
      cases h

theorem IsDir.isDir_eq (h : t.IsDir c) (hi : t c = some i) : i.isDir = true := by
  obtain ⟨j, hj, hdir⟩ := h
  rw [hi, Option.some_inj] at hj
  rwa [hj]

theorem IsDir.isLink_eq_false (h : t.IsDir c) (hi : t c = some i) : i.isLink = false := by
  unfold Inode.isLink
  rw [of_decide_eq_true (h.isDir_eq hi)]
  decide

theorem IsDir.ent_eq (h : t.IsDir c) (hi : t c = some i) (n : Str) :
    t.ent c n = i.ents.lookup n := by
  unfold ent
  rw [hi]
  exact if_pos (h.isDir_eq hi)

/-- The tables differ only in the entries of directories and in link counts. -/
def SameNodes (t t' : Table) : Prop :=
  ∀ c, (t' c).map (fun i => (i.mode, i.target)) = (t c).map fun i => (i.mode, i.target)

section SameNodes

variable {t' : Table} {i : Inode}

theorem SameNodes.some (h : SameNodes t t') (hi : t c = some i) :
    ∃ i', t' c = some i' ∧ i'.mode = i.mode ∧ i'.target = i.target := by
  have hc := h c
  rw [hi] at hc
  obtain ⟨i', hi', heq⟩ := Option.map_eq_some_iff.mp hc
  exact ⟨i', hi', congrArg Prod.fst heq, congrArg Prod.snd heq⟩

theorem SameNodes.none (h : SameNodes t t') (hc : t c = none) : t' c = none := by
  have hc' := h c
  rw [hc] at hc'
  exact Option.map_eq_none_iff.mp hc'

theorem lookup_congr (h : SameNodes t t') (he : t'.ent d n = t.ent d n) :
    t'.lookup d n = t.lookup d n := by
  unfold lookup getino
  unfold ent at he
  cases hd : t d with
  | none =>
    rw [h.none hd]
  | some i =>
    obtain ⟨i', hi', hmode, _⟩ := h.some hd
    have hdir : i'.isDir = i.isDir := by
      unfold Inode.isDir
      rw [hmode]
    rw [hi', hd] at he
    simp only [hdir] at he
    rw [hi']
    simp only [bind, Except.bind, hdir]
    cases hi : i.isDir with
    | false => rfl
    | true =>
      rw [hi, if_pos rfl, if_pos rfl] at he
      rw [he]

theorem sameNodes_setEnts (t : Table) (dino : Nat) (ents : List (Str × Nat)) :
    SameNodes t (t.setEnts dino ents) := by
  intro c
  unfold setEnts set
  by_cases hc : c = dino
  · rw [hc, update_self, Option.map_map]
    rfl
  · rw [update_of_ne hc]

theorem ent_setEnts (ents : List (Str × Nat)) (hd : t.IsDir d) (e : Nat) (n : Str) :
    (t.setEnts d ents).ent e n = if e = d then ents.lookup n else t.ent e n := by
  unfold setEnts set ent
  by_cases he : e = d
  · obtain ⟨i, hi, hdir⟩ := hd
    rw [he, update_self, hi, if_pos rfl]
    exact if_pos hdir
  · rw [update_of_ne he, if_neg he]

theorem sameNodes_setLnkcnt (t : Table) (ino : Nat) (f : Nat → Nat) :
    SameNodes t (t.setLnkcnt ino f) := by
  intro c
  unfold setLnkcnt set
  by_cases hc : c = ino
  · rw [hc, update_self, Option.map_map]
    rfl
  · rw [update_of_ne hc]

theorem ent_setLnkcnt (t : Table) (ino : Nat) (f : Nat → Nat) (d : Nat) (n : Str) :
    (t.setLnkcnt ino f).ent d n = t.ent d n := by
  unfold setLnkcnt set ent
  by_cases hd : d = ino
  · rw [hd, update_self]
    cases t ino <;> rfl
  · rw [update_of_ne hd]

theorem lookup_linkEnts (front : Bool) (nb : Str) (ino : Nat) (ents : List (Str × Nat)) (n : Str) :
    (linkEnts front nb ino ents).lookup n =
      if n = nb then (if front then some ino else (ents.lookup n).or (some ino))
      else ents.lookup n := by
  unfold linkEnts
  by_cases hn : n = nb
  · subst hn
    cases front with
    | true => simp
    | false => simp [lookup_append]
  · have hbeq : (n == nb) = false := by simpa using hn
    cases front with
    | true => simp [lookup_cons, hbeq, hn]
    | false => simp [lookup_append, lookup_cons, hbeq, hn]

theorem SameNodes.isDir (h : SameNodes t t') (hc : t.IsDir c) : t'.IsDir c := by
  obtain ⟨i, hi, hdir⟩ := hc
  obtain ⟨i', hi', hmode, _⟩ := h.some hi
  refine ⟨i', hi', ?_⟩
  unfold Inode.isDir at hdir ⊢
  rwa [hmode]

theorem SameNodes.trans {t'' : Table} (h : SameNodes t t') (h' : SameNodes t' t'') :
    SameNodes t t'' := fun c => (h' c).trans (h c)

theorem SameNodes.symm (h : SameNodes t t') : SameNodes t' t := fun c => (h c).symm

theorem readsym_congr (h : SameNodes t t') (ino buflen : Nat) :
    t'.readsym ino buflen = t.readsym ino buflen := by
  unfold readsym getino
  cases hi : t ino with
  | none => rw [h.none hi]
  | some i =>
    obtain ⟨i', hi', _, htarget⟩ := h.some hi
    rw [hi']
    simp only [bind, Except.bind, htarget]

end SameNodes

/-- Names lead from the root to `c`, as many as `depth`. -/
def At (t : Table) (root depth c : Nat) : Prop :=
  ∃ p, follow t.child root p = some c ∧ p.length = depth

theorem IsTree.isDir_up {root : Nat} (ht : t.IsTree root) (h : t.ent d [dot, dot] = some c)
    (hd : ∃ depth, t.At root depth d) : t.IsDir c := by
  obtain ⟨_, p, hp, _⟩ := hd
  by_cases hroot : d = root
  · rw [hroot, ht.up_root, Option.some_inj] at h
    rw [← h]
    exact ht.rooted.root_dir
  rcases eq_nil_or_concat p with rfl | ⟨p, n, rfl⟩
  · exact absurd (Option.some_inj.mp hp).symm hroot
  rw [concat_eq_append, follow_concat, Option.bind_eq_some_iff] at hp
  obtain ⟨e, _, he⟩ := hp
  rw [ht.up he (isDir_of_ent h), Option.some_inj] at h
  rw [← h]
  exact ht.rooted.inner he

end Table

/-! ## A small tree

`/a` is an empty directory, `/f` a file and `/l` a link. -/

def smallTable (target : Str) : Table
  | 1 => some
      { mode := S_IFDIR, lnkcnt := 3, target := []
        ents := [([46], 1), ([46, 46], 1), ([97], 2), ([108], 3), ([102], 4)] }
  | 2 => some { mode := S_IFDIR, lnkcnt := 2, target := [], ents := [([46], 2), ([46, 46], 1)] }
  | 3 => some { mode := S_IFLNK, lnkcnt := 1, target := target, ents := [] }
  | 4 => some { mode := S_IFREG, lnkcnt := 1, target := [], ents := [] }
  | _ => none

variable {target n : Str} {d c : Nat}

theorem smallTable_isDir (h : (smallTable target).IsDir d) : d = 1 ∨ d = 2 := by
  obtain ⟨i, hi, hdir⟩ := h
  match d with
  | 0 => cases hi
  | 1 => exact .inl rfl
  | 2 => exact .inr rfl
  | 3 =>
    cases hi
    exact absurd (of_decide_eq_true hdir) (by decide : sType S_IFLNK ≠ S_IFDIR)
  | 4 =>
    cases hi
    cases hdir
  | d + 5 => cases hi

theorem smallTable_ent (h : (smallTable target).ent d n = some c) :
    d = 1 ∧ (n, c) ∈ [([46], 1), ([46, 46], 1), ([97], 2), ([108], 3), ([102], 4)] ∨
      d = 2 ∧ (n, c) ∈ [([46], 2), ([46, 46], 1)] := by
  have hmem : ∀ {l : List (Str × Nat)}, l.lookup n = some c → (n, c) ∈ l := by
    intro l hl
    obtain ⟨a, b, rfl, _⟩ := lookup_eq_some_iff.mp hl
    simp
  rcases smallTable_isDir (Table.isDir_of_ent h) with rfl | rfl
  · exact .inl ⟨rfl, hmem h⟩
  · exact .inr ⟨rfl, hmem h⟩

theorem smallTable_child (h : (smallTable target).child d n = some c) :
    d = 1 ∧ (n, c) ∈ [([97], 2), ([108], 3), ([102], 4)] := by
  have hdots := Table.ne_dots_of_child h
  rcases smallTable_ent (Table.ent_of_child h) with ⟨hd, hmem⟩ | ⟨hd, hmem⟩
  · refine ⟨hd, ?_⟩
    simp only [mem_cons, Prod.mk.injEq] at hmem ⊢
    rcases hmem with ⟨hn, _⟩ | ⟨hn, _⟩ | hmem
    · exact absurd hn hdots.1
    · exact absurd hn hdots.2
    · exact hmem
  · simp only [mem_cons, Prod.mk.injEq, not_mem_nil, or_false] at hmem
    rcases hmem with ⟨hn, _⟩ | ⟨hn, _⟩
    · exact absurd hn hdots.1
    · exact absurd hn hdots.2

theorem smallTable_rooted (target : Str) :
    Rooted (smallTable target).child (smallTable target).IsDir 1 := by
  have hroot : (smallTable target).IsDir 1 := ⟨_, rfl, by decide⟩
  refine ⟨?_, hroot, ?_, ?_, ?_, ⟨fun d => if d = 1 then 0 else 1, ?_⟩⟩
  · intro d n c h
    rw [(smallTable_child h).1]
    exact hroot
  · intro d n h
    have := (smallTable_child h).2
    simp at this
  · intro d e c m n hm hn _
    obtain ⟨rfl, hcm⟩ := smallTable_child hm
    obtain ⟨rfl, hcn⟩ := smallTable_child hn
    simp only [mem_cons, Prod.mk.injEq, not_mem_nil, or_false] at hcm hcn
    refine ⟨rfl, ?_⟩
    rcases hcm with ⟨rfl, rfl⟩ | ⟨rfl, rfl⟩ | ⟨rfl, rfl⟩ <;>
      rcases hcn with ⟨rfl, h⟩ | ⟨rfl, h⟩ | ⟨rfl, h⟩ <;> first | rfl | cases h
  · intro c hc hne
    obtain rfl := (smallTable_isDir hc).resolve_left hne
    exact ⟨1, [97], rfl⟩
  · intro d n c h hc
    obtain ⟨rfl, hmem⟩ := smallTable_child h
    rcases smallTable_isDir hc with rfl | rfl
    · simp at hmem
    · rfl

theorem smallTable_isTree (hzero : 0 ∉ target) : (smallTable target).IsTree 1 := by
  refine ⟨rfl, ?_, smallTable_rooted target, ?_, rfl, ?_, ?_, ?_, ?_⟩
  · intro d hd
    rcases smallTable_isDir hd with rfl | rfl <;> rfl
  · intro d n c h hc
    obtain ⟨rfl, hmem⟩ := smallTable_child h
    rcases smallTable_isDir hc with rfl | rfl <;> rfl
  · intro d n c h
    rcases smallTable_ent h with ⟨_, hmem⟩ | ⟨_, hmem⟩ <;>
      simp only [mem_cons, Prod.mk.injEq, not_mem_nil, or_false] at hmem
    · rcases hmem with ⟨_, rfl⟩ | ⟨_, rfl⟩ | ⟨_, rfl⟩ | ⟨_, rfl⟩ | ⟨_, rfl⟩ <;> exact ⟨_, rfl⟩
    · rcases hmem with ⟨_, rfl⟩ | ⟨_, rfl⟩ <;> exact ⟨_, rfl⟩
  · intro d n c h
    have hmem := (smallTable_child h).2
    simp only [mem_cons, Prod.mk.injEq, not_mem_nil, or_false] at hmem
    rcases hmem with ⟨rfl, _⟩ | ⟨rfl, _⟩ | ⟨rfl, _⟩ <;>
      exact ⟨⟨by decide, by decide⟩, by decide⟩
  · intro d i hi
    match d with
    | 0 => cases hi
    | 1 =>
      cases hi
      decide
    | 2 =>
      cases hi
      decide
    | 3 =>
      cases hi
      exact nodup_nil
    | 4 =>
      cases hi
      decide
    | d + 5 => cases hi
  · intro l i hi
    match l with
    | 0 => cases hi
    | 1 =>
      cases hi
      decide
    | 2 =>
      cases hi
      decide
    | 3 =>
      cases hi
      exact hzero
    | 4 =>
      cases hi
      decide
    | d + 5 => cases hi

/-- The small tree mounted at `/`. -/
def smallMount (target : Str) : Mount :=
  { inuse := true, path := [47], rootIno := 1, tbl := smallTable target
    place := fun _ _ => some false }

end Vfs
