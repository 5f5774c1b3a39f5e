import RandomOs.Ext2.Inode
import RandomOs.Lib.Forest

/-!
# The block trees of the files

An inode refers to blocks through its fifteen slots, the last three through tables of pointers of
depth one, two and three.  A volume is sound if the blocks so reached from the regular files and
the directories are data blocks, marked, and in one place each.
-/

namespace Ext2

open Lib Bytes Vol

inductive Node
  | ino (n : Nat)
  | blk (b : Nat)

/-- A pointer on the device; 0 points nowhere. -/
def ptr (w : Nat) : Option Node := if w = 0 then none else some (.blk w)

def Vol.next (v : Vol) : Node → Nat → Option Node
  | .ino n, k => if k < 15 then ptr (iBlock (v.inode n) k) else none
  | .blk b, e => if e < v.geo.ppb then ptr (get32 (v.data b) (4 * e)) else none

/-- An inode in use that is a regular file or a directory. -/
def Vol.Live (v : Vol) (n : Nat) : Prop :=
  v.inUse n = true ∧ (iType (v.inode n) = S_IFREG ∨ iType (v.inode n) = S_IFDIR)

-- the number of tables that a slot goes through
def depth (k : Nat) : Nat := k - 11

/-- The paths from an inode to its tables and data blocks. -/
def Fits : List Nat → Prop
  | [] => True
  | k :: es => es.length ≤ depth k

/-- The paths to data blocks. -/
def Full : List Nat → Prop
  | [] => False
  | k :: es => es.length = depth k

def Vol.ref (v : Vol) (n : Nat) (es : List Nat) : Option Node := walk v.next (.ino n) es

def Vol.Place (v : Vol) (r : Node) (es : List Nat) : Prop := ∃ n, r = .ino n ∧ v.Live n ∧ Fits es

structure Vol.Sound (v : Vol) : Prop where
  spares : v.Spares
  owned : ∀ n es b, v.Live n → Fits es → v.ref n es = some (.blk b) →
    v.geo.IsData b ∧ v.marked b = true
  unique : Unique v.next v.Place

/-! ## Paths -/

variable {es fs : List Nat} {w : Nat}

variable {k : Nat}

theorem fits_cons : Fits (k :: es) ↔ es.length ≤ depth k := Iff.rfl

theorem full_cons : Full (k :: es) ↔ es.length = depth k := Iff.rfl

theorem Fits.of_append (h : Fits (es ++ fs)) : Fits es := by
  cases es with
  | nil => trivial
  | cons k es =>
    rw [List.cons_append, fits_cons, List.length_append] at h
    rw [fits_cons]
    omega

theorem Fits.of_prefix (hfs : Fits fs) (h : es <+: fs) : Fits es := by
  obtain ⟨gs, rfl⟩ := h
  exact hfs.of_append

theorem Full.fits (h : Full es) : Fits es := by
  cases es with
  | nil => trivial
  | cons k es => exact Nat.le_of_eq h

theorem Full.not_fits (h : Full es) (x : Nat) : ¬ Fits (es ++ [x]) := by
  cases es with
  | nil => exact fun _ => h
  | cons k es =>
    rw [full_cons] at h
    rw [List.cons_append, fits_cons, List.length_append, List.length_singleton]
    omega

theorem Vol.Place.of_append {v : Vol} {r : Node} (h : v.Place r (es ++ fs)) : v.Place r es := by
  obtain ⟨n, hr, hlive, hfits⟩ := h
  exact ⟨n, hr, hlive, hfits.of_append⟩

theorem ptr_of_ne (h : w ≠ 0) : ptr w = some (.blk w) := if_neg h

theorem ptr_eq_none : ptr w = none ↔ w = 0 := by
  unfold ptr
  split
  · simp [*]
  · simp [*]

theorem ptr_eq_some {c : Node} (h : ptr w = some c) : c = .blk w ∧ w ≠ 0 := by
  unfold ptr at h
  split at h
  · cases h
  · rename_i hw
    exact ⟨(Option.some.inj h).symm, hw⟩

section Refs

variable {v : Vol}

theorem Vol.next_ino (n k : Nat) :
    v.next (.ino n) k = if k < 15 then ptr (iBlock (v.inode n) k) else none := rfl

theorem Vol.next_blk (b e : Nat) :
    v.next (.blk b) e = if e < v.geo.ppb then ptr (get32 (v.data b) (4 * e)) else none := rfl

-- entries point to blocks
theorem Vol.next_ne_ino (c : Node) (e n : Nat) : v.next c e ≠ some (.ino n) := by
  have hptr : ∀ w, ptr w ≠ some (.ino n) := by
    intro w hw
    cases (ptr_eq_some hw).1
  cases c with
  | ino m =>
    rw [next_ino]
    split
    · exact hptr _
    · exact fun h => by cases h
  | blk b =>
    rw [next_blk]
    split
    · exact hptr _
    · exact fun h => by cases h

theorem Vol.ref_nil (n : Nat) : v.ref n [] = some (.ino n) := rfl

theorem Vol.ref_snoc (n : Nat) (es : List Nat) (e : Nat) :
    v.ref n (es ++ [e]) = (v.ref n es).bind fun c => v.next c e := walk_snoc _ _ _

variable {es : List Nat} {n : Nat}

variable {c : Node} {m : Nat}

theorem Vol.ref_of_snoc {e : Nat} (h : v.ref n es = some c) : v.ref n (es ++ [e]) = v.next c e := by
  rw [ref_snoc, h, Option.bind_some]

-- only the empty path ends at an inode
theorem Vol.ref_eq_ino (h : v.ref n es = some (.ino m)) : es = [] ∧ n = m := by
  rcases List.eq_nil_or_concat es with rfl | ⟨es', e, rfl⟩
  · rw [ref_nil] at h
    cases h
    exact ⟨rfl, rfl⟩
  · rw [List.concat_eq_append, ref_snoc] at h
    obtain ⟨c, -, hc⟩ := Option.bind_eq_some_iff.mp h
    exact absurd hc (next_ne_ino c e m)

theorem Vol.ref_append_none (h : v.ref n es = none) : v.ref n (es ++ fs) = none := by
  unfold ref at h ⊢
  rw [walk_append, h, Option.bind_none]

theorem Vol.Sound.eq_of_ref (hv : v.Sound) (hn : v.Live n)
    (hm : v.Live m) (hes : Fits es) (hfs : Fits fs) (h : v.ref n es = some c)
    (h' : v.ref m fs = some c) : n = m ∧ es = fs := by
  obtain ⟨hr, hpath⟩ := hv.unique (.ino n) es (.ino m) fs c ⟨n, rfl, hn, hes⟩ ⟨m, rfl, hm, hfs⟩ h h'
  cases hr
  exact ⟨rfl, hpath⟩

/-- The blocks of one inode are on the device, each in one place, and its tables are in data
blocks. -/
structure Vol.Tree (v : Vol) (n : Nat) : Prop where
  below : ∀ es b, Fits es → v.ref n es = some (.blk b) → b < v.geo.blocksCount
  tables : ∀ es b, Fits es → ¬ Full es → v.ref n es = some (.blk b) → v.geo.IsData b
  distinct : ∀ es fs b, Fits es → Fits fs → v.ref n es = some (.blk b) →
    v.ref n fs = some (.blk b) → es = fs

theorem Vol.Sound.tree (hv : v.Sound) (hn : v.Live n) : v.Tree n :=
  ⟨fun es b hes h => (hv.owned n es b hn hes h).1.2.1,
    fun es b hes _ h => (hv.owned n es b hn hes h).1,
    fun _ _ _ hes hfs h h' => (hv.eq_of_ref hn hn hes hfs h h').2⟩

end Refs

/-! ## Changes that keep the references -/

section Frame

variable {v v' : Vol}

variable {es : List Nat} {n b : Nat} {x : Bytes}

variable {c : Node} {m : Nat}

-- a file without blocks
theorem Vol.ref_of_empty (hempty : ∀ k < 15, iBlock (v.inode n) k = 0)
    (h : v.ref n es = some c) : es = [] ∧ c = .ino n := by
  cases es with
  | nil =>
    cases h
    exact ⟨rfl, rfl⟩
  | cons k es =>
    have hnext : v.next (.ino n) k = none := by
      rw [next_ino]
      split
      · rename_i hk
        rw [hempty k hk]
        rfl
      · rfl
    unfold ref at h
    rw [walk_cons, hnext] at h
    cases h

theorem Vol.Sound.of_empty (hspares : v.Spares)
    (hempty : ∀ n, v.Live n → ∀ k < 15, iBlock (v.inode n) k = 0) : v.Sound := by
  refine ⟨hspares, fun n es b hn _ href => ?_, fun r es r' es' c hr hr' hes hes' => ?_⟩
  · cases (ref_of_empty (hempty n hn) href).2
  obtain ⟨n, rfl, hn, -⟩ := hr
  obtain ⟨m, rfl, hm, -⟩ := hr'
  obtain ⟨rfl, rfl⟩ := ref_of_empty (hempty n hn) hes
  obtain ⟨rfl, hc⟩ := ref_of_empty (hempty m hm) hes'
  exact ⟨hc, rfl⟩

theorem Vol.Sound.of_refs (hv : v.Sound) (hgeo : v'.geo = v.geo)
    (hmarked : ∀ b, v.marked b = true → v'.marked b = true)
    (hrefs : ∀ n es c, v'.Live n → Fits es → v'.ref n es = some c →
      c = .ino n ∧ es = [] ∨ v.Live n ∧ v.ref n es = some c) : v'.Sound := by
  refine ⟨?_, ?_, ?_⟩
  · intro b hb hdata
    rw [hgeo] at hb hdata
    exact hmarked b (hv.spares b hb hdata)
  · intro n es b hn hes href
    rcases hrefs n es (.blk b) hn hes href with ⟨hino, -⟩ | ⟨hn', href'⟩
    · cases hino
    · obtain ⟨hdata, hmark⟩ := hv.owned n es b hn' hes href'
      rw [hgeo]
      exact ⟨hdata, hmarked b hmark⟩
  · rintro _ es _ es' c ⟨n, rfl, hn, hes⟩ ⟨n', rfl, hn', hes'⟩ h h'
    rcases hrefs n es c hn hes h with ⟨rfl, rfl⟩ | ⟨hlive, href⟩
    · obtain ⟨rfl, rfl⟩ := ref_eq_ino h'
      exact ⟨rfl, rfl⟩
    rcases hrefs n' es' c hn' hes' h' with ⟨rfl, rfl⟩ | ⟨hlive', href'⟩
    · obtain ⟨rfl, rfl⟩ := ref_eq_ino h
      exact ⟨rfl, rfl⟩
    · obtain ⟨rfl, rfl⟩ := hv.eq_of_ref hlive hlive' hes hes' href href'
      exact ⟨rfl, rfl⟩

theorem Vol.Sound.mark (hv : v.Sound) (b : Nat) : (v.mark b true).Sound := by
  apply hv.of_refs (mark_geo v b true)
  · intro x hx
    rw [mark_marked]
    split
    · rfl
    · exact hx
  · exact fun n es c hn _ h => Or.inr ⟨hn, h⟩

theorem Vol.live_setInode (htype : iType x = iType (v.inode n)) (m : Nat) :
    (v.setInode n x).Live m ↔ v.Live m := by
  have htype' : iType ((v.setInode n x).inode m) = iType (v.inode m) := by
    rw [setInode_inode]
    split
    · rename_i hm
      rw [hm, ← htype]
      unfold iType
      rw [get16_trim _ (by decide)]
    · rfl
  unfold Live
  rw [htype', setInode_inUse]

-- what an inode without some of its slots still leads to
theorem Vol.ref_of_setInode
    (hslots : ∀ k < 15, iBlock x k = iBlock (v.inode n) k ∨ iBlock x k = 0)
    (h : (v.setInode n x).ref m es = some c) : v.ref m es = some c := by
  have hnext : ∀ c e d, (v.setInode n x).next c e = some d → v.next c e = some d := by
    intro c e d hd
    cases c with
    | blk b => exact hd
    | ino m =>
      rw [next_ino] at hd ⊢
      split at hd
      swap
      · cases hd
      rename_i hk
      rw [if_pos hk]
      rw [setInode_inode] at hd
      split at hd
      · rename_i hm
        have hword : iBlock (trim 128 x) e = iBlock x e := get32_trim _ (by omega)
        rw [hword] at hd
        subst hm
        rcases hslots e hk with hsame | hzero
        · rwa [hsame] at hd
        · exact absurd hzero (ptr_eq_some hd).2
      · exact hd
  induction es using List.reverseRecOn generalizing c with
  | nil => exact h
  | append_singleton es e ih =>
    rw [ref_snoc] at h ⊢
    obtain ⟨d, hd, hc⟩ := Option.bind_eq_some_iff.mp h
    rw [ih hd]
    exact hnext d e c hc

theorem Vol.Sound.setInode (hv : v.Sound) (htype : iType x = iType (v.inode n))
    (hslots : ∀ k < 15, iBlock x k = iBlock (v.inode n) k ∨ iBlock x k = 0) :
    (v.setInode n x).Sound :=
  hv.of_refs (setInode_geo v n x) (fun _ h => h) fun m _ _ hm _ h =>
    Or.inr ⟨(live_setInode htype m).mp hm, ref_of_setInode hslots h⟩

theorem Vol.ref_congr
    (h : ∀ es₁ x, es₁ ++ [x] <+: es → ∀ d, v.ref n es₁ = some d → v'.next d x = v.next d x) :
    v'.ref n es = v.ref n es := walk_congr h

theorem Vol.Sound.ref_setData (hv : v.Sound) (hn : v.Live n) (hes : Full es)
    (hb : v.ref n es = some (.blk b)) (buf : Bytes) (hm : v.Live m)
    (hfs : Fits fs) : (v.setData b buf).ref m fs = v.ref m fs := by
  apply ref_congr
  intro fs₁ x hpre d hd
  have hfits : Fits (fs₁ ++ [x]) := hfs.of_prefix hpre
  cases d with
  | ino _ => rfl
  | blk b' =>
    have hne : b' ≠ b := by
      rintro rfl
      obtain ⟨-, rfl⟩ := hv.eq_of_ref hm hn hfits.of_append hes.fits hd hb
      exact hes.not_fits x hfits
    rw [next_blk, next_blk, setData_data, if_neg hne, setData_geo]

theorem Vol.Sound.setData (hv : v.Sound) (hn : v.Live n) (hes : Full es)
    (hb : v.ref n es = some (.blk b)) (buf : Bytes) : (v.setData b buf).Sound := by
  apply hv.of_refs (setData_geo v b buf) (fun _ h => h)
  intro m fs c hm hfs h
  right
  refine ⟨hm, ?_⟩
  rwa [hv.ref_setData hn hes hb buf hm hfs] at h

-- nor are those of a block that no one points to
theorem Vol.Sound.setData_unreferenced (hv : v.Sound)
    (hb : ∀ m fs, v.Live m → Fits fs → v.ref m fs ≠ some (.blk b)) (buf : Bytes) :
    (v.setData b buf).Sound := by
  apply hv.of_refs (setData_geo v b buf) (fun _ h => h)
  intro m fs c hm hfs h
  right
  refine ⟨hm, ?_⟩
  rw [← h]
  symm
  apply ref_congr
  intro es x hpre d hd
  cases d with
  | ino _ => rfl
  | blk q =>
    have hne : q ≠ b := by
      rintro rfl
      exact hb m es hm (hfs.of_prefix hpre).of_append hd
    rw [next_blk, next_blk, setData_data, if_neg hne, setData_geo]

theorem Vol.Sound.newInode (hv : v.Sound) (hn : v.inUse n = false)
    (hx : (iType x ≠ S_IFREG ∧ iType x ≠ S_IFDIR) ∨ ∀ k < 15, iBlock x k = 0) :
    ((v.use n).setInode n x).Sound := by
  apply hv.of_refs (setInode_geo (v.use n) n x) (fun _ h => h)
  intro m es c hm hes h
  by_cases hmn : m = n
  · -- the new inode has no references
    left
    subst hmn
    have hinode : ((v.use m).setInode m x).inode m = trim 128 x := by
      rw [setInode_inode, if_pos rfl]
    have hzero : ∀ k < 15, iBlock x k = 0 := by
      rcases hx with hnot | hzero
      · have hlive := hm.2
        rw [hinode] at hlive
        exact absurd hlive (not_or.mpr hnot)
      · exact hzero
    refine (ref_of_empty (fun k hk => ?_) h).symm
    rw [hinode, ← hzero k hk]
    exact get32_trim _ (by omega)
  · right
    have hlive : v.Live m := by
      obtain ⟨huse, htype⟩ := hm
      rw [setInode_inUse, use_inUse, if_neg hmn] at huse
      rw [setInode_inode, if_neg hmn] at htype
      exact ⟨huse, htype⟩
    refine ⟨hlive, ?_⟩
    rw [← h]
    symm
    apply ref_congr
    intro es₁ y _ d hd
    cases d with
    | blk _ => rfl
    | ino m' =>
      obtain ⟨-, rfl⟩ := ref_eq_ino hd
      rw [next_ino, next_ino, setInode_inode, if_neg hmn, use_inode]

end Frame

/-! ## Linking a block -/

/-- Entry `e` of node `c` now points to `b`. -/
structure Vol.Linked (v v' : Vol) (c : Node) (e b : Nat) : Prop where
  geo : v'.geo = v.geo
  live : ∀ n, v'.Live n ↔ v.Live n
  marked : ∀ x, v.marked x = true → v'.marked x = true
  fresh : v'.marked b = true
  entry : v'.next c e = some (.blk b)
  rest : ∀ d x, ¬ (d = c ∧ x = e) → d ≠ .blk b → v'.next d x = v.next d x

section Link

variable {v v' : Vol} {n e b : Nat} {es : List Nat} {c : Node}

/-- A fresh block at an empty place. -/
structure Vol.Vacant (v : Vol) (n : Nat) (es : List Nat) (e : Nat) (c : Node) (b : Nat) :
    Prop where
  live : v.Live n
  fits : Fits (es ++ [e])
  node : v.ref n es = some c
  empty : v.next c e = none
  data : v.geo.IsData b
  free : v.marked b = false

variable {m : Nat}

theorem Vol.Sound.ref_ne_of_free (hv : v.Sound) (hfree : v.marked b = false)
    (hm : v.Live m) (hfs : Fits fs) : v.ref m fs ≠ some (.blk b) := by
  intro h
  rw [(hv.owned m fs b hm hfs h).2] at hfree
  cases hfree

section

variable (hl : v.Linked v' c e b) (hv : v.Sound) (hp : v.Vacant n es e c b)

include hl hv hp

theorem Vol.Linked.rewires : Rewires v.next v'.next v.Place (.ino n) es e c := by
  refine ⟨⟨n, rfl, hp.live, hp.fits⟩, hp.node, ?_⟩
  rintro _ fs x d ⟨m, rfl, hm, hfits⟩ hd hne _
  apply hl.rest d x hne
  rintro rfl
  exact hv.ref_ne_of_free hp.free hm hfits.of_append hd

theorem Vol.Linked.ref_of_ne
    (hleaf : ∀ x, Fits (es ++ [e] ++ [x]) → v'.next (.blk b) x = none)
    (hm : v.Live m) (hfs : Fits fs) (hne : ¬ (m = n ∧ fs = es ++ [e])) :
    v'.ref m fs = v.ref m fs := by
  refine (hl.rewires hv hp).walk_link (fun _ _ _ h => h.of_append) hv.unique hp.empty hl.entry ?_
    ⟨m, rfl, hm, hfs⟩ ?_
  · rintro x gs ⟨_, -, -, hfits⟩
    apply hleaf
    apply @Fits.of_append _ gs
    rwa [List.append_assoc, List.append_assoc]
  · rintro ⟨hino, hpath⟩
    cases hino
    exact hne ⟨rfl, hpath⟩

theorem Vol.Linked.ref_new : v'.ref n (es ++ [e]) = some (.blk b) :=
  (hl.rewires hv hp).walk_new (fun _ _ _ h => h.of_append) hv.unique hl.entry

theorem Vol.Linked.sound
    (hleaf : ∀ x, Fits (es ++ [e] ++ [x]) → v'.next (.blk b) x = none) : v'.Sound := by
  refine ⟨?_, ?_, ?_⟩
  · intro x hx hdata
    rw [hl.geo] at hx hdata
    exact hl.marked x (hv.spares x hx hdata)
  · intro m fs x hm hfs href
    rw [hl.live] at hm
    rw [hl.geo]
    by_cases hplace : m = n ∧ fs = es ++ [e]
    · obtain ⟨rfl, rfl⟩ := hplace
      rw [hl.ref_new hv hp] at href
      cases href
      exact ⟨hp.data, hl.fresh⟩
    · rw [hl.ref_of_ne hv hp hleaf hm hfs hplace] at href
      obtain ⟨hdata, hmark⟩ := hv.owned m fs x hm hfs href
      exact ⟨hdata, hl.marked x hmark⟩
  · have hunique : Unique v'.next v.Place := by
      refine (hl.rewires hv hp).unique_link (fun _ _ _ h => h.of_append) hv.unique hp.empty
        hl.entry ?_ ?_
      · rintro x gs ⟨_, -, -, hfits⟩
        apply hleaf
        apply @Fits.of_append _ gs
        rwa [List.append_assoc, List.append_assoc]
      · rintro _ fs ⟨m, rfl, hm, hfits⟩
        exact hv.ref_ne_of_free hp.free hm hfits
    apply hunique.mono
    rintro _ fs d ⟨m, rfl, hm, hfits⟩ hd
    exact ⟨⟨m, rfl, (hl.live m).mp hm, hfits⟩, hd⟩

end

end Link

/-! ## Dropping the blocks below a place -/

/-- Block or inode `d` is reached through the place `π`. -/
def Vol.Below (v : Vol) (n : Nat) (π : List Nat) (d : Node) : Prop :=
  ∃ ρ, π <+: ρ ∧ Fits ρ ∧ v.ref n ρ = some d

/-- The blocks below the place are given up; nothing else is touched. -/
structure Vol.Drops (v v' : Vol) (n : Nat) (π : List Nat) : Prop where
  geo : v'.geo = v.geo
  live : ∀ m, v'.Live m ↔ v.Live m
  marked : ∀ b, v.marked b = true → v'.marked b = true ∨ v.Below n π (.blk b)

section Drop

variable {v v' : Vol} {n e : Nat} {es : List Nat} {c : Node}

theorem Vol.Drops.sound (hd : v.Drops v' n (es ++ [e])) (hv : v.Sound) (hn : v.Live n)
    (hfits : Fits (es ++ [e])) (hnode : v.ref n es = some c) (hentry : v'.next c e = none)
    (hrest : ∀ d x, ¬ (d = c ∧ x = e) → ¬ v.Below n (es ++ [e]) d → v'.next d x = v.next d x) :
    v'.Sound := by
  have hrewires : Rewires v.next v'.next v.Place (.ino n) es e c := by
    refine ⟨⟨n, rfl, hn, hfits⟩, hnode, ?_⟩
    rintro _ fs x d ⟨m, rfl, hm, hfs⟩ hd' hne hnot
    apply hrest d x hne
    rintro ⟨ρ, hpre, hρ, href⟩
    obtain ⟨rfl, rfl⟩ := hv.eq_of_ref hm hn hfs.of_append hρ hd' href
    exact hnot ⟨rfl, hpre⟩
  -- what is left was there before, and not below the place
  have hrefs : ∀ m fs d, v'.Live m → Fits fs → v'.ref m fs = some d →
      v.Live m ∧ v.ref m fs = some d ∧ ¬ (m = n ∧ es ++ [e] <+: fs) := by
    intro m fs d hm hfs h
    rw [hd.live] at hm
    by_cases hbelow : m = n ∧ es ++ [e] <+: fs
    · obtain ⟨rfl, gs, rfl⟩ := hbelow
      have hnone : walk v'.next (.ino m) (es ++ e :: gs) = none :=
        hrewires.walk_unlink (fun _ _ _ h => h.of_append) hv.unique hentry
      rw [List.append_assoc, List.singleton_append] at h
      unfold ref at h
      rw [hnone] at h
      cases h
    · refine ⟨hm, ?_, hbelow⟩
      rw [← h]
      symm
      refine hrewires.walk_of_not_below (fun _ _ _ h => h.of_append) hv.unique ⟨m, rfl, hm, hfs⟩ ?_
      rintro ⟨hino, hpre⟩
      cases hino
      exact hbelow ⟨rfl, hpre⟩
  refine ⟨?_, ?_, ?_⟩
  · intro b hb hdata
    rw [hd.geo] at hb hdata
    rcases hd.marked b (hv.spares b hb hdata) with hmark | ⟨ρ, -, hρ, href⟩
    · exact hmark
    · exact absurd (hv.owned n ρ b hn hρ href).1 hdata
  · intro m fs b hm hfs h
    obtain ⟨hm', href, hnot⟩ := hrefs m fs (.blk b) hm hfs h
    obtain ⟨hdata, hmark⟩ := hv.owned m fs b hm' hfs href
    rw [hd.geo]
    refine ⟨hdata, ?_⟩
    rcases hd.marked b hmark with hmark' | ⟨ρ, hpre, hρ, href'⟩
    · exact hmark'
    · obtain ⟨rfl, rfl⟩ := hv.eq_of_ref hm' hn hfs hρ href href'
      exact absurd ⟨rfl, hpre⟩ hnot
  · apply hv.unique.mono
    rintro _ fs d ⟨m, rfl, hm, hfs⟩ h
    obtain ⟨hm', href, -⟩ := hrefs m fs d hm hfs h
    exact ⟨⟨m, rfl, hm', hfs⟩, href⟩

end Drop

end Ext2
