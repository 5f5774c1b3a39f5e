import RandomOs.Lib.Runs
import RandomOs.Ramfs.Inode

/-!
# Directories of the memory file system (`ramfs.c`)

A directory is an array of entries, and `size` counts them.  `ramfs_mklink` adds to the size even
where it fills an entry that `ramfs_rmlink` has freed, so that the array then has one entry more
than was ever written.
-/

namespace Ramfs

open Lib Kern Function List

/-! ## Scans -/

/-- What a scan of `n` entries from `i` on finds. -/
def First (p : Nat → Bool) (i n : Nat) : Option Nat → Prop
  | none => ∀ j, i ≤ j → j < i + n → p j = false
  | some k => i ≤ k ∧ k < i + n ∧ p k = true ∧ ∀ j, i ≤ j → j < k → p j = false

variable {slots : Nat → Dirent} {ino : Nat}

theorem findSlot_first {d : Inode} (hdata : d.data = .dir slots) {test : Dirent → Except Stop Bool}
    {p : Nat → Bool} {n i : Nat} (hbound : 24 * (i + n) ≤ d.allocd)
    (htest : ∀ j, i ≤ j → j < i + n → test (slots j) = .ok (p j)) :
    ∃ r, d.findSlot test n i = .ok r ∧ First p i n r := by
  induction n generalizing i with
  | zero => exact ⟨none, rfl, fun j hij hj => by omega⟩
  | succ n ih =>
    have hslot : d.slot i = .ok (slots i) := by
      unfold Inode.slot
      rw [hdata]
      exact if_pos (by omega)
    have hstep : d.findSlot test (n + 1) i =
        if p i = true then .ok (some i) else d.findSlot test n (i + 1) := by
      change (d.slot i >>= fun e => test e >>= fun b =>
        if b = true then pure (some i) else d.findSlot test n (i + 1)) = _
      rw [hslot]
      change (test (slots i) >>= fun b => _) = _
      rw [htest i (by omega) (by omega)]
      rfl
    rw [hstep]
    split
    · rename_i hp
      exact ⟨some i, rfl, by omega, by omega, hp, fun j hij hj => by omega⟩
    rename_i hp
    obtain ⟨r, hr, hfirst⟩ := ih (i := i + 1) (by omega)
      (fun j hij hj => htest j (by omega) (by omega))
    have hhere : ∀ j, i ≤ j → j < i + 1 → p j = false := by
      intro j hij hj
      rw [show j = i by omega]
      exact Bool.eq_false_iff.2 hp
    refine ⟨r, hr, ?_⟩
    cases r with
    | none =>
      intro j hij hj
      by_cases hji : j < i + 1
      · exact hhere j hij hji
      · exact hfirst j (by omega) (by omega)
    | some k =>
      obtain ⟨hik, hk, hpk, hbefore⟩ := hfirst
      refine ⟨by omega, by omega, hpk, fun j hij hj => ?_⟩
      by_cases hji : j < i + 1
      · exact hhere j hij hji
      · exact hbefore j (by omega) hj

theorem strneq_iff {s t : List UInt8} (hs : 0 ∉ s) (ht : 0 ∉ t) :
    strneq s t (t.length + 1) = true ↔ s = t := by
  unfold strneq
  rw [all_eq_true]
  constructor
  · intro h
    have hbyte : ∀ i ≤ t.length, s.getD i 0 = t.getD i 0 := by
      intro i hi
      exact eq_of_beq (h i (mem_range.2 (by omega)))
    -- the NUL of one string stands at the end of the other
    have hlen : s.length = t.length := by
      rcases Nat.lt_trichotomy s.length t.length with hlt | heq | hgt
      · have h0 := hbyte s.length (by omega)
        rw [getD_eq_default _ _ (Nat.le_refl _), getD_eq_getElem _ _ hlt] at h0
        exact absurd (h0 ▸ getElem_mem hlt) ht
      · exact heq
      · have h0 := hbyte t.length (Nat.le_refl _)
        rw [getD_eq_default t 0 (Nat.le_refl _), getD_eq_getElem _ _ hgt] at h0
        exact absurd (h0 ▸ getElem_mem hgt) hs
    refine ext_getElem hlen fun i hi hi' => ?_
    have hi0 := hbyte i (by omega)
    rwa [getD_eq_getElem _ _ hi, getD_eq_getElem _ _ hi'] at hi0
  · rintro rfl i _
    exact beq_self_eq_true _

/-! ## Directories as maps -/

/-- The entry that `ramfs_mklink` writes. -/
def linkEnt (ino : Nat) (name : CString) : Dirent :=
  ⟨true, ino, (name.1.length + 1) % 2 ^ 32, some name.1⟩

/-- Names whose length, with the NUL, fits `namlen`. -/
def Short (name : CString) : Prop := name.1.length + 1 < 2 ^ 32

instance (name : CString) : Decidable (Short name) := inferInstanceAs (Decidable (_ < _))

def Inode.entry (d : Inode) (i : Nat) : Dirent :=
  match d.data with
  | .dir slots => slots i
  | .raw _ => ⟨false, 0, 0, none⟩

open Inode

/-- The directory `d` stores the links `m`. -/
structure DirMap (d : Inode) (m : CString → Option Nat) : Prop where
  isDir : ∃ slots, d.data = .dir slots
  size_eq : d.size = 24 * d.ndirs
  size_le : d.size ≤ d.allocd
  allocd_lt : d.allocd < 2 ^ 63
  live : ∀ i < d.ndirs, (d.entry i).used = true →
    ∃ ino name, Short name ∧ d.entry i = linkEnt ino name
  links : ∀ name ino, m name = some ino ↔ ∃ i < d.ndirs, d.entry i = linkEnt ino name
  inj : ∀ i < d.ndirs, ∀ j < d.ndirs, (d.entry i).used = true → (d.entry j).used = true →
    (d.entry i).namep = (d.entry j).namep → i = j

/-- No entry that counts has been freed. -/
def Inode.NoDead (d : Inode) : Prop := ∀ i < d.ndirs, (d.entry i).used = true

-- whether entry `i` is found under a name
def Inode.hasName (d : Inode) (name : CString) (i : Nat) : Bool :=
  (d.entry i).used && decide ((d.entry i).namep = some name.1)

theorem named_linkEnt {name text : CString} (h : Short text) :
    (linkEnt ino text).named name = .ok (decide (text.1 = name.1)) := by
  have hmod : (text.1.length + 1) % 2 ^ 32 = text.1.length + 1 := Nat.mod_eq_of_lt h
  unfold Dirent.named linkEnt
  dsimp only
  by_cases hlen : text.1.length = name.1.length
  · rw [if_pos ⟨rfl, by omega⟩]
    congr 1
    rw [Bool.eq_iff_iff, strneq_iff text.2 name.2, decide_eq_true_iff]
  · rw [if_neg (by simp only [true_and]; omega), decide_eq_false (fun h => hlen (by rw [h]))]

section DirMap

variable {d : Inode} {m : CString → Option Nat}

theorem Inode.entry_eq (hdata : d.data = .dir slots) (i : Nat) : d.entry i = slots i := by
  unfold entry
  rw [hdata]

variable {i : Nat} {name : CString}

theorem DirMap.slot (hd : DirMap d m) (hi : i < d.ndirs) : d.slot i = .ok (d.entry i) := by
  obtain ⟨slots, hdata⟩ := hd.isDir
  have hsize := hd.size_eq
  have hle := hd.size_le
  rw [entry_eq hdata]
  unfold Inode.slot
  rw [hdata]
  exact if_pos (by omega)

theorem DirMap.named (hd : DirMap d m) (name : CString) (hi : i < d.ndirs) :
    (d.entry i).named name = .ok (d.hasName name i) := by
  unfold hasName
  cases hused : (d.entry i).used with
  | false =>
    unfold Dirent.named
    rw [hused]
    rfl
  | true =>
    obtain ⟨ino, text, hshort, hent⟩ := hd.live i hi hused
    rw [hent, named_linkEnt hshort]
    change _ = Except.ok (true && decide (some text.1 = some name.1))
    rw [Bool.true_and]
    simp only [Option.some.injEq]

-- the loop of `ramfs_lookup` and `ramfs_rmlink`
theorem DirMap.find (hd : DirMap d m) (name : CString) :
    ∃ r, d.findSlot (Dirent.named name) d.ndirs 0 = .ok r ∧ First (d.hasName name) 0 d.ndirs r := by
  obtain ⟨slots, hdata⟩ := hd.isDir
  have hsize := hd.size_eq
  have hle := hd.size_le
  apply findSlot_first hdata (by omega)
  intro j _ hj
  rw [← entry_eq hdata]
  exact hd.named name (by omega)

-- the loop of `ramfs_mklink`
theorem DirMap.findDead (hd : DirMap d m) : ∃ r, d.findSlot Dirent.dead d.ndirs 0 = .ok r ∧
      First (fun i => !(d.entry i).used) 0 d.ndirs r := by
  obtain ⟨slots, hdata⟩ := hd.isDir
  have hsize := hd.size_eq
  have hle := hd.size_le
  apply findSlot_first hdata (by omega)
  intro j _ _
  rw [entry_eq hdata]
  rfl

theorem DirMap.entry_of_hasName (hd : DirMap d m) (hi : i < d.ndirs) (h : d.hasName name i = true) :
    ∃ ino, d.entry i = linkEnt ino name ∧ m name = some ino := by
  unfold hasName at h
  rw [Bool.and_eq_true, decide_eq_true_iff] at h
  obtain ⟨ino, text, -, hent⟩ := hd.live i hi h.1
  have htext : text = name := by
    rw [hent] at h
    exact Subtype.ext (Option.some.inj h.2)
  subst htext
  exact ⟨ino, hent, (hd.links _ _).2 ⟨i, hi, hent⟩⟩

theorem hasName_linkEnt (h : d.entry i = linkEnt ino name) : d.hasName name i = true := by
  unfold hasName
  rw [h]
  exact decide_eq_true rfl

theorem DirMap.find_none (hd : DirMap d m) (h : First (d.hasName name) 0 d.ndirs none) :
    m name = none := by
  rw [Option.eq_none_iff_forall_ne_some]
  intro ino hino
  obtain ⟨i, hi, hent⟩ := (hd.links name ino).1 hino
  have hfalse := h i (Nat.zero_le _) (by omega)
  rw [hasName_linkEnt hent] at hfalse
  exact Bool.false_ne_true hfalse.symm

end DirMap

/-! ## Calls -/

section Calls

variable {fs : Info} {dino : Nat} {m : CString → Option Nat}

/-- `ramfs_lookup` reads the map. -/
theorem run_lookup (hhas : fs.Has dino) (hd : DirMap (fs.inode dino) m) (name : CString) :
    (ramfsLookup dino name).run fs = match m name with
      | some ino => .ok ino fs
      | none => .error (.err (-ENOENT)) fs := by
  obtain ⟨r, hfind, hfirst⟩ := hd.find name
  unfold ramfsLookup
  rw [Op.run_bind_of_ok (run_getinod hhas), Op.run_ofExcept_bind, hfind]
  cases r with
  | none =>
    rw [hd.find_none hfirst]
    rfl
  | some i =>
    obtain ⟨-, hi, hname, -⟩ := hfirst
    obtain ⟨ino, hent, hino⟩ := hd.entry_of_hasName (by omega) hname
    rw [hino]
    dsimp only
    rw [hd.slot (by omega), hent]
    rfl

variable {d : Inode}

/-- With every entry in use, `ramfs_mklink` takes the one behind the last. -/
theorem DirMap.tgtent (hd : DirMap d m) (hfull : d.NoDead) :
    d.tgtent = .ok (d.ndirs, decide (d.allocd < d.size + 24)) := by
  obtain ⟨r, hfind, hfirst⟩ := hd.findDead
  have hsize := hd.size_eq
  have hle := hd.size_le
  have hlt := hd.allocd_lt
  unfold Inode.tgtent
  rw [hfind]
  cases r with
  | some i =>
    obtain ⟨-, hi, hdead, -⟩ := hfirst
    dsimp only at hdead
    rw [hfull i (by omega)] at hdead
    exact absurd hdead (by decide)
  | none =>
    rw [Nat.mod_eq_of_lt (by omega)]
    by_cases hgrow : d.allocd < d.size + 24
    · rw [if_pos hgrow, decide_eq_true hgrow, show d.allocd / 24 = d.ndirs by omega]
      rfl
    · rw [if_neg hgrow, decide_eq_false hgrow]
      rfl

/-- `d'` is `d` with one more entry. -/
structure Appended (ino : Nat) (name : CString) (d d' : Inode) : Prop where
  used : d'.used = d.used
  mode : d'.mode = d.mode
  isDir : ∃ slots, d'.data = .dir slots
  size : d'.size = d.size + 24
  size_le : d'.size ≤ d'.allocd
  allocd_lt : d'.allocd < 2 ^ 63
  entry : ∀ i < d.ndirs, d'.entry i = d.entry i
  last : d'.entry d.ndirs = linkEnt ino name

theorem DirMap.append {d' : Inode} {name : CString} (hd : DirMap d m)
    (happ : Appended ino name d d') (hfree : m name = none) (hshort : Short name) :
    DirMap d' (update m name (some ino)) := by
  have hsize := hd.size_eq
  have hn : d'.ndirs = d.ndirs + 1 := by
    unfold ndirs
    rw [happ.size]
    omega
  have hnone : ∀ i < d.ndirs, ∀ k, d.entry i ≠ linkEnt k name := by
    intro i hi k hent
    have hk := (hd.links name k).2 ⟨i, hi, hent⟩
    rw [hfree] at hk
    cases hk
  have hother : ∀ i < d.ndirs, (d.entry i).used = true → (d.entry i).namep ≠ some name.1 := by
    intro i hi hused hnamep
    obtain ⟨k, text, -, hent⟩ := hd.live i hi hused
    rw [hent] at hnamep
    have htext : text = name := Subtype.ext (Option.some.inj hnamep)
    rw [htext] at hent
    exact hnone i hi k hent
  have hcases : ∀ i < d'.ndirs, i < d.ndirs ∨ i = d.ndirs := by
    intro i hi
    omega
  refine ⟨happ.isDir, ?_, happ.size_le, happ.allocd_lt, ?_, ?_, ?_⟩
  · rw [happ.size]
    omega
  · intro i hi hused
    rcases hcases i hi with hold | rfl
    · rw [happ.entry i hold] at hused ⊢
      exact hd.live i hold hused
    · exact ⟨ino, name, hshort, happ.last⟩
  · intro text k
    by_cases htext : text = name
    · subst htext
      rw [update_self]
      constructor
      · rintro ⟨⟩
        exact ⟨d.ndirs, by omega, happ.last⟩
      rintro ⟨i, hi, hent⟩
      rcases hcases i hi with hold | rfl
      · rw [happ.entry i hold] at hent
        exact absurd hent (hnone i hold k)
      · rw [happ.last] at hent
        rw [Dirent.mk.inj hent |>.2.1]
    · rw [update_of_ne htext, hd.links]
      constructor
      · rintro ⟨i, hi, hent⟩
        exact ⟨i, by omega, (happ.entry i hi).trans hent⟩
      rintro ⟨i, hi, hent⟩
      rcases hcases i hi with hold | rfl
      · exact ⟨i, hold, (happ.entry i hold).symm.trans hent⟩
      · rw [happ.last] at hent
        exact absurd (Subtype.ext (Option.some.inj (Dirent.mk.inj hent).2.2.2)).symm htext
  · intro i hi j hj hused hused' hnamep
    rcases hcases i hi with hi | rfl <;> rcases hcases j hj with hj | rfl
    · rw [happ.entry i hi] at hused hnamep
      rw [happ.entry j hj] at hused' hnamep
      exact hd.inj i hi j hj hused hused' hnamep
    · rw [happ.entry i hi] at hused hnamep
      rw [happ.last] at hnamep
      exact absurd hnamep (hother i hi hused)
    · rw [happ.entry j hj] at hused' hnamep
      rw [happ.last] at hnamep
      exact absurd hnamep.symm (hother j hj hused')
    · rfl

theorem setSlot_entry (hdata : d.data = .dir slots) {i : Nat} (hi : 24 * (i + 1) ≤ d.allocd)
    (e : Dirent) : d.setSlot i e = .ok { d with data := .dir (update slots i e) } := by
  unfold setSlot
  rw [hdata]
  exact if_pos hi

/-- `d'` is `d` with room for one more entry. -/
structure Roomy (d d' : Inode) : Prop where
  used : d'.used = d.used
  mode : d'.mode = d.mode
  size : d'.size = d.size
  room : d.size + 24 ≤ d'.allocd
  allocd_lt : d'.allocd < 2 ^ 63
  isDir : ∃ slots, d'.data = .dir slots
  entry : ∀ i < d.ndirs, d'.entry i = d.entry i

-- the end of `ramfs_mklink`
theorem appendEnt_post {d d₁ : Inode} (hsize : d.size = 24 * d.ndirs) (hroom : Roomy d d₁)
    (ino dino : Nat) (name : CString) :
    Op.Post (do
      let d₁ ← Op.ofExcept (d₁.setSlot d.ndirs (linkEnt ino name))
      modify (·.putInode dino { d₁ with size := (d₁.size + 24) % 2 ^ 64 })) fs
      (fun _ fs' => ∃ d', fs.Stored fs' dino d' ∧ Appended ino name d d') (fun _ _ => False) := by
  obtain ⟨slots, hdata⟩ := hroom.isDir
  have hfits := hroom.room
  have hlt := hroom.allocd_lt
  have hsize' := hroom.size
  have hset := setSlot_entry hdata (show 24 * (d.ndirs + 1) ≤ d₁.allocd by omega) (linkEnt ino name)
  apply Op.Post.ofExcept_bind
  · rintro _ h
    rw [hset] at h
    cases h
    refine ⟨_, ⟨rfl, rfl, rfl⟩, hroom.used, hroom.mode, ⟨_, rfl⟩, ?_, ?_, hlt, ?_, ?_⟩
    · change (d₁.size + 24) % 2 ^ 64 = d.size + 24
      omega
    · change (d₁.size + 24) % 2 ^ 64 ≤ d₁.allocd
      omega
    · intro i hi
      rw [← hroom.entry i hi, entry_eq hdata]
      exact update_of_ne (by omega) _ _
    · exact update_self _ _ _
  · intro e h
    rw [hset] at h
    cases h

theorem growDir_post (hd : DirMap d m) (hgrow : d.allocd < d.size + 24) (fs : Info) :
    Op.Post (growDir d) fs
      (fun d' fs' => Roomy d d' ∧ fs' = fs.tick) (fun _ _ => True) := by
  obtain ⟨slots, hdata⟩ := hd.isDir
  have hsize := hd.size_eq
  have hle := hd.size_le
  have hlt := hd.allocd_lt
  refine Op.Post.bind (realloc_post _ _ _) ?_ fun _ _ h => h
  rintro junk fs' ⟨hfs', -, hsmall⟩
  refine Op.Post.pure ⟨⟨rfl, rfl, rfl, ?_, by dsimp only; omega, ?_, ?_⟩, hfs'⟩
  · dsimp only
    omega
  · rw [hdata]
    exact ⟨_, rfl⟩
  intro i hi
  rw [entry_eq hdata]
  rw [hdata]
  exact if_pos (by omega)

/-- `ramfs_mklink` in a directory without freed entries. -/
theorem mklink_post (hhas : fs.Has dino) (hd : DirMap (fs.inode dino) m)
    (hfull : (fs.inode dino).NoDead) (ino : Nat) (name : CString) :
    Op.Post (ramfsMklink ino dino name) fs
      (fun _ fs' => ∃ d', fs.Stored fs' dino d' ∧ Appended ino name (fs.inode dino) d')
      (fun _ _ => True) := by
  have hsize := hd.size_eq
  have hlt := hd.allocd_lt
  apply Op.Post.bind_ok (run_getinod hhas)
  refine Op.Post.bind (malloc_post _ _) ?_ fun _ _ h => h
  rintro _ fs₁ ⟨rfl, -, -⟩
  apply Op.Post.ofExcept_bind
  · rintro _ htgt
    rw [hd.tgtent hfull] at htgt
    cases htgt
    by_cases hgrow : (fs.inode dino).allocd < (fs.inode dino).size + 24
    · rw [decide_eq_true hgrow]
      refine Op.Post.bind (growDir_post hd hgrow _) ?_ fun _ _ h => h
      rintro d₁ fs₂ ⟨hroom, rfl⟩
      refine Op.Post.mono (appendEnt_post hsize hroom ino dino name) ?_ fun _ _ h => h.elim
      rintro _ fs' ⟨d', ⟨h₁, h₂, h₃⟩, happ⟩
      exact ⟨d', ⟨h₁, h₂, h₃⟩, happ⟩
    · rw [decide_eq_false hgrow]
      refine Op.Post.mono (@appendEnt_post _ (fs.inode dino) _ hsize ⟨rfl, rfl, rfl, by omega, hlt,
        hd.isDir, fun _ _ => rfl⟩ ino dino name) ?_ fun _ _ h => h.elim
      rintro _ fs' ⟨d', ⟨h₁, h₂, h₃⟩, happ⟩
      exact ⟨d', ⟨h₁, h₂, h₃⟩, happ⟩
  · intro e htgt
    rw [hd.tgtent hfull] at htgt
    cases htgt

/-! ### Removing -/

/-- `d'` is `d` with entry `i` freed. -/
structure Freed (i : Nat) (d d' : Inode) : Prop where
  used : d'.used = d.used
  size : d'.size = d.size
  allocd : d'.allocd = d.allocd
  isDir : ∃ slots, d'.data = .dir slots
  entry : ∀ j ≠ i, d'.entry j = d.entry j
  dead : (d'.entry i).used = false

theorem DirMap.free {d' : Inode} {i k : Nat} {name : CString} (hd : DirMap d m)
    (hfreed : Freed i d d') (hi : i < d.ndirs) (hent : d.entry i = linkEnt k name) :
    DirMap d' (update m name none) := by
  have hn : d'.ndirs = d.ndirs := by
    unfold ndirs
    rw [hfreed.size]
  have hne : ∀ j, (d'.entry j).used = true → j ≠ i := by
    rintro j hused rfl
    rw [hfreed.dead] at hused
    exact Bool.false_ne_true hused
  refine ⟨hfreed.isDir, ?_, ?_, ?_, ?_, ?_, ?_⟩
  · rw [hfreed.size, hn]
    exact hd.size_eq
  · rw [hfreed.size, hfreed.allocd]
    exact hd.size_le
  · rw [hfreed.allocd]
    exact hd.allocd_lt
  · intro j hj hused
    have hji := hne j hused
    rw [hfreed.entry j hji] at hused ⊢
    exact hd.live j (by omega) hused
  · intro text ino
    by_cases htext : text = name
    · subst htext
      rw [update_self]
      refine iff_of_false (by rintro ⟨⟩) ?_
      rintro ⟨j, hj, hjent⟩
      have hji : j ≠ i := hne j (by rw [hjent]; rfl)
      rw [hfreed.entry j hji] at hjent
      refine hji (hd.inj j (by omega) i hi ?_ ?_ ?_)
      · rw [hjent]
        rfl
      · rw [hent]
        rfl
      · rw [hjent, hent]
        rfl
    · rw [update_of_ne htext, hd.links]
      constructor
      · rintro ⟨j, hj, hjent⟩
        have hji : j ≠ i := by
          rintro rfl
          rw [hent] at hjent
          exact htext (Subtype.ext (Option.some.inj (Dirent.mk.inj hjent).2.2.2)).symm
        exact ⟨j, by omega, (hfreed.entry j hji).trans hjent⟩
      · rintro ⟨j, hj, hjent⟩
        have hji : j ≠ i := hne j (by rw [hjent]; rfl)
        exact ⟨j, by omega, (hfreed.entry j hji).symm.trans hjent⟩
  · intro j hj l hl hused hused' hnamep
    have hji := hne j hused
    have hli := hne l hused'
    rw [hfreed.entry j hji] at hused hnamep
    rw [hfreed.entry l hli] at hused' hnamep
    exact hd.inj j (by omega) l (by omega) hused hused' hnamep

theorem rmlink_post (hhas : fs.Has dino) (hd : DirMap (fs.inode dino) m) (name : CString) :
    Op.Post (ramfsRmlink dino name) fs
      (fun _ fs' => ∃ d', fs.Stored fs' dino d' ∧ d'.used = true ∧
        d'.size = (fs.inode dino).size ∧ DirMap d' (update m name none))
      (fun e fs' => fs' = fs ∧ e = .err (-ENOENT) ∧ m name = none) := by
  obtain ⟨r, hfind, hfirst⟩ := hd.find name
  obtain ⟨slots, hdata⟩ := hd.isDir
  have hsize := hd.size_eq
  have hle := hd.size_le
  apply Op.Post.bind_ok (run_getinod hhas)
  rw [hfind]
  cases r with
  | none => exact Op.Post.fail ⟨rfl, rfl, hd.find_none hfirst⟩
  | some i =>
    obtain ⟨-, hi, hname, -⟩ := hfirst
    obtain ⟨ino, hent, -⟩ := hd.entry_of_hasName (by omega) hname
    change Op.Post (Op.ofExcept ((fs.inode dino).setSlot i ⟨false, 0, 0, none⟩) >>= fun dinod =>
      modify (·.putInode dino dinod)) fs _ _
    rw [setSlot_entry hdata (by omega)]
    refine ⟨_, ⟨rfl, rfl, rfl⟩, hhas.2.2, rfl, ?_⟩
    refine hd.free (i := i) ⟨rfl, rfl, rfl, ⟨_, rfl⟩, ?_, ?_⟩ (by omega) hent
    · intro j hj
      rw [entry_eq hdata]
      exact update_of_ne hj _ _
    · change (update slots i _ i).used = false
      rw [update_self]

end Calls

/-! ## Runs -/

inductive Call
  | mklink (ino : Nat) (name : CString)
  | rmlink (name : CString)

/-- The inode of the most recent `mklink` of the name that no `rmlink` follows; the latest call
comes first. -/
def linked : List Call → CString → Option Nat
  | [], _ => none
  | .mklink ino text :: calls, name => if name = text then some ino else linked calls name
  | .rmlink text :: calls, name => if name = text then none else linked calls name

/-- A directory with the calls on it, and the entries that `ramfs_mklink` has stored to. -/
structure DirRun where
  fs : Info
  calls : List Call
  stored : List Nat

-- a directory as `ramfs_mkino` leaves it, with any memory
def DirStart (dino : Nat) (s : DirRun) : Prop :=
  s.fs.Has dino ∧ (∃ slots, (s.fs.inode dino).data = .dir slots) ∧ (s.fs.inode dino).size = 0 ∧
    (s.fs.inode dino).allocd = 1024 ∧ s.calls = [] ∧ s.stored = []

/-- Calls that succeed, a `ramfs_mklink` with a name that is not present. -/
def DirStep (dino : Nat) (s : DirRun) : Call → DirRun → Prop
  | .mklink ino name, t =>
    linked s.calls name = none ∧ (ramfsMklink ino dino name).run s.fs = .ok () t.fs ∧
    t.calls = .mklink ino name :: s.calls ∧
    ∃ i grows, (s.fs.inode dino).tgtent = .ok (i, grows) ∧ t.stored = i :: s.stored
  | .rmlink name, t =>
    (ramfsRmlink dino name).run s.fs = .ok () t.fs ∧ t.calls = .rmlink name :: s.calls ∧
    t.stored = s.stored

/-- The directory is the map of its calls, and has only entries that were stored. -/
def DirCorrect (dino : Nat) (s : DirRun) : Prop :=
  (∀ name, (ramfsLookup dino name).run s.fs = match linked s.calls name with
    | some ino => .ok ino s.fs
    | none => .error (.err (-ENOENT)) s.fs) ∧
  ∀ i < (s.fs.inode dino).size / 24, i ∈ s.stored

/-- No entry is free when a link is added, and the length of its name fits `namlen`. -/
def DirSafe (dino : Nat) (s : DirRun) : Call → Prop
  | .mklink _ name => (s.fs.inode dino).NoDead ∧ Short name
  | .rmlink _ => True

structure DirInv (dino : Nat) (s : DirRun) : Prop where
  has : s.fs.Has dino
  map : DirMap (s.fs.inode dino) (linked s.calls)
  stored : ∀ i < (s.fs.inode dino).ndirs, i ∈ s.stored

theorem linked_mklink (ino : Nat) (name : CString) (calls : List Call) :
    linked (.mklink ino name :: calls) = update (linked calls) name (some ino) := by
  funext text
  rw [update_apply]
  rfl

theorem linked_rmlink (name : CString) (calls : List Call) :
    linked (.rmlink name :: calls) = update (linked calls) name none := by
  funext text
  rw [update_apply]
  rfl

variable {dino : Nat} {s t : DirRun}

theorem dirStart_inv (h : DirStart dino s) : DirInv dino s := by
  obtain ⟨hhas, hdir, hsize, hallocd, hcalls, hstored⟩ := h
  have hn : (s.fs.inode dino).ndirs = 0 := by
    unfold ndirs
    rw [hsize]
  refine ⟨hhas, ⟨hdir, by omega, by omega, by omega, ?_, ?_, ?_⟩, ?_⟩
  · intro i hi
    omega
  · intro name ino
    rw [hcalls]
    refine iff_of_false (by rintro ⟨⟩) ?_
    omega
  · intro i hi
    omega
  · intro i hi
    omega

theorem dirStep_inv (hinv : DirInv dino s) {a : Call} (hsafe : DirSafe dino s a)
    (hstep : DirStep dino s a t) : DirInv dino t := by
  cases a with
  | mklink ino name =>
    obtain ⟨hfree, hrun, hcalls, i, grows, htgt, hstored⟩ := hstep
    obtain ⟨hfull, hshort⟩ := hsafe
    obtain ⟨d', hput, happ⟩ := (mklink_post hinv.has hinv.map hfull ino name).ok hrun
    have hused : d'.used = true := happ.used.trans hinv.has.2.2
    obtain ⟨hhas, hinod⟩ := hput.has hinv.has hused
    rw [hinv.map.tgtent hfull] at htgt
    cases htgt
    refine ⟨hhas, ?_, ?_⟩
    · rw [hinod, hcalls, linked_mklink]
      exact hinv.map.append happ hfree hshort
    intro j hj
    rw [hinod, ndirs, happ.size] at hj
    rw [hstored]
    by_cases hlast : j = (s.fs.inode dino).ndirs
    · exact mem_cons.2 (Or.inl hlast)
    · refine mem_cons_of_mem _ (hinv.stored j ?_)
      have hsize := hinv.map.size_eq
      omega
  | rmlink name =>
    obtain ⟨hrun, hcalls, hstored⟩ := hstep
    obtain ⟨d', hput, hused, hsize, hmap⟩ := (rmlink_post hinv.has hinv.map name).ok hrun
    obtain ⟨hhas, hinod⟩ := hput.has hinv.has hused
    refine ⟨hhas, ?_, ?_⟩
    · rw [hinod, hcalls, linked_rmlink]
      exact hmap
    · intro j hj
      rw [hinod, ndirs, hsize] at hj
      rw [hstored]
      exact hinv.stored j hj

/-- As long as no entry is used again, a directory is the map of its calls. -/
theorem ramfs_dir_is_map (hs : Reach (DirStart dino) (DirStep dino) (DirSafe dino) s) :
    DirCorrect dino s := by
  have hstart : ∀ s, DirStart dino s → DirInv dino s := fun _ => dirStart_inv
  have hnext : ∀ s a t, DirInv dino s → DirSafe dino s a → DirStep dino s a t → DirInv dino t :=
    fun _ _ _ hi hok hst => dirStep_inv hi hok hst
  have hinv := Reach.invariant hstart hnext hs
  exact ⟨fun name => run_lookup hinv.has hinv.map name, hinv.stored⟩

-- memory that looks like links of "a" to inode 77
def strayHeap : Heap where
  count := 0
  grants _ n := decide (n < 2 ^ 20)
  junk _ := ⟨Bytes.zero, fun _ => ⟨true, 77, 2, some [97]⟩,
    fun _ => ⟨false, 0, 0, 0, 0, 0, 0, .raw Bytes.zero⟩⟩

-- inode 1 is a new directory
def strayDir : Info where
  inodtbl _ := ⟨true, S_IFDIR, 0, 0, 0, 0, 1024, .dir fun _ => ⟨true, 77, 2, some [97]⟩⟩
  ninodes := 1024
  freehint := 1
  heap := strayHeap

def nameA : CString := ⟨[97], by decide⟩
def nameB : CString := ⟨[98], by decide⟩

theorem strayDir_start : DirStart 1 ⟨strayDir, [], []⟩ :=
  ⟨⟨by decide, by decide, rfl⟩, ⟨_, rfl⟩, rfl, rfl, rfl, rfl⟩

def linkA : DirRun := ⟨(ramfsMklink 5 1 nameA).after strayDir, [.mklink 5 nameA], [0]⟩

theorem strayDir_linkA : DirStep 1 ⟨strayDir, [], []⟩ (.mklink 5 nameA) linkA :=
  ⟨rfl, Op.run_of_returns (by decide), rfl, 0, false, rfl, rfl⟩

-- "a" and "b" are linked, and "a" is removed
theorem ramfs_dir_is_map_three_calls :
    ∃ s, s.calls = [.rmlink nameA, .mklink 6 nameB, .mklink 5 nameA] ∧ DirCorrect 1 s := by
  let s₂ : DirRun :=
    ⟨(ramfsMklink 6 1 nameB).after linkA.fs, .mklink 6 nameB :: linkA.calls, [1, 0]⟩
  let s₃ : DirRun := ⟨(ramfsRmlink 1 nameA).after s₂.fs, .rmlink nameA :: s₂.calls, [1, 0]⟩
  have h₂ : DirStep 1 linkA (.mklink 6 nameB) s₂ :=
    ⟨rfl, Op.run_of_returns (by decide), rfl, 1, false, by decide, rfl⟩
  have h₃ : DirStep 1 s₂ (.rmlink nameA) s₃ := ⟨Op.run_of_returns (by decide), rfl, rfl⟩
  refine ⟨s₃, rfl, ramfs_dir_is_map (.next (.next (.next (.start strayDir_start) strayDir_linkA
    ⟨?_, by decide⟩) h₂ ⟨?_, by decide⟩) h₃ trivial)⟩
  · intro i hi
    exact absurd hi (Nat.not_lt_zero i)
  · intro i hi
    rw [show i = 0 from Nat.lt_one_iff.mp hi]
    decide

/-- "a" is linked and removed and its entry then used for "b": entry 1 was never written, and "a" is
still found. -/
theorem ramfs_dir_entry_reused :
    ∃ s, Reach (DirStart 1) (DirStep 1) (fun _ _ => True) s ∧
      linked s.calls nameA = none ∧ (ramfsLookup 1 nameA).returns s.fs 77 = true ∧
      (s.fs.inode 1).size / 24 = 2 ∧ 1 ∉ s.stored ∧ ¬ DirCorrect 1 s := by
  let s₂ : DirRun := ⟨(ramfsRmlink 1 nameA).after linkA.fs, .rmlink nameA :: linkA.calls, [0]⟩
  let s₃ : DirRun := ⟨(ramfsMklink 6 1 nameB).after s₂.fs, .mklink 6 nameB :: s₂.calls, [0, 0]⟩
  have h₂ : DirStep 1 linkA (.rmlink nameA) s₂ := ⟨Op.run_of_returns (by decide), rfl, rfl⟩
  have h₃ : DirStep 1 s₂ (.mklink 6 nameB) s₃ :=
    ⟨rfl, Op.run_of_returns (by decide), rfl, 0, false, by decide, rfl⟩
  have hsize : (s₃.fs.inode 1).size / 24 = 2 := by decide
  have hstored : 1 ∉ s₃.stored := by decide
  refine ⟨s₃, .next (.next (.next (.start strayDir_start) strayDir_linkA trivial) h₂ trivial) h₃
    trivial, rfl, by decide, hsize, hstored, fun h => hstored (h.2 1 (by omega))⟩

end Ramfs
