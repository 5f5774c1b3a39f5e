import RandomOs.Ext2.LinkEffect

/-!
# New links (`ext2.c`)

With a new block `ext2fs_mklink` writes the inode of the directory first and the one of the file
last; if both are the same inode, the last write takes back the new size and the new block.
-/

namespace Ext2

open Lib Bytes Kern List

/-! ## One link more -/

/-- The return value of `ext2fs_lookup`, or its error. -/
def lookupAnswer (fs : Ext2fs) (obuf : Bytes) (tmp : Bool) (dino : Nat) (name : List UInt8) :
    Except Stop Nat :=
  match (ext2fsLookup (some obuf) tmp dino name).run fs with
  | .ok i _ => .ok i
  | .error e _ => .error e

/-- The name leads to the inode and the other names lead where they did, the directory has its
records within its size and blocks, and one link count grew by one. -/
structure LinkAdded (ino dino : Nat) (name : List UInt8) (ws : List Nat) (fs fs' : Ext2fs) :
    Prop where
  found : ∀ obuf tmp, lookupAnswer fs' obuf tmp dino name = .ok ino
  others : ∀ obuf tmp x, 0 ∉ x → x ≠ name →
    lookupAnswer fs' obuf tmp dino x = lookupAnswer fs obuf tmp dino x
  covers : ∃ inod' ws', DirBlocks fs' dino inod' ws' ∧ ⟨ino, name⟩ ∈ fs'.dirEnts ws' ∧
    ∀ e ∈ fs.dirEnts ws, e.ino ≠ 0 → e ∈ fs'.dirEnts ws'
  links : ∀ m, get16 (fs'.vol.inode m) 26 =
    get16 (fs.vol.inode m) 26 + if m = ino then 1 else 0

/-- When that is so.  A record without an inode still answers lookups of its name, so that none
before the new record may have the same name, and the one that is overwritten may not have answered
for its own; a new block needs a directory that is not empty, not the linked inode itself, and not
of the largest size. -/
structure LinkFits (ino dino : Nat) (name : List UInt8) (ws : List Nat) (fs : Ext2fs) : Prop where
  links : get16 (fs.vol.inode ino) 26 < 2 ^ 16 - 1
  unshadowed : ∀ e ∈ (fs.dirEnts ws).take (fs.roomIdx ws name), e.name ≠ name
  reused : ∀ e, (fs.dirEnts ws)[fs.roomIdx ws name]? = some e → e.ino = 0 → 0 ∉ e.name →
    e.name ≠ name →
      lookupIn ((fs.dirEnts ws).eraseIdx (fs.roomIdx ws name)) e.name =
        lookupIn (fs.dirEnts ws) e.name
  grown : (fs.dirEnts ws).length ≤ fs.roomIdx ws name →
    ino ≠ dino ∧ ws ≠ [] ∧ (ws.length + 1) * fs.geo.blocksz < 2 ^ 32

section Lists

variable {ents A B : List Dirent} {e new : Dirent} {name : List UInt8}

theorem lookupIn_append (A B : List Dirent) (x : List UInt8) : lookupIn (A ++ B) x =
      match A.find? fun e => e.name == x with
      | some e => .ok e.ino
      | none => lookupIn B x := by
  unfold lookupIn
  rw [List.find?_append]
  cases A.find? fun e => e.name == x with
  | none => rfl
  | some e => rfl

theorem lookupIn_cons (e : Dirent) (B : List Dirent) (x : List UInt8) :
    lookupIn (e :: B) x = if e.name = x then .ok e.ino else lookupIn B x := by
  unfold lookupIn
  rw [List.find?_cons]
  by_cases hx : e.name = x
  · rw [if_pos hx, beq_iff_eq.mpr hx]
  · rw [if_neg hx, beq_eq_false_iff_ne.mpr hx]

-- a list around the record of number `k`
theorem ents_cases (ents : List Dirent) (k : Nat) :
    ents.length ≤ k ∨ ∃ A e B, ents = A ++ e :: B ∧ A.length = k := by
  by_cases hk : k < ents.length
  · right
    refine ⟨ents.take k, ents[k], ents.drop (k + 1), ?_, ?_⟩
    · rw [← drop_eq_getElem_cons hk, take_append_drop]
    · rw [length_take]
      omega
  · exact Or.inl (Nat.le_of_not_lt hk)

theorem lookupIn_new (habsent : ∀ e ∈ ents, e.ino ≠ 0 → e.name ≠ new.name) (hnew : new.ino ≠ 0)
    (k : Nat) : lookupIn (linkEnts ents k new) new.name = .ok new.ino ↔
      ∀ e ∈ ents.take k, e.name ≠ new.name := by
  have hrest : ∀ C, (∀ e ∈ ents.take k, e.name ≠ new.name) →
      lookupIn (ents.take k ++ C) new.name = lookupIn C new.name := by
    intro C hfree
    rw [lookupIn_append, List.find?_eq_none.mpr fun e he => by simpa using hfree e he]
  constructor
  · intro hfound e he hname
    unfold linkEnts at hfound
    rw [lookupIn_append] at hfound
    cases hfind : (ents.take k).find? fun e => e.name == new.name with
    | none => exact absurd (by simpa using hname) (List.find?_eq_none.mp hfind e he)
    | some d =>
      rw [hfind] at hfound
      have hmem := mem_of_mem_take (mem_of_find?_eq_some hfind)
      have hdname : d.name = new.name := by simpa using List.find?_some hfind
      have hdino : d.ino = new.ino := Except.ok.inj hfound
      exact habsent d hmem (by rw [hdino]; exact hnew) hdname
  · intro hfree
    unfold linkEnts
    rw [hrest _ hfree]
    rcases ents_cases ents k with hk | ⟨A, e, B, rfl, rfl⟩
    · rw [List.getElem?_eq_none hk]
      exact (lookupIn_cons new _ _).trans (if_pos rfl)
    rw [List.getElem?_append_right (Nat.le_refl _), Nat.sub_self, List.getElem?_cons_zero]
    dsimp only
    split
    · exact (lookupIn_cons new _ _).trans (if_pos rfl)
    rename_i hlive
    have hne := habsent e (by simp) hlive
    refine (lookupIn_cons e _ _).trans ?_
    rw [if_neg hne]
    exact (lookupIn_cons new _ _).trans (if_pos rfl)

/-- Other names are found as before, but for the one of the record that was overwritten. -/
theorem lookupIn_others (k : Nat) :
    (∀ x, 0 ∉ x → x ≠ new.name → lookupIn (linkEnts ents k new) x = lookupIn ents x) ↔
      ∀ e, ents[k]? = some e → e.ino = 0 → 0 ∉ e.name → e.name ≠ new.name →
        lookupIn (ents.eraseIdx k) e.name = lookupIn ents e.name := by
  have hskip : ∀ (A B : List Dirent) x, x ≠ new.name →
      lookupIn (A ++ new :: B) x = lookupIn (A ++ B) x := by
    intro A B x hx
    rw [lookupIn_append, lookupIn_append, lookupIn_cons, if_neg fun h => hx h.symm]
  rcases ents_cases ents k with hk | ⟨A, e, B, rfl, rfl⟩
  · rw [linkEnts_end ents hk, List.getElem?_eq_none hk]
    constructor
    · intro _ e he
      cases he
    · intro _ x _ hx
      rw [hskip ents [] x hx, append_nil]
  · rw [linkEnts_split, List.getElem?_append_right (Nat.le_refl _), Nat.sub_self,
      eraseIdx_append_of_length_le (Nat.le_refl _), Nat.sub_self]
    by_cases hdead : e.ino = 0
    · rw [if_pos hdead]
      constructor
      · intro h d hd _ hnul hne
        cases hd
        rw [← h e.name hnul hne]
        exact (hskip A B e.name hne).symm
      · intro h x hnul hne
        refine (hskip A B x hne).trans ?_
        by_cases hx : e.name = x
        · subst hx
          exact h e rfl hdead hnul hne
        · rw [lookupIn_append, lookupIn_append, lookupIn_cons, if_neg hx]
    · rw [if_neg hdead]
      constructor
      · intro _ d hd hd0
        cases hd
        exact absurd hd0 hdead
      · intro _ x _ hne
        have hsplit : A ++ ([e, new] ++ B) = (A ++ [e]) ++ new :: B := by simp
        have hsplit' : A ++ e :: B = (A ++ [e]) ++ B := by simp
        rw [hsplit, hskip _ _ x hne, hsplit']

theorem mem_linkEnts (ents : List Dirent) (k : Nat) (new : Dirent) :
    new ∈ linkEnts ents k new ∧ ∀ e ∈ ents, e.ino ≠ 0 → e ∈ linkEnts ents k new := by
  rcases ents_cases ents k with hk | ⟨A, e, B, rfl, rfl⟩
  · rw [linkEnts_end ents hk]
    exact ⟨by simp, fun e he _ => mem_append_left _ he⟩
  rw [linkEnts_split]
  split
  · rename_i hdead
    refine ⟨by simp, fun d hd hlive => ?_⟩
    rcases mem_append.mp hd with hd | hd
    · exact mem_append_left _ hd
    · rcases mem_cons.mp hd with rfl | hd
      · exact absurd hdead hlive
      · simp [hd]
  · refine ⟨by simp, fun d hd _ => ?_⟩
    rcases mem_append.mp hd with hd | hd
    · exact mem_append_left _ hd
    · rcases mem_cons.mp hd with rfl | hd
      · simp
      · simp [hd]

end Lists

section Added

variable {fs fs' : Ext2fs} {ino dino : Nat} {name : List UInt8} {ws ws' : List Nat}
  {inod inod' : Bytes}

theorem DirBlocks.answer (hd : DirBlocks fs dino inod ws) (hg : fs.geo.Mounted) (obuf : Bytes)
    (tmp : Bool) (x : List UInt8) : lookupAnswer fs obuf tmp dino x =
      if ws = [] then .ok 0 else lookupIn (fs.dirEnts ws) x := by
  unfold lookupAnswer
  rw [hd.run_lookup hg]
  by_cases hws : ws = []
  · rw [if_pos hws, if_pos hws]
  · rw [if_neg hws, if_neg hws]
    cases lookupIn (fs.dirEnts ws) x with
    | ok i => rfl
    | error e => rfl

theorem links_iff (hlinks : ∀ m, get16 (fs'.vol.inode m) 26 =
      if m = ino then (get16 (fs.vol.inode m) 26 + 1) % 2 ^ 16 else get16 (fs.vol.inode m) 26) :
    (∀ m, get16 (fs'.vol.inode m) 26 =
      get16 (fs.vol.inode m) 26 + if m = ino then 1 else 0) ↔
        get16 (fs.vol.inode ino) 26 < 2 ^ 16 - 1 := by
  constructor
  · intro h
    have hino := h ino
    rw [if_pos rfl] at hino
    have hlt := get16_lt (fs'.vol.inode ino) 26
    omega
  · intro h m
    rw [hlinks m]
    split
    · rename_i hm
      subst hm
      exact Nat.mod_eq_of_lt (by omega)
    · rfl

theorem linkAdded_iff (hd : DirBlocks fs dino inod ws) (hg : fs.geo.Mounted)
    (hd' : DirBlocks fs' dino inod' ws') (hg' : fs'.geo.Mounted) (hws : ws ≠ []) (hws' : ws' ≠ [])
    (hino : ino ≠ 0) (habsent : ∀ e ∈ fs.dirEnts ws, e.ino ≠ 0 → e.name ≠ name)
    (hents : fs'.dirEnts ws' = linkEnts (fs.dirEnts ws) (fs.roomIdx ws name) ⟨ino, name⟩)
    (hlinks : ∀ m, get16 (fs'.vol.inode m) 26 =
      if m = ino then (get16 (fs.vol.inode m) 26 + 1) % 2 ^ 16 else get16 (fs.vol.inode m) 26)
    (hgrown : (fs.dirEnts ws).length ≤ fs.roomIdx ws name →
      ino ≠ dino ∧ ws ≠ [] ∧ (ws.length + 1) * fs.geo.blocksz < 2 ^ 32) :
    LinkAdded ino dino name ws fs fs' ↔ LinkFits ino dino name ws fs := by
  have hanswer : ∀ obuf tmp x, lookupAnswer fs' obuf tmp dino x =
      lookupIn (linkEnts (fs.dirEnts ws) (fs.roomIdx ws name) ⟨ino, name⟩) x := by
    intro obuf tmp x
    rw [hd'.answer hg', if_neg hws', hents]
  have hbefore : ∀ obuf tmp x, lookupAnswer fs obuf tmp dino x = lookupIn (fs.dirEnts ws) x := by
    intro obuf tmp x
    rw [hd.answer hg, if_neg hws]
  have hnew := @lookupIn_new (fs.dirEnts ws) ⟨ino, name⟩ habsent hino (fs.roomIdx ws name)
  have hothers := @lookupIn_others (fs.dirEnts ws) ⟨ino, name⟩ (fs.roomIdx ws name)
  constructor
  · intro h
    refine ⟨(links_iff hlinks).mp h.links, hnew.mp ?_, hothers.mp ?_, hgrown⟩
    · rw [← hanswer zero false]
      exact h.found zero false
    · intro x hnul hne
      rw [← hanswer zero false, ← hbefore zero false]
      exact h.others zero false x hnul hne
  · intro h
    obtain ⟨hmem, hold⟩ := mem_linkEnts (fs.dirEnts ws) (fs.roomIdx ws name) ⟨ino, name⟩
    refine ⟨?_, ?_, ⟨inod', ws', hd', ?_, ?_⟩, (links_iff hlinks).mpr h.links⟩
    · intro obuf tmp
      rw [hanswer]
      exact hnew.mpr h.unshadowed
    · intro obuf tmp x hnul hne
      rw [hanswer, hbefore]
      exact hothers.mpr h.reused x hnul hne
    · rw [hents]
      exact hmem
    · intro e he hlive
      rw [hents]
      exact hold e he hlive

theorem not_found (hd : DirBlocks fs dino inod ws) (hg : fs.geo.Mounted) (hino : ino ≠ 0)
    (habsent : ∀ e ∈ fs.dirEnts ws, e.ino ≠ 0 → e.name ≠ name) (obuf : Bytes) (tmp : Bool) :
    lookupAnswer fs obuf tmp dino name ≠ .ok ino := by
  rw [hd.answer hg]
  intro h
  split at h
  · cases h
    exact hino rfl
  unfold lookupIn at h
  cases hfind : (fs.dirEnts ws).find? fun e => e.name == name with
  | none =>
    rw [hfind] at h
    cases h
  | some e =>
    rw [hfind] at h
    cases h
    exact habsent e (mem_of_find?_eq_some hfind) hino (by simpa using List.find?_some hfind)

end Added

/-- For a name that is not in the directory, `ext2fs_mklink` adds exactly one link if and only if
`LinkFits` holds before the call.  Only a call that takes a new block flushes. -/
theorem mklink_adds_one_link_iff {fs fs' : Ext2fs} (hfs : fs.Consistent)
    (hsectors : fs.geo.blocksCount * fs.geo.spb ≤ 2 ^ 32) {ino mode dino : Nat}
    {name : List UInt8} {stack inod : Bytes} {ws : List Nat}
    (hflush : (fs.dirEnts ws).length ≤ fs.roomIdx ws name → fs.geo.FlushSafe)
    (hd : DirBlocks fs dino inod ws) (hend : fs.vol.blockAt dino ws.length = none)
    (habsent : ∀ e ∈ fs.dirEnts ws, e.ino ≠ 0 → e.name ≠ name)
    (hrun : (ext2fsMklink stack ino mode dino name).run fs = .ok () fs') :
    LinkAdded ino dino name ws fs fs' ↔ LinkFits ino dino name ws fs := by
  have hg : fs.geo.Ok := ⟨hfs.layout, hsectors⟩
  have hv := hfs.sound
  obtain ⟨hname, hino, hlinked⟩ := (hd.mklink_linked hg hv stack ino mode fun hfind =>
    hflush (roomIdx_of_none hd.chain hfind)).ok hrun
  obtain ⟨hdir, rfl⟩ := hd.volDir hg hv
  have hne : ino ≠ 0 := (inodeNo_of_inUse hino).1.ne'
  obtain ⟨hbs, h4, hge⟩ := hfs.layout.blocksz_facts
  cases hlinked with
  | @inPlace w i pdir ftype hfind hvol =>
    obtain ⟨hdir', hsound', hlt, hents⟩ := inPlace_dir hg hv hdir hino hname hfind hvol
    have hgeo : fs'.geo = fs.geo := congrArg Vol.geo hvol
    have hg' : fs'.geo.Ok := by
      rw [hgeo]
      exact hg
    have hws : ws ≠ [] := by
      rintro rfl
      cases hfind
    apply linkAdded_iff hd hg.mounted (hdir'.dirBlocks hg' hsound') hg'.mounted hws hws hne
      habsent hents
    · intro m
      rw [hvol]
      exact (addLinks_inode (fs.vol.setData w _) ino m rfl).2.2
    · intro hle
      omega
  | @grown v₁ h b ρ ftype hfind hl =>
    have hsound' := ((hl.linkedNew hino).sound hdir.live).2
    have hg' : fs'.geo.Ok := by
      rw [hl.geo_eq]
      exact hg
    have hidx := roomIdx_of_none hd.chain hfind
    obtain ⟨hnewRecs, hnewEnt⟩ := newBlock_recs stack ino ftype hbs h4 hge hname rfl
    by_cases hself : ino = dino
    · -- the link is to the directory: the record is lost
      subst hself
      obtain ⟨hdir', hents⟩ := hl.dir_self hg hv hdir
      constructor
      · intro hadded
        refine absurd (hadded.found zero false) (not_found (hdir'.dirBlocks hg' hsound')
          hg'.mounted hne ?_ _ _)
        rw [hents]
        exact habsent
      · intro hfits
        exact absurd rfl (hfits.grown hidx).1
    · by_cases hsize : (ws.length + 1) * fs.geo.blocksz < 2 ^ 32
      · obtain ⟨hdir', hents⟩ := hl.dir_grown hg hv hino hdir hend hself hsize hnewRecs.ents
        have hd' := hdir'.dirBlocks hg' hsound'
        rw [blockEnts_of_recs hnewRecs, map_singleton, hnewEnt, hg.inode_mod hino] at hents
        by_cases hws : ws = []
        · -- a lookup in an empty directory returned 0
          subst hws
          constructor
          · intro hadded
            obtain ⟨x, hnul, hx⟩ : ∃ x : List UInt8, 0 ∉ x ∧ x ≠ name := by
              by_cases h1 : name = [1]
              · exact ⟨[2], by decide, by rw [h1]; decide⟩
              · exact ⟨[1], by decide, fun h => h1 h.symm⟩
            have hsame := hadded.others zero false x hnul hx
            rw [hd'.answer hg'.mounted, hd.answer hg.mounted, hents] at hsame
            have hnone : lookupIn [⟨ino, name⟩] x = .error (.err (-ENOENT)) :=
              (lookupIn_cons _ _ _).trans (if_neg fun h => hx h.symm)
            rw [show fs.dirEnts [] ++ [⟨ino, name⟩] = [⟨ino, name⟩] from rfl, hnone] at hsame
            cases hsame
          · intro hfits
            exact absurd rfl (hfits.grown hidx).2.1
        · apply linkAdded_iff hd hg.mounted hd' hg'.mounted hws (by simp) hne habsent
          · rw [hents, linkEnts_end _ hidx]
          · exact hl.links
          · exact fun _ => ⟨hself, hws, hsize⟩
      · -- the size wraps around
        have hdir' := hl.dir_wrapped hd hg.mounted hself (Nat.le_of_not_lt hsize) hdir
        constructor
        · intro hadded
          refine absurd (hadded.found zero false) (not_found (hdir'.dirBlocks hg' hsound')
            hg'.mounted hne ?_ _ _)
          intro e he
          cases he
        · intro hfits
          exact absurd (hfits.grown hidx).2.2 hsize

/-! ### Links on the small volume -/

theorem oneName_consistent : oneName.Consistent := by
  refine ⟨oneName_inv.layout, oneName_inv.sound, ?_⟩
  have hsizes : ∀ m < 9, oneName.geo.getisize (trim 128 fun i =>
      oneName.block (oneName.geo.inoBlk m) (oneName.geo.inoOff m + i)) ≤ oneName.geo.maxBytes := by
    decide
  intro m hm
  have hno : oneName.geo.InodeNo m := inodeNo_of_inUse hm.1
  have hle : m ≤ 8 := by
    rw [oneName_geo] at hno
    exact (small_inodeNo.mp hno).2
  rw [vol_inode hno]
  exact hsizes m (by omega)

theorem oneName_end : oneName.vol.blockAt 8 [6].length = none := by
  have hslot : iBlock (trim 128 fun i =>
      oneName.block (oneName.geo.inoBlk 8) (oneName.geo.inoOff 8 + i)) 1 = 0 := by
    decide
  rw [Vol.blockAt_of_path (v := oneName.vol) (Geo.blkPath_of_lt (by decide)),
    ref_slot _ _ (by decide)]
  exact ptr_eq_none.mpr hslot

/-- A second name for the file. -/
theorem mklink_second_name : LinkAdded 7 8 [98] [6] oneName twoNames := by
  obtain ⟨inod, hd⟩ := oneName_dir
  have hreach : oneName.geo.InReach := by
    rw [oneName_geo]
    exact small_inReach
  have habsent : ∀ e ∈ oneName.dirEnts [6], e.ino ≠ 0 → e.name ≠ [98] := by
    rw [oneName_ents]
    decide
  have hrun : (ext2fsMklink zero 7 0x81A4 8 [98]).run oneName = .ok () twoNames :=
    Op.run_of_returns (by decide)
  refine (mklink_adds_one_link_iff oneName_consistent hreach.sectors (fun _ => hreach.flush) hd
    oneName_end habsent hrun).mpr ?_
  have hno : oneName.geo.InodeNo 7 := by decide
  refine ⟨?_, ?_, ?_, ?_⟩
  · rw [vol_inode hno]
    decide
  · intro e he
    cases he
  · intro e he hdead
    cases he
    cases hdead
  · intro hle
    cases hle

-- the first call that `mkdir` makes for a new directory
def selfName : Ext2fs := (ext2fsMklink zero 8 0x41ED 8 [46]).after smallDir

/-- The name "." in a new directory: the call succeeds, and the name is not there. -/
theorem mklink_self_lost : smallDir.Consistent ∧ smallDir.geo.InReach ∧
    DirBlocks smallDir 8 (smallDir.vol.inode 8) [] ∧ smallDir.vol.blockAt 8 0 = none ∧
    (ext2fsMklink zero 8 0x41ED 8 [46]).run smallDir = .ok () selfName ∧
    lookupAnswer selfName zero false 8 [46] = .ok 0 ∧
    ¬ LinkAdded 8 8 [46] [] smallDir selfName := by
  have hreach : smallDir.geo.InReach := by
    rw [smallDir_geo]
    exact small_inReach
  have hstart := smallDir_start
  have hdir : smallDir.vol.Dir 8 [] := by
    refine ⟨hstart.used, hstart.dir, ?_, fun b w hw => (by cases hw), fun w hw => (by cases hw)⟩
    rw [length_nil]
    decide
  have hhole : smallDir.vol.blockAt 8 0 = none := by
    rw [Vol.blockAt_of_path (v := smallDir.vol) (Geo.blkPath_of_lt (by decide)),
      ref_slot _ _ (by decide), smallDir_inode]
    rfl
  have hlookup : lookupAnswer selfName zero false 8 [46] = .ok 0 := by
    have hrun := Op.run_of_returns (x := ext2fsLookup (some zero) false 8 [46]) (s := selfName)
      (a := 0) (by decide)
    unfold lookupAnswer
    rw [hrun]
  refine ⟨hstart.consistent, hreach,
    hdir.dirBlocks (hstart.consistent.layout.ok hreach) hstart.consistent.sound, hhole,
    Op.run_of_returns (by decide), hlookup, ?_⟩
  intro hadded
  have hfound := hadded.found zero false
  cases hfound

end Ext2
