import RandomOs.Ext2.Ownership

/-!
# Directory blocks as chains of records

The records of a block follow each other without gaps up to its end.  `ext2fs_mklink` and
`ext2fs_rmlink` keep this, but for one case: the first record of a block has none before it that
could take its length, and is left with the length 0.
-/

namespace Ext2

open Lib Bytes Kern List Vol

/-! ## Chains -/

/-- A record that holds its name. -/
structure Ent (blk : Bytes) (i : Nat) : Prop where
  ge : 8 ≤ recLen blk i
  dvd : 4 ∣ recLen blk i
  name : dirReclen (nameLen blk i) ≤ recLen blk i

/-- The records from `i` up to `j`. -/
inductive Ents (blk : Bytes) : Nat → Nat → Prop
  | nil (i : Nat) : Ents blk i i
  | cons {i j : Nat} : Ent blk i → Ents blk (i + recLen blk i) j → Ents blk i j

def Chain (bs : Nat) (blk : Bytes) : Prop := Ents blk 0 bs

section Chains

variable {blk blk' : Bytes} {i j k : Nat}

theorem recLen_congr (h : ∀ x, i + 4 ≤ x → x < i + 7 → blk x = blk' x) :
    recLen blk i = recLen blk' i ∧ nameLen blk i = nameLen blk' i := by
  refine ⟨get16_congr (h _ (by omega) (by omega)) (h _ (by omega) (by omega)), ?_⟩
  unfold nameLen
  rw [h (i + 6) (by omega) (by omega)]

theorem Ent.congr (h : Ent blk i) (hbytes : ∀ x, i + 4 ≤ x → x < i + 7 → blk x = blk' x) :
    Ent blk' i := by
  obtain ⟨hlen, hname⟩ := recLen_congr hbytes
  obtain ⟨hge, hdvd, hle⟩ := h
  rw [hlen] at hge hdvd hle
  rw [hname] at hle
  exact ⟨hge, hdvd, hle⟩

theorem Ents.le (h : Ents blk i j) : i ≤ j := by
  induction h with
  | nil => exact Nat.le_refl _
  | cons _ _ ih => omega

theorem Ents.trans (h : Ents blk i j) (h' : Ents blk j k) : Ents blk i k := by
  induction h with
  | nil => exact h'
  | cons hent _ ih => exact .cons hent (ih h')

theorem Ents.single (h : Ent blk i) : Ents blk i (i + recLen blk i) := .cons h (.nil _)

-- the records in a range of bytes
theorem Ents.congr (h : Ents blk i j) (hbytes : ∀ x, i ≤ x → x < j → blk x = blk' x) :
    Ents blk' i j := by
  induction h with
  | nil => exact .nil _
  | @cons i j hent hrest ih =>
    have hge := hent.ge
    have hle := hrest.le
    have hsame : ∀ x, i + 4 ≤ x → x < i + 7 → blk x = blk' x :=
      fun x hlo hhi => hbytes x (by omega) (by omega)
    have hlen := (recLen_congr hsame).1
    refine .cons (hent.congr hsame) ?_
    rw [← hlen]
    exact ih fun x hlo hhi => hbytes x (by omega) hhi

theorem Chain.congr {bs : Nat} (h : Chain bs blk) (hbytes : ∀ x < bs, blk x = blk' x) :
    Chain bs blk' := Ents.congr h fun x _ hx => hbytes x hx

/-- A record in a chain: what is before it and behind it. -/
structure Split (bs : Nat) (blk : Bytes) (i : Nat) : Prop where
  before : Ents blk 0 i
  ent : Ent blk i
  behind : Ents blk (i + recLen blk i) bs

theorem scanEnts_split {bs : Nat} {hit : Nat → Except Stop Bool} {fuel : Nat} {pdir : Option Nat}
    (hbefore : Ents blk 0 i) (hrest : Ents blk i bs)
    (hpdir : pdir = none ∧ i = 0 ∨ ∃ p, pdir = some p ∧ Split i blk p ∧ p + recLen blk p = i)
    {r : Nat × Option Nat} (h : scanEnts bs blk hit fuel i pdir = .ok (some r)) :
    Split bs blk r.1 ∧ hit r.1 = .ok true ∧ (r.2 = none ∧ r.1 = 0 ∨
        ∃ p, r.2 = some p ∧ Split r.1 blk p ∧ p + recLen blk p = r.1) := by
  induction fuel generalizing i pdir with
  | zero => cases h
  | succ fuel ih =>
    unfold scanEnts at h
    split at h
    · cases h
    split at h
    · cases h
    cases hrest with
    | nil => omega
    | cons hent htail =>
      cases hhit : hit i with
      | error e =>
        rw [hhit] at h
        cases h
      | ok b =>
        rw [hhit] at h
        cases b with
        | true =>
          cases h
          exact ⟨⟨hbefore, hent, htail⟩, hhit, hpdir⟩
        | false =>
          refine ih (hbefore.trans (.single hent)) htail (Or.inr ?_) h
          exact ⟨i, rfl, ⟨hbefore, hent, .nil _⟩, rfl⟩

end Chains

/-! ## Entries -/

structure Dirent where
  ino : Nat
  name : List UInt8
deriving DecidableEq

def nameAt (blk : Bytes) (i : Nat) : List UInt8 :=
  (List.range (nameLen blk i)).map fun k => blk (i + 8 + k)

def direntAt (blk : Bytes) (i : Nat) : Dirent := ⟨entIno blk i, nameAt blk i⟩

/-- The records from `i` up to `j` are those of the list. -/
inductive Recs (blk : Bytes) : Nat → Nat → List Nat → Prop
  | nil (i : Nat) : Recs blk i i []
  | cons {i j : Nat} {l : List Nat} :
      Ent blk i → Recs blk (i + recLen blk i) j l → Recs blk i j (i :: l)

section Entries

variable {blk data : Bytes} {i j k : Nat} {l l' : List Nat}

theorem dirReclen_facts (len : Nat) : 8 ≤ dirReclen len ∧ 4 ∣ dirReclen len ∧
    len + 8 ≤ dirReclen len ∧ dirReclen len ≤ len + 11 := by
  unfold dirReclen
  refine ⟨by omega, ⟨(len + 11) / 4, Nat.mul_comm _ _⟩, by omega, by omega⟩

theorem nameAt_length (blk : Bytes) (i : Nat) : (nameAt blk i).length = nameLen blk i := by
  rw [nameAt, length_map, length_range]

theorem Ent.room (h : Ent blk i) : 8 + nameLen blk i ≤ recLen blk i := by
  have hfits := h.name
  have hle := (dirReclen_facts (nameLen blk i)).2.2.1
  omega

-- a record and its name at another place
theorem direntAt_congr (h : ∀ x < 8 + nameLen blk i, data (j + x) = blk (i + x)) :
    recLen data j = recLen blk i ∧ nameLen data j = nameLen blk i ∧
      direntAt data j = direntAt blk i := by
  have hlen : recLen data j = recLen blk i := get16_congr (h 4 (by omega)) (h 5 (by omega))
  have hname : nameLen data j = nameLen blk i := by
    unfold nameLen
    rw [h 6 (by omega)]
  have hino : entIno data j = entIno blk i := get32_congr fun x hx => h x (by omega)
  refine ⟨hlen, hname, ?_⟩
  unfold direntAt nameAt
  rw [hname]
  congr 1
  apply map_congr_left
  intro x hx
  rw [mem_range] at hx
  rw [Nat.add_assoc, Nat.add_assoc i]
  exact h (8 + x) (by omega)

theorem Recs.le (h : Recs blk i j l) : i ≤ j := by
  induction h with
  | nil => exact Nat.le_refl _
  | cons _ _ ih => omega

theorem Recs.ents (h : Recs blk i j l) : Ents blk i j := by
  induction h with
  | nil => exact .nil _
  | cons hent _ ih => exact .cons hent ih

theorem Ents.exists_recs (h : Ents blk i j) : ∃ l, Recs blk i j l := by
  induction h with
  | nil => exact ⟨[], .nil _⟩
  | cons hent _ ih =>
    obtain ⟨l, hl⟩ := ih
    exact ⟨_, .cons hent hl⟩

theorem Recs.append (h : Recs blk i j l) (h' : Recs blk j k l') : Recs blk i k (l ++ l') := by
  induction h with
  | nil => exact h'
  | cons hent _ ih => exact .cons hent (ih h')

theorem Recs.unique (h : Recs blk i j l) (h' : Recs blk i j l') : l = l' := by
  induction h generalizing l' with
  | nil =>
    cases h' with
    | nil => rfl
    | cons hent hrest =>
      have hge := hent.ge
      have hle := hrest.le
      omega
  | cons hent hrest ih =>
    cases h' with
    | nil =>
      have hge := hent.ge
      have hle := hrest.le
      omega
    | cons _ hrest' => rw [ih hrest']

theorem Recs.shift (h : Recs blk i j l) (data : Bytes) (base : Nat)
    (hbytes : ∀ x, i ≤ x → x < j → data (base + x) = blk x) :
    Recs data (base + i) (base + j) (l.map (base + ·)) ∧
      (l.map (base + ·)).map (direntAt data) = l.map (direntAt blk) := by
  induction h with
  | nil i => exact ⟨.nil _, rfl⟩
  | @cons i j l hent hrest ih =>
    have hroom := hent.room
    have hle := hrest.le
    obtain ⟨hl, hmap⟩ := ih fun x hlo hhi => hbytes x (by omega) hhi
    obtain ⟨hlen, hname, hdirent⟩ := @direntAt_congr blk data i (base + i) fun x hx => by
      rw [Nat.add_assoc]
      exact hbytes (i + x) (by omega) (by omega)
    refine ⟨.cons ⟨by rw [hlen]; exact hent.ge, by rw [hlen]; exact hent.dvd, ?_⟩ ?_, ?_⟩
    · rw [hlen, hname]
      exact hent.name
    · rw [hlen, Nat.add_assoc]
      exact hl
    · rw [map_cons, map_cons, map_cons, hdirent, hmap]

-- the same bytes in another block
theorem Recs.congr (h : Recs blk i j l) (data : Bytes)
    (hbytes : ∀ x, i ≤ x → x < j → data x = blk x) :
    Recs data i j l ∧ l.map (direntAt data) = l.map (direntAt blk) := by
  have hshift := h.shift data 0 fun x hlo hhi => by
    rw [Nat.zero_add]
    exact hbytes x hlo hhi
  have hmap : l.map (0 + ·) = l := by simp
  rwa [hmap, Nat.zero_add, Nat.zero_add] at hshift

end Entries

/-! ## Removing a record -/

section Remove

variable {bs i : Nat} {blk : Bytes}

theorem dropEnt_chain {p : Nat} (hbs : bs < 2 ^ 16) (h : Split bs blk i) (hp : Split i blk p)
    (heq : p + recLen blk p = i) : Chain bs (dropEnt blk i (some p)) := by
  have hpge := hp.ent.ge
  have hle := h.behind.le
  have hbytes : ∀ x, x < p + 4 ∨ p + 6 ≤ x ∧ x < i ∨ i + recLen blk i ≤ x →
      blk x = dropEnt blk i (some p) x := by
    intro x hx
    unfold dropEnt
    dsimp only
    rw [copy_of_ne (by omega), put16_of_ne (by omega)]
  have hlen : recLen (dropEnt blk i (some p)) p = recLen blk p + recLen blk i := by
    have hcopy : ∀ x < i, dropEnt blk i (some p) x =
        put16 blk (p + 4) (recLen blk p + recLen blk i) x := by
      intro x hx
      exact copy_of_ne (Or.inl hx)
    unfold recLen
    rw [get16_congr (hcopy _ (by omega)) (hcopy _ (by omega)), get16_put16, Nat.mod_eq_of_lt]
    · rfl
    · omega
  have hname : nameLen (dropEnt blk i (some p)) p = nameLen blk p := by
    unfold nameLen
    rw [← hbytes (p + 6) (by omega)]
  have hent : Ent (dropEnt blk i (some p)) p := by
    refine ⟨by omega, ?_, ?_⟩
    · rw [hlen]
      exact Nat.dvd_add hp.ent.dvd h.ent.dvd
    · have hfit := hp.ent.name
      rw [hname]
      omega
  apply (hp.before.congr fun x _ hx => hbytes x (by omega)).trans
  refine .cons hent ?_
  rw [hlen, ← Nat.add_assoc, heq]
  exact h.behind.congr fun x hx _ => hbytes x (by omega)

end Remove

/-! ## Adding a record -/

section Add

variable {bs i : Nat} {blk stack : Bytes} {ino ftype : Nat} {name : List UInt8}

theorem newEnt_fields (stack : Bytes) (ino ftype len : Nat) (hname : name.length ≤ 255)
    (hlen : len < 2 ^ 16) : recLen (newEnt stack ino len ftype name) 0 = len ∧
      nameLen (newEnt stack ino len ftype name) 0 = name.length ∧
      direntAt (newEnt stack ino len ftype name) 0 = ⟨ino % 2 ^ 32, name⟩ := by
  have hrec : recLen (newEnt stack ino len ftype name) 0 = len := by
    unfold newEnt recLen
    rw [get16_put16_of_ne (by omega), get16_put16, Nat.mod_eq_of_lt hlen]
  have hnameLen : nameLen (newEnt stack ino len ftype name) 0 = name.length := by
    unfold newEnt nameLen
    rw [put16, if_pos rfl, UInt8.toNat_ofNat']
    omega
  have hino : entIno (newEnt stack ino len ftype name) 0 = ino % 2 ^ 32 := by
    unfold newEnt entIno
    rw [get32_put16_of_ne (by omega), get32_put16_of_ne (by omega), get32_put32]
  refine ⟨hrec, hnameLen, ?_⟩
  unfold direntAt nameAt
  rw [hnameLen]
  congr 1
  apply ext_getElem
  · rw [length_map, length_range]
  intro k hk hk'
  rw [getElem_map, getElem_range]
  unfold newEnt
  rw [put16_of_ne (by omega), put16_of_ne (by omega), put32_of_ne (by omega), if_neg (by omega),
    if_pos (by omega), show 0 + 8 + k - 8 = k by omega, getD_eq_getElem _ _ hk']

theorem copied_ent (blk stack : Bytes) (i ino ftype : Nat) {len : Nat} (hname : name.length ≤ 255)
    (hlen : len < 2 ^ 16) (hdvd : 4 ∣ len) (hroom : dirReclen name.length ≤ len) :
    Ent (copy blk i (newEnt stack ino len ftype name) 0 (dirReclen name.length)) i ∧
      recLen (copy blk i (newEnt stack ino len ftype name) 0 (dirReclen name.length)) i = len ∧
      direntAt (copy blk i (newEnt stack ino len ftype name) 0 (dirReclen name.length)) i =
        ⟨ino % 2 ^ 32, name⟩ := by
  obtain ⟨h8, -, hsz, -⟩ := dirReclen_facts name.length
  obtain ⟨hnewLen, hnewName, hnew⟩ := newEnt_fields stack ino ftype len hname hlen
  obtain ⟨hlen', hname', hdirent⟩ := @direntAt_congr (newEnt stack ino len ftype name)
    (copy blk i (newEnt stack ino len ftype name) 0 (dirReclen name.length)) 0 i
    fun x hx => copy_apply (by omega)
  rw [hnewLen] at hlen'
  rw [hnewName] at hname'
  rw [hnew] at hdirent
  refine ⟨⟨?_, ?_, ?_⟩, hlen', hdirent⟩
  · omega
  · rwa [hlen']
  · rwa [hlen', hname']

/-- A record that is not in use is replaced; the end of one in use is split off. -/
theorem putEnt_recs {l₁ l₂ : List Nat} (hbs : bs < 2 ^ 16) (h₁ : Recs blk 0 i l₁) (hent : Ent blk i)
    (h₂ : Recs blk (i + recLen blk i) bs l₂) (hname : name.length ≤ 255)
    (hroom : hasRoom blk (dirReclen name.length) i = .ok true) {new : Bytes}
    (hnew : new = putEnt blk (fun len => newEnt stack ino len ftype name)
      (dirReclen name.length) i) :
    ∃ l, Recs new 0 bs l ∧ l.map (direntAt new) = l₁.map (direntAt blk) ++
      ((if entIno blk i = 0 then [⟨ino % 2 ^ 32, name⟩]
        else [direntAt blk i, ⟨ino % 2 ^ 32, name⟩]) ++ l₂.map (direntAt blk)) := by
  have hle := h₂.le
  unfold hasRoom at hroom
  unfold putEnt at hnew
  by_cases hfree : entIno blk i = 0
  · -- the record is not in use
    rw [if_pos hfree] at hroom hnew ⊢
    have hfit : dirReclen name.length ≤ recLen blk i := by simpa using hroom
    obtain ⟨hent', hlen, hdirent⟩ := copied_ent blk stack i ino ftype hname
      (by omega : recLen blk i < 2 ^ 16) hent.dvd hfit
    rw [← hnew] at hent' hlen hdirent
    obtain ⟨hbefore, hmap₁⟩ := h₁.congr new fun x _ hx => by
      rw [hnew, copy_of_ne (Or.inl hx)]
    obtain ⟨hbehind, hmap₂⟩ := h₂.congr new fun x hx _ => by
      rw [hnew, copy_of_ne (Or.inr (by omega))]
    refine ⟨l₁ ++ i :: l₂, hbefore.append (.cons hent' ?_), ?_⟩
    · rw [hlen]
      exact hbehind
    · rw [map_append, map_cons, hmap₁, hmap₂, hdirent]
      rfl
  · -- the end of the record is split off
    rw [if_neg hfree] at hroom hnew ⊢
    obtain ⟨hold, hfit⟩ : dirReclen (nameLen blk i) ≤ recLen blk i ∧
        dirReclen name.length ≤ recLen blk i - dirReclen (nameLen blk i) := by simpa using hroom
    obtain ⟨h8, hdvd, hsz8, -⟩ := dirReclen_facts (nameLen blk i)
    generalize hsz : dirReclen (nameLen blk i) = oldsz at *
    obtain ⟨hent', hlen, hdirent⟩ := copied_ent (put16 blk (i + 4) oldsz) stack (i + oldsz) ino
      ftype hname (by omega : recLen blk i - oldsz < 2 ^ 16) (Nat.dvd_sub hent.dvd hdvd) hfit
    rw [← hnew] at hent' hlen hdirent
    have hbytes : ∀ x, x < i + 4 ∨ i + 6 ≤ x ∧ x < i + oldsz ∨ i + recLen blk i ≤ x →
        new x = blk x := by
      intro x hx
      rw [hnew, copy_of_ne (by omega), put16_of_ne (by omega)]
    have hshort : recLen new i = oldsz := by
      rw [hnew]
      unfold recLen
      rw [get16_congr (copy_of_ne (by omega)) (copy_of_ne (by omega)), get16_put16,
        Nat.mod_eq_of_lt (by omega)]
    have hname' : nameLen new i = nameLen blk i := by
      unfold nameLen
      rw [hbytes (i + 6) (by omega)]
    have hino' : entIno new i = entIno blk i := get32_congr fun x hx => hbytes _ (by omega)
    have hkept : direntAt new i = direntAt blk i := by
      unfold direntAt nameAt
      rw [hname']
      congr 1
      apply map_congr_left
      intro x hx
      rw [mem_range] at hx
      exact hbytes _ (by omega)
    have hent : Ent new i := by
      refine ⟨by omega, by rwa [hshort], ?_⟩
      rw [hname', hshort, hsz]
    obtain ⟨hbefore, hmap₁⟩ := h₁.congr new fun x _ hx => hbytes x (by omega)
    obtain ⟨hbehind, hmap₂⟩ := h₂.congr new fun x hx _ => hbytes x (by omega)
    refine ⟨l₁ ++ i :: (i + oldsz) :: l₂, hbefore.append (.cons hent ?_), ?_⟩
    · rw [hshort]
      refine .cons hent' ?_
      rw [hlen, show i + oldsz + (recLen blk i - oldsz) = i + recLen blk i by omega]
      exact hbehind
    · rw [map_append, map_cons, map_cons, hmap₁, hmap₂, hkept, hdirent]
      rfl

theorem putEnt_chain (hbs : bs < 2 ^ 16) (h : Split bs blk i) (hname : name.length ≤ 255)
    (hroom : hasRoom blk (dirReclen name.length) i = .ok true) :
    Chain bs (putEnt blk (fun len => newEnt stack ino len ftype name)
      (dirReclen name.length) i) := by
  obtain ⟨l₁, h₁⟩ := h.before.exists_recs
  obtain ⟨l₂, h₂⟩ := h.behind.exists_recs
  obtain ⟨l, hl, -⟩ := putEnt_recs hbs h₁ h.ent h₂ hname hroom rfl
  exact hl.ents

theorem newBlock_recs (stack : Bytes) (ino ftype : Nat) (hbs : bs < 2 ^ 16) (h4 : 4 ∣ bs)
    (hge : 512 ≤ bs) (hname : name.length ≤ 255) {new : Bytes}
    (hnew : new = copy zero 0 (newEnt stack ino (bs % 2 ^ 16) ftype name) 0
      (dirReclen name.length)) : Recs new 0 bs [0] ∧ direntAt new 0 = ⟨ino % 2 ^ 32, name⟩ := by
  obtain ⟨-, -, -, hle⟩ := dirReclen_facts name.length
  rw [Nat.mod_eq_of_lt hbs] at hnew
  obtain ⟨hent, hlen, hdirent⟩ := copied_ent zero stack 0 ino ftype hname hbs h4 (by omega)
  rw [← hnew] at hent hlen hdirent
  refine ⟨.cons hent ?_, hdirent⟩
  rw [hlen, Nat.zero_add]
  exact .nil bs

end Add

/-! ## Directories -/

/-- Every block of the directory is a chain. -/
def Ext2fs.DirChains (fs : Ext2fs) (n : Nat) : Prop :=
  ∀ ρ b, Full ρ → fs.vol.ref n ρ = some (.blk b) → Chain fs.geo.blocksz (fs.vol.data b)

inductive DirCall
  | mklink (stack : Bytes) (ino mode : Nat) (name : List UInt8)
  | rmlink (name : List UInt8)

def DirCall.exec (n : Nat) : DirCall → Op Ext2fs Unit
  | .mklink stack ino mode name => ext2fsMklink stack ino mode n name
  | .rmlink name => ext2fsRmlink n name

def DirStep (n : Nat) (fs : Ext2fs) (c : DirCall) (fs' : Ext2fs) : Prop :=
  (c.exec n).run fs = .ok () fs'

/-- No block of the directory starts with the name that is removed. -/
def DirCall.Safe (n : Nat) (fs : Ext2fs) : DirCall → Prop
  | .mklink _ _ _ _ => True
  | .rmlink name => ∀ ρ b, Full ρ → fs.vol.ref n ρ = some (.blk b) →
      hasName fs.geo.blocksz (fs.vol.data b) name 0 ≠ .ok true

def DirCall.Ok (n : Nat) (fs : Ext2fs) (c : DirCall) : Prop := fs.geo.InReach ∧ c.Safe n fs

structure DirStart (n : Nat) (fs : Ext2fs) : Prop where
  consistent : fs.Consistent
  used : fs.vol.inUse n = true
  dir : iType (fs.vol.inode n) = S_IFDIR
  chains : fs.DirChains n

/-- What holds throughout. -/
structure DirInv (n : Nat) (fs : Ext2fs) : Prop where
  layout : fs.geo.Layout
  sound : fs.vol.Sound
  live : fs.vol.Live n
  chains : fs.DirChains n

section Dirs

variable {n : Nat} {fs fs' : Ext2fs}

theorem Geo.Layout.blocksz_facts {g : Geo} (hg : g.Layout) :
    g.blocksz < 2 ^ 16 ∧ 4 ∣ g.blocksz ∧ 512 ≤ g.blocksz := by
  have hle := hg.blocksz_le
  have hge := hg.mounted.blocksz_ge
  exact ⟨by omega, ⟨g.ppb, by rw [Nat.mul_comm]; exact hg.mounted.ppb_mul.symm⟩, by omega⟩

theorem hasName_congr {bs i : Nat} {blk blk' : Bytes} {name : List UInt8} (hi : i + 8 ≤ bs)
    (h : ∀ x < bs, blk x = blk' x) : hasName bs blk name i = hasName bs blk' name i := by
  have hlen : nameLen blk i = nameLen blk' i := by
    unfold nameLen
    rw [h (i + 6) (by omega)]
  unfold hasName
  rw [hlen]
  split
  · split
    · rfl
    congr 1
    rw [Bool.eq_iff_iff, all_eq_true, all_eq_true]
    refine forall₂_congr fun k hk => ?_
    rw [mem_range] at hk
    rw [h (i + 8 + k) (by omega)]
  · rfl

-- a block of the directory as the code reads it
theorem DirInv.chain_block (h : DirInv n fs) {w : Nat} {ρ : List Nat} (hρ : Full ρ)
    (href : fs.vol.ref n ρ = some (.blk w)) : Chain fs.geo.blocksz (fs.block w) := by
  have hdata := (h.sound.owned n ρ w h.live hρ.fits href).1
  have hchain := h.chains ρ w hρ href
  rw [vol_data hdata] at hchain
  exact hchain.congr fun x hx => trim_apply _ hx

theorem DirInv.relinked (h : DirInv n fs) {w m : Nat} {buf : Bytes}
    (hrel : Relinked n fs.vol fs'.vol w buf m) (hbuf : Chain fs.geo.blocksz buf) :
    DirInv n fs' := by
  obtain ⟨hgeo, hsound⟩ := hrel.sound h.sound h.live
  obtain ⟨⟨ρ, hρ, href⟩, -, d, hvol⟩ := hrel
  have hgeo' : fs'.geo = fs.geo := hgeo
  refine ⟨by rw [hgeo']; exact h.layout, hsound, ?_, ?_⟩
  · rw [hvol]
    exact (live_setInode (v := fs.vol.setData w buf) (addLinks_type _ d) n).mpr h.live
  intro ρ' b hρ' href'
  rw [hvol] at href'
  have hold := ref_of_setInode (fun k _ => Or.inl (addLinks_slot _ d k)) href'
  rw [h.sound.ref_setData h.live hρ href buf h.live hρ'.fits] at hold
  rw [hgeo', hvol, setInode_data, setData_data]
  split
  · exact hbuf.congr fun x hx => (trim_apply _ hx).symm
  · exact h.chains ρ' b hρ' hold

theorem DirInv.linkedNew (h : DirInv n fs) {ino : Nat} {buf : Bytes}
    (hnew : LinkedNew n buf ino fs.vol fs'.vol) (hbuf : Chain fs.geo.blocksz buf) :
    DirInv n fs' := by
  obtain ⟨hgeo, hsound⟩ := hnew.sound h.live
  have hgeo' : fs'.geo = fs.geo := hgeo
  obtain ⟨-, v₁, ρ, b, x, hfills, hsound₁, htype, hslots, hvol⟩ := hnew
  have hlive₁ : v₁.Live n := (hfills.live n).mpr h.live
  have hgeo₁ : v₁.geo.blocksz = fs.geo.blocksz := congrArg Geo.blocksz hfills.geo
  have htype' := @LinkedNew.type_eq n _ _ buf ino _ _ _ hfills htype
  refine ⟨by rw [hgeo']; exact h.layout, hsound, ?_, ?_⟩
  · rw [hvol, live_setInode htype', live_setInode (v := v₁.setData b buf) htype]
    exact hlive₁
  intro ρ' b' hρ' href'
  rw [hvol] at href'
  have hold := ref_of_setInode (LinkedNew.slots hfills hslots) href'
  have hold := ref_of_setInode (v := v₁.setData b buf) (fun k hk => Or.inl (hslots k hk)) hold
  rw [hsound₁.ref_setData hlive₁ hfills.full hfills.now buf hlive₁ hρ'.fits] at hold
  rw [hgeo', hvol, setInode_data, setInode_data, setData_data]
  split
  · rw [hgeo₁]
    exact hbuf.congr fun x hx => (trim_apply _ hx).symm
  rename_i hne
  -- the block was there before
  have hplace : ¬ (n = n ∧ ρ' = ρ) := by
    rintro ⟨-, rfl⟩
    rw [hfills.now] at hold
    cases hold
    exact hne rfl
  rw [hfills.refs n ρ' h.live hρ' hplace] at hold
  rw [hfills.data n ρ' b' h.live hρ' hold]
  exact h.chains ρ' b' hρ' hold

theorem DirInv.step (h : DirInv n fs) {c : DirCall} (hok : c.Ok n fs) (hstep : DirStep n fs c fs') :
    DirInv n fs' := by
  obtain ⟨hreach, hsafe⟩ := hok
  have hg : fs.geo.Ok := h.layout.ok hreach
  obtain ⟨hbs, h4, hge⟩ := h.layout.blocksz_facts
  cases c with
  | mklink stack ino mode name =>
    obtain ⟨hname, ftype, ⟨w, i, pdir, hscan, hrel⟩ | hnew⟩ :=
      (mklink_post hg hreach.flush h.sound h.live stack ino mode name).ok hstep
    · obtain ⟨ρ, hρ, href⟩ := hrel.place
      have hchain := h.chain_block hρ href
      obtain ⟨hsplit, hroom, -⟩ := scanEnts_split (.nil 0) hchain (Or.inl ⟨rfl, rfl⟩) hscan
      exact h.relinked hrel (putEnt_chain hbs hsplit hname hroom)
    · exact h.linkedNew hnew (newBlock_recs stack ino ftype hbs h4 hge hname rfl).1.ents
  | rmlink name =>
    obtain ⟨w, i, pdir, m, hscan, hrel⟩ := (rmlink_post hg h.sound h.live name).ok hstep
    obtain ⟨ρ, hρ, href⟩ := hrel.place
    have hchain := h.chain_block hρ href
    obtain ⟨hsplit, hhit, hfirst | ⟨p, hp, hbefore, heq⟩⟩ :=
      scanEnts_split (.nil 0) hchain (Or.inl ⟨rfl, rfl⟩) hscan
    · -- the name was the first of its block
      obtain ⟨-, rfl⟩ := hfirst
      have hdata := (h.sound.owned n ρ w h.live hρ.fits href).1
      have hnot := hsafe ρ w hρ href
      rw [vol_data hdata, @hasName_congr _ _ _ (fs.block w) _ (by omega)
        fun x hx => trim_apply _ hx] at hnot
      exact absurd hhit hnot
    · subst hp
      exact h.relinked hrel (dropEnt_chain hbs hsplit hbefore heq)

end Dirs

/-- In every run of safe calls on a directory its blocks stay chains. -/
theorem dirChains_of_safe_calls {n : Nat} {fs : Ext2fs}
    (h : Reach (DirStart n) (DirStep n) (DirCall.Ok n) fs) : fs.DirChains n := by
  have hinv : DirInv n fs := by
    apply h.invariant
    · intro fs hfs
      exact ⟨hfs.consistent.layout, hfs.consistent.sound, ⟨hfs.used, Or.inr hfs.dir⟩, hfs.chains⟩
    · intro fs c fs' hfs hok hstep
      exact hfs.step hok hstep
  exact hinv.chains

/-! ### A directory on the small volume -/

def smallDir : Ext2fs := (ext2fsMkino 0x41ED 0 0 0).after smallFs

theorem smallDir_vol : smallDir.vol = (smallFs.vol.use 8).setInode 8 (newInode 0x41ED 0 0 0) := by
  have hrun := Op.run_of_returns (x := ext2fsMkino 0x41ED 0 0 0) (s := smallFs) (a := 8)
    (by decide)
  exact ((mkinoBase_post (small_layout.ok small_inReach) small_inReach.flush _).ok hrun).2.2

theorem smallDir_geo : smallDir.geo = smallFs.geo := congrArg geo smallDir_vol

theorem smallDir_inode : smallDir.vol.inode 8 = newInode 0x41ED 0 0 0 := by
  rw [smallDir_vol, setInode_inode, if_pos rfl]
  unfold newInode
  rw [trim_put16 _ _ (by omega), trim_put32 _ _ (by omega), trim_put32 _ _ (by omega),
    trim_put32 _ _ (by omega), trim_put16 _ _ (by omega), trim_put16 _ _ (by omega), trim_zero]

theorem smallDir_start : DirStart 8 smallDir := by
  have hunused : smallFs.vol.inUse 8 = false := by
    rw [vol_inUse (small_inodeNo.mpr (by omega))]
    decide
  refine ⟨⟨?_, ?_, ?_⟩, ?_, ?_, ?_⟩
  · rw [smallDir_geo]
    exact small_layout
  · rw [smallDir_vol]
    exact small_consistent.sound.newInode hunused (Or.inr fun k hk => newInode_slot _ _ _ _ hk)
  · intro n hn
    rw [smallDir_geo]
    by_cases h8 : n = 8
    · have hsize : smallFs.geo.getisize (newInode 0x41ED 0 0 0) = 0 := by decide
      rw [h8, smallDir_inode]
      omega
    have hinode : smallDir.vol.inode n = smallFs.vol.inode n := by
      rw [smallDir_vol, setInode_inode, if_neg h8, use_inode]
    have hlive : smallFs.vol.Live n := by
      obtain ⟨hused, htype⟩ := hn
      rw [smallDir_vol, setInode_inUse, use_inUse, if_neg h8] at hused
      rw [hinode] at htype
      exact ⟨hused, htype⟩
    rw [hinode]
    exact small_consistent.size_le n hlive
  · rw [smallDir_vol, setInode_inUse, use_inUse, if_pos rfl]
  · rw [smallDir_inode]
    decide
  intro ρ b hρ href
  have hempty : ∀ k < 15, iBlock (smallDir.vol.inode 8) k = 0 := by
    intro k hk
    rw [smallDir_inode]
    exact newInode_slot _ _ _ _ hk
  cases (ref_of_empty hempty href).2

-- the file of the small volume under the name "a"
def oneName : Ext2fs := (ext2fsMklink zero 7 0x81A4 8 [97]).after smallDir

theorem oneName_step : DirStep 8 smallDir (.mklink zero 7 0x81A4 [97]) oneName :=
  Op.run_of_returns (by decide)

theorem dirChains_after_mklink : oneName.DirChains 8 := by
  refine dirChains_of_safe_calls (.next (.start smallDir_start) oneName_step ⟨?_, trivial⟩)
  rw [smallDir_geo]
  exact small_inReach

def noName : Ext2fs := (ext2fsRmlink 8 [97]).after oneName

/-- The only name of a block is removed, and the block has a record of length 0. -/
theorem rmlink_first_breaks_chain :
    Reach (DirStart 8) (DirStep 8) (fun _ _ => True) noName ∧ ¬ noName.DirChains 8 := by
  have hone : Reach (DirStart 8) (DirStep 8) (fun _ _ => True) oneName :=
    .next (.start smallDir_start) oneName_step trivial
  have hnone : DirStep 8 oneName (.rmlink [97]) noName := Op.run_of_returns (by decide)
  refine ⟨.next hone hnone trivial, fun hchains => ?_⟩
  have hno : noName.geo.InodeNo 8 := by decide
  have href : noName.vol.ref 8 [0] = some (.blk 6) := by
    rw [ref_slot _ _ (by omega), vol_inode hno]
    rfl
  have hchain := hchains [0] 6 rfl href
  have hlen : recLen (noName.vol.data 6) 0 = 0 := by
    by_cases hdata : noName.geo.IsData 6
    · rw [vol_data hdata]
      decide
    · have hzero : noName.vol.data 6 = zero := if_neg hdata
      rw [hzero]
      rfl
  cases hchain with
  | cons hent _ =>
    have hge := hent.ge
    omega

end Ext2
