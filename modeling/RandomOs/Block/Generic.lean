import RandomOs.Block.Ata
import RandomOs.Kern.Errno
import RandomOs.Lib.Runs

/-!
# Block devices (`block_read`, `block_write`)

A transfer is a loop over sectors.  For an ATA drive the number of each sector is cut to 32 bits by
the loop and to 28 by the driver, so that a sector from 2^28 on becomes another one.
-/

namespace Block

open Lib Kern Function

/-! ## Model -/

structure BlockDev where
  id : Nat
  priv : Nat

def DRV_ATA : Nat := 1
def DRV_AHCI : Nat := 2
def DRV_USBMSD : Nat := 3
def DRV_VIRTIO : Nat := 4

def blkdevType (id : Nat) : Nat := (id >>> 24) &&& 0xFF

variable {σ : Type}

-- the drive, the sector and the place in the buffer; `none` is a panic
abbrev SecFn (σ : Type) := Nat → Nat → Nat → σ → Option (Int × σ)

structure Drivers (σ : Type) where
  ata : SecFn σ
  ahci : SecFn σ
  usbmsd : SecFn σ
  virtio : SecFn σ

def blockLoop (fn : Nat → σ → Option (Int × σ)) : Nat → Nat → σ → Option (Int × σ)
  | _, 0, s => some (0, s)
  | i, n + 1, s => (fn i s).bind fun r => if r.1 < 0 then some r else blockLoop fn (i + 1) n r.2

def blockTransfer (fns : Drivers σ) (devs : List BlockDev) (id lba cnt : Nat) (s : σ) :
    Option (Int × σ) :=
  match devs.find? fun dev => dev.id == id with
  | none => some (-ENOEXIST, s)
  | some dev =>
    let fn32 (fn : SecFn σ) :=
      blockLoop (fun i => fn dev.priv ((lba + i) % 2 ^ 32) (i * 512)) 0 cnt s
    let fn64 (fn : SecFn σ) :=
      blockLoop (fun i => fn dev.priv ((lba + i) % 2 ^ 64) (i * 512)) 0 cnt s
    if blkdevType dev.id = DRV_ATA then fn32 fns.ata
    else if blkdevType dev.id = DRV_AHCI then fn64 fns.ahci
    else if blkdevType dev.id = DRV_USBMSD then fn32 fns.usbmsd
    else if blkdevType dev.id = DRV_VIRTIO then fn32 fns.virtio
    else some (-EINVAL, s)

-- `other` stands for the drivers of other disks
def blockWrite (other : Drivers Bus) (devs : List BlockDev) (id : Nat) (buf : Bytes)
    (lba cnt : Nat) (b : Bus) : Option (Int × Bus) :=
  blockTransfer { other with ata := ataSecwrite buf } devs id lba cnt b

def blockRead (other : Drivers (Bytes × Bus)) (devs : List BlockDev) (id : Nat) (buf : Bytes)
    (lba cnt : Nat) (b : Bus) : Option (Int × Bytes × Bus) :=
  blockTransfer { other with ata := ataSecread } devs id lba cnt (buf, b)

/-! ## What is asked for -/

/-- The id is registered for the ATA drive `drv`. -/
def IsAta (devs : List BlockDev) (id drv : Nat) : Prop :=
  ∃ dev, (devs.find? fun dev => dev.id == id) = some dev ∧ blkdevType dev.id = DRV_ATA ∧
    dev.priv = drv ∧ (drv = 1 ∨ drv = 2)

/-- The disk after the sectors from `lba` on became those of the buffer. -/
def written (disk : Nat → Sector) (buf : Bytes) (lba cnt : Nat) : Nat → Sector := fun t =>
  if lba ≤ t ∧ t < lba + cnt then fun k => buf ((t - lba) * 512 + k) else disk t

def WriteExact (other : Drivers Bus) (devs : List BlockDev) (id drv : Nat) (buf : Bytes)
    (lba cnt : Nat) (b : Bus) : Prop :=
  ∃ code b', blockWrite other devs id buf lba cnt b = some (code, b') ∧
    (code < 0 ∨ (∀ i < cnt, lba + i < (b drv).capacity) ∧ (∀ q, q ≠ drv → b' q = b q) ∧
      (b' drv).sectors = written (b drv).sectors buf lba cnt)

def ReadExact (other : Drivers (Bytes × Bus)) (devs : List BlockDev) (id drv : Nat) (buf : Bytes)
    (lba cnt : Nat) (b : Bus) : Prop :=
  ∃ code buf' b', blockRead other devs id buf lba cnt b = some (code, buf', b') ∧
    (code < 0 ∨ (∀ i < cnt, lba + i < (b drv).capacity) ∧ (∀ q, (b' q).sectors = (b q).sectors) ∧
      ∀ i < cnt, ∀ k : Fin 512, buf' (i * 512 + k) = (b drv).sectors (lba + i) k)

def Bus.setDisk (b : Bus) (drv : Nat) (disk : Nat → Sector) : Bus :=
  Function.update b drv { b drv with sectors := disk }

theorem Bus.setDisk_self (b : Bus) (drv : Nat) (disk : Nat → Sector) :
    b.setDisk drv disk drv = { b drv with sectors := disk } :=
  update_self ..

/-! ## Loops -/

variable {i id drv : Nat} {devs : List BlockDev} {fn : Nat → σ → Option (Int × σ)}

theorem blockLoop_succ {s s' : σ} (h : fn i s = some (0, s')) (n : Nat) :
    blockLoop fn i (n + 1) s = blockLoop fn (i + 1) n s' := by
  rw [blockLoop, h, Option.bind_some]
  exact if_neg (Int.lt_irrefl 0)

-- a loop whose every call succeeds
theorem blockLoop_iterate {n i : Nat} (st : Nat → σ)
    (h : ∀ j < n, fn (i + j) (st j) = some (0, st (j + 1))) :
    blockLoop fn i n (st 0) = some (0, st n) := by
  induction n generalizing i st with
  | zero => rfl
  | succ n ih =>
    have hfirst : fn i (st 0) = some (0, st 1) := h 0 (by omega)
    rw [blockLoop_succ hfirst]
    apply ih (i := i + 1) (fun j => st (j + 1))
    intro j hj
    have hnext := h (j + 1) (by omega)
    rwa [show i + (j + 1) = i + 1 + j by omega] at hnext

theorem mod_mod_28 (x : Nat) : x % 2 ^ 32 % 2 ^ 28 = x % 2 ^ 28 := by
  omega

theorem blockTransfer_ata {fns : Drivers σ} {lba cnt : Nat} {s : σ} (h : IsAta devs id drv) :
    blockTransfer fns devs id lba cnt s =
      blockLoop (fun i => fns.ata drv ((lba + i) % 2 ^ 32) (i * 512)) 0 cnt s := by
  obtain ⟨dev, hfind, htype, rfl, -⟩ := h
  unfold blockTransfer
  rw [hfind]
  dsimp only
  rw [if_pos htype]

/-! ## Writing -/

section Write

variable (buf : Bytes) (lba : Nat) (d : Ata)

def writeAll : Nat → Ata
  | 0 => d
  | n + 1 => secwrite (writeAll n) ((lba + n) % 2 ^ 32) buf (n * 512)

-- the drive takes the n-th sector of the transfer
def Takes (n : Nat) : Prop :=
  (lba + n) % 2 ^ 28 < d.capacity ∧ d.latency (d.issued + 2 * n) ≤ 100000

theorem writeAll_kept (n : Nat) :
    (writeAll buf lba d n).capacity = d.capacity ∧ (writeAll buf lba d n).latency = d.latency ∧
      (writeAll buf lba d n).issued = d.issued + 2 * n := by
  induction n with
  | zero => exact ⟨rfl, rfl, rfl⟩
  | succ n ih =>
    obtain ⟨hcap, hlat, hissued⟩ := ih
    obtain ⟨hcap', hlat', hissued', -⟩ :=
      secwrite_spec buf (n * 512) (writeAll buf lba d n) ((lba + n) % 2 ^ 32)
    refine ⟨hcap'.trans hcap, hlat'.trans hlat, hissued'.trans ?_⟩
    omega

open Classical in
theorem writeAll_sectors (n : Nat) :
    (writeAll buf lba d (n + 1)).sectors =
      if Takes lba d n then
        update (writeAll buf lba d n).sectors ((lba + n) % 2 ^ 28)
          fun k => buf (n * 512 + k.val)
      else (writeAll buf lba d n).sectors := by
  obtain ⟨hcap, hlat, hissued⟩ := writeAll_kept buf lba d n
  obtain ⟨-, -, -, hsec⟩ := secwrite_spec buf (n * 512) (writeAll buf lba d n) ((lba + n) % 2 ^ 32)
  rw [hcap, hlat, hissued, mod_mod_28] at hsec
  rw [writeAll, hsec]
  exact if_congr Iff.rfl rfl rfl

variable {n : Nat}

-- a sector that changed was the target of a write the drive took
theorem writeAll_changed {t : Nat} (h : (writeAll buf lba d n).sectors t ≠ d.sectors t) :
    ∃ j < n, Takes lba d j ∧ (lba + j) % 2 ^ 28 = t := by
  induction n with
  | zero => exact absurd rfl h
  | succ n ih =>
    by_cases hlast : Takes lba d n ∧ (lba + n) % 2 ^ 28 = t
    · exact ⟨n, Nat.lt_succ_self n, hlast⟩
    have hsame : (writeAll buf lba d (n + 1)).sectors t = (writeAll buf lba d n).sectors t := by
      rw [writeAll_sectors]
      split
      · rename_i htakes
        exact update_of_ne (fun ht => hlast ⟨htakes, ht.symm⟩) _ _
      · rfl
    rw [hsame] at h
    obtain ⟨j, hj, hjt⟩ := ih h
    exact ⟨j, Nat.lt_succ_of_lt hj, hjt⟩

theorem writeAll_exact (htakes : ∀ j < n, Takes lba d j) (hlow : ∀ j < n, lba + j < 2 ^ 28) :
    (writeAll buf lba d n).sectors = written d.sectors buf lba n := by
  induction n with
  | zero =>
    funext t
    rw [written, if_neg (by omega)]
    rfl
  | succ n ih =>
    have hn := hlow n (Nat.lt_succ_self n)
    rw [writeAll_sectors, if_pos (htakes n (Nat.lt_succ_self n)),
      ih (fun j hj => htakes j (by omega)) (fun j hj => hlow j (by omega)), Nat.mod_eq_of_lt hn]
    funext t
    by_cases ht : t = lba + n
    · subst ht
      rw [update_self, written, if_pos (by omega), Nat.add_sub_cancel_left]
    rw [update_of_ne ht]
    unfold written
    by_cases hin : lba ≤ t ∧ t < lba + n
    · rw [if_pos hin, if_pos (by omega)]
    · rw [if_neg hin, if_neg (by omega)]

end Write

theorem blockWrite_eq (h : IsAta devs id drv)
    (other : Drivers Bus) (buf : Bytes) (lba cnt : Nat) (b : Bus) :
    blockWrite other devs id buf lba cnt b =
      some (0, update b drv (writeAll buf lba (b drv) cnt)) := by
  have hdrv : drv = 1 ∨ drv = 2 := by
    obtain ⟨-, -, -, -, hdrv⟩ := h
    exact hdrv
  rw [blockWrite, blockTransfer_ata h]
  have hstart : b = update b drv (writeAll buf lba (b drv) 0) := (update_eq_self drv b).symm
  have hloop := @blockLoop_iterate _
    (fun i => ataSecwrite buf drv ((lba + i) % 2 ^ 32) (i * 512)) cnt 0
    (fun j => update b drv (writeAll buf lba (b drv) j)) ?_
  · rw [← hstart] at hloop
    exact hloop
  · intro j _
    rw [ataSecwrite, if_pos hdrv, update_self, update_idem, Nat.zero_add]
    rfl

/-! ## Reading -/

-- the drive gives the n-th sector of the transfer
def Gives (lba : Nat) (d : Ata) (n : Nat) : Prop :=
  (lba + n) % 2 ^ 28 < d.capacity ∧ d.latency (d.issued + n) ≤ 100004

-- the drive after a sector gives the next ones as the drive before would
theorem gives_next (lba : Nat) {d d' : Ata} (hcap : d'.capacity = d.capacity)
    (hlat : d'.latency = d.latency) (hissued : d'.issued = d.issued + 1) (j : Nat) :
    Gives (lba + (i + 1)) d' j ↔ Gives (lba + i) d (j + 1) := by
  unfold Gives
  rw [hcap, hlat, hissued, show lba + (i + 1) + j = lba + i + (j + 1) by omega,
    show d.issued + 1 + j = d.issued + (j + 1) by omega]

theorem putSector_apply (buf : Bytes) (a : Nat) (s : Sector) (k : Fin 512) :
    putSector buf a s 256 (a + k) = s k := by
  rw [putSector, dif_pos ⟨by omega, by omega, by omega⟩]
  congr 1
  exact Fin.ext (by dsimp only; omega)

theorem putSector_of_ne (buf : Bytes) {a x : Nat} (s : Sector) (h : x < a ∨ a + 512 ≤ x) :
    putSector buf a s 256 x = buf x := by
  rw [putSector, dif_neg (by omega)]

section Read

variable {drv : Nat} (hdrv : drv = 1 ∨ drv = 2) (lba : Nat)

def readFn (drv lba : Nat) (i : Nat) : Bytes × Bus → Option (Int × Bytes × Bus) :=
  ataSecread drv ((lba + i) % 2 ^ 32) (i * 512)

include hdrv

variable {i n : Nat}

theorem readFn_some (buf : Bytes) (b : Bus) (h : Gives (lba + i) (b drv) 0) :
    ∃ d', readFn drv lba i (buf, b) = some (0, putSector buf (i * 512)
        ((b drv).sectors ((lba + i) % 2 ^ 28)) 256, update b drv d') ∧
      d'.capacity = (b drv).capacity ∧ d'.latency = (b drv).latency ∧
      d'.issued = (b drv).issued + 1 ∧ d'.sectors = (b drv).sectors := by
  have haddr : (lba + i) % 2 ^ 32 % 2 ^ 28 < (b drv).capacity := by
    rw [mod_mod_28]
    exact h.1
  obtain ⟨d', hread, hkept⟩ := secread_some buf (i * 512) (b drv) haddr h.2
  rw [mod_mod_28] at hread
  refine ⟨d', ?_, hkept⟩
  unfold readFn ataSecread
  rw [if_pos hdrv]
  rw [hread]
  rfl

theorem readFn_none (buf : Bytes) (b : Bus) (h : ¬ Gives (lba + i) (b drv) 0) :
    readFn drv lba i (buf, b) = none := by
  unfold readFn ataSecread
  rw [if_pos hdrv]
  rw [secread_none]
  · rfl
  · rw [mod_mod_28]
    exact h

theorem readLoop_some (buf : Bytes) (b : Bus) (h : ∀ j < n, Gives (lba + i) (b drv) j) :
    ∃ buf' b', blockLoop (readFn drv lba) i n (buf, b) = some (0, buf', b') ∧
      (∀ q, (b' q).sectors = (b q).sectors) ∧ (∀ x, x < i * 512 → buf' x = buf x) ∧
      ∀ j < n, ∀ k : Fin 512,
        buf' ((i + j) * 512 + k) = (b drv).sectors ((lba + (i + j)) % 2 ^ 28) k := by
  induction n generalizing i buf b with
  | zero => exact ⟨buf, b, rfl, fun _ => rfl, fun _ _ => rfl, fun j hj => absurd hj (by omega)⟩
  | succ n ih =>
    obtain ⟨d', hfn, hcap, hlat, hissued, hsec⟩ := readFn_some hdrv lba buf b (h 0 (by omega))
    have hself : update b drv d' drv = d' := update_self ..
    obtain ⟨buf', b', hloop, hsame, hbelow, hdata⟩ := @ih (i + 1)
      (putSector buf (i * 512) ((b drv).sectors ((lba + i) % 2 ^ 28)) 256)
      (update b drv d') (by
        intro j hj
        rw [hself, gives_next lba hcap hlat hissued]
        exact h (j + 1) (by omega))
    refine ⟨buf', b', ?_, ?_, ?_, ?_⟩
    · rw [blockLoop_succ hfn]
      exact hloop
    · intro q
      rw [hsame q]
      by_cases hq : q = drv
      · rw [hq, hself, hsec]
      · rw [update_of_ne hq]
    · intro x hx
      have hx' : x < (i + 1) * 512 :=
        Nat.lt_of_lt_of_le hx (Nat.mul_le_mul_right 512 (Nat.le_succ i))
      rw [hbelow x hx', putSector_of_ne _ _ (Or.inl hx)]
    · intro j hj k
      cases j with
      | zero =>
        rw [Nat.add_zero, hbelow (i * 512 + k.val) (by omega), putSector_apply]
      | succ j =>
        have hrest := hdata j (by omega) k
        rw [hself, hsec] at hrest
        rw [show i + (j + 1) = i + 1 + j by omega]
        exact hrest

theorem readLoop_gives (buf : Bytes) (b : Bus)
    (h : blockLoop (readFn drv lba) i n (buf, b) ≠ none) : ∀ j < n, Gives (lba + i) (b drv) j := by
  induction n generalizing i buf b with
  | zero => exact fun j hj => absurd hj (by omega)
  | succ n ih =>
    by_cases hgives : Gives (lba + i) (b drv) 0
    swap
    · rw [blockLoop, readFn_none hdrv lba buf b hgives] at h
      exact absurd rfl h
    obtain ⟨d', hfn, hcap, hlat, hissued, -⟩ := readFn_some hdrv lba buf b hgives
    rw [blockLoop_succ hfn] at h
    intro j hj
    cases j with
    | zero => exact hgives
    | succ j =>
      have hrest := ih _ _ h j (by omega)
      rw [update_self, gives_next lba hcap hlat hissued] at hrest
      exact hrest

end Read

/-! ## Exactly the sectors asked for -/

section Exact

variable {devs : List BlockDev} {id drv : Nat} (h : IsAta devs id drv) (b : Bus) (lba cnt : Nat)
include h

theorem write_exact_iff (other : Drivers Bus) :
    (∀ disk buf, WriteExact other devs id drv buf lba cnt (b.setDisk drv disk)) ↔
      ∀ i < cnt, lba + i < 2 ^ 28 ∧ lba + i < (b drv).capacity ∧
        (b drv).latency ((b drv).issued + 2 * i) ≤ 100000 := by
  constructor
  · intro hexact
    -- ones onto a disk of zeros
    obtain ⟨code, b', hrun, hres⟩ := hexact (fun _ _ => 0) (fun _ => 1)
    rw [blockWrite_eq h] at hrun
    cases hrun
    obtain ⟨-, -, hsec⟩ := hres.resolve_left (by decide)
    rw [update_self, Bus.setDisk_self] at hsec
    have htook : ∀ i < cnt, ∃ j < cnt, Takes lba (b.setDisk drv (fun _ _ => 0) drv) j ∧
        (lba + j) % 2 ^ 28 = lba + i := by
      intro i hi
      rw [Bus.setDisk_self]
      apply writeAll_changed (fun _ => 1)
      rw [hsec, written, if_pos (by omega)]
      intro heq
      exact absurd (congrFun heq 0) (by decide : (1 : UInt8) ≠ 0)
    have hlow : ∀ i < cnt, lba + i < 2 ^ 28 := by
      intro i hi
      obtain ⟨j, -, -, hj⟩ := htook i hi
      rw [← hj]
      exact Nat.mod_lt _ (by decide)
    intro i hi
    obtain ⟨j, hj, htakes, hji⟩ := htook i hi
    rw [Nat.mod_eq_of_lt (hlow j hj)] at hji
    obtain rfl : j = i := by omega
    rw [Bus.setDisk_self] at htakes
    have hcap := htakes.1
    rw [Nat.mod_eq_of_lt (hlow j hj)] at hcap
    exact ⟨hlow j hj, hcap, htakes.2⟩
  · intro hall disk buf
    refine ⟨0, _, blockWrite_eq h other buf lba cnt _, Or.inr ⟨?_, ?_, ?_⟩⟩
    · intro i hi
      rw [Bus.setDisk_self]
      exact (hall i hi).2.1
    · exact fun q hq => update_of_ne hq _ _
    rw [update_self]
    apply writeAll_exact
    · intro j hj
      obtain ⟨hlow, hcap, htime⟩ := hall j hj
      rw [Bus.setDisk_self, Takes, Nat.mod_eq_of_lt hlow]
      exact ⟨hcap, htime⟩
    · exact fun j hj => (hall j hj).1

theorem read_exact_iff (other : Drivers (Bytes × Bus)) :
    (∀ disk buf, ReadExact other devs id drv buf lba cnt (b.setDisk drv disk)) ↔
      ∀ i < cnt, lba + i < 2 ^ 28 ∧ lba + i < (b drv).capacity ∧
        (b drv).latency ((b drv).issued + i) ≤ 100004 := by
  have hdrv : drv = 1 ∨ drv = 2 := by
    obtain ⟨-, -, -, -, hdrv⟩ := h
    exact hdrv
  have hrun : ∀ buf b', blockRead other devs id buf lba cnt b' =
      blockLoop (readFn drv lba) 0 cnt (buf, b') :=
    fun buf b' => blockTransfer_ata h
  constructor
  · intro hexact i hi
    -- the sectors that a number of 28 bits can name differ from the others
    obtain ⟨code, buf', b', hread, hres⟩ :=
      hexact (fun t _ => if t < 2 ^ 28 then 0 else 1) (fun _ => 0)
    rw [hrun] at hread
    have hgives := readLoop_gives hdrv lba _ _ (by rw [hread]; exact Option.some_ne_none _)
    obtain ⟨buf₁, b₁, hloop, -, -, hdata⟩ := readLoop_some hdrv lba _ _ hgives
    rw [hread] at hloop
    cases hloop
    obtain ⟨hcap, -, hright⟩ := hres.resolve_left (by decide)
    have hbyte := hright i hi 0
    have hbyte' := hdata i hi 0
    rw [Nat.zero_add] at hbyte'
    rw [hbyte', Bus.setDisk_self] at hbyte
    have hmod : (lba + i) % 2 ^ 28 < 2 ^ 28 := Nat.mod_lt _ (by decide)
    have hlow : lba + i < 2 ^ 28 := by
      by_contra hhigh
      dsimp only at hbyte
      rw [if_pos hmod, if_neg hhigh] at hbyte
      exact absurd hbyte (by decide)
    have htime := (hgives i hi).2
    have hcap' := hcap i hi
    rw [Bus.setDisk_self] at htime hcap'
    exact ⟨hlow, hcap', htime⟩
  · intro hall disk buf
    have hgives : ∀ j < cnt, Gives (lba + 0) (b.setDisk drv disk drv) j := by
      intro j hj
      obtain ⟨hlow, hcap, htime⟩ := hall j hj
      rw [Bus.setDisk_self, Gives, Nat.add_zero, Nat.mod_eq_of_lt hlow]
      exact ⟨hcap, htime⟩
    obtain ⟨buf', b', hloop, hsame, -, hdata⟩ := readLoop_some hdrv lba buf _ hgives
    refine ⟨0, buf', b', (hrun _ _).trans hloop, Or.inr ⟨?_, hsame, ?_⟩⟩
    · intro i hi
      rw [Bus.setDisk_self]
      exact (hall i hi).2.1
    · intro i hi k
      have hbyte := hdata i hi k
      rw [Nat.zero_add, Nat.mod_eq_of_lt (hall i hi).1] at hbyte
      exact hbyte

end Exact

/-- A transfer is exact on every disk if and only if its sectors have numbers of 28 bits, the drive
has them and it is ready for each one before the driver stops polling. -/
theorem block_exact_iff {devs : List BlockDev} {id drv : Nat} (h : IsAta devs id drv) (b : Bus)
    (lba cnt : Nat) (otherW : Drivers Bus) (otherR : Drivers (Bytes × Bus)) :
    ((∀ disk buf, WriteExact otherW devs id drv buf lba cnt (b.setDisk drv disk)) ↔
      ∀ i < cnt, lba + i < 2 ^ 28 ∧ lba + i < (b drv).capacity ∧
        (b drv).latency ((b drv).issued + 2 * i) ≤ 100000) ∧
    ((∀ disk buf, ReadExact otherR devs id drv buf lba cnt (b.setDisk drv disk)) ↔
      ∀ i < cnt, lba + i < 2 ^ 28 ∧ lba + i < (b drv).capacity ∧
        (b drv).latency ((b drv).issued + i) ≤ 100004) :=
  ⟨write_exact_iff h b lba cnt otherW, read_exact_iff h b lba cnt otherR⟩

/-! ## A large drive -/

def noDrivers (σ : Type) : Drivers σ :=
  ⟨fun _ _ _ _ => none, fun _ _ _ _ => none, fun _ _ _ _ => none, fun _ _ _ _ => none⟩

def oneAta : List BlockDev := [⟨2 ^ 24, 1⟩]

theorem oneAta_isAta : IsAta oneAta (2 ^ 24) 1 :=
  ⟨⟨2 ^ 24, 1⟩, rfl, by decide, rfl, Or.inl rfl⟩

-- 2^29 sectors of zeros, never busy
def largeDrive : Ata := ⟨2 ^ 29, fun _ => 0, fun _ _ => 0, fun _ => 0, .idle, 0, 0⟩

def largeBus : Bus := fun _ => largeDrive

-- the last three sectors that 28 bits can name
theorem block_exact_last_sectors :
    (∀ disk buf, WriteExact (noDrivers _) oneAta (2 ^ 24) 1 buf (2 ^ 28 - 3) 3
        (largeBus.setDisk 1 disk)) ∧
      ∀ disk buf, ReadExact (noDrivers _) oneAta (2 ^ 24) 1 buf (2 ^ 28 - 3) 3
        (largeBus.setDisk 1 disk) := by
  obtain ⟨hwrite, hread⟩ :=
    block_exact_iff oneAta_isAta largeBus (2 ^ 28 - 3) 3 (noDrivers _) (noDrivers _)
  have hcap : ∀ i < 3, 2 ^ 28 - 3 + i < 2 ^ 28 ∧ 2 ^ 28 - 3 + i < 2 ^ 29 := by
    intro i hi
    omega
  exact ⟨hwrite.mpr fun i hi => ⟨(hcap i hi).1, (hcap i hi).2, Nat.zero_le _⟩,
    hread.mpr fun i hi => ⟨(hcap i hi).1, (hcap i hi).2, Nat.zero_le _⟩⟩

/-- A write to sector 2^28 reports success, changes sector 0 and leaves sector 2^28 as it was. -/
theorem block_not_exact :
    (∃ b', blockWrite (noDrivers _) oneAta (2 ^ 24) (fun _ => 1) (2 ^ 28) 1 largeBus =
        some (0, b') ∧ (b' 1).sectors 0 = (fun _ => 1) ∧
        (b' 1).sectors (2 ^ 28) = fun _ => 0) ∧
      ¬ WriteExact (noDrivers _) oneAta (2 ^ 24) 1 (fun _ => 1) (2 ^ 28) 1 largeBus := by
  have htakes : Takes (2 ^ 28) (largeBus 1) 0 :=
    ⟨(by decide : (2 ^ 28 + 0) % 2 ^ 28 < 2 ^ 29), Nat.zero_le _⟩
  have hsec : (writeAll (fun _ => 1) (2 ^ 28) (largeBus 1) 1).sectors =
      update (fun _ _ => 0) 0 fun _ => 1 := by
    rw [writeAll_sectors, if_pos htakes]
    rfl
  have hkept : (writeAll (fun _ => 1) (2 ^ 28) (largeBus 1) 1).sectors (2 ^ 28) = fun _ => 0 := by
    rw [hsec]
    exact update_of_ne (by decide) _ _
  constructor
  · refine ⟨_, blockWrite_eq oneAta_isAta _ _ _ _ _, ?_, ?_⟩
    · rw [update_self, hsec]
      exact update_self ..
    · rw [update_self]
      exact hkept
  · rintro ⟨code, b', hrun, hres⟩
    rw [blockWrite_eq oneAta_isAta] at hrun
    cases hrun
    obtain ⟨-, -, hexact⟩ := hres.resolve_left (by decide)
    rw [update_self] at hexact
    rw [hexact, written] at hkept
    exact absurd (congrFun hkept 0) (by decide : (1 : UInt8) ≠ 0)

/-! ## Locks -/

/-- Where a core is in `block_read` or `block_write`; the record that `block_getdevid` has copied
has its own lock. -/
inductive Phase
  | out
  | copied (id : Nat) (lock : Bool)
  | inside (id : Nat)

/-- The locks of the table, by device, and what each core does. -/
structure Calls (κ : Type) where
  lock : Nat → Bool
  core : κ → Phase

/-- The types for which `block_read` and `block_write` have a driver. -/
def KnownType (id : Nat) : Prop := blkdevType id ∈ [DRV_ATA, DRV_AHCI, DRV_USBMSD, DRV_VIRTIO]

inductive CallAct
  | getdevid (id : Nat)
  | acquire (id : Nat)
  | release (id : Nat)

namespace Calls

variable {κ : Type} [DecidableEq κ] {s t : Calls κ} {devs : List BlockDev}

def put (s : Calls κ) (c : κ) (p : Phase) : Calls κ := { s with core := update s.core c p }

-- `lock_acquire` goes on when the exchange returns 0
inductive Step (devs : List BlockDev) : Calls κ → κ × CallAct → Calls κ → Prop
  | getdevid (s c id) : s.core c = .out → (devs.find? fun dev => dev.id == id).isSome →
      KnownType id → Step devs s (c, .getdevid id) (s.put c (.copied id (s.lock id)))
  | acquire (s c id) : s.core c = .copied id false →
      Step devs s (c, .acquire id) (s.put c (.inside id))
  | release (s c id) : s.core c = .inside id → Step devs s (c, .release id) (s.put c .out)

def Init (s : Calls κ) : Prop := (∀ id, s.lock id = false) ∧ ∀ c, s.core c = .out

/-- At most one call is between its `lock_acquire` and its `lock_release` for a device. -/
def Exclusive (s : Calls κ) : Prop :=
  ∀ c c' id, s.core c = .inside id → s.core c' = .inside id → c = c'

/-- No call has begun. -/
def idle : Calls κ := ⟨fun _ => false, fun _ => .out⟩

-- what the first call does to the lock of its copy is not seen by the second
theorem both_enter {c c' : κ} (hne : c ≠ c') {dev : BlockDev} (hdev : dev ∈ devs)
    (hknown : KnownType dev.id) :
    ∃ s, Reach Init (Step devs) (fun _ _ => True) s ∧
      s.core c = .inside dev.id ∧ s.core c' = .inside dev.id := by
  have hfind : (devs.find? fun d => d.id == dev.id).isSome :=
    List.find?_isSome.mpr ⟨dev, hdev, beq_self_eq_true dev.id⟩
  have h0 : Reach Init (Step devs) (fun _ _ => True) (idle : Calls κ) :=
    .start ⟨fun _ => rfl, fun _ => rfl⟩
  have h1 := h0.next (.getdevid _ c dev.id rfl hfind hknown) trivial
  have h2 := h1.next (.acquire _ c dev.id (update_self ..)) trivial
  have h3 := h2.next (.getdevid _ c' dev.id (by simp [put, idle, hne.symm]) hfind hknown) trivial
  have h4 := h3.next (.acquire _ c' dev.id (update_self ..)) trivial
  exact ⟨_, h4, by simp [put, hne], update_self ..⟩

theorem all_out (hnone : ∀ dev ∈ devs, ¬ KnownType dev.id)
    (hs : Reach Init (Step devs) (fun _ _ => True) s) : ∀ c, s.core c = .out := by
  apply Reach.invariant _ _ hs
  · exact fun s hinit => hinit.2
  · intro s a t h _ hst
    cases hst with
    | getdevid c id _ hfind hknown =>
      obtain ⟨dev, hdev, hid⟩ := List.find?_isSome.mp hfind
      exact absurd (eq_of_beq hid ▸ hknown) (hnone dev hdev)
    | acquire c id hc => cases (h c).symm.trans hc
    | release c id hc => cases (h c).symm.trans hc

/-- The lock keeps no call out: calls exclude each other in every run if and only if there is one
core at most or no device that has a driver. -/
theorem exclusive_iff : (∀ s : Calls κ, Reach Init (Step devs) (fun _ _ => True) s → s.Exclusive) ↔
    (∀ c c' : κ, c = c') ∨ ∀ dev ∈ devs, ¬ KnownType dev.id := by
  constructor
  · intro h
    by_contra hnot
    push Not at hnot
    obtain ⟨⟨c, c', hne⟩, dev, hdev, hknown⟩ := hnot
    obtain ⟨s, hs, hc, hc'⟩ := both_enter hne hdev hknown
    exact hne (h s hs c c' dev.id hc hc')
  · rintro (hone | hnone) s hs c c' id hc -
    · exact hone c c'
    · cases (all_out hnone hs c).symm.trans hc

theorem both_inside : ∃ s : Calls Bool, Reach Init (Step oneAta) (fun _ _ => True) s ∧
    s.core true = .inside (2 ^ 24) ∧ s.core false = .inside (2 ^ 24) ∧ ¬ s.Exclusive := by
  obtain ⟨s, hs, htrue, hfalse⟩ := @both_enter Bool _ oneAta true false (by decide) ⟨2 ^ 24, 1⟩
    (List.mem_singleton_self _) (by unfold KnownType; decide)
  exact ⟨s, hs, htrue, hfalse, fun h => by cases h true false _ htrue hfalse⟩

end Calls

end Block
