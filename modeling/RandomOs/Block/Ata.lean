import Mathlib.Logic.Function.Basic
import RandomOs.Lib.Bytes

/-!
# ATA drives (`ata.c`)

A drive is what its ports show: the registers that hold a sector number of 28 bits, the status, and
the data port through which 256 words go.  After a command it is busy for as many reads of the
status as it likes.  A command for a sector that it does not have ends in the error status.  The
driver stops polling after 100000 reads; it panics when a read has failed and does not look when a
write has.
-/

namespace Block

open Lib Function List

/-! ## The drive -/

abbrev Sector := Fin 512 → UInt8

inductive AtaMode
  | idle
  | failed
  | reading (lba pos : Nat)
  | writing (lba : Nat) (words : List Nat)

structure Ata where
  capacity : Nat
  -- how many reads of the status find the drive busy after its n-th command
  latency : Nat → Nat
  sectors : Nat → Sector
  regs : Nat → Nat
  mode : AtaMode
  issued : Nat
  busy : Nat

open Ata

namespace Ata

def lba (d : Ata) : Nat :=
  d.regs 6 % 16 * 2 ^ 24 + d.regs 5 * 2 ^ 16 + d.regs 4 * 2 ^ 8 + d.regs 3

-- one sector by its number; the driver asks for nothing else
def Addressed (d : Ata) : Prop :=
  (d.regs 6).testBit 6 = true ∧ d.regs 2 = 1 ∧ d.lba < d.capacity

instance (d : Ata) : Decidable d.Addressed :=
  inferInstanceAs (Decidable (_ ∧ _ ∧ _))

def afterCommand (d : Ata) (cmd : Nat) : AtaMode :=
  if cmd = 0xE7 then .idle
  else if d.Addressed then
    if cmd = 0x20 then .reading d.lba 0
    else if cmd = 0x30 then .writing d.lba []
    else .failed
  else .failed

def outb (d : Ata) (off v : Nat) : Ata :=
  if off = 7 then
    { d with mode := d.afterCommand v, busy := d.latency d.issued, issued := d.issued + 1 }
  else { d with regs := Function.update d.regs off v }

def ready : AtaMode → Nat
  | .idle => 0x50
  | .failed => 0x51
  | .reading _ _ => 0x58
  | .writing _ _ => 0x58

-- register 7, or the alternate status at the control port
def status (d : Ata) : Nat × Ata :=
  if d.busy = 0 then (ready d.mode, d) else (0x80, { d with busy := d.busy - 1 })

def word (s : Sector) (i : Nat) : Nat :=
  if h : 2 * i + 1 < 512 then (s ⟨2 * i + 1, h⟩).toNat * 256 + (s ⟨2 * i, by omega⟩).toNat else 0

def pack (words : List Nat) : Sector := fun k =>
  let w := words.getD (k / 2) 0
  UInt8.ofNat (if k.val % 2 = 0 then w else w / 256)

def inw (d : Ata) : Nat × Ata :=
  match d.mode, d.busy with
  | .reading lba pos, 0 =>
    (word (d.sectors lba) pos,
      { d with mode := if pos + 1 = 256 then .idle else .reading lba (pos + 1) })
  | _, _ => (0xFFFF, d)

def outw (d : Ata) (w : Nat) : Ata :=
  match d.mode, d.busy with
  | .writing lba words, 0 =>
    if words.length + 1 = 256 then
      { d with
        sectors := Function.update d.sectors lba (pack (words ++ [w]))
        mode := .idle }
    else { d with mode := .writing lba (words ++ [w]) }
  | _, _ => d

end Ata

/-! ## The driver

Every port access of a call goes to the drive of the call. -/

-- `while (!(status & 0x08) && --timeout)`
def waitDrq : Nat → Ata → Ata
  | 0, d => d
  | timeout + 1, d =>
    if d.status.1 &&& 0x08 ≠ 0 then d.status.2 else waitDrq timeout d.status.2

-- `while ((status & 0x80) && --timeout)`
def waitBusy : Nat → Ata → Ata
  | 0, d => d
  | timeout + 1, d =>
    if d.status.1 &&& 0x80 = 0 then d.status.2 else waitBusy timeout d.status.2

-- four reads of the alternate status, 400 ns
def pause (d : Ata) : Ata := d.status.2.status.2.status.2.status.2

-- `none` is a panic
def ataPoll (d : Ata) : Option Ata :=
  let d := waitBusy 100000 (pause d)
  let stat := d.status.1
  if stat &&& 0x01 ≠ 0 then none
  else if stat &&& 0x08 = 0 then none
  else some d.status.2

def outCount (d : Ata) (lba : Nat) : Ata :=
  (((d.outb 2 1).outb 3 (lba &&& 0xFF)).outb 4 ((lba >>> 8) &&& 0xFF)).outb 5
    ((lba >>> 16) &&& 0xFF)

def outHead (d : Ata) (lba : Nat) : Ata := d.outb 6 (0xE0 ||| ((lba >>> 24) &&& 0x0F))

-- the words of the sector come in, two bytes each
def readWords (buf : Bytes) (a : Nat) (d : Ata) : Nat → Bytes × Ata
  | 0 => (buf, d)
  | i + 1 =>
    let s := readWords buf a d i
    let dt := s.2.inw.1
    (Function.update (Function.update s.1 (a + i * 2) (UInt8.ofNat (dt &&& 0xFF)))
      (a + i * 2 + 1) (UInt8.ofNat (dt >>> 8)), s.2.inw.2)

def secread (d : Ata) (lba : Nat) (buf : Bytes) (a : Nat) : Option (Bytes × Ata) :=
  let d := (outCount (pause (outHead d lba)) lba).outb 7 0x20
  (ataPoll d).map fun d => readWords buf a d 256

def writeWords (buf : Bytes) (a : Nat) (d : Ata) : Nat → Ata
  | 0 => d
  | i + 1 => (writeWords buf a d i).outw
      (((buf (a + i * 2 + 1)).toNat <<< 8) ||| (buf (a + i * 2)).toNat)

def secwrite (d : Ata) (lba : Nat) (buf : Bytes) (a : Nat) : Ata :=
  let d := waitDrq 100000 ((outCount (outHead d lba) lba).outb 7 0x30)
  waitBusy 100000 ((writeWords buf a d 256).outb 7 0xE7)

abbrev Bus := Nat → Ata

-- the ports of drives other than 1 and 2 read 0
def ataSecread (drv lba : Nat) (a : Nat) (s : Bytes × Bus) : Option (Int × Bytes × Bus) :=
  if drv = 1 ∨ drv = 2 then
    (secread (s.2 drv) lba s.1 a).map fun r => (0, r.1, Function.update s.2 drv r.2)
  else none

def ataSecwrite (buf : Bytes) (drv lba : Nat) (a : Nat) (b : Bus) : Option (Int × Bus) :=
  if drv = 1 ∨ drv = 2 then
    some (0, Function.update b drv (secwrite (b drv) lba buf a))
  else some (0, b)

/-! ## Ports -/

namespace Ata

variable {d : Ata} {lba pos w : Nat} {words : List Nat}

theorem outw_writing (hmode : d.mode = .writing lba words) (hbusy : d.busy = 0) :
    d.outw w =
      if words.length + 1 = 256 then
        { d with
          sectors := update d.sectors lba (pack (words ++ [w]))
          mode := .idle }
      else { d with mode := .writing lba (words ++ [w]) } := by
  unfold outw
  rw [hmode, hbusy]
  rfl

theorem inw_reading (hmode : d.mode = .reading lba pos) (hbusy : d.busy = 0) :
    d.inw = (word (d.sectors lba) pos,
      { d with mode := if pos + 1 = 256 then .idle else .reading lba (pos + 1) }) := by
  unfold inw
  rw [hmode, hbusy]
  rfl

theorem outb_command (d : Ata) (cmd : Nat) : d.outb 7 cmd =
      { d with mode := d.afterCommand cmd, busy := d.latency d.issued, issued := d.issued + 1 } :=
  if_pos rfl

/-! ## Waiting -/

def pass (d : Ata) (n : Nat) : Ata := { d with busy := d.busy - n }

theorem pass_busy (d : Ata) (n : Nat) : (d.pass n).busy = d.busy - n := rfl

theorem pass_mode (d : Ata) (n : Nat) : (d.pass n).mode = d.mode := rfl

theorem pass_issued (d : Ata) (n : Nat) : (d.pass n).issued = d.issued := rfl

theorem status_snd (d : Ata) : d.status.2 = d.pass 1 := by
  unfold status pass
  split
  · rename_i h
    cases d
    cases h
    rfl
  · rfl

theorem pass_pass (d : Ata) (m n : Nat) : (d.pass m).pass n = d.pass (m + n) := by
  unfold pass
  rw [Nat.sub_sub]

variable {d : Ata}

theorem pass_eq_self (h : d.busy = 0) (n : Nat) : d.pass n = d := by
  unfold pass
  rw [h, Nat.zero_sub, ← h]

theorem pass_of_le {m n : Nat} (hm : d.busy ≤ m) (hn : d.busy ≤ n) : d.pass m = d.pass n := by
  unfold pass
  rw [Nat.sub_eq_zero_of_le hm, Nat.sub_eq_zero_of_le hn]

theorem status_busy (h : d.busy ≠ 0) : d.status.1 = 0x80 := by
  rw [status, if_neg h]

theorem status_ready (h : d.busy = 0) : d.status.1 = ready d.mode := by
  rw [status, if_pos h]

end Ata

theorem pause_eq (d : Ata) : pause d = d.pass 4 := by
  unfold pause
  rw [status_snd, status_snd, status_snd, status_snd, pass_pass, pass_pass, pass_pass]

theorem ready_not_busy (m : AtaMode) : ready m &&& 0x80 = 0 := by
  cases m with
  | idle => exact (by decide : 0x50 &&& 0x80 = 0)
  | failed => exact (by decide : 0x51 &&& 0x80 = 0)
  | reading lba pos => exact (by decide : 0x58 &&& 0x80 = 0)
  | writing lba words => exact (by decide : 0x58 &&& 0x80 = 0)

-- polling only lets time pass, whatever ends it
theorem waitBusy_eq (t : Nat) (d : Ata) : waitBusy t d = d.pass t := by
  induction t generalizing d with
  | zero => rfl
  | succ t ih =>
    unfold waitBusy
    by_cases hbusy : d.busy = 0
    · rw [status_ready hbusy, if_pos (ready_not_busy d.mode), status_snd,
        pass_eq_self hbusy, pass_eq_self hbusy]
    · rw [status_busy hbusy, if_neg (by decide), ih, status_snd, pass_pass,
        Nat.add_comm]

theorem waitDrq_eq (t : Nat) (d : Ata) : waitDrq t d = d.pass t := by
  induction t generalizing d with
  | zero => rfl
  | succ t ih =>
    unfold waitDrq
    have hnext : waitDrq t d.status.2 = d.pass (t + 1) := by
      rw [ih, status_snd, pass_pass, Nat.add_comm]
    by_cases hbusy : d.busy = 0
    · split
      · rw [status_snd, pass_eq_self hbusy, pass_eq_self hbusy]
      · exact hnext
    · rw [status_busy hbusy]
      exact hnext

/-! ## The sector number -/

theorem head_mod (x : Nat) : (0xE0 ||| (x &&& 0x0F)) % 16 = x % 16 := by
  have hmask : x &&& 0x0F = x % 16 := Nat.and_two_pow_sub_one_eq_mod x 4
  have hall : ∀ y < 16, (0xE0 ||| y) % 16 = y := by decide
  rw [hmask]
  exact hall _ (Nat.mod_lt _ (by decide))

theorem head_lbaMode (x : Nat) : (0xE0 ||| (x &&& 0x0F)).testBit 6 = true := by
  rw [Nat.testBit_or]
  rfl

theorem and_ff (x : Nat) : x &&& 0xFF = x % 256 := Nat.and_two_pow_sub_one_eq_mod x 8

section Select

variable (d : Ata) (lba : Nat)

-- the registers after the number is written, and what it leaves alone
structure Selected (d d' : Ata) (lba : Nat) : Prop where
  lba_eq : d'.lba = lba % 2 ^ 28
  lbaMode : (d'.regs 6).testBit 6 = true
  count : d'.regs 2 = 1
  same : ∃ regs busy, d' = { d with regs := regs, busy := busy }

theorem selected_of {d' : Ata}
    (h6 : d'.regs 6 = 0xE0 ||| ((lba >>> 24) &&& 0x0F)) (h2 : d'.regs 2 = 1)
    (h3 : d'.regs 3 = lba &&& 0xFF) (h4 : d'.regs 4 = (lba >>> 8) &&& 0xFF)
    (h5 : d'.regs 5 = (lba >>> 16) &&& 0xFF)
    (hsame : ∃ regs busy, d' = { d with regs := regs, busy := busy }) : Selected d d' lba where
  lba_eq := by
    rw [Ata.lba, h6, h5, h4, h3, head_mod, and_ff, and_ff, and_ff]
    omega
  lbaMode := by
    rw [h6]
    exact head_lbaMode _
  count := h2
  same := hsame

theorem selected_write : Selected d (outCount (outHead d lba) lba) lba :=
  selected_of d lba rfl rfl rfl rfl rfl ⟨_, _, rfl⟩

theorem selected_read : Selected d (outCount (pause (outHead d lba)) lba) lba := by
  rw [pause_eq]
  exact selected_of d lba rfl rfl rfl rfl rfl ⟨_, _, rfl⟩

end Select

-- after a command for the selected sector
def Ata.Commanded (d d' : Ata) (mode : AtaMode) : Prop :=
  ∃ regs, d' = { d with
    regs := regs, mode := mode, busy := d.latency d.issued, issued := d.issued + 1 }

variable {d d' : Ata} {lba : Nat} {n : Nat}

theorem Selected.addressed_iff (h : Selected d d' lba) :
    d'.Addressed ↔ lba % 2 ^ 28 < d.capacity := by
  obtain ⟨regs, busy, hsame⟩ := h.same
  have hcap : d'.capacity = d.capacity := by rw [hsame]
  unfold Addressed
  rw [h.lba_eq, hcap]
  exact ⟨fun ha => ha.2.2, fun ha => ⟨h.lbaMode, h.count, ha⟩⟩

theorem Selected.command (h : Selected d d' lba) (cmd : Nat) :
    d.Commanded (d'.outb 7 cmd) (d'.afterCommand cmd) := by
  obtain ⟨regs, busy, hsame⟩ := h.same
  refine ⟨regs, ?_⟩
  rw [outb_command]
  generalize d'.afterCommand cmd = mode
  rw [hsame]

theorem Selected.afterCommand_read (h : Selected d d' lba) : d'.afterCommand 0x20 =
      if lba % 2 ^ 28 < d.capacity then .reading (lba % 2 ^ 28) 0 else .failed := by
  unfold afterCommand
  rw [if_neg (by decide : ¬ 0x20 = 0xE7), h.lba_eq]
  exact if_congr h.addressed_iff rfl rfl

theorem Selected.afterCommand_write (h : Selected d d' lba) : d'.afterCommand 0x30 =
      if lba % 2 ^ 28 < d.capacity then .writing (lba % 2 ^ 28) [] else .failed := by
  unfold afterCommand
  rw [if_neg (by decide : ¬ 0x30 = 0xE7), h.lba_eq]
  exact if_congr h.addressed_iff rfl rfl

/-! ## The words of a sector -/

def wordAt (buf : Bytes) (a i : Nat) : Nat :=
  ((buf (a + i * 2 + 1)).toNat <<< 8) ||| (buf (a + i * 2)).toNat

theorem wordAt_eq (buf : Bytes) (a i : Nat) :
    wordAt buf a i = (buf (a + i * 2 + 1)).toNat * 256 + (buf (a + i * 2)).toNat := by
  have hlt := (buf (a + i * 2)).toNat_lt
  rw [wordAt, ← Nat.shiftLeft_add_eq_or_of_lt (by omega), Nat.shiftLeft_eq]

theorem pack_wordAt (buf : Bytes) (a : Nat) :
    pack ((List.range 256).map (wordAt buf a)) = fun k => buf (a + k.val) := by
  funext k
  unfold pack
  dsimp only
  have hk : k.val / 2 < 256 := by omega
  have hlo := (buf (a + k.val / 2 * 2)).toNat_lt
  rw [getD_eq_getElem _ _ (by rw [length_map, length_range]; exact hk),
    getElem_map, getElem_range, wordAt_eq]
  by_cases heven : k.val % 2 = 0
  · have hat : a + k.val / 2 * 2 = a + k.val := by omega
    rw [if_pos heven, hat]
    apply UInt8.toNat.inj
    rw [hat] at hlo
    rw [UInt8.toNat_ofNat']
    omega
  · have hat : a + k.val / 2 * 2 + 1 = a + k.val := by omega
    rw [if_neg heven, hat]
    apply UInt8.toNat.inj
    have hhi := (buf (a + k.val)).toNat_lt
    rw [UInt8.toNat_ofNat']
    omega

section Write

variable {d : Ata} {lba : Nat} (buf : Bytes) (a : Nat)

theorem writeWords_part (hmode : d.mode = .writing lba []) (hbusy : d.busy = 0) (hn : n < 256) :
    writeWords buf a d n = { d with mode := .writing lba ((List.range n).map (wordAt buf a)) } := by
  induction n with
  | zero =>
    rw [writeWords, range_zero, map_nil, ← hmode]
  | succ n ih =>
    rw [writeWords, ih (by omega), @outw_writing { d with mode := _ } lba _ _ rfl hbusy,
      if_neg (by rw [length_map, length_range]; omega), range_succ, map_append]
    rfl

theorem writeWords_all (hmode : d.mode = .writing lba []) (hbusy : d.busy = 0) :
    writeWords buf a d 256 =
      { d with
        sectors := update d.sectors lba fun k => buf (a + k.val)
        mode := .idle } := by
  rw [writeWords, writeWords_part buf a hmode hbusy (by decide : 255 < 256),
    @outw_writing { d with mode := _ } lba _ _ rfl hbusy]
  have hlast : (List.range 255).map (wordAt buf a) ++ [wordAt buf a 255] =
      (List.range 256).map (wordAt buf a) := by
    have hrange : List.range 256 = List.range 255 ++ [255] := @range_succ 255
    rw [hrange, map_append, map_singleton]
  rw [← pack_wordAt buf a, ← hlast]
  rfl

-- a drive that is busy or has given up takes no data
theorem writeWords_ignored (h : d.busy ≠ 0 ∨ d.mode = .failed) (n : Nat) :
    writeWords buf a d n = d := by
  induction n with
  | zero => rfl
  | succ n ih =>
    rw [writeWords, ih]
    unfold outw
    split
    · rename_i hmode hbusy
      rcases h with h | h
      · exact absurd hbusy h
      · rw [h] at hmode
        cases hmode
    · rfl

/-- A sector is written if the drive has it and is ready in time; the driver sees no difference. -/
theorem secwrite_spec (d : Ata) (lba : Nat) :
    (secwrite d lba buf a).capacity = d.capacity ∧ (secwrite d lba buf a).latency = d.latency ∧
    (secwrite d lba buf a).issued = d.issued + 2 ∧
    (secwrite d lba buf a).sectors =
      if lba % 2 ^ 28 < d.capacity ∧ d.latency d.issued ≤ 100000 then
        update d.sectors (lba % 2 ^ 28) fun k => buf (a + k.val)
      else d.sectors := by
  have hsel := selected_write d lba
  obtain ⟨regs, hcmd⟩ := hsel.command 0x30
  rw [hsel.afterCommand_write] at hcmd
  unfold secwrite
  rw [waitDrq_eq, waitBusy_eq, hcmd]
  -- how long the driver polls is of no interest below
  generalize 100000 = t
  rw [pass_issued]
  by_cases haddr : lba % 2 ^ 28 < d.capacity
  swap
  · rw [if_neg haddr, if_neg fun h => haddr h.1, writeWords_ignored buf a (Or.inr (pass_mode _ _))]
    exact ⟨rfl, rfl, rfl, rfl⟩
  rw [if_pos haddr]
  by_cases htime : d.latency d.issued ≤ t
  · rw [if_pos ⟨haddr, htime⟩, writeWords_all buf a (pass_mode _ _)
      ((pass_busy _ _).trans (Nat.sub_eq_zero_of_le htime))]
    exact ⟨rfl, rfl, rfl, rfl⟩
  · have hlate := Nat.sub_ne_zero_of_lt (Nat.lt_of_not_le htime)
    rw [if_neg fun h => htime h.2, writeWords_ignored buf a (Or.inl fun hzero =>
      hlate ((pass_busy _ _).symm.trans hzero))]
    exact ⟨rfl, rfl, rfl, rfl⟩

end Write

/-- The buffer with the first `n` words of a sector at `a`. -/
def putSector (buf : Bytes) (a : Nat) (s : Sector) (n : Nat) : Bytes := fun x =>
  if h : a ≤ x ∧ x < a + 2 * n ∧ x - a < 512 then s ⟨x - a, h.2.2⟩ else buf x

section Read

variable {d : Ata} {lba : Nat} (buf : Bytes) (a : Nat)

theorem putSector_succ (s : Sector) (hn : n < 256) :
    update (update (putSector buf a s n) (a + n * 2)
      (UInt8.ofNat (word s n &&& 0xFF))) (a + n * 2 + 1) (UInt8.ofNat (word s n >>> 8)) =
      putSector buf a s (n + 1) := by
  have hword : word s n = (s ⟨2 * n + 1, by omega⟩).toNat * 256 +
      (s ⟨2 * n, by omega⟩).toNat := dif_pos _
  have hlo := (s ⟨2 * n, by omega⟩).toNat_lt
  have hhi := (s ⟨2 * n + 1, by omega⟩).toNat_lt
  funext x
  by_cases hx1 : x = a + n * 2 + 1
  · subst hx1
    rw [update_self, putSector, dif_pos ⟨by omega, by omega, by omega⟩]
    have hat : (⟨a + n * 2 + 1 - a, by omega⟩ : Fin 512) = ⟨2 * n + 1, by omega⟩ :=
      Fin.ext (by dsimp only; omega)
    rw [hat]
    apply UInt8.toNat.inj
    rw [UInt8.toNat_ofNat']
    omega
  · rw [update_of_ne hx1]
    by_cases hx0 : x = a + n * 2
    · subst hx0
      rw [update_self, putSector, dif_pos ⟨by omega, by omega, by omega⟩]
      have hat : (⟨a + n * 2 - a, by omega⟩ : Fin 512) = ⟨2 * n, by omega⟩ :=
        Fin.ext (by dsimp only; omega)
      rw [hat]
      apply UInt8.toNat.inj
      rw [UInt8.toNat_ofNat', and_ff]
      omega
    · rw [update_of_ne hx0]
      unfold putSector
      by_cases hin : a ≤ x ∧ x < a + 2 * n ∧ x - a < 512
      · rw [dif_pos hin, dif_pos ⟨hin.1, by omega, hin.2.2⟩]
      · rw [dif_neg hin, dif_neg fun h => hin ⟨h.1, by omega, h.2.2⟩]

theorem readWords_part (hmode : d.mode = .reading lba 0) (hbusy : d.busy = 0) (hn : n < 256) :
    readWords buf a d n =
      (putSector buf a (d.sectors lba) n, { d with mode := .reading lba n }) := by
  induction n with
  | zero =>
    have hnone : putSector buf a (d.sectors lba) 0 = buf := by
      funext x
      rw [putSector, dif_neg fun h => by omega]
    rw [readWords, hnone, ← hmode]
  | succ n ih =>
    rw [readWords, ih (by omega)]
    rw [@inw_reading { d with mode := _ } lba n rfl hbusy]
    rw [putSector_succ buf a _ (by omega), if_neg (by omega)]

theorem readWords_all (hmode : d.mode = .reading lba 0) (hbusy : d.busy = 0) :
    readWords buf a d 256 = (putSector buf a (d.sectors lba) 256, { d with mode := .idle }) := by
  rw [readWords, readWords_part buf a hmode hbusy (by decide : 255 < 256)]
  rw [@inw_reading { d with mode := _ } lba 255 rfl hbusy]
  rw [putSector_succ buf a _ (by decide), if_pos rfl]

-- the drive has the data ready when the driver last looks, or the kernel panics
theorem ataPoll_eq (d : Ata) :
    ataPoll d = if d.busy ≤ 100004 ∧ ready d.mode &&& 0x01 = 0 ∧ ready d.mode &&& 0x08 ≠ 0
      then some (d.pass 100004) else none := by
  unfold ataPoll
  dsimp only
  rw [waitBusy_eq, pause_eq, pass_pass, status_snd, pass_pass]
  by_cases hbusy : d.busy ≤ 100004
  · have hready : (d.pass (4 + 100000)).busy = 0 := by
      rw [pass_busy]
      omega
    rw [status_ready hready, pass_mode, pass_of_le (by omega : d.busy ≤ 4 + 100000 + 1) hbusy]
    by_cases herr : ready d.mode &&& 0x01 = 0
    · by_cases hdrq : ready d.mode &&& 0x08 = 0
      · rw [if_neg (not_not.mpr herr), if_pos hdrq, if_neg fun h => h.2.2 hdrq]
      · rw [if_neg (not_not.mpr herr), if_neg hdrq, if_pos ⟨hbusy, herr, hdrq⟩]
    · rw [if_pos herr, if_neg fun h => herr h.2.1]
  · have hlate : (d.pass (4 + 100000)).busy ≠ 0 := by
      rw [pass_busy]
      omega
    rw [status_busy hlate, if_neg (by decide), if_pos (by decide), if_neg fun h => hbusy h.1]

theorem secread_some (d : Ata) (haddr : lba % 2 ^ 28 < d.capacity)
    (htime : d.latency d.issued ≤ 100004) :
    ∃ d', secread d lba buf a = some (putSector buf a (d.sectors (lba % 2 ^ 28)) 256, d') ∧
      d'.capacity = d.capacity ∧ d'.latency = d.latency ∧ d'.issued = d.issued + 1 ∧
      d'.sectors = d.sectors := by
  have hsel := selected_read d lba
  obtain ⟨regs, hcmd⟩ := hsel.command 0x20
  rw [hsel.afterCommand_read, if_pos haddr] at hcmd
  unfold secread
  dsimp only
  rw [ataPoll_eq, hcmd]
  generalize 100004 = t at htime ⊢
  rw [if_pos ⟨htime, (by decide : 0x58 &&& 0x01 = 0), (by decide : 0x58 &&& 0x08 ≠ 0)⟩,
    Option.map_some,
    readWords_all buf a (pass_mode _ _) ((pass_busy _ _).trans (Nat.sub_eq_zero_of_le htime))]
  exact ⟨_, rfl, rfl, rfl, rfl, rfl⟩

theorem secread_none (d : Ata) (h : ¬ (lba % 2 ^ 28 < d.capacity ∧ d.latency d.issued ≤ 100004)) :
    secread d lba buf a = none := by
  have hsel := selected_read d lba
  obtain ⟨regs, hcmd⟩ := hsel.command 0x20
  rw [hsel.afterCommand_read] at hcmd
  unfold secread
  dsimp only
  rw [ataPoll_eq, hcmd]
  rw [if_neg, Option.map_none]
  rintro ⟨htime, herr, -⟩
  apply h
  refine ⟨?_, htime⟩
  by_contra haddr
  rw [if_neg haddr] at herr
  exact absurd herr (by decide : 0x51 &&& 0x01 ≠ 0)

end Read

end Block
