import Mathlib.Data.Nat.Bitwise
import Mathlib.Tactic

/-!
# USB transfers (`uhci.c`)

A bulk transfer is a chain of transfer descriptors of up to 64 bytes each.  The controller sends
bit 19 of the token of a descriptor as the data toggle of its packet; the driver keeps a toggle of
its own, which it puts into bit 20.
-/

namespace Usb

open List

/-! ## Data toggles -/

def UHCI_PID_IN : Nat := 0x69
def UHCI_PID_OUT : Nat := 0xE1

-- what the tokens of a transfer have in common
def tokenBase (devAddr ep : UInt8) (isIn : Bool) : Nat :=
  (ep &&& 0x0F).toNat <<< 15 ||| devAddr.toNat <<< 8 ||| if isIn then UHCI_PID_IN else UHCI_PID_OUT

/-- The tokens that `uhci_bulk_transfer` writes for `brem` bytes, in at most `fuel` rounds. -/
def bulkTokens (base : Nat) : Nat → Nat → Nat → List Nat
  | 0, _, _ => []
  | fuel + 1, brem, tgl =>
    if brem = 0 then []
    else
      let pksz := if brem > 64 then 64 else brem
      ((pksz - 1) <<< 21 ||| tgl <<< 20 ||| base) :: bulkTokens base fuel (brem - pksz) (tgl ^^^ 1)

/-- One bit of the tokens of the packets that calls with the given lengths issue on an endpoint. -/
def toggles (bit : Nat) (devAddr ep : UInt8) (isIn : Bool) (lens : List Nat) : List Bool :=
  (lens.flatMap fun len => bulkTokens (tokenBase devAddr ep isIn) len len 1).map (·.testBit bit)

/-- 0, 1, 0, 1, … -/
def Alternates (l : List Bool) : Prop := ∀ k < l.length, l[k]? = some (decide (k % 2 = 1))

instance (l : List Bool) : Decidable (Alternates l) := inferInstanceAs (Decidable (∀ _, _))

def packets (lens : List Nat) : Nat := (lens.map fun len => (len + 63) / 64).sum

variable {base fuel brem tgl : Nat}

theorem length_bulkTokens (h : brem ≤ fuel) :
    (bulkTokens base fuel brem tgl).length = (brem + 63) / 64 := by
  induction fuel generalizing brem tgl with
  | zero =>
    rw [Nat.le_zero.mp h]
    rfl
  | succ fuel ih =>
    rw [bulkTokens]
    split
    · rename_i hzero
      rw [hzero]
      rfl
    · rw [length_cons, ih (by split <;> omega)]
      split <;> omega

theorem tokenBase_lt (devAddr ep : UInt8) (isIn : Bool) : tokenBase devAddr ep isIn < 2 ^ 19 := by
  have hep : (ep &&& 0x0F).toNat <<< 15 < 2 ^ 19 := by
    have : (ep &&& 0x0F).toNat ≤ 15 := by
      rw [UInt8.toNat_and]
      exact Nat.and_le_right
    omega
  have haddr : devAddr.toNat <<< 8 < 2 ^ 19 := by
    have := devAddr.toNat_lt
    omega
  exact Nat.or_lt_two_pow (Nat.or_lt_two_pow hep haddr) (by cases isIn <;> decide)

-- bit 19 is in none of the parts of a token
theorem bulkTokens_bit (hbase : base < 2 ^ 19) {t : Nat} (ht : t ∈ bulkTokens base fuel brem tgl) :
    t.testBit 19 = false := by
  induction fuel generalizing brem tgl with
  | zero => cases ht
  | succ fuel ih =>
    rw [bulkTokens] at ht
    split at ht
    · cases ht
    rcases mem_cons.mp ht with rfl | ht
    · simp [Nat.testBit_or, Nat.testBit_shiftLeft, Nat.testBit_lt_two_pow hbase]
    · exact ih ht

-- each call starts over with 1
theorem toggles_head {devAddr ep : UInt8} {isIn : Bool} {lens : List Nat} (h : packets lens ≠ 0) :
    (toggles 20 devAddr ep isIn lens)[0]? = some true := by
  induction lens with
  | nil => exact absurd rfl h
  | cons len lens ih =>
    cases len with
    | zero => exact ih (by simpa [packets] using h)
    | succ n =>
      simp [toggles, bulkTokens, Nat.testBit_or]
      exact Or.inl (by decide)

/-- The toggles alternate only as long as they cannot do otherwise. -/
theorem toggles_alternate_iff (devAddr ep : UInt8) (isIn : Bool) (lens : List Nat) :
    (Alternates (toggles 19 devAddr ep isIn lens) ↔ packets lens ≤ 1) ∧
      (Alternates (toggles 20 devAddr ep isIn lens) ↔ packets lens = 0) := by
  have hlen : ∀ bit, (toggles bit devAddr ep isIn lens).length = packets lens := by
    intro bit
    rw [toggles, length_map, length_flatMap, packets]
    simp only [length_bulkTokens (Nat.le_refl _)]
  have hclear : ∀ (k : Nat) b, (toggles 19 devAddr ep isIn lens)[k]? = some b → b = false := by
    intro k b hk
    obtain ⟨t, ht, rfl⟩ := mem_map.mp (mem_of_getElem? hk)
    obtain ⟨len, -, ht⟩ := mem_flatMap.mp ht
    exact bulkTokens_bit (tokenBase_lt devAddr ep isIn) ht
  refine ⟨⟨fun h => ?_, fun h k hk => ?_⟩, ⟨fun h => ?_, fun h k hk => ?_⟩⟩
  · by_contra hmany
    cases hclear 1 _ (h 1 (by rw [hlen]; omega))
  · obtain ⟨b, hb⟩ : ∃ b, (toggles 19 devAddr ep isIn lens)[k]? = some b :=
      ⟨_, getElem?_eq_getElem hk⟩
    rw [hlen] at hk
    rw [hb, hclear k b hb, show k = 0 by omega]
    rfl
  · by_contra hsome
    have hfirst := h 0 (by rw [hlen]; omega)
    rw [toggles_head hsome] at hfirst
    cases hfirst
  · rw [hlen, h] at hk
    cases hk

/-- The commands of two mass-storage transfers: two packets with equal toggles. -/
theorem toggles_repeat : ¬ Alternates (toggles 19 1 2 false [31, 31]) ∧
    ¬ Alternates (toggles 20 1 2 false [31, 31]) := by decide

end Usb
