import RandomOs.Block.Ata
import RandomOs.Kern.Errno

/-!
# AHCI controllers (`ahci.c`)

`fis_reg_h2d_t` has one byte more in front of the sector number than the FIS it stands for, so that
the device takes every byte of the number for the one above it.  The error bit that is tested is not
that of the status, and a wait that runs out is taken for the end of the command.
-/

namespace Block

open Kern Function

/-! ## Model -/

/-- The sector number in a register FIS. -/
def fisLba (fis : List Nat) : Nat :=
  fis.getD 4 0 + fis.getD 5 0 * 2 ^ 8 + fis.getD 6 0 * 2 ^ 16 + fis.getD 8 0 * 2 ^ 24 +
    fis.getD 9 0 * 2 ^ 32 + fis.getD 10 0 * 2 ^ 40

structure AhciDev where
  sectors : Nat → Sector
  dmabuf : Sector

def AhciDev.transfer (d : AhciDev) (fis : List Nat) : AhciDev :=
  if fis.getD 2 0 = 0x35 then { d with sectors := update d.sectors (fisLba fis) d.dmabuf }
  else { d with dmabuf := d.sectors (fisLba fis) }

/-- What the controller does with a command. -/
structure Answer where
  -- how many reads of its registers find it at work; `none` if it never ends
  delay : Option Nat
  tfd : Nat
  -- what is left by a command that fails or does not end
  left : AhciDev

namespace Answer

/-- Bit 0 of `ci` at the read number `i`. -/
def ci (r : Answer) (i : Nat) : Bool :=
  match r.delay with
  | some n => i < n
  | none => true

-- the number of reads until the loop ends
def poll (r : Answer) : Nat → Nat → Nat
  | 0, i => i
  | k + 1, i => if r.ci i then r.poll k (i + 1) else i

end Answer

variable (d : AhciDev) (r : Answer) (lba : Nat)

end Block
