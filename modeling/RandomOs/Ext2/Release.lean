import RandomOs.Ext2.Dense

/-!
# Freeing one block of a file

`ino_freeblk` gives back the block of an index and every table that led to nothing else.  It stops
at the first table with another entry, or at the inode, and clears one pointer there.
-/

namespace Ext2

open Lib Bytes Kern List Vol Geo
open Op (Post)

/-! ## What is to be given back -/

section Cut

variable {v v' : Vol} {n e : Nat} {path τ : List Nat} {c : Node}

-- the places of one inode
def Own (n : Nat) (r : Node) (es : List Nat) : Prop := r = .ino n ∧ Fits es

variable {es : List Nat}

theorem Own.of_append {r : Node} {es fs : List Nat} (h : Own n r (es ++ fs)) : Own n r es :=
  ⟨h.1, h.2.of_append⟩

theorem Vol.Tree.unique (ht : v.Tree n) : Unique v.next (Own n) := by
  rintro _ es _ fs c ⟨rfl, hes⟩ ⟨rfl, hfs⟩ h h'
  refine ⟨rfl, ?_⟩
  cases c with
  | blk b => exact ht.distinct es fs b hes hfs h h'
  | ino m => rw [(ref_eq_ino h).1, (ref_eq_ino h').1]

variable (hcut : v.Cut v' n path τ e c) (ht : v.Tree n) (hfull : Full path)
include hcut ht hfull

theorem Vol.Cut.rewires : Rewires v.next v'.next (Own n) (.ino n) τ e c := by
  have hfits : Fits (τ ++ [e]) := hfull.fits.of_prefix hcut.on_path
  refine ⟨⟨rfl, hfits⟩, hcut.node, ?_⟩
  rintro _ es x d ⟨rfl, hes⟩ hd hne hnot
  apply hcut.rest d x hne
  rintro ⟨ρ, hpre, hρ, href⟩
  obtain ⟨-, rfl⟩ := ht.unique _ _ _ _ d ⟨rfl, hes.of_append⟩ ⟨rfl, hρ⟩ hd href
  exact hnot ⟨rfl, hpre⟩

theorem Vol.Cut.ref_below (hes : τ ++ [e] <+: es) : v'.ref n es = none := by
  obtain ⟨σ, rfl⟩ := hes
  rw [append_assoc, singleton_append]
  exact (hcut.rewires ht hfull).walk_unlink (fun _ _ _ h => h.of_append) ht.unique hcut.entry

theorem Vol.Cut.ref_of_not_below (hfits : Fits es) (hes : ¬ τ ++ [e] <+: es) :
    v'.ref n es = v.ref n es :=
  (hcut.rewires ht hfull).walk_of_not_below (fun _ _ _ h => h.of_append) ht.unique ⟨rfl, hfits⟩
    fun h => hes h.2

theorem Vol.Cut.tree : v'.Tree n := by
  have hrefs : ∀ es c, Fits es → v'.ref n es = some c → v.ref n es = some c := by
    intro es c hes h
    by_cases hbelow : τ ++ [e] <+: es
    · rw [hcut.ref_below ht hfull hbelow] at h
      cases h
    · rwa [hcut.ref_of_not_below ht hfull hes hbelow] at h
  refine ⟨fun es b hes h => ?_, fun es b hes hnot h => ?_, fun es fs b hes hfs h h' => ?_⟩
  · rw [hcut.geo]
    exact ht.below es b hes (hrefs es _ hes h)
  · rw [hcut.geo]
    exact ht.tables es b hes hnot (hrefs es _ hes h)
  · exact ht.distinct es fs b hes hfs (hrefs es _ hes h) (hrefs fs _ hfs h')

end Cut

/-! ## Exactness -/

section OneBlock

variable {v : Vol} {n b : Nat} (hb : b ≠ 0) (hslot : iBlock (v.inode n) 0 = b)
  (hrest : ∀ k < 15, k ≠ 0 → iBlock (v.inode n) k = 0)

end OneBlock

variable {fs : Ext2fs} {b : Nat}

/-- The first byte of the bitmap of group 0 is zero. -/
def Wiped (fs : Ext2fs) : Prop := fs.geo = wideFs.geo ∧ fs.disk (130 * 4096) = 0

theorem Wiped.putBlock (h : Wiped fs) (hb : b * 8 % 2 ^ 32 ≠ 130 * 8)
    (hdvd : b * 8 % 2 ^ 32 % 8 = 0) (buf : Bytes) : Wiped (fs.putBlock b buf) := by
  refine ⟨h.1, ?_⟩
  rw [putBlock_disk_of_not_spans, h.2]
  simp only [Spans, h.1, wide_geo]
  omega

end Ext2
