import Mathlib.Tactic.Ring
import Mathlib.Data.Nat.Basic
import Mathlib.Tactic.Common

/-! The super block of a file system: its geometry and the macros over it. -/
namespace FreeBsd.Ufs

def NDADDR : Nat := 12
def NIADDR : Nat := 3
def DEV_BSHIFT : Nat := 9

/-- The part of `struct fs` that does not change. Blocks are those `mountfs` takes: no smaller than
the super block, no larger than `MAXBSIZE`, and of at most eight fragments. A group is `nbpg`
blocks, the last fragments of the map counting as taken where the group is shorter. -/
structure Fs where
  bshift : Nat
  fshift : Nat
  size : Nat
  ncg : Nat
  nbpg : Nat
  nspf : Nat
  spc : Nat
  nsect : Nat
  npsect : Nat
  trackskew : Nat
  interleave : Nat
  nrpos : Nat
  cpc : Nat
  postbl : Nat → Nat → Int
  rotbl : Nat → Nat
  bshift_le : bshift ≤ 13
  le_bshift : 11 ≤ bshift
  le_fshift : DEV_BSHIFT ≤ fshift
  fshift_le : fshift ≤ bshift
  frag_le : bshift ≤ fshift + 3
  ncg_pos : 0 < ncg
  nbpg_pos : 0 < nbpg

namespace Fs

variable (fs : Fs)

def bsize : Nat := 2 ^ fs.bshift
def fsize : Nat := 2 ^ fs.fshift
def fragshift : Nat := fs.bshift - fs.fshift
def frag : Nat := 2 ^ fs.fragshift
def nindir : Nat := fs.bsize / 4

def fsbtodb (b : Nat) : Nat := b <<< (fs.fshift - DEV_BSHIFT)
def blkoff (loc : Nat) : Nat := loc % fs.bsize
def lblkno (loc : Nat) : Nat := loc >>> fs.bshift
def numfrags (loc : Nat) : Nat := loc >>> fs.fshift
def fragroundup (size : Nat) : Nat := (size + fs.fsize - 1) / fs.fsize * fs.fsize
def fragnum (fsb : Nat) : Nat := fsb % fs.frag
def blknum (fsb : Nat) : Nat := fsb - fsb % fs.frag

end Fs

def btodb (bytes : Nat) : Nat := bytes >>> DEV_BSHIFT

end FreeBsd.Ufs
