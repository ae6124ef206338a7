import FreeBsd.Ufs.Fs
import Mathlib.Logic.Function.Basic

/-! Block pointers of a file: `bmap` and `balloc` of `ufs_bmap.c`, `itrunc` and `indirtrunc` of
`ufs_inode.c`. Reads and writes of blocks succeed; quotas, times and the data of files are left out.
-/
namespace FreeBsd.Ufs

inductive Stop where
  | ENOSPC
  | EFBIG
  | panic (text : String)
  deriving DecidableEq, Repr

/-- The block pointers of the dinode and the fields beside them that these functions read. -/
structure Inode where
  isLink : Bool
  size : Nat
  spare : Nat
  db : Nat → Nat
  ib : Nat → Nat
  blocks : Int

def MAXFASTLINK : Nat := (NDADDR + NIADDR) * 4 - 1

def Inode.FASTLINK (ip : Inode) : Bool :=
  ip.isLink && decide (ip.size ≤ MAXFASTLINK) && decide (ip.size = ip.spare)

def Fs.blksize (fs : Fs) (ip : Inode) (lbn : Nat) : Nat :=
  if lbn ≥ NDADDR ∨ ip.size ≥ (lbn + 1) <<< fs.bshift then fs.bsize
  else fs.fragroundup (fs.blkoff ip.size)

/-- The device: pointers in the indirect blocks, the blocks the allocator will answer with, and the
calls of `alloc` and `blkfree` that were made, with their sizes. -/
structure Device where
  disk : Nat → Nat → Nat
  fresh : List Nat
  allocated : List (Nat × Nat)
  freed : List (Nat × Nat)

def Device.point (dev : Device) (bn i nb : Nat) : Device :=
  { dev with disk := Function.update dev.disk bn (Function.update (dev.disk bn) i nb) }

def Device.clrbuf (dev : Device) (bn : Nat) : Device :=
  { dev with disk := Function.update dev.disk bn (fun _ => 0) }

/-- The call is recorded; the free map of the group is not part of the device. -/
def blkfree (dev : Device) (bno size : Nat) : Device :=
  { dev with freed := dev.freed ++ [(bno, size)] }

/-- `alloc`: the search through the groups is left to the list of answers. -/
def alloc (dev : Device) (ip : Inode) (size : Nat) : Except Stop (Device × Inode × Nat) :=
  match dev.fresh with
  | [] => .error .ENOSPC
  | bno :: rest =>
    .ok ({ dev with fresh := rest, allocated := dev.allocated ++ [(bno, size)] },
      { ip with blocks := ip.blocks + btodb size }, bno)

section Bmap

/-- The levels of indirection: `j` and what is left of `bn`, with `sh` as an `int`. -/
def indirection (fs : Fs) : Nat → Nat → Nat → Option (Nat × Nat × Nat)
  | 0, _, _ => none
  | j + 1, sh, bn =>
    let sh := sh * fs.nindir % 2 ^ 32
    if bn < sh then some (j + 1, sh, bn) else indirection fs j sh (bn - sh)

def fetch (fs : Fs) (disk : Nat → Nat → Nat) : Nat → Nat → Nat → Nat → Option Nat
  | 0, _, _, nb => some nb
  | n + 1, sh, bn, nb =>
    let sh := sh / fs.nindir
    let nb := disk nb (bn / sh % fs.nindir)
    if nb = 0 then none else fetch fs disk n sh bn nb

/-- The sector where block `bn` of the file lies; none for the address -1. -/
def bmap (fs : Fs) (dev : Device) (ip : Inode) (bn : Int) : Except Stop (Option Nat) :=
  if bn < 0 then .error .EFBIG
  else
    let bn := bn.toNat
    if bn < NDADDR then
      .ok (if ip.db bn = 0 then none else some (fs.fsbtodb (ip.db bn)))
    else
      match indirection fs NIADDR 1 (bn - NDADDR) with
      | none => .error .EFBIG
      | some (j, sh, bn) =>
        let nb := ip.ib (NIADDR - j)
        if nb = 0 then .ok none
        else .ok ((fetch fs dev.disk (NIADDR + 1 - j) sh bn nb).map fs.fsbtodb)

end Bmap

section Balloc

/-- The loop of `balloc` through the indirect blocks, the last of which points at the data. -/
def through (fs : Fs) : Nat → Device → Inode → Nat → Nat → Nat → Except Stop (Device × Inode)
  | 0, dev, ip, _, _, _ => .ok (dev, ip)
  | 1, dev, ip, sh, bn, bp => do
    let i := bn / (sh / fs.nindir) % fs.nindir
    if dev.disk bp i ≠ 0 then return (dev, ip)
    let (dev, ip, newb) ← alloc dev ip fs.bsize
    return (dev.point bp i newb, ip)
  | n + 2, dev, ip, sh, bn, bp => do
    let sh := sh / fs.nindir
    let i := bn / sh % fs.nindir
    if dev.disk bp i ≠ 0 then through fs (n + 1) dev ip sh bn (dev.disk bp i)
    else
      let (dev, ip, newb) ← alloc dev ip fs.bsize
      through fs (n + 1) ((dev.clrbuf newb).point bp i newb) ip sh bn newb

variable (realloccg : Device → Inode → Nat → Nat → Nat → Except Stop (Device × Inode))

/-- Moving or extending a fragment is left to `realloccg`, given the block, the old and the new
size. -/
def balloc (fs : Fs) (dev : Device) (ip : Inode) (bn size : Nat) : Except Stop (Device × Inode) :=
  do
  let nb := fs.lblkno ip.size
  let osize := fs.blksize ip nb
  let (dev, ip) ←
    if nb < NDADDR ∧ nb < bn ∧ osize < fs.bsize ∧ osize > 0 then do
      let (dev, ip) ← realloccg dev ip nb osize fs.bsize
      pure (dev, { ip with size := (nb + 1) * fs.bsize })
    else pure (dev, ip)
  if bn < NDADDR then
    if ip.db bn ≠ 0 ∧ ip.size ≥ (bn + 1) * fs.bsize then return (dev, ip)
    if ip.db bn ≠ 0 then
      let osize := fs.fragroundup (fs.blkoff ip.size)
      let nsize := fs.fragroundup size
      if nsize ≤ osize then return (dev, ip)
      realloccg dev ip bn osize nsize
    else
      let nsize := if ip.size < (bn + 1) * fs.bsize then fs.fragroundup size else fs.bsize
      let (dev, ip, newb) ← alloc dev ip nsize
      return (dev, { ip with db := Function.update ip.db bn newb })
  else
    match indirection fs NIADDR 1 (bn - NDADDR) with
    | none => throw .EFBIG
    | some (j, sh, bn) =>
      if ip.ib (NIADDR - j) ≠ 0 then
        through fs (NIADDR + 1 - j) dev ip sh bn (ip.ib (NIADDR - j))
      else
        let (dev, ip, newb) ← alloc dev ip fs.bsize
        through fs (NIADDR + 1 - j) (dev.clrbuf newb)
          { ip with ib := Function.update ip.ib (NIADDR - j) newb } sh bn newb

end Balloc

section Itrunc

/-- The loop of `indirtrunc` over the entries from `low + n - 1` down to `low`. -/
def release (fs : Fs) (lower : Option (Device → Nat → Int → Device × Nat)) (bap : Nat → Nat)
    (low : Nat) : Nat → Device → Device × Nat
  | 0, dev => (dev, 0)
  | n + 1, dev =>
    let nb := bap (low + n)
    if nb = 0 then release fs lower bap low n dev
    else
      let (dev, blkcount) :=
        match lower with
        | none => (dev, 0)
        | some call => call dev nb (-1)
      let (dev, count) := release fs lower bap low n (blkfree dev nb fs.bsize)
      (dev, blkcount + btodb fs.bsize + count)

/-- The entries of an indirect block with those from `low` on cleared. -/
def zeroed (fs : Fs) (bap : Nat → Nat) (low i : Nat) : Nat :=
  if low ≤ i ∧ i < fs.nindir then 0 else bap i

/-- The body of `indirtrunc`, with its recursive call where the level is above `SINGLE`. -/
def indirtruncAt (fs : Fs) (level : Nat) (lower : Option (Device → Nat → Int → Device × Nat))
    (dev : Device) (bn : Nat) (lastbn : Int) : Device × Nat :=
  let factor := fs.nindir ^ level
  let last := if lastbn > 0 then lastbn / factor else lastbn
  let low := (last + 1).toNat
  let bap := dev.disk bn
  let dev := { dev with disk := Function.update dev.disk bn (zeroed fs bap low) }
  let (dev, blocksreleased) := release fs lower bap low (fs.nindir - low) dev
  match lower with
  | none => (dev, blocksreleased)
  | some call =>
    -- The loop leaves `i` at the last entry that is kept.
    let nb := bap (min (fs.nindir - 1) last.toNat)
    if lastbn ≥ 0 ∧ nb ≠ 0 then
      let (dev, blkcount) := call dev nb (lastbn % factor)
      (dev, blocksreleased + blkcount)
    else (dev, blocksreleased)

/-- The new device and the sectors released; level 0 is `SINGLE`. -/
def indirtrunc (fs : Fs) : Nat → Device → Nat → Int → Device × Nat
  | 0 => indirtruncAt fs 0 none
  | level + 1 => indirtruncAt fs (level + 1) (some (indirtrunc fs level))

def lastblock (fs : Fs) (length : Nat) : Int := fs.lblkno ((length + fs.bsize - 1) % 2 ^ 32) - 1

/-- `lastiblock` before it is made -1 where it is negative. -/
def lastindir (fs : Fs) (length : Nat) : Nat → Int
  | 0 => lastblock fs length - NDADDR
  | level + 1 => lastindir fs length level - (fs.nindir ^ (level + 1) : Nat)

def lastiblock (fs : Fs) (length level : Nat) : Int :=
  if lastindir fs length level < 0 then -1 else lastindir fs length level

/-- The body of the loop of `itrunc` over the indirect blocks. -/
def truncLevel (fs : Fs) (last : Int) (level : Nat) (dev : Device) (ip : Inode) :
    Device × Inode × Nat :=
  let bn := ip.ib level
  if bn = 0 then (dev, ip, 0)
  else
    let (dev, count) := indirtrunc fs level dev bn last
    if last < 0 then
      (blkfree dev bn fs.bsize, { ip with ib := Function.update ip.ib level 0 },
        count + btodb fs.bsize)
    else (dev, ip, count)

/-- The loop over the levels below `n`; it tells whether the code goes on to `done`. -/
def truncLevels (fs : Fs) (last : Nat → Int) : Nat → Device → Inode → Device × Inode × Nat × Bool
  | 0, dev, ip => (dev, ip, 0, false)
  | level + 1, dev, ip =>
    let (dev, ip, count) := truncLevel fs (last level) level dev ip
    if last level ≥ 0 then (dev, ip, count, true)
    else
      let (dev, ip, more, done) := truncLevels fs last level dev ip
      (dev, ip, count + more, done)

/-- The loop of `itrunc` over the direct blocks below `n` that lie after `last`. -/
def truncDirect (fs : Fs) (last : Int) : Nat → Device → Inode → Device × Inode × Nat
  | 0, dev, ip => (dev, ip, 0)
  | i + 1, dev, ip =>
    if (i : Int) > last then
      if ip.db i = 0 then truncDirect fs last i dev ip
      else
        let bsize := fs.blksize ip i
        let (dev, ip, count) := truncDirect fs last i (blkfree dev (ip.db i) bsize)
          { ip with db := Function.update ip.db i 0 }
        (dev, ip, btodb bsize + count)
    else (dev, ip, 0)

def truncTail (fs : Fs) (last : Int) (length : Nat) (dev : Device) (ip : Inode) :
    Except Stop (Device × Inode × Nat) :=
  if last < 0 ∨ ip.db last.toNat = 0 then .ok (dev, ip, 0)
  else
    let oldspace := fs.blksize ip last.toNat
    let ip := { ip with size := length }
    let newspace := fs.blksize ip last.toNat
    if newspace = 0 then .error (.panic "itrunc: newspace")
    else if oldspace > newspace then
      .ok (blkfree dev (ip.db last.toNat + fs.numfrags newspace) (oldspace - newspace), ip,
        btodb (oldspace - newspace))
    else .ok (dev, ip, 0)

/-- The blocks are freed, indirect ones first; with the sectors released. -/
def truncBlocks (fs : Fs) (length : Nat) (dev : Device) (ip : Inode) :
    Except Stop (Device × Inode × Nat) := do
  let last := lastblock fs length
  let (dev, ip, released, done) := truncLevels fs (lastiblock fs length) NIADDR dev ip
  if done then return (dev, ip, released)
  let (dev, ip, direct) := truncDirect fs last NDADDR dev ip
  let (dev, ip, tail) ← truncTail fs last length dev ip
  return (dev, ip, released + direct + tail)

variable (realloccg : Device → Inode → Nat → Nat → Nat → Except Stop (Device × Inode))

/-- The size of the file becomes `length`; a last block that is kept in part is brought in. -/
def settle (fs : Fs) (dev : Device) (oip : Inode) (length : Nat) : Except Stop (Device × Inode) :=
  do
  let offset := fs.blkoff length
  if offset = 0 then return (dev, { oip with size := length })
  let (dev, oip) ← balloc realloccg fs dev oip (fs.lblkno length) offset
  return (dev, { oip with size := length })

def itrunc (fs : Fs) (dev : Device) (oip : Inode) (length : Nat) : Except Stop (Device × Inode) :=
  do
  if oip.FASTLINK ∧ length ≠ 0 then throw (.panic "itrunc fastlink to non-zero")
  let oip := if oip.FASTLINK then
    { oip with db := fun _ => 0, ib := fun _ => 0, size := 0, spare := 0 } else oip
  if oip.size ≤ length then return (dev, oip)
  let osize := oip.size
  let last := lastblock fs length
  let (dev, oip) ← settle realloccg fs dev oip length
  let tip := { oip with size := osize }
  let oip := { oip with
    ib := fun level => if level < NIADDR ∧ lastiblock fs length level < 0 then 0 else oip.ib level
    db := fun i => if i < NDADDR ∧ (i : Int) > last then 0 else oip.db i }
  let (dev, ip, released) ← truncBlocks fs length dev tip
  if ∃ level < NIADDR, ip.ib level ≠ oip.ib level then throw (.panic "itrunc1")
  if ∃ i < NDADDR, ip.db i ≠ oip.db i then throw (.panic "itrunc2")
  let blocks : Int := oip.blocks - (released : Nat)
  return (dev, { oip with blocks := if blocks < 0 then 0 else blocks })

end Itrunc

end FreeBsd.Ufs
