import FreeBsd.Db.Db
import FreeBsd.Db.HashPage
import FreeBsd.Lib.Packed

/-! The hash access method in memory: pages, the buffers that hold them, and `put`, `get` and
`delete`. The table is new and no buffer is ever taken for another page, so the flags of buffers
other than `BUF_BUCKET` and the file are left out, and so are pairs too big for a page. -/
namespace FreeBsd.Db

open FreeBsd.Lib

section Page

def OVFLPAGE : Nat := 0
def REAL_KEY : Nat := 4
def OVFLSIZE : Nat := 4
def DEF_FFACTOR : Nat := 65536
def MIN_FFACTOR : Nat := 4
def DEF_SEGSIZE : Nat := 256
def DEF_DIRSIZE : Nat := 256

/-- What an `u_short` keeps of a sum and of a difference. -/
def plus (a b : Nat) : Nat := (a + b) % 2 ^ 16
def minus (a b : Nat) : Nat := (a + 2 ^ 16 - b % 2 ^ 16) % 2 ^ 16

/-- A page as `u_short`s and as bytes. The index at its start and the bytes at its end do not meet
on a page that `Holds` pairs. -/
structure HashPage where
  bp : Nat → Nat
  bytes : Nat → UInt8

def HashPage.set (p : HashPage) (i v : Nat) : HashPage := { p with bp := Function.update p.bp i v }

def HashPage.memmove (p : HashPage) (off : Nat) (s : Bytes) :
    HashPage := { p with bytes := store p.bytes off s }

def HashPage.freespace (p : HashPage) : Nat := p.bp (p.bp 0 + 1)

def HashPage.offset (p : HashPage) : Nat := p.bp (p.bp 0 + 2)

def PAIRSIZE (key val : Bytes) : Nat := 2 * 2 + key.length + val.length

def HashPage.pairfits (p : HashPage) (key val : Bytes) : Prop :=
  p.bp 2 ≥ REAL_KEY ∧ PAIRSIZE key val + OVFLSIZE ≤ p.freespace

instance (p : HashPage) (key val : Bytes) : Decidable (p.pairfits key val) :=
  inferInstanceAs (Decidable (_ ∧ _))

def pageInit (bsize : Nat) : HashPage :=
  (((⟨fun _ => 0, fun _ => 0⟩ : HashPage).set 0 0).set 1 (minus bsize (3 * 2))).set 2
    (bsize % 2 ^ 16)

def putpair (p : HashPage) (key val : Bytes) : HashPage :=
  let n := p.bp 0
  let off := minus p.offset key.length
  let p := (p.memmove off key).set (n + 1) off
  let off := minus off val.length
  let p := (p.memmove off val).set (n + 2) off
  let n := n + 2
  ((p.set 0 n).set (n + 1) (minus off ((n + 3) * 2))).set (n + 2) off

/-- The loop of `__delpair` over the entries behind the pair, `fuel` times at most. -/
def delpairLoop (pairlen n : Nat) : Nat → Nat → HashPage → HashPage
  | 0, _, p => p
  | fuel + 1, i, p =>
    if i ≤ n then
      delpairLoop pairlen n fuel (i + 2)
        (if p.bp (i + 1) = OVFLPAGE then (p.set (i - 2) (p.bp i)).set (i - 1) (p.bp (i + 1))
        else (p.set (i - 2) (plus (p.bp i) pairlen)).set (i - 1) (plus (p.bp (i + 1)) pairlen))
    else p

def delpair (bsize : Nat) (p : HashPage) (ndx : Nat) : HashPage :=
  let n := p.bp 0
  let newoff := if ndx ≠ 1 then p.bp (ndx - 1) else bsize % 2 ^ 16
  let pairlen := minus newoff (p.bp (ndx + 1))
  let p := if ndx ≠ n - 1 then
      delpairLoop pairlen n n (ndx + 2)
        { p with bytes := copyTo p.bytes (p.offset + pairlen) p.offset (p.bp (ndx + 1) - p.offset) }
    else p
  let p := p.set n (plus p.offset pairlen)
  (p.set (n - 1) (plus (p.bp (n + 1)) (pairlen + 2 * 2))).set 0 (n - 2)

def squeezeKey (p : HashPage) (key val : Bytes) : HashPage :=
  let n := p.bp 0
  let freeSpace := p.freespace
  let off := p.offset
  let pageno := p.bp (n - 1)
  let off := minus off key.length
  let p := (p.set (n - 1) off).memmove off key
  let off := minus off val.length
  let p := (p.set n off).memmove off val
  let p := ((p.set 0 (n + 2)).set (n + 1) pageno).set (n + 2) OVFLPAGE
  (p.set (n + 3) (minus freeSpace (PAIRSIZE key val))).set (n + 4) off

/-- The part of `__add_ovflpage` that enters the link. -/
def addLink (p : HashPage) (ovflNum : Nat) : HashPage :=
  let ndx := p.bp 0
  let p := p.set (ndx + 4) p.offset
  let p := p.set (ndx + 3) (minus p.freespace OVFLSIZE)
  ((p.set (ndx + 1) ovflNum).set (ndx + 2) OVFLPAGE).set 0 (ndx + 2)

inductive Found where
  | pair (ndx : Nat)
  | next (addr : Nat)
  | big
  | missing
  deriving DecidableEq

/-- The loop of `hash_access` on one page, `fuel` times at most. -/
def HashPage.search (p : HashPage) (key : Bytes) : Nat → Nat → Nat → Found
  | 0, _, _ => .missing
  | fuel + 1, ndx, off =>
    if ndx < p.bp 0 then
      if p.bp (ndx + 1) ≥ REAL_KEY then
        if p.bp ndx + key.length = off ∧ slice p.bytes (p.bp ndx) key.length = key then .pair ndx
        else p.search key fuel (ndx + 2) (p.bp (ndx + 1))
      else if p.bp (ndx + 1) = OVFLPAGE then .next (p.bp ndx) else .big
    else .missing

end Page

section Buffers

structure Buf where
  addr : Nat
  ovfl : Option Nat
  bucket : Bool
  page : HashPage

structure Hashp where
  htab : Htab
  hash : Bytes → Nat
  ffactor : Int
  nkeys : Int
  nsegs : Nat
  dsize : Nat
  /-- Entries of the memory that `dir` points to. -/
  dirEnd : Nat
  dir : Nat → Option Nat
  bufs : Nat → Buf
  /-- Buffers made so far. -/
  made : Nat

def Hashp.bsize (s : Hashp) : Nat := 2 ^ s.htab.bshift

def Hashp.page (s : Hashp) (b : Nat) : HashPage := (s.bufs b).page

def Hashp.setBuf (s : Hashp) (b : Nat) (buf : Buf) :
    Hashp := { s with bufs := Function.update s.bufs b buf }

def Hashp.setPage (s : Hashp) (b : Nat) (p : HashPage) :
    Hashp := s.setBuf b { s.bufs b with page := p }

def Hashp.newbuf (s : Hashp) (addr : Nat) (bucket : Bool) : Hashp :=
  { s.setBuf s.made { addr, ovfl := none, bucket,
                      page := pageInit s.bsize } with made := s.made + 1 }

def Hashp.getBucket (s : Hashp) (bucket : Nat) : Hashp × Nat :=
  match s.dir bucket with
  | some b => (s, b)
  | none => ({ s.newbuf bucket true with dir := Function.update s.dir bucket (some s.made) },
    s.made)

/-- `__get_buf` of the overflow page that follows the one in `prev`. -/
def Hashp.getOvfl (s : Hashp) (addr prev : Nat) : Hashp × Nat :=
  match (s.bufs prev).ovfl.filter fun b => (s.bufs b).addr = addr with
  | some b => (s, b)
  | none =>
    let t := s.newbuf addr false
    (t.setBuf prev { t.bufs prev with ovfl := some s.made }, s.made)

def Hashp.callHash (s : Hashp) (key : Bytes) : Nat :=
  let n := s.hash key
  let bucket := n &&& s.htab.highMask
  if bucket > s.htab.maxBucket then bucket &&& s.htab.lowMask else bucket

def Hashp.addOvflpage (s : Hashp) (b : Nat) : Except Fault (Hashp × Nat) :=
  let s :=
    if s.ffactor = DEF_FFACTOR then
      { s with ffactor := (max ((s.page b).bp 0 >>> 1) MIN_FFACTOR : Nat) }
    else s
  match overflowPage s.htab with
  | none => .error .failure
  | some (htab, ovflNum) =>
    if ovflNum = 0 then .error .failure
    else
      let (s, next) := { s with htab }.getOvfl ovflNum b
      let s := s.setBuf b { s.bufs b with ovfl := some next }
      .ok (s.setPage b (addLink (s.page b) ovflNum), next)

def Hashp.freeOvfl (s : Hashp) (b : Nat) : Hashp :=
  { s with htab := freeOvflpage s.htab (s.bufs b).addr }.setBuf b
    { s.bufs b with addr := 0, ovfl := none, bucket := false }

end Buffers

section Split

structure SplitVars where
  old : HashPage
  new : HashPage
  ndx : Nat
  copyto : Nat
  off : Nat
  moved : Nat

/-- One pass of the loop of `__split_page`, over the pair at `n`. -/
def SplitVars.pass (v : SplitVars) (stays : Bytes → Bool) (n : Nat) : SplitVars :=
  let ino := v.old.bp
  let key := slice v.old.bytes (ino n) (v.off - ino n)
  if stays key then
    let diff := minus v.copyto v.off
    if diff ≠ 0 then
      let copyto := plus (ino (n + 1)) diff
      let old :
        HashPage := { v.old with bytes := copyTo v.old.bytes copyto (ino (n + 1)) (v.off - ino (n + 1)) }
      let old := (old.set v.ndx (minus (copyto + ino n) (ino (n + 1)))).set (v.ndx + 1) copyto
      { v with old, copyto, ndx := v.ndx + 2, off := old.bp (n + 1) }
    else { v with copyto := ino (n + 1), ndx := v.ndx + 2, off := ino (n + 1) }
  else
    let val := slice v.old.bytes (ino (n + 1)) (ino n - ino (n + 1))
    { v with new := putpair v.new key val, moved := v.moved + 2, off := ino (n + 1) }

/-- The loop of `__split_page`, and whether it ends at a link or a big pair. -/
def SplitVars.loop (stays : Bytes → Bool) : Nat → Nat → SplitVars → SplitVars × Bool
  | 0, _, v => (v, false)
  | fuel + 1, n, v =>
    if n < v.old.bp 0 then
      if v.old.bp (n + 1) < REAL_KEY then (v, true) else SplitVars.loop stays fuel (n + 2)
        (v.pass stays n)
    else (v, false)

/-- The entries after the last pair of a page, when `drop` entries go. -/
def HashPage.cleanUp (p : HashPage) (drop copyto : Nat) : HashPage :=
  let n := p.bp 0 - drop
  let p := p.set 0 n
  (p.set (n + 1) (minus copyto (2 * (n + 3)))).set (n + 2) copyto

/-- A pair of an overflow page goes to the last page of its chain, or to one more. -/
def Hashp.append (s : Hashp) (b : Nat) (key val : Bytes) : Except Fault (Hashp × Nat) :=
  if (s.page b).pairfits key val then .ok (s.setPage b (putpair (s.page b) key val), b)
  else do
    let (s, b) ← s.addOvflpage b
    .ok (s.setPage b (putpair (s.page b) key val), b)

/-- The loop of `ugly_split` over the pairs of the page in `bufp`, `fuel` times at most. -/
def Hashp.movePairs (stays : Bytes → Bool) (bufp : Nat) :
    Nat → Hashp → Nat → Nat → Nat → Nat → Except Fault (Hashp × Nat × Nat × Nat)
  | 0, _, _, _, _, _ => .error .astray
  | fuel + 1, s, n, off, old, new =>
    let ino := (s.page bufp).bp
    if n < ino 0 ∧ ino (n + 1) ≥ REAL_KEY then
      let key := slice (s.page bufp).bytes (ino n) (off - ino n)
      let val := slice (s.page bufp).bytes (ino (n + 1)) (ino n - ino (n + 1))
      if stays key then do
        let (s, old) ← s.append old key val
        Hashp.movePairs stays bufp fuel s (n + 2) (ino (n + 1)) old new
      else do
        let (s, new) ← s.append new key val
        Hashp.movePairs stays bufp fuel s (n + 2) (ino (n + 1)) old new
    else .ok (s, n, old, new)

/-- The outer loop of `ugly_split`, `fuel` times at most. -/
def Hashp.uglyLoop (stays : Bytes → Bool) :
    Nat → Hashp → Nat → Nat → Nat → Nat → Nat → Nat → Option Nat → Except Fault Hashp
  | 0, _, _, _, _, _, _, _, _ => .error .astray
  | fuel + 1, s, bufp, n, old, new, copyto, moved, last =>
    let ino := (s.page bufp).bp
    if n < ino 0 then
      if ino 2 < REAL_KEY ∧ ino 2 ≠ OVFLPAGE then .error .astray
      else if ino (n + 1) = OVFLPAGE then do
        let addr := ino n
        let s := s.setPage bufp ((s.page bufp).cleanUp (moved + 2) copyto)
        let (s, next) := s.getOvfl addr bufp
        let s := match last with
          | some b => s.freeOvfl b
          | none => s
        let (s, n, old, new) ← s.movePairs stays next ((s.page next).bp 0 + 1) 1 (s.bsize % 2 ^ 16)
          old new
        Hashp.uglyLoop stays fuel s next n old new (s.bsize % 2 ^ 16) 0 (some next)
      else do
        let (s, n, old, new) ← s.movePairs stays bufp (ino 0 + 1) 1 (s.bsize % 2 ^ 16) old new
        Hashp.uglyLoop stays fuel s bufp n old new copyto moved last
    else
      match last with
      | some b => .ok (s.freeOvfl b)
      | none => .ok s

def Hashp.splitPage (s : Hashp) (obucket nbucket : Nat) : Except Fault Hashp :=
  let (s, old) := s.getBucket obucket
  let (s, new) := s.getBucket nbucket
  let stays key := s.callHash key == obucket
  let (v, ugly) := SplitVars.loop stays ((s.page old).bp 0 + 1) 1
    { old := s.page old, new := s.page new, ndx := 1, copyto := s.bsize % 2 ^ 16,
      off := s.bsize % 2 ^ 16, moved := 0 }
  let s := (s.setPage old v.old).setPage new v.new
  if ugly then Hashp.uglyLoop stays (s.made + 1) s old (v.old.bp 0 - 1) old new v.copyto v.moved
    none
  else .ok (s.setPage old (v.old.cleanUp v.moved v.copyto))

def Hashp.growDir (s : Hashp) : Except Fault Hashp :=
  let segnum := (s.htab.maxBucket + 1) / DEF_SEGSIZE
  if segnum ≥ s.nsegs then
    let s := if segnum ≥ s.dsize then
        -- hash_realloc takes bytes, and so does DSIZE from then on
        let dirsize := s.dsize * 4
        { s with dirEnd := dirsize * 2 / 4, dsize := dirsize * 2 }
      else s
    if segnum ≥ s.dirEnd then .error .astray else .ok { s with nsegs := s.nsegs + 1 }
  else .ok s

def Hashp.expand (s : Hashp) : Except Fault Hashp := do
  let newBucket := s.htab.maxBucket + 1
  let oldBucket := newBucket &&& s.htab.lowMask
  let s ← s.growDir
  match expandTable s.htab with
  | none => .error .failure
  | some htab => Hashp.splitPage { s with htab } oldBucket newBucket

end Split

section Access

/-- The loop of `hash_access` over the pages of a bucket, `fuel` times at most: the buffer where the
search ends, and the place of the pair there. -/
def Hashp.search (key : Bytes) : Nat → Hashp → Nat → Except Fault (Hashp × Nat × Option Nat)
  | 0, _, _ => .error .astray
  | fuel + 1, s, b =>
    match (s.page b).search key ((s.page b).bp 0 + 1) 1 s.bsize with
    | .pair ndx => .ok (s, b, some ndx)
    | .missing => .ok (s, b, none)
    | .big => .error .astray
    | .next addr =>
      let (s, b) := s.getOvfl addr b
      Hashp.search key fuel s b

/-- The loop of `__addel`, `fuel` times at most: the buffer where the pair goes, and whether it is
squeezed in. -/
def Hashp.addelLoop (key val : Bytes) : Nat → Hashp → Nat → Except Fault (Hashp × Nat × Bool)
  | 0, _, _ => .error .astray
  | fuel + 1, s, b =>
    let bp := (s.page b).bp
    if bp 0 ≠ 0 ∧ bp (bp 0) < REAL_KEY then
      if bp 2 < REAL_KEY ∧ bp (bp 0) ≠ OVFLPAGE then .error .astray
      else if (s.page b).freespace > PAIRSIZE key val then .ok (s, b, true)
      else
        let (s, b) := s.getOvfl (bp (bp 0 - 1)) b
        Hashp.addelLoop key val fuel s b
    else .ok (s, b, false)

/-- `__addel` up to the growth of the table, and whether it grows. -/
def Hashp.enter (s : Hashp) (b : Nat) (key val : Bytes) : Except Fault (Hashp × Bool) := do
  let (s, b, squeeze) ← s.addelLoop key val (s.made + 1) b
  if squeeze then .ok (s.setPage b (squeezeKey (s.page b) key val), false)
  else if (s.page b).pairfits key val then
    let s := s.setPage b (putpair (s.page b) key val)
    let s := { s with nkeys := s.nkeys + 1 }
    .ok (s, decide (s.nkeys.tdiv (s.htab.maxBucket + 1) > s.ffactor))
  else
    let (s, b) ← s.addOvflpage b
    if (s.page b).pairfits key val then
      let s := s.setPage b (putpair (s.page b) key val)
      .ok ({ s with nkeys := s.nkeys + 1 }, true)
    else .error .astray

def Hashp.addel (s : Hashp) (b : Nat) (key val : Bytes) : Except Fault Hashp := do
  let (s, grow) ← s.enter b key val
  if grow then s.expand else .ok s

def Hashp.delete (s : Hashp) (b ndx : Nat) : Hashp :=
  { s.setPage b (delpair s.bsize (s.page b) ndx) with nkeys := s.nkeys - 1 }

def Hashp.lookup (s : Hashp) (key : Bytes) : Except Fault (Hashp × Nat × Option Nat) :=
  let (s, b) := s.getBucket (s.callHash key)
  Hashp.search key (s.made + 1) s b

def Hashp.access (s : Hashp) (action : Action) : Except Fault (Hashp × Answer) := do
  let (s, b, found) ← s.lookup action.key
  match found, action with
  | none, .put key val | none, .putnew key val => do
    let s ← s.addel b key val
    .ok (s, .success)
  | none, _ => .ok (s, .abnormal)
  | some _, .putnew _ _ => .ok (s, .abnormal)
  | some ndx, .get _ =>
    let bp := (s.page b).bp
    .ok (s, .data (slice (s.page b).bytes (bp (ndx + 1)) (bp ndx - bp (ndx + 1))))
  | some ndx, .put key val => do
    let s ← (s.delete b ndx).addel b key val
    .ok (s, .success)
  | some ndx, .delete _ => .ok (s.delete b ndx, .success)

/-- The table when `hash_access` has entered its pair, and whether it is to grow then. -/
def Hashp.entered (s : Hashp) (action : Action) : Except Fault (Hashp × Bool) := do
  let (s, b, found) ← s.lookup action.key
  match found, action with
  | none, .put key val | none, .putnew key val => s.enter b key val
  | some ndx, .put key val => (s.delete b ndx).enter b key val
  | _, _ => .ok (s, false)

def hashOpen (hash : Bytes → Nat) (bshift : Nat) (ffactor nelem : Int) : Option Hashp := do
  let htab ← initHtab bshift ffactor nelem
  let nsegs := 2 ^ log2 (htab.maxBucket / DEF_SEGSIZE + 1)
  some
    { htab
      hash
      ffactor
      nkeys := 0
      nsegs
      dsize := max nsegs DEF_DIRSIZE
      dirEnd := max nsegs DEF_DIRSIZE
      dir := fun _ => none
      bufs := fun _ => { addr := 0, ovfl := none, bucket := false, page := pageInit (2 ^ bshift) }
      made := 0 }

end Access

end FreeBsd.Db
