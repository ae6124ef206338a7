import FreeBsd.Lib.Tailq
import FreeBsd.Lib.Trace

/-! The name cache of `kern/vfs_cache.c`. An entry is on the LRU list, and on the hash chain of
its bucket or on a chain of its own. An operation is none where it would follow a NULL pointer. -/
namespace FreeBsd.Kern.VfsCache

open FreeBsd.Lib

def NCHNAMLEN : Nat := 31
def OPMASK : BitVec 32 := 3
def CREATE : BitVec 32 := 1
def ENOENT : Int := 2
def NBPG : Nat := 4096
def CLSIZE : Nat := 1

abbrev Vnode := Nat
abbrev Mount := Nat
abbrev Name := List (BitVec 8)

inductive Nch where
  | null
  | bucket (h : Nat)
  | entry (i : Nat)
  deriving DecidableEq, Repr

structure Namecache where
  ncDvp : Option Vnode
  ncDvpid : BitVec 32
  ncVp : Option Vnode
  ncVpid : BitVec 32
  ncName : Name

/-- The arguments and results of a lookup; `niPtr` is the `ni_namelen` bytes from `ni_ptr` on. -/
structure Nameidata where
  niNameiop : BitVec 32
  niDvp : Vnode
  niPtr : Name
  niHash : BitVec 32
  niMakeentry : BitVec 8
  niVp : Option Vnode

structure Links where
  forw : Nch → Nch
  back : Nch → Nch

/-- `lru` is `nchhead`, `nchtail` and the fields `nc_nxt` and `nc_prev`. -/
structure Cache where
  doingcache : Bool
  desiredvnodes : Nat
  nchash : Nat
  numcache : Nat
  lru : Tailq Nat
  hash : Links
  cache : Nat → Namecache
  vId : Vnode → BitVec 32
  nextvnodeid : BitVec 32

section Init

def roundup (x y : Nat) : Nat := (x + (y - 1)) / y * y

def nchashsize (desiredvnodes : Nat) : Nat := roundup ((desiredvnodes + 1) * 8 / 2) (NBPG * CLSIZE)

def nchashShift (slots : Nat) : (fuel nchash : Nat) → Nat
  | 0, nchash => nchash
  | fuel + 1, nchash => if nchash ≤ slots then nchashShift slots fuel (2 * nchash) else nchash

def nchashOf (desiredvnodes : Nat) : Nat :=
  let slots := nchashsize desiredvnodes / 8
  nchashShift slots (slots + 1) 1 / 2 - 1

/-- The buckets from `nchash` down point at themselves. -/
def initHead (nchash : Nat) : Nch → Nch
  | .bucket h => if h ≤ nchash then .bucket h else .null
  | _ => .null

def nchinit (doingcache : Bool) (desiredvnodes : Nat) : Cache :=
  { doingcache, desiredvnodes
    nchash := nchashOf desiredvnodes
    numcache := 0
    lru := ⟨fun _ => none, fun _ => none, .head⟩
    hash := ⟨initHead (nchashOf desiredvnodes), initHead (nchashOf desiredvnodes)⟩
    cache := fun _ => ⟨none, 0, none, 0, []⟩
    vId := fun _ => 0
    nextvnodeid := 0 }

end Init

section Chains

namespace Links

def remque (q : Links) (element : Nch) : Option Links :=
  if q.forw element = .null then none
  else
    let back := Function.update q.back (q.forw element) (q.back element)
    if back element = .null then none
    else some {
      forw := Function.update q.forw (back element) (q.forw element)
      back := Function.update back element .null }

def insque (q : Links) (element head : Nch) : Option Links :=
  let forw := Function.update (Function.update q.forw element (q.forw head)) head element
  if forw element = .null then none
  else some { forw,
              back := Function.update (Function.update q.back element head) (forw element) element }

def dummy (q : Links) (ncp : Nch) : Links where
  forw := Function.update q.forw ncp ncp
  back := Function.update q.back ncp ncp

end Links

def Cache.bucketOf (s : Cache) (hash : BitVec 32) : Nat := hash.toNat &&& s.nchash

end Chains

section Lookup

def Cache.isEntry (s : Cache) (ndp : Nameidata) (i : Nat) : Bool :=
  (s.cache i).ncDvp = some ndp.niDvp ∧ (s.cache i).ncDvpid = s.vId ndp.niDvp ∧
    (s.cache i).ncName = ndp.niPtr

/-- From `ncp` to the entry that passes the test or back to the bucket `h`. No chain has more than
`numcache` entries. -/
def scan (s : Cache) (h : Nat) (test : Nat → Bool) : (fuel : Nat) → (ncp : Nch) →
    Option (Option Nat)
  | 0, _ => none
  | fuel + 1, ncp =>
    if ncp = .bucket h then some none
    else match ncp with
      | .entry i => if test i then some (some i) else scan s h test fuel (s.hash.forw (.entry i))
      | _ => none

def touch (s : Cache) (i : Nat) : Option Cache :=
  match s.lru.link (.nxt i) with
  | none => some s
  | some _ => (s.lru.remove i).map fun lru => { s with lru := lru.insertTail i }

def drop (s : Cache) (i : Nat) : Option Cache :=
  (s.lru.remove i).bind fun lru =>
    (s.hash.remque (.entry i)).bind fun hash =>
      (lru.insertHead i).map fun lru => { s with lru, hash := hash.dummy (.entry i) }

def cacheLookup (s : Cache) (ndp : Nameidata) : Option (Int × Nameidata × Cache) :=
  if ¬ s.doingcache then some (0, ndp, s)
  else if ndp.niPtr.length > NCHNAMLEN then some (0, { ndp with niMakeentry := 0 }, s)
  else
    let h := s.bucketOf ndp.niHash
    (scan s h (s.isEntry ndp) (s.numcache + 1) (s.hash.forw (.bucket h))).bind fun found =>
      match found with
      | none => some (0, ndp, s)
      | some i =>
        let gone := (drop s i).map fun s => (0, ndp, s)
        if ndp.niMakeentry = 0 then gone
        else match (s.cache i).ncVp with
          | none =>
            if ndp.niNameiop &&& OPMASK ≠ CREATE then (touch s i).map fun s => (ENOENT, ndp, s)
            else gone
          | some vp =>
            if (s.cache i).ncVpid ≠ s.vId vp then gone
            else (touch s i).map fun s => (-1, { ndp with niVp := some vp }, s)

end Lookup

section Enter

def Cache.slotFor (s : Cache) (ndp : Nameidata) : Namecache where
  ncVp := ndp.niVp
  ncVpid := match ndp.niVp with
    | some vp => s.vId vp
    | none => 0
  ncDvp := some ndp.niDvp
  ncDvpid := s.vId ndp.niDvp
  ncName := ndp.niPtr

/-- What `cache_enter` does with the slot it has found. -/
def fillSlot (s : Cache) (i : Nat) (ndp : Nameidata) : Option Cache :=
  (s.hash.insque (.entry i) (.bucket (s.bucketOf ndp.niHash))).map fun hash =>
    { s with cache := Function.update s.cache i (s.slotFor ndp), lru := s.lru.insertTail i, hash }

def cacheEnter (s : Cache) (ndp : Nameidata) : Option Cache :=
  if ¬ s.doingcache then some s
  else if s.numcache < s.desiredvnodes then
    fillSlot { s with numcache := s.numcache + 1 } s.numcache ndp
  else match s.lru.link .head with
    | none => some s
    | some i =>
      (s.lru.remove i).bind fun lru =>
        (s.hash.remque (.entry i)).bind fun hash => fillSlot { s with lru, hash } i ndp

end Enter

section Purge

/-- The capability numbers of the entries of a chain, from `ncp` on. -/
def clearChain (h : Nat) : (fuel : Nat) → (s : Cache) → (ncp : Nch) → Option Cache
  | 0, _, _ => none
  | fuel + 1, s, ncp =>
    if ncp = .bucket h then some s
    else match ncp with
      | .entry i =>
        clearChain h fuel
          { s with cache := Function.update s.cache i { s.cache i with ncVpid := 0, ncDvpid := 0 } }
          (s.hash.forw (.entry i))
      | _ => none

def clearChains : (n : Nat) → (s : Cache) → Option Cache
  | 0, s => some s
  | n + 1, s => (clearChain n (s.numcache + 1) s (s.hash.forw (.bucket n))).bind (clearChains n)

def renumber (s : Cache) (vp : Vnode) : Cache :=
  { s with nextvnodeid := s.nextvnodeid + 1, vId := Function.update s.vId vp (s.nextvnodeid + 1) }

def cachePurge (s : Cache) (vp : Vnode) : Option Cache :=
  let s := renumber s vp
  if s.nextvnodeid ≠ 0 then some s
  else (clearChains (s.nchash + 1) s).map fun s => renumber s vp

/-- The loop of `cache_purgevfs` from the slot `ncp` on; none also where it has not ended after
`fuel` slots. -/
def purgeSlots (mp : Mount) (vMount : Vnode → Mount) : (fuel : Nat) → (s : Cache) →
    (ncp : Option Nat) → Option Cache
  | 0, _, _ => none
  | _ + 1, s, none => some s
  | fuel + 1, s, some i =>
    let nxtcp := s.lru.link (.nxt i)
    if (s.cache i).ncDvp.all fun dvp => vMount dvp ≠ mp then purgeSlots mp vMount fuel s nxtcp
    else
      let freed := { s.cache i with ncVp := none, ncDvp := none }
      (s.hash.remque (.entry i)).bind fun hash =>
        let s := { s with cache := Function.update s.cache i freed, hash := hash.dummy (.entry i) }
        (s.lru.remove i).bind fun lru =>
          -- the list is scanned again from what is its head before the slot is put there
          let nxtcp := lru.link .head
          (lru.insertHead i).bind fun lru => purgeSlots mp vMount fuel { s with lru } nxtcp

def cachePurgevfs (s : Cache) (mp : Mount) (vMount : Vnode → Mount) : Option Cache :=
  purgeSlots mp vMount ((s.numcache + 1) * (s.numcache + 1)) s (s.lru.link .head)

end Purge

section Calls

/-- A call; a name that is entered fits into a slot, and `vMount` is the field of each vnode at
the time of the call. -/
inductive Call where
  | enter (ndp : Nameidata) (fits : ndp.niPtr.length ≤ NCHNAMLEN)
  | lookup (ndp : Nameidata)
  | purge (vp : Vnode)
  | purgevfs (mp : Mount) (vMount : Vnode → Mount)

def step (s : Cache) : Call → Option Cache
  | .enter ndp _ => cacheEnter s ndp
  | .lookup ndp => (cacheLookup s ndp).map fun r => r.2.2
  | .purge vp => cachePurge s vp
  | .purgevfs mp vMount => cachePurgevfs s mp vMount

end Calls

end FreeBsd.Kern.VfsCache
