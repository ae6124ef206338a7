import Mathlib.Tactic.Ring
import FreeBsd.Lib.Trace
import Mathlib.Logic.Function.Basic

/-! `nfs/nfs_srvcache.c`: the cache of recent requests, and the nfsds that use it. An nfsd runs
until it sleeps, or waits in `m_copym`. -/
namespace FreeBsd.Nfs

section Cache

def NFSRVCACHESIZ : Nat := 128
def NFSRCHSZ : Nat := 32
def RC_DELAY : Int := 2
def AF_INET : Nat := 2

def NFSRCHASH (xid : Nat) : Nat := (xid + xid / 2 ^ 16) % NFSRCHSZ

def nonidempotent : List Bool :=
  [false, false, true, false, false, false, false, false, true, true, true, true, true, true, true,
    true, false, false]

def repliesstatus : List Bool :=
  [false, false, false, false, false, false, false, false, false, false, true, true, true, true,
    false, true, false, false]

structure Sockaddr where
  sa_family : Nat
  s_addr : Nat
  deriving DecidableEq, Repr

def nfs_netaddr_match (saddr1 saddr2 : Sockaddr) : Bool :=
  if saddr1.sa_family ≠ saddr2.sa_family then false
  else if saddr1.sa_family = AF_INET then saddr1.s_addr == saddr2.s_addr
  else false

/-- The arguments of a call: `nam` is the mbuf that has the address. -/
structure Call where
  nam : Nat
  xid : Nat
  proc : Nat
  deriving DecidableEq, Repr

structure Request where
  saddr : Sockaddr
  xid : Nat
  proc : Nat
  deriving DecidableEq, Repr

inductive RcState where
  | unused | inprog | done
  deriving DecidableEq, Repr

/-- An entry. The data pointer of `rc_nam` is that of the mbuf it was copied from. Of `rc_un`,
`RC_REPSTATUS` says that it is `status`, and `RC_REPMBUF` that it is `reply`. -/
structure Nfsrvcache where
  state : RcState
  locked : Bool
  wanted : Bool
  repstatus : Bool
  repmbuf : Bool
  call : Call
  timestamp : Int
  status : Nat
  reply : List UInt8
  deriving DecidableEq, Repr

/-- What `nfsrv_updatecache` is called with besides the request. -/
structure Update where
  repvalid : Bool
  repstat : Nat
  repmbuf : List UInt8
  deriving DecidableEq, Repr

/-- Where an nfsd is: out of the cache; before one of its loops; in `m_copym`; or at work on a
request. -/
inductive Phase where
  | idle
  | search (c : Call)
  | victim (c : Call) (rp : Nat)
  | replying (c : Call) (rp : Nat)
  | serving (c : Call)
  | update (c : Call) (a : Update)
  | saving (c : Call) (rp : Nat) (a : Update)
  deriving DecidableEq, Repr

def Phase.call : Phase → Option Call
  | .idle => none
  | .search c | .victim c _ | .replying c _ | .serving c | .update c _ | .saving c _ _ => some c

structure Nfsd where
  phase : Phase
  asleep : Option Nat
  deriving DecidableEq, Repr

structure SrvCache where
  /-- The addresses that mbufs have as their data. -/
  mtod : Nat → Sockaddr
  nfsrvcache : List Nfsrvcache
  /-- The LRU list from `rc_next` of its head on. -/
  lru : List Nat
  rhead : List (List Nat)
  nfsds : List Nfsd
  panicked : Bool

inductive Ends where
  | dropit (q : Request)
  | reply (q : Request)
  | doit (q : Request) (rp : Nat)
  | updated (q : Request) (saved : Bool)
  deriving DecidableEq, Repr

abbrev CacheResult := SrvCache × Option Ends

def unused : Nfsrvcache := ⟨.unused, false, false, false, false, ⟨0, 0, 0⟩, 0, 0, []⟩

namespace SrvCache

def start (mtod : Nat → Sockaddr) (n : Nat) : SrvCache :=
  ⟨mtod, List.replicate NFSRVCACHESIZ unused, (List.range NFSRVCACHESIZ).reverse,
    List.replicate NFSRCHSZ [], List.replicate n ⟨.idle, none⟩, false⟩

variable (s : SrvCache) (t : Nat) (rp : Nat) (e : Nfsrvcache)

def asks (c : Call) : Request := ⟨s.mtod c.nam, c.xid, c.proc⟩

def chain (h : Nat) : List Nat := s.rhead.getD h []

def put : SrvCache := { s with nfsrvcache := s.nfsrvcache.set rp e }

def goto (p : Phase) : SrvCache := { s with nfsds := s.nfsds.set t ⟨p, none⟩ }

def tsleep (p : Phase) : SrvCache :=
  { s.put rp { e with wanted := true } with nfsds := s.nfsds.set t ⟨p, some rp⟩ }

def unlock : SrvCache :=
  { s.put rp { e with locked := false, wanted := false } with
    nfsds := if e.wanted then s.nfsds.map fun d =>
      if d.asleep = some rp then ⟨d.phase, none⟩ else d else s.nfsds }

def put_at_head : SrvCache := { s with lru := rp :: s.lru.filter (· ≠ rp) }

def remque : SrvCache := { s with rhead := s.rhead.map (·.filter (· ≠ rp)) }

def insque (h : Nat) : SrvCache := { s with rhead := s.rhead.modify h (rp :: ·) }

end SrvCache

def Nfsrvcache.answers (mtod : Nat → Sockaddr) (e : Nfsrvcache) (c : Call) : Bool :=
  c.xid == e.call.xid && c.proc == e.call.proc && nfs_netaddr_match (mtod c.nam) (mtod e.call.nam)

def SrvCache.lookup (s : SrvCache) (c : Call) : Option Nat :=
  (s.chain (NFSRCHASH c.xid)).find? fun rp => (s.nfsrvcache[rp]?).any (·.answers s.mtod c)

end Cache

section Routines

variable (s : SrvCache) (t : Nat) (c : Call) (now : Int) (waits : Bool)

def takeVictim (rp : Nat) : CacheResult :=
  match s.nfsrvcache[rp]? with
  | none => (s, none)
  | some e =>
    if e.locked then (s.tsleep t rp e (.victim c rp), none)
    else
      let e := { e with
        state := .inprog, call := c, locked := false, wanted := false, repstatus :=
          false, repmbuf := false }
      (((((s.remque rp).put_at_head rp).put rp e).insque rp (NFSRCHASH c.xid)).goto t (.serving c),
        some (.doit (s.asks c) rp))

def finishReply (rp : Nat) (e : Nfsrvcache) : CacheResult :=
  ((s.unlock rp { e with timestamp := now }).goto t .idle, some (.reply (s.asks c)))

def getcache : CacheResult :=
  match s.lookup c with
  | some rp =>
    match s.nfsrvcache[rp]? with
    | none => (s, none)
    | some e =>
      if e.locked then (s.tsleep t rp e (.search c), none)
      else
        let s := s.put_at_head rp
        if e.state = .unused then ({ s with panicked := true }, none)
        else if e.state = .inprog ∨ now - e.timestamp < RC_DELAY then
          ((s.unlock rp e).goto t .idle, some (.dropit (s.asks c)))
        else if e.repstatus then finishReply s t c now rp e
        else if e.repmbuf then
          if waits then ((s.put rp { e with locked := true }).goto t (.replying c rp), none)
          else finishReply s t c now rp e
        else ((s.unlock rp { e with state := .inprog }).goto t (.serving c),
          some (.doit (s.asks c) rp))
  | none =>
    match s.lru.getLast? with
    | none => (s, none)
    | some rp => takeVictim s t c rp

def finishUpdate (rp : Nat) (e : Nfsrvcache) : CacheResult :=
  ((s.unlock rp e).goto t .idle, some (.updated (s.asks c) (e.repstatus || e.repmbuf)))

def updatecache (a : Update) : CacheResult :=
  match s.lookup c with
  | none => (s.goto t .idle, none)
  | some rp =>
    match s.nfsrvcache[rp]? with
    | none => (s, none)
    | some e =>
      if e.locked then (s.tsleep t rp e (.update c a), none)
      else
        let e := { e with state := .done }
        if a.repvalid then
          let e := { e with timestamp := now }
          if nonidempotent.getD c.proc false then
            if repliesstatus.getD c.proc false then
              finishUpdate s t c rp { e with status := a.repstat, repstatus := true }
            else if waits then ((s.put rp { e with locked := true }).goto t (.saving c rp a), none)
            else finishUpdate s t c rp { e with reply := a.repmbuf, repmbuf := true }
          else finishUpdate s t c rp e
        else finishUpdate s t c rp { e with timestamp := 0 }

def resume (p : Phase) : CacheResult :=
  match p with
  | .idle | .serving _ => (s, none)
  | .search c => getcache s t c now waits
  | .victim c rp => takeVictim s t c rp
  | .update c a => updatecache s t c now waits a
  | .replying c rp =>
    match s.nfsrvcache[rp]? with
    | none => (s, none)
    | some e => finishReply s t c now rp e
  | .saving c rp a =>
    match s.nfsrvcache[rp]? with
    | none => (s, none)
    | some e => finishUpdate s t c rp { e with reply := a.repmbuf, repmbuf := true }

end Routines

section Steps

inductive Event where
  | getcache (t : Nat) (c : Call)
  | updatecache (t : Nat) (a : Update)
  | resume (t : Nat)
  | write (m : Nat) (saddr : Sockaddr)
  deriving DecidableEq, Repr

/-- An nfsd takes a request when it is idle, and updates the cache when it has done one, after which
it frees the mbuf of the address; mbufs that no nfsd has may be written. `now` is the time, and
`waits` says whether `m_copym` does. -/
def cacheStep (s : SrvCache) (event : Event × Int × Bool) : Option CacheResult :=
  match event with
  | (.getcache t c, now, waits) =>
    match s.nfsds[t]? with
    | some ⟨.idle, none⟩ => some (getcache s t c now waits)
    | _ => none
  | (.updatecache t a, now, waits) =>
    match s.nfsds[t]? with
    | some ⟨.serving c, none⟩ => some (updatecache s t c now waits a)
    | _ => none
  | (.resume t, now, waits) =>
    match s.nfsds[t]? with
    | some ⟨p, none⟩ => some (resume s t now waits p)
    | _ => none
  | (.write m saddr, _, _) =>
    if s.nfsds.any fun d => d.phase.call.any fun c => c.nam = m then none
    else some ({ s with mtod := Function.update s.mtod m saddr }, none)

end Steps

end FreeBsd.Nfs
