import FreeBsd.Db.Db
import FreeBsd.Lib.Threaded
import FreeBsd.Lib.Trace

/-! The overflow pages of a tree and its free list, with memory and a buffer pool that do not fail.
-/
namespace FreeBsd.Db.Overflow

open FreeBsd.Lib

section Model

def P_INVALID : Nat := 0
def BTDATAOFF : Nat := 20
def P_OVERFLOW : UInt32 := 0x04
def P_PRESERVE : UInt32 := 0x20

structure Page where
  pgno : Nat
  prevpg : Nat
  nextpg : Nat
  flags : UInt32
  data : Nat → UInt8

/-- `npages` is the number of the page that `mpool_new` makes next, with whatever is in its buffer;
`handed` are the pages that `__bt_new` has handed out. -/
structure Tree where
  psize : Nat
  pages : Nat → Page
  npages : Nat
  free : Nat
  handed : List Nat

def Tree.setPage (t : Tree) (n : Nat) (h : Page) :
    Tree := { t with pages := Function.update t.pages n h }

def Tree.btFree (t : Tree) (h : Nat) : Tree :=
  { t.setPage h { t.pages h with prevpg := P_INVALID,
                                 nextpg := t.free } with free := (t.pages h).pgno }

def Tree.btNew (t : Tree) : Tree × Nat :=
  if t.free ≠ P_INVALID ∧ t.free < t.npages then
    ({ t with free := (t.pages t.free).nextpg, handed := t.free :: t.handed }, t.free)
  else ({ t with npages := t.npages + 1, handed := t.npages :: t.handed }, t.npages)

def Tree.plen (t : Tree) : Nat := t.psize - BTDATAOFF

def Tree.mpoolGet (t : Tree) (pg : Nat) : Except Fault Page :=
  if pg ≥ t.npages then .error .failure else .ok (t.pages pg)

/-- The bytes of `p` copied to the beginning of the data. -/
def memmove (data : Nat → UInt8) (p : Bytes) : Nat → UInt8 := fun i => p[i]?.getD (data i)

/-- `last->nextpg = h->pgno`, if there is a page before this one. -/
def Tree.link (t : Tree) (last : Option Nat) (h : Nat) : Tree :=
  match last with
  | some last => t.setPage last { t.pages last with nextpg := (t.pages h).pgno }
  | none => t

/-- The loop of `__ovfl_put`, `fuel` times at most: `p` are the bytes that are not stored yet, and
`pg` is the first page. -/
def Tree.putLoop : Nat → Tree → Option Nat → Bytes → Nat → Except Fault (Tree × Nat)
  | 0, _, _, _, _ => .error .astray
  | fuel + 1, t, last, p, pg =>
    let (t, npg) := t.btNew
    let nb := min p.length t.plen
    let t := t.setPage npg
      { pgno := npg
        prevpg := P_INVALID
        nextpg := P_INVALID
        flags := P_OVERFLOW
        data := memmove (t.pages npg).data (p.take nb) }
    let t := t.link last npg
    let pg := if last.isSome then pg else (t.pages npg).pgno
    if p.length - nb = 0 then .ok (t, pg) else Tree.putLoop fuel t (some npg) (p.drop t.plen) pg

def Tree.ovflPut (t : Tree) (dbt : Bytes) : Except Fault (Tree × Nat) :=
  t.putLoop (dbt.length + 1) none dbt P_INVALID

def Tree.getLoop (t : Tree) : Nat → Nat → Nat → Except Fault Bytes
  | 0, _, _ => .error .astray
  | fuel + 1, pg, sz => do
    let h ← t.mpoolGet pg
    let nb := min sz t.plen
    let p := (List.range nb).map h.data
    if sz - nb = 0 then .ok p else .ok (p ++ (← t.getLoop fuel h.nextpg (sz - nb)))

def Tree.ovflGet (t : Tree) (pg sz : Nat) : Except Fault Bytes := t.getLoop (sz + 1) pg sz

def Tree.deleteLoop : Nat → Tree → Nat → Nat → Except Fault Tree
  | 0, _, _, _ => .error .astray
  | fuel + 1, t, h, sz => do
    let pg := (t.pages h).nextpg
    let t := t.btFree h
    if sz ≤ t.plen then .ok t
    else
      let _ ← t.mpoolGet pg
      Tree.deleteLoop fuel t pg (sz - t.plen)

def Tree.preserved (t : Tree) (pg : Nat) : Bool := (t.pages pg).flags &&& P_PRESERVE ≠ 0

def Tree.ovflDelete (t : Tree) (pg sz : Nat) : Except Fault Tree := do
  let _ ← t.mpoolGet pg
  if t.preserved pg then .ok t else t.deleteLoop (sz + 1) pg sz

end Model

section Calls

structure Chain where
  pg : Nat
  data : Bytes
  deriving DecidableEq

/-- `preserve` is `bt_preserve`. A page that `__bt_new` has handed out to another caller is filled,
with its own number in it, and may be written again before it is freed. -/
inductive Action where
  | put (dbt : Bytes)
  | get (pg : Nat)
  | delete (pg : Nat)
  | preserve (pg : Nat)
  | new (h : Page)
  | write (n : Nat) (h : Page)
  | free (n : Nat)

structure Sys where
  t : Tree
  live : List Chain
  used : List Nat

def Sys.chain (s : Sys) (pg : Nat) : Except Fault Chain :=
  match s.live.find? (·.pg = pg) with
  | some c => .ok c
  | none => .error .astray

def Sys.fill (s : Sys) (n : Nat) (h : Page) :
    Sys := { s with t := s.t.setPage n { h with pgno := n } }

def Sys.step (s : Sys) : Action → Except Fault Sys
  | .put dbt => do
    let (t, pg) ← s.t.ovflPut dbt
    .ok { s with t, live := ⟨pg, dbt⟩ :: s.live }
  | .get pg => do
    let c ← s.chain pg
    let _ ← s.t.ovflGet c.pg c.data.length
    .ok s
  | .delete pg => do
    let c ← s.chain pg
    let t ← s.t.ovflDelete c.pg c.data.length
    .ok { s with t, live := if s.t.preserved c.pg then s.live else s.live.erase c }
  | .preserve pg => do
    let c ← s.chain pg
    .ok { s with t := s.t.setPage c.pg { s.t.pages c.pg with flags := (s.t.pages c.pg).flags ||| P_PRESERVE } }
  | .new h =>
    let (t, n) := s.t.btNew
    .ok (({ s with t, used := n :: s.used } : Sys).fill n h)
  | .write n h => if n ∈ s.used then .ok (s.fill n h) else .error .astray
  | .free n => if n ∈ s.used then .ok { s with t := s.t.btFree n,
                                               used := s.used.erase n } else .error .astray

def start (psize npages : Nat) (pages : Nat → Page) : Sys where
  t := { psize, pages, npages, free := P_INVALID, handed := [] }
  live := []
  used := []

def Sys.Legal (s : Sys) : Action → Prop
  | .put _ => True
  | .get pg => ∃ c ∈ s.live, c.pg = pg
  | .delete pg => ∃ c ∈ s.live, c.pg = pg
  | .preserve pg => ∃ c ∈ s.live, c.pg = pg
  | .new _ => True
  | .write n _ => n ∈ s.used
  | .free n => n ∈ s.used

def Sys.Calls (s : Sys) (action : Action) (s' : Sys) : Prop := s.step action = .ok s'

def Tree.linked (t : Tree) : Nat → Nat → List Nat
  | 0, _ => []
  | n + 1, pg => pg :: t.linked n (t.pages pg).nextpg

def Tree.pagesOf (t : Tree) (c : Chain) :
    List Nat := t.linked ((c.data.length - 1) / t.plen + 1) c.pg

/-- What is stored can be read; the free list ends; each page that has been handed out is in one
chain, in use by its caller or free. -/
structure Sys.Sound (s : Sys) (free : List Nat) : Prop where
  read : ∀ c ∈ s.live, s.t.ovflGet c.pg c.data.length = .ok c.data
  threads : Threads (fun n => (s.t.pages n).nextpg) s.t.free free
  apart : (s.live.flatMap s.t.pagesOf ++ s.used ++ free).Nodup
  handed : ∀ n, n ∈ s.t.handed ↔ n ∈ s.live.flatMap s.t.pagesOf ++ s.used ++ free

end Calls

end FreeBsd.Db.Overflow
