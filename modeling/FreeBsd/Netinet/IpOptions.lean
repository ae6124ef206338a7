import FreeBsd.Lib.Machine
import FreeBsd.Netinet.Ip

/-! `ip_dooptions` of `netinet/ip_input.c`. The packet is a memory from its IP header on; every
access to it is recorded, a write with the option that is being processed. -/
namespace FreeBsd.Netinet

open FreeBsd.Lib

section Constants

def IPOPT_EOL : Byte := 0
def IPOPT_NOP : Byte := 1
def IPOPT_RR : Byte := 7
def IPOPT_TS : Byte := 68
def IPOPT_LSRR : Byte := 131
def IPOPT_SSRR : Byte := 137
def IPOPT_OLEN : Nat := 1
def IPOPT_OFFSET : Nat := 2
def IPOPT_MINOFF : Nat := 4
def IPOPT_TS_TSONLY : Nat := 0
def IPOPT_TS_TSANDADDR : Nat := 1
def IPOPT_TS_PRESPEC : Nat := 3
def ICMP_PARAMPROB : Nat := 12
def ICMP_UNREACH : Nat := 3
def ICMP_UNREACH_HOST : Nat := 1
def ICMP_UNREACH_SRCFAIL : Nat := 5

def ipSrc : Nat := 12
def ipDst : Nat := 16

end Constants

section Header

/-- `struct in_addr`, and an `n_time`, as its four bytes. -/
abbrev InAddr := Fin 4 → Byte

inductive Access where
  | read (off : Nat)
  | write (off cp optlen : Nat)
  /-- A null pointer is followed. -/
  | null
  deriving DecidableEq, Repr

structure Header where
  mem : Nat → Byte
  trace : List Access

namespace Header

def read (h : Header) (off n : Nat) : Header :=
  { h with trace := h.trace ++ (List.range n).map fun i => .read (off + i) }

def addr (h : Header) (off : Nat) : InAddr := fun i => h.mem (off + i)

/-- A byte is stored while the option of `optlen` bytes at `cp` is processed. -/
def put (h : Header) (cp optlen off : Nat) (b : Byte) : Header where
  mem := fun o => if o = off then b else h.mem o
  trace := h.trace ++ [.write off cp optlen]

def putAddr (h : Header) (cp optlen off : Nat) (a : InAddr) : Header where
  mem := fun o => if within : off ≤ o ∧ o < off + 4 then a ⟨o - off, by omega⟩ else h.mem o
  trace := h.trace ++ (List.range 4).map fun i => .write (off + i) cp optlen

def null (h : Header) : Header := { h with trace := h.trace ++ [.null] }

end Header

/-- What is asked for the option at a place: the address of the interface that is found. The
interface that the packet came in by need not have one; `low` is what is found behind a null
pointer. -/
structure Lookups where
  ifwithaddr : Nat → InAddr → Option InAddr
  ifwithdstaddr : Nat → InAddr → Option InAddr
  iaonnetof : Nat → InAddr → Option InAddr
  rtaddr : Nat → InAddr → Option InAddr
  rcvif : Nat → Option InAddr
  low : Nat → InAddr
  iptime : Nat → InAddr

structure Bad where
  type : Nat
  code : Nat
  deriving DecidableEq, Repr

/-- A difference of an `int` and a `sizeof`, which is unsigned. -/
def usub (a b : Nat) : Nat := (a + 2 ^ 32 - b) % 2 ^ 32

end Header

section Options

/-- The header after an option, whether the packet is to be forwarded, and what is wrong. -/
abbrev OptResult := Header × Bool × Option Bad

def saveRte (h : Header) (cp : Nat) : Header :=
  let olen := (h.mem (cp + IPOPT_OLEN)).toNat
  let h := (h.read ipSrc 4).read (cp + IPOPT_OLEN) 1
  if olen > 48 - (1 + 4) then h else h.read cp olen

def sourceRoute (env : Lookups) (h : Header) (cp optlen : Nat) (opt : Byte) (forward : Bool) :
    OptResult :=
  let off := (h.mem (cp + IPOPT_OFFSET)).toNat
  let dst := h.addr ipDst
  let hop := h.addr (cp + (off - 1))
  let h := h.read (cp + IPOPT_OFFSET) 1
  if off < IPOPT_MINOFF then (h, forward, some ⟨ICMP_PARAMPROB, cp + IPOPT_OFFSET⟩)
  else
    let h := h.read ipDst 4
    match env.ifwithaddr cp dst with
    | none =>
      if opt = IPOPT_SSRR then (h, forward, some ⟨ICMP_UNREACH, ICMP_UNREACH_SRCFAIL⟩) else (h,
        forward, none)
    | some _ =>
      if off - 1 > usub optlen 4 then (saveRte h cp, forward, none)
      else
        let h := h.read (cp + (off - 1)) 4
        let ia :=
          if opt = IPOPT_SSRR then (env.ifwithdstaddr cp hop).or
          (env.iaonnetof cp hop) else env.rtaddr cp hop
        match ia with
        | none => (h, forward, some ⟨ICMP_UNREACH, ICMP_UNREACH_SRCFAIL⟩)
        | some ia =>
          let h := (h.putAddr cp optlen ipDst hop).putAddr cp optlen (cp + (off - 1)) ia
          let h := h.read (cp + IPOPT_OFFSET) 1
          (h.put cp optlen (cp + IPOPT_OFFSET) (h.mem (cp + IPOPT_OFFSET) + 4), true, none)

def recordRoute (env : Lookups) (h : Header) (cp optlen : Nat) (forward : Bool) : OptResult :=
  let off := (h.mem (cp + IPOPT_OFFSET)).toNat
  let dst := h.addr ipDst
  let h := h.read (cp + IPOPT_OFFSET) 1
  if off < IPOPT_MINOFF then (h, forward, some ⟨ICMP_PARAMPROB, cp + IPOPT_OFFSET⟩)
  else if off - 1 > usub optlen 4 then (h, forward, none)
  else
    let h := h.read ipDst 4
    match (env.ifwithaddr cp dst).or (env.rtaddr cp dst) with
    | none => (h, forward, some ⟨ICMP_UNREACH, ICMP_UNREACH_HOST⟩)
    | some ia =>
      let h := (h.putAddr cp optlen (cp + (off - 1)) ia).read (cp + IPOPT_OFFSET) 1
      (h.put cp optlen (cp + IPOPT_OFFSET) (h.mem (cp + IPOPT_OFFSET) + 4), forward, none)

def advancePtr (h : Header) (cp optlen : Nat) : Header :=
  (h.read (cp + 2) 1).put cp optlen (cp + 2) (h.mem (cp + 2) + 4)

def storeTime (env : Lookups) (h : Header) (cp optlen : Nat) : Header :=
  advancePtr ((h.read (cp + 2) 1).putAddr cp optlen (cp + (h.mem (cp + 2)).toNat - 1)
    (env.iptime cp)) cp optlen

/-- `ifptoia(m->m_pkthdr.rcvif)`, whose result is followed without a test. -/
def readRcvif (env : Lookups) (h : Header) (cp : Nat) : Header :=
  if (env.rcvif cp).isSome then h else h.null

def timestamp (env : Lookups) (h : Header) (cp optlen : Nat) (forward : Bool) : OptResult :=
  let bad : Option Bad := some ⟨ICMP_PARAMPROB, cp⟩
  let len := (h.mem (cp + 1)).toNat
  let ptr := (h.mem (cp + 2)).toNat
  let flags := h.mem (cp + 3)
  let sin := h.addr (cp + ptr - 1)
  let h := h.read (cp + 1) 1
  if len < 5 then (h, forward, bad)
  else
    let h := (h.read (cp + 2) 1).read (cp + 3) 1
    if ptr > usub len 4 then
      -- the counter is the high half of the byte
      let h := h.put cp optlen (cp + 3) (flags + 0x10)
      if (flags + 0x10) &&& 0xf0 = 0 then (h, forward, bad) else (h, forward, none)
    else
      let flg := (flags &&& 0xf).toNat
      if flg = IPOPT_TS_TSONLY then (storeTime env h cp optlen, forward, none)
      else if flg = IPOPT_TS_TSANDADDR then
        if ptr + 4 + 4 > len then (h, forward, bad)
        else
          let h := readRcvif env h cp
          let ia := (env.rcvif cp).getD (env.low cp)
          let h := advancePtr (h.putAddr cp optlen (cp + ptr - 1) ia) cp optlen
          (storeTime env h cp optlen, forward, none)
      else if flg = IPOPT_TS_PRESPEC then
        if ptr + 4 + 4 > len then (h, forward, bad)
        else
          let h := h.read (cp + ptr - 1) 4
          match env.ifwithaddr cp sin with
          | none => (h, forward, none)
          | some _ => (storeTime env (advancePtr h cp optlen) cp optlen, forward, none)
      else (h, forward, bad)

def doOption (env : Lookups) (h : Header) (cp optlen : Nat) (opt : Byte) (forward : Bool) :
    OptResult :=
  if opt = IPOPT_LSRR ∨ opt = IPOPT_SSRR then sourceRoute env h cp optlen opt forward
  else if opt = IPOPT_RR then recordRoute env h cp optlen forward
  else if opt = IPOPT_TS then timestamp env h cp optlen forward
  else (h, forward, none)

structure Cursor where
  cp : Nat
  cnt : Nat
  header : Header
  forward : Bool

def optionStep (env : Lookups) (s : Cursor) : Outcome Cursor OptResult :=
  if s.cnt = 0 then .halt (s.header, s.forward, none)
  else
    let opt := s.header.mem s.cp
    let optlen := (s.header.mem (s.cp + IPOPT_OLEN)).toNat
    let h := s.header.read s.cp 1
    if opt = IPOPT_EOL then .halt (h, s.forward, none)
    else if opt = IPOPT_NOP then .next ⟨s.cp + 1, s.cnt - 1, h, s.forward⟩
    else
      let h := h.read (s.cp + IPOPT_OLEN) 1
      if optlen = 0 ∨ optlen > s.cnt then
        .halt (h, s.forward, some ⟨ICMP_PARAMPROB, s.cp + IPOPT_OLEN⟩)
      else
        match doOption env h s.cp optlen opt s.forward with
        | (h, forward, some bad) => .halt (h, forward, some bad)
        | (h, forward, none) => .next ⟨s.cp + optlen, s.cnt - optlen, h, forward⟩

/-- No option is shorter than a byte, so that there are at most `cnt` rounds. -/
def ipDooptions (env : Lookups) (mem : Nat → Byte) (hl : Nat) : Option OptResult :=
  let cnt := 4 * hl - sizeofIp
  run (optionStep env) (cnt + 1) ⟨sizeofIp, cnt, ⟨mem, []⟩, false⟩

end Options

end FreeBsd.Netinet
