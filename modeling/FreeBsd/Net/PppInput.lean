import FreeBsd.Net.IfPpp
import FreeBsd.Kern.UipcMbuf

/-! The input side of a PPP line. `pppinput` takes one character after the other, puts back what
the sender left out of the header, and queues a packet at each closing flag. -/
namespace FreeBsd.Net

open FreeBsd.Lib FreeBsd.Kern
open FreeBsd.Kern.UipcMbuf (MLEN MHLEN MCLBYTES)

section Model

def TTY_FE : BitVec 32 := 0x01000000
def HDROFF : Nat := MLEN

/-- A mbuf of `sc_m`: `M_DATASIZE`, where the data starts, and the data. -/
structure PppMbuf where
  size : Nat
  off : Nat
  data : List Char8

/-- A packet on an input queue: `m_pkthdr.len`, and the bytes of its chain. -/
structure PppInput where
  pkthdrLen : Int
  data : List Char8
  deriving DecidableEq

/-- The receiving half of `struct ppp_softc`. `scMc` is the place of `sc_mc` in the chain `sc_m`;
`sc_mp` is always the end of the data there. -/
structure PppSoftc (Comp : Type) where
  scM : List PppMbuf
  scMc : Nat
  scIlen : BitVec 16
  scFcs : BitVec 16
  scMru : BitVec 16
  scRasyncmap : BitVec 32
  rejCompAc : Bool
  rejCompTcp : Bool
  escaped : Bool
  flush : Bool
  up : Bool
  scComp : Comp
  scInq : List PppInput
  ipintrq : List PppInput

/-- The circumstances of a call: whether the allocations succeed, and which queues are full. -/
structure PppLine where
  mbuf : Bool
  init : Bool
  again : Bool
  clusters : Bool
  ipFull : Bool
  inqFull : Bool

/-- The decompressor: `sl_uncompress_tcp_part` on the data of the first mbuf, the length of the
packet and whether it is of type `TYPE_COMPRESSED_TCP`, and what an error does to it. -/
structure PppVj (Comp : Type) where
  part : List Char8 → Int → Bool → Comp → Option (List Char8) × Comp
  error : Comp → Comp

variable {Comp : Type}

def pppHave : List PppMbuf → Int → Option Int
  | [], len => some len
  | m :: rest, len => if len - m.size ≤ 0 then none else pppHave rest (len - m.size)

def pppGrow (size : Nat) : Nat → Int → List PppMbuf
  | 0, _ => [⟨size, 0, []⟩]
  | fuel + 1, len => ⟨size, 0, []⟩ :: if len - size ≤ 0 then [] else pppGrow size fuel (len - size)

def pppinit (mbufs clusters : Bool) (scM : List PppMbuf) (scMru : BitVec 16) :
    Option (List PppMbuf) :=
  match pppHave scM (scMru.toInt + (HDROFF + PPP_HEADER_LEN + PPP_FCS_LEN : Nat)) with
  | none => some scM
  | some len =>
    if mbufs then some (scM ++ pppGrow (if clusters then MCLBYTES else MHLEN) len.toNat
      len) else none

def pppBtom (line : PppLine) (sc : PppSoftc Comp) : Option (List (List Char8)) × PppSoftc Comp :=
  let top := (sc.scM.take (sc.scMc + 1)).map PppMbuf.data
  let long : Bool := (sc.scM[sc.scMc]?.map fun m => m.data.length).getD 0 > MHLEN
  if long = false ∧ line.mbuf = false then (none, sc)
  else
    -- a mbuf with little in it is copied and stays
    let scM := if long then sc.scM.drop (sc.scMc + 1) else sc.scM.drop sc.scMc
    match pppinit line.init line.clusters scM sc.scMru with
    | some scM => (some top, { sc with scM := scM })
    | none =>
      match pppinit line.again line.clusters [] sc.scMru with
      | some scM => (none, { sc with scM := scM })
      | none => (none, { sc with scM := [], up := false })

def pppQueue (line : PppLine) (proto : BitVec 16) (ilen : Int) (sc : PppSoftc Comp) :
    PppSoftc Comp :=
  match pppBtom line sc with
  | (none, sc) => sc
  | (some top, sc) =>
    if proto = PPP_IP then
      if sc.up = false then sc
      else if line.ipFull then sc
      else
        let data := (top.headD []).drop PPP_HEADER_LEN ++ top.tail.flatten
        { sc with ipintrq := sc.ipintrq ++ [⟨ilen - PPP_HEADER_LEN, data⟩] }
    else if line.inqFull then sc
    else { sc with scInq := sc.scInq ++ [⟨ilen, top.flatten⟩] }

def pppPacket (vj : PppVj Comp) (line : PppLine) (ilen : Int) (sc : PppSoftc Comp) :
    PppSoftc Comp :=
  let m := (sc.scM.head?.map PppMbuf.data).getD []
  let proto : BitVec 16 := m.getD 2 0 ++ m.getD 3 0
  if proto = PPP_VJC_COMP ∨ proto = PPP_VJC_UNCOMP then
    if sc.rejCompTcp then sc
    else
      match vj.part (m.drop PPP_HEADER_LEN) (ilen - PPP_HEADER_LEN) (proto = PPP_VJC_COMP)
        sc.scComp with
      | (none, comp) => { sc with scComp := comp }
      | (some data, comp) =>
        let first := m.take 2 ++ [0, PPP_IP.setWidth 8] ++ data
        pppQueue line PPP_IP (ilen + first.length - m.length)
          { sc with scM := sc.scM.modifyHead (fun m => { m with data := first }), scComp := comp }
  else pppQueue line proto ilen sc

def pppDrop (sc : PppSoftc Comp) : PppSoftc Comp :=
  { sc with scM := sc.scM.modify sc.scMc fun m => { m with data := m.data.dropLast } }

def pppTrim (sc : PppSoftc Comp) : PppSoftc Comp :=
  let sc := pppDrop sc
  pppDrop
    (if (sc.scM[sc.scMc]?.map PppMbuf.data).getD [] = [] then { sc with scMc := sc.scMc - 1 }
     else sc)

def pppFlag (vj : PppVj Comp) (line : PppLine) (sc : PppSoftc Comp) : PppSoftc Comp :=
  let ilen := sc.scIlen.toInt
  let sc := { sc with scIlen := 0 }
  if sc.flush ∨ ilen > 0 ∧ sc.scFcs ≠ PPP_GOODFCS then { sc with scComp := vj.error sc.scComp,
                                                                 flush := false }
  else if ilen < (PPP_HEADER_LEN + PPP_FCS_LEN : Nat) then sc
  else pppPacket vj line (ilen - 2) (pppTrim sc)

def pppFlush (sc : PppSoftc Comp) : PppSoftc Comp := { sc with flush := true }

def pppMp (c : Char8) (sc : PppSoftc Comp) : PppSoftc Comp :=
  { sc with scM := sc.scM.modify sc.scMc fun m => { m with data := m.data ++ [c] } }

def pppStore (c : Char8) (sc : PppSoftc Comp) : PppSoftc Comp :=
  let ilen := sc.scIlen + 1
  let mru := sc.scMru.toInt
  let sc := { sc with scIlen := ilen }
  if ilen.toInt > mru + (PPP_HEADER_LEN + PPP_FCS_LEN : Nat) then pppFlush sc
  else
    let full := (sc.scM[sc.scMc]?.map fun m => decide (m.size ≤ m.off + m.data.length)).getD true
    if full then
      if sc.scM.length ≤ sc.scMc + 1 then pppFlush { sc with scMc := sc.scMc + 1 }
      else
        let sc := { sc with
          scM := sc.scM.modify (sc.scMc + 1) fun m => { m with off := 0, data := [] }
          scMc := sc.scMc + 1 }
        { pppMp c sc with scFcs := PPP_FCS sc.scFcs c }
    else { pppMp c sc with scFcs := PPP_FCS sc.scFcs c }

def pppHeaderOctet (c : Char8) (sc : PppSoftc Comp) : PppSoftc Comp :=
  if sc.scIlen = 1 ∧ c ≠ PPP_UI then pppFlush sc
  else
    let sc :=
      if sc.scIlen = 2 ∧ c &&& 1 = 1 then { pppMp 0 sc with scIlen := sc.scIlen + 1 } else sc
    if sc.scIlen = 3 ∧ c &&& 1 = 0 then pppFlush sc else pppStore c sc

/-- `pppinput` on an octet of a packet; none where it follows a NULL `sc_m`. -/
def pppOctet (c : Char8) (sc : PppSoftc Comp) : Option (PppSoftc Comp) :=
  if sc.scIlen = 0 then
    match sc.scM with
    | [] => none
    | m :: rest =>
      let sc := { sc with scM := { m with off := HDROFF, data := [] } :: rest, scMc := 0,
                          scFcs := PPP_INITFCS }
      if c ≠ PPP_ALLSTATIONS then
        if sc.rejCompAc then some (pppFlush sc)
        else some (pppHeaderOctet c { pppMp PPP_UI (pppMp PPP_ALLSTATIONS sc) with scIlen := 2 })
      else some (pppHeaderOctet c sc)
  else some (pppHeaderOctet c sc)

def pppinput (vj : PppVj Comp) (line : PppLine) (c : BitVec 32) (sc : PppSoftc Comp) :
    Option (PppSoftc Comp) :=
  if c &&& TTY_FE ≠ 0 then some (pppFlush sc)
  else
    let c : Char8 := c.setWidth 8
    if c = PPP_FLAG then some (pppFlag vj line sc)
    else if sc.flush then some sc
    else if c = PPP_ESCAPE then some { sc with escaped := true }
    else if c.toNat < 0x20 ∧ sc.scRasyncmap.getLsbD c.toNat then some sc
    else if sc.escaped then pppOctet (c ^^^ PPP_TRANS) { sc with escaped := false }
    else pppOctet c sc

def pppReceive (vj : PppVj Comp) (arrivals : List (PppLine × BitVec 32)) (sc : PppSoftc Comp) :
    Option (PppSoftc Comp) :=
  arrivals.foldl (fun sc arrival => sc.bind (pppinput vj arrival.1 arrival.2)) (some sc)

/-- `PPPIOCSMRU` with a value it takes; `sc_mru` is a `short`. -/
def pppSetMru (line : PppLine) (mru : Nat) (sc : PppSoftc Comp) : PppSoftc Comp :=
  if PPP_MRU ≤ mru ∧ mru ≤ PPP_MAXMRU then
    match pppinit line.init line.clusters sc.scM (BitVec.ofNat 16 mru) with
    | some scM => { sc with scM := scM, scMru := BitVec.ofNat 16 mru }
    | none =>
      match pppinit line.again line.clusters [] (BitVec.ofNat 16 PPP_MRU) with
      | some scM => { sc with scM := scM, scMru := BitVec.ofNat 16 PPP_MRU }
      | none => { sc with scM := [], scMru := BitVec.ofNat 16 PPP_MRU, up := false }
  else sc

end Model

end FreeBsd.Net
