import Mathlib
import FreeBsd.Lib.Tiles
import FreeBsd.Lib.Word

/-! Fragmentation in `ip_output` and reassembly in `ipintr` and `ip_reass`, for packets
without options that are addressed to the host. A packet is its header in host byte
order and the bytes behind it; of the mbufs it lies in there is what `ipintr` looks at, and
checksums, which the sender computes and the receiver finds correct, are left out. -/
namespace FreeBsd.Netinet

open FreeBsd.Lib (wrap16 contiguous)

abbrev Byte := BitVec 8

structure Ip where
  hl : Nat
  tos : BitVec 8
  len : BitVec 16
  id : BitVec 16
  off : BitVec 16
  ttl : BitVec 8
  p : BitVec 8
  src : BitVec 32
  dst : BitVec 32
  deriving DecidableEq, Repr

def IP_DF : BitVec 16 := 0x4000
def IP_MF : BitVec 16 := 0x2000

structure Packet where
  ip : Ip
  data : List Byte
  deriving DecidableEq, Repr

inductive Errno where
  | emsgsize
  deriving DecidableEq, Repr

def sizeofIp : Nat := 20

/-- `mhip->ip_off` of the fragment at `off`, before `htons`. -/
def fragOff (ip : Ip) (off : Nat) (more : Bool) : BitVec 16 :=
  let field := BitVec.ofNat 16 ((off - sizeofIp) / 8) + (ip.off &&& ~~~ IP_MF)
  let field := if ip.off &&& IP_MF ≠ 0 then field ||| IP_MF else field
  if more then field ||| IP_MF else field

/-- The loop over the fragments behind the first. The last one gets what is left, and
its length ends the loop. -/
def fragLoop (m : Packet) : Nat → Nat → Nat → List Packet
  | 0, _, _ => []
  | fuel + 1, len, off =>
    if off < m.ip.len.toNat then
      let last := off + len ≥ m.ip.len.toNat
      let len := if last then m.ip.len.toNat - off else len
      { ip := { m.ip with off := fragOff m.ip off (¬ last),
                          len := BitVec.ofNat 16 (len + sizeofIp) }
        data := (m.data.drop (off - sizeofIp)).take len } :: fragLoop m fuel len (off + len)
    else []

/-- The part of `ip_output` that sends the packet or cuts it up. -/
def ipOutput (mtu : Nat) (m : Packet) : Except Errno (List Packet) :=
  if m.ip.len.toNat ≤ mtu then .ok [m]
  else if m.ip.off &&& IP_DF ≠ 0 then .error .emsgsize
  else
    let len := (mtu - sizeofIp) / 8 * 8
    if len < 8 then .error .emsgsize
    else
      .ok ({ ip := { m.ip with len := BitVec.ofNat 16 (sizeofIp + len), off := m.ip.off ||| IP_MF }
             data := m.data.take (m.data.length - (m.ip.len.toNat - (sizeofIp + len))) } ::
        fragLoop m m.ip.len.toNat len (sizeofIp + len))

/-- How a packet that is received lies in its mbufs: whether the first one is a cluster, whether
`m_pullup` finds an mbuf then, and `m_get` one for a new queue; `rest` are the bytes of the header
behind those that `m_pullup` copies. -/
structure Mbufs where
  ext : Bool
  pullup : Bool
  queue : Bool
  rest : List Byte
  deriving DecidableEq, Repr

/-- The bytes that `m_pullup` copies, more than the `sizeof (struct ip)` it is asked for. -/
def max_protohdr : Nat := 40

/-- `struct ipasfrag` with its data; `len` and `off` are shorts, in bytes. Where `m_len` of the
first mbuf is negative, it is `-under`, and `data` is in the mbufs behind. -/
structure Frag where
  ip : Ip
  mff : Bool
  len : Int
  off : Int
  data : List Byte
  under : Nat
  deriving DecidableEq, Repr

/-- `m_adj` by `i` bytes from the front, and the two fields. -/
def Frag.cut (i : Int) (q : Frag) : Frag :=
  { q with len := wrap16 (q.len - i), off := wrap16 (q.off + i), data :=
    q.data.drop (i.toNat + q.under), under := 0 }

/-- `struct ipq`: a reassembly queue, its fragments in the order of `ipf_next`. -/
structure Ipq where
  ttl : Nat
  p : BitVec 8
  id : BitVec 16
  src : BitVec 32
  dst : BitVec 32
  frags : List Frag
  deriving DecidableEq, Repr

def IPFRAGTTL : Nat := 60

/-- The preceding segment may provide some of our data already, or all of it. -/
def trimFront (prev : Option Frag) (ip : Frag) : Option Frag :=
  match prev with
  | none => some ip
  | some prev =>
    let i := prev.off + prev.len - ip.off
    if i > 0 then
      if i ≥ ip.len then none
      else some (ip.cut i)
    else some ip

def trimBack (ip : Frag) : List Frag → List Frag
  | [] => []
  | q :: rest =>
    if ip.off + ip.len > q.off then
      let i := ip.off + ip.len - q.off
      if i < q.len then q.cut i :: rest
      else trimBack ip rest
    else q :: rest

/-- The fragments with the new one in its place; `none` if it is dropped. -/
def enqueue (ip : Frag) (frags : List Frag) : Option (List Frag) :=
  let front := (frags.span fun q => ¬ q.off > ip.off).1
  let back := (frags.span fun q => ¬ q.off > ip.off).2
  (trimFront front.getLast? ip).map fun ip => front ++ ip :: trimBack ip back

/-- The packet made of a complete queue, its chains joined: the header of the first fragment, where
`ipf_mff` has taken the place of `ip_tos`, with all the bytes that belong to it. -/
def Ipq.packet (fp : Ipq) (first : Frag) (next : Int) : Packet :=
  { ip := { first.ip with tos := if first.mff then 1 else 0, len := BitVec.ofInt 16 next,
                          off := BitVec.ofInt 16 first.off, src := fp.src, dst := fp.dst }
    data := (fp.frags.flatMap (·.data)).drop first.under }

/-- The check for complete reassembly: what is left of the queue, and the datagram. -/
def Ipq.finish (fp : Ipq) : Option Ipq × Option Packet :=
  match contiguous Frag.off Frag.len 0 fp.frags, fp.frags.head?, fp.frags.getLast? with
  | some next, some first, some last =>
    if last.mff then (some fp, none) else (none, some (fp.packet first next))
  | _, _, _ => (some fp, none)

/-- `ip_reass`; `avail` says whether `m_get` finds an mbuf for a new queue. -/
def ipReass (avail : Bool) (ip : Frag) (fp : Option Ipq) : Option Ipq × Option Packet :=
  match fp with
  | none =>
    if avail then Ipq.finish ⟨IPFRAGTTL, ip.ip.p, ip.ip.id, ip.ip.src, ip.ip.dst, [ip]⟩
    else (none, none)
  | some fp =>
    match enqueue ip fp.frags with
    | none => (some fp, none)
    | some frags => { fp with frags := frags }.finish

def Ipq.holds (fp : Ipq) (ip : Ip) : Bool :=
  ip.id = fp.id ∧ ip.src = fp.src ∧ ip.dst = fp.dst ∧ ip.p = fp.p

def Packet.frag (m : Packet) : Frag :=
  ⟨m.ip, m.ip.off &&& IP_MF ≠ 0, wrap16 (m.ip.len.toInt - m.ip.hl * 4), (m.ip.off <<< 3).toInt,
    m.data, 0⟩

/-- The same once `ip_reass` has taken the header off the first mbuf, which after `m_pullup` has no
more than `max_protohdr` bytes of it. -/
def Packet.inMbufs (m : Packet) (b : Mbufs) : Frag :=
  if b.ext ∧ max_protohdr < m.ip.hl * 4 then
    { m.frag with data := b.rest ++ m.data, under := m.ip.hl * 4 - max_protohdr }
  else m.frag

def Packet.deliver (m : Packet) : Packet :=
  { m with ip := { m.ip with len := BitVec.ofInt 16 (m.ip.len.toInt - m.ip.hl * 4) } }

def Packet.unfragmented (m : Packet) : Packet :=
  { m.deliver with ip := { m.deliver.ip with tos := 0, off := m.ip.off <<< 3 } }

/-- `ipintr` on a packet for this host: the reassembly queues, and what goes to the
protocol's input routine. -/
def ipintr (b : Mbufs) (ipq : List Ipq) (m : Packet) : List Ipq × Option Packet :=
  let hlen := m.ip.hl * 4
  let len := m.ip.len.toInt
  if hlen < sizeofIp then (ipq, none)
  else if len < hlen then (ipq, none)
  else if (hlen + m.data.length : Int) < len then (ipq, none)
  else
    let m := { m with data := m.data.take (len - hlen).toNat }
    if m.ip.off &&& ~~~ IP_DF = 0 then (ipq, some m.deliver)
    else if b.ext ∧ ¬ b.pullup then (ipq, none)
    else
      let before := (ipq.span fun fp => ¬ fp.holds m.ip).1
      match (ipq.span fun fp => ¬ fp.holds m.ip).2 with
      | [] =>
        if m.frag.mff = true ∨ m.frag.off ≠ (0 : Int) then
          -- insque puts a new queue at the head of the list
          ((ipReass b.queue (m.inMbufs b) none).1.toList ++ ipq,
            (ipReass b.queue (m.inMbufs b) none).2)
        else (ipq, some m.unfragmented)
      | fp :: after =>
        if m.frag.mff = true ∨ m.frag.off ≠ (0 : Int) then
          (before ++ ((ipReass b.queue (m.inMbufs b) (some fp)).1.toList ++ after),
            (ipReass b.queue (m.inMbufs b) (some fp)).2)
        else (before ++ after, some m.unfragmented)

/-- A sequence of packets through `ipintr`: the queues left and the answer to each. -/
def receive : List Ipq → List (Mbufs × Packet) → List Ipq × List (Option Packet)
  | ipq, [] => (ipq, [])
  | ipq, (b, m) :: rest =>
    let step := ipintr b ipq m
    ((receive step.1 rest).1, step.2 :: (receive step.1 rest).2)

end FreeBsd.Netinet
