import FreeBsd.Lib.Word
import FreeBsd.Net.Bpf

/-! The interpreter `bpf_filter` of `net/bpf_filter.c`, in the `KERNEL` build on
a machine without `BPF_ALIGN`. The packet argument is either a buffer of
`buflen` bytes or, when `buflen` is zero, a chain of mbufs. An access that leaves
the program, the scratch memory or the buffer ends the run with a fault: the C
code has no defined behaviour there. -/
namespace FreeBsd.Net

open FreeBsd.Lib (Outcome)

/-- The part of an mbuf the filter reads: `m_len`, and the memory that
`mtod(m, u_char *)[i]` reads at every index, inside the data or not. -/
structure Mbuf where
  len : Nat
  mem : Int → Byte

def Mbuf.data (m : Mbuf) : List Byte := (List.range m.len).map (fun i : Nat => m.mem i)
def flat (chain : List Mbuf) : List Byte := chain.flatMap Mbuf.data

inductive Packet where
  | buf (bytes : List Byte)
  | chain (m : List Mbuf)

/-- The `buflen` argument the callers pass with each kind of packet. -/
def Packet.buflen : Packet → Word
  | .buf bytes => BitVec.ofNat 32 bytes.length
  | .chain _ => 0

inductive Fault where
  | pc | mem | load | div
  deriving DecidableEq, Repr

/-- What a packet load does: give a value, `return 0`, or read out of bounds. -/
inductive Load where
  | val (v : Word)
  | reject
  | fault
  deriving DecidableEq, Repr

/-- `EXTRACT_SHORT` and `EXTRACT_LONG`: network byte order. -/
def extractShort (a b : Byte) : Word := a.setWidth 32 <<< 8 ||| b.setWidth 32
def extractLong (a b c d : Byte) : Word :=
  a.setWidth 32 <<< 24 ||| b.setWidth 32 <<< 16 ||| c.setWidth 32 <<< 8 ||| d.setWidth 32

def byteAt (bytes : List Byte) (i : Int) : Option Byte :=
  if i < 0 then none else bytes[i.toNat]?

/-- The loop of `MINDEX`, `m_xword` and `m_xhalf`: the mbuf that holds offset `k`,
the chain after it and the offset inside it. -/
def mindex : List Mbuf → Int → Option (Mbuf × List Mbuf × Int)
  | [], _ => none
  | m :: rest, k => if (m.len : Int) ≤ k then mindex rest (k - m.len) else some (m, rest, k)

/-- `m_xword`; `none` is `*err = 1`. The base `cp` already includes `k`, and the
straddling cases index it by `k` once more. -/
def mXword (chain : List Mbuf) (k : Int) : Option Word :=
  match mindex chain k with
  | none => none
  | some (m, rest, k) =>
    let cp := fun i : Int => m.mem (k + i)
    if 4 ≤ m.len - k then some (extractLong (cp 0) (cp 1) (cp 2) (cp 3))
    else
      match rest with
      | [] => none
      | m0 :: _ =>
        if m0.len + m.len - k < 4 then none
        else if m.len - k = 1 then
          some (extractLong (cp k) (m0.mem 0) (m0.mem 1) (m0.mem 2))
        else if m.len - k = 2 then
          some (extractLong (cp k) (cp (k + 1)) (m0.mem 0) (m0.mem 1))
        else
          some (extractLong (cp k) (cp (k + 1)) (cp (k + 2)) (m0.mem 0))

def mXhalf (chain : List Mbuf) (k : Int) : Option Word :=
  match mindex chain k with
  | none => none
  | some (m, rest, k) =>
    let cp := fun i : Int => m.mem (k + i)
    if 2 ≤ m.len - k then some (extractShort (cp 0) (cp 1))
    else
      match rest with
      | [] => none
      | m0 :: _ => some (extractShort (cp k) (m0.mem 0))

/-- `if (buflen != 0) return 0`, before `p` is taken for an mbuf chain. -/
def noChain (p : Packet) : Load := if p.buflen ≠ 0 then .reject else .fault

/-- The value of `m_xword` or `m_xhalf`, or what follows when `merr` is set. -/
def afterMerr (bad : Load) : Option Word → Load
  | some v => .val v
  | none => bad

@[simp] theorem afterMerr_some (bad : Load) (v : Word) : afterMerr bad (some v) = .val v := rfl
@[simp] theorem afterMerr_none (bad : Load) : afterMerr bad none = bad := rfl

/-- A four byte load: the guard `k + sizeof(long) > buflen` is unsigned. -/
def loadWord (p : Packet) (k : Word) : Load :=
  if p.buflen < k + 4 then
    match p with
    | .buf _ => noChain p
    | .chain m => afterMerr .reject (mXword m k.toInt)
  else
    match p with
    | .chain _ => .fault
    | .buf bytes =>
      let i := k.toInt
      match byteAt bytes i, byteAt bytes (i + 1), byteAt bytes (i + 2), byteAt bytes (i + 3) with
      | some a, some b, some c, some d => .val (extractLong a b c d)
      | _, _, _, _ => .fault

/-- What a failing `m_xhalf` leads to: the absolute mode never looks at `merr` and
goes on with the 0 it returned. -/
def badHalf : Bpf.Mode → Load
  | .abs => .val 0
  | .ind => .reject

def loadHalf (mode : Bpf.Mode) (p : Packet) (k : Word) : Load :=
  if p.buflen < k + 2 then
    match p with
    | .buf _ => noChain p
    | .chain m => afterMerr (badHalf mode) (mXhalf m k.toInt)
  else
    match p with
    | .chain _ => .fault
    | .buf bytes =>
      match byteAt bytes k.toInt, byteAt bytes (k.toInt + 1) with
      | some a, some b => .val (extractShort a b)
      | _, _ => .fault

/-- A one byte load: `k >= buflen`, then `MINDEX` on a chain. `ofByte` and
`ofChain` widen the byte read from a buffer and from a chain. -/
def loadByte (ofByte ofChain : Byte → Word) (p : Packet) (k : Word) : Load :=
  if p.buflen ≤ k then
    match p with
    | .buf _ => noChain p
    | .chain m =>
      match mindex m k.toInt with
      | some (m, _, k) => .val (ofChain (m.mem k))
      | none => .reject
  else
    match p with
    | .chain _ => .fault
    | .buf bytes =>
      match byteAt bytes k.toInt with
      | some a => .val (ofByte a)
      | none => .fault

def ofUchar (b : Byte) : Word := b.setWidth 32
def ofChar (b : Byte) : Word := b.signExtend 32

def loadPacket (size : Bpf.Size) (mode : Bpf.Mode) (p : Packet) (k : Word) : Load :=
  match size, mode with
  | .w, _ => loadWord p k
  | .h, mode => loadHalf mode p k
  | .b, .abs => loadByte ofUchar ofUchar p k
  | .b, .ind => loadByte ofUchar ofChar p k

def loadMsh (p : Packet) (k : Word) : Load :=
  let nibble := fun b : Word => (b &&& 0xf) <<< 2
  loadByte (fun b => nibble (ofUchar b)) (fun b => nibble (ofChar b)) p k

/-- The registers and the scratch memory; `pc` is an index into the program. -/
structure Filter where
  pc : Int
  A : Word
  X : Word
  mem : Fin Bpf.memWords → Word

inductive Exit where
  | ret (v : Word)
  | fault (f : Fault)
  deriving DecidableEq, Repr

def memIndex (k : Word) : Option (Fin Bpf.memWords) :=
  if h : 0 ≤ k.toInt ∧ k.toInt < Bpf.memWords then
    some ⟨k.toInt.toNat, by omega⟩
  else none

/-- `continue`, with the increment at the head of the loop. -/
def Filter.go (s : Filter) : Outcome Filter Exit := .next { s with pc := s.pc + 1 }

def Filter.jump (s : Filter) (d : Int) : Outcome Filter Exit := .next { s with pc := s.pc + d + 1 }

/-- The end of a load case: store the value, `return 0`, or fault. -/
def afterLoad (l : Load) (put : Word → Filter) : Outcome Filter Exit :=
  match l with
  | .val v => (put v).go
  | .reject => .halt (.ret 0)
  | .fault => .halt (.fault .load)

def atMem (k : Word) (use : Fin Bpf.memWords → Filter) : Outcome Filter Exit :=
  match memIndex k with
  | some i => (use i).go
  | none => .halt (.fault .mem)

def Bpf.Cond.holds (a b : Word) : Bpf.Cond → Bool
  | .gt => b < a
  | .ge => b ≤ a
  | .eq => a = b
  | .set => a &&& b ≠ 0

/-- The binary operators; the two division cases guard theirs first. A shift
counts modulo 32, as the machine instruction does. -/
def Bpf.AluOp.apply (a b : Word) : Bpf.AluOp → Word
  | .add => a + b
  | .sub => a - b
  | .mul => a * b
  | .div => a / b
  | .and => a &&& b
  | .or => a ||| b
  | .lsh => a <<< (b.toNat % 32)
  | .rsh => a >>> (b.toNat % 32)

def Bpf.Src.value (i : BpfInsn) (s : Filter) : Bpf.Src → Word
  | .k => i.k
  | .x => s.X

def Bpf.Mode.offset (i : BpfInsn) (s : Filter) : Bpf.Mode → Word
  | .abs => i.k
  | .ind => s.X + i.k

def exec (op : Bpf.Op) (i : BpfInsn) (p : Packet) (wirelen : Word) (s : Filter) :
    Outcome Filter Exit :=
  match op with
  | .retK => .halt (.ret i.k)
  | .retA => .halt (.ret s.A)
  | .load size mode =>
    afterLoad (loadPacket size mode p (mode.offset i s)) (fun v => { s with A := v })
  | .ldLen => ({ s with A := wirelen }).go
  | .ldxLen => ({ s with X := wirelen }).go
  | .ldxMsh => afterLoad (loadMsh p i.k) (fun v => { s with X := v })
  | .ldImm => ({ s with A := i.k }).go
  | .ldxImm => ({ s with X := i.k }).go
  | .ldMem => atMem i.k (fun j => { s with A := s.mem j })
  | .ldxMem => atMem i.k (fun j => { s with X := s.mem j })
  | .st => atMem i.k (fun j => { s with mem := Function.update s.mem j s.A })
  | .stx => atMem i.k (fun j => { s with mem := Function.update s.mem j s.X })
  | .ja => s.jump i.k.toInt
  | .jump c src =>
    s.jump (if c.holds s.A (src.value i s) then i.jt.toNat else i.jf.toNat)
  | .alu .div .x =>
    if s.X = 0 then .halt (.ret 0) else ({ s with A := Bpf.AluOp.div.apply s.A s.X }).go
  | .alu .div .k =>
    if i.k = 0 then .halt (.fault .div)
    else ({ s with A := Bpf.AluOp.div.apply s.A i.k }).go
  | .alu o src => ({ s with A := o.apply s.A (src.value i s) }).go
  | .neg => ({ s with A := - s.A }).go
  | .tax => ({ s with X := s.A }).go
  | .txa => ({ s with A := s.X }).go

def fetch (f : List BpfInsn) (pc : Int) : Option BpfInsn :=
  if pc < 0 then none else f[pc.toNat]?

/-- One turn of `while (1)`. The `default` case returns 0. -/
def filterStep (f : List BpfInsn) (p : Packet) (wirelen : Word) (s : Filter) :
    Outcome Filter Exit :=
  match fetch f s.pc with
  | none => .halt (.fault .pc)
  | some i =>
    match Bpf.decode i.code with
    | none => .halt (.ret 0)
    | some op => exec op i p wirelen s

/-- `bpf_filter`. No filter means accept all. The registers and the scratch memory
start with whatever the stack held. -/
def bpfFilter (pc : Option (List BpfInsn)) (p : Packet) (wirelen : Word) (A X : Word)
    (mem : Fin Bpf.memWords → Word) (fuel : Nat) : Option Exit :=
  match pc with
  | none => some (.ret (-1))
  | some f => FreeBsd.Lib.run (filterStep f p wirelen) fuel ⟨0, A, X, mem⟩

end FreeBsd.Net
