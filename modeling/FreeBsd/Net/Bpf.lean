import Mathlib.Data.BitVec
import FreeBsd.Lib.Machine

/-! The instruction encodings of `net/bpf.h`. A code is a 16-bit number; the
labels of the interpreter's switch are the or-ed constants below, and a code
that carries no label falls into its `default` branch. -/
namespace FreeBsd.Net

abbrev Byte := BitVec 8
abbrev Word := BitVec 32

/-- `struct bpf_insn`: `u_short code`, `u_char jt, jf`, `long k`. -/
structure BpfInsn where
  code : BitVec 16
  jt : Byte
  jf : Byte
  k : Word
  deriving DecidableEq, Repr

namespace Bpf

def LD : BitVec 16 := 0x00
def LDX : BitVec 16 := 0x01
def ST : BitVec 16 := 0x02
def STX : BitVec 16 := 0x03
def ALU : BitVec 16 := 0x04
def JMP : BitVec 16 := 0x05
def RET : BitVec 16 := 0x06
def MISC : BitVec 16 := 0x07

def W : BitVec 16 := 0x00
def H : BitVec 16 := 0x08
def B : BitVec 16 := 0x10

def IMM : BitVec 16 := 0x00
def ABS : BitVec 16 := 0x20
def IND : BitVec 16 := 0x40
def MEM : BitVec 16 := 0x60
def LEN : BitVec 16 := 0x80
def MSH : BitVec 16 := 0xa0

def ADD : BitVec 16 := 0x00
def SUB : BitVec 16 := 0x10
def MUL : BitVec 16 := 0x20
def DIV : BitVec 16 := 0x30
def OR : BitVec 16 := 0x40
def AND : BitVec 16 := 0x50
def LSH : BitVec 16 := 0x60
def RSH : BitVec 16 := 0x70
def NEG : BitVec 16 := 0x80

def JA : BitVec 16 := 0x00
def JEQ : BitVec 16 := 0x10
def JGT : BitVec 16 := 0x20
def JGE : BitVec 16 := 0x30
def JSET : BitVec 16 := 0x40

def K : BitVec 16 := 0x00
def X : BitVec 16 := 0x08
def A : BitVec 16 := 0x10

def TAX : BitVec 16 := 0x00
def TXA : BitVec 16 := 0x80

/-- `BPF_CLASS`, `BPF_OP` and the mode mask `code & 0xe0`. -/
def classOf (code : BitVec 16) : BitVec 16 := code &&& 0x07
def opOf (code : BitVec 16) : BitVec 16 := code &&& 0xf0
def modeOf (code : BitVec 16) : BitVec 16 := code &&& 0xe0

def memWords : Nat := 16

inductive Size where
  | w | h | b
  deriving DecidableEq, Repr

inductive Mode where
  | abs | ind
  deriving DecidableEq, Repr

inductive Src where
  | k | x
  deriving DecidableEq, Repr

inductive Cond where
  | gt | ge | eq | set
  deriving DecidableEq, Repr

inductive AluOp where
  | add | sub | mul | div | and | or | lsh | rsh
  deriving DecidableEq, Repr

/-- The labelled cases of the switch in `bpf_filter`. -/
inductive Op where
  | retK | retA
  | load (size : Size) (mode : Mode)
  | ldLen | ldxLen
  | ldxMsh
  | ldImm | ldxImm
  | ldMem | ldxMem
  | st | stx
  | ja
  | jump (c : Cond) (s : Src)
  | alu (o : AluOp) (s : Src)
  | neg
  | tax | txa
  deriving DecidableEq, Repr

def Size.code : Size → BitVec 16
  | .w => W | .h => H | .b => B

def Mode.code : Mode → BitVec 16
  | .abs => ABS | .ind => IND

def Src.code : Src → BitVec 16
  | .k => K | .x => X

def Cond.code : Cond → BitVec 16
  | .gt => JGT | .ge => JGE | .eq => JEQ | .set => JSET

def AluOp.code : AluOp → BitVec 16
  | .add => ADD | .sub => SUB | .mul => MUL | .div => DIV
  | .and => AND | .or => OR | .lsh => LSH | .rsh => RSH

def Op.code : Op → BitVec 16
  | .retK => RET ||| K
  | .retA => RET ||| A
  | .load s m => LD ||| s.code ||| m.code
  | .ldLen => LD ||| W ||| LEN
  | .ldxLen => LDX ||| W ||| LEN
  | .ldxMsh => LDX ||| MSH ||| B
  | .ldImm => LD ||| IMM
  | .ldxImm => LDX ||| IMM
  | .ldMem => LD ||| MEM
  | .ldxMem => LDX ||| MEM
  | .st => ST
  | .stx => STX
  | .ja => JMP ||| JA
  | .jump c s => JMP ||| c.code ||| s.code
  | .alu o s => ALU ||| o.code ||| s.code
  | .neg => ALU ||| NEG
  | .tax => MISC ||| TAX
  | .txa => MISC ||| TXA

def Op.all : List Op :=
  [.retK, .retA,
   .load .w .abs, .load .h .abs, .load .b .abs, .ldLen, .ldxLen,
   .load .w .ind, .load .h .ind, .load .b .ind, .ldxMsh,
   .ldImm, .ldxImm, .ldMem, .ldxMem, .st, .stx, .ja] ++
  [Src.k, .x].flatMap (fun s => [Cond.gt, .ge, .eq, .set].map (fun c => .jump c s)) ++
  [Src.x, .k].flatMap (fun s =>
    [AluOp.add, .sub, .mul, .div, .and, .or, .lsh, .rsh].map (fun o => .alu o s)) ++
  [.neg, .tax, .txa]

/-- The case a `switch (pc->code)` selects; `none` is `default`. -/
def decode (code : BitVec 16) : Option Op := Op.all.find? (fun op => op.code = code)

theorem decode_code {code : BitVec 16} {op : Op} (selected : decode code = some op) :
    op.code = code := by
  have h := List.find?_some selected
  simpa using h

theorem decode_label : ∀ op ∈ Op.all, decode op.code = some op := by decide

theorem mem_all (op : Op) : op ∈ Op.all := by
  cases op with
  | load s m => cases s <;> cases m <;> decide
  | jump c s => cases c <;> cases s <;> decide
  | alu o s => cases o <;> cases s <;> decide
  | _ => decide

theorem decode_eq_some_iff (code : BitVec 16) (op : Op) :
    decode code = some op ↔ code = op.code := by
  constructor
  · exact fun h => (decode_code h).symm
  · rintro rfl
    exact decode_label op (mem_all op)

end Bpf

end FreeBsd.Net
