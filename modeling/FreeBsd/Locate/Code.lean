import Mathlib.Data.BitVec
import Mathlib.Tactic.Common

/-! `locate.code`, which packs a sorted list of paths, and the decoding in `fastfind` of `locate`.
-/
namespace FreeBsd.Locate

abbrev Byte := BitVec 8

section Constants

def NBG : Nat := 128
def OFFSET : Int := 14
def PARITY : Nat := 0x80
def SWITCH : Nat := 30
def MAXPATHLEN : Nat := 1024
def BGBUFSIZE : Nat := NBG * 2

end Constants

section Stdio

def cstring (s : List Byte) : List Byte := s.takeWhile (· ≠ 0)

/-- The loop of `fgets`, with room for `n` more characters. -/
def getLine : Nat → List Byte → List Byte × List Byte
  | 0, stream => ([], stream)
  | _, [] => ([], [])
  | n + 1, c :: stream =>
    if c = 0x0a then ([c], stream) else (c :: (getLine n stream).1, (getLine n stream).2)

/-- `fgets(buf, size, fp)`: what it stores before the NUL, and what is left to read. -/
def fgets (size : Nat) (stream : List Byte) : Option (List Byte × List Byte) :=
  if stream = [] then none else some (getLine (size - 1) stream)

def putw (w : Int) : List Byte :=
  let n := (w % 2 ^ 32).toNat
  [.ofNat 8 n, .ofNat 8 (n / 2 ^ 8), .ofNat 8 (n / 2 ^ 16), .ofNat 8 (n / 2 ^ 24)]

def getw : List Byte → Int × List Byte
  | a :: b :: c :: d :: stream =>
    let n : Nat := a.toNat + b.toNat * 2 ^ 8 + c.toNat * 2 ^ 16 + d.toNat * 2 ^ 24
    (if n < 2 ^ 31 then (n : Int) else (n : Int) - 2 ^ 32, stream)
  | _ => (-1, [])

end Stdio

section Code

/-- The characters that would botch the decoding; a `char` is signed. -/
def squelch (c : Byte) : Byte :=
  if c.toNat ≥ PARITY then c &&& 0x7f
  else if c.toNat ≤ SWITCH then 0x3f
  else c

/-- The path in the buffer, of what `fgets` has stored there. -/
def buffer (stored : List Byte) : List Byte :=
  let path := cstring stored
  let path := if 1 < path.length ∧ path.getLast? = some 0x0a then path.dropLast else path
  cstring (path.map squelch)

def skip : (path oldpath : List Byte) → Nat
  | a :: path, b :: oldpath => if a = b then skip path oldpath + 1 else 0
  | _, _ => 0

def bgindexFrom (bg0 bg1 : Byte) : (bigrams : List Byte) → (p : Nat) → Option Nat
  | a :: b :: bigrams, p => if a = bg0 ∧ b = bg1 then some p else bgindexFrom bg0 bg1 bigrams
    (p + 2)
  | _, _ => none

/-- The location of the bigram, or none where the code has -1. -/
def bgindex (bigrams : List Byte) (bg0 bg1 : Byte) :
    Option Nat := bgindexFrom bg0 bg1 (cstring bigrams) 0

def putResidue (bigrams : List Byte) : List Byte → List Byte
  | [] => []
  | [c] => [c]
  | a :: b :: path =>
    match bgindex bigrams a b with
    | none => a :: b :: putResidue bigrams path
    | some code => (.ofNat 8 (code / 2) ||| .ofNat 8 PARITY) :: putResidue bigrams path

def putCount (diffcount : Int) : List Byte :=
  if diffcount < 0 ∨ diffcount > 2 * OFFSET then .ofNat 8 SWITCH :: putw diffcount
  else [.ofNat 8 diffcount.toNat]

/-- The `while` loop, which reads a character at least in each round. -/
def codePaths (bigrams : List Byte) : (rounds : Nat) → (oldpath : List Byte) → (oldcount : Int) →
    List Byte → List Byte
  | 0, _, _, _ => []
  | n + 1, oldpath, oldcount, stream =>
    match fgets MAXPATHLEN stream with
    | none => []
    | some (stored, stream) =>
      let path := buffer stored
      let count := skip path oldpath
      putCount (count - oldcount + OFFSET) ++ putResidue bigrams (path.drop count) ++
        codePaths bigrams n path count stream

/-- `main`, of the file of bigrams and the standard input. -/
def code (file stdin : List Byte) : List Byte :=
  let bigrams := ((fgets (BGBUFSIZE + 1) file).map Prod.fst).getD []
  (bigrams ++ List.replicate BGBUFSIZE 0).take BGBUFSIZE ++ codePaths bigrams stdin.length
    [0x20] 0 stdin

end Code

section Decoding

def getResidue (bigram1 bigram2 : List Byte) : List Byte → List Byte × List Byte
  | [] => ([], [])
  | c :: stream =>
    if c.toNat > SWITCH then
      let later := getResidue bigram1 bigram2 stream
      if c.toNat < PARITY then (c :: later.1, later.2)
      else
        let c := (c &&& 0x7f).toNat
        (bigram1.getD c 0 :: bigram2.getD c 0 :: later.1, later.2)
    else ([], c :: stream)

def overlay (path : Nat → Byte) (count : Nat) (residue : List Byte) : Nat → Byte := fun i =>
  if i < count then path i else if i ≤ count + residue.length then residue.getD
    (i - count) 0 else path i

/-- The string that stands at `i`, in a buffer of `n` bytes from there on. -/
def string (path : Nat → Byte) : (n i : Nat) → List Byte
  | 0, _ => []
  | n + 1, i => if path i = 0 then [] else path i :: string path n (i + 1)

/-- The `for` loop, with the paths as they are found; none where it stores outside of its buffer. -/
def decodePaths (bigram1 bigram2 : List Byte) : (rounds : Nat) → (path : Nat → Byte) →
    (count : Int) → List Byte →
    Option (List (List Byte))
  | _, _, _, [] => some []
  | 0, _, _, _ => none
  | n + 1, path, count, c :: stream =>
    let word := if c.toNat = SWITCH then getw stream else (↑c.toNat, stream)
    let count := count + (word.1 - OFFSET)
    let residue := getResidue bigram1 bigram2 word.2
    if count < 0 ∨ count + residue.1.length ≥ MAXPATHLEN then none
    else
      let path := overlay path count.toNat residue.1
      (decodePaths bigram1 bigram2 n path count residue.2).map fun paths =>
        string path MAXPATHLEN 0 :: paths

def bigramsAt (second : Nat) (stream : List Byte) : List Byte :=
  (List.range NBG).map fun c => stream.getD (2 * c + second) 0xff

/-- The decoding of a database; `path` is what the stack holds. -/
def decode (path : Nat → Byte) (stream : List Byte) : Option (List (List Byte)) :=
  let paths := stream.drop (2 * NBG)
  decodePaths (bigramsAt 0 stream) (bigramsAt 1 stream) paths.length path 0 paths

end Decoding

section Inputs

structure Table where
  bytes : List Byte
  full : bytes.length = BGBUFSIZE
  between : ∀ c ∈ bytes, SWITCH < c.toNat ∧ c.toNat < PARITY

structure Path where
  bytes : List Byte
  slash : bytes.head? = some 0x2f
  proper : ∀ c ∈ bytes, c ≠ 0 ∧ c ≠ 0x0a
  short : bytes.length < MAXPATHLEN - 1

def Path.lines (paths : List Path) : List Byte := paths.flatMap fun path => path.bytes ++ [0x0a]

end Inputs

end FreeBsd.Locate
