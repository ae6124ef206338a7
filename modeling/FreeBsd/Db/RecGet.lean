import FreeBsd.Db.Db
import FreeBsd.Lib.Delimited

/-! The functions that read the records of a recno file: from a pipe or from mapped memory, of
variable or of fixed length. The tree is the list of its records, and memory can be had. -/
namespace FreeBsd.Db.Rec

open FreeBsd.Lib

section Model

/-- `input` is what `bt_rfp` has not given yet, or what lies from `bt_cmap` to `bt_emap`; `dbuf` are
the bytes from `bt_dbuf` on, of which `dbufsz` are allocated. -/
structure Btree where
  recs : List Bytes
  input : Bytes
  dbuf : Nat → UInt8
  dbufsz : Nat
  reclen : Nat
  bval : UInt8
  eof : Bool

inductive Status where
  | success
  | special
  deriving DecidableEq

def Btree.iput (t : Btree) (data : Bytes) : Btree := { t with recs := t.recs ++ [data] }

def Btree.data (t : Btree) (n : Nat) : Bytes := (List.range n).map t.dbuf

def Btree.store (t : Btree) (p : Nat) (ch : UInt8) :
    Btree := { t with dbuf := Function.update t.dbuf p ch }

/-- The loop of `__rec_vpipe` that reads a record up to `p`; `true` comes with the end of file. -/
def vpipeRecord : Bytes → Btree → Nat → Nat → Btree × Nat × Bool
  | [], t, p, _ => ({ t with input := [] }, p, true)
  | ch :: rest, t, p, sz =>
    if ch = t.bval then ({ t with input := rest }, p, false)
    -- len is an indx_t
    else if sz = 0 then
      vpipeRecord rest ({ t with dbufsz := t.dbufsz + 256 }.store (p % 2 ^ 16) ch) (p % 2 ^ 16 + 1)
        255
    else vpipeRecord rest (t.store p ch) (p + 1) (sz - 1)

/-- The loop of `__rec_vpipe` over the records that are still asked for. -/
def vpipeLoop : Nat → Btree → Btree × Status
  | 0, t => (t, .success)
  | n + 1, t =>
    match vpipeRecord t.input t 0 t.dbufsz with
    | (t, size, true) => ({ if size = 0 then t else t.iput (t.data size) with eof := true },
      .special)
    | (t, size, false) => vpipeLoop n (t.iput (t.data size))

def recVpipe (t : Btree) (top : Nat) : Btree × Status := vpipeLoop (top - t.recs.length) t

def schar (ch : UInt8) : Int := if ch.toNat < 128 then ch.toNat else (ch.toNat : Int) - 256

/-- The loop of `__rec_vmap`. `bt_cmap` is set to `sp` when it comes to its end. -/
def vmapLoop : Nat → Btree → Bytes → Btree × Status
  | 0, t, sp => ({ t with input := sp }, .success)
  | _ + 1, t, [] => ({ t with eof := true }, .special)
  | n + 1, t, sp =>
    vmapLoop n (t.iput (sp.takeWhile fun ch => schar ch ≠ t.bval.toNat))
      ((sp.dropWhile fun ch => schar ch ≠ t.bval.toNat).drop 1)

def recVmap (t : Btree) (top : Nat) : Btree × Status := vmapLoop (top - t.recs.length) t t.input

/-- The loop of `__rec_fpipe` that reads a record, with `len` bytes to come. -/
def fpipeRecord : Bytes → Btree → Nat → Nat → Btree × Bool
  | [], t, _, _ => ({ t with input := [] }, true)
  | ch :: rest, t, p, len =>
    if len = 0 then ({ t with input := rest }, false) else fpipeRecord rest (t.store p ch) (p + 1)
      (len - 1)

/-- `data.data` is the buffer of before; `lost` is set where `realloc` has moved that. -/
def fpipeLoop (lost : Bool) : Nat → Btree → Except Fault (Btree × Status)
  | 0, t => .ok (t, .success)
  | n + 1, t =>
    let (t, ends) := fpipeRecord t.input t 0 t.reclen
    if lost then .error .astray
    else
      let t := t.iput (t.data t.reclen)
      if ends then .ok ({ t with eof := true }, .special) else fpipeLoop lost n t

def Btree.grow (t : Btree) : Btree := { t with dbufsz := max t.dbufsz t.reclen }

/-- `__rec_fpipe(t, top)`; `moves` tells whether `realloc` moves the buffer. -/
def recFpipe (moves : Bool) (t : Btree) (top : Nat) : Except Fault (Btree × Status) :=
  fpipeLoop (moves && decide (t.dbufsz < t.reclen)) (top - t.recs.length) t.grow

/-- The loop of `__rec_fmap` that copies a record: where `p` and `sp` are then, and `len`, a
`size_t`. -/
def fmapRecord : Bytes → Btree → Nat → Nat → Btree × Nat × Bytes × Nat
  | [], t, p, len => (t, p, [], len)
  | ch :: rest, t, p, len =>
    if len = 0 then (t, p, ch :: rest, 2 ^ 32 - 1) else fmapRecord rest (t.store p ch) (p + 1)
      (len - 1)

def Btree.memset (t : Btree) (p : Nat) (c : UInt8) (len : Nat) : Except Fault Btree :=
  if p + len > t.dbufsz then .error .astray
  else .ok { t with dbuf := fun i => if p ≤ i ∧ i < p + len then c else t.dbuf i }

def fmapLoop (lost : Bool) : Nat → Btree → Bytes → Except Fault (Btree × Status)
  | 0, t, sp => .ok ({ t with input := sp }, .success)
  | _ + 1, t, [] => .ok ({ t with eof := true }, .special)
  | n + 1, t, sp => do
    let (t, p, sp, len) := fmapRecord sp t 0 t.reclen
    let t ← t.memset p t.bval len
    if lost then .error .astray else fmapLoop lost n (t.iput (t.data t.reclen)) sp

def recFmap (moves : Bool) (t : Btree) (top : Nat) : Except Fault (Btree × Status) :=
  fmapLoop (moves && decide (t.dbufsz < t.reclen)) (top - t.recs.length) t.grow t.input

/-- What `__rec_get` does about each of these numbers of records: a reader is only called for
records that are not there yet, and no more once R_EOF is set. -/
def requests (irec : Btree → Nat → Except Fault (Btree × Status)) :
    List Nat → Btree → Except Fault (Btree × List Status)
  | [], t => .ok (t, [])
  | top :: tops, t => do
    let (t, status) ←
      if top ≤ t.recs.length then .ok (t, .success) else if t.eof then .ok (t,
        .special) else irec t top
    let (t, later) ← requests irec tops t
    .ok (t, status :: later)

end Model

end FreeBsd.Db.Rec
