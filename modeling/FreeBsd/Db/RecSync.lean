import FreeBsd.Db.RecFixed

/-! What `__rec_sync` writes, and what is read of it where the file is opened again. -/
namespace FreeBsd.Db.Rec

open FreeBsd.Lib

section Model

/-- The fields of `RECNOINFO` that the readers use, and the flag R_FIXEDLEN. -/
structure Recnoinfo where
  fixedlen : Bool
  reclen : Nat
  bval : UInt8

def fixlen (openinfo : Option Recnoinfo) : Bool := openinfo.any (·.fixedlen)

def delim (openinfo : Option Recnoinfo) : UInt8 := openinfo.elim 10 (·.bval)

def length (openinfo : Option Recnoinfo) : Nat :=
  openinfo.elim 0 fun info => if info.fixedlen then info.reclen else 0

/-- `bt_irec`. There is no buffer in a new tree, so `realloc` gives one that is somewhere else. -/
def irec (fixlen mapped : Bool) : Btree → Nat → Except Fault (Btree × Status) :=
  if mapped then
    if fixlen then recFmap true else fun t top => .ok (recVmap t top)
  else
    if fixlen then recFpipe true else fun t top => .ok (recVpipe t top)

end Model

section Reload

variable {openinfo : Option Recnoinfo} {records : List Bytes} {mapped : Bool} {dbuf : Nat → UInt8}
    {t : Btree}

variable {bval : UInt8}

end Reload

end FreeBsd.Db.Rec
