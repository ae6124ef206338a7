import FreeBsd.Db.Db

/-! The sizes of the items on the pages of btree and recno trees. -/
namespace FreeBsd.Db.Bt

def BTDATAOFF : Nat := 20
def INDX : Nat := 2

def LALIGN (n : Nat) : Nat := (n + 3) / 4 * 4
def NBINTERNAL (len : Nat) : Nat := LALIGN (4 + 4 + 1 + len)
def NRINTERNAL : Nat := LALIGN (4 + 4)
def NBLEAFDBT (ksize dsize : Nat) : Nat := LALIGN (4 + 4 + 1 + ksize + dsize)
def NRLEAFDBT (dsize : Nat) : Nat := LALIGN (4 + 1 + dsize)

end FreeBsd.Db.Bt
