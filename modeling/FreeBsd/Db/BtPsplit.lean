import FreeBsd.Db.Btree
import FreeBsd.Lib.Slots

/-! How `bt_psplit` parts the records of a page, of any of the four types and with overflow keys. -/
namespace FreeBsd.Db.Psplit

open FreeBsd.Lib FreeBsd.Db.Bt

section Model

/-- The items of the four types of pages. Those of overflow keys and data have references in their
place. -/
inductive Entry where
  | binternal (key : Bytes) (pgno : Nat) (bigkey : Bool)
  | bleaf (key data : Bytes) (bigkey bigdata : Bool)
  | rinternal (nrecs pgno : Nat)
  | rleaf (data : Bytes) (bigdata : Bool)
  deriving DecidableEq

def Entry.nbytes : Entry → Nat
  | binternal key _ _ => NBINTERNAL key.length
  | bleaf key data _ _ => NBLEAFDBT key.length data.length
  | rinternal _ _ => NRINTERNAL
  | rleaf data _ => NRLEAFDBT data.length

def Entry.isbigkey : Entry → Bool
  | binternal _ _ bigkey => bigkey
  | bleaf _ _ bigkey _ => bigkey
  | rinternal _ _ => false
  | rleaf _ _ => false

/-- A page that is filled: what the slots of its index refer to, none where a slot has not been
written. -/
structure Half where
  linp : Nat → Option Entry
  lower : Nat
  upper : Nat

def Half.fresh (psize : Nat) : Half where
  linp := fun _ => none
  lower := BTDATAOFF
  upper := psize

/-- `p->linp[off] = p->upper -= nbytes`, and the item moved there. -/
def Half.store (p : Half) (off : Nat) (src : Entry) : Except Fault Half :=
  if p.upper < src.nbytes then .error .astray
  else .ok { p with linp := Function.update p.linp off (some src), upper := p.upper - src.nbytes }

/-- The item goes to the left page if this is not the slot of the new one: `nxt` and the page. -/
def Half.copy (l : Half) (skip off nxt : Nat) (src : Entry) : Except Fault (Nat × Half) :=
  if skip ≠ off then do .ok (nxt + 1, ← l.store off src) else .ok (nxt, l)

/-- The loop of `bt_psplit` that fills the left page, `fuel` times at most: `nxt`, `off` and the
page. `full / 2` is `half`, and `off` and `used` are `indx_t`. -/
def fillLeft (h : List Entry) (skip ilen full : Nat) :
    Nat → Nat → Nat → Nat → Nat → Half → Except Fault (Nat × Nat × Half)
  | 0, _, _, _, _, _ => .error .astray
  | fuel + 1, nxt, off, used, bigkeycnt, l =>
    match h[nxt]? with
    | none => .ok (nxt, off, l)
    | some src =>
      let nbytes := if skip = off then ilen else src.nbytes
      let isbigkey := if skip = off then false else src.isbigkey
      if skip ≤ off ∧ used + nbytes ≥ full then .ok (nxt, (off + 65535) % 65536, l)
      else do
        let (nxt, l) ← l.copy skip off nxt src
        let used := (used + nbytes) % 65536
        if used ≥ full / 2 then
          if !isbigkey || bigkeycnt = 3 then .ok (nxt, off, l)
          else fillLeft h skip ilen full fuel nxt (off + 1) used (bigkeycnt + 1) l
        else fillLeft h skip ilen full fuel nxt (off + 1) used bigkeycnt l

/-- The loop that fills the right page with what is left: `off`, `skip` and the page. -/
def fillRight : List Entry → Nat → Nat → Nat → Half → Except Fault (Nat × Nat × Half)
  | [], _, off, skip, r => .ok (off, skip, r)
  | src :: rest, nxt, off, skip, r => do
    let (off, skip) := if skip = nxt then (off + 1, 0) else (off, skip)
    fillRight rest (nxt + 1) (off + 1) skip (← r.store off src)

/-- `bt_psplit` of a page with these items: both pages, whether the new item is to go to the left
one, and its slot there. The cursor is in `Tree.splitCursor`. -/
def btPsplit (psize : Nat) (h : List Entry) (skip ilen : Nat) :
    Except Fault (Half × Half × Bool × Nat) := do
  let full := psize - BTDATAOFF
  let top := h.length
  let (nxt, off, l) ← fillLeft h skip ilen full (top + 2) 0 0 0 0 (Half.fresh psize)
  let l := { l with lower := (l.lower + (off + 1) * INDX) % 65536 }
  let (skip', left, pskip) := if skip ≤ off then (0, true, skip) else (skip, false, skip - nxt)
  let (off, skip', r) ← fillRight (h.drop nxt) nxt 0 skip' (Half.fresh psize)
  let r := { r with lower := (r.lower + off * INDX) % 65536 }
  let r := if skip' = top then { r with lower := (r.lower + INDX) % 65536 } else r
  .ok (l, r, left, pskip)

/-- The split, and the store of the new item by `__bt_split`. -/
def splitStore (psize : Nat) (h : List Entry) (skip : Nat) (new : Entry) :
    Except Fault (Half × Half) := do
  let (l, r, left, skip) ← btPsplit psize h skip new.nbytes
  if left then .ok (← l.store skip new, r) else .ok (l, ← r.store skip new)

end Model

section Spec

def Half.records (p : Half) : List (Option Entry) :=
  (List.range ((p.lower - BTDATAOFF) / INDX)).map p.linp

def bytes (items : List Entry) : Nat := (items.map Entry.nbytes).sum

def space (items : List Entry) : Nat := bytes items + INDX * items.length

def SplitsWell (psize : Nat) (h : List Entry) (skip : Nat) (new : Entry) : Prop :=
  ∃ l r, splitStore psize h skip new = .ok (l, r) ∧ l.records ≠ [] ∧ r.records ≠ [] ∧
    l.records ++ r.records = (h.insertIdx skip new).map some ∧ l.lower ≤ l.upper ∧ r.lower ≤ r.upper

/-- The old items among the first `c`, when the new one is in its slot. -/
def oldOf (skip c : Nat) : Nat := if c ≤ skip then c else c - 1

/-- How often, before slot `c`, an overflow key has kept the left page from being closed when it was
half full. -/
def overdue (full : Nat) (v : List Entry) (c : Nat) : Nat :=
  (List.range c).countP fun b => full / 2 ≤ bytes (v.take b)

/-- The left page is closed behind the first `c` of the items `v`: with them it is half full, and
the last has no overflow key or three of those were passed; or the next one makes it full. -/
def Closes (full : Nat) (h : List Entry) (skip : Nat) (new : Entry) (c : Nat) : Prop :=
  let v := h.insertIdx skip new
  full / 2 ≤ bytes (v.take c) ∧ (c = skip + 1 ∨ (v[c - 1]?.any Entry.isbigkey) = false ∨
    3 ≤ overdue full v c) ∨
    skip ≤ c ∧ oldOf skip c < h.length ∧ full ≤ bytes (v.take (c + 1))

instance (full : Nat) (h : List Entry) (skip : Nat) (new : Entry) (c : Nat) :
    Decidable (Closes full h skip new c) :=
  inferInstanceAs (Decidable (_ ∨ _))

/-- The page is closed with an item left for the right one, on which there is no hole, and both have
room. -/
def Parts (full : Nat) (h : List Entry) (skip : Nat) (new : Entry) (c : Nat) : Prop :=
  0 < c ∧ c ≤ h.length ∧ Closes full h skip new c ∧ (∀ b < c, 0 < b → ¬ Closes full h skip new b) ∧
    ¬ (skip = 0 ∧ c = 1) ∧ space ((h.insertIdx skip new).take c) ≤ full ∧
      space ((h.insertIdx skip new).drop c) ≤ full

end Spec

end FreeBsd.Db.Psplit
