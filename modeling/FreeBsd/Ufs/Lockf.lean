import FreeBsd.Lib.Word

/-! The advisory record locks of `ufs/ufs_lockf.c`. The lock list of a file is the
list of its `struct lockf`, head first; a pointer to a lock is its address, and the
blocked chain that hangs off a lock by `lf_block` is the list of the addresses on it.
The edits below are the loops of the source run on that list. Where the source would
free or relink an entry that is already on the list the edit is `none`. -/
namespace FreeBsd.Ufs

open FreeBsd.Lib (wrap32)

inductive LockType where
  | rdlck | wrlck
  deriving DecidableEq, Repr

structure LockFlags where
  wait : Bool
  flock : Bool
  posix : Bool
  deriving DecidableEq, Repr

/-- `struct lockf`; `last` is `lf_end`, with -1 for the end of the file. -/
structure Lockf (ι : Type) where
  addr : Nat
  flags : LockFlags
  type : LockType
  start : Int
  last : Int
  id : ι
  block : List Nat
  deriving DecidableEq, Repr

inductive Search where
  | self | others
  deriving DecidableEq, Repr

/-- The results 0 to 5 of `lf_findoverlap`, and its final `panic`. -/
inductive Ovcase where
  | none | equal | contains | contained | startsBefore | endsAfter | panic
  deriving DecidableEq, Repr

variable {ι : Type} [DecidableEq ι]

def Search.skips (type : Search) (lf lock : Lockf ι) : Bool :=
  match type with
  | .self => lf.id ≠ lock.id
  | .others => lf.id = lock.id

/- The ladder of comparisons of one entry `lf` with `lock`. -/
def ovcase (lf lock : Lockf ι) : Ovcase :=
  if (lf.last ≠ -1 ∧ lock.start > lf.last) ∨ (lock.last ≠ -1 ∧ lf.start > lock.last) then .none
  else if lf.start = lock.start ∧ lf.last = lock.last then .equal
  else if lf.start ≤ lock.start ∧ lock.last ≠ -1 ∧ (lf.last ≥ lock.last ∨ lf.last = -1) then
    .contains
  else if lock.start ≤ lf.start ∧ (lock.last = -1 ∨ (lf.last ≠ -1 ∧ lock.last ≥ lf.last)) then
    .contained
  else if lf.start < lock.start ∧ (lf.last ≥ lock.start ∨ lf.last = -1) then .startsBefore
  else if lf.start > lock.start ∧ lock.last ≠ -1 ∧ (lf.last > lock.last ∨ lf.last = -1) then
    .endsAfter
  else .panic

/-- `lf_findoverlap`: the entries passed over (so that `*prev` is the link after the
last of them), the case, and the list from `*overlap` on. -/
def findOverlap (type : Search) (lock : Lockf ι) :
    List (Lockf ι) → List (Lockf ι) × Ovcase × List (Lockf ι)
  | [] => ([], .none, [])
  | lf :: rest =>
    let next := findOverlap type lock rest
    if type.skips lf lock then (lf :: next.1, next.2)
    else
      match ovcase lf lock with
      | .none =>
        if type = .self ∧ lock.last ≠ -1 ∧ lf.start > lock.last then ([], .none, lf :: rest)
        else (lf :: next.1, next.2)
      | c => ([], c, lf :: rest)

def getBlockLoop (lock : Lockf ι) : Nat → List (Lockf ι) → Option (Lockf ι)
  | 0, _ => none
  | fuel + 1, lf =>
    match findOverlap .others lock lf with
    | (_, .none, _) => none
    | (_, _, overlap :: rest) =>
      if lock.type = .wrlck ∨ overlap.type = .wrlck then some overlap
      else getBlockLoop lock fuel rest
    | (_, _, []) => none

/-- `lf_getblock`: the first lock of another owner that blocks `lock`. -/
def getBlock (lock : Lockf ι) (head : List (Lockf ι)) : Option (Lockf ι) :=
  getBlockLoop lock (head.length + 1) head

/-- A new lock list, and the requests that `lf_wakelock` has woken on the way. -/
structure Edit (ι : Type) where
  list : List (Lockf ι)
  woken : List Nat

def Lockf.wake (lf : Lockf ι) : Lockf ι := { lf with block := [] }

/-- `lf_split`: the list from `lock1` on, in place of `lock1` alone. The first branch
leaves `lock2` to its caller. -/
def lfSplit (fresh : Nat) (lock1 lock2 : Lockf ι) : List (Lockf ι) :=
  if lock1.start = lock2.start then [{ lock1 with start := wrap32 (lock2.last + 1) }]
  else if lock1.last = lock2.last then
    [{ lock1 with last := wrap32 (lock2.start - 1) }, lock2]
  else
    [{ lock1 with last := wrap32 (lock2.start - 1) }, lock2,
     { lock1 with addr := fresh, start := wrap32 (lock2.last + 1), block := [] }]

def wakeFirst : List (Lockf ι) → List (Lockf ι)
  | [] => []
  | lf :: rest => lf.wake :: rest

def downgrades (lock overlap : Lockf ι) : Bool := lock.type = .rdlck && overlap.type = .wrlck

/-- The loop of `lf_setlock` once `lock` is on the list (`needtolink == 0`), between
`before` and `after`; `block` is what is left to look at. -/
def insertLinked (lock : Lockf ι) (before : List (Lockf ι)) :
    Nat → Lockf ι → List (Lockf ι) → List (Lockf ι) → List Nat → Option (Edit ι)
  | 0, _, _, _, _ => none
  | fuel + 1, linked, after, block, woken =>
    match findOverlap .self lock block with
    | (passed, .none, rest) => some ⟨before ++ linked :: (after ++ passed ++ rest), woken⟩
    | (passed, .contained, overlap :: rest) =>
      if downgrades lock overlap then
        insertLinked lock before fuel linked (after ++ passed) rest (woken ++ overlap.block)
      else
        insertLinked lock before fuel { linked with block := overlap.block ++ linked.block }
          (after ++ passed) rest woken
    | (passed, .endsAfter, overlap :: rest) =>
      some ⟨before ++ linked :: (after ++ passed ++
        { overlap.wake with start := wrap32 (lock.last + 1) } :: rest), woken ++ overlap.block⟩
    | _ => none

/-- The insertion loop of `lf_setlock`, from `needtolink = 1`. -/
def insertLock (fresh : Nat) (lock : Lockf ι) (head : List (Lockf ι)) : Option (Edit ι) :=
  match findOverlap .self lock head with
  | (passed, .none, rest) => some ⟨passed ++ lock :: rest, []⟩
  | (passed, .equal, overlap :: rest) =>
    if downgrades lock overlap then
      some ⟨passed ++ { overlap.wake with type := lock.type } :: rest, overlap.block⟩
    else some ⟨passed ++ { overlap with type := lock.type } :: rest, []⟩
  | (passed, .contains, overlap :: rest) =>
    if overlap.type = lock.type then some ⟨passed ++ overlap :: rest, []⟩
    else if overlap.start = lock.start then
      some ⟨passed ++ lock :: { overlap.wake with start := wrap32 (lock.last + 1) } :: rest,
        overlap.block⟩
    else some ⟨passed ++ (wakeFirst (lfSplit fresh overlap lock) ++ rest), overlap.block⟩
  | (passed, .contained, overlap :: rest) =>
    if downgrades lock overlap then
      insertLinked lock passed (head.length + 1) lock [] rest overlap.block
    else
      insertLinked lock passed (head.length + 1) { lock with block := overlap.block ++ lock.block }
        [] rest []
  | (passed, .startsBefore, overlap :: rest) =>
    insertLinked lock (passed ++ [{ overlap.wake with last := wrap32 (lock.start - 1) }])
      (head.length + 1) lock [] rest overlap.block
  | (passed, .endsAfter, overlap :: rest) =>
    some ⟨passed ++ lock :: { overlap.wake with start := wrap32 (lock.last + 1) } :: rest,
      overlap.block⟩
  | _ => none

/-- `overlap->lf_next = unlock->lf_next` after `lf_split`: the second entry is the
request itself and leaves the list again. -/
def unlinkSecond : List (Lockf ι) → List (Lockf ι)
  | lf :: _ :: rest => lf :: rest
  | list => list

def clearLoop (fresh : Nat) (unlock : Lockf ι) :
    Nat → List (Lockf ι) → List (Lockf ι) → List Nat → Option (Edit ι)
  | 0, _, _, _ => none
  | fuel + 1, before, lf, woken =>
    match findOverlap .self unlock lf with
    | (passed, .none, rest) => some ⟨before ++ (passed ++ rest), woken⟩
    | (passed, .equal, overlap :: rest) => some ⟨before ++ (passed ++ rest), woken ++ overlap.block⟩
    | (passed, .contains, overlap :: rest) =>
      if overlap.start = unlock.start then
        some ⟨before ++ (passed ++ { overlap.wake with start := wrap32 (unlock.last + 1) } :: rest),
          woken ++ overlap.block⟩
      else
        some ⟨before ++ (passed ++ (unlinkSecond (lfSplit fresh overlap.wake unlock) ++ rest)),
          woken ++ overlap.block⟩
    | (passed, .contained, overlap :: rest) =>
      clearLoop fresh unlock fuel (before ++ passed) rest (woken ++ overlap.block)
    | (passed, .startsBefore, overlap :: rest) =>
      clearLoop fresh unlock fuel
        (before ++ (passed ++ [{ overlap.wake with last := wrap32 (unlock.start - 1) }])) rest
        (woken ++ overlap.block)
    | (passed, .endsAfter, overlap :: rest) =>
      some ⟨before ++ (passed ++ { overlap.wake with start := wrap32 (unlock.last + 1) } :: rest),
        woken ++ overlap.block⟩
    | _ => none

def clearLock (fresh : Nat) (unlock : Lockf ι) (head : List (Lockf ι)) : Option (Edit ι) :=
  clearLoop fresh unlock (head.length + 1) [] head []

end FreeBsd.Ufs
