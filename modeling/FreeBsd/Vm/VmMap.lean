import Mathlib.Tactic.Ring
import Mathlib.Logic.Function.Basic
import Mathlib.Tactic.Common

/-! Address maps: entries in a doubly linked list through the header of the map, sorted by
address, with a hint for lookups and a hint for free space. Physical maps, pages and the
reference counts of objects are left out. -/
namespace FreeBsd.Vm

section Arithmetic

def add32 (a b : Nat) : Nat := (a + b) % 2 ^ 32

def sub32 (a b : Nat) : Nat := (a + 2 ^ 32 - b) % 2 ^ 32

end Arithmetic

section Model

abbrev VmProt := BitVec 32

def VM_PROT_DEFAULT : VmProt := 7

def VM_INHERIT_SHARE : Nat := 0
def VM_INHERIT_COPY : Nat := 1
def VM_INHERIT_NONE : Nat := 2
def VM_INHERIT_DEFAULT : Nat := VM_INHERIT_COPY

inductive KernReturn where
  | success
  | invalidAddress
  | protectionFailure
  | noSpace
  | invalidArgument
  deriving DecidableEq, Repr

/-- `struct vm_map_entry` without its links. The object is that of a map if `isAMap` or `isSubMap`.
-/
structure VmMapEntry where
  start : Nat
  end_ : Nat
  object : Option Nat
  offset : Nat
  isAMap : Bool
  isSubMap : Bool
  copyOnWrite : Bool
  needsCopy : Bool
  protection : VmProt
  maxProtection : VmProt
  inheritance : Nat
  wiredCount : Int
  deriving DecidableEq, Repr

/-- `struct vm_map`. Entries are numbered as they are made, and the header is number 0; the lock
is that of the map's data. -/
structure VmMap where
  entry : Nat → VmMapEntry
  next : Nat → Nat
  prev : Nat → Nat
  fresh : Nat
  nentries : Int
  size : Nat
  isMainMap : Bool
  hint : Nat
  firstFree : Nat
  lock : Bool

def VmMap.minOffset (map : VmMap) : Nat := (map.entry 0).start

def VmMap.maxOffset (map : VmMap) : Nat := (map.entry 0).end_

def vmMapInit (min max : Nat) : VmMap where
  entry _ := ⟨min, max, none, 0, false, false, false, false, 0, 0, 0, 0⟩
  next _ := 0
  prev _ := 0
  fresh := 1
  nentries := 0
  size := 0
  isMainMap := true
  hint := 0
  firstFree := 0
  lock := false

def vmMapLock (map : VmMap) :
    Option VmMap := if map.lock then none else some { map with lock := true }

def vmMapUnlock (map : VmMap) : VmMap := { map with lock := false }

def VmMap.setEntry (map : VmMap) (i : Nat) (e : VmMapEntry) : VmMap :=
  { map with entry := Function.update map.entry i e }

def vmMapEntryCreate (map : VmMap) (e : VmMapEntry) : Nat × VmMap :=
  (map.fresh, { map.setEntry map.fresh e with fresh := map.fresh + 1 })

def vmMapEntryLink (map : VmMap) (afterWhere entry : Nat) : VmMap :=
  let prev := Function.update map.prev entry afterWhere
  let next := Function.update map.next entry (map.next afterWhere)
  let next := Function.update next (prev entry) entry
  let prev := Function.update prev (next entry) entry
  { map with nentries := map.nentries + 1, prev := prev, next := next }

def vmMapEntryUnlink (map : VmMap) (entry : Nat) : VmMap :=
  let prev := Function.update map.prev (map.next entry) (map.prev entry)
  let next := Function.update map.next (prev entry) (map.next entry)
  { map with nentries := map.nentries - 1, prev := prev, next := next }

def vmMapSearch (map : VmMap) (address last : Nat) : Nat → Nat → Option (Bool × Nat)
  | 0, _ => none
  | fuel + 1, cur =>
    if cur ≠ last then
      if (map.entry cur).end_ > address then
        if address ≥ (map.entry cur).start then some (true, cur) else some (false, map.prev cur)
      else vmMapSearch map address last fuel (map.next cur)
    else some (false, map.prev cur)

def VmMap.fuel (map : VmMap) : Nat := map.nentries.toNat + 2

/-- Whether the address is in an entry, and that entry or the one before the address. -/
def vmMapLookupEntry (map : VmMap) (address : Nat) : Option (Bool × Nat × VmMap) :=
  let cur := map.hint
  let cur := if cur = 0 then map.next cur else cur
  if address ≥ (map.entry cur).start ∧ cur ≠ 0 ∧ (map.entry cur).end_ > address then some (true,
    cur, map)
  else
    let (last, cur) := if address ≥ (map.entry cur).start then (0, cur) else (map.next cur,
      map.next 0)
    (vmMapSearch map address last map.fuel cur).map fun (found, entry) =>
      (found, entry, { map with hint := entry })

/-- `vm_object_coalesce` with no second object; `coalesces` is its answer for an object. -/
def vmObjectCoalesce (coalesces : Nat → Bool) (prevObject : Option Nat) : Bool :=
  match prevObject with
  | none => true
  | some object => coalesces object

/-- The contents of a new entry; the last four fields are set only in a main map. -/
def vmMapNewEntry (map : VmMap) (object : Option Nat) (offset start end_ : Nat) : VmMapEntry where
  start := start
  end_ := end_
  object := object
  offset := offset
  isAMap := false
  isSubMap := false
  copyOnWrite := false
  needsCopy := false
  protection := if map.isMainMap then VM_PROT_DEFAULT else (map.entry map.fresh).protection
  maxProtection := if map.isMainMap then VM_PROT_DEFAULT else (map.entry map.fresh).maxProtection
  inheritance := if map.isMainMap then VM_INHERIT_DEFAULT else (map.entry map.fresh).inheritance
  wiredCount := if map.isMainMap then 0 else (map.entry map.fresh).wiredCount

def vmMapInsert (coalesces : Nat → Bool) (map : VmMap) (object : Option Nat)
    (offset start end_ : Nat) :
    Option (KernReturn × VmMap) :=
  if start < map.minOffset ∨ end_ > map.maxOffset ∨ start ≥ end_ then some (.invalidAddress, map)
  else
    match vmMapLookupEntry map start with
    | none => none
    | some (true, _, map) => some (.noSpace, map)
    | some (false, prevEntry, map) =>
      if map.next prevEntry ≠ 0 ∧ (map.entry (map.next prevEntry)).start < end_ then some (.noSpace,
        map)
      else
        let prev := map.entry prevEntry
        if object = none ∧ prevEntry ≠ 0 ∧ prev.end_ = start ∧ map.isMainMap ∧ prev.isAMap = false ∧
            prev.isSubMap = false ∧ prev.inheritance = VM_INHERIT_DEFAULT ∧
              prev.protection = VM_PROT_DEFAULT ∧
            prev.maxProtection = VM_PROT_DEFAULT ∧ prev.wiredCount = 0 ∧
              vmObjectCoalesce coalesces prev.object then
          some (.success, { map.setEntry prevEntry { prev with end_ := end_ } with
                            size := add32 map.size (sub32 end_ prev.end_) })
        else
          let (newEntry, map) := vmMapEntryCreate map (vmMapNewEntry map object offset start end_)
          let map := vmMapEntryLink map prevEntry newEntry
          let map := { map with size := add32 map.size (sub32 end_ start) }
          if map.firstFree = prevEntry ∧ (map.entry prevEntry).end_ ≥ start then
            some (.success, { map with firstFree := newEntry })
          else some (.success, map)

/-- The entry before the region and the start of the region, or no region. -/
def vmMapFindSpace (map : VmMap) (length : Nat) : Nat → Nat → Nat → Option (Option (Nat × Nat))
  | 0, _, _ => none
  | fuel + 1, entry, start =>
    let end_ := add32 start length
    if end_ > map.maxOffset ∨ end_ < start then some none
    else
      let next := map.next entry
      if next = 0 then some (some (entry, start))
      else if (map.entry next).start ≥ end_ then some (some (entry, start))
      else vmMapFindSpace map length fuel next (map.entry next).end_

def vmMapFind (coalesces : Nat → Bool) (map : VmMap) (object : Option Nat)
    (offset addr length : Nat) (findSpace : Bool) : Option (KernReturn × Nat × VmMap) :=
  match vmMapLock map with
  | none => none
  | some map =>
    let inserted (map : VmMap) (start : Nat) : Option (KernReturn × Nat × VmMap) :=
      (vmMapInsert coalesces map object offset start (add32 start length)).map fun (result, map) =>
        (result, start, vmMapUnlock map)
    if findSpace then
      let start := if addr < map.minOffset then map.minOffset else addr
      if start > map.maxOffset then some (.noSpace, addr, vmMapUnlock map)
      else
        let first : Option (Nat × Nat × VmMap) :=
          if start = map.minOffset then
            some (map.firstFree,
              if map.firstFree ≠ 0 then (map.entry map.firstFree).end_ else start, map)
          else
            match vmMapLookupEntry map start with
            | none => none
            | some (found, entry, map) =>
              some (entry, if found then (map.entry entry).end_ else start, map)
        match first with
        | none => none
        | some (entry, start, map) =>
          match vmMapFindSpace map length map.fuel entry start with
          | none => none
          | some none => some (.noSpace, addr, vmMapUnlock map)
          | some (some (entry, start)) => inserted { map with hint := entry } start
    else inserted map addr

def vmMapClipStart (map : VmMap) (entry startaddr : Nat) : VmMap :=
  let e := map.entry entry
  if startaddr > e.start then
    let (newEntry, map) := vmMapEntryCreate map { e with end_ := startaddr }
    let map := map.setEntry entry { e with offset := add32 e.offset (sub32 startaddr e.start),
                                           start := startaddr }
    vmMapEntryLink map (map.prev entry) newEntry
  else map

def vmMapClipEnd (map : VmMap) (entry endaddr : Nat) : VmMap :=
  let e := map.entry entry
  if endaddr < e.end_ then
    let (newEntry, map) := vmMapEntryCreate map
      { e with start := endaddr, offset := add32 e.offset (sub32 endaddr e.start) }
    let map := map.setEntry entry { e with end_ := endaddr }
    vmMapEntryLink map entry newEntry
  else map

def vmMapRangeCheck (map : VmMap) (start end_ : Nat) : Nat × Nat :=
  let start := if start < map.minOffset then map.minOffset else start
  let end_ := if end_ > map.maxOffset then map.maxOffset else end_
  (if start > end_ then end_ else start, end_)

/-- The first entry that begins at `start` or later, after clipping the one that contains it. -/
def vmMapClipFirst (map : VmMap) (start : Nat) : Option (Nat × VmMap) :=
  match vmMapLookupEntry map start with
  | none => none
  | some (true, entry, map) => some (entry, vmMapClipStart map entry start)
  | some (false, entry, map) => some (map.next entry, map)

def vmMapSubmap (map : VmMap) (start end_ submap : Nat) : Option (KernReturn × VmMap) :=
  match vmMapLock map with
  | none => none
  | some map =>
    let (start, end_) := vmMapRangeCheck map start end_
    match vmMapClipFirst map start with
    | none => none
    | some (entry, map) =>
      let map := vmMapClipEnd map entry end_
      let e := map.entry entry
      if e.start = start ∧ e.end_ = end_ ∧ e.isAMap = false ∧ e.object = none ∧
        e.copyOnWrite = false then
        some (.success, vmMapUnlock (map.setEntry entry { e with isAMap := false, isSubMap := true,
                                                                 object := some submap }))
      else some (.invalidArgument, vmMapUnlock map)

/-- The first pass of `vm_map_protect`, with the violation it finds. -/
def vmMapViolation (map : VmMap) (end_ : Nat) (newProt : VmProt) :
    Nat → Nat → Option (Option KernReturn)
  | 0, _ => none
  | fuel + 1, current =>
    if current ≠ 0 ∧ (map.entry current).start < end_ then
      if (map.entry current).isSubMap then some (some .invalidArgument)
      else if newProt &&& (map.entry current).maxProtection ≠ newProt then
        some (some .protectionFailure)
      else vmMapViolation map end_ newProt fuel (map.next current)
    else some none

/-- A change of each entry from `current` on that begins before `end_`, clipped at `end_`. -/
def vmMapChange (change : VmMapEntry → VmMapEntry) (end_ : Nat) : Nat → VmMap → Nat → Option VmMap
  | 0, _, _ => none
  | fuel + 1, map, current =>
    if current ≠ 0 ∧ (map.entry current).start < end_ then
      let map := vmMapClipEnd map current end_
      let map := map.setEntry current (change (map.entry current))
      vmMapChange change end_ fuel map (map.next current)
    else some map

def protectEntry (newProt : VmProt) (setMax : Bool) (e : VmMapEntry) : VmMapEntry :=
  if setMax then { e with maxProtection := newProt, protection := newProt &&& e.protection }
  else { e with protection := newProt }

def vmMapProtect (map : VmMap) (start end_ : Nat) (newProt : VmProt) (setMax : Bool) :
    Option (KernReturn × VmMap) :=
  match vmMapLock map with
  | none => none
  | some map =>
    let (start, end_) := vmMapRangeCheck map start end_
    match vmMapClipFirst map start with
    | none => none
    | some (entry, map) =>
      match vmMapViolation map end_ newProt map.fuel entry with
      | none => none
      -- the map stays locked
      | some (some .invalidArgument) => some (.invalidArgument, map)
      | some (some result) => some (result, vmMapUnlock map)
      | some none =>
        (vmMapChange (protectEntry newProt setMax) end_ map.fuel map entry).map fun map =>
          (.success, vmMapUnlock map)

def vmMapInherit (map : VmMap) (start end_ newInheritance : Nat) : Option (KernReturn × VmMap) :=
  if newInheritance = VM_INHERIT_NONE ∨ newInheritance = VM_INHERIT_COPY ∨
    newInheritance = VM_INHERIT_SHARE then
    match vmMapLock map with
    | none => none
    | some map =>
      let (start, end_) := vmMapRangeCheck map start end_
      match vmMapClipFirst map start with
      | none => none
      | some (entry, map) =>
        (vmMapChange (fun e => { e with inheritance := newInheritance }) end_ map.fuel map
          entry).map fun map =>
          (.success, vmMapUnlock map)
  else some (.invalidArgument, map)

def vmMapEntryDelete (map : VmMap) (entry : Nat) : VmMap :=
  let e := map.entry entry
  let map := if e.wiredCount ≠ 0 then map.setEntry entry { e with wiredCount := 0 } else map
  let map := vmMapEntryUnlink map entry
  { map with size := sub32 map.size (sub32 e.end_ e.start) }

def vmMapDeleteFrom (end_ : Nat) : Nat → VmMap → Nat → Option VmMap
  | 0, _, _ => none
  | fuel + 1, map, entry =>
    if entry ≠ 0 ∧ (map.entry entry).start < end_ then
      let map := vmMapClipEnd map entry end_
      let next := map.next entry
      vmMapDeleteFrom end_ fuel (vmMapEntryDelete map entry) next
    else some map

def vmMapDelete (map : VmMap) (start end_ : Nat) : Option (KernReturn × VmMap) :=
  match vmMapLookupEntry map start with
  | none => none
  | some (found, firstEntry, map) =>
    let (entry, map) :=
      if found then
        let map := vmMapClipStart map firstEntry start
        (firstEntry, { map with hint := map.prev firstEntry })
      else (map.next firstEntry, map)
    let map :=
      if (map.entry map.firstFree).start ≥ start then { map with firstFree := map.prev entry }
      else map
    (vmMapDeleteFrom end_ map.fuel map entry).map fun map => (.success, map)

def vmMapRemove (map : VmMap) (start end_ : Nat) : Option (KernReturn × VmMap) :=
  match vmMapLock map with
  | none => none
  | some map =>
    let (start, end_) := vmMapRangeCheck map start end_
    (vmMapDelete map start end_).map fun (result, map) => (result, vmMapUnlock map)

def Mergeable (map : VmMap) (thisEntry start : Nat) : Prop :=
  let prev := map.entry (map.prev thisEntry)
  let this := map.entry thisEntry
  map.prev thisEntry ≠ 0 ∧ prev.end_ = start ∧ map.isMainMap ∧ prev.isAMap = false ∧
    prev.isSubMap = false ∧
    this.isAMap = false ∧ this.isSubMap = false ∧ prev.inheritance = this.inheritance ∧
    prev.protection = this.protection ∧ prev.maxProtection = this.maxProtection ∧
    prev.wiredCount = this.wiredCount ∧ prev.copyOnWrite = this.copyOnWrite ∧
      prev.needsCopy = this.needsCopy ∧
    prev.object = this.object ∧ add32 prev.offset (sub32 prev.end_ prev.start) = this.offset

instance (map : VmMap) (thisEntry start : Nat) : Decidable (Mergeable map thisEntry start) :=
  inferInstanceAs (Decidable (_ ∧ _ ∧ _ ∧ _ ∧ _ ∧ _ ∧ _ ∧ _ ∧ _ ∧ _ ∧ _ ∧ _ ∧ _ ∧ _ ∧ _))

def vmMapSimplify (map : VmMap) (start : Nat) : Option VmMap :=
  match vmMapLock map with
  | none => none
  | some map =>
    match vmMapLookupEntry map start with
    | none => none
    | some (found, thisEntry, map) =>
      if found ∧ Mergeable map thisEntry start then
        let prevEntry := map.prev thisEntry
        let map := if map.firstFree = thisEntry then { map with firstFree := prevEntry } else map
        let map := vmMapEntryUnlink { map with hint := prevEntry } thisEntry
        some (vmMapUnlock (map.setEntry prevEntry
          { map.entry prevEntry with end_ := (map.entry thisEntry).end_ }))
      else some (vmMapUnlock map)

end Model

end FreeBsd.Vm
