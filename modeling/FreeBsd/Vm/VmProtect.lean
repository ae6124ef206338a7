import FreeBsd.Vm.VmMapRun

/-! `vm_map_protect` with what it asks of the physical map. -/
namespace FreeBsd.Vm

open FreeBsd.Lib

section Model

def VM_PROT_WRITE : VmProt := 2

structure PmapProtect where
  start : Nat
  end_ : Nat
  prot : VmProt
  deriving DecidableEq, Repr

def protMask (e : VmMapEntry) : VmProt := if e.copyOnWrite then ~~~VM_PROT_WRITE else 7

/-- The calls for the entries of a share map, from `shareEntry` on. -/
def vmShareCalls (share : VmMap) (current : VmMapEntry) (shareEnd : Nat) :
    Nat → Nat → Option (List PmapProtect)
  | 0, _ => none
  | fuel + 1, shareEntry =>
    let e := share.entry shareEntry
    if shareEntry ≠ 0 ∧ e.start < shareEnd then
      (vmShareCalls share current shareEnd fuel (share.next shareEntry)).map fun calls =>
        ⟨add32 (sub32 (max e.start current.offset) current.offset) current.start,
          add32 (sub32 (min e.end_ shareEnd) current.offset) current.start, current.protection &&&
          protMask e⟩ :: calls
    else some []

/-- `maps` are the share maps that entries refer to, none of which is locked. -/
def vmProtectCalls (maps : Nat → VmMap) (current first : VmMapEntry) : Option (List PmapProtect) :=
  if current.isAMap then
    match current.object with
    | none => none
    | some object =>
      match vmMapLookupEntry (maps object) current.offset with
      | none => none
      | some (_, shareEntry, share) =>
        vmShareCalls share current (add32 current.offset (sub32 current.end_ current.start))
          share.fuel shareEntry
  else some [⟨current.start, current.end_, current.protection &&& protMask first⟩]

/-- The second pass; `entry` is the one that the pass began with. -/
def vmProtectPass (maps : Nat → VmMap) (newProt : VmProt) (setMax : Bool) (end_ entry : Nat) :
    Nat → VmMap → Nat → Option (VmMap × List PmapProtect)
  | 0, _, _ => none
  | fuel + 1, map, current =>
    if current ≠ 0 ∧ (map.entry current).start < end_ then
      let map := vmMapClipEnd map current end_
      let oldProt := (map.entry current).protection
      let map := map.setEntry current (protectEntry newProt setMax (map.entry current))
      match if (map.entry current).protection ≠ oldProt then vmProtectCalls maps (map.entry current)
        (map.entry entry)
        else some [] with
      | none => none
      | some calls =>
        (vmProtectPass maps newProt setMax end_ entry fuel map (map.next current)).map fun (map,
          rest) => (map, calls ++ rest)
    else some (map, [])

def vmProtect (maps : Nat → VmMap) (map : VmMap) (start end_ : Nat) (newProt : VmProt)
    (setMax : Bool) :
    Option (KernReturn × VmMap × List PmapProtect) :=
  match vmMapLock map with
  | none => none
  | some map =>
    let (start, end_) := vmMapRangeCheck map start end_
    match vmMapClipFirst map start with
    | none => none
    | some (entry, map) =>
      match vmMapViolation map end_ newProt map.fuel entry with
      | none => none
      | some (some .invalidArgument) => some (.invalidArgument, map, [])
      | some (some result) => some (result, vmMapUnlock map, [])
      | some none =>
        (vmProtectPass maps newProt setMax end_ entry map.fuel map entry).map fun (map, calls) =>
          (.success, vmMapUnlock map, calls)

/-- The pass does to the map what the same pass without the physical map does. -/
theorem vmProtectPass_map {maps : Nat → VmMap} {newProt : VmProt} {setMax : Bool}
    {end_ entry fuel current : Nat} {map map' : VmMap} {calls : List PmapProtect}
    (run : vmProtectPass maps newProt setMax end_ entry fuel map current = some (map', calls)) :
    vmMapChange (protectEntry newProt setMax) end_ fuel map current = some map' := by
  induction fuel generalizing map current calls with
  | zero => cases run
  | succ fuel ih =>
    rw [vmProtectPass] at run
    rw [vmMapChange]
    split at run
    · rename_i before
      rw [if_pos before]
      dsimp only at run ⊢
      split at run
      · cases run
      · obtain ⟨⟨map₁, rest⟩, later, same⟩ := Option.map_eq_some_iff.mp run
        cases same
        exact ih later
    · rename_i done
      rw [if_neg done]
      cases run
      rfl

theorem vmProtect_map {maps : Nat → VmMap} {map map' : VmMap} {start end_ : Nat} {newProt : VmProt}
    {setMax : Bool} {result : KernReturn} {calls : List PmapProtect}
    (run : vmProtect maps map start end_ newProt setMax = some (result, map', calls)) :
    vmMapProtect map start end_ newProt setMax = some (result, map') := by
  unfold vmProtect at run
  unfold vmMapProtect
  cases locked : vmMapLock map with
  | none =>
    rw [locked] at run
    cases run
  | some map₁ =>
    rw [locked] at run
    dsimp only at run ⊢
    cases clipped : vmMapClipFirst map₁ (vmMapRangeCheck map₁ start end_).1 with
    | none =>
      rw [clipped] at run
      cases run
    | some first =>
      rw [clipped] at run
      dsimp only at run ⊢
      cases found :
        vmMapViolation first.2 (vmMapRangeCheck map₁ start end_).2 newProt first.2.fuel first.1 with
      | none =>
        rw [found] at run
        cases run
      | some violation =>
        rw [found] at run
        cases violation with
        | none =>
          obtain ⟨⟨map₂, calls'⟩, pass, same⟩ := Option.map_eq_some_iff.mp run
          cases same
          dsimp only
          rw [vmProtectPass_map pass]
          rfl
        | some reason => cases reason <;> (cases run; rfl)

end Model

section Pass

variable {low high : Nat} {map : VmMap} {l ys zs : List Item} {x y : Item} {newProt : VmProt}
    {setMax : Bool}
  {maps : Nat → VmMap}

theorem vmMapClipEnd_eq {s : Nat} (rep : Rep low high map (ys ++ x :: zs)) (above : x.2.start < s) :
    ∃ rest, Rep low high (vmMapClipEnd map x.1 s) (ys ++ (x.1, x.2.front (min x.2.end_ s)) ::
      rest) ∧
      (rest = zs ∨ ((∀ z ∈ rest, s ≤ z.2.start) ∧ ∀ z ∈ zs, s ≤ z.2.start)) := by
  by_cases below : s < x.2.end_
  · have clipped := vmMapClipEnd_spec rep above below
    obtain ⟨-, behind, -⟩ := rep.arranged.around
    have late : ∀ z ∈ zs, s ≤ z.2.start := fun z later => below.le.trans (behind z later)
    rw [Nat.min_eq_right below.le]
    refine ⟨(map.fresh, x.2.back s) :: zs, clipped, .inr ⟨fun z member => ?_, late⟩⟩
    rcases List.mem_cons.mp member with rfl | later
    · exact Nat.le_refl s
    · exact late z later
  · have same : vmMapClipEnd map x.1 s = map := by
      simp only [vmMapClipEnd, rep.holds.entry_at, below, if_false]
    rw [same, Nat.min_eq_left (Nat.not_lt.mp below)]
    exact ⟨zs, rep, .inl rfl⟩

theorem Arranged.unique (arranged : Arranged low high l) (inX : x ∈ l) (inY : y ∈ l)
    (common : x.overlaps y.2.start y.2.end_) : x = y := by
  obtain ⟨ys, zs, rfl⟩ := List.append_of_mem inY
  obtain ⟨before, behind, -⟩ := arranged.around
  unfold Item.overlaps at common
  rcases List.mem_append.mp inX with early | late
  · have apart := before x early
    lia
  · rcases List.mem_cons.mp late with rfl | late
    · rfl
    · have apart := behind x late
      lia

def callFor (newProt : VmProt) (setMax cow : Bool) (end_ : Nat) (z : Item) : PmapProtect :=
  ⟨z.2.start, min z.2.end_ end_, (protectEntry newProt setMax z.2).protection &&&
    if cow then ~~~VM_PROT_WRITE else 7⟩

def Changed (newProt : VmProt) (setMax : Bool) (e : VmMapEntry) :
    Prop := (protectEntry newProt setMax e).protection ≠ e.protection

instance (newProt : VmProt) (setMax : Bool) (e : VmMapEntry) :
    Decidable (Changed newProt setMax e) :=
  inferInstanceAs (Decidable (_ ≠ _))

theorem protectEntry_place (newProt : VmProt) (setMax : Bool) (e : VmMapEntry) :
    (protectEntry newProt setMax e).start = e.start ∧
      (protectEntry newProt setMax e).end_ = e.end_ ∧
    (protectEntry newProt setMax e).copyOnWrite = e.copyOnWrite ∧
      (protectEntry newProt setMax e).isAMap = e.isAMap := by
  unfold protectEntry
  split
  · exact ⟨rfl, rfl, rfl, rfl⟩
  · exact ⟨rfl, rfl, rfl, rfl⟩

theorem protectEntry_front (newProt : VmProt) (setMax : Bool) (e : VmMapEntry) (s : Nat) :
    (protectEntry newProt setMax (e.front s)).protection =
      (protectEntry newProt setMax e).protection := by
  unfold protectEntry
  split
  · rfl
  · rfl

/-- Each entry gets its protection, and there is a call for each that is changed. -/
theorem vmProtectPass_spec {end_ entry fuel : Nat} {cow : Bool} (rep : Rep low high map (ys ++ zs))
    (unshared : ∀ z ∈ zs, z.2.start < end_ → z.2.isAMap = false)
    (first : zs ≠ [] → ∃ y ∈ ys ++ zs.take 1, y.1 = entry ∧ y.2.copyOnWrite = cow)
    (enough : zs.length < fuel ∨ 0 < fuel ∧ ∀ z ∈ zs, end_ ≤ z.2.start) :
    ∃ map' zs' calls, vmProtectPass maps newProt setMax end_ entry fuel map (firstId zs) =
      some (map', calls) ∧
      Rep low high map' (ys ++ zs') ∧
      (∀ c, c ∈ calls ↔ ∃ z ∈ zs, z.2.start < end_ ∧ Changed newProt setMax z.2 ∧
        c = callFor newProt setMax cow end_ z) ∧
      ∀ z ∈ zs, z.2.start < end_ →
        ∃ y ∈ zs', y.2 = protectEntry newProt setMax (z.2.front (min z.2.end_ end_)) := by
  induction fuel generalizing map ys zs with
  | zero => lia
  | succ fuel ih =>
    cases zs with
    | nil => exact ⟨map, [], [], by simp [vmProtectPass], rep, by simp, (by rintro _ ⟨⟩)⟩
    | cons z zs =>
      rw [firstId_cons, vmProtectPass, rep.holds.entry_at]
      by_cases before : z.2.start < end_
      · rw [if_pos ⟨rep.holds.id_ne, before⟩]
        obtain ⟨rest, clipped, shape⟩ := vmMapClipEnd_eq rep before
        obtain ⟨start, stop, copies, shares⟩ :=
          protectEntry_place newProt setMax (z.2.front (min z.2.end_ end_))
        have changed := @Rep.set low high _ ys rest (z.1, z.2.front (min z.2.end_ end_)) clipped _
          start stop
        have here := clipped.holds.entry_at
        have next := changed.holds.next_at
        have after := changed.holds.entry_at
        dsimp only at here next after changed ⊢
        rw [here, next, after]
        generalize vmMapClipEnd map z.1 end_ = map₁ at *
        rw [show ys ++ (z.1, protectEntry newProt setMax (z.2.front (min z.2.end_ end_))) :: rest =
          (ys ++ [(z.1, protectEntry newProt setMax (z.2.front (min z.2.end_ end_)))]) ++
            rest by simp] at changed
        -- the entry that the pass began with is still there
        obtain ⟨y, member, begun, copied⟩ :
            ∃ y ∈ ys ++ [(z.1, protectEntry newProt setMax (z.2.front (min z.2.end_ end_)))], y.1 =
              entry ∧ y.2.copyOnWrite = cow := by
          obtain ⟨y, member, begun, copied⟩ := first (List.cons_ne_nil _ _)
          rcases List.mem_append.mp member with early | here
          · exact ⟨y, List.mem_append_left _ early, begun, copied⟩
          · obtain rfl := List.mem_singleton.mp here
            exact ⟨_, List.mem_append_right _ (List.mem_singleton_self _), begun,
              copies.trans copied⟩
        generalize map₁.setEntry z.1 _ = map₂ at *
        have mask := changed.holds.entries y (List.mem_append_left _ member)
        rw [begun] at mask
        have late : rest = zs ∨ ∀ y ∈ rest, end_ ≤ y.2.start := shape.imp_right And.left
        have enough' : rest.length < fuel ∨ 0 < fuel ∧ ∀ y ∈ rest, end_ ≤ y.2.start := by
          rcases enough with count | ⟨-, late⟩
          · rw [List.length_cons] at count
            rcases late with rfl | late
            · exact .inl (by lia)
            · exact .inr ⟨by lia, late⟩
          · have := late z List.mem_cons_self
            lia
        have call : (if (protectEntry newProt setMax (z.2.front (min z.2.end_ end_))).protection ≠
              (z.2.front (min z.2.end_ end_)).protection
            then vmProtectCalls maps (protectEntry newProt setMax (z.2.front (min z.2.end_ end_)))
              (map₂.entry entry)
            else some []) =
              some (if Changed newProt setMax z.2 then [callFor newProt setMax cow end_
              z] else []) := by
          have same : (protectEntry newProt setMax (z.2.front (min z.2.end_ end_))).protection ≠
              (z.2.front (min z.2.end_ end_)).protection ↔ Changed newProt setMax z.2 := by
            rw [protectEntry_front]
            rfl
          have plain : (z.2.front (min z.2.end_ end_)).isAMap = false :=
            unshared z List.mem_cons_self before
          by_cases changes : Changed newProt setMax z.2
          · rw [if_pos (same.mpr changes), if_pos changes, vmProtectCalls, shares, plain,
              if_neg (by decide), start, stop, protectEntry_front, protMask, mask, copied]
            rfl
          · rw [if_neg fun changed => changes (same.mp changed), if_neg changes]
        obtain ⟨map', zs', calls, run, rep', listed, given⟩ := @ih map₂ _ rest changed
          (fun y member early => by
            rcases shape with rfl | ⟨late, -⟩
            · exact unshared y (List.mem_cons_of_mem _ member) early
            · exact absurd early (Nat.not_lt.mpr (late y member)))
          (fun _ => ⟨y, List.mem_append_left _ member, begun, copied⟩) enough'
        have others (w : Item) (early : w.2.start < end_) : w ∈ rest ↔ w ∈ zs := by
          rcases shape with rfl | ⟨late, late'⟩
          · exact Iff.rfl
          · constructor
            · exact fun member => absurd early (Nat.not_lt.mpr (late w member))
            · exact fun member => absurd early (Nat.not_lt.mpr (late' w member))
        rw [call]
        dsimp only
        rw [run]
        refine ⟨map', _ :: zs', _, rfl, by simpa using rep', fun c => ?_, fun w member early => ?_⟩
        · rw [List.mem_append, listed c]
          constructor
          · rintro (here | ⟨w, later, early, rest⟩)
            · split at here
              · rename_i changes
                exact ⟨z, List.mem_cons_self, before, changes, List.mem_singleton.mp here⟩
              · cases here
            · exact ⟨w, List.mem_cons_of_mem _ ((others w early).mp later), early, rest⟩
          · rintro ⟨w, member, early, changes, same⟩
            rcases List.mem_cons.mp member with rfl | later
            · rw [if_pos changes]
              exact .inl (List.mem_singleton.mpr same)
            · exact .inr ⟨w, (others w early).mpr later, early, changes, same⟩
        · rcases List.mem_cons.mp member with rfl | later
          · exact ⟨_, List.mem_cons_self, rfl⟩
          · obtain ⟨v, there, same⟩ := given w ((others w early).mpr later) early
            exact ⟨v, List.mem_cons_of_mem _ there, same⟩
      · rw [if_neg fun both => before both.2]
        have late : ∀ y ∈ z :: zs, end_ ≤ y.2.start := rep.arranged.late (Nat.not_lt.mp before)
        refine ⟨map, z :: zs, [], rfl, rep, fun c => ?_, fun y member early => ?_⟩
        · constructor
          · rintro ⟨⟩
          · rintro ⟨y, member, early, -⟩
            exact absurd early (Nat.not_lt.mpr (late y member))
        · exact absurd early (Nat.not_lt.mpr (late y member))

end Pass

section Grants

variable {low high : Nat} {map : VmMap} {l ys zs : List Item} {newProt : VmProt} {setMax : Bool}
    {maps : Nat → VmMap}
  {start end_ : Nat}

/-- The call grants what the entry does, and no writing where pages are to be copied first. -/
def Grants (c : PmapProtect) (e : VmMapEntry) : Prop :=
  c.prot &&& e.protection = c.prot ∧ (e.copyOnWrite = true → c.prot &&& VM_PROT_WRITE = 0)

/-- A call of `vm_map_protect` returns, and each of its calls grants what the entry at its addresses
does. -/
def Masked (maps : Nat → VmMap) (map : VmMap) (start end_ : Nat) (newProt : VmProt)
    (setMax : Bool) : Prop :=
  ∃ result map' calls, vmProtect maps map start end_ newProt setMax = some (result, map', calls) ∧
    ∀ c ∈ calls, ∀ x ∈ map'.items, x.overlaps c.start c.end_ → Grants c x.2

/-- An entry that is copied on write and gets writing is behind one that is copied on write. -/
def Led (newProt : VmProt) (setMax : Bool) (l : List Item) : Prop :=
  ∀ x ∈ l, x.2.copyOnWrite = true → Changed newProt setMax x.2 →
    (protectEntry newProt setMax x.2).protection &&& VM_PROT_WRITE ≠ 0 →
      ∀ y ∈ l.head?, y.2.copyOnWrite = true

theorem Led.congr {l' : List Item} (led : Led newProt setMax l)
    (same : l.map
      (fun x => (x.2.copyOnWrite, x.2.protection, (protectEntry newProt setMax x.2).protection)) =
      l'.map fun x => (x.2.copyOnWrite, x.2.protection,
        (protectEntry newProt setMax x.2).protection)) :
    Led newProt setMax l' := by
  intro x member copied changes writes y first
  have there := List.mem_map_of_mem (f := fun x : Item =>
    (x.2.copyOnWrite, x.2.protection, (protectEntry newProt setMax x.2).protection)) member
  rw [← same] at there
  obtain ⟨x', member', keys⟩ := List.mem_map.mp there
  simp only [Prod.mk.injEq] at keys
  obtain ⟨y', first', key⟩ : ∃ y' ∈ l.head?, y'.2.copyOnWrite = y.2.copyOnWrite := by
    cases l' with
    | nil => cases first
    | cons z l' =>
      cases l with
      | nil => cases same
      | cons w l =>
        cases first
        rw [List.map_cons, List.map_cons, List.cons.injEq, Prod.mk.injEq] at same
        exact ⟨w, rfl, same.1.1⟩
  rw [← key]
  refine led x' member' (keys.1.trans copied) ?_ ?_ y' first'
  · unfold Changed
    rw [keys.2.1, keys.2.2]
    exact changes
  · rw [keys.2.2]
    exact writes

/-- The calls of a pass grant what they should just where no writing gets through the mask. -/
theorem grants_iff {map' : VmMap} {zs' : List Item} {calls : List PmapProtect} {cow : Bool}
    (rep : Rep low high map' (ys ++ zs')) (listed : ∀ c, c ∈ calls ↔
      ∃ z ∈ zs, z.2.start < end_ ∧ Changed newProt setMax z.2 ∧
        c = callFor newProt setMax cow end_ z)
    (given : ∀ z ∈ zs, z.2.start < end_ → ∃ y ∈ zs',
      y.2 = protectEntry newProt setMax (z.2.front (min z.2.end_ end_))) :
    (∀ c ∈ calls, ∀ x ∈ ys ++ zs', x.overlaps c.start c.end_ → Grants c x.2) ↔
      ∀ z ∈ zs, z.2.start < end_ → z.2.copyOnWrite = true → Changed newProt setMax z.2 →
        (protectEntry newProt setMax z.2).protection &&& VM_PROT_WRITE ≠ 0 → cow = true := by
  constructor
  · intro all z member early copied changes writes
    obtain ⟨y, there, same⟩ := given z member early
    obtain ⟨start, stop, copies, -⟩ :=
      protectEntry_place newProt setMax (z.2.front (min z.2.end_ end_))
    have proper := rep.arranged.proper y (List.mem_append_right _ there)
    have grants := all _ ((listed _).mpr ⟨z, member, early, changes, rfl⟩) y
      (List.mem_append_right _ there) (by
      rw [same, start, stop] at proper
      rw [Item.overlaps, same, start, stop]
      exact lt_min (max_lt proper proper) (max_lt proper proper))
    have withheld := grants.2 (by rw [same, copies]; exact copied)
    by_contra uncovered
    refine writes ?_
    rw [callFor, if_neg uncovered, BitVec.and_assoc] at withheld
    exact withheld
  · intro led c called x member common
    obtain ⟨z, from', early, changes, rfl⟩ := (listed c).mp called
    obtain ⟨y, there, same⟩ := given z from' early
    obtain ⟨start, stop, copies, -⟩ :=
      protectEntry_place newProt setMax (z.2.front (min z.2.end_ end_))
    have one : x = y := rep.arranged.unique member (List.mem_append_right _ there) (by
      rw [same, start, stop]
      exact common)
    rw [one, same]
    refine ⟨?_, fun copied => ?_⟩
    · rw [protectEntry_front, callFor, BitVec.and_comm, ← BitVec.and_assoc, BitVec.and_self]
    · rw [copies] at copied
      rw [callFor]
      by_cases covered : cow = true
      · rw [if_pos covered, BitVec.and_assoc]
        exact BitVec.and_zero
      · have withheld : (protectEntry newProt setMax z.2).protection &&& VM_PROT_WRITE = 0 := by
          by_contra writes
          exact covered (led z from' early copied changes writes)
        rw [if_neg covered, BitVec.and_assoc]
        exact withheld

/-- The first entry of the pass is the first that has an address of the range. -/
theorem led_iff (arranged : Arranged low high zs) :
    Led newProt setMax (zs.filter fun z => z.2.start < end_) ↔
    ∀ z ∈ zs, z.2.start < end_ → z.2.copyOnWrite = true → Changed newProt setMax z.2 →
      (protectEntry newProt setMax z.2).protection &&& VM_PROT_WRITE ≠ 0 →
      (zs.head?.any fun y => y.2.copyOnWrite) = true := by
  cases zs with
  | nil =>
    constructor
    · exact fun _ => (by rintro _ ⟨⟩)
    · exact fun _ => (by rintro _ ⟨⟩)
  | cons w zs =>
    have before {z : Item} (member : z ∈ w :: zs) (early : z.2.start < end_) :
      w.2.start < end_ := by
      rcases List.mem_cons.mp member with rfl | later
      · exact early
      · have apart := (List.pairwise_cons.mp arranged.sorted).1 z later
        have proper := arranged.proper w List.mem_cons_self
        omega
    have kept (early : w.2.start < end_) :
        ((w :: zs).filter fun z => z.2.start < end_) = w :: zs.filter fun z => z.2.start < end_ :=
      List.filter_cons_of_pos (by simpa using early)
    constructor
    · intro led z member early copied changes writes
      have there : z ∈ (w :: zs).filter fun z => z.2.start < end_ :=
        List.mem_filter.mpr ⟨member, decide_eq_true early⟩
      refine led z there copied changes writes w ?_
      rw [kept (before member early)]
      rfl
    · intro led z there copied changes writes y first
      obtain ⟨member, early⟩ := List.mem_filter.mp there
      have covered := led z member (of_decide_eq_true early) copied changes writes
      rw [kept (before member (of_decide_eq_true early))] at first
      cases first
      exact covered

/-- No call gives writing to pages that are to be copied first, and none gives more than its entry
does, if and only if an entry that would need the mask comes behind one that has it. -/
theorem protect_masked_iff (maps : Nat → VmMap) (rep : Rep low high map l)
    (unlocked : map.lock = false) (unshared : ∀ x ∈ l, x.2.isAMap = false) (start end_ : Nat)
    (newProt : VmProt) (setMax : Bool) :
    Masked maps map start end_ newProt setMax ↔
      (violation newProt (l.filter fun x => x.overlaps start end_) = none →
        Led newProt setMax (l.filter fun x => x.overlaps start end_)) := by
  have locked := rep.relock true
  unfold Masked vmProtect
  rw [vmMapLock_eq unlocked]
  dsimp only
  obtain ⟨map₁, ys, zs, clipped, rep₁, cut, -, keys⟩ :=
    vmMapClipFirst_keys locked (vmMapRangeCheck { map with lock := true } start end_).1
  generalize bound : (vmMapRangeCheck { map with lock := true } start end_).2 = stop at *
  have ranged :
    l.filter (fun x => x.overlaps (vmMapRangeCheck { map with lock := true } start end_).1 stop) =
      l.filter fun x => x.overlaps start end_ := by
    rw [← bound]
    exact filter_rangeCheck locked start end_
  replace keys := keys stop
  rw [ranged] at keys
  have checked := @vmMapViolation_spec low high map₁ ys zs stop _ newProt rep₁ rep₁.fuel
  rw [violation_congr (keys _ (fun e => (e.isSubMap, e.maxProtection)) fun e s => rfl)] at checked
  rw [clipped]
  dsimp only
  rw [checked]
  cases violation newProt (l.filter fun x => x.overlaps start end_) with
  | some why =>
    refine ⟨fun _ => (by rintro ⟨⟩), fun _ => ?_⟩
    cases why with
    | invalidArgument => exact ⟨.invalidArgument, map₁, [], rfl, (by rintro _ ⟨⟩)⟩
    | protectionFailure | success | invalidAddress | noSpace =>
      exact ⟨_, _, [], rfl, (by rintro _ ⟨⟩)⟩
  | none =>
    dsimp only
    have plain : ∀ z ∈ zs, z.2.start < stop → z.2.isAMap = false := by
      intro z member early
      have there := List.mem_map_of_mem (f := fun z : Item => z.2.isAMap)
        (List.mem_filter.mpr ⟨member, decide_eq_true early⟩ : z ∈ zs.filter fun z => z.2.start <
          stop)
      rw [keys _ (fun e => e.isAMap) fun e s => rfl] at there
      obtain ⟨x, kept, same⟩ := List.mem_map.mp there
      rw [← same]
      exact unshared x (List.mem_filter.mp kept).1
    have first : zs ≠ [] → ∃ y ∈ ys ++ zs.take 1, y.1 = firstId zs ∧
        y.2.copyOnWrite = zs.head?.any fun y => y.2.copyOnWrite := by
      intro some
      cases zs with
      | nil => exact absurd rfl some
      | cons z zs => exact ⟨z, List.mem_append_right _ List.mem_cons_self, rfl, rfl⟩
    obtain ⟨map', zs', calls, run, rep', listed, given⟩ :=
      @vmProtectPass_spec low high map₁ ys zs newProt setMax maps stop (firstId zs) map₁.fuel _ rep₁
        plain first (.inl rep₁.fuel)
    rw [run]
    have arranged : Arranged low high zs := rep₁.arranged.sublist (List.sublist_append_right ys zs)
    have keyed :=
      keys _ (fun e => (e.copyOnWrite, e.protection, (protectEntry newProt setMax e).protection))
      fun e s => by
      unfold protectEntry
      split <;> rfl
    have items : (vmMapUnlock map').items = ys ++ zs' := (rep'.relock false).items
    have iff := (grants_iff rep' listed given).trans (led_iff arranged).symm
    constructor
    · rintro ⟨result, map'', calls', same, all⟩ -
      cases same
      rw [items] at all
      exact (iff.mp all).congr keyed
    · intro led
      refine ⟨.success, vmMapUnlock map', calls, rfl, ?_⟩
      rw [items]
      exact iff.mpr ((led rfl).congr keyed.symm)

/-- Memory of the process at 0x4000, and a private mapping of a file at 0x6000. -/
def privateMapping : VmMap :=
  ((replay vmMapNext (vmMapInit 0x1000 0x10000) [placed 0x4000 0x1000, placed 0x6000 0x1000]).map
    fun map =>
    map.setEntry 2 { map.entry 2 with copyOnWrite := true, protection := 1 }).getD
      (vmMapInit 0x1000 0x10000)

theorem privateMapping_rep : Rep 0x1000 0x10000 privateMapping privateMapping.items := by
  have built :
      ((replay vmMapNext (vmMapInit 0x1000 0x10000) [placed 0x4000 0x1000,
      placed 0x6000 0x1000]).any fun map =>
      decide (ids map.items = [1, 2])) = true := by
    decide +kernel
  obtain ⟨map, replayed, numbers⟩ := (Option.any_eq_true _ _).mp built
  have rep := @run_rep 0x1000 0x10000 map _ (replay_run (fun _ _ _ => vmMapNext_step) replayed)
  have same : privateMapping = map.setEntry 2 { map.entry 2 with copyOnWrite := true,
                                                                 protection := 1 } := by
    rw [privateMapping, replayed]
    rfl
  obtain ⟨x, z, items⟩ : ∃ x z, map.items = [x, z] ∧ z.1 = 2 := by
    have count := congrArg List.length (of_decide_eq_true numbers)
    rw [ids, List.length_map] at count
    obtain ⟨x, z, items⟩ := List.length_eq_two.mp count
    refine ⟨x, z, items, ?_⟩
    rw [items] at numbers
    exact (List.cons.inj (List.cons.inj (of_decide_eq_true numbers)).2).1
  obtain ⟨items, second⟩ := items
  rw [items] at rep
  have entry := rep.holds.entries z (by simp)
  rw [second] at entry
  have changed := @Rep.set _ _ map [x] [] z rep { map.entry 2 with copyOnWrite := true,
                                                                   protection := 1 }
    (by rw [entry]) (by rw [entry])
  rw [second, ← same] at changed
  rw [changed.items]
  exact changed

/-- The file becomes writable in a call for it alone. -/
theorem protect_masked_private : ∃ maps, Masked maps privateMapping 0x6000 0x7000 3 false := by
  have plain : ∀ x ∈ privateMapping.items, x.2.isAMap = false := by
    have all : (privateMapping.items.all fun x => !x.2.isAMap) = true := by decide +kernel
    exact fun x member => by simpa using List.all_eq_true.mp all x member
  refine ⟨fun _ => privateMapping,
    (protect_masked_iff _ privateMapping_rep (by decide +kernel) plain 0x6000 0x7000 3 false).mpr
    ?_⟩
  intro _ x _ _ _ _ y first
  have copied :
      ((privateMapping.items.filter fun x => x.overlaps 0x6000 0x7000).head?.all fun y =>
      y.2.copyOnWrite) = true := by
    decide +kernel
  exact (Option.all_eq_true _ _).mp copied y first

/-- A call that begins at the memory before it gives writing to the pages of the file. -/
theorem protect_unmasked : ¬ ∀ (low high : Nat) (maps : Nat → VmMap) (map : VmMap) (l : List Item),
    Rep low high map l →
    map.lock = false → (∀ x ∈ l, x.2.isAMap = false) →
    ∀ (start end_ : Nat) (newProt : VmProt) (setMax : Bool),
      Masked maps map start end_ newProt setMax := by
  intro claim
  have plain : ∀ x ∈ privateMapping.items, x.2.isAMap = false := by
    have all : (privateMapping.items.all fun x => !x.2.isAMap) = true := by decide +kernel
    exact fun x member => by simpa using List.all_eq_true.mp all x member
  obtain ⟨result, map', calls, run, masked⟩ :=
    claim 0x1000 0x10000 (fun _ => privateMapping) privateMapping _ privateMapping_rep
      (by decide +kernel) plain 0x4000 0x7000 3 false
  have bad :
      ((vmProtect (fun _ => privateMapping) privateMapping 0x4000 0x7000 3 false).any fun done =>
      done.2.2.any fun c => done.2.1.items.any fun x =>
        decide (x.overlaps c.start c.end_ ∧ x.2.copyOnWrite = true ∧
          c.prot &&& VM_PROT_WRITE ≠ 0)) = true := by
    decide +kernel
  rw [run] at bad
  obtain ⟨c, called, bad⟩ := List.any_eq_true.mp bad
  obtain ⟨x, member, bad⟩ := List.any_eq_true.mp bad
  obtain ⟨common, copied, writes⟩ := of_decide_eq_true bad
  exact writes ((masked c called x member common).2 copied)

end Grants

end FreeBsd.Vm
