import FreeBsd.Lib.Trace
import FreeBsd.Vm.VmMapFind

/-! Maps that any sequence of calls leaves behind. -/
namespace FreeBsd.Vm

open FreeBsd.Lib

section Simplify

variable {low high : Nat} {map : VmMap} {l ys zs : List Item} {x p : Item} {start end_ : Nat}

theorem Rep.merge {free : Nat} (rep : Rep low high map (ys ++ p :: x :: zs))
    (adjoin : p.2.end_ = x.2.start) (member : free ∈ 0 :: ids (ys ++ p :: zs)) :
    Rep low high ((vmMapEntryUnlink { map with hint := p.1, firstFree := free } x.1).setEntry p.1
      { p.2 with end_ := x.2.end_ }) (ys ++ (p.1, { p.2 with end_ := x.2.end_ }) :: zs) := by
  have holds :
    Holds low high { map with hint := p.1, firstFree := free } ((ys ++ [p]) ++ x :: zs) := by
    rw [List.append_assoc, List.singleton_append]
    exact ⟨rep.holds.chain, rep.holds.entries, rep.holds.below, rep.holds.fresh, rep.holds.nentries,
      rep.holds.minOffset, rep.holds.maxOffset⟩
  have unlinked := holds.unlink
  rw [List.append_assoc, List.singleton_append] at unlinked
  have around := rep.arranged
  rw [show ys ++ p :: x :: zs = (ys ++ [p]) ++ x :: zs by simp] at around
  obtain ⟨-, behind, proper', bounds'⟩ := around.around
  obtain ⟨before, -, proper, bounds⟩ := rep.arranged.around
  have shorter := rep.arranged.sublist (List.Sublist.append_left
    ((List.sublist_cons_self x zs).trans (List.sublist_cons_self p (x :: zs))) ys)
  have arranged : Arranged low high (ys ++ (p.1, { p.2 with end_ := x.2.end_ }) :: zs) :=
    shorter.insert bounds.1 bounds'.2 (by show p.2.start < x.2.end_; lia) before behind
  refine ⟨unlinked.set _, arranged, ?_, ?_, ?_, rep.narrow⟩
  · have length : Item.length (p.1, { p.2 with end_ := x.2.end_ }) = x.2.end_ - p.2.start := rfl
    have first : p.length = p.2.end_ - p.2.start := rfl
    have second : x.length = x.2.end_ - x.2.start := rfl
    have size := rep.size
    simp only [tally_append, tally_cons, length, first, second] at size ⊢
    simp only [setEntry_size, vmMapEntryUnlink_size]
    lia
  · simp [VmMap.setEntry, vmMapEntryUnlink]
  · rw [ids_append, ids_cons] at member ⊢
    exact member

theorem vmMapSimplify_spec (rep : Rep low high map l) (unlocked : map.lock = false) (start : Nat) :
    ∃ map' l', vmMapSimplify map start = some map' ∧ Rep low high map' l' := by
  have locked := rep.relock true
  obtain ⟨found, entry, hint, lookup, located, member, -⟩ :=
    vmMapLookupEntry_spec locked.holds locked.arranged locked.hint start
  have rep' := locked.rehint member
  unfold vmMapSimplify
  rw [vmMapLock_eq unlocked]
  dsimp only
  rw [lookup]
  dsimp only
  split
  · rename_i merges
    obtain ⟨rfl, some, adjoins, -⟩ := merges
    cases located with
    | inside ys zs x split before above below behind =>
      subst split
      have prev : map.prev x.1 = lastId ys := rep.holds.prev_at
      dsimp only at some adjoins
      rw [prev] at some adjoins
      obtain ⟨front, p, rfl, number⟩ := rep.exists_last some
      rw [List.append_assoc, List.singleton_append] at rep'
      have this : map.entry x.1 = x.2 := rep.holds.entry_at
      have entry : map.entry p.1 = p.2 := rep'.holds.entry_at
      have adjoin : p.2.end_ = x.2.start := by
        have earlier := (rep.arranged.around).1 p (by simp)
        rw [← number, entry] at adjoins
        omega
      have members := rep'.firstFree
      simp only [ids_append, ids_cons, List.mem_cons, List.mem_append] at members
      rw [prev, ← number]
      dsimp only [vmMapEntryUnlink]
      split
      · have merged := rep'.merge adjoin (show p.1 ∈ _ by simp)
        simp only [vmMapEntryUnlink] at merged ⊢
        rw [entry, this]
        exact ⟨_, _, rfl, merged.relock false⟩
      · rename_i other
        have merged := @Rep.merge low high _ front zs x p map.firstFree rep' adjoin (by
          simp only [ids_append, ids_cons, List.mem_cons, List.mem_append]
          tauto)
        simp only [vmMapEntryUnlink] at merged ⊢
        rw [entry, this]
        exact ⟨_, _, rfl, merged.relock false⟩
  · exact ⟨_, l, rfl, rep'.relock false⟩

end Simplify

section Submap

variable {low high : Nat} {map : VmMap} {l : List Item} {x : Item} {start end_ : Nat}

theorem vmMapSubmap_spec (rep : Rep low high map l) (unlocked : map.lock = false) (submap : Nat)
    (mapped : viewOf l start ≠ none) (proper : start < end_) :
      ∃ result map' l', vmMapSubmap map start end_ submap = some (result, map') ∧
      Rep low high map' l' := by
  have locked := rep.relock true
  obtain ⟨above, below⟩ := viewOf_bounds rep.arranged mapped
  have range : vmMapRangeCheck { map with lock := true } start end_ = (start, min end_ high) := by
    unfold vmMapRangeCheck
    rw [locked.holds.minOffset, locked.holds.maxOffset]
    dsimp only
    split <;> split <;> split <;> apply Prod.ext <;> dsimp only <;> lia
  obtain ⟨map₁, ys, zs, clipped, rep₁, cut, -, -⟩ := vmMapClipFirst_spec locked start
  unfold vmMapSubmap
  rw [vmMapLock_eq unlocked]
  dsimp only
  rw [range]
  dsimp only
  rw [clipped]
  dsimp only
  have there : viewOf zs start ≠ none := by
    intro none
    apply mapped
    rw [← cut.view, viewOf_append, viewOf_before cut.before (Nat.le_refl _), none]
    rfl
  cases zs with
  | nil => exact absurd rfl there
  | cons z zs =>
    have first : z.2.start < min end_ high := by
      obtain ⟨w, member, covers⟩ : ∃ w ∈ z :: zs, w.covers start := by
        by_contra none
        exact there (viewOf_eq_none fun w member covers => none ⟨w, member, covers⟩)
      obtain ⟨-, behind, proper', -⟩ := rep₁.arranged.around
      have start := covers.1
      rcases List.mem_cons.mp member with rfl | later
      · lia
      · have := behind w later
        lia
    obtain ⟨e, rest, clipped', short, -, -⟩ := vmMapClipEnd_cases rep₁ first
    rw [firstId_cons]
    have entry := clipped'.holds.entry_at
    dsimp only at entry
    rw [entry]
    split
    · have changed := @Rep.set low high _ ys rest (z.1, e) clipped' { e with isAMap := false,
                                                                             isSubMap := true,
                                                                             object := some submap }
                                                                             rfl rfl
      exact ⟨_, _, _, rfl, changed.relock false⟩
    · exact ⟨_, _, _, rfl, clipped'.relock false⟩

end Submap

section Calls

inductive VmMapCall where
  | find (coalesces : Nat → Bool) (object : Option Nat) (offset addr length : BitVec 32)
    (findSpace : Bool)
  | insert (coalesces : Nat → Bool) (object : Option Nat) (offset start end_ : BitVec 32)
  | remove (start end_ : BitVec 32)
  | delete (start end_ : BitVec 32)
  | protect (start end_ : BitVec 32) (newProt : VmProt) (setMax : Bool)
  | inherit (start end_ : BitVec 32) (newInheritance : Nat)
  | simplify (start : BitVec 32)
  | submap (start end_ : BitVec 32) (submap : Nat)

def vmMapCall (map : VmMap) : VmMapCall → Option (KernReturn × VmMap)
  | .find coalesces object offset addr length findSpace =>
    (vmMapFind coalesces map object offset.toNat addr.toNat length.toNat findSpace).map fun (result,
      _, map) => (result, map)
  | .insert coalesces object offset start end_ => vmMapInsert coalesces map object offset.toNat
    start.toNat end_.toNat
  | .remove start end_ => vmMapRemove map start.toNat end_.toNat
  | .delete start end_ => vmMapDelete map start.toNat end_.toNat
  | .protect start end_ newProt setMax => vmMapProtect map start.toNat end_.toNat newProt setMax
  | .inherit start end_ newInheritance => vmMapInherit map start.toNat end_.toNat newInheritance
  | .simplify start => (vmMapSimplify map start.toNat).map fun map => (.success, map)
  | .submap start end_ submap => vmMapSubmap map start.toNat end_.toNat submap

def follow (next : Nat → Nat) : Nat → Nat → List Nat
  | 0, _ => []
  | n + 1, i => next i :: follow next n (next i)

def VmMap.items (map : VmMap) : List Item :=
  (follow map.next map.nentries.toNat 0).map fun i => (i, map.entry i)

def VmMap.view (map : VmMap) (a : Nat) : Option Mapping := viewOf map.items a

def Allowed (map : VmMap) : VmMapCall → Prop
  | .submap start end_ _ => start.toNat < end_.toNat ∧ map.view start.toNat ≠ none
  | _ => True

structure VmMapStep (map : VmMap) (call : VmMapCall) (map' : VmMap) : Prop where
  allowed : Allowed map call
  returns : ∃ result, vmMapCall map call = some (result, map')

variable {low high : Nat} {map map' : VmMap} {l : List Item} {call : VmMapCall}

theorem follow_eq {next prev : Nat → Nat} {head : Nat} {ys zs : List Nat}
    (chain : Chain next prev head (ys ++ zs)) :
    follow next zs.length (ys.getLastD head) = zs := by
  induction zs generalizing ys with
  | nil => rfl
  | cons z zs ih =>
    have here := chain.joined.1
    rw [List.length_cons, follow, here, List.headD_cons]
    rw [show ys ++ z :: zs = (ys ++ [z]) ++ zs by simp] at chain
    have rest := ih chain
    rw [List.getLastD_concat] at rest
    rw [rest]

theorem Holds.items (holds : Holds low high map l) : map.items = l := by
  have chain : Chain map.next map.prev 0 ([] ++ ids l) := holds.chain
  have count : map.nentries.toNat = (ids l).length := by
    rw [holds.nentries, ids, List.length_map]
    rfl
  have numbers : follow map.next (ids l).length 0 = ids l := follow_eq chain
  rw [VmMap.items, count, numbers, ids, List.map_map]
  conv_rhs => rw [← List.map_id l]
  apply List.map_congr_left
  intro x member
  rw [Function.comp_apply, holds.entries x member]
  rfl

theorem Rep.items (rep : Rep low high map l) : map.items = l := rep.holds.items

/-- A call on a map that is not locked returns, and the entries stay in order. -/
theorem vmMapCall_spec (rep : Rep low high map l) (allowed : Allowed map call)
    (unlocked : map.lock = false) :
    ∃ result map' l', vmMapCall map call = some (result, map') ∧ Rep low high map' l' := by
  cases call with
  | find coalesces object offset addr length findSpace =>
    cases findSpace with
    | true =>
      obtain ⟨result, s, map', l', found, rep', -⟩ :=
        vmMapFind_space rep unlocked length.isLt coalesces object offset.toNat addr.toNat
      exact ⟨result, map', l', by rw [vmMapCall, found]; rfl, rep'⟩
    | false =>
      obtain ⟨result, map', l', found, rep', -⟩ :=
        vmMapFind_fixed rep unlocked length.isLt coalesces object offset.toNat addr.toNat
      exact ⟨result, map', l', by rw [vmMapCall, found]; rfl, rep'⟩
  | insert coalesces object offset start end_ =>
    obtain ⟨result, map', l', inserted, rep', -⟩ :=
      vmMapInsert_spec rep coalesces object offset.toNat start.toNat end_.toNat
    exact ⟨result, map', l', inserted, rep'⟩
  | remove start end_ =>
    obtain ⟨map', l', removed, rep', -⟩ := vmMapRemove_spec rep unlocked start.toNat end_.toNat
    exact ⟨.success, map', l', removed, rep'⟩
  | delete start end_ =>
    obtain ⟨map', l', deleted, rep', -⟩ := vmMapDelete_spec rep start.toNat end_.toNat
    exact ⟨.success, map', l', deleted, rep'⟩
  | protect start end_ newProt setMax =>
    obtain ⟨map', l', rep', done⟩ :=
      vmMapProtect_spec rep unlocked start.toNat end_.toNat newProt setMax
    split at done
    · exact ⟨.success, map', l', done.1, rep'⟩
    · exact ⟨_, map', l', done.1, rep'⟩
  | inherit start end_ newInheritance =>
    by_cases valid : Inheritable newInheritance
    · obtain ⟨map', l', done, rep', -⟩ :=
        vmMapInherit_spec rep unlocked valid start.toNat end_.toNat
      exact ⟨.success, map', l', done, rep'⟩
    · exact ⟨.invalidArgument, map, l, if_neg valid, rep⟩
  | simplify start =>
    obtain ⟨map', l', done, rep'⟩ := vmMapSimplify_spec rep unlocked start.toNat
    exact ⟨.success, map', l', by rw [vmMapCall, done]; rfl, rep'⟩
  | submap start end_ submap =>
    have mapped : viewOf l start.toNat ≠ none := by
      have there := allowed.2
      rw [VmMap.view, rep.items] at there
      exact there
    exact vmMapSubmap_spec rep unlocked submap mapped allowed.1

theorem vmMapLock_none (locked : map.lock = true) : vmMapLock map = none := by
  rw [vmMapLock, locked]
  rfl

/-- A call on a locked map waits, but for those that leave the lock to the caller. -/
theorem vmMapCall_locked {result : KernReturn} (rep : Rep low high map l) (locked : map.lock = true)
    (returns : vmMapCall map call = some (result, map')) : ∃ l', Rep low high map' l' := by
  have waits := vmMapLock_none locked
  cases call with
  | insert coalesces object offset start end_ =>
    obtain ⟨_, _, l', inserted, rep', -⟩ :=
      vmMapInsert_spec rep coalesces object offset.toNat start.toNat end_.toNat
    rw [vmMapCall, inserted] at returns
    cases returns
    exact ⟨l', rep'⟩
  | delete start end_ =>
    obtain ⟨_, l', deleted, rep', -⟩ := vmMapDelete_spec rep start.toNat end_.toNat
    rw [vmMapCall, deleted] at returns
    cases returns
    exact ⟨l', rep'⟩
  | inherit start end_ newInheritance =>
    rw [vmMapCall, vmMapInherit] at returns
    split at returns
    · rw [waits] at returns
      cases returns
    · cases returns
      exact ⟨l, rep⟩
  | find | remove | protect | simplify | submap =>
    simp only [vmMapCall, vmMapFind, vmMapRemove, vmMapProtect, vmMapSimplify, vmMapSubmap, waits,
      Option.map_none] at returns
    cases returns

theorem VmMapStep.rep (step : VmMapStep map call map') (rep : Rep low high map l) :
    ∃ l', Rep low high map' l' := by
  obtain ⟨result, returns⟩ := step.returns
  cases lock : map.lock with
  | true => exact vmMapCall_locked rep lock returns
  | false =>
    obtain ⟨_, _, l', returned, rep'⟩ := vmMapCall_spec rep step.allowed lock
    rw [returned] at returns
    cases returns
    exact ⟨l', rep'⟩

end Calls

section Runs

variable {min max : BitVec 32} {map : VmMap} {calls : List VmMapCall}

theorem vmMapInit_rep (min max : BitVec 32) :
    Rep min.toNat max.toNat (vmMapInit min.toNat max.toNat) [] := by
  refine ⟨⟨⟨?_, ?_⟩, (by rintro _ ⟨⟩), (by rintro _ ⟨⟩), Nat.one_pos, rfl, rfl, rfl⟩,
    ⟨.nil, (by rintro _ ⟨⟩), (by rintro _ ⟨⟩)⟩, rfl, ?_, ?_, max.isLt⟩
  · exact .cons_cons ⟨rfl, rfl⟩ (.singleton 0)
  · simp
  · exact List.mem_cons_self
  · exact List.mem_cons_self

theorem run_rep (run : Run VmMapStep (vmMapInit min.toNat max.toNat) calls map) :
    Rep min.toNat max.toNat map map.items := by
  have reached : ∃ l, Rep min.toNat max.toNat map l := by
    have initial := vmMapInit_rep min max
    generalize vmMapInit min.toNat max.toNat = start at run initial
    generalize hl : ([] : List Item) = l at initial
    clear hl
    induction run generalizing l with
    | nil => exact ⟨l, initial⟩
    | cons step _ ih =>
      obtain ⟨l', rep⟩ := step.rep initial
      exact ih l' rep
  obtain ⟨l, rep⟩ := reached
  rw [rep.items]
  exact rep

instance (map : VmMap) (call : VmMapCall) : Decidable (Allowed map call) :=
  match call with
  | .submap _ _ _ => inferInstanceAs (Decidable (_ ∧ _))
  | .find _ _ _ _ _ _ | .insert _ _ _ _ _ | .remove _ _ | .delete _ _ | .protect _ _ _ _ |
    .inherit _ _ _ | .simplify _ =>
    inferInstanceAs (Decidable True)

def vmMapNext (map : VmMap) (call : VmMapCall) : Option VmMap :=
  if Allowed map call then (vmMapCall map call).map Prod.snd else none

theorem vmMapNext_step {map' : VmMap} {call : VmMapCall} (next : vmMapNext map call = some map') :
    VmMapStep map call map' := by
  unfold vmMapNext at next
  split at next
  · rename_i allowed
    obtain ⟨⟨result, _⟩, returned, rfl⟩ := Option.map_eq_some_iff.mp next
    exact ⟨allowed, result, returned⟩
  · cases next

def placed (addr length : BitVec 32) : VmMapCall := .find (fun _ => false) none 0 addr length false

/-- In every run the entries are a doubly linked list, sorted by address, with the counts and the
hints right, a lookup finds its entry whatever the hint is, and calls return. -/
theorem map_represented (run : Run VmMapStep (vmMapInit min.toNat max.toNat) calls map) :
    Rep min.toNat max.toNat map map.items ∧
      (∀ hint ∈ 0 :: ids map.items, ∀ address, ∃ found entry map',
        vmMapLookupEntry { map with hint := hint } address = some (found, entry, map') ∧
          Located map.items address found entry) ∧
      ∀ call, map.lock = false → Allowed map call →
        ∃ result map', vmMapCall map call = some (result, map') := by
  have rep := run_rep run
  refine ⟨rep, fun hint member address => ?_, fun call unlocked allowed => ?_⟩
  · have hinted := rep.rehint member
    obtain ⟨found, entry, _, lookup, located, -⟩ :=
      vmMapLookupEntry_spec hinted.holds hinted.arranged hinted.hint address
    exact ⟨found, entry, _, lookup, located⟩
  · obtain ⟨result, map', -, returned, -⟩ := vmMapCall_spec rep allowed unlocked
    exact ⟨result, map', returned⟩

/-- A region whose second half is protected and made inheritable, and a region below it. -/
def patchwork : List VmMapCall :=
  [placed 0x4000 0x2000, .protect 0x5000 0x8000 1 false, .inherit 0x5800 0x6000 2,
    .find (fun _ => true) (some 9) 0 0 0x3000 true, .remove 0x4800 0x4c00, .simplify 0x5000]

theorem map_represented_patchwork : ∃ map, Run VmMapStep (vmMapInit 0x1000 0x10000) patchwork map ∧
    map.nentries = 5 ∧ map.size = 0x4c00 ∧ Rep 0x1000 0x10000 map map.items := by
  have found : ((replay vmMapNext (vmMapInit 0x1000 0x10000) patchwork).any fun map =>
      decide (map.nentries = 5) && decide (map.size = 0x4c00)) = true := by
    decide +kernel
  obtain ⟨map, replayed, counts⟩ := (Option.any_eq_true _ _).mp found
  have run : Run VmMapStep (vmMapInit 0x1000 0x10000) patchwork map :=
    replay_run (fun _ _ _ => vmMapNext_step) replayed
  simp only [Bool.and_eq_true, decide_eq_true_eq] at counts
  exact ⟨map, run, counts.1, counts.2, (@map_represented 0x1000 0x10000 map patchwork run).1⟩

/-- A search finds the first free region from the address on, or there is none. -/
def FindsFirst (coalesces : Nat → Bool) (map : VmMap) (object : Option Nat)
    (offset addr length : Nat) : Prop :=
  ∃ result s map', vmMapFind coalesces map object offset addr length true = some (result, s, map') ∧
    (result = .success ∧
        FirstFit map.minOffset map.maxOffset map.items length (Max.max addr map.minOffset)
          (some s) ∨
      result = .noSpace ∧ FirstFit map.minOffset map.maxOffset map.items length
        (Max.max addr map.minOffset) none ∧
        Unchanged map map')

def FindsFixed (coalesces : Nat → Bool) (map : VmMap) (object : Option Nat)
    (offset addr length : Nat) : Prop :=
  ∃ result map', vmMapFind coalesces map object offset addr length false =
    some (result, addr, map') ∧
    (result = .success ↔ Fits map.minOffset map.maxOffset map.items addr (addr + length)) ∧
    (result ≠ .success → Unchanged map map')

/-- The search begins at the end of the entry that `first_free` names, and a region below would do.
-/
def Skips (map : VmMap) (addr length : Nat) : Prop :=
  ∃ a, Max.max addr map.minOffset ≤ a ∧ a < map.searchStart addr ∧
    Fits map.minOffset map.maxOffset map.items a (a + length)

theorem searchStart_ge {low high : Nat} (rep : Rep low high map map.items) (addr : Nat) :
    Max.max addr low ≤ map.searchStart addr := by
  unfold VmMap.searchStart
  rw [rep.holds.minOffset]
  split
  · rename_i bottom
    have member := (List.mem_cons.mp rep.firstFree).resolve_left bottom.2
    obtain ⟨x, inside, number⟩ := List.mem_map.mp member
    have bounds := rep.arranged.bounds x inside
    have proper := rep.arranged.proper x inside
    rw [← number, rep.holds.entries x inside]
    omega
  · exact Nat.le_refl _

/-- `vm_map_find` is first fit but for the free space below `first_free`. -/
theorem find_first_fit (run : Run VmMapStep (vmMapInit min.toNat max.toNat) calls map)
    (unlocked : map.lock = false) (coalesces : Nat → Bool) (object : Option Nat)
    (offset addr length : BitVec 32) (positive : 0 < length.toNat) :
    (FindsFirst coalesces map object offset.toNat addr.toNat length.toNat ↔
      ¬ Skips map addr.toNat length.toNat) ∧
      FindsFixed coalesces map object offset.toNat addr.toNat length.toNat := by
  have rep := run_rep run
  constructor
  · obtain ⟨result, s, map', -, found, -, -, answer⟩ :=
      vmMapFind_space rep unlocked length.isLt coalesces object offset.toNat addr.toNat
    have answer := answer positive
    unfold FindsFirst Skips
    rw [rep.holds.minOffset, rep.holds.maxOffset]
    constructor
    · rintro ⟨_, _, _, found', first⟩ ⟨a, above, below, fits⟩
      rw [found] at found'
      cases found'
      rcases first with ⟨success, first⟩ | ⟨-, first, -⟩
      · rcases answer with ⟨-, later⟩ | ⟨failure, -, -⟩
        · cases first with
          | found _ _ _ first =>
            cases later with
            | found _ after _ _ =>
              have := first a above fits
              omega
        · rw [success] at failure
          cases failure
      · cases first with
        | missing full => exact full a above fits
    · intro clear
      have order := searchStart_ge rep addr.toNat
      have none : ∀ a, Max.max addr.toNat min.toNat ≤ a → a < map.searchStart addr.toNat →
          ¬ Fits min.toNat max.toNat map.items a (a + length.toNat) :=
        fun a above below fits => clear ⟨a, above, below, fits⟩
      refine ⟨result, s, map', found, ?_⟩
      rcases answer with ⟨success, first⟩ | ⟨failure, first, same⟩
      · exact .inl ⟨success, first.below order none⟩
      · exact .inr ⟨failure, first.below order none, same⟩
  · obtain ⟨result, map', -, found, -, -, success, failure⟩ :=
      vmMapFind_fixed rep unlocked length.isLt coalesces object offset.toNat addr.toNat
    unfold FindsFixed
    rw [rep.holds.minOffset, rep.holds.maxOffset]
    exact ⟨result, map', found, success positive, failure⟩

/-- Two regions at the bottom, the second of which is removed again, and one behind a gap. -/
def gaps : List VmMapCall :=
  [placed 0x1000 0x2000, placed 0x3000 0x1000, placed 0x6000 0x1000, .remove 0x3000 0x4000]

/-- The gap that `first_free` stands at is too short for the region. -/
theorem find_first_fit_gaps : ∃ map, Run VmMapStep (vmMapInit 0x1000 0x10000) gaps map ∧
    map.nentries = 2 ∧ map.searchStart 0 = 0x3000 ∧
    FindsFirst (fun _ => false) map none 0 0 0x4000 ∧
      FindsFixed (fun _ => false) map none 0 0 0x4000 ∧
    (vmMapFind (fun _ => false) map none 0 0 0x4000 true).map (fun found => (found.1, found.2.1)) =
      some (.success, 0x7000) := by
  have found : ((replay vmMapNext (vmMapInit 0x1000 0x10000) gaps).any fun map =>
      decide (map.lock = false ∧ map.nentries = 2 ∧ map.minOffset = 0x1000 ∧
        map.searchStart 0 = 0x3000 ∧
        (∃ x ∈ map.items, x.2.start = 0x1000 ∧ x.2.end_ = 0x3000) ∧
        (vmMapFind (fun _ => false) map none 0 0 0x4000 true).map (fun found => (found.1,
          found.2.1)) =
          some (.success, 0x7000))) = true := by
    decide +kernel
  obtain ⟨map, replayed, facts⟩ := (Option.any_eq_true _ _).mp found
  have run : Run VmMapStep (vmMapInit 0x1000 0x10000) gaps map :=
    replay_run (fun _ _ _ => vmMapNext_step) replayed
  obtain ⟨unlocked, entries, bottom, begins, ⟨x, member, start, stop⟩, answer⟩ :=
    of_decide_eq_true facts
  obtain ⟨first, fixed⟩ := @find_first_fit 0x1000 0x10000 map gaps run unlocked (fun _ => false)
    none 0 0
    0x4000 (by decide)
  refine ⟨map, run, entries, begins, first.mpr ?_, fixed, answer⟩
  rintro ⟨a, above, below, fits⟩
  change a < map.searchStart 0 at below
  have apart := fits.free x member
  change x.2.end_ ≤ a ∨ a + 0x4000 ≤ x.2.start at apart
  omega

/-- The first region is placed above the bottom, and the next one is not found below it. -/
theorem find_not_first : ¬ ∀ (min max : BitVec 32) (calls : List VmMapCall) (map : VmMap),
    Run VmMapStep (vmMapInit min.toNat max.toNat) calls map → map.lock = false →
    ∀ (coalesces : Nat → Bool) (object : Option Nat) (offset addr length : BitVec 32),
      0 < length.toNat →
      FindsFirst coalesces map object offset.toNat addr.toNat length.toNat := by
  intro claim
  have found : ((replay vmMapNext (vmMapInit 0x1000 0x10000) [placed 0x4000 0x1000]).any fun map =>
      decide (map.lock = false ∧ map.minOffset = 0x1000 ∧ map.maxOffset = 0x10000 ∧
        ∀ x ∈ map.items, x.2.end_ ≤ 0x1000 ∨ 0x2000 ≤ x.2.start) &&
        (vmMapFind (fun _ => false) map none 0 0x1000 0x1000 true).any fun found =>
          decide (found.1 = .success ∧ found.2.1 = 0x5000)) = true := by
    decide +kernel
  obtain ⟨map, replayed, facts⟩ := (Option.any_eq_true _ _).mp found
  have run : Run VmMapStep (vmMapInit 0x1000 0x10000) [placed 0x4000 0x1000] map :=
    replay_run (fun _ _ _ => vmMapNext_step) replayed
  rw [Bool.and_eq_true, decide_eq_true_iff] at facts
  obtain ⟨⟨unlocked, bottom, top, free⟩, other⟩ := facts
  obtain ⟨⟨result, s, map'⟩, returned, facts⟩ := (Option.any_eq_true _ _).mp other
  obtain ⟨rfl, rfl⟩ := of_decide_eq_true facts
  obtain ⟨_, _, _, returned', first⟩ :=
    claim 0x1000 0x10000 _ map run unlocked (fun _ => false) none 0 0x1000 0x1000 (by decide)
  have returned'' := returned.symm.trans returned'
  cases returned''
  rw [bottom, top] at first
  rcases first with ⟨-, first⟩ | ⟨failure, -, -⟩
  · cases first with
    | found _ _ _ first =>
      have earlier := first 0x1000 (by decide) ⟨by decide, by decide, by decide, free⟩
      exact absurd earlier (by decide)
  · cases failure

/-- A change of protection does what it should, and gives the lock back. -/
def Protects (map : VmMap) (start end_ : Nat) (newProt : VmProt) (setMax : Bool) : Prop :=
  ∃ result map', vmMapProtect map start end_ newProt setMax = some (result, map') ∧
    (result = .success → map'.lock = false ∧ ∀ a, map'.view a =
      if start ≤ a ∧ a < end_ then (map.view a).map (protectMapping newProt setMax) else map.view
        a) ∧
    (result ≠ .success → map'.lock = false ∧ ∀ a, map'.view a = map.view a)

def Obstructed (map : VmMap) (start end_ : Nat) (newProt : VmProt) : Prop :=
  violation newProt (map.items.filter fun x => x.overlaps start end_) = some .invalidArgument

theorem violation_ne_success (newProt : VmProt) (l : List Item) :
    violation newProt l ≠ some .success := by
  induction l with
  | nil => rintro ⟨⟩
  | cons x l ih =>
    rw [violation]
    split
    · rintro ⟨⟩
    · split
      · rintro ⟨⟩
      · exact ih

/-- Range operations act on the addresses of the range, but for the lock that `vm_map_protect`
keeps when it meets a submap. -/
theorem ranges_addressed (run : Run VmMapStep (vmMapInit min.toNat max.toNat) calls map)
    (unlocked : map.lock = false) (start end_ : Nat) :
    (∃ map', vmMapRemove map start end_ = some (.success, map') ∧ map'.lock = false ∧
        ∀ a, map'.view a = if start ≤ a ∧ a < end_ then none else map.view a) ∧
      (∀ inheritance, Inheritable inheritance →
        ∃ map', vmMapInherit map start end_ inheritance = some (.success, map') ∧
        map'.lock = false ∧ ∀ a, map'.view a =
          if start ≤ a ∧ a < end_ then (map.view a).map fun m =>
            { m with inheritance := inheritance } else map.view a) ∧
      (∀ inheritance, ¬ Inheritable inheritance →
        vmMapInherit map start end_ inheritance = some (.invalidArgument, map)) ∧
      ∀ newProt setMax, Protects map start end_ newProt setMax ↔
        ¬ Obstructed map start end_ newProt := by
  have rep := run_rep run
  refine ⟨?_, fun inheritance valid => ?_, fun inheritance invalid => if_neg invalid,
    fun newProt setMax => ?_⟩
  · obtain ⟨map', l', removed, rep', lock, view⟩ := vmMapRemove_spec rep unlocked start end_
    refine ⟨map', removed, lock, fun a => ?_⟩
    rw [VmMap.view, rep'.items]
    exact view a
  · obtain ⟨map', l', done, rep', lock, view⟩ := vmMapInherit_spec rep unlocked valid start end_
    refine ⟨map', done, lock, fun a => ?_⟩
    rw [VmMap.view, rep'.items]
    exact view a
  · obtain ⟨map', l', rep', done⟩ := vmMapProtect_spec rep unlocked start end_ newProt setMax
    have items := rep'.items
    unfold Protects Obstructed
    have possible := violation_ne_success newProt (map.items.filter fun x => x.overlaps start end_)
    cases found : violation newProt (map.items.filter fun x => x.overlaps start end_) with
    | none =>
      rw [found] at done
      obtain ⟨returned, lock, view⟩ := done
      refine ⟨fun _ => (by rintro ⟨⟩), fun _ => ⟨.success, map', returned,
        fun _ => ⟨lock, fun a => ?_⟩, fun no => absurd rfl no⟩⟩
      rw [VmMap.view, items]
      exact view a
    | some result =>
      rw [found] at done possible
      obtain ⟨returned, lock, view⟩ := done
      have failed : result ≠ .success := fun success => possible (congrArg some success)
      constructor
      · rintro ⟨_, _, returned', -, failing⟩ obstructed
        rw [returned] at returned'
        cases returned'
        have free := (failing failed).1
        rw [lock, Option.some.inj obstructed] at free
        cases free
      · intro clear
        refine ⟨result, map', returned, fun success => absurd success failed,
          fun _ => ⟨?_, fun a => ?_⟩⟩
        · rw [lock]
          exact decide_eq_false fun obstructed => clear (congrArg some obstructed)
        · rw [VmMap.view, items]
          exact view a

/-- The protection of half of a region, where no submap is in the way. -/
theorem ranges_addressed_half :
    ∃ map, Run VmMapStep (vmMapInit 0x1000 0x10000) [placed 0x4000 0x1000] map ∧
    Protects map 0x4800 0x5000 1 true := by
  have found : ((replay vmMapNext (vmMapInit 0x1000 0x10000) [placed 0x4000 0x1000]).any fun map =>
      decide (map.lock = false ∧
        violation 1 (map.items.filter fun x => x.overlaps 0x4800 0x5000) = none)) = true := by
    decide +kernel
  obtain ⟨map, replayed, facts⟩ := (Option.any_eq_true _ _).mp found
  have run : Run VmMapStep (vmMapInit 0x1000 0x10000) [placed 0x4000 0x1000] map :=
    replay_run (fun _ _ _ => vmMapNext_step) replayed
  obtain ⟨unlocked, clear⟩ := of_decide_eq_true facts
  have protects := (@ranges_addressed 0x1000 0x10000 map _ run unlocked 0x4800 0x5000).2.2.2 1 true
  refine ⟨map, run, protects.mpr ?_⟩
  rw [Obstructed, clear]
  rintro ⟨⟩

/-- A change of protection of a submap leaves the map locked. -/
theorem protect_keeps_lock : ¬ ∀ (min max : BitVec 32) (calls : List VmMapCall) (map : VmMap),
    Run VmMapStep (vmMapInit min.toNat max.toNat) calls map → map.lock = false →
    ∀ (start end_ : Nat) (newProt : VmProt) (setMax : Bool),
      Protects map start end_ newProt setMax := by
  intro claim
  have found :
      ((replay vmMapNext (vmMapInit 0x1000 0x10000) [placed 0x4000 0x1000,
      .submap 0x4000 0x5000 7]).any fun map =>
      decide (map.lock = false) && (vmMapProtect map 0x4000 0x5000 1 false).any fun done =>
        decide (done.1 = .invalidArgument ∧ done.2.lock = true)) = true := by
    decide +kernel
  obtain ⟨map, replayed, facts⟩ := (Option.any_eq_true _ _).mp found
  have run :
      Run VmMapStep (vmMapInit 0x1000 0x10000) [placed 0x4000 0x1000, .submap 0x4000 0x5000 7]
      map :=
    replay_run (fun _ _ _ => vmMapNext_step) replayed
  rw [Bool.and_eq_true, decide_eq_true_iff] at facts
  obtain ⟨unlocked, other⟩ := facts
  obtain ⟨⟨result, map'⟩, returned, facts⟩ := (Option.any_eq_true _ _).mp other
  obtain ⟨rfl, locked⟩ := of_decide_eq_true facts
  obtain ⟨_, _, returned', -, failing⟩ :=
    claim 0x1000 0x10000 _ map run unlocked 0x4000 0x5000 1 false
  rw [returned] at returned'
  cases returned'
  have free := (failing (by rintro ⟨⟩)).1
  rw [free] at locked
  cases locked

end Runs

end FreeBsd.Vm
