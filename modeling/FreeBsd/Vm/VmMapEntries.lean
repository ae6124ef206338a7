import FreeBsd.Lib.Chain
import FreeBsd.Lib.Tally
import FreeBsd.Vm.VmMap

/-! The entries of a map as a list, and what each step on the links does to it. -/
namespace FreeBsd.Vm

open FreeBsd.Lib

abbrev Item := Nat × VmMapEntry

def ids (l : List Item) : List Nat := l.map Prod.fst

def firstId (l : List Item) : Nat := (ids l).headD 0

def lastId (l : List Item) : Nat := (ids l).getLastD 0

@[simp] theorem ids_nil : ids [] = [] := rfl

@[simp] theorem ids_cons (x : Item) (l : List Item) : ids (x :: l) = x.1 :: ids l := rfl

@[simp] theorem ids_append (l l' : List Item) : ids (l ++ l') = ids l ++ ids l' := List.map_append

@[simp] theorem firstId_nil : firstId [] = 0 := rfl

@[simp] theorem firstId_cons (x : Item) (l : List Item) : firstId (x :: l) = x.1 := rfl

@[simp] theorem lastId_nil : lastId [] = 0 := rfl

@[simp] theorem lastId_append (l : List Item) (x : Item) :
    lastId (l ++ [x]) = x.1 := by simp [lastId]

theorem lastId_mem (l : List Item) : lastId l ∈ 0 :: ids l := getLastD_mem 0 (ids l)

theorem mem_ids {x : Item} {l : List Item} (member : x ∈ l) :
    x.1 ∈ ids l := List.mem_map_of_mem member

structure Holds (low high : Nat) (map : VmMap) (l : List Item) : Prop where
  chain : Chain map.next map.prev 0 (ids l)
  entries : ∀ x ∈ l, map.entry x.1 = x.2
  below : ∀ i ∈ ids l, i < map.fresh
  fresh : 0 < map.fresh
  nentries : map.nentries = l.length
  minOffset : map.minOffset = low
  maxOffset : map.maxOffset = high

section Links

variable {low high : Nat} {map : VmMap} {l ys zs : List Item} {x : Item} {e : VmMapEntry}

theorem Holds.positive (holds : Holds low high map l) {i : Nat} (member : i ∈ ids l) : i ≠ 0 := by
  rintro rfl
  exact (List.nodup_cons.mp holds.chain.nodup).1 member

theorem Holds.next_at (holds : Holds low high map (ys ++ x :: zs)) : map.next x.1 = firstId zs := by
  have chain := holds.chain
  rw [ids_append, ids_cons] at chain
  exact chain.next_of

theorem Holds.prev_at (holds : Holds low high map (ys ++ x :: zs)) : map.prev x.1 = lastId ys := by
  have chain := holds.chain
  rw [ids_append, ids_cons] at chain
  exact chain.prev_of

theorem Holds.joined (holds : Holds low high map (ys ++ zs)) :
    map.next (lastId ys) = firstId zs ∧ map.prev (firstId zs) = lastId ys := by
  have chain := holds.chain
  rw [ids_append] at chain
  exact chain.joined

theorem Holds.next_header (holds : Holds low high map l) : map.next 0 = firstId l :=
  holds.chain.next_head

theorem Holds.entry_at (holds : Holds low high map (ys ++ x :: zs)) : map.entry x.1 = x.2 :=
  holds.entries x (by simp)

theorem Holds.id_ne (holds : Holds low high map (ys ++ x :: zs)) :
    x.1 ≠ 0 := holds.positive (by simp)

theorem Holds.resize (holds : Holds low high map l) (size : Nat) :
    Holds low high { map with size := size } l :=
  ⟨holds.chain, holds.entries, holds.below, holds.fresh, holds.nentries, holds.minOffset,
    holds.maxOffset⟩

theorem entries_update {entry : Nat → VmMapEntry} {i : Nat} (e : VmMapEntry)
    (entries : ∀ y ∈ ys ++ zs, entry y.1 = y.2) (other : i ∉ ids (ys ++ zs)) :
      ∀ y ∈ ys ++ (i, e) :: zs, Function.update entry i e y.1 = y.2 := by
  have old : ∀ y ∈ ys ++ zs, Function.update entry i e y.1 = y.2 := by
    intro y member
    have apart : y.1 ≠ i := fun same => other (same ▸ mem_ids member)
    rw [Function.update_of_ne apart]
    exact entries y member
  intro y member
  rcases List.mem_append.mp member with front | back
  · exact old y (List.mem_append_left _ front)
  · rcases List.mem_cons.mp back with rfl | back
    · exact Function.update_self ..
    · exact old y (List.mem_append_right _ back)

theorem Holds.set (holds : Holds low high map (ys ++ x :: zs)) (e : VmMapEntry) :
    Holds low high (map.setEntry x.1 e) (ys ++ (x.1, e) :: zs) := by
  obtain ⟨chain, entries, below, fresh, nentries, minOffset, maxOffset⟩ := holds
  have distinct := chain.nodup
  rw [ids_append, ids_cons, List.perm_middle.cons _ |>.nodup_iff, List.nodup_cons, List.nodup_cons,
    List.mem_cons, ← ids_append] at distinct
  have header : (map.setEntry x.1 e).entry 0 = map.entry 0 :=
    Function.update_of_ne (fun zero => distinct.1 (.inl zero)) _ _
  refine ⟨?_, ?_, ?_, fresh, ?_, ?_, ?_⟩
  · rw [ids_append, ids_cons] at *
    exact chain
  · apply entries_update e _ distinct.2.1
    intro y member
    refine entries y ?_
    simp only [List.mem_append, List.mem_cons] at member ⊢
    tauto
  · rw [ids_append, ids_cons] at *
    exact below
  · rw [List.length_append, List.length_cons] at *
    exact nentries
  · exact (congrArg VmMapEntry.start header).trans minOffset
  · exact (congrArg VmMapEntry.end_ header).trans maxOffset

theorem Holds.insert (holds : Holds low high map (ys ++ zs)) (e : VmMapEntry) :
    Holds low high (vmMapEntryLink (vmMapEntryCreate map e).2 (lastId ys) map.fresh)
      (ys ++ (map.fresh, e) :: zs) := by
  obtain ⟨chain, entries, below, fresh, nentries, minOffset, maxOffset⟩ := holds
  have new : map.fresh ∉ 0 :: (ids ys ++ ids zs) := by
    rw [List.mem_cons, ← ids_append]
    rintro (zero | old)
    · lia
    · exact Nat.lt_irrefl _ (below _ old)
  have last : lastId ys ≠ map.fresh := by
    intro same
    have member := lastId_mem ys
    rw [same] at member
    simp only [List.mem_cons, List.mem_append] at new member
    tauto
  rw [ids_append] at chain
  have joined : map.next (lastId ys) = firstId zs := chain.joined.1
  have header : (vmMapEntryCreate map e).2.entry 0 = map.entry 0 :=
    Function.update_of_ne (by lia) _ _
  refine ⟨?_, ?_, ?_, Nat.succ_pos _, ?_, ?_, ?_⟩
  · have inserted := chain.insert new
    rw [ids_append, ids_cons]
    simp only [vmMapEntryLink, vmMapEntryCreate, VmMap.setEntry, joined, Function.update_self,
      Function.update_of_ne last.symm]
    exact inserted
  · exact entries_update e entries fun old => Nat.lt_irrefl _ (below _ old)
  · intro i member
    rw [ids_append, ids_cons, List.mem_append, List.mem_cons] at member
    rw [ids_append] at below
    show i < map.fresh + 1
    rcases member with front | rfl | back
    · exact Nat.lt_succ_of_lt (below i (List.mem_append_left _ front))
    · exact Nat.lt_succ_self _
    · exact Nat.lt_succ_of_lt (below i (List.mem_append_right _ back))
  · show map.nentries + 1 = _
    rw [nentries, List.length_append, List.length_append, List.length_cons]
    push_cast
    lia
  · exact (congrArg VmMapEntry.start header).trans minOffset
  · exact (congrArg VmMapEntry.end_ header).trans maxOffset

theorem Holds.unlink (holds : Holds low high map (ys ++ x :: zs)) :
    Holds low high (vmMapEntryUnlink map x.1) (ys ++ zs) := by
  have next := holds.next_at
  have prev := holds.prev_at
  obtain ⟨chain, entries, below, fresh, nentries, minOffset, maxOffset⟩ := holds
  rw [ids_append, ids_cons] at chain
  have removed := chain.remove
  have first : firstId zs ≠ x.1 := by
    intro same
    have member := headD_mem (ids zs) 0
    change firstId zs ∈ _ at member
    have distinct := chain.nodup
    rw [same] at member
    simp only [List.nodup_cons, List.nodup_append, List.mem_append,
      List.mem_cons] at distinct member
    grind
  refine ⟨?_, ?_, ?_, fresh, ?_, minOffset, maxOffset⟩
  · rw [ids_append]
    simp only [vmMapEntryUnlink, next, prev, Function.update_of_ne first.symm]
    exact removed
  · intro y member
    refine entries y ?_
    simp only [List.mem_append, List.mem_cons] at member ⊢
    tauto
  · intro i member
    refine below i ?_
    simp only [ids_append, ids_cons, List.mem_append, List.mem_cons] at member ⊢
    tauto
  · show map.nentries - 1 = _
    rw [nentries, List.length_append, List.length_append, List.length_cons]
    push_cast
    lia

end Links

structure Arranged (low high : Nat) (l : List Item) : Prop where
  sorted : l.Pairwise fun x y => x.2.end_ ≤ y.2.start
  proper : ∀ x ∈ l, x.2.start < x.2.end_
  bounds : ∀ x ∈ l, low ≤ x.2.start ∧ x.2.end_ ≤ high

def Item.length (x : Item) : Nat := x.2.end_ - x.2.start

structure Rep (low high : Nat) (map : VmMap) (l : List Item) : Prop where
  holds : Holds low high map l
  arranged : Arranged low high l
  size : map.size = tally Item.length l
  hint : map.hint ∈ 0 :: ids l
  firstFree : map.firstFree ∈ 0 :: ids l
  narrow : high < 2 ^ 32

/-- The entry that contains an address, or the last one that begins before it. -/
inductive Located (l : List Item) (address : Nat) : Bool → Nat → Prop where
  | inside (ys zs : List Item) (x : Item) (split : l = ys ++ x :: zs) (before : ∀ y ∈ ys,
    y.2.end_ ≤ address)
      (start : x.2.start ≤ address) (stop : address < x.2.end_)
        (behind : ∀ z ∈ zs, address < z.2.start) :
      Located l address true x.1
  | outside (ys zs : List Item) (split : l = ys ++ zs) (before : ∀ y ∈ ys, y.2.end_ ≤ address)
      (behind : ∀ z ∈ zs, address < z.2.start) : Located l address false (lastId ys)

section Lookup

variable {low high : Nat} {map : VmMap} {l ys zs : List Item} {x : Item} {address : Nat}

theorem Located.mem {found : Bool} {entry : Nat} (located : Located l address found entry) :
    entry ∈ 0 :: ids l := by
  cases located with
  | inside ys zs x split => simp [split]
  | outside ys zs split =>
    have member := lastId_mem ys
    simp only [split, ids_append, List.mem_cons, List.mem_append] at member ⊢
    tauto

theorem Arranged.around (arranged : Arranged low high (ys ++ x :: zs)) :
    (∀ y ∈ ys, y.2.end_ ≤ x.2.start) ∧ (∀ z ∈ zs, x.2.end_ ≤ z.2.start) ∧ x.2.start < x.2.end_ ∧
      low ≤ x.2.start ∧
      x.2.end_ ≤ high := by
  obtain ⟨sorted, proper, bounds⟩ := arranged
  rw [List.pairwise_append, List.pairwise_cons] at sorted
  obtain ⟨-, ⟨behind, -⟩, across⟩ := sorted
  exact ⟨fun y member => across y member x List.mem_cons_self, behind, proper x (by simp),
    bounds x (by simp)⟩

theorem firstId_ne (holds : Holds low high map (ys ++ x :: zs)) : firstId zs ≠ x.1 := by
  cases zs with
  | nil => exact holds.id_ne.symm
  | cons z zs =>
    intro same
    have distinct := (List.nodup_cons.mp holds.chain.nodup).2
    rw [ids_append, List.nodup_append, ids_cons, List.nodup_cons, ids_cons] at distinct
    exact distinct.2.1.1 (by rw [← same, firstId_cons]; exact List.mem_cons_self)

theorem vmMapSearch_spec {last fuel : Nat} (holds : Holds low high map (ys ++ zs))
    (arranged : Arranged low high (ys ++ zs)) (before : ∀ y ∈ ys, y.2.end_ ≤ address)
    (enough : zs.length < fuel) (stop : last = 0 ∨ ∃ front x back, zs = front ++ x :: back ∧
      last = firstId back ∧ address < x.2.start) :
    ∃ found entry, vmMapSearch map address last fuel (firstId zs) = some (found, entry) ∧
      Located (ys ++ zs) address found entry := by
  induction zs generalizing ys fuel with
  | nil =>
    obtain ⟨fuel, rfl⟩ : ∃ n, fuel = n + 1 := ⟨fuel - 1, by simp at enough; lia⟩
    have last : last = 0 := by
      rcases stop with zero | ⟨front, x, back, empty, -⟩
      · exact zero
      · simp at empty
    refine ⟨false, lastId ys, ?_, .outside ys [] rfl before (by rintro _ ⟨⟩)⟩
    have header : map.prev 0 = lastId ys := holds.joined.2
    simp [vmMapSearch, last, header]
  | cons z zs ih =>
    obtain ⟨fuel, rfl⟩ : ∃ n, fuel = n + 1 := ⟨fuel - 1, by simp at enough; lia⟩
    obtain ⟨-, behind, proper, -⟩ := arranged.around
    have going : z.1 ≠ last := by
      rcases stop with rfl | ⟨front, x, back, split, rfl, -⟩
      · exact holds.id_ne
      · cases front with
        | nil =>
          obtain ⟨rfl, rfl⟩ := List.cons.inj split
          exact (firstId_ne holds).symm
        | cons w front =>
          obtain ⟨rfl, rfl⟩ := List.cons.inj split
          have distinct := (List.nodup_cons.mp holds.chain.nodup).2
          intro same
          cases back with
          | nil => exact holds.id_ne same
          | cons b back =>
            rw [firstId_cons] at same
            simp [ids, List.nodup_append, same] at distinct
    rw [firstId_cons, vmMapSearch, if_pos going, holds.entry_at]
    by_cases reached : z.2.end_ > address
    · rw [if_pos reached]
      by_cases contains : address ≥ z.2.start
      · rw [if_pos contains]
        exact ⟨true, z.1, rfl, .inside ys zs z rfl before contains reached fun w member =>
          lt_of_lt_of_le reached (behind w member)⟩
      · rw [if_neg contains]
        refine ⟨false,
          lastId ys, by rw [holds.prev_at], .outside ys (z :: zs) rfl before fun w member => ?_⟩
        rcases List.mem_cons.mp member with rfl | later
        · lia
        · have := behind w later
          lia
    · rw [if_neg reached, holds.next_at]
      have split : ys ++ z :: zs = (ys ++ [z]) ++ zs := by simp
      rw [split] at holds arranged ⊢
      apply ih holds arranged
      · intro y member
        rcases List.mem_append.mp member with front | here
        · exact before y front
        · rw [List.mem_singleton.mp here]
          lia
      · simp at enough
        lia
      · rcases stop with zero | ⟨front, x, back, split, last, later⟩
        · exact .inl zero
        · cases front with
          | nil =>
            obtain ⟨rfl, rfl⟩ := List.cons.inj split
            lia
          | cons w front => exact .inr ⟨front, x, back, (List.cons.inj split).2, last, later⟩

theorem vmMapLookupEntry_spec (holds : Holds low high map l) (arranged : Arranged low high l)
    (hint : map.hint ∈ 0 :: ids l) (address : Nat) :
    ∃ found entry hint', vmMapLookupEntry map address =
      some (found, entry, { map with hint := hint' }) ∧
      Located l address found entry ∧ hint' ∈ 0 :: ids l ∧ (found = false → hint' = entry) := by
  have searched : ∀ {ys zs : List Item} {last : Nat}, l = ys ++ zs →
      (∀ y ∈ ys, y.2.end_ ≤ address) →
      (last = 0 ∨ ∃ front x back, zs = front ++ x :: back ∧ last = firstId back ∧
        address < x.2.start) →
      ∃ found entry hint', ((vmMapSearch map address last map.fuel (firstId zs)).map fun r =>
        (r.1, r.2, { map with hint := r.2 })) = some (found, entry, { map with hint := hint' }) ∧
        Located l address found entry ∧ hint' ∈ 0 :: ids l ∧ (found = false → hint' = entry) := by
    rintro ys zs last rfl before stop
    have enough : zs.length < map.fuel := by
      have count := holds.nentries
      rw [List.length_append] at count
      unfold VmMap.fuel
      lia
    obtain ⟨found, entry, search, located⟩ := vmMapSearch_spec holds arranged before enough stop
    exact ⟨found, entry, entry, by rw [search]; rfl, located, located.mem, fun _ => rfl⟩
  unfold vmMapLookupEntry
  dsimp only
  generalize current : (if map.hint = 0 then map.next map.hint else map.hint) = cur
  have cases : (cur = 0 ∧ l = []) ∨ ∃ ys x zs, l = ys ++ x :: zs ∧ x.1 = cur := by
    split at current
    · rename_i zero
      rw [zero, holds.next_header] at current
      cases l with
      | nil => exact .inl ⟨current.symm, rfl⟩
      | cons x zs => exact .inr ⟨[], x, zs, rfl, current⟩
    · rename_i some
      rw [current] at hint some
      rcases List.mem_cons.mp hint with zero | member
      · exact absurd zero some
      · obtain ⟨x, inside, same⟩ := List.mem_map.mp member
        obtain ⟨ys, zs, split⟩ := List.append_of_mem inside
        exact .inr ⟨ys, x, zs, split, same⟩
  rcases cases with ⟨rfl, rfl⟩ | ⟨ys, x, zs, rfl, rfl⟩
  · have next : map.next 0 = 0 := holds.next_header
    rw [if_neg (by simp)]
    have none := @searched [] [] 0 rfl (by rintro _ ⟨⟩) (.inl rfl)
    rw [next]
    split <;> exact none
  · have entry := holds.entry_at
    obtain ⟨front, behind, proper, -⟩ := arranged.around
    rw [entry]
    by_cases below : address ≥ x.2.start
    · by_cases inside : x.2.end_ > address
      · rw [if_pos ⟨below, holds.id_ne, inside⟩]
        refine ⟨true, x.1, map.hint, rfl, .inside ys zs x rfl ?_ below inside ?_, hint,
          (by rintro ⟨⟩)⟩
        · exact fun y member => (front y member).trans below
        · exact fun z member => lt_of_lt_of_le inside (behind z member)
      · rw [if_neg fun found => inside found.2.2, if_pos below]
        exact @searched ys (x :: zs) 0 rfl (fun y member => (front y member).trans below) (.inl rfl)
    · rw [if_neg fun found => below found.1, if_neg below, holds.next_header, holds.next_at]
      exact @searched [] (ys ++ x :: zs) _ rfl (by rintro _ ⟨⟩) (.inr ⟨ys, x, zs, rfl, rfl, by lia⟩)

end Lookup

end FreeBsd.Vm
