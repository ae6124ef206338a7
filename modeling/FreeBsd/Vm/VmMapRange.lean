import FreeBsd.Vm.VmMapEntries

/-! Operations on a range of addresses: clipping, changing and deleting entries, and what they
do to what each address is mapped to. -/
namespace FreeBsd.Vm

open FreeBsd.Lib

structure Mapping where
  object : Option Nat
  offset : Nat
  protection : VmProt
  maxProtection : VmProt
  inheritance : Nat
  wiredCount : Int
  deriving DecidableEq, Repr

def VmMapEntry.mapping (e : VmMapEntry) (a : Nat) : Mapping :=
  ⟨e.object, add32 e.offset (sub32 a e.start), e.protection, e.maxProtection, e.inheritance,
    e.wiredCount⟩

def Item.covers (x : Item) (a : Nat) : Prop := x.2.start ≤ a ∧ a < x.2.end_

instance (x : Item) (a : Nat) : Decidable (x.covers a) := inferInstanceAs (Decidable (_ ∧ _))

def viewOf (l : List Item) (a : Nat) : Option Mapping :=
  (l.find? fun x => x.covers a).map fun x => x.2.mapping a

def VmMapEntry.front (e : VmMapEntry) (s : Nat) : VmMapEntry := { e with end_ := s }

def VmMapEntry.back (e : VmMapEntry) (s : Nat) : VmMapEntry :=
  { e with offset := add32 e.offset (sub32 s e.start), start := s }

section View

variable {low high : Nat} {l ys zs : List Item} {x : Item} {a s : Nat}

@[simp] theorem viewOf_nil (a : Nat) : viewOf [] a = none := rfl

theorem viewOf_cons (x : Item) (l : List Item) (a : Nat) :
    viewOf (x :: l) a = if x.covers a then some (x.2.mapping a) else viewOf l a := by
  unfold viewOf
  rw [List.find?_cons]
  split
  · rename_i covers
    rw [if_pos (of_decide_eq_true covers)]
    rfl
  · rename_i apart
    rw [if_neg (of_decide_eq_false apart)]

theorem viewOf_append (ys zs : List Item) (a : Nat) :
    viewOf (ys ++ zs) a = (viewOf ys a).or (viewOf zs a) := by
  unfold viewOf
  rw [List.find?_append, Option.map_or]

theorem viewOf_eq_none (apart : ∀ x ∈ l, ¬ x.covers a) : viewOf l a = none := by
  unfold viewOf
  rw [Option.map_eq_none_iff, List.find?_eq_none]
  exact fun x member => by simpa using apart x member

theorem viewOf_clip {i n : Nat} (low : x.2.start ≤ s) (high : s ≤ x.2.end_) :
    viewOf ((n, x.2.front s) :: (i, x.2.back s) :: zs) a = viewOf (x :: zs) a := by
  rw [viewOf_cons, viewOf_cons, viewOf_cons]
  by_cases inside : x.covers a
  · obtain ⟨above, below⟩ := inside
    rw [if_pos (show x.covers a from ⟨above, below⟩)]
    by_cases first : a < s
    · rw [if_pos (show Item.covers (n, x.2.front s) a from ⟨above, first⟩)]
      rfl
    · have back : Item.covers (i, x.2.back s) a := ⟨Nat.not_lt.mp first, below⟩
      rw [if_neg (show ¬ Item.covers (n, x.2.front s) a from fun front => first front.2),
        if_pos back]
      have offset : add32 (add32 x.2.offset (sub32 s x.2.start)) (sub32 a s) =
          add32 x.2.offset (sub32 a x.2.start) := by
        unfold add32 sub32
        omega
      simp only [VmMapEntry.mapping, VmMapEntry.back, offset]
  · rw [if_neg inside, if_neg, if_neg]
    · exact fun back => inside ⟨low.trans back.1, back.2⟩
    · exact fun front => inside ⟨front.1, lt_of_lt_of_le front.2 high⟩

theorem arranged_clip {i n : Nat} (arranged : Arranged low high (ys ++ x :: zs))
    (above : x.2.start < s) (below : s < x.2.end_) :
      Arranged low high (ys ++ (n, x.2.front s) :: (i, x.2.back s) :: zs) := by
  obtain ⟨before, behind, proper, bounds⟩ := arranged.around
  obtain ⟨sorted, propers, inside⟩ := arranged
  rw [List.pairwise_append, List.pairwise_cons] at sorted
  obtain ⟨front, ⟨-, back⟩, across⟩ := sorted
  refine ⟨?_, ?_, ?_⟩
  · rw [List.pairwise_append, List.pairwise_cons, List.pairwise_cons]
    refine ⟨front, ⟨?_, behind, back⟩, ?_⟩
    · intro z member
      rcases List.mem_cons.mp member with rfl | later
      · exact Nat.le_refl s
      · exact below.le.trans (behind z later)
    · intro y early z member
      have here := before y early
      rcases List.mem_cons.mp member with rfl | member
      · exact here
      · rcases List.mem_cons.mp member with rfl | later
        · exact here.trans above.le
        · exact across y early z (List.mem_cons_of_mem _ later)
  · intro z member
    simp only [List.mem_append, List.mem_cons] at member
    rcases member with early | rfl | rfl | later
    · exact propers z (by simp [early])
    · exact above
    · exact below
    · exact propers z (by simp [later])
  · intro z member
    simp only [List.mem_append, List.mem_cons] at member
    rcases member with early | rfl | rfl | later
    · exact inside z (by simp [early])
    · exact ⟨bounds.1, below.le.trans bounds.2⟩
    · exact ⟨bounds.1.trans above.le, bounds.2⟩
    · exact inside z (by simp [later])

end View

structure SameMarks (map map' : VmMap) : Prop where
  lock : map'.lock = map.lock
  hint : map'.hint = map.hint
  firstFree : map'.firstFree = map.firstFree

theorem SameMarks.trans {map map' map'' : VmMap} (first : SameMarks map map')
    (second : SameMarks map' map'') :
    SameMarks map map'' :=
  ⟨second.lock.trans first.lock, second.hint.trans first.hint,
    second.firstFree.trans first.firstFree⟩

section Clip

variable {low high : Nat} {map : VmMap} {l ys zs : List Item} {x : Item} {a s : Nat}

theorem vmMapClipStart_marks (map : VmMap) (i s : Nat) :
    SameMarks map (vmMapClipStart map i s) := by
  unfold vmMapClipStart
  dsimp only
  split <;> exact ⟨rfl, rfl, rfl⟩

theorem vmMapClipEnd_marks (map : VmMap) (i s : Nat) : SameMarks map (vmMapClipEnd map i s) := by
  unfold vmMapClipEnd
  dsimp only
  split <;> exact ⟨rfl, rfl, rfl⟩

theorem vmMapClipStart_size (map : VmMap) (i s : Nat) :
    (vmMapClipStart map i s).size = map.size := by
  unfold vmMapClipStart
  dsimp only
  split <;> rfl

theorem vmMapClipEnd_size (map : VmMap) (i s : Nat) : (vmMapClipEnd map i s).size = map.size := by
  unfold vmMapClipEnd
  dsimp only
  split <;> rfl

theorem Rep.clip {map' : VmMap} {i n : Nat} (rep : Rep low high map (ys ++ x :: zs))
    (above : x.2.start < s) (below : s < x.2.end_)
    (holds : Holds low high map' (ys ++ (n, x.2.front s) :: (i, x.2.back s) :: zs))
    (size : map'.size = map.size) (marks : SameMarks map map') (kept : x.1 = i ∨ x.1 = n) :
    Rep low high map' (ys ++ (n, x.2.front s) :: (i, x.2.back s) :: zs) := by
  have more :
      ∀ j ∈ 0 :: ids (ys ++ x :: zs), j ∈
      0 :: ids (ys ++ (n, x.2.front s) :: (i, x.2.back s) :: zs) := by
    intro j member
    simp only [ids_append, ids_cons, List.mem_cons, List.mem_append] at member ⊢
    rcases kept with same | same <;> rw [← same] <;> tauto
  refine ⟨holds, arranged_clip rep.arranged above below, ?_, ?_, ?_, rep.narrow⟩
  · have front : Item.length (n, x.2.front s) = s - x.2.start := rfl
    have back : Item.length (i, x.2.back s) = x.2.end_ - s := rfl
    have whole : x.length = x.2.end_ - x.2.start := rfl
    rw [size, rep.size]
    simp only [tally_append, tally_cons, front, back, whole]
    lia
  · rw [marks.hint]
    exact more _ rep.hint
  · rw [marks.firstFree]
    exact more _ rep.firstFree

theorem vmMapClipStart_spec (rep : Rep low high map (ys ++ x :: zs)) (above : x.2.start < s)
    (below : s < x.2.end_) :
    Rep low high (vmMapClipStart map x.1 s) (ys ++ (map.fresh, x.2.front s) :: (x.1,
      x.2.back s) :: zs) := by
  have holds := rep.holds.insert (x.2.front s)
  have split : ys ++ (map.fresh, x.2.front s) :: x :: zs = (ys ++ [(map.fresh, x.2.front s)]) ++
      x :: zs := by simp
  rw [split] at holds
  have holds := holds.set (x.2.back s)
  apply rep.clip above below _ (vmMapClipStart_size map x.1 s) (vmMapClipStart_marks map x.1 s)
    (.inl rfl)
  simp only [vmMapClipStart, rep.holds.entry_at, gt_iff_lt, above, if_true]
  have prev : ((vmMapEntryCreate map (x.2.front s)).2.setEntry x.1 (x.2.back s)).prev x.1 =
      lastId ys := rep.holds.prev_at
  rw [show ({ x.2 with end_ := s } : VmMapEntry) = x.2.front s from rfl,
    show ({ x.2 with offset := add32 x.2.offset (sub32 s x.2.start), start := s } : VmMapEntry) =
    x.2.back s from rfl, prev]
  rw [List.append_assoc, List.singleton_append] at holds
  exact holds

theorem vmMapClipEnd_spec (rep : Rep low high map (ys ++ x :: zs)) (above : x.2.start < s)
    (below : s < x.2.end_) :
    Rep low high (vmMapClipEnd map x.1 s) (ys ++ (x.1, x.2.front s) :: (map.fresh,
      x.2.back s) :: zs) := by
  have holds := rep.holds
  rw [show ys ++ x :: zs = (ys ++ [x]) ++ zs by simp] at holds
  have holds := holds.insert (x.2.back s)
  rw [lastId_append, List.append_assoc, List.singleton_append] at holds
  have holds := holds.set (x.2.front s)
  apply rep.clip above below _ (vmMapClipEnd_size map x.1 s) (vmMapClipEnd_marks map x.1 s)
    (.inr rfl)
  simp only [vmMapClipEnd, rep.holds.entry_at, below, if_true]
  exact holds

/-- The first of the entries does not reach beyond `s` after it has been clipped there. -/
theorem vmMapClipEnd_cases (rep : Rep low high map (ys ++ x :: zs)) (above : x.2.start < s) :
    ∃ e rest, Rep low high (vmMapClipEnd map x.1 s) (ys ++ (x.1, e) :: rest) ∧ e.end_ ≤ s ∧
      (∀ a, viewOf ((x.1, e) :: rest) a = viewOf (x :: zs) a) ∧
        (rest = zs ∨ ∀ z ∈ rest, s ≤ z.2.start) := by
  by_cases below : s < x.2.end_
  · refine ⟨x.2.front s, _, vmMapClipEnd_spec rep above below, Nat.le_refl s, fun a => ?_, .inr ?_⟩
    · exact viewOf_clip above.le below.le
    · obtain ⟨-, behind, -⟩ := rep.arranged.around
      intro z member
      rcases List.mem_cons.mp member with rfl | later
      · exact Nat.le_refl s
      · exact below.le.trans (behind z later)
  · have same : vmMapClipEnd map x.1 s = map := by
      simp only [vmMapClipEnd, rep.holds.entry_at, below, if_false]
    rw [same]
    exact ⟨x.2, zs, rep, Nat.not_lt.mp below, fun a => rfl, .inl rfl⟩

end Clip

section Change

variable {low high : Nat} {map : VmMap} {l ys zs : List Item} {x : Item} {a s : Nat}

theorem Arranged.sublist {l' : List Item} (arranged : Arranged low high l) (sub : l'.Sublist l) :
    Arranged low high l' :=
  ⟨arranged.sorted.sublist sub, fun x member => arranged.proper x (sub.subset member),
    fun x member => arranged.bounds x (sub.subset member)⟩

theorem Arranged.replace {y : Item} (arranged : Arranged low high (ys ++ x :: zs))
    (start : x.2.start ≤ y.2.start) (stop : y.2.end_ ≤ x.2.end_) (proper : y.2.start < y.2.end_) :
      Arranged low high (ys ++ y :: zs) := by
  obtain ⟨before, behind, -, bounds⟩ := arranged.around
  obtain ⟨sorted, propers, inside⟩ := arranged
  rw [List.pairwise_append, List.pairwise_cons] at sorted
  obtain ⟨front, ⟨-, back⟩, across⟩ := sorted
  have others : ∀ z ∈ ys ++ y :: zs, z = y ∨ z ∈ ys ++ x :: zs := by
    intro z member
    simp only [List.mem_append, List.mem_cons] at member ⊢
    tauto
  refine ⟨?_, ?_, ?_⟩
  · rw [List.pairwise_append, List.pairwise_cons]
    refine ⟨front, ⟨fun z later => stop.trans (behind z later), back⟩, ?_⟩
    intro w early z member
    rcases List.mem_cons.mp member with rfl | later
    · exact (before w early).trans start
    · exact across w early z (List.mem_cons_of_mem _ later)
  · intro z member
    rcases others z member with rfl | old
    · exact proper
    · exact propers z old
  · intro z member
    rcases others z member with rfl | old
    · exact ⟨bounds.1.trans start, stop.trans bounds.2⟩
    · exact inside z old

theorem tally_length_le (arranged : Arranged low high l) : tally Item.length l ≤ high - low := by
  induction l generalizing low with
  | nil => exact Nat.zero_le _
  | cons x l ih =>
    obtain ⟨-, behind, proper, bounds⟩ :=
      (show Arranged low high ([] ++ x :: l) from arranged).around
    have rest := arranged.sublist (List.sublist_cons_self x l)
    have later :=
      ih ⟨rest.sorted, rest.proper, fun z member => ⟨behind z member, (rest.bounds z member).2⟩⟩
    rw [tally_cons, Item.length]
    lia

theorem Rep.set (rep : Rep low high map (ys ++ x :: zs)) {e : VmMapEntry}
    (start : e.start = x.2.start) (stop : e.end_ = x.2.end_) :
      Rep low high (map.setEntry x.1 e) (ys ++ (x.1, e) :: zs) := by
  have same : ids (ys ++ (x.1, e) :: zs) = ids (ys ++ x :: zs) := by simp
  obtain ⟨-, -, proper, -⟩ := rep.arranged.around
  have arranged := @Arranged.replace low high ys zs x (x.1, e) rep.arranged start.ge stop.le (by
    show e.start < e.end_
    lia)
  refine ⟨rep.holds.set e, arranged,
    ?_, by rw [same]; exact rep.hint, by rw [same]; exact rep.firstFree, rep.narrow⟩
  have length : Item.length (x.1, e) = x.length := by
    show e.end_ - e.start = x.2.end_ - x.2.start
    lia
  simp only [tally_append, tally_cons, length]
  have size := rep.size
  rw [tally_append, tally_cons] at size
  exact size

theorem viewOf_behind (behind : ∀ z ∈ zs, s ≤ z.2.start) (before : a < s) : viewOf zs a = none :=
  viewOf_eq_none fun z member covers => absurd (behind z member) (by have := covers.1; omega)

theorem viewOf_before (before : ∀ y ∈ ys, y.2.end_ ≤ s) (behind : s ≤ a) : viewOf ys a = none :=
  viewOf_eq_none fun y member covers => absurd (before y member) (by have := covers.2; omega)

theorem vmMapChange_spec {change : VmMapEntry → VmMapEntry} {g : Mapping → Mapping}
    {end_ fuel : Nat} (place : ∀ e, (change e).start = e.start ∧ (change e).end_ = e.end_)
    (contents : ∀ e a, (change e).mapping a = g (e.mapping a)) (rep : Rep low high map (ys ++ zs))
    (enough : zs.length < fuel ∨ 0 < fuel ∧ ∀ z ∈ zs, end_ ≤ z.2.start) :
    ∃ map' zs', vmMapChange change end_ fuel map (firstId zs) = some map' ∧
      Rep low high map' (ys ++ zs') ∧
      SameMarks map map' ∧ ∀ a, viewOf zs' a =
        if a < end_ then (viewOf zs a).map g else viewOf zs a := by
  induction fuel generalizing map ys zs with
  | zero => lia
  | succ fuel ih =>
    cases zs with
    | nil => exact ⟨map, [], by simp [vmMapChange], rep, ⟨rfl, rfl, rfl⟩, by simp⟩
    | cons z zs =>
      rw [firstId_cons, vmMapChange, rep.holds.entry_at]
      by_cases before : z.2.start < end_
      · rw [if_pos ⟨rep.holds.id_ne, before⟩]
        obtain ⟨e, rest, clipped, short, view, shape⟩ := vmMapClipEnd_cases rep before
        have changed := @Rep.set low high _ ys rest (z.1, e) clipped (change e) (place e).1
          (place e).2
        have next := changed.holds.next_at
        dsimp only at next changed ⊢
        rw [clipped.holds.entry_at, next]
        rw [show ys ++ (z.1, change e) :: rest =
          (ys ++ [(z.1, change e)]) ++ rest by simp] at changed
        have enough' : rest.length < fuel ∨ 0 < fuel ∧ ∀ y ∈ rest, end_ ≤ y.2.start := by
          rcases enough with count | ⟨-, late⟩
          · rw [List.length_cons] at count
            rcases shape with rfl | late
            · exact .inl (by lia)
            · exact .inr ⟨by lia, late⟩
          · have := late z List.mem_cons_self
            lia
        obtain ⟨map', rest', run, rep', marks, views⟩ := ih changed enough'
        refine ⟨map', (z.1, change e) :: rest', run, by simpa using rep', ?_, fun a => ?_⟩
        · exact (vmMapClipEnd_marks map z.1 end_).trans ⟨marks.lock, marks.hint, marks.firstFree⟩
        · rw [← view a, viewOf_cons, viewOf_cons, views a]
          have covers : Item.covers (z.1, change e) a ↔ Item.covers (z.1, e) a := by
            unfold Item.covers
            rw [(place e).1, (place e).2]
          by_cases inside : Item.covers (z.1, e) a
          · have early : a < end_ := lt_of_lt_of_le inside.2 short
            rw [if_pos (covers.mpr inside), if_pos inside, if_pos early, contents]
            rfl
          · rw [if_neg fun changed => inside (covers.mp changed), if_neg inside]
      · rw [if_neg fun both => before both.2]
        refine ⟨map, z :: zs, rfl, rep, ⟨rfl, rfl, rfl⟩, fun a => ?_⟩
        split
        · rename_i early
          have late : ∀ y ∈ z :: zs, end_ ≤ y.2.start := by
            obtain ⟨-, behind, proper, -⟩ := rep.arranged.around
            intro y member
            rcases List.mem_cons.mp member with rfl | later
            · lia
            · have := behind y later
              lia
          rw [viewOf_behind late early]
          rfl
        · rfl

end Change

section Delete

variable {low high : Nat} {map : VmMap} {l ys zs : List Item} {x : Item} {a s : Nat}

theorem Arranged.late (arranged : Arranged low high (ys ++ x :: zs)) (late : s ≤ x.2.start) :
    ∀ z ∈ x :: zs, s ≤ z.2.start := by
  obtain ⟨-, behind, proper, -⟩ := arranged.around
  intro z member
  rcases List.mem_cons.mp member with rfl | later
  · exact late
  · have := behind z later
    omega

@[simp] theorem setEntry_size (map : VmMap) (i : Nat) (e : VmMapEntry) :
    (map.setEntry i e).size = map.size := rfl

@[simp] theorem vmMapEntryUnlink_size (map : VmMap) (i : Nat) :
    (vmMapEntryUnlink map i).size = map.size := rfl

theorem vmMapEntryDelete_spec (rep : Rep low high map (ys ++ x :: zs))
    (hint : map.hint ∈ 0 :: ids ys) (firstFree : map.firstFree ∈ 0 :: ids ys) :
    Rep low high (vmMapEntryDelete map x.1) (ys ++ zs) ∧
      SameMarks map (vmMapEntryDelete map x.1) := by
  have more : ∀ i ∈ 0 :: ids ys, i ∈ 0 :: ids (ys ++ zs) := by
    intro i member
    simp only [ids_append, List.mem_cons, List.mem_append] at member ⊢
    tauto
  have arranged := rep.arranged.sublist (List.Sublist.append_left (List.sublist_cons_self x zs) ys)
  have size : sub32 map.size (sub32 x.2.end_ x.2.start) = tally Item.length (ys ++ zs) := by
    obtain ⟨-, -, proper, bounds⟩ := rep.arranged.around
    have whole := tally_length_le rep.arranged
    have narrow := rep.narrow
    have length : x.length = x.2.end_ - x.2.start := rfl
    rw [rep.size]
    rw [tally_append, tally_cons] at whole ⊢
    rw [tally_append]
    unfold sub32
    lia
  unfold vmMapEntryDelete
  rw [rep.holds.entry_at]
  dsimp only
  split
  · have holds := (rep.holds.set { x.2 with wiredCount := 0 }).unlink
    exact ⟨⟨holds.resize _,
      arranged, by simpa using size, more _ hint, more _ firstFree, rep.narrow⟩, ⟨rfl, rfl, rfl⟩⟩
  · have holds := rep.holds.unlink
    exact ⟨⟨holds.resize _,
      arranged, by simpa using size, more _ hint, more _ firstFree, rep.narrow⟩, ⟨rfl, rfl, rfl⟩⟩

theorem vmMapDeleteFrom_spec {end_ fuel : Nat} (rep : Rep low high map (ys ++ zs))
    (hint : map.hint ∈ 0 :: ids ys) (firstFree : map.firstFree ∈ 0 :: ids ys)
    (enough : zs.length < fuel ∨ 0 < fuel ∧ ∀ z ∈ zs, end_ ≤ z.2.start) :
    ∃ map' zs', vmMapDeleteFrom end_ fuel map (firstId zs) = some map' ∧
      Rep low high map' (ys ++ zs') ∧
      SameMarks map map' ∧ ∀ a, viewOf zs' a = if a < end_ then none else viewOf zs a := by
  induction fuel generalizing map zs with
  | zero => lia
  | succ fuel ih =>
    cases zs with
    | nil => exact ⟨map, [], by simp [vmMapDeleteFrom], rep, ⟨rfl, rfl, rfl⟩, by simp⟩
    | cons z zs =>
      rw [firstId_cons, vmMapDeleteFrom, rep.holds.entry_at]
      by_cases before : z.2.start < end_
      · rw [if_pos ⟨rep.holds.id_ne, before⟩]
        obtain ⟨e, rest, clipped, short, view, shape⟩ := vmMapClipEnd_cases rep before
        have marks := vmMapClipEnd_marks map z.1 end_
        obtain ⟨deleted, marks'⟩ := vmMapEntryDelete_spec clipped (by rw [marks.hint]; exact hint)
          (by rw [marks.firstFree]; exact firstFree)
        have next := clipped.holds.next_at
        dsimp only at next marks' deleted ⊢
        rw [next]
        have both := marks.trans marks'
        obtain ⟨map', rest', run, rep', marks'', views⟩ :=
          ih deleted (by rw [both.hint]; exact hint)
            (by rw [both.firstFree]; exact firstFree) (by
              rcases enough with count | ⟨-, late⟩
              · rw [List.length_cons] at count
                rcases shape with rfl | late
                · exact .inl (by lia)
                · exact .inr ⟨by lia, late⟩
              · have := late z List.mem_cons_self
                lia)
        refine ⟨map', rest', run, rep', both.trans marks'', fun a => ?_⟩
        rw [views a, ← view a, viewOf_cons]
        split
        · rfl
        · rename_i late
          rw [if_neg fun covers => late (lt_of_lt_of_le covers.2 short)]
      · rw [if_neg fun both => before both.2]
        refine ⟨map, z :: zs, rfl, rep, ⟨rfl, rfl, rfl⟩, fun a => ?_⟩
        split
        · rename_i early
          exact viewOf_behind (rep.arranged.late (Nat.not_lt.mp before)) early
        · rfl

/-- The entries are cut at `start`: `ys` come before it and `zs` behind it. -/
structure CutAt (l : List Item) (start : Nat) (ys zs : List Item) : Prop where
  before : ∀ y ∈ ys, y.2.end_ ≤ start
  behind : ∀ z ∈ zs, start ≤ z.2.start
  view : ∀ a, viewOf (ys ++ zs) a = viewOf l a

theorem Rep.rehint {hint : Nat} (rep : Rep low high map l) (member : hint ∈ 0 :: ids l) :
    Rep low high { map with hint := hint } l :=
  ⟨⟨rep.holds.chain, rep.holds.entries, rep.holds.below, rep.holds.fresh, rep.holds.nentries,
    rep.holds.minOffset, rep.holds.maxOffset⟩, rep.arranged, rep.size, member, rep.firstFree,
    rep.narrow⟩

theorem vmMapClipStart_cases (rep : Rep low high map (ys ++ x :: zs)) (above : x.2.start ≤ s)
    (below : s < x.2.end_) :
    ∃ ys' e, Rep low high (vmMapClipStart map x.1 s) (ys' ++ (x.1, e) :: zs) ∧
      CutAt (ys ++ x :: zs) s ys' ((x.1, e) :: zs) ∧ e.start = s ∧ (∀ i ∈ ids ys, i ∈ ids ys') ∧
      (e = x.2.back s ∨ e = x.2) := by
  obtain ⟨before, behind, proper, -⟩ := rep.arranged.around
  by_cases strictly : x.2.start < s
  · have clipped := vmMapClipStart_spec rep strictly below
    rw [show ys ++ (map.fresh, x.2.front s) :: (x.1, x.2.back s) :: zs =
      (ys ++ [(map.fresh, x.2.front s)]) ++ (x.1, x.2.back s) :: zs by simp] at clipped
    refine ⟨_, _, clipped, ⟨?_, ?_, ?_⟩, rfl, fun i member => by simp [member], .inl rfl⟩
    · intro y member
      rcases List.mem_append.mp member with early | here
      · exact (before y early).trans above
      · rw [List.mem_singleton.mp here]
        exact Nat.le_refl s
    · exact clipped.arranged.late (Nat.le_refl s)
    · intro a
      rw [List.append_assoc, List.singleton_append, viewOf_append, viewOf_append,
        viewOf_clip above below.le]
  · have same : vmMapClipStart map x.1 s = map := by
      simp only [vmMapClipStart, rep.holds.entry_at, gt_iff_lt, strictly, if_false]
    have start : x.2.start = s := by omega
    rw [same]
    refine ⟨ys, x.2, rep, ⟨?_, ?_, fun _ => rfl⟩, start, fun i member => member, .inr rfl⟩
    · exact fun y early => (before y early).trans above
    · exact rep.arranged.late start.ge

end Delete

/-- What is in the way of a change of protection: the first entry that is a submap or does not
allow it. -/
def violation (newProt : VmProt) : List Item → Option KernReturn
  | [] => none
  | x :: rest =>
    if x.2.isSubMap then some .invalidArgument
    else if newProt &&& x.2.maxProtection ≠ newProt then some .protectionFailure
    else violation newProt rest

def Item.overlaps (x : Item) (start end_ : Nat) : Prop := max start x.2.start < min end_ x.2.end_

instance (x : Item) (start end_ : Nat) : Decidable (x.overlaps start end_) :=
  inferInstanceAs (Decidable (_ < _))

section First

variable {low high : Nat} {map : VmMap} {l ys zs : List Item} {x : Item} {a s : Nat}

theorem filter_overlaps {start end_ : Nat} (before : ∀ y ∈ ys, y.2.end_ ≤ start)
    (behind : ∀ z ∈ zs, start ≤ z.2.start) (proper : ∀ z ∈ zs, z.2.start < z.2.end_) :
    (ys ++ zs).filter (fun x => x.overlaps start end_) = zs.filter fun z => z.2.start < end_ := by
  have none : ys.filter (fun x => x.overlaps start end_) = [] := by
    rw [List.filter_eq_nil_iff]
    intro y member
    have := before y member
    rw [decide_eq_true_iff, Item.overlaps]
    lia
  rw [List.filter_append, none, List.nil_append]
  apply List.filter_congr
  intro z member
  have late := behind z member
  have some := proper z member
  rw [decide_eq_decide, Item.overlaps]
  lia

theorem vmMapClipFirst_keys (rep : Rep low high map l) (start : Nat) :
    ∃ map' ys zs, vmMapClipFirst map start = some (firstId zs, map') ∧
      Rep low high map' (ys ++ zs) ∧ CutAt l start ys zs ∧
      map'.lock = map.lock ∧ ∀ (end_ : Nat) (β : Type) (key : VmMapEntry → β),
        (∀ e s, key (e.back s) = key e) →
        (zs.filter fun z => z.2.start < end_).map (fun z => key z.2) =
          (l.filter fun x => x.overlaps start end_).map fun x => key x.2 := by
  obtain ⟨found, entry, hint, lookup, located, member, -⟩ :=
    vmMapLookupEntry_spec rep.holds rep.arranged rep.hint start
  have rep' := rep.rehint member
  unfold vmMapClipFirst
  rw [lookup]
  cases located with
  | inside ys zs x split before above below behind =>
    subst split
    obtain ⟨ys', e, clipped, cut, first, -, kept⟩ := vmMapClipStart_cases rep' above below
    refine ⟨_, ys', (x.1, e) :: zs, rfl, clipped, cut, (vmMapClipStart_marks _ x.1 start).lock,
      fun end_ β key same => ?_⟩
    have none : ys.filter (fun x => x.overlaps start end_) = [] := by
      rw [List.filter_eq_nil_iff]
      intro y member
      have := before y member
      rw [decide_eq_true_iff, Item.overlaps]
      lia
    have rest : zs.filter (fun z => z.2.start < end_) = zs.filter fun x =>
      x.overlaps start end_ := by
      have later :=
        @filter_overlaps [] zs start end_ (by rintro _ ⟨⟩) (fun z member => (behind z member).le)
          (fun z member => rep.arranged.proper z (by simp [member]))
      rw [List.nil_append] at later
      exact later.symm
    rw [List.filter_append, none, List.nil_append, List.filter_cons, List.filter_cons, rest]
    have here : decide (e.start < end_) = decide (x.overlaps start end_) := by
      rw [decide_eq_decide, first]
      unfold Item.overlaps
      lia
    have back : key e = key x.2 := by
      rcases kept with rfl | rfl
      · exact same x.2 start
      · rfl
    dsimp only
    rw [here]
    split
    · rw [List.map_cons, List.map_cons, back]
    · rfl
  | outside ys zs split before behind =>
    subst split
    have proper : ∀ z ∈ zs, z.2.start < z.2.end_ :=
      fun z member => rep.arranged.proper z (by simp [member])
    refine ⟨_, ys, zs, ?_, rep', ⟨before, fun z member => (behind z member).le, fun _ => rfl⟩, rfl,
      fun end_ β key _ => ?_⟩
    · dsimp only
      rw [rep.holds.joined.1]
    · rw [filter_overlaps before (fun z member => (behind z member).le) proper]

theorem violation_congr {newProt : VmProt} {l' : List Item}
    (same : l.map (fun x => (x.2.isSubMap, x.2.maxProtection)) =
      l'.map fun x => (x.2.isSubMap, x.2.maxProtection)) :
    violation newProt l = violation newProt l' := by
  induction l generalizing l' with
  | nil =>
    obtain rfl := List.map_eq_nil_iff.mp same.symm
    rfl
  | cons x l ih =>
    cases l' with
    | nil => cases same
    | cons y l' =>
      rw [List.map_cons, List.map_cons, List.cons.injEq, Prod.mk.injEq] at same
      rw [violation, violation, same.1.1, same.1.2, ih same.2]

theorem vmMapClipFirst_spec (rep : Rep low high map l) (start : Nat) :
    ∃ map' ys zs, vmMapClipFirst map start = some (firstId zs, map') ∧
      Rep low high map' (ys ++ zs) ∧ CutAt l start ys zs ∧
      map'.lock = map.lock ∧ ∀ end_ newProt,
        violation newProt (zs.filter fun z => z.2.start < end_) =
          violation newProt (l.filter fun x => x.overlaps start end_) := by
  obtain ⟨map', ys, zs, clipped, rep', cut, lock, keys⟩ := vmMapClipFirst_keys rep start
  exact ⟨map', ys, zs, clipped, rep', cut, lock,
    fun end_ newProt =>
    violation_congr (keys end_ _ (fun e => (e.isSubMap, e.maxProtection)) fun e s => rfl)⟩

theorem vmMapViolation_spec {end_ fuel : Nat} (newProt : VmProt) (rep : Rep low high map (ys ++ zs))
    (enough : zs.length < fuel) :
    vmMapViolation map end_ newProt fuel (firstId zs) =
      some (violation newProt (zs.filter fun z => z.2.start < end_)) := by
  induction zs generalizing ys fuel with
  | nil =>
    obtain ⟨fuel, rfl⟩ : ∃ n, fuel = n + 1 := ⟨fuel - 1, by simp at enough; lia⟩
    simp [vmMapViolation, violation]
  | cons z zs ih =>
    obtain ⟨fuel, rfl⟩ : ∃ n, fuel = n + 1 := ⟨fuel - 1, by simp at enough; lia⟩
    rw [firstId_cons, vmMapViolation, rep.holds.entry_at]
    by_cases before : z.2.start < end_
    · rw [if_pos ⟨rep.holds.id_ne, before⟩, List.filter_cons_of_pos (by simpa using before),
        violation, rep.holds.next_at]
      rw [show ys ++ z :: zs = (ys ++ [z]) ++ zs by simp] at rep
      rw [ih rep (by simp at enough; lia)]
      split
      · rfl
      · split <;> rfl
    · rw [if_neg fun both => before both.2]
      have none : (z :: zs).filter (fun z => z.2.start < end_) = [] := by
        rw [List.filter_eq_nil_iff]
        intro y member
        have late := rep.arranged.late (Nat.not_lt.mp before) y member
        simp only [decide_eq_true_eq]
        lia
      rw [none]
      rfl

end First

section Range

variable {low high : Nat} {map : VmMap} {l ys zs : List Item} {x : Item} {a : Nat}
    {start end_ : Nat}

theorem CutAt.view_range {zs' : List Item} {G : Option Mapping → Option Mapping}
    (cut : CutAt l start ys zs) (empty : G none = none)
    (view : ∀ a, viewOf zs' a = if a < end_ then G (viewOf zs a) else viewOf zs a) (a : Nat) :
    viewOf (ys ++ zs') a = if start ≤ a ∧ a < end_ then G (viewOf l a) else viewOf l a := by
  rw [← cut.view a, viewOf_append, viewOf_append, view a]
  by_cases early : a < start
  · rw [viewOf_behind cut.behind early, empty, ite_self,
      if_neg fun both => absurd both.1 (Nat.not_le.mpr early)]
  · rw [viewOf_before cut.before (Nat.not_lt.mp early), Option.none_or, Option.none_or]
    by_cases inside : a < end_
    · rw [if_pos inside, if_pos ⟨Nat.not_lt.mp early, inside⟩]
    · rw [if_neg inside, if_neg fun both => inside both.2]

theorem viewOf_bounds (arranged : Arranged low high l) (mapped : viewOf l a ≠ none) :
    low ≤ a ∧ a < high := by
  by_contra outside
  apply mapped
  apply viewOf_eq_none
  intro x member covers
  obtain ⟨above, below⟩ := arranged.bounds x member
  obtain ⟨first, last⟩ := covers
  omega

theorem vmMapRangeCheck_view {G : Option Mapping → Option Mapping} (rep : Rep low high map l)
    (empty : G none = none) (a : Nat) :
    (if (vmMapRangeCheck map start end_).1 ≤ a ∧ a < (vmMapRangeCheck map start end_).2 then G
      (viewOf l a) else viewOf l a) =
      if start ≤ a ∧ a < end_ then G (viewOf l a) else viewOf l a := by
  by_cases mapped : viewOf l a = none
  · rw [mapped, empty]
    split <;> split <;> rfl
  · obtain ⟨above, below⟩ := viewOf_bounds rep.arranged mapped
    have same : ((vmMapRangeCheck map start end_).1 ≤ a ∧ a < (vmMapRangeCheck map start end_).2) ↔
        (start ≤ a ∧ a < end_) := by
      unfold vmMapRangeCheck
      rw [rep.holds.minOffset, rep.holds.maxOffset]
      dsimp only
      split <;> split <;> split <;> lia
    simp only [same]

/-- The free space hint does not name an entry behind the cut after `vm_map_delete` has looked at
it. -/
theorem firstFree_before (rep : Rep low high map (ys ++ zs)) (behind : ∀ z ∈ zs, start ≤ z.2.start)
    (before : ¬ (map.entry map.firstFree).start ≥ start) : map.firstFree ∈ 0 :: ids ys := by
  have member := rep.firstFree
  rw [ids_append, List.mem_cons, List.mem_append] at member
  rcases member with zero | early | late
  · exact zero ▸ List.mem_cons_self
  · exact List.mem_cons_of_mem _ early
  · obtain ⟨z, inside, same⟩ := List.mem_map.mp late
    have entry := rep.holds.entries z (List.mem_append_right _ inside)
    rw [same] at entry
    rw [entry] at before
    exact absurd (behind z inside) before

theorem Rep.refree {firstFree : Nat} (rep : Rep low high map l) (member : firstFree ∈ 0 :: ids l) :
    Rep low high { map with firstFree := firstFree } l :=
  ⟨⟨rep.holds.chain, rep.holds.entries, rep.holds.below, rep.holds.fresh, rep.holds.nentries,
    rep.holds.minOffset, rep.holds.maxOffset⟩, rep.arranged, rep.size, rep.hint, member, rep.narrow⟩

theorem Rep.relock (rep : Rep low high map l) (lock : Bool) :
    Rep low high { map with lock := lock } l :=
  ⟨⟨rep.holds.chain, rep.holds.entries, rep.holds.below, rep.holds.fresh, rep.holds.nentries,
    rep.holds.minOffset, rep.holds.maxOffset⟩, rep.arranged, rep.size, rep.hint, rep.firstFree,
    rep.narrow⟩

theorem Rep.fuel (rep : Rep low high map (ys ++ zs)) : zs.length < map.fuel := by
  have count := rep.holds.nentries
  rw [List.length_append] at count
  unfold VmMap.fuel
  omega

theorem vmMapDelete_rest (rep : Rep low high map (ys ++ zs)) (cut : CutAt l start ys zs)
    (hint : map.hint ∈ 0 :: ids ys) :
    ∃ map' l', (vmMapDeleteFrom end_
        (if (map.entry map.firstFree).start ≥ start then
           { map with firstFree := map.prev (firstId zs) }
         else map).fuel
        (if (map.entry map.firstFree).start ≥ start then
           { map with firstFree := map.prev (firstId zs) }
         else map)
        (firstId zs)).map (fun map => (KernReturn.success, map)) = some (.success, map') ∧
          Rep low high map' l' ∧
      map'.lock = map.lock ∧ ∀ a, viewOf l' a =
        if start ≤ a ∧ a < end_ then none else viewOf l a := by
  have last := lastId_mem ys
  have more : lastId ys ∈ 0 :: ids (ys ++ zs) := by
    simp only [ids_append, List.mem_cons, List.mem_append] at last ⊢
    tauto
  split
  · rw [rep.holds.joined.2]
    obtain ⟨map', zs', run, rep', marks, view⟩ :=
      vmMapDeleteFrom_spec (rep.refree more) hint last (.inl (rep.refree more).fuel)
    exact ⟨map', ys ++ zs', by rw [run]; rfl, rep', marks.lock,
      @CutAt.view_range l ys zs start end_ zs' (fun _ => none) cut rfl view⟩
  · rename_i before
    obtain ⟨map', zs', run, rep', marks, view⟩ :=
      vmMapDeleteFrom_spec rep hint (firstFree_before rep cut.behind before) (.inl rep.fuel)
    exact ⟨map', ys ++ zs', by rw [run]; rfl, rep', marks.lock,
      @CutAt.view_range l ys zs start end_ zs' (fun _ => none) cut rfl view⟩

theorem vmMapDelete_spec (rep : Rep low high map l) (start end_ : Nat) :
    ∃ map' l', vmMapDelete map start end_ = some (.success, map') ∧ Rep low high map' l' ∧
      map'.lock = map.lock ∧
      ∀ a, viewOf l' a = if start ≤ a ∧ a < end_ then none else viewOf l a := by
  obtain ⟨found, entry, hint, lookup, located, member, saved⟩ :=
    vmMapLookupEntry_spec rep.holds rep.arranged rep.hint start
  have rep' := rep.rehint member
  unfold vmMapDelete
  rw [lookup]
  cases located with
  | inside ys zs x split before above below behind =>
    subst split
    obtain ⟨ys', e, clipped, cut, first, -, -⟩ := vmMapClipStart_cases rep' above below
    have prev := clipped.holds.prev_at
    dsimp only at prev
    have last := lastId_mem ys'
    have more : lastId ys' ∈ 0 :: ids (ys' ++ (x.1, e) :: zs) := by
      simp only [ids_append, List.mem_cons, List.mem_append] at last ⊢
      tauto
    have lock := (vmMapClipStart_marks { map with hint := hint } x.1 start).lock
    simp only [if_true]
    generalize vmMapClipStart { map with hint := hint } x.1 start = clip at *
    rw [← prev] at last more
    obtain ⟨map', l', run, rep'', lock', view⟩ :=
      @vmMapDelete_rest low high _ _ _ _ start end_ (clipped.rehint more) cut last
    rw [firstId_cons] at run
    exact ⟨map', l', run, rep'', lock'.trans lock, view⟩
  | outside ys zs split before behind =>
    subst split
    have last := lastId_mem ys
    rw [← saved rfl] at last
    have cut : CutAt (ys ++ zs) start ys zs :=
      ⟨before, fun z member => (behind z member).le, fun _ => rfl⟩
    simp only [Bool.false_eq_true, if_false, rep.holds.joined.1]
    exact vmMapDelete_rest rep' cut last

theorem vmMapLock_eq (unlocked : map.lock = false) :
    vmMapLock map = some { map with lock := true } := by
  rw [vmMapLock, unlocked]
  rfl

theorem vmMapRemove_spec (rep : Rep low high map l) (unlocked : map.lock = false)
    (start end_ : Nat) :
    ∃ map' l', vmMapRemove map start end_ = some (.success, map') ∧ Rep low high map' l' ∧
      map'.lock = false ∧
      ∀ a, viewOf l' a = if start ≤ a ∧ a < end_ then none else viewOf l a := by
  unfold vmMapRemove
  rw [vmMapLock_eq unlocked]
  dsimp only
  have locked := rep.relock true
  obtain ⟨map', l', run, rep', -, view⟩ :=
    vmMapDelete_spec locked (vmMapRangeCheck { map with lock := true } start end_).1
      (vmMapRangeCheck { map with lock := true } start end_).2
  refine ⟨vmMapUnlock map', l', by rw [run]; rfl, rep'.relock false, rfl, fun a => ?_⟩
  rw [view a]
  exact @vmMapRangeCheck_view low high _ l start end_ (fun _ => none) locked rfl a

theorem vmMapChange_rest {change : VmMapEntry → VmMapEntry} {g : Mapping → Mapping}
    (place : ∀ e, (change e).start = e.start ∧ (change e).end_ = e.end_)
    (contents : ∀ e a, (change e).mapping a = g (e.mapping a)) (rep : Rep low high map (ys ++ zs))
    (cut : CutAt l start ys zs) :
    ∃ map' l', (vmMapChange change end_ map.fuel map (firstId zs)).map
      (fun map => (KernReturn.success, vmMapUnlock map)) =
        some (.success, map') ∧ Rep low high map' l' ∧ map'.lock = false ∧
      ∀ a, viewOf l' a = if start ≤ a ∧ a < end_ then (viewOf l a).map g else viewOf l a := by
  obtain ⟨map', zs', run, rep', -, view⟩ := vmMapChange_spec place contents rep (.inl rep.fuel)
  exact ⟨vmMapUnlock map',
    ys ++ zs', by rw [run]; rfl, rep'.relock false, rfl, cut.view_range rfl view⟩

def Inheritable (inheritance : Nat) : Prop :=
  inheritance = VM_INHERIT_NONE ∨ inheritance = VM_INHERIT_COPY ∨ inheritance = VM_INHERIT_SHARE

theorem vmMapInherit_spec (rep : Rep low high map l) (unlocked : map.lock = false)
    {inheritance : Nat} (valid : Inheritable inheritance) (start end_ : Nat) :
    ∃ map' l', vmMapInherit map start end_ inheritance = some (.success, map') ∧
      Rep low high map' l' ∧
      map'.lock = false ∧ ∀ a, viewOf l' a =
        if start ≤ a ∧ a < end_ then (viewOf l a).map fun m =>
          { m with inheritance := inheritance } else viewOf l a := by
  have locked := rep.relock true
  unfold Inheritable at valid
  unfold vmMapInherit
  rw [if_pos valid, vmMapLock_eq unlocked]
  dsimp only
  obtain ⟨map₁, ys, zs, clipped, rep₁, cut, -, -⟩ :=
    vmMapClipFirst_spec locked (vmMapRangeCheck { map with lock := true } start end_).1
  rw [clipped]
  obtain ⟨map', l', run, rep', lock, view⟩ := @vmMapChange_rest low high map₁ l ys zs _
    (vmMapRangeCheck { map with lock := true } start end_).2
      (fun e => { e with inheritance := inheritance })
    (fun m => { m with inheritance := inheritance }) (fun _ => ⟨rfl, rfl⟩) (fun _ _ => rfl) rep₁ cut
  refine ⟨map', l', run, rep', lock, fun a => ?_⟩
  rw [view a]
  exact vmMapRangeCheck_view locked rfl a

/-- What `vm_map_protect` does to what an address is mapped to. -/
def protectMapping (newProt : VmProt) (setMax : Bool) (m : Mapping) : Mapping :=
  if setMax then { m with maxProtection := newProt, protection := newProt &&& m.protection }
  else { m with protection := newProt }

theorem filter_rangeCheck (rep : Rep low high map l) (start end_ : Nat) :
    l.filter (fun x => x.overlaps (vmMapRangeCheck map start end_).1
      (vmMapRangeCheck map start end_).2) =
      l.filter fun x => x.overlaps start end_ := by
  apply List.filter_congr
  intro x member
  have proper := rep.arranged.proper x member
  have bounds := rep.arranged.bounds x member
  rw [decide_eq_decide]
  unfold Item.overlaps vmMapRangeCheck
  rw [rep.holds.minOffset, rep.holds.maxOffset]
  dsimp only
  split <;> split <;> split <;> lia

theorem vmMapProtect_spec (rep : Rep low high map l) (unlocked : map.lock = false)
    (start end_ : Nat) (newProt : VmProt) (setMax : Bool) :
    ∃ map' l', Rep low high map' l' ∧
      match violation newProt (l.filter fun x => x.overlaps start end_) with
      | none => vmMapProtect map start end_ newProt setMax = some (.success, map') ∧
        map'.lock = false ∧
        ∀ a, viewOf l' a =
          if start ≤ a ∧ a < end_ then (viewOf l a).map (protectMapping newProt setMax) else viewOf
            l a
      | some result => vmMapProtect map start end_ newProt setMax = some (result, map') ∧
        map'.lock = decide (result = .invalidArgument) ∧ ∀ a, viewOf l' a = viewOf l a := by
  have locked := rep.relock true
  unfold vmMapProtect
  rw [vmMapLock_eq unlocked]
  dsimp only
  obtain ⟨map₁, ys, zs, clipped, rep₁, cut, lock, same⟩ :=
    vmMapClipFirst_spec locked (vmMapRangeCheck { map with lock := true } start end_).1
  have checked :=
    @vmMapViolation_spec low high map₁ ys zs (vmMapRangeCheck { map with lock := true }
    start end_).2 _
    newProt rep₁ rep₁.fuel
  rw [same, filter_rangeCheck locked] at checked
  rw [clipped]
  dsimp only
  rw [checked]
  cases violation newProt (l.filter fun x => x.overlaps start end_) with
  | none =>
    obtain ⟨map', l', run, rep', lock, view⟩ := @vmMapChange_rest low high map₁ l ys zs _
      (vmMapRangeCheck { map with lock := true } start end_).2 (protectEntry newProt setMax)
        (protectMapping newProt setMax)
      (fun e => by unfold protectEntry; split <;> exact ⟨rfl, rfl⟩)
      (fun e a => by unfold protectEntry protectMapping; split <;> rfl) rep₁ cut
    refine ⟨map', l', rep', run, lock, fun a => ?_⟩
    rw [view a]
    exact vmMapRangeCheck_view locked rfl a
  | some result =>
    cases result with
    | invalidArgument => exact ⟨map₁, ys ++ zs, rep₁, rfl, lock, cut.view⟩
    | protectionFailure | success | invalidAddress | noSpace =>
      exact ⟨vmMapUnlock map₁, ys ++ zs, rep₁.relock false, rfl, rfl, cut.view⟩

end Range

end FreeBsd.Vm
