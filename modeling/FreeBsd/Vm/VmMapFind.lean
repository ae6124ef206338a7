import FreeBsd.Vm.VmMapRange

/-! Insertion of a region, and the search for a free one. -/
namespace FreeBsd.Vm

open FreeBsd.Lib

structure Fits (low high : Nat) (l : List Item) (start end_ : Nat) : Prop where
  above : low ≤ start
  below : end_ ≤ high
  proper : start < end_
  free : ∀ x ∈ l, x.2.end_ ≤ start ∨ end_ ≤ x.2.start

section Insert

variable {low high : Nat} {map : VmMap} {l ys zs : List Item} {x : Item} {start end_ : Nat}

theorem Arranged.insert (arranged : Arranged low high (ys ++ zs)) (above : low ≤ x.2.start)
    (below : x.2.end_ ≤ high) (proper : x.2.start < x.2.end_)
    (before : ∀ y ∈ ys, y.2.end_ ≤ x.2.start) (behind : ∀ z ∈ zs, x.2.end_ ≤ z.2.start) :
    Arranged low high (ys ++ x :: zs) := by
  obtain ⟨sorted, propers, inside⟩ := arranged
  rw [List.pairwise_append] at sorted
  obtain ⟨front, back, across⟩ := sorted
  have others : ∀ z ∈ ys ++ x :: zs, z = x ∨ z ∈ ys ++ zs := by
    intro z member
    simp only [List.mem_append, List.mem_cons] at member ⊢
    tauto
  refine ⟨?_, ?_, ?_⟩
  · rw [List.pairwise_append, List.pairwise_cons]
    refine ⟨front, ⟨behind, back⟩, ?_⟩
    intro y early z member
    rcases List.mem_cons.mp member with rfl | later
    · exact before y early
    · exact across y early z later
  · intro z member
    rcases others z member with rfl | old
    · exact proper
    · exact propers z old
  · intro z member
    rcases others z member with rfl | old
    · exact ⟨above, below⟩
    · exact inside z old

theorem size_grows {l' : List Item} {size more : Nat} (arranged : Arranged low high l')
    (narrow : high < 2 ^ 32) (grown : tally Item.length l' = size + more) :
      add32 size more = tally Item.length l' := by
  have most := tally_length_le arranged
  unfold add32
  lia

theorem Rep.insert (rep : Rep low high map (ys ++ zs)) {e : VmMapEntry} (above : low ≤ e.start)
    (below : e.end_ ≤ high) (proper : e.start < e.end_) (before : ∀ y ∈ ys, y.2.end_ ≤ e.start)
    (behind : ∀ z ∈ zs, e.end_ ≤ z.2.start) :
    Rep low high { vmMapEntryLink (vmMapEntryCreate map e).2 (lastId ys) map.fresh with
                   size := add32 map.size (sub32 e.end_ e.start) } (ys ++ (map.fresh, e) ::
                     zs) := by
  have arranged : Arranged low high (ys ++ (map.fresh, e) :: zs) :=
    rep.arranged.insert above below proper before behind
  have more : ∀ i ∈ 0 :: ids (ys ++ zs), i ∈ 0 :: ids (ys ++ (map.fresh, e) :: zs) := by
    intro i member
    simp only [ids_append, ids_cons, List.mem_cons, List.mem_append] at member ⊢
    tauto
  refine ⟨(rep.holds.insert e).resize _, arranged, size_grows arranged rep.narrow ?_,
    more _ rep.hint, more _ rep.firstFree, rep.narrow⟩
  have length : Item.length (map.fresh, e) = e.end_ - e.start := rfl
  have narrow := rep.narrow
  rw [rep.size]
  simp only [tally_append, tally_cons, length]
  unfold sub32
  lia

theorem Rep.extend (rep : Rep low high map (ys ++ x :: zs)) (below : end_ ≤ high)
    (longer : x.2.end_ < end_) (behind : ∀ z ∈ zs, end_ ≤ z.2.start) :
    Rep low high
      { map.setEntry x.1 { x.2 with end_ := end_ } with size := add32 map.size (sub32 end_ x.2.end_) }
      (ys ++ (x.1, { x.2 with end_ := end_ }) :: zs) := by
  obtain ⟨before, -, proper, bounds⟩ := rep.arranged.around
  have shorter := rep.arranged.sublist (List.Sublist.append_left (List.sublist_cons_self x zs) ys)
  have arranged : Arranged low high (ys ++ (x.1, { x.2 with end_ := end_ }) :: zs) :=
    shorter.insert bounds.1 below (proper.trans longer) before behind
  have same : ids (ys ++ (x.1, { x.2 with end_ := end_ }) :: zs) = ids (ys ++ x :: zs) := by simp
  refine ⟨(rep.holds.set _).resize _, arranged,
    size_grows arranged rep.narrow
    ?_, by rw [same]; exact rep.hint, by rw [same]; exact rep.firstFree, rep.narrow⟩
  have length : Item.length (x.1, { x.2 with end_ := end_ }) = end_ - x.2.start := rfl
  have length' : x.length = x.2.end_ - x.2.start := rfl
  have narrow := rep.narrow
  rw [rep.size]
  simp only [tally_append, tally_cons, length, length']
  unfold sub32
  lia

/-- Where the region would go: behind `ys` and before `zs`, if they leave it free. -/
theorem fits_iff (arranged : Arranged low high (ys ++ zs)) (above : low ≤ start)
    (below : end_ ≤ high) (proper : start < end_) (before : ∀ y ∈ ys, y.2.end_ ≤ start)
    (behind : ∀ z ∈ zs, start < z.2.start) :
    Fits low high (ys ++ zs) start end_ ↔ ∀ z ∈ zs, end_ ≤ z.2.start := by
  constructor
  · intro fits z member
    have late := behind z member
    have some := arranged.proper z (List.mem_append_right _ member)
    rcases fits.free z (List.mem_append_right _ member) with early | free
    · omega
    · exact free
  · intro free
    refine ⟨above, below, proper, fun x member => ?_⟩
    rcases List.mem_append.mp member with early | late
    · exact .inl (before x early)
    · exact .inr (free x late)

theorem Rep.exists_last (rep : Rep low high map (ys ++ zs)) (some : lastId ys ≠ 0) :
    ∃ front x, ys = front ++ [x] ∧ x.1 = lastId ys := by
  cases ys using List.reverseRecOn with
  | nil => exact absurd rfl some
  | append_singleton front x => exact ⟨front, x, rfl, by simp⟩

theorem vmMapInsert_free {base : VmMap} (coalesces : Nat → Bool) (object : Option Nat)
    (offset : Nat) (inside : ¬ (start < base.minOffset ∨ end_ > base.maxOffset ∨ start ≥ end_))
    (lookup : vmMapLookupEntry base start = some (false, lastId ys, map))
    (rep : Rep low high map (ys ++ zs)) (above : low ≤ start) (below : end_ ≤ high)
    (proper : start < end_) (before : ∀ y ∈ ys, y.2.end_ ≤ start)
    (behind : ∀ z ∈ zs, end_ ≤ z.2.start) :
    ∃ map' l', vmMapInsert coalesces base object offset start end_ = some (.success, map') ∧
      Rep low high map' l' ∧
      map'.lock = map.lock := by
  have next : ¬ (map.next (lastId ys) ≠ 0 ∧ (map.entry (map.next (lastId ys))).start < end_) := by
    rw [rep.holds.joined.1]
    rintro ⟨some, early⟩
    cases zs with
    | nil => exact some rfl
    | cons z zs =>
      rw [firstId_cons, rep.holds.entry_at] at early
      exact absurd (behind z List.mem_cons_self) (Nat.not_le.mpr early)
  unfold vmMapInsert
  rw [if_neg inside, lookup]
  dsimp only
  rw [if_neg next]
  split
  · rename_i extends'
    obtain ⟨-, some, adjoining, -⟩ := extends'
    obtain ⟨front, x, rfl, same⟩ := rep.exists_last some
    rw [List.append_assoc, List.singleton_append] at rep
    rw [← same, rep.holds.entry_at] at adjoining ⊢
    exact ⟨_, _, rfl, rep.extend below (by omega) behind, rfl⟩
  · have inserted := @Rep.insert low high map ys zs rep (vmMapNewEntry map object offset start end_)
      above below proper
      before behind
    split
    · exact ⟨_, _, rfl, inserted.refree (show map.fresh ∈ _ by simp), rfl⟩
    · exact ⟨_, _, rfl, inserted, rfl⟩

/-- An insertion succeeds where the region fits, and nothing but the lookup hint changes elsewhere.
-/
theorem vmMapInsert_spec (rep : Rep low high map l) (coalesces : Nat → Bool) (object : Option Nat)
    (offset start end_ : Nat) :
    ∃ result map' l', vmMapInsert coalesces map object offset start end_ = some (result, map') ∧
      Rep low high map' l' ∧
      map'.lock = map.lock ∧ (result = .success ↔ Fits low high l start end_) ∧
      (result ≠ .success → ∃ hint, map' = { map with hint := hint }) := by
  by_cases outside : start < map.minOffset ∨ end_ > map.maxOffset ∨ start ≥ end_
  · refine ⟨.invalidAddress, map,
      l, by rw [vmMapInsert, if_pos outside], rep, rfl, ⟨(by rintro ⟨⟩),
      fun fits => ?_⟩, fun _ => ⟨map.hint, rfl⟩⟩
    obtain ⟨above, below, proper, -⟩ := fits
    rw [rep.holds.minOffset, rep.holds.maxOffset] at outside
    lia
  · obtain ⟨found, entry, hint, lookup, located, member, -⟩ :=
      vmMapLookupEntry_spec rep.holds rep.arranged rep.hint start
    have rep' := rep.rehint member
    have bounds : low ≤ start ∧ end_ ≤ high ∧ start < end_ := by
      rw [rep.holds.minOffset, rep.holds.maxOffset] at outside
      lia
    cases located with
    | inside ys zs x split before above below behind =>
      refine ⟨.noSpace, _,
        l, by rw [vmMapInsert, if_neg outside, lookup], rep', rfl, ⟨(by rintro ⟨⟩),
        fun fits => ?_⟩, fun _ => ⟨hint, rfl⟩⟩
      rcases fits.free x (by simp [split]) with early | late <;> lia
    | outside ys zs split before behind =>
      subst split
      have fits := fits_iff rep.arranged bounds.1 bounds.2.1 bounds.2.2 before behind
      by_cases free : ∀ z ∈ zs, end_ ≤ z.2.start
      · obtain ⟨map', l', inserted, rep'', lock⟩ :=
          vmMapInsert_free coalesces object offset outside lookup rep' bounds.1
          bounds.2.1 bounds.2.2 before free
        exact ⟨.success, map', l', inserted, rep'', lock, ⟨fun _ => fits.mpr free, fun _ => rfl⟩,
          fun no => absurd rfl no⟩
      · have taken : map.next (lastId ys) ≠ 0 ∧
          (map.entry (map.next (lastId ys))).start < end_ := by
          rw [rep.holds.joined.1]
          cases zs with
          | nil => exact absurd (by rintro _ ⟨⟩) free
          | cons z zs =>
            rw [firstId_cons, rep.holds.entry_at]
            refine ⟨rep.holds.id_ne, Nat.not_le.mp fun late => free ?_⟩
            exact rep.arranged.late late
        refine ⟨.noSpace, _, ys ++ zs, ?_, rep', rfl,
          ⟨(by rintro ⟨⟩), fun fit => absurd (fits.mp fit) free⟩, fun _ => ⟨hint, rfl⟩⟩
        rw [vmMapInsert, if_neg outside, lookup]
        dsimp only
        rw [if_pos taken]

end Insert

/-- The first address from `from'` on where a region of the length fits, or none. -/
inductive FirstFit (low high : Nat) (l : List Item) (length from' : Nat) : Option Nat → Prop where
  | found (start : Nat) (after : from' ≤ start) (fits : Fits low high l start (start + length))
      (first : ∀ a, from' ≤ a → Fits low high l a (a + length) → start ≤ a) :
      FirstFit low high l length from' (some start)
  | missing (full : ∀ a, from' ≤ a → ¬ Fits low high l a (a + length)) :
    FirstFit low high l length from' none

section Find

variable {low high : Nat} {map : VmMap} {l ys zs : List Item} {x : Item} {length start from' : Nat}

theorem FirstFit.below {answer : Option Nat} (fit : FirstFit low high l length start answer)
    (order : from' ≤ start) (none : ∀ a, from' ≤ a → a < start → ¬ Fits low high l a (a + length)) :
      FirstFit low high l length from' answer := by
  have later : ∀ a, from' ≤ a → Fits low high l a (a + length) → start ≤ a := by
    intro a above fits
    by_contra early
    exact none a above (Nat.not_le.mp early) fits
  cases fit with
  | found s after fits first =>
    exact .found s (order.trans after) fits fun a above fit => first a (later a above fit) fit
  | missing full => exact .missing fun a above fits => full a (later a above fits) fits

/-- A region that begins in an entry, or cannot end before it, does not fit. -/
theorem not_fits_of_mem (member : x ∈ l) (early : ∀ a, start ≤ a → x.2.start < a + length) (a : Nat)
    (above : start ≤ a) (inside : a < x.2.end_) : ¬ Fits low high l a (a + length) := by
  intro fits
  have := early a above
  rcases fits.free x member with before | behind <;> omega

theorem vmMapFindSpace_spec {fuel : Nat} (rep : Rep low high map (ys ++ zs))
    (small : length < 2 ^ 32) (above : low ≤ start) (below : start ≤ high)
    (before : ∀ y ∈ ys, y.2.end_ ≤ start) (behind : ∀ z ∈ zs, start ≤ z.2.start)
    (enough : zs.length < fuel) :
    ∃ answer, vmMapFindSpace map length fuel (lastId ys) start = some answer ∧
      (0 < length → FirstFit low high (ys ++ zs) length start (answer.map Prod.snd)) ∧
      ∀ entry s, answer = some (entry, s) → entry ∈ 0 :: ids (ys ++ zs) ∧ s + length ≤ high := by
  have narrow := rep.narrow
  induction fuel generalizing ys zs start with
  | zero => lia
  | succ fuel ih =>
    rw [vmMapFindSpace, rep.holds.joined.1]
    dsimp only
    by_cases tooFar : start + length > high
    · have past : add32 start length > map.maxOffset ∨ add32 start length < start := by
        rw [rep.holds.maxOffset]
        unfold add32
        lia
      rw [if_pos past]
      refine ⟨none, rfl, fun _ => .missing fun a after fits => ?_, (by rintro _ _ ⟨⟩)⟩
      have := fits.below
      lia
    · have sum : add32 start length = start + length := by
        unfold add32
        lia
      have within : ¬ (add32 start length > map.maxOffset ∨ add32 start length < start) := by
        rw [rep.holds.maxOffset, sum]
        lia
      have last : lastId ys ∈ 0 :: ids (ys ++ zs) := by
        have member := lastId_mem ys
        simp only [ids_append, List.mem_cons, List.mem_append] at member ⊢
        tauto
      have here : (∀ z ∈ zs, start + length ≤ z.2.start) → 0 < length →
          FirstFit low high (ys ++ zs) length start (some start) := by
        intro free positive
        refine .found start (Nat.le_refl _) ⟨above, by lia, by lia, fun x member => ?_⟩
          fun _ after _ => after
        rcases List.mem_append.mp member with early | late
        · exact .inl (before x early)
        · exact .inr (free x late)
      rw [if_neg within]
      cases zs with
      | nil =>
        rw [firstId_nil, if_pos rfl]
        refine ⟨_, rfl, here (by rintro _ ⟨⟩), ?_⟩
        rintro entry s ⟨⟩
        exact ⟨last, by lia⟩
      | cons z zs =>
        rw [firstId_cons, if_neg rep.holds.id_ne, rep.holds.entry_at, sum]
        by_cases free : z.2.start ≥ start + length
        · rw [if_pos free]
          refine ⟨_, rfl, here (rep.arranged.late free), ?_⟩
          rintro entry s ⟨⟩
          exact ⟨last, by lia⟩
        · rw [if_neg free]
          obtain ⟨earlier, later, proper, bounds⟩ := rep.arranged.around
          have order := behind z List.mem_cons_self
          rw [show ys ++ z :: zs = (ys ++ [z]) ++ zs by simp] at rep ⊢
          have fit := ih rep (by lia) bounds.2 (by
            intro y member
            rcases List.mem_append.mp member with early | here
            · exact (earlier y early).trans proper.le
            · rw [List.mem_singleton.mp here]) later (by simp at enough; lia)
          rw [lastId_append] at fit
          obtain ⟨answer, found, fit, place⟩ := fit
          refine ⟨answer, found, fun positive => ?_, place⟩
          apply (fit positive).below (by lia)
          exact not_fits_of_mem (by simp) fun a after => by lia

def VmMap.searchStart (map : VmMap) (addr : Nat) : Nat :=
  if addr ≤ map.minOffset ∧ map.firstFree ≠ 0 then (map.entry map.firstFree).end_ else max addr
    map.minOffset

def Unchanged (map map' : VmMap) : Prop := ∃ hint, map' = { map with hint := hint }

theorem vmMapFind_rest (coalesces : Nat → Bool) (object : Option Nat) (offset addr : Nat)
    (rep : Rep low high map (ys ++ zs)) (small : length < 2 ^ 32) (above : low ≤ start)
    (below : start ≤ high) (before : ∀ y ∈ ys, y.2.end_ ≤ start)
    (behind : ∀ z ∈ zs, start ≤ z.2.start) :
    ∃ result s map' l', (match vmMapFindSpace map length map.fuel (lastId ys) start with
        | none => none
        | some none => some (.noSpace, addr, vmMapUnlock map)
        | some (some (entry, start)) =>
          (vmMapInsert coalesces { map with hint := entry } object offset start
            (add32 start length)).map fun (result, map) =>
            (result, start, vmMapUnlock map)) = some (result, s, map') ∧ Rep low high map' l' ∧
              map'.lock = false ∧
      (0 < length → result = .success ∧ FirstFit low high (ys ++ zs) length start (some s) ∨
        result = .noSpace ∧ FirstFit low high (ys ++ zs) length start none ∧
          Unchanged { map with lock := false } map') := by
  obtain ⟨answer, found, fit, place⟩ :=
    vmMapFindSpace_spec rep small above below before behind rep.fuel
  rw [found]
  have narrow := rep.narrow
  cases answer with
  | none => exact ⟨.noSpace, addr, vmMapUnlock map, ys ++ zs, rfl, rep.relock false, rfl,
    fun positive => .inr ⟨rfl, fit positive, map.hint, rfl⟩⟩
  | some answer =>
    obtain ⟨entry, s⟩ := answer
    obtain ⟨member, within⟩ := place entry s rfl
    have sum : add32 s length = s + length := by
      unfold add32
      lia
    obtain ⟨result, map', l', inserted, rep', lock, success, -⟩ :=
      vmMapInsert_spec (rep.rehint member) coalesces object offset s (s + length)
    dsimp only
    rw [sum, inserted]
    refine ⟨result, s, vmMapUnlock map', l', rfl, rep'.relock false, rfl, fun positive => ?_⟩
    cases fit positive with
    | found s after fits first => exact .inl ⟨success.mpr fits, .found s after fits first⟩

theorem Unchanged.unlock {map' : VmMap} {hint : Nat} (unlocked : map.lock = false)
    (same : Unchanged { map with hint := hint, lock := false } map') : Unchanged map map' := by
  obtain ⟨hint', rfl⟩ := same
  refine ⟨hint', ?_⟩
  rw [← unlocked]

theorem vmMapFind_space (rep : Rep low high map l) (unlocked : map.lock = false)
    (small : length < 2 ^ 32) (coalesces : Nat → Bool) (object : Option Nat) (offset addr : Nat) :
    ∃ result s map' l', vmMapFind coalesces map object offset addr length true =
      some (result, s, map') ∧
      Rep low high map' l' ∧ map'.lock = false ∧
      (0 < length → result = .success ∧ FirstFit low high l length (map.searchStart addr) (some s) ∨
        result = .noSpace ∧ FirstFit low high l length (map.searchStart addr) none ∧
          Unchanged map map') := by
  obtain ⟨map₁, eq⟩ : ∃ map₁ : VmMap, map₁ = { map with lock := true } := ⟨_, rfl⟩
  have locked : Rep low high map₁ l := eq ▸ rep.relock true
  have restored : ∀ {hint map'}, Unchanged { map₁ with hint := hint, lock := false } map' →
    Unchanged map map' := by
    rw [eq]
    exact Unchanged.unlock unlocked
  have begins : map.searchStart addr =
      if addr ≤ low ∧ map₁.firstFree ≠ 0 then (map₁.entry map₁.firstFree).end_ else max addr
        low := by
    rw [VmMap.searchStart, rep.holds.minOffset, eq]
  unfold vmMapFind
  rw [vmMapLock_eq unlocked, ← eq]
  dsimp only
  rw [if_pos rfl, locked.holds.minOffset, locked.holds.maxOffset]
  by_cases beyond : (if addr < low then low else addr) > high
  · rw [if_pos beyond]
    refine ⟨_, _, _, l, rfl, locked.relock false, rfl,
      fun _ => .inr ⟨rfl, .missing fun a after fits => ?_, @restored map₁.hint _ ⟨map₁.hint, rfl⟩⟩⟩
    have above := fits.above
    have below := fits.below
    rw [begins] at after
    split at beyond
    · lia
    · split at after <;> lia
  · rw [if_neg beyond]
    by_cases bottom : addr ≤ low
    · have first : (if addr < low then low else addr) = low := by
        split <;> lia
      rw [first] at beyond
      rw [first, if_pos rfl]
      dsimp only
      by_cases none : map₁.firstFree = 0
      · rw [if_neg (fun both : addr ≤ low ∧ map₁.firstFree ≠ 0 => both.2 none),
          Nat.max_eq_right bottom] at begins
        rw [if_neg (fun some : map₁.firstFree ≠ 0 => some none), begins]
        obtain ⟨result, s, map', l', run, rep', lock, answer⟩ :=
          @vmMapFind_rest low high map₁ [] l length low coalesces object offset addr locked
            small (Nat.le_refl _) (Nat.not_lt.mp beyond) (by rintro _ ⟨⟩)
              (fun z member => (rep.arranged.bounds z member).1)
        rw [show lastId [] = map₁.firstFree from none.symm] at run
        refine ⟨result, s, map', l', run, rep', lock,
          fun positive => (answer positive).imp_right fun ⟨no, fit, same⟩ => ⟨no, fit, ?_⟩⟩
        exact @restored map₁.hint _ same
      · have member := (List.mem_cons.mp locked.firstFree).resolve_left none
        obtain ⟨x, inside, number⟩ := List.mem_map.mp member
        obtain ⟨ys, zs, rfl⟩ := List.append_of_mem inside
        have split : ys ++ x :: zs = (ys ++ [x]) ++ zs := by simp
        obtain ⟨before, behind, proper, bounds⟩ := rep.arranged.around
        have entry := locked.holds.entry_at
        rw [number] at entry
        rw [if_pos ⟨bottom, none⟩, entry] at begins
        rw [if_pos none, entry, begins]
        rw [split] at locked ⊢
        obtain ⟨result, s, map', l', run, rep', lock, answer⟩ :=
          @vmMapFind_rest low high map₁ (ys ++ [x]) zs length x.2.end_ coalesces object offset addr
            locked
            small (by lia) bounds.2 (by
              intro y member
              rcases List.mem_append.mp member with early | here
              · exact (before y early).trans proper.le
              · rw [List.mem_singleton.mp here]) behind
        rw [lastId_append, number] at run
        refine ⟨result, s, map', l', run, rep', lock,
          fun positive => (answer positive).imp_right fun ⟨no, fit, same⟩ => ⟨no, fit, ?_⟩⟩
        exact @restored map₁.hint _ same
    · have first : (if addr < low then low else addr) = addr := if_neg fun early => bottom early.le
      rw [first] at beyond
      rw [if_neg fun both => bottom both.1, Nat.max_eq_left (Nat.not_le.mp bottom).le] at begins
      rw [first, if_neg fun same => bottom same.le, begins]
      obtain ⟨found, entry, hint, lookup, located, member, -⟩ :=
        vmMapLookupEntry_spec locked.holds locked.arranged locked.hint addr
      rw [lookup]
      dsimp only
      have rep' := locked.rehint member
      cases located with
      | inside ys zs x split before above below behind =>
        subst split
        have shape : ys ++ x :: zs = (ys ++ [x]) ++ zs := by simp
        obtain ⟨earlier, later, proper, bounds⟩ := rep.arranged.around
        rw [if_pos rfl, locked.holds.entry_at]
        rw [shape] at rep' ⊢
        obtain ⟨result, s, map', l', run, rep', lock, answer⟩ :=
          @vmMapFind_rest low high _ (ys ++ [x]) zs length x.2.end_ coalesces object offset addr
            rep'
            small (by lia) bounds.2 (by
              intro y member
              rcases List.mem_append.mp member with early | here
              · exact (earlier y early).trans proper.le
              · rw [List.mem_singleton.mp here]) later
        rw [lastId_append] at run
        refine ⟨result, s, map', l', run, rep', lock, fun positive => ?_⟩
        have skip : ∀ a, addr ≤ a → a < x.2.end_ →
            ¬ Fits low high ((ys ++ [x]) ++ zs) a (a + length) :=
          not_fits_of_mem (by simp) fun a after => by lia
        rcases answer positive with ⟨ok, fit⟩ | ⟨no, fit, same⟩
        · exact .inl ⟨ok, fit.below below.le skip⟩
        · exact .inr ⟨no, fit.below below.le skip, @restored hint _ same⟩
      | outside ys zs split before behind =>
        subst split
        rw [if_neg Bool.false_ne_true]
        obtain ⟨result, s, map', l', run, rep', lock, answer⟩ :=
          @vmMapFind_rest low high _ ys zs length addr coalesces object offset addr rep'
            small (by lia) (Nat.not_lt.mp beyond) before (fun z member => (behind z member).le)
        refine ⟨result, s, map', l', run, rep', lock,
          fun positive => (answer positive).imp_right fun ⟨no, fit, same⟩ => ⟨no, fit, ?_⟩⟩
        exact @restored hint _ same

theorem vmMapFind_fixed (rep : Rep low high map l) (unlocked : map.lock = false)
    (small : length < 2 ^ 32) (coalesces : Nat → Bool) (object : Option Nat) (offset addr : Nat) :
    ∃ result map' l', vmMapFind coalesces map object offset addr length false =
      some (result, addr, map') ∧
      Rep low high map' l' ∧ map'.lock = false ∧
      (0 < length → (result = .success ↔ Fits low high l addr (addr + length))) ∧
        (result ≠ .success → Unchanged map map') := by
  obtain ⟨result, map', l', inserted, rep', -, success, failure⟩ :=
    vmMapInsert_spec (rep.relock true) coalesces object offset addr (add32 addr length)
  unfold vmMapFind
  rw [vmMapLock_eq unlocked]
  dsimp only
  rw [if_neg Bool.false_ne_true, inserted]
  refine ⟨result, vmMapUnlock map', l', rfl, rep'.relock false, rfl, fun positive => ?_,
    fun failed => ?_⟩
  · rw [success]
    have narrow := rep.narrow
    by_cases wraps : addr + length < 2 ^ 32
    · have sum : add32 addr length = addr + length := by
        unfold add32
        lia
      rw [sum]
    · have less : add32 addr length < addr := by
        unfold add32
        lia
      constructor
      · intro fits
        have := fits.proper
        lia
      · intro fits
        have := fits.below
        lia
  · obtain ⟨hint, rfl⟩ := failure failed
    exact @Unchanged.unlock map _ hint unlocked ⟨hint, rfl⟩

end Find

end FreeBsd.Vm
