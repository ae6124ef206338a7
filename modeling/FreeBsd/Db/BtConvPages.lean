import FreeBsd.Db.BtConv

/-! What `__bt_pgout` swaps on a page, and when that is what it should swap. -/
namespace FreeBsd.Db.BtConv

open FreeBsd.Lib

section Steps

variable {s : Conv} {l l' : List Place} {p : Nat}

def Conv.did (s : Conv) (l : List Place) : Conv where
  mem := flips s.mem l
  swapped := s.swapped ++ l

theorem did_did (s : Conv) (l l' : List Place) : (s.did l).did l' = s.did (l ++ l') := by
  unfold Conv.did
  rw [flips_append, List.append_assoc]

theorem blswap_eq (s : Conv) (p : Nat) : s.blswap p = s.did [⟨p, 4⟩] := by
  unfold Conv.blswap Conv.did
  congr 1
  funext a
  change _ = if p ≤ a ∧ a < p + 4 then s.mem (p + (p + 4 - 1 - a)) else s.mem a
  by_cases held : p ≤ a ∧ a < p + 4
  · rw [if_pos held]
    obtain rfl | rfl | rfl | rfl : a = p ∨ a = p + 1 ∨ a = p + 2 ∨ a = p + 3 := by lia
    all_goals simp
  · rw [if_neg held, Function.update_of_ne (by lia), Function.update_of_ne (by lia),
      Function.update_of_ne (by lia), Function.update_of_ne (by lia)]

theorem bsswap_eq (s : Conv) (p : Nat) : s.bsswap p = s.did [⟨p, 2⟩] := by
  unfold Conv.bsswap Conv.did
  congr 1
  funext a
  change _ = if p ≤ a ∧ a < p + 2 then s.mem (p + (p + 2 - 1 - a)) else s.mem a
  by_cases held : p ≤ a ∧ a < p + 2
  · rw [if_pos held]
    obtain rfl | rfl : a = p ∨ a = p + 1 := by lia
    all_goals simp
  · rw [if_neg held, Function.update_of_ne (by lia), Function.update_of_ne (by lia)]

theorem header_eq (s : Conv) : header s = s.did headerFields := by
  simp only [header, blswap_eq, bsswap_eq, did_did]
  rfl

theorem mswap_eq (s : Conv) : mswap s = s.did metaFields := by
  simp only [mswap, blswap_eq, did_did]
  rfl

/-- What the code swaps of an item, the flags of which are these. -/
def itemPlaces (leaf : Bool) (flags : UInt8) (p : Nat) : List Place :=
  [⟨p, 4⟩, ⟨p + 4, 4⟩] ++
    (if flags &&& pBigkey ≠ 0 then [⟨p + 9, 4⟩, ⟨p + 9 + 4, 4⟩] else []) ++
    (if leaf ∧ flags &&& pBigdata ≠ 0 then
      if flags &&& pBigkey ≠ 0 then [⟨p + 17, 4⟩, ⟨p + 17 + 4, 4⟩] else [⟨p + 13, 4⟩,
        ⟨p + 13 + 4, 4⟩]
    else [])

def item (leaf : Bool) : Conv → Nat → Conv := if leaf then bleaf else binternal

theorem item_internal {m : Nat → UInt8} (internal : type m = pBinternal) :
    item (type m = pBleaf) = binternal := by
  rw [internal]
  exact if_neg (by decide)

theorem item_leaf {m : Nat → UInt8} (leaf : type m = pBleaf) : item (type m = pBleaf) = bleaf := by
  rw [leaf]
  exact if_pos (by decide)

theorem flags_kept (s : Conv) (p : Nat) :
    ((s.blswap p).blswap (p + 4)).mem (p + 8) = s.mem (p + 8) := by
  rw [blswap_eq, blswap_eq, did_did]
  refine flips_outside fun q member => ?_
  simp only [List.singleton_append, List.mem_cons, List.not_mem_nil, or_false] at member
  unfold Place.Holds
  rcases member with rfl | rfl
  · dsimp only
    omega
  · dsimp only
    omega

theorem flags_any (flags : UInt8) :
    flags &&& (pBigkey ||| pBigdata) ≠ 0 ↔ flags &&& pBigkey ≠ 0 ∨ flags &&& pBigdata ≠ 0 := by
  have split : flags &&& (pBigkey ||| pBigdata) = flags &&& pBigkey ||| flags &&& pBigdata :=
    UInt8.toBitVec_inj.mp BitVec.and_or_distrib_left
  rw [split, ne_eq, UInt8.or_eq_zero_iff, not_and_or]

theorem item_eq (leaf : Bool) (s : Conv) (p : Nat) :
    item leaf s p = s.did (itemPlaces leaf (s.mem (p + 8)) p) := by
  cases leaf with
  | false =>
    change binternal s p = _
    unfold binternal itemPlaces
    dsimp only
    rw [flags_kept]
    split
    · simp only [blswap_eq, did_did]
      simp
    · simp only [blswap_eq, did_did]
      simp
  | true =>
    change bleaf s p = _
    unfold bleaf itemPlaces
    dsimp only
    rw [flags_kept]
    by_cases key : s.mem (p + 8) &&& pBigkey = 0
    · by_cases data : s.mem (p + 8) &&& pBigdata = 0
      · rw [if_neg (by rw [flags_any]; tauto)]
        simp [key, data, blswap_eq, did_did]
      · rw [if_pos (by rw [flags_any]; tauto)]
        simp [key, data, blswap_eq, did_did]
    · by_cases data : s.mem (p + 8) &&& pBigdata = 0
      · rw [if_pos (by rw [flags_any]; tauto)]
        simp [key, data, blswap_eq, did_did]
      · rw [if_pos (by rw [flags_any]; tauto)]
        simp [key, data, blswap_eq, did_did]

theorem itemPlaces_length (leaf : Bool) (m : Nat → UInt8) (p : Nat) :
    (itemPlaces leaf (m (p + 8)) p).length = (itemFields leaf m p).length := by
  unfold itemPlaces itemFields
  split <;> split <;> try split
  all_goals rfl

end Steps

section Geometry

variable {m : Nat → UInt8} {psize p i j n : Nat} {leaf : Bool} {f g : Place}

theorem short_lt (m : Nat → UInt8) (p : Nat) : short m p < 65536 := by
  have first := (m p).toNat_lt
  have second := (m (p + 1)).toNat_lt
  unfold short
  omega

structure Referred (leaf : Bool) (m : Nat → UInt8) (p : Nat) : Prop where
  bigkey : m (p + 8) &&& pBigkey ≠ 0 → long m p = 8
  bigdata : leaf = true → m (p + 8) &&& pBigdata ≠ 0 → long m (p + 4) = 8

theorem mem_itemFields : f ∈ itemFields leaf m p ↔ f = ⟨p, 4⟩ ∨ f = ⟨p + 4, 4⟩ ∨
    (m (p + 8) &&& pBigkey ≠ 0 ∧ (f = ⟨p + 9, 4⟩ ∨ f = ⟨p + 9 + 4, 4⟩)) ∨
    (leaf = true ∧ m (p + 8) &&& pBigdata ≠ 0 ∧ (f = ⟨p + 9 + long m p, 4⟩ ∨
      f = ⟨p + 9 + long m p + 4, 4⟩)) := by
  simp only [itemFields, List.mem_append, List.mem_ite_nil_right, List.mem_cons, List.not_mem_nil,
    or_false, or_assoc, and_assoc]

theorem size_le (leaf : Bool) (m : Nat → UInt8) (p : Nat) :
    9 + long m p + (if leaf then long m (p + 4) else 0) ≤ itemSize leaf m p ∧
      12 ≤ itemSize leaf m p := by
  unfold itemSize
  cases leaf with
  | false =>
    simp only [Bool.false_eq_true, if_false]
    unfold lalign
    lia
  | true =>
    simp only [if_true]
    unfold lalign
    lia

theorem itemFields_within (good : Referred leaf m p) (member : f ∈ itemFields leaf m p) :
    f.Within p (p + itemSize leaf m p) := by
  obtain ⟨size, least⟩ := size_le leaf m p
  unfold Place.Within
  rcases mem_itemFields.mp member with rfl | rfl | ⟨key, rfl | rfl⟩ | ⟨rfl, data, rfl | rfl⟩
  · dsimp only
    lia
  · dsimp only
    lia
  · have whole := good.bigkey key
    dsimp only
    lia
  · have whole := good.bigkey key
    dsimp only
    lia
  · have whole := good.bigdata rfl data
    rw [if_pos rfl] at size
    dsimp only
    lia
  · have whole := good.bigdata rfl data
    rw [if_pos rfl] at size
    dsimp only
    lia

theorem itemFields_flags (member : f ∈ itemFields leaf m p) : ¬ f.Holds (p + 8) := by
  unfold Place.Holds
  rcases mem_itemFields.mp member with rfl | rfl | ⟨-, rfl | rfl⟩ | ⟨-, -, rfl | rfl⟩
  all_goals
    dsimp only
    lia

theorem itemFields_apart (good : Referred leaf m p) :
    (itemFields leaf m p).Pairwise Place.Apart := by
  have key := good.bigkey
  unfold itemFields Place.Apart
  split
  · rename_i big
    have whole := key big
    split
    · simp
      lia
    · simp
  · split
    · simp
      lia
    · simp

theorem mem_slotFields : f ∈ slotFields m i ↔
    f ∈ itemFields (type m = pBleaf) m (short m (linp i)) ∨ f = ⟨linp i, 2⟩ := by
  rw [slotFields, List.mem_append, List.mem_singleton]

theorem Items.referred (good : Items m psize) (inside : i < nextindex m) :
    Referred (type m = pBleaf) m (short m (linp i)) :=
  ⟨good.bigkey i inside, fun leaf => good.bigdata (of_decide_eq_true leaf) i inside⟩

theorem Items.index_le (good : Items m psize) (inside : i < nextindex m) :
    linp i + 2 ≤ lower m := by
  have least := good.least
  have small := short_lt m 16
  unfold nextindex at inside
  unfold linp
  change lower m < 65536 at small
  unfold btdataoff at *
  lia

theorem Items.within (good : Items m psize) (inside : i < nextindex m)
    (member : f ∈ itemFields (type m = pBleaf) m (short m (linp i))) :
    f.Within (short m (linp i)) (short m (linp i) + itemSize (type m =
      pBleaf) m (short m (linp i))) :=
  itemFields_within (good.referred inside) member

theorem Items.item_index (good : Items m psize) (inside : i < nextindex m) (below : j < nextindex m)
    (member : f ∈ itemFields (type m = pBleaf) m (short m (linp i))) : f.Apart ⟨linp j, 2⟩ := by
  have low := (good.within inside member).1
  have start := (good.inside i inside).1
  have index := good.index_le below
  have free := good.free
  right
  change linp j + 2 ≤ f.start
  omega

theorem Items.slot_apart (good : Items m psize) (inside : i < nextindex m) (below : j < i)
    (member : f ∈ slotFields m i) (member' : g ∈ slotFields m j) : g.Apart f := by
  have inside' : j < nextindex m := by lia
  rcases mem_slotFields.mp member with field | rfl
  · rcases mem_slotFields.mp member' with field' | rfl
    · exact (good.within inside' field').apart (good.within inside field)
        (good.apart i inside j below).symm
    · exact (good.item_index inside inside' field).symm
  · rcases mem_slotFields.mp member' with field' | rfl
    · exact good.item_index inside' inside field'
    · left
      change linp j + 2 ≤ linp i
      unfold linp
      lia

theorem Items.slot (good : Items m psize) (inside : i < nextindex m) :
    (slotFields m i).Pairwise Place.Apart := by
  rw [slotFields, List.pairwise_append]
  refine ⟨itemFields_apart (good.referred inside), List.pairwise_singleton _ _,
    fun f member g single => ?_⟩
  rw [List.mem_singleton.mp single]
  exact good.item_index inside inside member

theorem Items.slots_apart (good : Items m psize) :
    ((List.range (nextindex m)).flatMap (slotFields m)).Pairwise Place.Apart := by
  rw [List.pairwise_flatMap]
  refine ⟨fun i member => good.slot (List.mem_range.mp member), ?_⟩
  refine List.pairwise_lt_range.imp_of_mem fun {j i} _ member below f first g second => ?_
  exact good.slot_apart (List.mem_range.mp member) below second first

theorem header_within (member : f ∈ headerFields) : f.Within 0 btdataoff := by
  have all : ∀ f ∈ headerFields, f.Within 0 btdataoff := by decide
  exact all f member

theorem header_apart : headerFields.Pairwise Place.Apart := by decide

theorem Items.slot_within (good : Items m psize) (inside : i < nextindex m)
    (member : f ∈ slotFields m i) :
    f.Within btdataoff psize := by
  have size := (good.inside i inside).2
  have start := (good.inside i inside).1
  have index := good.index_le inside
  have free := good.free
  have least := good.least
  rcases mem_slotFields.mp member with field | rfl
  · exact (good.within inside field).mono (by lia) size
  · constructor
    · change btdataoff ≤ linp i
      unfold linp
      lia
    · change linp i + 2 ≤ psize
      lia

theorem Items.fields_apart (good : Items m psize) :
    ((List.range (nextindex m)).flatMap (slotFields m) ++ headerFields).Pairwise Place.Apart := by
  rw [List.pairwise_append]
  refine ⟨good.slots_apart, header_apart, fun f member g head => ?_⟩
  obtain ⟨i, inside, member⟩ := List.mem_flatMap.mp member
  exact (good.slot_within (List.mem_range.mp inside) member).apart (header_within head)
    (.inr (Nat.le_refl _))

theorem Items.flags_free (good : Items m psize) (inside : i < nextindex m) (below : j < nextindex m)
    (member : f ∈ slotFields m j) : ¬ f.Holds (short m (linp i) + 8) := by
  intro holds
  obtain ⟨size, least⟩ := size_le (type m = pBleaf) m (short m (linp i))
  have start := (good.inside i inside).1
  have index := good.index_le below
  have free := good.free
  rcases mem_slotFields.mp member with field | rfl
  · rcases Nat.lt_trichotomy i j with less | rfl | more
    · have bounds := (good.within below field).holds holds
      have apart := good.apart j below i less
      lia
    · exact itemFields_flags field holds
    · have bounds := (good.within below field).holds holds
      have apart := good.apart i inside j more
      lia
  · change linp j ≤ _ ∧ _ < linp j + 2 at holds
    lia

end Geometry

section Out

variable {m : Nat → UInt8} {psize i n : Nat} {s : Conv}

def Swaps (m : Nat → UInt8) (i : Nat) : Prop :=
  itemPlaces (type m = pBleaf) (m (short m (linp i) + 8)) (short m (linp i)) =
    itemFields (type m = pBleaf) m (short m (linp i))

def slots (m : Nat → UInt8) (i n : Nat) : List Place := (List.range' i n).flatMap (slotFields m)

theorem slots_succ (m : Nat → UInt8) (i n : Nat) :
    slots m i (n + 1) = slotFields m i ++ slots m (i + 1) n := by
  rw [slots, List.range'_succ, List.flatMap_cons]
  rfl

theorem slots_snoc (m : Nat → UInt8) (i : Nat) :
    slots m 0 (i + 1) = slots m 0 i ++ slotFields m i := by
  rw [slots, List.range'_concat, List.flatMap_append, List.flatMap_singleton, Nat.one_mul,
    Nat.zero_add]
  rfl

theorem mem_slots {f : Place} : f ∈ slots m i n ↔ ∃ j, i ≤ j ∧ j < i + n ∧ f ∈ slotFields m j := by
  simp only [slots, List.mem_flatMap, List.mem_range'_1, and_assoc]

theorem short_kept {m' : Nat → UInt8} {p : Nat} (first : m' p = m p)
    (second : m' (p + 1) = m (p + 1)) :
    short m' p = short m p := by
  rw [short, first, second]
  rfl

theorem Items.read_index (good : Items m psize) (inside : i < nextindex m) :
    short (flips m (slots m 0 i)) (linp i) = short m (linp i) := by
  have kept : ∀ a, (⟨linp i, 2⟩ : Place).Holds a → flips m (slots m 0 i) a = m a := by
    intro a holds
    refine flips_outside fun f member => ?_
    obtain ⟨j, -, below, member⟩ := mem_slots.mp member
    have apart := good.slot_apart inside (by lia) (mem_slotFields.mpr (.inr rfl)) member
    exact apart.symm.not_holds holds
  refine short_kept (kept _ ⟨Nat.le_refl _, ?_⟩) (kept _ ⟨Nat.le_succ _, ?_⟩)
  · change linp i < linp i + 2
    lia
  · change linp i + 1 < linp i + 2
    lia

theorem Items.read_flags (good : Items m psize) (inside : i < nextindex m) :
    flips m (slots m 0 i) (short m (linp i) + 8) = m (short m (linp i) + 8) := by
  refine flips_outside fun f member => ?_
  obtain ⟨j, -, below, member⟩ := mem_slots.mp member
  exact good.flags_free inside (by omega) member

theorem pgoutItems_grows (leaf : Bool) (n i : Nat) (s : Conv) :
    ∃ swapped, (pgoutItems (item leaf) n i s).swapped = s.swapped ++ swapped := by
  induction n generalizing i s with
  | zero => exact ⟨[], (List.append_nil _).symm⟩
  | succ n ih =>
    rw [pgoutItems, item_eq, bsswap_eq, did_did]
    generalize itemPlaces leaf (s.mem (short s.mem (linp i) + 8)) (short s.mem (linp i)) ++
      [⟨linp i, 2⟩] = places
    obtain ⟨swapped, log⟩ := ih (i + 1) (s.did places)
    exact ⟨places ++ swapped, log.trans (List.append_assoc ..)⟩

/-- What the loop swaps are the numbers just where each item is swapped as it should be. -/
theorem pgoutItems_spec (good : Items m psize) (bound : i + n = nextindex m)
    (state : s.mem = flips m (slots m 0 i)) :
    ∃ swapped, (pgoutItems (item (type m = pBleaf)) n i s).swapped = s.swapped ++ swapped ∧
      (∀ tail, swapped ++ tail = slots m i n ++ tail ↔ ∀ j, i ≤ j → j < i + n → Swaps m j) ∧
      ((∀ j, i ≤ j → j < i + n → Swaps m j) →
        (pgoutItems (item (type m = pBleaf)) n i s).mem = flips m (slots m 0 (i + n))) := by
  induction n generalizing i s with
  | zero =>
    refine ⟨[], (List.append_nil _).symm,
      fun tail => iff_of_true rfl fun j low high => by lia, fun _ => state⟩
  | succ n ih =>
    have inside : i < nextindex m := by lia
    have index : short s.mem (linp i) = short m (linp i) := by rw [state, good.read_index inside]
    have flags : s.mem (short m (linp i) + 8) =
      m (short m (linp i) + 8) := by rw [state, good.read_flags inside]
    have size := itemPlaces_length (type m = pBleaf) m (short m (linp i))
    rw [pgoutItems, index, item_eq, flags, bsswap_eq, did_did]
    have first : (∀ j, i ≤ j → j < i + (n + 1) → Swaps m j) ↔
        Swaps m i ∧ ∀ j, i + 1 ≤ j → j < i + 1 + n → Swaps m j := by
      constructor
      · exact fun all => ⟨all i (Nat.le_refl _) (by lia), fun j low high => all j (by lia) (by lia)⟩
      · rintro ⟨here, later⟩ j low high
        rcases Nat.eq_or_lt_of_le low with rfl | above
        · exact here
        · exact later j above (by lia)
    rw [first]
    by_cases here : Swaps m i
    · have fields : itemPlaces (type m = pBleaf) (m (short m (linp i) + 8)) (short m (linp i)) ++
          [⟨linp i, 2⟩] =
          slotFields m i := by
        rw [slotFields, here]
      rw [fields]
      obtain ⟨swapped, log, exact', mem⟩ := @ih (i + 1) (s.did (slotFields m i)) (by lia) (by
        rw [slots_snoc, flips_append, ← state]
        rfl)
      refine ⟨slotFields m i ++ swapped, ?_, fun tail => ?_, ?_⟩
      · rw [log, ← List.append_assoc]
        rfl
      · rw [slots_succ, List.append_assoc, List.append_assoc, List.append_cancel_left_eq,
          exact' tail]
        exact (and_iff_right here).symm
      · rintro ⟨-, later⟩
        have order : i + (n + 1) = i + 1 + n := by lia
        rw [order]
        exact mem later
    · obtain ⟨swapped, log⟩ :=
        pgoutItems_grows (type m = pBleaf) n (i + 1) (s.did (itemPlaces (type m = pBleaf)
          (m (short m (linp i) + 8)) (short m (linp i)) ++ [⟨linp i, 2⟩]))
      refine ⟨_, log.trans (List.append_assoc ..), fun tail => ?_, fun all => absurd all.1 here⟩
      refine iff_of_false ?_ fun all => here all.1
      rw [slots_succ, slotFields, List.append_assoc, List.append_assoc, List.append_assoc,
        List.append_assoc]
      exact fun same => here (List.append_inj same size).1

end Out

section Back

variable {m : Nat → UInt8} {psize i n a : Nat} {s : Conv}

def slotBack (m : Nat → UInt8) (i : Nat) : List Place :=
  ⟨linp i, 2⟩ :: itemFields (type m = pBleaf) m (short m (linp i))

theorem mem_slotBack {f : Place} : f ∈ slotBack m i ↔ f ∈ slotFields m i := by
  rw [mem_slotFields, slotBack, List.mem_cons]
  exact or_comm

def backs (m : Nat → UInt8) (i n : Nat) : List Place := (List.range' i n).flatMap (slotBack m)

theorem backs_snoc (m : Nat → UInt8) (i : Nat) :
    backs m 0 (i + 1) = backs m 0 i ++ slotBack m i := by
  rw [backs, List.range'_concat, List.flatMap_append, List.flatMap_singleton, Nat.one_mul,
    Nat.zero_add]
  rfl

theorem mem_backs {f : Place} : f ∈ backs m i n ↔ ∃ j, i ≤ j ∧ j < i + n ∧ f ∈ slotFields m j := by
  simp only [backs, List.mem_flatMap, List.mem_range'_1, and_assoc, mem_slotBack]

def all (m : Nat → UInt8) : List Place :=
  (List.range (nextindex m)).flatMap (slotFields m) ++ headerFields

theorem all_eq (m : Nat → UInt8) : all m = slots m 0 (nextindex m) ++ headerFields := by
  rw [all, slots, List.range_eq_range']

theorem mem_all {f : Place} : f ∈ all m ↔ (∃ j < nextindex m, f ∈ slotFields m j) ∨
    f ∈ headerFields := by
  simp only [all, List.mem_append, List.mem_flatMap, List.mem_range]

theorem Items.back_apart (good : Items m psize) (inside : n ≤ nextindex m) :
    (headerFields ++ backs m 0 n).Pairwise Place.Apart := by
  rw [List.pairwise_append]
  refine ⟨header_apart, ?_, fun f head g member => ?_⟩
  · rw [backs, List.pairwise_flatMap]
    refine ⟨fun i member => ?_, ?_⟩
    · have below := (List.mem_range'_1.mp member).2
      rw [slotBack, List.pairwise_cons]
      exact ⟨fun f field => (good.item_index (by omega) (by omega) field).symm,
        itemFields_apart (good.referred (by omega))⟩
    · refine (List.pairwise_lt_range').imp_of_mem fun {j i} _ member below f first g second => ?_
      have high := (List.mem_range'_1.mp member).2
      exact good.slot_apart (by omega) below (mem_slotBack.mp second) (mem_slotBack.mp first)
  · obtain ⟨j, -, below, member⟩ := mem_backs.mp member
    exact (header_within head).apart (good.slot_within (by omega) member) (.inl (Nat.le_refl _))

theorem back_sub (inside : n ≤ nextindex m) : headerFields ++ backs m 0 n ⊆ all m := by
  intro f member
  rcases List.mem_append.mp member with head | later
  · exact mem_all.mpr (.inr head)
  · obtain ⟨j, -, below, member⟩ := mem_backs.mp later
    exact mem_all.mpr (.inl ⟨j, by omega, member⟩)

/-- What has been swapped back when the index of slot `i` has. -/
def backIndex (m : Nat → UInt8) (i : Nat) :
    List Place := headerFields ++ backs m 0 i ++ [⟨linp i, 2⟩]

theorem backIndex_item (m : Nat → UInt8) (i : Nat) :
    backIndex m i ++ itemFields (type m = pBleaf) m (short m (linp i)) =
      headerFields ++ backs m 0 (i + 1) := by
  rw [backIndex, backs_snoc, slotBack, List.append_assoc, List.append_assoc]
  rfl

theorem Items.index_apart (good : Items m psize) (inside : i < nextindex m) :
    (backIndex m i).Pairwise Place.Apart := by
  have whole := good.back_apart (n := i + 1) inside
  rw [← backIndex_item] at whole
  exact (List.pairwise_append.mp whole).1

theorem index_sub (inside : i < nextindex m) : backIndex m i ⊆ all m := by
  have sub := back_sub (m := m) (n := i + 1) inside
  rw [← backIndex_item] at sub
  exact fun f member => sub (List.mem_append_left _ member)

theorem Items.back_index (good : Items m psize) (inside : i < nextindex m) :
    short (flips (flips m (all m)) (backIndex m i)) (linp i) = short m (linp i) := by
  have own : (⟨linp i, 2⟩ : Place) ∈ all m :=
    mem_all.mpr (.inl ⟨i, inside, mem_slotFields.mpr (.inr rfl)⟩)
  have back : ∀ a, (⟨linp i, 2⟩ : Place).Holds a →
      flips (flips m (all m)) (backIndex m i) a = m a := by
    intro a holds
    refine flips_back good.fields_apart (good.index_apart inside) (index_sub inside)
      fun f member held => ?_
    rw [holder_unique good.fields_apart member own held holds]
    exact List.mem_append_right _ (List.mem_singleton_self _)
  refine short_kept (back _ ⟨Nat.le_refl _, ?_⟩) (back _ ⟨Nat.le_succ _, ?_⟩)
  · change linp i < linp i + 2
    omega
  · change linp i + 1 < linp i + 2
    omega

theorem Items.back_flags (good : Items m psize) (inside : i < nextindex m) :
    flips (flips m (all m)) (backIndex m i) (short m (linp i) + 8) = m (short m (linp i) + 8) := by
  refine flips_back good.fields_apart (good.index_apart inside) (index_sub inside)
    fun f member held => ?_
  rcases mem_all.mp member with ⟨j, below, member⟩ | head
  · exact absurd held (good.flags_free inside below member)
  · exact List.mem_append_left _ (List.mem_append_left _ head)

theorem pginItems_spec (good : Items m psize) (swaps : ∀ j < nextindex m, Swaps m j)
    (bound : i + n = nextindex m)
    (state : s.mem = flips (flips m (all m)) (headerFields ++ backs m 0 i)) :
    (pginItems (item (type m = pBleaf)) n i s).mem =
      flips (flips m (all m)) (headerFields ++ backs m 0 (i + n)) := by
  induction n generalizing i s with
  | zero => exact state
  | succ n ih =>
    have inside : i < nextindex m := by lia
    have mem : (s.did [⟨linp i, 2⟩]).mem = flips (flips m (all m)) (backIndex m i) := by
      rw [backIndex, flips_append, ← state]
      rfl
    have index : short (s.did [⟨linp i, 2⟩]).mem (linp i) =
      short m (linp i) := by rw [mem, good.back_index inside]
    have flags : (s.did [⟨linp i, 2⟩]).mem (short m (linp i) + 8) = m (short m (linp i) + 8) := by
      rw [mem, good.back_flags inside]
    have order : i + (n + 1) = i + 1 + n := by lia
    rw [pginItems, bsswap_eq, index, item_eq, flags, swaps i inside, order]
    refine ih (by lia) ?_
    rw [← backIndex_item, flips_append, ← mem]
    rfl

end Back

section Pages

variable {m : Nat → UInt8} {psize pg i : Nat}

/-- Where the numbers are swapped and swapped back, the conversion is right. -/
theorem converts_of (log : (btPgout true pg m).swapped = fields m pg)
    (mem : (btPgout true pg m).mem = flips m (fields m pg))
    (apart : (fields m pg).Pairwise Place.Apart) (inside : ∀ f ∈ fields m pg, f.Within 0 psize)
    (back : (btPgin true pg (flips m (fields m pg))).mem = m) : Converts m psize pg where
  swapped := log
  reversed := by
    intro f member k below
    have holds : f.Holds (f.start + k) := ⟨Nat.le_add_right .., Nat.add_lt_add_left below _⟩
    rw [mem, flips_inside apart member holds, Place.mirror]
    congr 1
    lia
  rest := by
    intro a outside
    rw [mem, flips_outside outside]
  inside := inside
  back := by rw [mem, back]

theorem header_back {l : List Place} (apart : (l ++ headerFields).Pairwise Place.Apart)
    (behind : ∀ f ∈ l, btdataoff ≤ f.start) {a : Nat} (low : a < btdataoff) :
    flips (flips m (l ++ headerFields)) headerFields a = m a := by
  refine flips_back apart header_apart (List.subset_append_right _ _) fun f member held => ?_
  rcases List.mem_append.mp member with later | head
  · have above := behind f later
    have start := held.1
    omega
  · exact head

theorem header_read {m' : Nat → UInt8} (same : ∀ a < btdataoff, m' a = m a) :
    type m' = type m ∧ nextindex m' = nextindex m := by
  constructor
  · rw [type, same 12 (by decide)]
    rfl
  · rw [nextindex, lower, short_kept (same 16 (by decide)) (same 17 (by decide))]
    rfl

theorem meta_apart : metaFields.Pairwise Place.Apart := by decide

theorem converts_meta (large : 512 ≤ psize) : Converts m psize pMeta := by
  have run : ∀ m, btPgout true pMeta m = Conv.did ⟨m, []⟩ metaFields := fun m => mswap_eq ⟨m, []⟩
  have back : ∀ m, btPgin true pMeta m = Conv.did ⟨m, []⟩ metaFields := fun m => mswap_eq ⟨m, []⟩
  refine converts_of (by rw [run]; rfl) (by rw [run]; rfl) meta_apart ?_ ?_
  · intro f member
    have inside : ∀ f ∈ metaFields, f.Within 0 512 := by decide
    exact (inside f member).mono (Nat.le_refl _) large
  · rw [back]
    funext a
    exact flips_back meta_apart meta_apart (List.Subset.refl _) fun f member _ => member

theorem converts_header (large : 512 ≤ psize) (page : pg ≠ pMeta) (none : ¬ hasItems m) :
    Converts m psize pg := by
  have numbers : fields m pg = headerFields := by
    rw [fields, if_neg page, if_neg none]
    rfl
  have out : ∀ {m}, ¬ hasItems m → btPgout true pg m = Conv.did ⟨m, []⟩ headerFields := by
    intro m none
    rw [hasItems, not_or] at none
    rw [btPgout, Bool.not_true, if_neg (by decide), if_neg page, if_neg none.1, if_neg none.2,
      header_eq]
  refine converts_of (by rw [out none, numbers]; rfl) (by rw [out none, numbers]; rfl)
    (by rw [numbers]; exact header_apart)
    ?_ ?_
  · intro f member
    rw [numbers] at member
    exact (header_within member).mono (Nat.le_refl _) (Nat.le_trans (by decide) large)
  · have same : ∀ a, flips (flips m headerFields) headerFields a = m a := fun a =>
      flips_back header_apart header_apart (List.Subset.refl _) fun f member _ => member
    have kind := (header_read fun a _ => same a).1
    rw [hasItems, not_or] at none
    have read : ∀ m, (Conv.did ⟨m, []⟩ headerFields).mem = flips m headerFields := fun _ => rfl
    rw [numbers, btPgin, Bool.not_true, if_neg (by decide), if_neg page, header_eq]
    dsimp only
    rw [read, kind, if_neg none.1, if_neg none.2, read]
    exact funext same

theorem btPgout_items (page : pg ≠ pMeta) (some : hasItems m) :
    btPgout true pg m = header (pgoutItems (item (type m = pBleaf)) (nextindex m) 0 ⟨m, []⟩) := by
  rw [btPgout, Bool.not_true, if_neg (by decide), if_neg page]
  rcases some with internal | leaf
  · rw [if_pos internal, item_internal internal]
  · have other : ¬ type m = pBinternal := by
      rw [leaf]
      decide
    rw [if_neg other, if_pos leaf, item_leaf leaf]

theorem Items.back (good : Items m psize) (page : pg ≠ pMeta) (some : hasItems m)
    (swaps : ∀ j < nextindex m, Swaps m j) :
    (btPgin true pg (flips m (all m))).mem = m := by
  have behind : ∀ f ∈ (List.range (nextindex m)).flatMap (slotFields m), btdataoff ≤ f.start := by
    intro f member
    obtain ⟨i, inside, member⟩ := List.mem_flatMap.mp member
    exact (good.slot_within (List.mem_range.mp inside) member).1
  have first := header_read fun a low => header_back (m := m) good.fields_apart behind (a := a) low
  change type (flips (flips m (all m)) headerFields) = _ ∧
    nextindex (flips (flips m (all m)) headerFields) = _ at first
  have run : btPgin true pg (flips m (all m)) =
      pginItems (item (type m = pBleaf)) (nextindex m) 0 (Conv.did ⟨flips m (all m),
        []⟩ headerFields) := by
    have read : (Conv.did ⟨flips m (all m), []⟩ headerFields).mem =
        flips (flips m (all m)) headerFields := rfl
    rw [btPgin, Bool.not_true, if_neg (by decide), if_neg page, header_eq]
    dsimp only
    rw [read, first.1, first.2]
    rcases some with internal | leaf
    · rw [if_pos internal, item_internal internal]
    · have other : ¬ type m = pBinternal := by
        rw [leaf]
        decide
      rw [if_neg other, if_pos leaf, item_leaf leaf]
  have mem := pginItems_spec (s := Conv.did ⟨flips m (all m), []⟩ headerFields) good swaps
    (Nat.zero_add _) (by
    change flips _ headerFields = flips _ (headerFields ++ [])
    rw [List.append_nil])
  rw [run, mem, Nat.zero_add]
  funext a
  refine flips_back good.fields_apart (good.back_apart (Nat.le_refl _)) (back_sub (Nat.le_refl _))
    fun f member _ => ?_
  rcases mem_all.mp member with ⟨j, below, slot⟩ | head
  · exact List.mem_append_right _ (mem_backs.mpr ⟨j, Nat.zero_le _, by omega, slot⟩)
  · exact List.mem_append_left _ head

theorem Items.pageConverts_iff (good : Items m psize) (large : 512 ≤ psize) (page : pg ≠ pMeta)
    (some : hasItems m) :
    Converts m psize pg ↔ ∀ j < nextindex m, Swaps m j := by
  have numbers : fields m pg = all m := by
    rw [fields, if_neg page, if_pos some]
    rfl
  obtain ⟨swapped, log, exact', mem⟩ :=
    pgoutItems_spec (s := ⟨m, []⟩) good (Nat.zero_add (nextindex m)) rfl
  have whole : (btPgout true pg m).swapped = swapped ++ headerFields := by
    rw [btPgout_items page some, header_eq]
    change _ ++ headerFields = _
    rw [log]
    rfl
  have every : (∀ j, 0 ≤ j → j < 0 + nextindex m → Swaps m j) ↔ ∀ j < nextindex m, Swaps m j := by
    rw [Nat.zero_add]
    exact forall_congr' fun j => imp_iff_right (Nat.zero_le j)
  rw [every] at mem
  have told := exact' headerFields
  rw [every, ← all_eq, ← numbers, ← whole] at told
  constructor
  · exact fun converts => told.mp converts.swapped
  · intro swaps
    refine converts_of (told.mpr swaps) ?_ (by rw [numbers]; exact good.fields_apart) ?_ (by
      rw [numbers]
      exact good.back page some swaps)
    · rw [btPgout_items page some, header_eq]
      change flips _ headerFields = _
      rw [mem swaps, numbers, all_eq, flips_append, Nat.zero_add]
    · intro f member
      rw [numbers] at member
      rcases mem_all.mp member with ⟨j, below, slot⟩ | head
      · exact (good.slot_within below slot).mono (Nat.zero_le _) (Nat.le_refl _)
      · exact (header_within head).mono (Nat.le_refl _) (Nat.le_trans (by decide) large)

/-- The reference to overflow data is looked for four bytes behind a key, which is right behind an
overflow key only. -/
theorem swaps_iff (good : Referred (type m = pBleaf) m (short m (linp i))) :
    Swaps m i ↔ (type m = pBleaf → m (short m (linp i) + 8) &&& pBigdata ≠ 0 →
      m (short m (linp i) + 8) &&& pBigkey = 0 → long m (short m (linp i)) = 4) := by
  have whole := good.bigkey
  unfold Swaps itemPlaces itemFields
  rw [List.append_cancel_left_eq]
  by_cases leaf : type m = pBleaf
  · by_cases data : m (short m (linp i) + 8) &&& pBigdata = 0
    · simp [leaf, data]
    · by_cases key : m (short m (linp i) + 8) &&& pBigkey = 0
      · simp [leaf, data, key]
        lia
      · simp [leaf, data, key, whole key]
  · simp [leaf]

/-- A page is converted as it should be just where overflow data of a leaf have an overflow key
before them, or a key of four bytes. -/
theorem btPgout_iff (m : Nat → UInt8) (psize pg : Nat) (good : WellFormed m psize pg) :
    Converts m psize pg ↔ (pg ≠ pMeta → type m = pBleaf → ∀ i < nextindex m,
      m (short m (linp i) + 8) &&& pBigdata ≠ 0 → m (short m (linp i) + 8) &&& pBigkey = 0 →
        long m (short m (linp i)) = 4) := by
  by_cases page : pg = pMeta
  · subst page
    exact iff_of_true (converts_meta good.large) fun other => absurd rfl other
  rw [imp_iff_right page]
  by_cases some : hasItems m
  · have items := good.items page some
    rw [items.pageConverts_iff good.large page some]
    constructor
    · exact fun swaps leaf i inside => (swaps_iff (items.referred inside)).mp (swaps i inside) leaf
    · exact fun clear i inside => (swaps_iff (items.referred inside)).mpr fun leaf =>
        clear leaf i inside
  · refine iff_of_true (converts_header good.large page some) fun leaf => absurd (.inr leaf) some

/-- A leaf page of 512 bytes with these bytes at its beginning and at its end. -/
def leafPage (start items : List UInt8) : Nat → UInt8 := fun a =>
  if a < 512 - items.length then start.getD a 0 else items.getD (a - (512 - items.length)) 0

/-- The record of a small key and small data, and one of an overflow key and overflow data. -/
def mixedPage : Nat → UInt8 :=
  leafPage [2, 0, 0, 0, 0, 0, 0, 0, 0, 0, 0, 0, 2, 0, 0, 0, 24, 0, 0xd4, 1, 0xf0, 1, 0xd4, 1]
    [8, 0, 0, 0, 8, 0, 0, 0, 3, 5, 0, 0, 0, 0x88, 0x13, 0, 0, 7, 0, 0, 0, 0x89, 0x13, 0, 0, 0, 0, 0,
      1, 0, 0, 0, 2, 0, 0, 0, 0, 97, 98, 99, 0, 0, 0, 0]

theorem btPgout_mixed : Converts mixedPage 512 2 :=
  (btPgout_iff mixedPage 512 2 ⟨by decide, fun _ => .inl (.inr (by decide)),
    fun _ _ => ⟨by decide, by decide, by decide, by decide, by decide, fun _ => by decide⟩⟩).mpr
    fun _ _ => by decide

def bigdataPage : Nat → UInt8 :=
  leafPage [2, 0, 0, 0, 0, 0, 0, 0, 0, 0, 0, 0, 2, 0, 0, 0, 22, 0, 0xec, 1, 0xec, 1]
    [1, 0, 0, 0, 8, 0, 0, 0, 1, 97, 5, 0, 0, 0, 0x88, 0x13, 0, 0, 0, 0]

theorem btPgout_bigdata : WellFormed bigdataPage 512 2 ∧ ¬ Converts bigdataPage 512 2 :=
  ⟨⟨by decide, fun _ => .inl (.inr (by decide)),
    fun _ _ => ⟨by decide, by decide, by decide, by decide, by decide, fun _ => by decide⟩⟩,
    fun converts => absurd converts.swapped (by decide)⟩

end Pages

end FreeBsd.Db.BtConv
