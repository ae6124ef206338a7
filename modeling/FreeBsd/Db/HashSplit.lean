import FreeBsd.Db.HashPairs

/-! The split of one page: the pairs that stay close up in place, the others go to the new page. -/
namespace FreeBsd.Db

open FreeBsd.Lib

variable {bsize n : Nat} {stays : Bytes → Bool} {l front back : List Pair} {link : Option Nat}
    {key val : Bytes}
  {v : SplitVars}

section Slip

def staying (stays : Bytes → Bool) (l : List Pair) : List Pair := l.filter fun pair => stays pair.1

def moving (stays : Bytes → Bool) (l : List Pair) : List Pair := l.filter fun pair => !stays pair.1

/-- The first pair to move has neither key nor data, and the one behind it stays. -/
def Slips (stays : Bytes → Bool) (l : List Pair) : Prop :=
  ∃ front pair back, l = front ++ ([], []) :: pair :: back ∧
    (∀ other ∈ front, stays other.1 = true) ∧
    stays [] = false ∧ stays pair.1 = true

theorem staying_append (front back : List Pair) :
    staying stays (front ++ back) = staying stays front ++ staying stays back :=
  List.filter_append ..

theorem moving_append (front back : List Pair) :
    moving stays (front ++ back) = moving stays front ++ moving stays back := List.filter_append ..

theorem staying_singleton :
    staying stays [(key, val)] = if stays key then [(key, val)] else [] := by
  rw [staying, List.filter_singleton]
  cases stays key <;> rfl

theorem moving_singleton : moving stays [(key, val)] = if stays key then [] else [(key, val)] := by
  rw [moving, List.filter_singleton]
  cases stays key <;> rfl

theorem fill_parts (stays : Bytes → Bool) (l : List Pair) :
    fill (staying stays l) + fill (moving stays l) = fill l := by
  induction l with
  | nil => rfl
  | cons pair l ih =>
    obtain ⟨key, val⟩ := pair
    rw [← List.singleton_append, staying_append, moving_append, staying_singleton, moving_singleton,
      fill_append, fill_append, fill_append]
    cases stays key
    · simp only [Bool.false_eq_true, if_false, fill_nil]
      lia
    · simp only [if_true, fill_nil]
      lia

theorem length_parts (stays : Bytes → Bool) (l : List Pair) :
    (staying stays l).length + (moving stays l).length = l.length := by
  exact (List.length_eq_length_filter_add _).symm

theorem fill_eq_zero (empty : fill l = 0) : ∀ pair ∈ l, pair = ([], []) := by
  induction l with
  | nil => exact fun _ none => absurd none List.not_mem_nil
  | cons pair l ih =>
    obtain ⟨key, val⟩ := pair
    rw [fill_cons] at empty
    intro other here
    rcases List.mem_cons.mp here with rfl | later
    · rw [List.length_eq_zero_iff.mp (by lia : key.length = 0),
        List.length_eq_zero_iff.mp (by lia : val.length = 0)]
    · exact ih (by lia) other later

theorem exists_first_moving (some_move : ¬ ∀ pair ∈ l, stays pair.1 = true) :
    ∃ front pair back, l = front ++ pair :: back ∧ (∀ other ∈ front, stays other.1 = true) ∧
      stays pair.1 = false := by
  induction l with
  | nil => exact absurd (fun _ none => absurd none List.not_mem_nil) some_move
  | cons pair l ih =>
    cases here : stays pair.1 with
    | false => exact ⟨[], pair, l, rfl, fun _ none => absurd none List.not_mem_nil, here⟩
    | true =>
      obtain ⟨front, first, back, rfl, stay, moves⟩ := ih fun all =>
        some_move (List.forall_mem_cons.mpr ⟨here, all⟩)
      exact ⟨pair :: front, first, back, rfl, List.forall_mem_cons.mpr ⟨here, stay⟩, moves⟩

theorem staying_eq_of_fill (unique : ((front ++ (key, val) :: back).map Prod.fst).Nodup)
    (careful : ¬ Slips stays (front ++ (key, val) :: back)) (here : stays key = true)
    (same : fill (staying stays front) = fill front) : staying stays front = front := by
  rw [staying, List.filter_eq_self]
  by_contra some_move
  obtain ⟨early, first, late, rfl, stay, moves⟩ := exists_first_moving some_move
  have none := fill_eq_zero (l := moving stays (early ++ first :: late)) (by
    have := fill_parts stays (early ++ first :: late)
    omega)
  have movers : ∀ pair ∈ early ++ first :: late, stays pair.1 = false → pair = ([], []) := by
    intro pair member move
    exact none pair (List.mem_filter.mpr ⟨member, by rw [move]; rfl⟩)
  obtain rfl := movers first (by simp) moves
  cases late with
  | nil => exact careful ⟨early, (key, val), back, by simp, stay, moves, here⟩
  | cons second late =>
    cases next : stays second.1 with
    | true => exact careful ⟨early, second, late ++ (key, val) :: back, by simp, stay, moves, next⟩
    | false =>
      obtain rfl := movers second (by simp) next
      simp only [List.append_assoc, List.map_append, List.cons_append, List.map_cons,
        List.nodup_append, List.nodup_cons, List.mem_cons, true_or, not_true_eq_false, false_and,
        and_false] at unique

end Slip

section Pass

/-- The loop is at the pair after `front`: the pairs of `front` that stay lie at the top of the old
page. -/
structure SplitVars.Splits (v : SplitVars) (bsize : Nat) (stays : Bytes → Bool)
    (front back : List Pair) (link : Option Nat) : Prop where
  kept : Packed v.old.bp v.old.bytes 1 bsize (flat (staying stays front))
  ahead : Packed v.old.bp v.old.bytes (2 * front.length + 1) v.off (flat back)
  off : v.off + fill front = bsize
  copyto : v.copyto + fill (staying stays front) = bsize
  ndx : v.ndx = 2 * (staying stays front).length + 1
  moved : v.moved = 2 * (moving stays front).length
  count : v.old.bp 0 = 2 * (front.length + back.length) + 2 * link.toList.length
  linked : ∀ a, link = some a → v.old.bp (2 * (front.length + back.length) + 1) = a ∧
    v.old.bp (2 * (front.length + back.length) + 2) = OVFLPAGE
  new : v.new.Holds bsize (moving stays front) none
  room : 4 * (front.length + back.length) + 10 + (fill front + fill back) ≤ bsize ∨
    front ++ back = []
  real : front ++ back ≠ [] → REAL_KEY ≤ v.old.bp 2

theorem SplitVars.Splits.start {p q : HashPage} (holds : p.Holds bsize l link)
    (empty : q.Holds bsize [] none) :
    SplitVars.Splits { old := p, new := q, ndx := 1, copyto := bsize, off := bsize, moved := 0 }
      bsize stays [] l link := by
  refine ⟨trivial, holds.packed, rfl, rfl, rfl, rfl, ?_, ?_, empty, ?_,
    fun filled => holds.real filled⟩
  · rw [List.length_nil, Nat.zero_add]
    exact holds.count
  · rw [List.length_nil, Nat.zero_add]
    exact holds.linked
  · rw [List.length_nil, Nat.zero_add, fill_nil, Nat.zero_add]
    rcases holds.room with room | ⟨none, -⟩
    · exact .inl room
    · exact .inr none

theorem SplitVars.Splits.reads (splits : v.Splits bsize stays front ((key, val) :: back) link)
    (at_ : 2 * front.length + 1 = n) :
    v.old.bp n + key.length = v.off ∧ v.old.bp (n + 1) + val.length = v.old.bp n ∧
      slice v.old.bytes (v.old.bp n) (v.off - v.old.bp n) = key ∧
      slice v.old.bytes (v.old.bp (n + 1)) (v.old.bp n - v.old.bp (n + 1)) = val ∧
      Packed v.old.bp v.old.bytes n v.off (flat [(key, val)]) ∧
      Packed v.old.bp v.old.bytes (n + 2) (v.old.bp (n + 1)) (flat back) ∧
      4 * (front.length + 1 + back.length) + 10 +
        (fill front + (key.length + val.length) + fill back) ≤ bsize := by
  have ahead := splits.ahead
  rw [at_] at ahead
  obtain ⟨-, start, next, same, same', rest⟩ :=
    @Packed.pair _ _ _ _ [] _ _ _ _ ahead (Nat.add_zero n)
  rw [fill_nil, Nat.add_zero] at start
  refine ⟨start, next, ?_, ?_, ?_, rest, ?_⟩
  · rwa [show v.off - v.old.bp n = key.length by lia]
  · rwa [show v.old.bp n - v.old.bp (n + 1) = val.length by lia]
  · exact ((packed_append (l := flat [(key, val)])).mp ahead).1
  · have total := splits.room
    simp only [List.append_eq_nil_iff, reduceCtorEq, and_false, or_false, List.length_cons,
      fill_cons] at total
    lia

theorem SplitVars.Splits.next {w : SplitVars}
    (splits : v.Splits bsize stays front ((key, val) :: back) link) (at_ : 2 * front.length + 1 = n)
    (off : w.off = v.old.bp (n + 1)) (header : w.old.bp 0 = v.old.bp 0)
    (real : REAL_KEY ≤ w.old.bp 2) (later : ∀ k, n + 2 ≤ k → w.old.bp k = v.old.bp k)
    (bytes : ∀ k, k < v.old.bp (n + 1) → w.old.bytes k = v.old.bytes k)
    (kept : Packed w.old.bp w.old.bytes 1 bsize (flat (staying stays (front ++ [(key, val)]))))
    (copyto : w.copyto + fill (staying stays (front ++ [(key, val)])) = bsize)
    (ndx : w.ndx = 2 * (staying stays (front ++ [(key, val)])).length + 1)
    (moved : w.moved = 2 * (moving stays (front ++ [(key, val)])).length)
    (new : w.new.Holds bsize (moving stays (front ++ [(key, val)])) none) :
    w.Splits bsize stays (front ++ [(key, val)]) back link := by
  obtain ⟨start, next, -, -, -, rest, room⟩ := splits.reads at_
  have start' := splits.off
  have count := splits.count
  have linked := splits.linked
  rw [List.length_cons] at count linked
  have length : (front ++ [(key, val)]).length = front.length + 1 := List.length_append
  refine ⟨kept, ?_, ?_, copyto, ndx, moved, ?_, ?_, new, .inl ?_, fun _ => real⟩
  · rw [length, show 2 * (front.length + 1) + 1 = n + 2 by lia, off]
    exact rest.congr (fun k low _ => later k low) (fun k _ high => bytes k high)
  · rw [off, fill_append, fill_singleton]
    lia
  · rw [length, header, count]
    lia
  · intro a some
    obtain ⟨first, second⟩ := linked a some
    rw [length, Nat.add_right_comm, Nat.add_assoc, later _ (by lia), later _ (by lia)]
    exact ⟨first, second⟩
  · rw [length, fill_append, fill_singleton]
    exact room

theorem SplitVars.Splits.moves (splits : v.Splits bsize stays front ((key, val) :: back) link)
    (small : bsize < 2 ^ 16) (at_ : 2 * front.length + 1 = n) (here : stays key = false) :
    (v.pass stays n).Splits bsize stays (front ++ [(key, val)]) back link := by
  obtain ⟨start, next, read, read', -, -, room⟩ := splits.reads at_
  have passed : v.pass stays n =
      { v with new := putpair v.new key val, moved := v.moved + 2, off := v.old.bp (n + 1) } := by
    simp only [SplitVars.pass, read, read', here, Bool.false_eq_true, if_false]
  have stayed : staying stays (front ++ [(key, val)]) = staying stays front := by
    rw [staying_append, staying_singleton, here]
    exact List.append_nil _
  have moved : moving stays (front ++ [(key, val)]) = moving stays front ++ [(key, val)] := by
    rw [moving_append, moving_singleton, here]
    rfl
  rw [passed]
  refine splits.next at_ rfl rfl (splits.real (by simp)) (fun _ _ => rfl) (fun _ _ => rfl) ?_ ?_ ?_
    ?_ ?_
  · rw [stayed]
    exact splits.kept
  · rw [stayed]
    exact splits.copyto
  · rw [stayed]
    exact splits.ndx
  · rw [moved, List.length_append, Nat.mul_add, ← splits.moved]
    rfl
  · rw [moved]
    refine putpair_holds splits.new small ?_
    have free := splits.new.free
    have count := splits.new.count
    have fillParts := fill_parts stays front
    have lengthParts := length_parts stays front
    simp only [Option.toList_none, List.length_nil, Nat.mul_zero, Nat.add_zero] at count
    rw [PAIRSIZE, OVFLSIZE]
    lia

theorem SplitVars.Splits.stands (splits : v.Splits bsize stays front ((key, val) :: back) link)
    (at_ : 2 * front.length + 1 = n) (here : stays key = true) (all : staying stays front = front) :
    (v.pass stays n).Splits bsize stays (front ++ [(key, val)]) back link := by
  obtain ⟨start, next, read, -, pair, -, room⟩ := splits.reads at_
  have off := splits.off
  have copyto := splits.copyto
  have ndx := splits.ndx
  rw [all] at copyto ndx
  have gap : minus v.copyto v.off = 0 := by
    rw [show v.copyto = v.off by lia, minus, Nat.add_comm, Nat.add_sub_assoc (Nat.mod_le ..)]
    lia
  have passed : v.pass stays n = { v with
      copyto := v.old.bp (n + 1)
      ndx := v.ndx + 2
      off := v.old.bp (n + 1) } := by
    simp only [SplitVars.pass, read, here, gap, if_true, ne_eq, not_true_eq_false, if_false]
  have stayed : staying stays (front ++ [(key, val)]) = front ++ [(key, val)] := by
    rw [staying_append, staying_singleton, here, all]
    rfl
  have moved : moving stays (front ++ [(key, val)]) = moving stays front := by
    rw [moving_append, moving_singleton, here]
    exact List.append_nil _
  have length : (front ++ [(key, val)]).length = front.length + 1 := List.length_append
  rw [passed]
  refine splits.next at_ rfl rfl (splits.real (by simp)) (fun _ _ => rfl) (fun _ _ => rfl) ?_ ?_ ?_
    ?_ ?_
  · rw [stayed, flat_append, packed_append, length_flat]
    have kept := splits.kept
    rw [all] at kept
    refine ⟨kept, ?_⟩
    change Packed _ _ _ (bsize - fill front) _
    rwa [show 1 + 2 * front.length = n by lia, show bsize - fill front = v.off by lia]
  · rw [stayed, fill_append, fill_singleton]
    change v.old.bp (n + 1) + _ = bsize
    lia
  · rw [stayed, length]
    change v.ndx + 2 = _
    lia
  · rw [moved]
    exact splits.moved
  · rw [moved]
    exact splits.new

theorem SplitVars.Splits.closes {d : Nat}
    (splits : v.Splits bsize stays front ((key, val) :: back) link) (small : bsize < 2 ^ 16)
    (at_ : 2 * front.length + 1 = n) (here : stays key = true)
    (gap : fill (staying stays front) + d = fill front) (open_ : 0 < d) :
    (v.pass stays n).Splits bsize stays (front ++ [(key, val)]) back link := by
  obtain ⟨start, next, read, -, pair, rest, room⟩ := splits.reads at_
  have off := splits.off
  have copyto := splits.copyto
  have ndx := splits.ndx
  have fewer : (staying stays front).length < front.length := by
    have lengthParts := length_parts stays front
    have fillParts := fill_parts stays front
    by_contra many
    have : (moving stays front).length = 0 := by lia
    rw [List.length_eq_zero_iff.mp this, fill_nil] at fillParts
    lia
  obtain ⟨q, made⟩ : ∃ q : HashPage, q = ((⟨v.old.bp,
      copyTo v.old.bytes (v.old.bp (n + 1) + d) (v.old.bp (n + 1)) (v.off - v.old.bp (n + 1))⟩ :
      HashPage).set
        v.ndx (v.old.bp n + d)).set (v.ndx + 1) (v.old.bp (n + 1) + d) := ⟨_, rfl⟩
  have entries : ∀ k, q.bp k = if k = v.ndx + 1 then v.old.bp (n + 1) + d
      else if k = v.ndx then v.old.bp n + d else v.old.bp k := by
    intro k
    rw [made, HashPage.set_bp, HashPage.set_bp]
  have others : ∀ k, k < v.ndx ∨ n ≤ k → q.bp k = v.old.bp k := by
    intro k apart
    rw [entries, if_neg (by lia), if_neg (by lia)]
  have bytes :
      q.bytes = copyTo v.old.bytes (v.old.bp (n + 1) + d) (v.old.bp (n + 1))
        (v.off - v.old.bp (n + 1)) := by
    rw [made]
    rfl
  have passed : v.pass stays n = { v with
      old := q
      copyto := v.old.bp (n + 1) + d
      ndx := v.ndx + 2
      off := q.bp (n + 1) } := by
    have diff : minus v.copyto v.off = d := by
      rw [minus_of_le (by lia) (by lia)]
      lia
    have dest : plus (v.old.bp (n + 1)) d = v.old.bp (n + 1) + d := plus_of_lt (by lia)
    have entry : minus (v.old.bp (n + 1) + d + v.old.bp n) (v.old.bp (n + 1)) = v.old.bp n + d := by
      rw [minus_eq (by lia) (by lia) (by lia)]
      lia
    simp only [SplitVars.pass, read, here, diff, if_true, ne_eq, Nat.ne_of_gt open_,
      not_false_eq_true, dest, entry, made]
  have stayed : staying stays (front ++ [(key, val)]) = staying stays front ++ [(key, val)] := by
    rw [staying_append, staying_singleton, here]
    rfl
  have moved : moving stays (front ++ [(key, val)]) = moving stays front := by
    rw [moving_append, moving_singleton, here]
    exact List.append_nil _
  rw [passed]
  refine splits.next at_ (others _ (by lia)) (others _ (by lia)) ?_ (fun k low => others k (by lia))
    ?_ ?_ ?_ ?_ ?_ ?_
  · change REAL_KEY ≤ q.bp 2
    rw [entries]
    by_cases first : 2 = v.ndx + 1
    · rw [if_pos first, REAL_KEY]
      lia
    · rw [if_neg first, if_neg (by lia)]
      exact splits.real (by simp)
  · intro k low
    change q.bytes k = _
    rw [bytes, copyTo_of_outside (by lia)]
  · rw [stayed, flat_append, packed_append, length_flat]
    constructor
    · apply splits.kept.congr
      · intro k low high
        rw [length_flat] at high
        exact others k (by lia)
      · intro k low high
        change bsize - fill (staying stays front) ≤ k at low
        change q.bytes k = _
        rw [bytes, copyTo_of_outside (by lia)]
    · change Packed q.bp q.bytes _ (bsize - fill (staying stays front)) _
      rw [show bsize - fill (staying stays front) = v.off + d by lia]
      apply pair.move
      · intro k inside
        rw [length_flat, List.length_singleton] at inside
        rw [Nat.add_comm 1, ← ndx, entries]
        by_cases first : k = 0
        · rw [if_neg (by lia), if_pos (by lia), first, Nat.add_zero]
        · rw [if_pos (by lia), show k = 1 by lia]
      · intro k low high
        change v.off - fill [(key, val)] ≤ k at low
        rw [fill_singleton] at low
        rw [bytes]
        exact copyTo_of_inside (by lia) (by lia) rfl
  · rw [stayed, fill_append, fill_singleton]
    change v.old.bp (n + 1) + d + _ = bsize
    lia
  · rw [stayed, List.length_append, List.length_singleton]
    change v.ndx + 2 = _
    lia
  · rw [moved]
    exact splits.moved
  · rw [moved]
    exact splits.new

theorem SplitVars.Splits.pass (splits : v.Splits bsize stays front ((key, val) :: back) link)
    (small : bsize < 2 ^ 16) (at_ : 2 * front.length + 1 = n)
    (unique : ((front ++ (key, val) :: back).map Prod.fst).Nodup)
    (careful : ¬ Slips stays (front ++ (key, val) :: back)) :
    (v.pass stays n).Splits bsize stays (front ++ [(key, val)]) back link := by
  cases here : stays key with
  | false => exact splits.moves small at_ here
  | true =>
    have parts := fill_parts stays front
    by_cases closed : fill (moving stays front) = 0
    · exact splits.stands at_ here (staying_eq_of_fill unique careful here (by lia))
    · exact splits.closes small at_ here parts (by lia)

theorem SplitVars.Splits.loop {fuel : Nat} (splits : v.Splits bsize stays front back link)
    (small : bsize < 2 ^ 16) (at_ : 2 * front.length + 1 = n) (enough : back.length < fuel)
    (unique : ((front ++ back).map Prod.fst).Nodup) (careful : ¬ Slips stays (front ++ back)) :
    ∃ w, SplitVars.loop stays fuel n v = (w, link.isSome) ∧
      w.Splits bsize stays (front ++ back) [] link := by
  induction back generalizing front n fuel v with
  | nil =>
    obtain ⟨fuel, rfl⟩ : ∃ f, fuel = f + 1 := ⟨fuel - 1, by lia⟩
    have count := splits.count
    rw [List.length_nil, Nat.add_zero] at count
    rw [List.append_nil]
    refine ⟨v, ?_, splits⟩
    cases link with
    | none =>
      rw [SplitVars.loop, if_neg (by rw [count]; simp; lia)]
      rfl
    | some a =>
      obtain ⟨-, second⟩ := splits.linked a rfl
      rw [List.length_nil, show 2 * (front.length + 0) + 2 = n + 1 by lia] at second
      rw [SplitVars.loop, if_pos (by rw [count]; simp; lia), if_pos (by rw [second]; decide)]
      rfl
  | cons pair back ih =>
    obtain ⟨fuel, rfl⟩ : ∃ f, fuel = f + 1 := ⟨fuel - 1, by lia⟩
    obtain ⟨key, val⟩ := pair
    obtain ⟨start, next, -, -, -, rest, room⟩ := splits.reads at_
    have off := splits.off
    have count := splits.count
    rw [List.length_cons] at count
    have passed := splits.pass small at_ unique careful
    rw [List.append_cons] at unique careful ⊢
    rw [SplitVars.loop, if_pos (by lia), if_neg (by rw [REAL_KEY]; lia)]
    exact ih passed (by rw [List.length_append, List.length_singleton]; lia)
      (by rw [List.length_cons] at enough; lia) unique careful

/-- The old page after the loop, when the entries of the pairs that moved go, and the link if it has
one. -/
theorem SplitVars.Splits.cleanUp (splits : v.Splits bsize stays l [] link) (small : bsize < 2 ^ 16)
    (drop : Nat) (entries : drop = v.moved + 2 * link.toList.length) :
    (v.old.cleanUp drop v.copyto).Holds bsize (staying stays l) none := by
  have count := splits.count
  have moved := splits.moved
  have copyto := splits.copyto
  have lengthParts := length_parts stays l
  have fillParts := fill_parts stays l
  have header := splits.new.free
  have room : 4 * l.length + 10 + fill l ≤ bsize ∨ l = [] := by
    simpa [fill_nil] using splits.room
  rw [List.length_nil, Nat.add_zero] at count
  have top : v.old.bp 0 - drop = 2 * (staying stays l).length := by lia
  have entries : ∀ k, (v.old.cleanUp drop v.copyto).bp k =
      if k = 2 * (staying stays l).length + 2 then v.copyto
      else if k = 2 * (staying stays l).length + 1 then minus v.copyto
        (2 * (2 * (staying stays l).length + 3))
      else if k = 0 then 2 * (staying stays l).length else v.old.bp k := by
    intro k
    simp only [HashPage.cleanUp, top, HashPage.set_bp]
  have first : (v.old.cleanUp drop v.copyto).bp 0 = 2 * (staying stays l).length := by
    rw [entries, if_neg (by lia), if_neg (by lia), if_pos rfl]
  have space : 4 * (staying stays l).length + 6 + fill (staying stays l) ≤ bsize := by
    rcases room with room | rfl
    · lia
    · change 0 + 6 + 0 ≤ bsize
      lia
  refine ⟨?_, first, (by rintro _ ⟨⟩), ?_, ?_, ?_⟩
  · apply splits.kept.congr
    · intro k low high
      rw [length_flat] at high
      rw [entries, if_neg (by lia), if_neg (by lia), if_neg (by lia)]
    · exact fun _ _ _ => rfl
  · rw [HashPage.offset, first, entries, if_pos rfl]
    exact copyto
  · rw [HashPage.freespace, first, entries, if_neg (by lia), if_pos rfl,
      minus_of_le (by lia) (by lia)]
    lia
  · rcases room with room | rfl
    · left
      lia
    · exact .inr ⟨rfl, rfl⟩

end Pass

end FreeBsd.Db
