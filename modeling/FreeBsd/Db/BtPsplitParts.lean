import FreeBsd.Db.BtPsplit

/-! When `bt_psplit` parts a page as it should. -/
namespace FreeBsd.Db.Psplit

open FreeBsd.Lib FreeBsd.Db.Bt

section Bytes

variable {a b h : List Entry} {new e : Entry} {skip c : Nat}

theorem bytes_append (a b : List Entry) : bytes (a ++ b) = bytes a + bytes b := by
  rw [bytes, List.map_append, List.sum_append]
  rfl

theorem bytes_cons (e : Entry) (a : List Entry) : bytes (e :: a) = e.nbytes + bytes a := by
  rw [bytes, List.map_cons, List.sum_cons]
  rfl

theorem bytes_take_add_drop (h : List Entry) (n : Nat) :
    bytes (h.take n) + bytes (h.drop n) = bytes h := by
  rw [← bytes_append, List.take_append_drop]

theorem nbytes_pos (e : Entry) : 8 ≤ e.nbytes := by
  cases e with
  | binternal key pgno bigkey => rw [Entry.nbytes, NBINTERNAL, LALIGN]; lia
  | bleaf key data bigkey bigdata => rw [Entry.nbytes, NBLEAFDBT, LALIGN]; lia
  | rinternal nrecs pgno => exact Nat.le_refl 8
  | rleaf data bigdata => rw [Entry.nbytes, NRLEAFDBT, LALIGN]; lia

theorem length_le_bytes (a : List Entry) : 8 * a.length ≤ bytes a := by
  induction a with
  | nil => exact Nat.le_refl 0
  | cons e a ih =>
    have first := nbytes_pos e
    rw [bytes_cons, List.length_cons]
    omega

theorem length_slots (inside : skip ≤ h.length) : (h.insertIdx skip new).length = h.length + 1 :=
  List.length_insertIdx_of_le_length inside new

theorem take_slots_le (short : c ≤ skip) (inside : skip ≤ h.length) :
    (h.insertIdx skip new).take c = h.take c := by
  obtain ⟨front, back, rfl, rfl⟩ := split_at inside
  rw [insertIdx_middle, List.take_append_of_le_length short, List.take_append_of_le_length short]

theorem drop_slots_lt (long : skip < c) (inside : skip ≤ h.length) :
    (h.insertIdx skip new).drop c = h.drop (c - 1) := by
  obtain ⟨front, back, rfl, rfl⟩ := split_at inside
  obtain ⟨k, rfl⟩ := Nat.exists_eq_add_of_lt long
  rw [insertIdx_middle, Nat.add_sub_cancel, List.drop_length_add_append, Nat.add_assoc,
    List.drop_length_add_append]
  rfl

/-- The bytes of the first slots are those of the old items, and of the new one if it is among them.
-/
theorem bytes_slots (inside : skip ≤ h.length) (c : Nat) :
    bytes ((h.insertIdx skip new).take c) = bytes (h.take (oldOf skip c)) +
      if skip < c then new.nbytes else 0 := by
  by_cases short : c ≤ skip
  · rw [take_slots_le short inside, oldOf, if_pos short, if_neg (by lia), Nat.add_zero]
  · obtain ⟨front, back, rfl, rfl⟩ := split_at inside
    obtain ⟨k, rfl⟩ := Nat.exists_eq_add_of_lt (Nat.lt_of_not_le short)
    rw [oldOf, if_neg short, if_pos (by lia), insertIdx_middle, Nat.add_sub_cancel,
      List.take_length_add_append, Nat.add_assoc, List.take_length_add_append, List.take_succ_cons,
      bytes_append, bytes_append, bytes_cons]
    lia

theorem slot_old (inside : skip ≤ h.length) (other : c ≠ skip) :
    (h.insertIdx skip new)[c]? = h[oldOf skip c]? := by
  obtain ⟨front, back, rfl, rfl⟩ := split_at inside
  rw [insertIdx_middle]
  rcases Nat.lt_or_ge c front.length with less | more
  · rw [oldOf, if_pos (by lia), List.getElem?_append_left less, List.getElem?_append_left less]
  · obtain ⟨k, rfl⟩ := Nat.exists_eq_add_of_lt (Nat.lt_of_le_of_ne more (Ne.symm other))
    have first : front.length + k + 1 - front.length = k + 1 := by lia
    have second : front.length + k + 1 - 1 = front.length + k := by lia
    rw [oldOf, if_neg (by lia), second, List.getElem?_append_right (by lia), first,
      List.getElem?_cons_succ, List.getElem?_append_right (by lia), Nat.add_sub_cancel_left]

theorem slot_new (inside : skip ≤ h.length) : (h.insertIdx skip new)[skip]? = some new := by
  obtain ⟨front, back, rfl, rfl⟩ := split_at inside
  rw [insertIdx_middle, getElem?_middle]

theorem oldOf_succ (skip c : Nat) :
    oldOf skip (c + 1) = if skip = c then oldOf skip c else oldOf skip c + 1 := by
  unfold oldOf
  split <;> split <;> split <;> lia

end Bytes

section Left

variable {h : List Entry} {new : Entry} {psize skip c : Nat}

/-- The left page with the old items among the first `c`. -/
def leftPart (psize : Nat) (h : List Entry) (skip : Nat) (new : Entry) (c : Nat) : Half where
  linp := fun i => if i < c ∧ i ≠ skip then (h.insertIdx skip new)[i]? else none
  lower := BTDATAOFF
  upper := psize - bytes (h.take (oldOf skip c))

theorem leftPart_zero (psize : Nat) (h : List Entry) (skip : Nat) (new : Entry) :
    leftPart psize h skip new 0 = Half.fresh psize := by
  unfold leftPart Half.fresh oldOf
  simp [bytes]

theorem leftPart_skip : leftPart psize h skip new (skip + 1) = leftPart psize h skip new skip := by
  unfold leftPart
  rw [oldOf_succ, if_pos rfl]
  congr 1
  funext i
  refine if_congr ?_ rfl rfl
  omega

theorem leftPart_store {src : Entry} (inside : skip ≤ h.length) (room : bytes h ≤ psize)
    (other : skip ≠ c) (here : h[oldOf skip c]? = some src) :
    (leftPart psize h skip new c).store c src = .ok (leftPart psize h skip new (c + 1)) := by
  have whole := bytes_take_add_drop h (oldOf skip c + 1)
  have more : bytes (h.take (oldOf skip c + 1)) = bytes (h.take (oldOf skip c)) + src.nbytes := by
    rw [List.take_add_one, here, bytes_append]
    rfl
  unfold Half.store
  rw [if_neg (by change ¬ psize - bytes (h.take (oldOf skip c)) < src.nbytes; lia)]
  unfold leftPart
  congr 2
  · funext i
    by_cases same : i = c
    · subst same
      rw [Function.update_self, if_pos ⟨Nat.lt_succ_self i, Ne.symm other⟩,
        slot_old inside (Ne.symm other), here]
    · rw [Function.update_of_ne same]
      refine if_congr ?_ rfl rfl
      lia
  · dsimp only
    rw [oldOf_succ, if_neg other, more]
    lia

/-- With `c` items the page is half full, and closed. -/
def Filled (full : Nat) (h : List Entry) (skip : Nat) (new : Entry) (c : Nat) : Prop :=
  full / 2 ≤ bytes ((h.insertIdx skip new).take c) ∧
    (c = skip + 1 ∨ ((h.insertIdx skip new)[c - 1]?.any Entry.isbigkey) = false ∨
      3 ≤ overdue full (h.insertIdx skip new) c)

def Crowded (full : Nat) (h : List Entry) (skip : Nat) (new : Entry) (c : Nat) : Prop :=
  skip ≤ c ∧ oldOf skip c < h.length ∧ full ≤ bytes ((h.insertIdx skip new).take (c + 1))

theorem closes_iff (full : Nat) (h : List Entry) (skip : Nat) (new : Entry) (c : Nat) :
    Closes full h skip new c ↔ Filled full h skip new c ∨ Crowded full h skip new c := Iff.rfl

structure Goes (full : Nat) (h : List Entry) (skip : Nat) (new : Entry) (off cnt : Nat) : Prop where
  inside : off ≤ h.length + 1
  count : cnt = overdue full (h.insertIdx skip new) (off + 1)
  few : cnt ≤ 3
  filled : ∀ b, 0 < b → b ≤ off → ¬ Filled full h skip new b
  crowded : ∀ b < off, ¬ Crowded full h skip new b

theorem overdue_succ (full : Nat) (v : List Entry) (c : Nat) :
    overdue full v (c + 1) = overdue full v c + if full / 2 ≤ bytes (v.take c) then 1 else 0 := by
  rw [overdue, List.range_succ, List.countP_append, List.countP_singleton]
  simp only [decide_eq_true_eq]
  rfl

/-- How the loop ends: with all old items on the left page, or with the first `c` items on it where
it closes. -/
def Ended (psize full : Nat) (h : List Entry) (skip : Nat) (new : Entry) (nxt off : Nat)
    (l : Half) : Prop :=
  nxt = h.length ∧ skip ≤ off ∧ (∀ b, 0 < b → b ≤ h.length → ¬ Closes full h skip new b) ∨
  ∃ c ≤ h.length, nxt = oldOf skip c ∧ off = (c + 65535) % 65536 ∧ l = leftPart psize h skip new c ∧
    (c = 0 → skip = 0 ∧ full ≤ bytes ((h.insertIdx skip new).take 1)) ∧
      (0 < c → Closes full h skip new c) ∧
    ∀ b < c, 0 < b → ¬ Closes full h skip new b

theorem fillLeft_spec {full fuel nxt off used cnt : Nat} (inside : skip ≤ h.length)
    (room : bytes h ≤ full) (small : full < 65536) (wide : full ≤ psize)
    (goes : Goes full h skip new off cnt) (next : nxt = oldOf skip off)
    (sum : used = bytes ((h.insertIdx skip new).take off)) (enough : h.length + 2 ≤ fuel + off) :
    ∃ nxt' off' l', fillLeft h skip new.nbytes full fuel nxt off used cnt
      (leftPart psize h skip new off) =
      .ok (nxt', off', l') ∧ Ended psize full h skip new nxt' off' l' := by
  induction fuel generalizing nxt off used cnt with
  | zero =>
    have bound := goes.inside
    lia
  | succ fuel ih =>
    rw [fillLeft]
    cases here : h[nxt]? with
    | none =>
      have all := List.getElem?_eq_none_iff.mp here
      have before := goes.inside
      refine ⟨nxt, off, _, rfl, .inl ⟨?_, ?_, ?_⟩⟩
      · rw [next, oldOf] at all ⊢
        split <;> split at all <;> lia
      · rw [next, oldOf] at all
        split at all <;> lia
      · intro b positive low closes
        have reached : b ≤ off := by
          rw [next, oldOf] at all
          split at all <;> lia
        rcases (closes_iff ..).mp closes with filled | crowded
        · exact goes.filled b positive reached filled
        · rcases Nat.lt_or_ge b off with less | same
          · exact goes.crowded b less crowded
          · obtain rfl : b = off := by lia
            have visited := crowded.2.1
            lia
    | some src =>
      dsimp only
      have visited : oldOf skip off < h.length := by
        rw [← next]
        exact (List.getElem?_eq_some_iff.mp here).1
      have below : off ≤ h.length := by
        rw [oldOf] at visited
        split at visited <;> lia
      have slot : (h.insertIdx skip new)[off]? = some (if skip = off then new else src) := by
        by_cases same : skip = off
        · rw [if_pos same, ← same, slot_new inside]
        · rw [if_neg same, slot_old inside (Ne.symm same), ← next, here]
      have more : bytes ((h.insertIdx skip new).take (off + 1)) =
          used + if skip = off then new.nbytes else src.nbytes := by
        rw [List.take_add_one, slot, bytes_append, ← sum]
        split
        · rfl
        · rfl
      have quiet : ∀ b, 0 < b → b < off → ¬ Closes full h skip new b := by
        intro b positive less closes
        rcases (closes_iff ..).mp closes with filled | crowded
        · exact goes.filled b positive (by lia) filled
        · exact goes.crowded b less crowded
      by_cases crowd : skip ≤ off ∧ used + (if skip = off then new.nbytes else src.nbytes) ≥ full
      · rw [if_pos crowd]
        have crowded : Crowded full h skip new off :=
          ⟨crowd.1, visited, by rw [more]; exact crowd.2⟩
        refine ⟨nxt, _, _, rfl, .inr ⟨off, below, next, rfl, rfl, ?_,
          fun _ => (closes_iff ..).mpr (.inr crowded), fun b less positive =>
          quiet b positive less⟩⟩
        rintro rfl
        exact ⟨by lia, crowded.2.2⟩
      · rw [if_neg crowd]
        have fits : bytes ((h.insertIdx skip new).take (off + 1)) < 65536 := by
          by_cases before : skip ≤ off
          · rw [more]
            by_contra large
            exact crowd ⟨before, by lia⟩
          · have whole := bytes_take_add_drop h (off + 1)
            rw [take_slots_le (by lia) inside]
            lia
        have page : (leftPart psize h skip new off).copy skip off nxt src =
            .ok (oldOf skip (off + 1), leftPart psize h skip new (off + 1)) := by
          rw [Half.copy]
          by_cases same : skip = off
          · rw [if_neg (not_not.mpr same), oldOf_succ, if_pos same, next, ← same, leftPart_skip]
          · rw [if_pos same, leftPart_store inside (by lia) same (by rw [← next]; exact here),
              oldOf_succ, if_neg same, next]
            rfl
        rw [page]
        simp only [bind, Except.bind]
        rw [← more, Nat.mod_eq_of_lt fits]
        have count := overdue_succ full (h.insertIdx skip new) (off + 1)
        have passed : ∀ b < off + 1, ¬ Crowded full h skip new b := by
          intro b less crowded
          rcases Nat.lt_or_ge b off with before | same
          · exact goes.crowded b before crowded
          · obtain rfl : b = off := by lia
            refine crowd ⟨crowded.1, ?_⟩
            have full' := crowded.2.2
            rw [more] at full'
            exact full'
        have filled_iff : Filled full h skip new (off + 1) ↔
            full / 2 ≤ bytes ((h.insertIdx skip new).take (off + 1)) ∧
              (!(if skip = off then false else src.isbigkey) || decide (cnt = 3)) = true := by
          refine and_congr_right fun _ => ?_
          rw [Nat.add_sub_cancel, slot, ← goes.count, Option.any_some]
          have few := goes.few
          by_cases same : skip = off
          · simp [same]
          · rw [if_neg same, if_neg same, Bool.or_eq_true, decide_eq_true_eq, Bool.not_eq_true']
            constructor
            · rintro (same' | small | many)
              · lia
              · exact .inl small
              · exact .inr (by lia)
            · rintro (small | many)
              · exact .inr (.inl small)
              · exact .inr (.inr (by lia))
        by_cases half : bytes ((h.insertIdx skip new).take (off + 1)) ≥ full / 2
        · rw [if_pos half]
          by_cases closed : (!(if skip = off then false else src.isbigkey) || decide (cnt = 3)) =
            true
          · rw [if_pos closed]
            have closes := (closes_iff ..).mpr (.inl (filled_iff.mpr ⟨half, closed⟩))
            refine ⟨_, _, _, rfl, ?_⟩
            rcases Nat.lt_or_ge off h.length with less | last
            · have short := length_le_bytes h
              refine .inr ⟨off + 1, less, rfl, by lia, rfl, by lia, fun _ => closes, ?_⟩
              intro b before positive closes
              rcases (closes_iff ..).mp closes with filled | crowded
              · exact goes.filled b positive (by lia) filled
              · exact passed b before crowded
            · refine .inl ⟨?_, by lia, ?_⟩
              · rw [oldOf]
                split <;> lia
              · intro b positive low closes
                rcases (closes_iff ..).mp closes with filled | crowded
                · exact goes.filled b positive (by lia) filled
                · exact passed b (by lia) crowded
          · rw [if_neg closed]
            rw [if_pos half] at count
            refine ih ⟨by lia, ?_, ?_, ?_, passed⟩ rfl rfl (by lia)
            · rw [count, ← goes.count]
            · have few := goes.few
              rw [Bool.or_eq_true, not_or, decide_eq_true_eq] at closed
              lia
            · intro b positive low filled
              rcases Nat.lt_or_ge off b with last | before
              · obtain rfl : b = off + 1 := by lia
                exact closed (filled_iff.mp filled).2
              · exact goes.filled b positive before filled
        · rw [if_neg half]
          rw [if_neg half] at count
          refine ih ⟨by lia, ?_, goes.few, ?_, passed⟩ rfl rfl (by lia)
          · rw [count, Nat.add_zero, ← goes.count]
          · intro b positive low filled
            rcases Nat.lt_or_ge off b with last | before
            · obtain rfl : b = off + 1 := by lia
              exact half filled.1
            · exact goes.filled b positive before filled

end Left

section Right

variable {rest a b : List Entry} {nxt off skip : Nat} {r : Half}

/-- The page with more items in the slots from `off` on. -/
def Half.put (r : Half) (off : Nat) (rest : List Entry) : Half where
  linp := fun i => if off ≤ i ∧ i < off + rest.length then rest[i - off]? else r.linp i
  lower := r.lower
  upper := r.upper - bytes rest

theorem put_nil (r : Half) (off : Nat) : r.put off [] = r := by
  cases r with
  | mk linp lower upper =>
    unfold Half.put
    congr 1
    funext i
    exact if_neg (by rw [List.length_nil]; omega)

theorem put_cons (r : Half) (off : Nat) (src : Entry) (rest : List Entry) :
    ({ r with linp := Function.update r.linp off (some src), upper := r.upper - src.nbytes } :
      Half).put (off + 1) rest =
      r.put off (src :: rest) := by
  unfold Half.put
  congr 1
  · funext i
    dsimp only
    rw [List.length_cons]
    rcases Nat.lt_trichotomy i off with less | rfl | more
    · rw [if_neg (by lia), if_neg (by lia), Function.update_of_ne (by lia)]
    · rw [if_neg (by lia), if_pos (by lia), Function.update_self, Nat.sub_self]
      rfl
    · obtain ⟨k, rfl⟩ := Nat.exists_eq_add_of_lt more
      have first : off + k + 1 - (off + 1) = k := by lia
      have second : off + k + 1 - off = k + 1 := by lia
      by_cases inside : k < rest.length
      · rw [if_pos (by lia), if_pos (by lia), first, second, List.getElem?_cons_succ]
      · rw [if_neg (by lia), if_neg (by lia), Function.update_of_ne (by lia)]
  · dsimp only
    rw [bytes_cons, Nat.sub_add_eq]

theorem fillRight_plain (room : bytes rest ≤ r.upper) (other : ∀ j < rest.length, skip ≠ nxt + j) :
    fillRight rest nxt off skip r = .ok (off + rest.length, skip, r.put off rest) := by
  induction rest generalizing nxt off r with
  | nil => rw [put_nil]; rfl
  | cons src rest ih =>
    have here : skip ≠ nxt := other 0 (Nat.zero_lt_succ _)
    rw [bytes_cons] at room
    rw [fillRight, if_neg here]
    simp only [bind, Except.bind, Half.store]
    rw [if_neg (by lia)]
    dsimp only
    rw [ih (by dsimp only; lia) fun j below => by
        have later := other (j + 1) (Nat.succ_lt_succ below)
        lia,
      put_cons, List.length_cons]
    congr 2
    lia

theorem fillRight_hole (room : bytes (a ++ b) ≤ r.upper) (here : skip = nxt + a.length)
    (some : b ≠ []) :
    fillRight (a ++ b) nxt off skip r =
      .ok (off + a.length + 1 + b.length, 0, (r.put off a).put (off + a.length + 1) b) := by
  induction a generalizing nxt off r with
  | nil =>
    cases b with
    | nil => exact absurd rfl some
    | cons src b =>
      rw [List.nil_append, bytes_cons] at room
      rw [List.length_nil, Nat.add_zero] at here
      rw [List.nil_append, fillRight, if_pos here]
      simp only [bind, Except.bind, Half.store]
      rw [if_neg (by lia)]
      dsimp only
      rw [fillRight_plain (by dsimp only; lia)
        fun j _ => by lia, put_cons, put_nil, List.length_nil, Nat.add_zero, List.length_cons]
      congr 2
      lia
  | cons src a ih =>
    rw [List.cons_append, bytes_cons] at room
    rw [List.length_cons] at here
    rw [List.cons_append, fillRight, if_neg (by lia)]
    simp only [bind, Except.bind, Half.store]
    rw [if_neg (by lia)]
    dsimp only
    rw [ih (by dsimp only; lia) (by lia), put_cons, List.length_cons]
    have first : off + 1 + a.length = off + (a.length + 1) := by lia
    rw [first]

end Right

section Whole

variable {h : List Entry} {new : Entry} {psize skip c nxt off : Nat} {l r : Half}

structure Half.Holds (p : Half) (psize : Nat) (items : List Entry) : Prop where
  lower : p.lower = BTDATAOFF + INDX * items.length
  upper : p.upper + bytes items = psize
  linp : ∀ i < items.length, p.linp i = items[i]?

theorem records_eq {p : Half} {n : Nat} (lower : p.lower = BTDATAOFF + INDX * n) :
    p.records = (List.range n).map p.linp := by
  have count : (p.lower - BTDATAOFF) / INDX = n := by
    rw [lower, Nat.add_sub_cancel_left]
    exact Nat.mul_div_cancel_left _ (by decide)
  rw [Half.records, count]

theorem Half.Holds.records {p : Half} {items : List Entry} (holds : p.Holds psize items) :
    p.records = items.map some := by
  rw [records_eq holds.lower]
  refine List.ext_getElem (by simp) fun i inside inside' => ?_
  rw [List.length_map] at inside'
  rw [List.getElem_map, List.getElem_range, holds.linp i inside', List.getElem?_eq_getElem inside',
    List.getElem_map]

theorem Half.Holds.lower_le {p : Half} {items : List Entry} (holds : p.Holds psize items)
    (header : BTDATAOFF ≤ psize) :
    p.lower ≤ p.upper ↔ space items ≤ psize - BTDATAOFF := by
  have low := holds.lower
  have up := holds.upper
  unfold space
  lia

theorem store_holds (p : Half) (items : List Entry) (skip : Nat)
    (lower : p.lower = BTDATAOFF + INDX * items.length)
    (upper : p.upper + bytes items = psize + new.nbytes)
    (linp : ∀ i < items.length, i ≠ skip → p.linp i = items[i]?) (slot : items[skip]? = some new) :
    psize < bytes items ∧ p.store skip new = .error .astray ∨
      ∃ q, p.store skip new = .ok q ∧ q.Holds psize items := by
  unfold Half.store
  by_cases fault : p.upper < new.nbytes
  · exact .inl ⟨by lia, if_pos fault⟩
  · rw [if_neg fault]
    refine .inr ⟨_, rfl, lower, by dsimp only; lia, fun i inside => ?_⟩
    by_cases same : i = skip
    · rw [same, slot]
      exact Function.update_self ..
    · rw [← linp i inside same]
      exact Function.update_of_ne same ..

theorem splits_iff_of_holds (run : splitStore psize h skip new = .ok (l, r))
    (header : BTDATAOFF ≤ psize) (left : l.Holds psize ((h.insertIdx skip new).take c))
    (right : r.Holds psize ((h.insertIdx skip new).drop c)) (positive : 0 < c)
    (short : c < (h.insertIdx skip new).length) :
    SplitsWell psize h skip new ↔ space ((h.insertIdx skip new).take c) ≤ psize - BTDATAOFF ∧
      space ((h.insertIdx skip new).drop c) ≤ psize - BTDATAOFF := by
  rw [← left.lower_le header, ← right.lower_le header]
  constructor
  · rintro ⟨l', r', same, -, -, -, lroom, rroom⟩
    rw [run] at same
    cases same
    exact ⟨lroom, rroom⟩
  · rintro ⟨lroom, rroom⟩
    refine ⟨l, r, run, ?_, ?_, ?_, lroom, rroom⟩
    · rw [left.records]
      intro none
      have length := congrArg List.length none
      rw [List.length_map, List.length_take, List.length_nil] at length
      lia
    · rw [right.records]
      intro none
      have length := congrArg List.length none
      rw [List.length_map, List.length_drop, List.length_nil] at length
      lia
    · rw [left.records, right.records, ← List.map_append, List.take_append_drop]

theorem splitStore_of_fill
    (run : fillLeft h skip new.nbytes (psize - BTDATAOFF) (h.length + 2) 0 0 0 0
    (Half.fresh psize) =
    .ok (nxt, off, l)) :
    splitStore psize h skip new = (do
      let (count, skip', r) ← fillRight (h.drop nxt) nxt 0 (if skip ≤ off then 0 else skip)
        (Half.fresh psize)
      let l := { l with lower := (l.lower + (off + 1) * INDX) % 65536 }
      let r := { r with lower := (r.lower + count * INDX) % 65536 }
      let r := if skip' = h.length then { r with lower := (r.lower + INDX) % 65536 } else r
      if skip ≤ off then .ok (← l.store skip new, r) else .ok (l, ← r.store (skip - nxt) new)) := by
  rw [splitStore, btPsplit]
  simp only [bind, Except.bind]
  rw [run]
  by_cases left : skip ≤ off
  · simp only [if_pos left]
    cases fillRight (h.drop nxt) nxt 0 0 (Half.fresh psize) with
    | error fault => rfl
    | ok result => rfl
  · simp only [if_neg left]
    cases fillRight (h.drop nxt) nxt 0 skip (Half.fresh psize) with
    | error fault => rfl
    | ok result => rfl

theorem not_splits_out
    (run : fillLeft h skip new.nbytes (psize - BTDATAOFF) (h.length + 2) 0 0 0 0
    (Half.fresh psize) =
    .ok (h.length, off, l)) (into : skip ≤ off) (inside : skip ≤ h.length) :
      ¬ SplitsWell psize h skip new := by
  rintro ⟨l', r', same, lsome, rsome, records, -⟩
  rw [splitStore_of_fill run, List.drop_length, if_pos into] at same
  simp only [fillRight, bind, Except.bind, if_pos into] at same
  cases stored : Half.store { l with lower := (l.lower + (off + 1) * INDX) % 65536 } skip new with
  | error fault =>
    rw [stored] at same
    cases same
  | ok q =>
    rw [stored] at same
    cases same
    by_cases empty : h.length = 0
    · rw [if_pos empty.symm] at records
      have length := congrArg List.length records
      rw [List.length_append, List.length_map, length_slots inside, empty] at length
      have first := List.length_pos_iff.mpr lsome
      have hole :=
        @records_eq ⟨(Half.fresh psize).linp, ((BTDATAOFF + 0 * INDX) % 65536 + INDX) % 65536,
        psize⟩ 1 rfl
      change _ + (Half.records ⟨(Half.fresh psize).linp,
        ((BTDATAOFF + 0 * INDX) % 65536 + INDX) % 65536, psize⟩).length = _
        at length
      rw [hole, List.length_map, List.length_range] at length
      omega
    · rw [if_neg (Ne.symm empty)] at rsome
      exact rsome (@records_eq { Half.fresh psize with lower := _ } 0 rfl)

theorem not_splits_first
    (run : fillLeft h skip new.nbytes (psize - BTDATAOFF) (h.length + 2) 0 0 0 0
    (Half.fresh psize) =
    .ok (nxt, 65535, leftPart psize h skip new 0)) (first : skip = 0) :
      ¬ SplitsWell psize h skip new := by
  rintro ⟨l', r', same, lsome, -⟩
  have into : skip ≤ 65535 := by omega
  rw [splitStore_of_fill run] at same
  simp only [bind, Except.bind, if_pos into] at same
  cases filled : fillRight (h.drop nxt) nxt 0 0 (Half.fresh psize) with
  | error fault =>
    rw [filled] at same
    cases same
  | ok result =>
    rw [filled] at same
    dsimp only at same
    rw [Half.store] at same
    split at same
    · rename_i fault
      split at fault
      · cases same
      · cases fault
    · rename_i q stored
      split at stored
      · cases stored
      · cases stored
        cases same
        have lower : (BTDATAOFF + (65535 + 1) * INDX) % 65536 = BTDATAOFF + INDX * 0 := by decide
        exact lsome (@records_eq _ 0 lower)

theorem lower_eq (n : Nat) (short : BTDATAOFF + INDX * n < 65536) :
    (BTDATAOFF + n * INDX) % 65536 = BTDATAOFF + INDX * n := by
  rw [Nat.mul_comm n INDX, Nat.mod_eq_of_lt short]

theorem right_plain (rest : List Entry) (room : bytes rest ≤ psize)
    (short : BTDATAOFF + INDX * rest.length < 65536) :
    Half.Holds ⟨((Half.fresh psize).put 0 rest).linp,
      (((Half.fresh psize).put 0 rest).lower + (0 + rest.length) * INDX) % 65536,
      ((Half.fresh psize).put 0 rest).upper⟩ psize rest where
  lower := by
    change (BTDATAOFF + (0 + rest.length) * INDX) % 65536 = _
    rw [Nat.zero_add, lower_eq _ short]
  upper := by
    change psize - bytes rest + bytes rest = psize
    lia
  linp := by
    intro i inside
    exact if_pos ⟨Nat.zero_le i, by lia⟩

theorem holed_holds {a b : List Entry} {lower : Nat} (room : bytes (a ++ b) ≤ psize)
    (index : lower = BTDATAOFF + INDX * (a ++ new :: b).length) :
    psize < bytes (a ++ new :: b) ∧
      Half.store ⟨(((Half.fresh psize).put 0 a).put (0 + a.length + 1) b).linp, lower,
        (((Half.fresh psize).put 0 a).put (0 + a.length + 1) b).upper⟩ a.length new =
        .error .astray ∨
      ∃ q, Half.store ⟨(((Half.fresh psize).put 0 a).put (0 + a.length + 1) b).linp, lower,
        (((Half.fresh psize).put 0 a).put (0 + a.length + 1) b).upper⟩ a.length new = .ok q ∧
        q.Holds psize (a ++ new :: b) := by
  refine store_holds _ _ _ index ?_ ?_ (getElem?_middle a b new)
  · rw [bytes_append] at room
    rw [bytes_append, bytes_cons]
    change psize - bytes a - bytes b + _ = _
    lia
  · intro i below other
    rw [List.length_append, List.length_cons] at below
    rcases Nat.lt_or_ge i a.length with less | more
    · rw [List.getElem?_append_left less]
      exact (if_neg (by lia)).trans (if_pos ⟨Nat.zero_le i, by lia⟩)
    · obtain ⟨k, rfl⟩ := Nat.exists_eq_add_of_lt (Nat.lt_of_le_of_ne more (Ne.symm other))
      have first : a.length + k + 1 - a.length = k + 1 := by lia
      have second : a.length + k + 1 - (0 + a.length + 1) = k := by lia
      rw [List.getElem?_append_right (by lia), first, List.getElem?_cons_succ]
      exact (if_pos ⟨by lia, by lia⟩).trans (congrArg (b[·]?) second)

theorem drop_slots_ge (behind : c ≤ skip) (inside : skip ≤ h.length) :
    ∃ a b, h.drop c = a ++ b ∧ c + a.length = skip ∧
      (h.insertIdx skip new).drop c = a ++ new :: b := by
  obtain ⟨front, back, rfl, rfl⟩ := split_at inside
  refine ⟨front.drop c, back, List.drop_append_of_le_length behind, ?_, ?_⟩
  · rw [List.length_drop]
    omega
  · rw [insertIdx_middle, List.drop_append_of_le_length behind]

variable (inside : skip ≤ h.length) (header : BTDATAOFF ≤ psize) (most : psize ≤ 65536)
  (fits : space h ≤ psize - BTDATAOFF)

include inside header most fits

theorem closed_left (long : 1 < c) (last : c ≤ h.length) (before : skip < c)
    (run : fillLeft h skip new.nbytes (psize - BTDATAOFF) (h.length + 2) 0 0 0 0
      (Half.fresh psize) =
      .ok (oldOf skip c, c - 1, leftPart psize h skip new c)) :
    SplitsWell psize h skip new ↔ space ((h.insertIdx skip new).take c) ≤ psize - BTDATAOFF ∧
      space ((h.insertIdx skip new).drop c) ≤ psize - BTDATAOFF := by
  have into : skip ≤ c - 1 := by lia
  have old : oldOf skip c = c - 1 := by rw [oldOf, if_neg (by lia)]
  have whole := bytes_take_add_drop h (c - 1)
  have small : bytes h + 2 * h.length ≤ psize - BTDATAOFF := fits
  have indices := length_le_bytes h
  have count : c - 1 + 1 = c := by lia
  have total := @length_slots h new skip inside
  have taken := @bytes_slots h new skip inside c
  have length : (h.drop (c - 1)).length = h.length - (c - 1) := List.length_drop
  have size : ((h.insertIdx skip new).take c).length = c := List.length_take_of_le (by lia)
  have lower : BTDATAOFF + INDX * (h.drop (c - 1)).length < 65536 := by
    unfold BTDATAOFF INDX at *
    lia
  have right : Half.Holds _ psize _ := right_plain (h.drop (c - 1)) (by lia) lower
  rw [old, if_pos before] at taken
  have stored := @store_holds new psize
    ⟨(leftPart psize h skip new c).linp,
      ((leftPart psize h skip new c).lower + (c - 1 + 1) * INDX) % 65536,
      (leftPart psize h skip new c).upper⟩ ((h.insertIdx skip new).take c) skip
    (by
      change (BTDATAOFF + (c - 1 + 1) * INDX) % 65536 = _
      rw [count, size, lower_eq]
      unfold BTDATAOFF INDX at *
      lia)
    (by
      change psize - bytes (h.take (oldOf skip c)) + _ = _
      rw [old, taken]
      lia)
    (by
      intro i below other
      rw [size] at below
      rw [List.getElem?_take_of_lt below]
      exact if_pos ⟨below, other⟩)
    (by rw [List.getElem?_take_of_lt before, slot_new inside])
  have steps := splitStore_of_fill run
  rw [old, if_pos into, fillRight_plain (by change _ ≤ psize; lia) fun j _ => by lia] at steps
  simp only [bind, Except.bind, if_pos into, if_neg (show ¬ 0 = h.length by lia)] at steps
  rcases stored with ⟨large, fault⟩ | ⟨q, ok, holds⟩
  · refine iff_of_false ?_ ?_
    · rintro ⟨l, r, run, -⟩
      rw [steps, fault] at run
      cases run
    · rintro ⟨room, -⟩
      unfold space at room
      lia
  · rw [ok] at steps
    rw [← @drop_slots_lt h new skip c before inside] at right steps
    exact splits_iff_of_holds steps header holds right (by lia) (by lia)

omit header in
/-- The new item alone on the left page leaves its slot on the right one too. -/
theorem closed_first (first : skip = 0) (some : 1 ≤ h.length)
    (run : fillLeft h skip new.nbytes (psize - BTDATAOFF) (h.length + 2) 0 0 0 0
      (Half.fresh psize) =
      .ok (0, 0, leftPart psize h skip new 1)) : ¬ SplitsWell psize h skip new := by
  have indices := length_le_bytes h
  have small : bytes h + 2 * h.length ≤ psize - BTDATAOFF := fits
  have into : skip ≤ 0 := by lia
  have steps := splitStore_of_fill run
  have filled := @fillRight_hole [] h 0 0 0 (Half.fresh psize) (by change bytes h ≤ psize; lia) rfl
    (List.length_pos_iff.mp some)
  rw [List.nil_append] at filled
  rw [List.drop_zero, if_pos into, filled] at steps
  simp only [bind, Except.bind, if_pos into, if_neg (show ¬ 0 = h.length by lia)] at steps
  rintro ⟨l, r, run', lsome, -, records, -⟩
  rw [run'] at steps
  split at steps
  · cases steps
  · have lower := congrArg (fun p => p.2.lower) (Except.ok.inj steps)
    change r.lower = (BTDATAOFF + (0 + 0 + 1 + h.length) * INDX) % 65536 at lower
    have counted : r.lower = BTDATAOFF + INDX * (h.length + 1) := by
      rw [lower]
      unfold BTDATAOFF INDX at *
      lia
    have length := congrArg List.length records
    have positive := List.length_pos_iff.mpr lsome
    rw [List.length_append, List.length_map, length_slots inside, records_eq counted,
      List.length_map, List.length_range] at length
    lia

theorem closed_right (positive : 0 < c) (last : c ≤ h.length) (behind : c ≤ skip)
    (run : fillLeft h skip new.nbytes (psize - BTDATAOFF) (h.length + 2) 0 0 0 0
      (Half.fresh psize) =
      .ok (oldOf skip c, c - 1, leftPart psize h skip new c)) :
    SplitsWell psize h skip new ↔ space ((h.insertIdx skip new).take c) ≤ psize - BTDATAOFF ∧
      space ((h.insertIdx skip new).drop c) ≤ psize - BTDATAOFF := by
  have into : ¬ skip ≤ c - 1 := by lia
  have old : oldOf skip c = c := by rw [oldOf, if_pos behind]
  have whole := bytes_take_add_drop h c
  have small : bytes h + 2 * h.length ≤ psize - BTDATAOFF := fits
  have indices := length_le_bytes h
  have count : c - 1 + 1 = c := by lia
  have total := @length_slots h new skip inside
  have length : (h.drop c).length = h.length - c := List.length_drop
  have left : Half.Holds ⟨(leftPart psize h skip new c).linp,
      ((leftPart psize h skip new c).lower + (c - 1 + 1) * INDX) % 65536,
      (leftPart psize h skip new c).upper⟩ psize
      ((h.insertIdx skip new).take c) := by
    rw [take_slots_le behind inside]
    refine ⟨?_, ?_, ?_⟩
    · change (BTDATAOFF + (c - 1 + 1) * INDX) % 65536 = _
      rw [count, List.length_take_of_le last, lower_eq]
      unfold BTDATAOFF INDX at *
      lia
    · change psize - bytes (h.take (oldOf skip c)) + _ = _
      rw [old]
      lia
    · intro i below
      rw [List.length_take_of_le last] at below
      rw [← take_slots_le behind inside, List.getElem?_take_of_lt below]
      exact if_pos ⟨below, by lia⟩
  obtain ⟨a, b, parts, start, slots⟩ := @drop_slots_ge h new skip c behind inside
  rw [parts, List.length_append] at length
  rw [parts] at whole
  have next : skip - c = a.length := by lia
  have counted : (a ++ new :: b).length = a.length + 1 + b.length := by
    rw [List.length_append, List.length_cons]
    lia
  have steps := splitStore_of_fill run
  rw [old, if_neg into, parts] at steps
  obtain ⟨lower, index, steps⟩ : ∃ lower, lower = BTDATAOFF + INDX * (a ++ new :: b).length ∧
      splitStore psize h skip new =
        (Half.store ⟨(((Half.fresh psize).put 0 a).put (0 + a.length + 1) b).linp, lower,
          (((Half.fresh psize).put 0 a).put (0 + a.length + 1) b).upper⟩ a.length new).bind fun r =>
        .ok (⟨(leftPart psize h skip new c).linp,
          ((leftPart psize h skip new c).lower + (c - 1 + 1) * INDX) % 65536,
          (leftPart psize h skip new c).upper⟩, r) := by
    by_cases appended : b = []
    · subst appended
      rw [List.append_nil] at steps whole
      rw [List.length_nil] at length counted
      rw [fillRight_plain (by change _ ≤ psize; lia) fun j below => by lia] at steps
      simp only [bind, Except.bind, if_neg into, if_pos (show skip = h.length by lia),
        next] at steps
      refine ⟨_, ?_, by rw [put_nil]; exact steps⟩
      change ((BTDATAOFF + (0 + a.length) * INDX) % 65536 + INDX) % 65536 = _
      rw [counted]
      unfold BTDATAOFF INDX at *
      lia
    · rw [fillRight_hole (by change _ ≤ psize; lia) start.symm appended] at steps
      simp only [bind, Except.bind, if_neg into, if_neg (show ¬ 0 = h.length by lia), next] at steps
      refine ⟨_, ?_, steps⟩
      change (BTDATAOFF + (0 + a.length + 1 + b.length) * INDX) % 65536 = _
      rw [counted]
      unfold BTDATAOFF INDX at *
      lia
  rcases @holed_holds new psize a b lower (by lia) index with ⟨large, fault⟩ | ⟨q, ok, holds⟩
  · refine iff_of_false ?_ ?_
    · rintro ⟨l, r, run, -⟩
      rw [steps, fault] at run
      cases run
    · rintro ⟨-, room⟩
      rw [slots] at room
      unfold space at room
      lia
  · rw [ok] at steps
    rw [← slots] at holds
    exact splits_iff_of_holds steps header left holds positive (by lia)

end Whole

section Result

variable {h : List Entry} {new : Entry} {psize full skip c b : Nat}

theorem first_unique (closes : Closes full h skip new c)
    (first : ∀ b < c, 0 < b → ¬ Closes full h skip new b) (closes' : Closes full h skip new b)
    (first' : ∀ a < b, 0 < a → ¬ Closes full h skip new a) (positive : 0 < c) (positive' : 0 < b) :
      b = c := by
  rcases Nat.lt_trichotomy b c with less | same | more
  · exact absurd closes' (first b less positive')
  · exact same
  · exact absurd closes (first' c more positive)

theorem not_parts_large (inside : skip ≤ h.length)
    (large : full ≤ bytes ((h.insertIdx skip new).take 1)) :
    ¬ ∃ c, Parts full h skip new c := by
  rintro ⟨c, positive, last, -, -, -, room, -⟩
  have total := @length_slots h new skip inside
  have whole := bytes_take_add_drop ((h.insertIdx skip new).take c) 1
  rw [List.take_take, Nat.min_eq_left (show 1 ≤ c from positive)] at whole
  unfold space INDX at room
  rw [List.length_take_of_le (by lia)] at room
  lia

/-- A page is parted as it should be just where the loop closes the left page with an item left for
the right one, not with the new item alone, and both pages have room for their items and the index.
-/
theorem splitStore_iff (psize : Nat) (h : List Entry) (skip : Nat) (new : Entry)
    (least : 512 ≤ psize) (most : psize ≤ 65536) (inside : skip ≤ h.length)
    (fits : space h ≤ psize - BTDATAOFF) :
    SplitsWell psize h skip new ↔ ∃ c, Parts (psize - BTDATAOFF) h skip new c := by
  have header : BTDATAOFF ≤ psize := Nat.le_trans (by decide) least
  have small : bytes h + 2 * h.length ≤ psize - BTDATAOFF := fits
  have open' : Goes (psize - BTDATAOFF) h skip new 0 0 := by
    refine ⟨Nat.zero_le _, ?_, Nat.zero_le _,
      fun b positive low => by omega, fun b less => by omega⟩
    rw [overdue_succ, if_neg]
    · rfl
    · change ¬ _ ≤ 0
      unfold BTDATAOFF
      omega
  obtain ⟨nxt, off, l, run, ended⟩ :=
    @fillLeft_spec h new psize skip (psize - BTDATAOFF) (h.length + 2) 0 0 0 0 inside
      (by omega) (by unfold BTDATAOFF; omega) (Nat.sub_le ..) open'
      (by rw [oldOf, if_pos (Nat.zero_le _)])
    (by rw [List.take_zero]; rfl) (by omega)
  rw [leftPart_zero] at run
  rcases ended with ⟨rfl, into, never⟩ | ⟨c, last, rfl, wrapped, rfl, none, closes, first⟩
  · refine iff_of_false (not_splits_out run into inside) ?_
    rintro ⟨c, positive, last, closes, -⟩
    exact never c positive last closes
  · rcases Nat.eq_zero_or_pos c with rfl | positive
    · obtain ⟨start, large⟩ := none rfl
      rw [wrapped] at run
      exact iff_of_false (not_splits_first run start) (not_parts_large inside large)
    · have index : (c + 65535) % 65536 = c - 1 := by
        have indices := length_le_bytes h
        omega
      have closes := closes positive
      rw [wrapped, index] at run
      have parts_iff : (∃ c, Parts (psize - BTDATAOFF) h skip new c) ↔ ¬ (skip = 0 ∧ c = 1) ∧
          space ((h.insertIdx skip new).take c) ≤ psize - BTDATAOFF ∧
          space ((h.insertIdx skip new).drop c) ≤ psize - BTDATAOFF := by
        constructor
        · rintro ⟨b, positive', -, closes', first', rest⟩
          obtain rfl := first_unique closes first closes' first' positive positive'
          exact rest
        · exact fun rest => ⟨c, positive, last, closes, first, rest⟩
      rw [parts_iff]
      rcases Nat.lt_or_ge skip c with before | behind
      · by_cases lone : c = 1
        · subst lone
          have start : skip = 0 := by omega
          have old : oldOf skip 1 = 0 := by rw [oldOf, if_neg (by omega)]
          rw [old] at run
          refine iff_of_false (closed_first inside most fits start last run) fun all =>
            all.1 ⟨start, rfl⟩
        · rw [closed_left inside header most fits (by omega) last before run]
          exact (and_iff_right fun both => lone both.2).symm
      · rw [closed_right inside header most fits positive last behind run]
        exact (and_iff_right fun both => by omega).symm

/-- Seven records of 64 bytes, and another one in the middle. -/
theorem splitStore_even : SplitsWell 512 (List.replicate 7 (.rleaf (List.replicate 56 0) false)) 3
    (.rleaf (List.replicate 56 1) false) :=
  (splitStore_iff 512 (List.replicate 7 (.rleaf (List.replicate 56 0) false)) 3
    (.rleaf (List.replicate 56 1) false)
    (by decide) (by decide) (by decide) (by decide +kernel)).mpr
    ⟨4, by decide, by decide, by decide +kernel, by decide +kernel, by decide, by decide +kernel,
      by decide +kernel⟩

/-- Twenty records of 12 bytes are not half a page, so that one of 236 bytes at the end goes to the
left page with all of them. -/
theorem splitStore_append : ¬ SplitsWell 512 (List.replicate 20 (.bleaf [1] [] false false)) 20
    (.bleaf [2] (List.replicate 226 0) false false) := by
  rintro ⟨l, r, run, -, rsome, -⟩
  have none : (splitStore 512 (List.replicate 20 (.bleaf [1] [] false false)) 20
      (.bleaf [2] (List.replicate 226 0) false false)).toOption.map (fun p => p.2.records) =
        some [] := by decide +kernel
  rw [run] at none
  exact rsome (Option.some.inj none)

end Result

end FreeBsd.Db.Psplit
