import FreeBsd.Db.RecGet

/-! What the readers of a recno file append, over any requests. -/
namespace FreeBsd.Db.Rec

open FreeBsd.Lib

section Requests

variable {irec : Btree → Nat → Btree × Status} {I : Btree → List Bytes → Prop} {ends : Bool}
    {t : Btree}
  {todo : List Bytes} {top bound : Nat} {tops : List Nat}

def most (tops : List Nat) : Nat := tops.foldr max 0

/-- The answer to a request where there are `count` records, and `ends` tells whether the end of the
file is seen with the last of them. -/
def answer (ends : Bool) (count top : Nat) : Status :=
  if top < count ∨ top = count ∧ ends = false then .success else .special

theorem answer_quiet (count top : Nat) :
    answer false count top = if top ≤ count then .success else .special := by
  rw [answer]
  refine if_congr ?_ rfl rfl
  rw [and_iff_left rfl]
  exact Nat.le_iff_lt_or_eq.symm

/-- A reader, in a state in which it has these records to come, appends those asked for, `bound` of
them at most. -/
structure Reader (irec : Btree → Nat → Btree × Status) (I : Btree → List Bytes → Prop) (ends : Bool)
    (bound : Nat) :
    Prop where
  idle : ∀ t top, top ≤ t.recs.length → irec t top = (t, .success)
  appends : ∀ t todo top, I t todo → top ≤ bound →
    (irec t top).1.recs = t.recs ++ todo.take (top - t.recs.length)
  tells : ∀ t todo top, I t todo → top ≤ bound →
    (irec t top).2 = answer ends (t.recs.length + todo.length) top
  goes : ∀ t todo top, I t todo → top ≤ bound → (irec t top).2 = .success →
    (irec t top).1.eof = t.eof ∧
    I (irec t top).1 (todo.drop (top - t.recs.length))
  stops : ∀ t todo top, I t todo → top ≤ bound → (irec t top).2 = .special →
    (irec t top).1.eof = true

theorem most_cons (top : Nat) (tops : List Nat) : most (top :: tops) = max top (most tops) := rfl

theorem take_most {α : Type} (l : List α) (r top m : Nat) :
    l.take (top - r) ++ (l.drop (top - r)).take (m - (r + min (top - r) l.length)) =
      l.take (max top m - r) := by
  rw [← List.take_add]
  rcases Nat.le_total (top - r) l.length with inside | beyond
  · rw [Nat.min_eq_left inside]
    congr 1
    lia
  · rw [List.take_of_length_le (by lia), List.take_of_length_le (by lia)]

/-- The answers to all of them; behind the end of the file there is no reader. -/
def answers (ends : Bool) (count : Nat) : List Nat → List Status
  | [] => []
  | top :: tops => answer ends count top ::
    match answer ends count top with
    | .success => answers ends count tops
    | .special => tops.map (answer false count)

theorem le_of_special {count : Nat} (special : answer ends count top = .special) : count ≤ top := by
  unfold answer at special
  split at special
  · cases special
  · omega

theorem requests_cons (idle : top ≤ t.recs.length → irec t top = (t, .success))
    (open' : t.eof = false) :
    requests (fun t top => .ok (irec t top)) (top :: tops) t =
      (requests (fun t top => .ok (irec t top)) tops (irec t top).1).map fun r =>
        (r.1, (irec t top).2 :: r.2) := by
  rw [requests, open']
  simp only [bind, Except.bind, Bool.false_eq_true, if_false]
  split
  · rename_i there
    rw [idle there]
    cases requests (fun t top => .ok (irec t top)) tops t <;> rfl
  · cases requests (fun t top => .ok (irec t top)) tops (irec t top).1 <;> rfl

theorem requests_eof {irec : Btree → Nat → Except Fault (Btree × Status)} (done : t.eof = true)
    (tops : List Nat) :
    requests irec tops t = .ok (t, tops.map (answer false t.recs.length)) := by
  induction tops with
  | nil => rfl
  | cons top tops ih =>
    rw [requests, done, List.map_cons, answer_quiet]
    simp only [bind, Except.bind, if_true]
    split <;> simp only [ih]

theorem Reader.requests (reader : Reader irec I ends bound) (state : I t todo)
    (open' : t.eof = false) (sorted : tops.Pairwise (· ≤ ·)) (bounded : ∀ top ∈ tops, top ≤ bound) :
    ∃ u, Rec.requests (fun t top => .ok (irec t top)) tops t =
        .ok (u, answers ends (t.recs.length + todo.length) tops) ∧
      u.recs = t.recs ++ todo.take (most tops - t.recs.length) := by
  induction tops generalizing t todo with
  | nil => exact ⟨t,
    rfl, by rw [most, List.foldr_nil, Nat.zero_sub, List.take_zero, List.append_nil]⟩
  | cons top tops ih =>
    obtain ⟨low, sorted⟩ := List.pairwise_cons.mp sorted
    have here := bounded top List.mem_cons_self
    have appends := reader.appends t todo top state here
    have told := reader.tells t todo top state here
    rw [requests_cons (reader.idle t top) open', answers, told]
    cases said : answer ends (t.recs.length + todo.length) top with
    | success =>
      obtain ⟨same, next⟩ := reader.goes t todo top state here (told.trans said)
      have count : (irec t top).1.recs.length + (todo.drop (top - t.recs.length)).length =
          t.recs.length + todo.length := by
        rw [appends, List.length_append, List.length_take, List.length_drop]
        lia
      obtain ⟨u, rest, final⟩ := ih next (same.trans open') sorted fun later member =>
        bounded later (List.mem_cons_of_mem _ member)
      rw [count] at rest
      refine ⟨u, by rw [rest]; rfl, ?_⟩
      rw [final, appends, List.append_assoc, List.length_append, List.length_take, most_cons,
        take_most]
    | special =>
      have done := reader.stops t todo top state here (told.trans said)
      have all := le_of_special said
      have count : (irec t top).1.recs.length = t.recs.length + todo.length := by
        rw [appends, List.length_append, List.length_take]
        lia
      refine ⟨(irec t top).1, by rw [requests_eof done, count]; rfl, ?_⟩
      rw [appends, most_cons, List.take_of_length_le (by lia), List.take_of_length_le (by lia)]

end Requests

section Vmap

variable {t : Btree} {input : Bytes} {n : Nat}

end Vmap

section Vpipe

variable {t : Btree} {input : Bytes} {p sz n s : Nat} {bval : UInt8}

/-- The first size of the buffer, of those it comes to, that an `indx_t` does not hold. -/
def limit (dbufsz : Nat) : Nat := dbufsz + (2 ^ 16 - dbufsz + 255) / 256 * 256

theorem limit_grown (below : s < 2 ^ 16) : limit (s + 256) = limit s := by
  unfold limit
  lia

theorem le_limit (s : Nat) : s ≤ limit s := Nat.le_add_right ..

theorem limit_large (large : 2 ^ 16 ≤ s) : limit s = s := by
  unfold limit
  lia

theorem data_store (t : Btree) (p : Nat) (ch : UInt8) :
    (t.store p ch).data (p + 1) = t.data p ++ [ch] := by
  change (List.range (p + 1)).map (Function.update t.dbuf p ch) = (List.range p).map t.dbuf ++ [ch]
  rw [List.range_succ, List.map_append, List.map_singleton, Function.update_self]
  congr 1
  refine List.map_congr_left fun i member => ?_
  have below := List.mem_range.mp member
  exact Function.update_of_ne (by omega) _ _

theorem data_length (t : Btree) (n : Nat) : (t.data n).length = n := by
  rw [Btree.data, List.length_map, List.length_range]

theorem behind_self (rest : Bytes) : behind bval (bval :: rest) = rest := by
  rw [behind, List.dropWhile_cons_of_neg (by simp)]
  rfl

theorem behind_other {ch : UInt8} (other : ch ≠ bval) (rest : Bytes) :
    behind bval (ch :: rest) = behind bval rest := by
  rw [behind, List.dropWhile_cons_of_pos (by simpa using other)]
  rfl

/-- A record is read up to its delimiter or to the end of the file, into no more bytes than it has.
-/
theorem vpipeRecord_frame (input : Bytes) (t : Btree) (p sz : Nat) :
    (vpipeRecord input t p sz).1.recs = t.recs ∧ (vpipeRecord input t p sz).1.eof = t.eof ∧
      (vpipeRecord input t p sz).1.bval = t.bval ∧
        (vpipeRecord input t p sz).1.input = behind t.bval input ∧
      (vpipeRecord input t p sz).2.2 = decide (t.bval ∉ input) ∧
      (vpipeRecord input t p sz).2.1 ≤ p + (input.takeWhile (· ≠ t.bval)).length := by
  induction input generalizing t p sz with
  | nil => exact ⟨rfl, rfl, rfl, rfl, rfl, Nat.le_add_right ..⟩
  | cons ch rest ih =>
    rw [vpipeRecord]
    by_cases delim : ch = t.bval
    · rw [if_pos delim, ← delim, behind_self]
      exact ⟨rfl, rfl, rfl, rfl, by simp, Nat.le_add_right ..⟩
    · rw [if_neg delim, behind_other delim, List.takeWhile_cons_of_pos (by simpa using delim),
        List.length_cons]
      have absent : decide (t.bval ∉ ch :: rest) = decide (t.bval ∉ rest) :=
        decide_eq_decide.mpr (by simp [Ne.symm delim])
      rw [absent]
      split
      · obtain ⟨recs, eof, same, next, ends, size⟩ :=
          ih ({ t with dbufsz := t.dbufsz + 256 }.store (p % 2 ^ 16) ch) (p % 2 ^ 16 + 1) 255
        refine ⟨recs, eof, same, next, ends, size.trans ?_⟩
        have less := Nat.mod_le p (2 ^ 16)
        change p % 2 ^ 16 + 1 + (rest.takeWhile (· ≠ t.bval)).length ≤ _
        lia
      · obtain ⟨recs, eof, same, next, ends, size⟩ := ih (t.store p ch) (p + 1) (sz - 1)
        refine ⟨recs, eof, same, next, ends, size.trans ?_⟩
        change p + 1 + (rest.takeWhile (· ≠ t.bval)).length ≤ _
        lia

theorem vpipeRecord_pos (some : 0 < p + (input.takeWhile (· ≠ t.bval)).length) :
    0 < (vpipeRecord input t p sz).2.1 := by
  induction input generalizing t p sz with
  | nil => exact some
  | cons ch rest ih =>
    rw [vpipeRecord]
    by_cases delim : ch = t.bval
    · rw [List.takeWhile_cons_of_neg (by simpa using delim)] at some
      rw [if_pos delim]
      exact some
    · rw [if_neg delim]
      split
      · exact ih (by lia)
      · exact ih (by lia)

theorem vpipeRecord_whole (inside : p ≤ t.dbufsz) (room : sz = t.dbufsz - p)
    (short : p + (input.takeWhile (· ≠ t.bval)).length ≤ limit t.dbufsz) :
    (vpipeRecord input t p sz).1.data (vpipeRecord input t p sz).2.1 =
      t.data p ++ input.takeWhile (· ≠ t.bval) ∧
      limit (vpipeRecord input t p sz).1.dbufsz = limit t.dbufsz := by
  induction input generalizing t p sz with
  | nil => exact ⟨(List.append_nil _).symm, rfl⟩
  | cons ch rest ih =>
    rw [vpipeRecord]
    by_cases delim : ch = t.bval
    · rw [if_pos delim, List.takeWhile_cons_of_neg (by simpa using delim), List.append_nil]
      exact ⟨rfl, rfl⟩
    · rw [List.takeWhile_cons_of_pos (by simpa using delim), List.length_cons] at short
      rw [if_neg delim, List.takeWhile_cons_of_pos (by simpa using delim)]
      split
      · rename_i full
        have below : t.dbufsz < 2 ^ 16 := by
          by_contra large
          rw [limit_large (by lia)] at short
          lia
        rw [Nat.mod_eq_of_lt (by lia)]
        obtain ⟨data, same⟩ := @ih ({ t with dbufsz := t.dbufsz + 256 }.store p ch) (p + 1) 255
          (by change p + 1 ≤ t.dbufsz + 256; lia) (by change 255 = t.dbufsz + 256 - (p + 1); lia)
            (by
            change p + 1 + _ ≤ limit (t.dbufsz + 256)
            rw [limit_grown below]
            change p + 1 + (rest.takeWhile (· ≠ t.bval)).length ≤ _
            lia)
        rw [data_store, List.append_assoc] at data
        exact ⟨data, same.trans (limit_grown below)⟩
      · obtain ⟨data, same⟩ := @ih (t.store p ch) (p + 1) (sz - 1)
          (by change p + 1 ≤ t.dbufsz; lia) (by change sz - 1 = t.dbufsz - (p + 1); lia) (by
            change p + 1 + (rest.takeWhile (· ≠ t.bval)).length ≤ limit t.dbufsz
            lia)
        rw [data_store, List.append_assoc] at data
        exact ⟨data, same⟩

/-- A longer one loses its beginning where `len` does not hold the offset. -/
theorem vpipeRecord_short (inside : p ≤ t.dbufsz) (room : sz = t.dbufsz - p)
    (long : limit t.dbufsz < p + (input.takeWhile (· ≠ t.bval)).length) :
    (vpipeRecord input t p sz).2.1 + 2 ^ 16 ≤ p + (input.takeWhile (· ≠ t.bval)).length := by
  induction input generalizing t p sz with
  | nil =>
    have size := le_limit t.dbufsz
    change limit t.dbufsz < p at long
    lia
  | cons ch rest ih =>
    have size := le_limit t.dbufsz
    by_cases delim : ch = t.bval
    · rw [List.takeWhile_cons_of_neg (by simpa using delim), List.length_nil] at long
      lia
    · rw [List.takeWhile_cons_of_pos (by simpa using delim), List.length_cons] at long ⊢
      rw [vpipeRecord, if_neg delim]
      split
      · rename_i full
        rcases Nat.lt_or_ge t.dbufsz (2 ^ 16) with below | large
        · rw [Nat.mod_eq_of_lt (by lia)]
          have later := @ih ({ t with dbufsz := t.dbufsz + 256 }.store p ch) (p + 1) 255
            (by change p + 1 ≤ t.dbufsz + 256; lia) (by change 255 = t.dbufsz + 256 - (p + 1); lia)
              (by
              change limit (t.dbufsz + 256) < p + 1 + (rest.takeWhile (· ≠ t.bval)).length
              rw [limit_grown below]
              lia)
          change _ + 2 ^ 16 ≤ p + 1 + (rest.takeWhile (· ≠ t.bval)).length at later
          lia
        · have least :=
            (vpipeRecord_frame rest ({ t with dbufsz := t.dbufsz + 256 }.store (p % 2 ^ 16) ch)
            (p % 2 ^ 16 + 1) 255).2.2.2.2.2
          change _ ≤ p % 2 ^ 16 + 1 + (rest.takeWhile (· ≠ t.bval)).length at least
          have back : p % 2 ^ 16 + 2 ^ 16 ≤ p := by lia
          lia
      · have later := @ih (t.store p ch) (p + 1) (sz - 1)
          (by change p + 1 ≤ t.dbufsz; lia) (by change sz - 1 = t.dbufsz - (p + 1); lia) (by
            change limit t.dbufsz < p + 1 + (rest.takeWhile (· ≠ t.bval)).length
            lia)
        change _ + 2 ^ 16 ≤ p + 1 + (rest.takeWhile (· ≠ t.bval)).length at later
        lia

/-- The next state of the loop of `__rec_vpipe` has one record more. -/
structure Btree.Next (t t' : Btree) (record : Bytes) : Prop where
  recs : t'.recs = t.recs ++ [record]
  eof : t'.eof = t.eof
  bval : t'.bval = t.bval
  input : t'.input = behind t.bval t.input

theorem vpipeLoop_next (member : t.bval ∈ t.input) (n : Nat) :
    ∃ t' record, vpipeLoop (n + 1) t = vpipeLoop n t' ∧ t.Next t' record ∧
      ((t.input.takeWhile (· ≠ t.bval)).length ≤ limit t.dbufsz →
        record = t.input.takeWhile (· ≠ t.bval) ∧ limit t'.dbufsz = limit t.dbufsz) ∧
      (limit t.dbufsz < (t.input.takeWhile (· ≠ t.bval)).length →
        record.length < (t.input.takeWhile (· ≠ t.bval)).length) := by
  have frame := vpipeRecord_frame t.input t 0 t.dbufsz
  have whole := @vpipeRecord_whole t t.input 0 _ (Nat.zero_le _) rfl
  have short := @vpipeRecord_short t t.input 0 _ (Nat.zero_le _) rfl
  rw [Nat.zero_add] at whole short
  rw [vpipeLoop]
  generalize vpipeRecord t.input t 0 t.dbufsz = r at frame whole short ⊢
  obtain ⟨t', size, flag⟩ := r
  obtain ⟨recs, eof, same, next, ends, -⟩ := frame
  obtain rfl : flag = false := ends.trans (decide_eq_false (not_not.mpr member))
  refine ⟨t'.iput (t'.data size), t'.data size, rfl, ⟨congrArg (· ++ [t'.data size]) recs, eof,
    same, next⟩, ?_, ?_⟩
  · intro fits
    exact whole fits
  · intro long
    rw [data_length]
    exact Nat.lt_of_lt_of_le (Nat.lt_add_of_pos_right (by decide)) (short long)

theorem vpipeLoop_last (none : t.bval ∉ t.input) (some : t.input ≠ []) (n : Nat) :
    ∃ (t' : Btree) (record : Bytes), vpipeLoop (n + 1) t =
      ({ t' with recs := t.recs ++ [record], eof := true }, .special) ∧
      (t.input.length ≤ limit t.dbufsz → record = t.input) ∧
      (limit t.dbufsz < t.input.length → record.length + 2 ^ 16 ≤ t.input.length) := by
  have frame := vpipeRecord_frame t.input t 0 t.dbufsz
  have whole := @vpipeRecord_whole t t.input 0 _ (Nat.zero_le _) rfl
  have short := @vpipeRecord_short t t.input 0 _ (Nat.zero_le _) rfl
  have positive := @vpipeRecord_pos t t.input 0 t.dbufsz
  rw [Nat.zero_add, takeWhile_of_not_mem none] at whole short positive
  have positive := positive (List.length_pos_iff.mpr some)
  rw [vpipeLoop]
  generalize vpipeRecord t.input t 0 t.dbufsz = r at frame whole short positive ⊢
  obtain ⟨t', size, flag⟩ := r
  obtain ⟨recs, eof, same, next, ends, -⟩ := frame
  obtain rfl : flag = true := ends.trans (decide_eq_true none)
  dsimp only at recs whole short positive ⊢
  rw [if_neg (by omega)]
  refine ⟨t', t'.data size, by rw [← recs]; rfl, ?_, ?_⟩
  · exact fun fits => (whole fits).1
  · intro long
    rw [data_length]
    exact short long

/-- The records that are still to come fit, but for the last bytes of a record. -/
def Fits (t : Btree) (records : List Bytes) :
    Prop := ∀ record ∈ records, record.length ≤ limit t.dbufsz

theorem vpipeLoop_spec (n : Nat) (t : Btree) (fits : Fits t ((pieces t.bval t.input).take n)) :
    (vpipeLoop n t).1.recs = t.recs ++ (pieces t.bval t.input).take n ∧
      (if n < (pieces t.bval t.input).length ∨ n = (pieces t.bval t.input).length ∧
          (undelimited t.bval t.input = false ∨ n = 0) then
        (vpipeLoop n t).2 = .success ∧ (vpipeLoop n t).1.eof = t.eof ∧
          (vpipeLoop n t).1.bval = t.bval ∧
          pieces t.bval (vpipeLoop n t).1.input = (pieces t.bval t.input).drop n ∧
          undelimited t.bval (vpipeLoop n t).1.input = undelimited t.bval t.input ∧
          limit (vpipeLoop n t).1.dbufsz = limit t.dbufsz
      else (vpipeLoop n t).2 = .special ∧ (vpipeLoop n t).1.eof = true) := by
  induction n generalizing t with
  | zero =>
    rw [if_pos (by omega), List.take_zero, List.append_nil]
    exact ⟨rfl, rfl, rfl, rfl, rfl, rfl, rfl⟩
  | succ n ih =>
    by_cases none : t.input = []
    · simp [vpipeLoop, vpipeRecord, none, pieces]
    · rw [pieces_cons none, List.take_succ_cons] at fits
      have first := fits _ List.mem_cons_self
      by_cases member : t.bval ∈ t.input
      · obtain ⟨t', record, same, next, whole, -⟩ := vpipeLoop_next member n
        obtain ⟨rfl, grown⟩ := whole first
        have later := ih t' fun record member => by
          rw [next.bval, next.input] at member
          rw [grown]
          exact fits record (List.mem_cons_of_mem _ member)
        rw [next.recs, next.bval, next.input, next.eof, undelimited_behind member, grown] at later
        rw [same, pieces_cons none]
        simp only [List.take_succ_cons, List.length_cons, List.drop_succ_cons,
          Nat.add_lt_add_iff_right, Nat.add_right_cancel_iff]
        have lone : (pieces t.bval (behind t.bval t.input)).length = 0 →
            undelimited t.bval t.input = false := by
          intro zero
          rw [← undelimited_behind member]
          by_contra open'
          refine pieces_ne_nil (fun none => open' ?_) (List.length_eq_zero_iff.mp zero)
          rw [none]
          rfl
        refine ⟨by rw [later.1, List.append_assoc]; rfl, ?_⟩
        have cases : (n < (pieces t.bval (behind t.bval t.input)).length ∨
              n = (pieces t.bval (behind t.bval t.input)).length ∧
                (undelimited t.bval t.input = false ∨ n + 1 = 0)) ↔
            (n < (pieces t.bval (behind t.bval t.input)).length ∨
              n = (pieces t.bval (behind t.bval t.input)).length ∧
                (undelimited t.bval t.input = false ∨ n = 0)) := by
          constructor
          · rintro (less | ⟨full, quiet | zero⟩)
            · exact .inl less
            · exact .inr ⟨full, .inl quiet⟩
            · exact absurd zero (Nat.succ_ne_zero n)
          · rintro (less | ⟨full, quiet | zero⟩)
            · exact .inl less
            · exact .inr ⟨full, .inl quiet⟩
            · exact .inr ⟨full, .inl (lone (full.symm.trans zero))⟩
        rw [if_congr cases rfl rfl]
        exact later.2
      · obtain ⟨t', record, same, whole, -⟩ := vpipeLoop_last member none n
        rw [takeWhile_of_not_mem member] at first
        rw [same, pieces_of_not_mem member none, undelimited_of_not_mem member none, whole first,
          if_neg (by simp)]
        exact ⟨by simp, rfl, rfl⟩

theorem Fits.mono {l m : List Bytes} (fits : Fits t m) (inside : l ⊆ m) : Fits t l :=
  fun record member => fits record (inside member)

/-- The state of `__rec_vpipe` with these records to come, those up to `bound` of which fit. -/
structure Piped (bval : UInt8) (ends : Bool) (bound : Nat) (t : Btree) (todo : List Bytes) :
    Prop where
  delim : t.bval = bval
  left : todo = pieces bval t.input
  tail : undelimited bval t.input = ends
  fits : Fits t (todo.take (bound - t.recs.length))

variable {ends : Bool} {bound top : Nat} {todo : List Bytes}

theorem Piped.some (piped : Piped bval ends bound t todo) (last : ends = true) : todo ≠ [] := by
  rw [piped.left]
  apply pieces_ne_nil
  intro none
  have quiet := piped.tail
  rw [none, last] at quiet
  cases quiet

theorem Piped.request (piped : Piped bval ends bound t todo) (inside : top ≤ bound) :
    (recVpipe t top).1.recs = t.recs ++ todo.take (top - t.recs.length) ∧
      (if answer ends (t.recs.length + todo.length) top = .success then
        (recVpipe t top).2 = .success ∧ (recVpipe t top).1.eof = t.eof ∧
          Piped bval ends bound (recVpipe t top).1 (todo.drop (top - t.recs.length))
      else (recVpipe t top).2 = .special ∧ (recVpipe t top).1.eof = true) := by
  obtain ⟨rfl, rfl, rfl, fits⟩ := piped
  have some := Piped.some (⟨rfl, rfl, rfl, fits⟩ : Piped t.bval _ bound t _)
  have spec :=
    vpipeLoop_spec (top - t.recs.length) t (fits.mono (List.take_subset_take_left _ (by lia)))
  have lone : (pieces t.bval t.input).length = 0 → undelimited t.bval t.input = false := by
    intro zero
    by_contra open'
    exact some (Bool.eq_true_of_not_eq_false open') (List.length_eq_zero_iff.mp zero)
  have cases : (top - t.recs.length < (pieces t.bval t.input).length ∨
        top - t.recs.length = (pieces t.bval t.input).length ∧
          (undelimited t.bval t.input = false ∨ top - t.recs.length = 0)) ↔
      answer (undelimited t.bval t.input) (t.recs.length + (pieces t.bval t.input).length) top =
        .success := by
    unfold answer
    constructor
    · intro here
      rw [if_pos]
      rcases here with less | ⟨full, quiet | zero⟩
      · lia
      · rcases Nat.lt_or_ge top t.recs.length with below | above
        · lia
        · exact .inr ⟨by lia, quiet⟩
      · rcases Nat.lt_or_ge top t.recs.length with below | above
        · lia
        · exact .inr ⟨by lia, lone (full.symm.trans zero)⟩
    · intro here
      split at here
      · rename_i success
        rcases success with less | ⟨full, quiet⟩
        · rcases Nat.lt_or_ge (top - t.recs.length) (pieces t.bval t.input).length with inside |
            beyond
          · exact .inl inside
          · exact .inr ⟨by lia, .inr (by lia)⟩
        · exact .inr ⟨by lia, .inl quiet⟩
      · cases here
  refine ⟨spec.1, ?_⟩
  rw [← if_congr cases rfl rfl]
  have told := spec.2
  split at told
  · rename_i success
    obtain ⟨status, eof, delim, left, tail, grown⟩ := told
    rw [if_pos success]
    refine ⟨status, eof, ⟨delim, left.symm, tail, ?_⟩⟩
    have keeps :
      Fits (recVpipe t top).1 ((pieces t.bval t.input).take (bound - t.recs.length)) := by
      change ∀ record ∈ (pieces t.bval t.input).take (bound - t.recs.length), record.length ≤
        limit _
      rw [recVpipe, grown]
      exact fits
    refine keeps.mono ?_
    change List.take (bound - (vpipeLoop (top - t.recs.length) t).1.recs.length) _ ⊆ _
    rw [spec.1, List.length_append, List.length_take, Nat.min_eq_left (by lia), List.take_drop]
    exact List.Subset.trans (List.drop_subset _ _) (List.take_subset_take_left _ (by lia))
  · rename_i refused
    rw [if_neg refused]
    exact told

/-- A record behind the first ones is shorter than the one it was read from. -/
def Cut (before : Nat) (todo recs : List Bytes) : Prop :=
  ∃ (i : Nat) (piece record : Bytes), todo[i]? = some piece ∧ recs[before + i]? = some record ∧
    record.length < piece.length

theorem Cut.mono {before : Nat} {recs recs' : List Bytes} (cut : Cut before todo recs)
    (more : recs <+: recs') :
    Cut before todo recs' := by
  obtain ⟨i, piece, record, from', there, short⟩ := cut
  obtain ⟨rest, rfl⟩ := more
  have inside := (List.getElem?_eq_some_iff.mp there).1
  exact ⟨i, piece, record, from', by rw [List.getElem?_append_left inside]; exact there, short⟩

theorem Cut.ne {before recs : List Bytes} (cut : Cut before.length todo recs) (m : Nat) :
    recs ≠ before ++ todo.take m := by
  obtain ⟨i, piece, record, from', there, short⟩ := cut
  rintro rfl
  rw [List.getElem?_append_right (by omega), Nat.add_sub_cancel_left, List.getElem?_take] at there
  split at there
  · rw [from'] at there
    cases there
    omega
  · cases there

end Vpipe

section Variable

/-- A recno tree that has just been opened on a file, with whatever is in the buffer. -/
def opened (contents : Bytes) (bval : UInt8) (reclen : Nat) (dbuf : Nat → UInt8) (dbufsz : Nat) :
    Btree where
  recs := []
  input := contents
  dbuf := dbuf
  dbufsz := dbufsz
  reclen := reclen
  bval := bval
  eof := false

theorem le_most {tops : List Nat} {top : Nat} (member : top ∈ tops) : top ≤ most tops := by
  induction tops with
  | nil => cases member
  | cons first tops ih =>
    rw [most_cons]
    rcases List.mem_cons.mp member with rfl | later
    · exact Nat.le_max_left ..
    · exact (ih later).trans (Nat.le_max_right ..)

theorem most_eq_zero (tops : List Nat) : most tops = 0 ↔ ∀ top ∈ tops, top = 0 := by
  constructor
  · intro none top member
    have below := le_most member
    omega
  · intro zero
    induction tops with
    | nil => rfl
    | cons top tops ih =>
      rw [most_cons, ih fun later member => zero later (List.mem_cons_of_mem _ member),
        zero top List.mem_cons_self]
      rfl

end Variable

end FreeBsd.Db.Rec
