import FreeBsd.Rpc.XdrRecRound

/-! A reader that gets a list of records: what each of its operations may answer, whatever the
buffers and the fragments and the pieces of the transport are. -/
namespace FreeBsd.Rpc

open FreeBsd.Lib

section Reader

/-- The bytes left of the record that is read, the records that follow, and whether one more than
there are has been asked for. -/
structure Reader where
  cur : List Byte
  rest : List (List Byte)
  past : Bool

inductive Gets : Reader → ReadOp × Answer → Reader → Prop where
  | getlong {word left : List Byte} {rest : List (List Byte)} {past : Bool} : word.length = 4 →
      Gets ⟨word ++ left, rest, past⟩ (.getlong, .long (some (BitVec.ofNat 32 (ntohl word)))) ⟨left,
        rest, past⟩
  | noLong {cur : List Byte} {rest : List (List Byte)} {past : Bool} : cur.length < 4 →
      Gets ⟨cur, rest, past⟩ (.getlong, .long none) ⟨[], rest, past⟩
  | getbytes {addr left : List Byte} {rest : List (List Byte)} {past : Bool} :
      Gets ⟨addr ++ left, rest, past⟩ (.getbytes addr.length, .bytes (some addr)) ⟨left, rest, past⟩
  | noBytes {cur : List Byte} {rest : List (List Byte)} {past : Bool} {len : Nat} :
    cur.length < len →
      Gets ⟨cur, rest, past⟩ (.getbytes len, .bytes none) ⟨[], rest, past⟩
  | inline {addr left : List Byte} {rest : List (List Byte)} {past : Bool} :
      Gets ⟨addr ++ left, rest, past⟩ (.inline addr.length, .bytes (some addr)) ⟨left, rest, past⟩
  -- a caller of `xdrrec_inline` has to do without
  | noPlace {r : Reader} {len : Nat} : Gets r (.inline len, .bytes none) r
  | skip {cur record : List Byte} {rest : List (List Byte)} {past : Bool} :
      Gets ⟨cur, record :: rest, past⟩ (.skiprecord, .flag true) ⟨record, rest, past⟩
  -- that no record follows is found when one is asked for
  | skipLast {cur : List Byte} : Gets ⟨cur, [], false⟩ (.skiprecord, .flag true) ⟨[], [], true⟩
  | skipPast {cur : List Byte} : Gets ⟨cur, [], true⟩ (.skiprecord, .flag false) ⟨[], [], true⟩
  | eof {cur : List Byte} {rest : List (List Byte)} {past : Bool} :
    Gets ⟨cur, rest, past⟩ (.eof, .flag true) ⟨[], rest, past⟩
  | noEof {cur record : List Byte} {rest : List (List Byte)} {past : Bool} :
      Gets ⟨cur, record :: rest, past⟩ (.eof, .flag false) ⟨[], record :: rest, past⟩

end Reader

section Steps

variable {s s' : Incoming} {r : Reader} {cur tail : List Byte} {rest : List (List Byte)}

inductive At (s : Incoming) : Reader → Prop where
  | within {cur tail : List Byte} {rest : List (List Byte)} : 100 ≤ s.in_size →
      Current header LAST_FRAG s.fbtbc s.last_frag s.stream cur tail →
        Records header LAST_FRAG tail rest [] → At s ⟨cur, rest, false⟩
  | past : 100 ≤ s.in_size → s.fbtbc = 0 → s.last_frag = false → s.stream = [] → At s ⟨[], [], true⟩

theorem At.getbytes (place : At s r) (len : Nat) :
    At (s.xdrrec_getbytes len).1 ⟨r.cur.drop len, r.rest, r.past⟩ ∧
    (s.xdrrec_getbytes len).2 = if len ≤ r.cur.length then some (r.cur.take len) else none := by
  cases place with
  | within size current records =>
    obtain ⟨s', result, size', after⟩ :=
      getbytesLoop_spec current s rfl rfl rfl size len _ (Nat.le_refl _)
    rw [Incoming.xdrrec_getbytes, result]
    exact ⟨.within (by rw [size']; exact size) after records, rfl⟩
  | past size count flag stream =>
    rw [List.drop_nil, Incoming.xdrrec_getbytes, Incoming.getbytesLoop]
    by_cases nothing : len = 0
    · subst nothing
      exact ⟨.past size count flag stream, rfl⟩
    · obtain ⟨s', failed, took⟩ := set_input_fragment_none size stream
      rw [if_neg nothing, if_pos count, if_neg (by simp [flag]), failed]
      refine ⟨.past (by rw [took.size]; exact size) (took.fbtbc.trans count)
        (took.last_frag.trans flag) ?_, ?_⟩
      · rw [took.stream, stream, List.drop_nil]
      · exact (if_neg (by simpa using nothing)).symm

theorem At.advance (place : At s r) {len : Nat} (count : len ≤ s.fbtbc)
    (there : len ≤ s.ahead.length) :
    At { s with fbtbc := s.fbtbc - len, ahead := s.ahead.drop len } ⟨r.cur.drop len, r.rest,
      r.past⟩ ∧
    len ≤ r.cur.length ∧ r.cur.take len = s.ahead.take len := by
  cases place with
  | within size current records =>
    obtain ⟨after, inside, same⟩ := current.advance count
    have left : s.stream.drop len = s.ahead.drop len ++ s.coming :=
      List.drop_append_of_le_length there
    have taken : s.stream.take len = s.ahead.take len := List.take_append_of_le_length there
    rw [left] at after
    exact ⟨.within size after records, inside, same.trans taken⟩
  | past size zero flag stream =>
    obtain rfl : len = 0 := by omega
    exact ⟨.past size (Nat.sub_eq_zero_of_le (Nat.le_of_eq zero)) flag stream, Nat.le_refl 0, rfl⟩

theorem At.getlong (place : At s r) : At s.xdrrec_getlong.1 ⟨r.cur.drop 4, r.rest, r.past⟩ ∧
    s.xdrrec_getlong.2 =
      if 4 ≤ r.cur.length then some (BitVec.ofNat 32 (ntohl (r.cur.take 4))) else none := by
  rw [Incoming.xdrrec_getlong]
  split
  · rename_i fast
    obtain ⟨after, inside, same⟩ := place.advance fast.1 fast.2
    rw [if_pos inside, same]
    exact ⟨after, rfl⟩
  · obtain ⟨after, result⟩ := place.getbytes 4
    refine ⟨after, ?_⟩
    dsimp only
    rw [result]
    split <;> rfl

theorem At.ended (place : At s r) :
    ∃ s', Incoming.skipLoop (s.stream.length + 2) s = (s', !r.past) ∧ At s' ⟨[], r.rest, r.past⟩ ∧
    (r.past = false → s'.fbtbc = 0 ∧ Records header LAST_FRAG s'.stream r.rest []) := by
  cases place with
  | within size current records =>
    obtain ⟨s', result, size', zero, flag, stream⟩ :=
      skipLoop_spec current s rfl rfl rfl size _ (Nat.le_refl _)
    rw [← stream] at records
    have none : Current header LAST_FRAG s'.fbtbc s'.last_frag s'.stream [] s'.stream := by
      rw [zero, flag]
      exact @Current.last _ _ _ [] _
    exact ⟨s', result, .within (by rw [size']; exact size) none records, fun _ => ⟨zero, records⟩⟩
  | past size zero flag stream =>
    obtain ⟨s₁, skipped, first⟩ :=
      @skip_input_bytes_spec s s.fbtbc size (by rw [zero]; exact Nat.zero_le _)
    have empty : Incoming.stream { s₁ with fbtbc := 0 } = [] := by
      refine first.stream.trans ?_
      rw [stream, List.drop_nil]
    obtain ⟨s₂, failed, second⟩ := @set_input_fragment_none { s₁ with fbtbc := 0 }
      (by rw [first.size]; exact size) empty
    have open' : s₁.last_frag = false := first.last_frag.trans flag
    refine ⟨s₂, ?_, .past (by rw [second.size, first.size]; exact size) second.fbtbc
      (second.last_frag.trans open') ?_, (by rintro ⟨⟩)⟩
    · rw [Incoming.skipLoop, if_pos (.inr flag), skipped]
      dsimp only
      rw [if_neg (by simp [open']), failed]
      rfl
    · rw [second.stream, empty, List.drop_nil]

theorem At.skiprecord (place : At s r) :
    ∃ r', Gets r (.skiprecord, .flag s.xdrrec_skiprecord.2) r' ∧ At s.xdrrec_skiprecord.1 r' := by
  obtain ⟨s', result, after, found⟩ := place.ended
  obtain ⟨cur, rest, past⟩ := r
  rw [Incoming.xdrrec_skiprecord, result]
  cases past with
  | false =>
    obtain ⟨zero, records⟩ := found rfl
    have size : 100 ≤ s'.in_size := by
      cases after
      assumption
    cases rest with
    | nil =>
      exact ⟨_, .skipLast, .past size zero rfl records.none⟩
    | cons record rest =>
      cases records with
      | cons current records =>
        have started : Current header LAST_FRAG s'.fbtbc false s'.stream record _ := zero ▸ current
        exact ⟨_, .skip, .within size started records⟩
  | true =>
    cases place
    exact ⟨_, .skipPast, after⟩

theorem At.eof (place : At s r) : ∃ r', Gets r (.eof, .flag s.xdrrec_eof.2) r' ∧
    At s.xdrrec_eof.1 r' := by
  obtain ⟨s', result, after, found⟩ := place.ended
  obtain ⟨cur, rest, past⟩ := r
  rw [Incoming.xdrrec_eof, result]
  cases past with
  | false =>
    by_cases none : s'.ahead = []
    · simp only [Bool.not_false, none, decide_true]
      exact ⟨_, .eof, after⟩
    · obtain ⟨-, records⟩ := found rfl
      simp only [Bool.not_false, none, decide_false]
      cases rest with
      | nil => exact absurd (List.append_eq_nil_iff.mp records.none).1 none
      | cons record rest => exact ⟨_, .noEof, after⟩
  | true => exact ⟨_, .eof, after⟩

/-- Each operation answers from the record that is read, and leaves the next ones there. -/
theorem At.read (place : At s r) (op : ReadOp) : ∃ r', Gets r (op, (s.read op).2) r' ∧
    At (s.read op).1 r' := by
  obtain ⟨cur, rest, past⟩ := r
  cases op with
  | getlong =>
    obtain ⟨after, result⟩ := place.getlong
    simp only [Incoming.read, result]
    by_cases inside : 4 ≤ cur.length
    · have word := @Gets.getlong (cur.take 4) (cur.drop 4) rest past (List.length_take_of_le inside)
      rw [List.take_append_drop] at word
      rw [if_pos inside]
      exact ⟨_, word, after⟩
    · rw [List.drop_of_length_le (Nat.le_of_not_le inside)] at after
      rw [if_neg inside]
      exact ⟨_, .noLong (Nat.lt_of_not_le inside), after⟩
  | getbytes len =>
    obtain ⟨after, result⟩ := place.getbytes len
    simp only [Incoming.read, result]
    by_cases inside : len ≤ cur.length
    · have addr := @Gets.getbytes (cur.take len) (cur.drop len) rest past
      rw [List.take_append_drop, List.length_take_of_le inside] at addr
      rw [if_pos inside]
      exact ⟨_, addr, after⟩
    · rw [List.drop_of_length_le (Nat.le_of_not_le inside)] at after
      rw [if_neg inside]
      exact ⟨_, .noBytes (Nat.lt_of_not_le inside), after⟩
  | inline len =>
    simp only [Incoming.read, Incoming.xdrrec_inline]
    split
    · rename_i fast
      obtain ⟨after, inside, same⟩ := place.advance fast.1 fast.2
      have addr := @Gets.inline (cur.take len) (cur.drop len) rest past
      rw [List.take_append_drop, List.length_take_of_le inside] at addr
      rw [← same]
      exact ⟨_, addr, after⟩
    · exact ⟨_, .noPlace, place⟩
  | skiprecord => exact place.skiprecord
  | eof => exact place.eof

theorem At.answers (place : At s r) (ops : List ReadOp) : ∃ r', Run Gets r (s.answers ops) r' := by
  induction ops generalizing s r with
  | nil => exact ⟨r, .nil r⟩
  | cons op ops ih =>
    obtain ⟨next, gets, after⟩ := place.read op
    obtain ⟨r', run⟩ := ih after
    exact ⟨r', .cons gets run⟩

end Steps

section Faithful

/-- Whatever the sizes of the buffers and the pieces of the transport are, a reader gets the records
that have been sent, byte for byte; and a record that is to be sent at its end has been sent, with
all before it. -/
theorem xdrrec_faithful (sendsize recvsize : Nat)
    (admits : fix_buf_size sendsize + fix_buf_size recvsize + BYTES_PER_XDR_UNIT < 2 ^ 31)
    (records : List (List WriteOp × Bool)) (pieces : Nat → Nat) :
    ∃ k ≤ records.length, (∀ before ops after, records = before ++ (ops, true) :: after →
      before.length < k) ∧
    ∀ ops, ∃ r, Run Gets ⟨[], ((xdrrec_create_out sendsize).records records).2.take k, false⟩
      ((xdrrec_create_in recvsize ((xdrrec_create_out sendsize).records records).1.written
        pieces).answers ops) r := by
  have limit : fix_buf_size sendsize < LAST_FRAG := by
    unfold LAST_FRAG
    omega
  have writing : Writing (xdrrec_create_out sendsize) 0 [] [] := create_out_writing limit
  obtain ⟨k, -, inside, sent, each⟩ := writing.records rfl records
  rw [List.nil_append] at sent
  simp only [List.length_nil, Nat.zero_add] at inside each
  refine ⟨k, inside, each, fun ops => ?_⟩
  have start :
      At (xdrrec_create_in recvsize ((xdrrec_create_out sendsize).records records).1.written pieces)
        ⟨[], ((xdrrec_create_out sendsize).records records).2.take k, false⟩ :=
    .within (fix_buf_size_ge recvsize) (@Current.last _ _ _ [] _) sent
  exact start.answers ops

theorem xdrrec_faithful_two : fix_buf_size 100 + fix_buf_size 0 + BYTES_PER_XDR_UNIT < 2 ^ 31 ∧
    ∃ k ≤ 2, (∀ before ops after, [([WriteOp.putlong 7], true), ([.putbytes [1, 2, 3]], false)] =
      before ++ (ops, true) :: after →
      before.length < k) ∧
    ∀ ops, ∃ r, Run Gets ⟨[], [[0, 0, 0, 7], [1, 2, 3]].take k, false⟩
      ((xdrrec_create_in 0 [128, 0, 0, 4, 0, 0, 0, 7] fun _ => 3).answers ops) r :=
  ⟨by decide, xdrrec_faithful 100 0 (by decide) [([.putlong 7], true), ([.putbytes [1, 2, 3]],
    false)] fun _ => 3⟩

/-- A record that may wait for the next one is not read before. -/
theorem xdrrec_unsent :
    ¬ ∃ r, Run Gets ⟨[], ((xdrrec_create_out 0).records [([.putlong 7], false)]).2, false⟩
    ((xdrrec_create_in 0 ((xdrrec_create_out 0).records [([.putlong 7], false)]).1.written fun _ =>
      1).answers
        [.skiprecord, .getlong]) r := by
  have told : ((xdrrec_create_out 0).records [([.putlong 7], false)]).2 =
    [[0, 0, 0, 7]] := by decide
  have read :
      (xdrrec_create_in 0 ((xdrrec_create_out 0).records [([.putlong 7], false)]).1.written fun _ =>
      1).answers
        [.skiprecord, .getlong] = [(.skiprecord, .flag true), (.getlong, .long none)] := by decide
  rw [told, read]
  rintro ⟨r, run⟩
  cases run with
  | @cons _ t _ _ _ first run =>
    generalize record : Reader.mk [] [[0, 0, 0, 7]] false = start at first
    have here : t.cur = [0, 0, 0, 7] := by
      cases first
      all_goals cases record
      rfl
    cases run with
    | cons second run =>
      generalize answer : (ReadOp.getlong, Answer.long none) = asked at second
      cases second with
      | @noLong cur _ _ short =>
        obtain rfl : cur = [0, 0, 0, 7] := here
        exact absurd short (by decide)
      | _ => cases answer

end Faithful

end FreeBsd.Rpc
