import FreeBsd.Lib.Trace
import FreeBsd.Rpc.XdrRec

/-! What is written into a record stream is what is read from it, record by record. -/
namespace FreeBsd.Rpc

open FreeBsd.Lib

section Headers

theorem ntohl_htonl {x : Nat} (fits : x < 2 ^ 32) : ntohl (htonl x) = x := by
  simp only [ntohl, htonl, List.foldl_cons, List.foldl_nil, BitVec.toNat_ofNat]
  omega

theorem length_header (n : Nat) (last : Bool) : (header n last).length = 4 := rfl

theorem ntohl_header {n : Nat} (fits : n < LAST_FRAG) (last : Bool) :
    decide (ntohl (header n last) ≥ LAST_FRAG) = last ∧ ntohl (header n last) % LAST_FRAG = n := by
  have value : ntohl (header n last) = n + if last then LAST_FRAG else 0 := by
    refine ntohl_htonl ?_
    unfold LAST_FRAG at *
    split <;> omega
  rw [value]
  unfold LAST_FRAG at *
  cases last with
  | true => simp; omega
  | false => simp; omega

theorem fix_buf_size_ge (s : Nat) : 100 ≤ fix_buf_size s := by
  unfold fix_buf_size RNDUP BYTES_PER_XDR_UNIT
  split
  · decide
  · lia

end Headers

section Writing

variable {s : Outgoing} {flushed : Nat} {told : List (List Byte)} {cur bytes : List Byte}

/-- Records have been written, so many of them also sent, and bytes of one that has not ended. -/
structure Writing (s : Outgoing) (flushed : Nat) (told : List (List Byte)) (cur : List Byte) :
    Prop where
  size : 100 ≤ s.sendsize ∧ s.sendsize < LAST_FRAG
  room : s.frag_header + 4 ≤ s.buffer.length ∧ s.buffer.length ≤ s.sendsize
  frame : ∃ begun, Framed header LAST_FRAG (s.written ++ s.buffer.take s.frag_header) told begun ∧
    cur = begun ++ s.buffer.drop (s.frag_header + 4)
  whole : s.frag_sent = false → ∃ k, flushed ≤ k ∧ k ≤ told.length ∧
    Records header LAST_FRAG s.written (told.take k) []
  before : flushed ≤ told.length

theorem Writing.patched (writing : Writing s flushed told cur) (eor : Bool) :
    s.written ++ s.patch (header s.fragLen eor) = (s.written ++ s.buffer.take s.frag_header) ++
      (header (s.buffer.drop (s.frag_header + 4)).length eor ++ s.buffer.drop (s.frag_header + 4)) ∧
    (s.patch (header s.fragLen eor)).length = s.buffer.length := by
  have room := writing.room.1
  have len : s.fragLen = (s.buffer.drop (s.frag_header + 4)).length := by
    rw [List.length_drop]
    exact Nat.sub_sub _ _ _
  constructor
  · rw [Outgoing.patch, len]
    simp only [List.append_assoc]
  · simp only [Outgoing.patch, List.length_append, List.length_take, List.length_drop,
      length_header]
    lia

theorem Writing.short (writing : Writing s flushed told cur) :
    (s.buffer.drop (s.frag_header + 4)).length < LAST_FRAG := by
  have size := writing.size.2
  have room := writing.room.2
  rw [List.length_drop]
  omega

theorem Writing.put (writing : Writing s flushed told cur)
    (room : s.buffer.length + bytes.length ≤ s.sendsize) :
    Writing (s.put bytes) flushed told (cur ++ bytes) := by
  obtain ⟨size, ⟨low, -⟩, ⟨begun, framed, rfl⟩, whole, before⟩ := writing
  refine ⟨size, ?_, ⟨begun, ?_, ?_⟩, whole, before⟩
  · simp only [Outgoing.put, List.length_append]
    lia
  · have same : (s.buffer ++ bytes).take s.frag_header = s.buffer.take s.frag_header :=
      List.take_append_of_le_length (by lia)
    change Framed header LAST_FRAG (s.written ++ (s.buffer ++ bytes).take s.frag_header) told begun
    rw [same]
    exact framed
  · change _ = begun ++ (s.buffer ++ bytes).drop (s.frag_header + 4)
    rw [List.drop_append_of_le_length low, List.append_assoc]

theorem Writing.cut (writing : Writing s flushed told cur) :
    Writing ({ s with frag_sent := true }.flush_out false) flushed told cur ∧
    ({ s with frag_sent := true }.flush_out false).buffer.length = 4 := by
  obtain ⟨sent, length⟩ := writing.patched false
  have short := writing.short
  obtain ⟨size, ⟨low, high⟩, ⟨begun, framed, rfl⟩, -, before⟩ := writing
  have four : (({ s with frag_sent := true }.flush_out false).buffer).length = 4 := by
    change ((s.patch (header s.fragLen false)).take 4).length = 4
    rw [List.length_take, length]
    lia
  refine ⟨⟨size, ⟨Nat.le_of_eq four.symm, ?_⟩, ⟨begun ++ s.buffer.drop (s.frag_header + 4), ?_, ?_⟩,
    (by rintro ⟨⟩), before⟩, four⟩
  · rw [four]
    exact Nat.le_trans (by decide) size.1
  · change Framed header LAST_FRAG ((s.written ++ s.patch (header s.fragLen false)) ++ []) told _
    rw [List.append_nil, sent]
    exact .cut short framed
  · have none : ({ s with frag_sent := true }.flush_out false).buffer.drop (0 + 4) = [] :=
      List.drop_of_length_le (Nat.le_of_eq four)
    change _ = _ ++ ({ s with frag_sent := true }.flush_out false).buffer.drop (0 + 4)
    rw [none, List.append_nil]

theorem Writing.putlong (writing : Writing s flushed told cur) (x : BitVec 32) :
    Writing (s.xdrrec_putlong x) flushed told (cur ++ htonl x.toNat) := by
  unfold Outgoing.xdrrec_putlong
  split
  · obtain ⟨after, four⟩ := writing.cut
    refine after.put ?_
    have size := after.size.1
    rw [four]
    change 4 + 4 ≤ _
    omega
  · rename_i room
    exact writing.put (Nat.le_of_not_lt room)

theorem Writing.putbytesLoop {fuel : Nat} {addr : List Byte} (writing : Writing s flushed told cur)
    (enough : addr.length < fuel ∨ (addr.length ≤ fuel ∧ s.buffer.length < s.sendsize)) :
    Writing (Outgoing.putbytesLoop fuel s addr) flushed told (cur ++ addr) := by
  induction fuel generalizing s cur addr with
  | zero =>
    have nil : addr = [] := List.length_eq_zero_iff.mp (by lia)
    rw [nil, List.append_nil]
    exact writing
  | succ fuel ih =>
    unfold Outgoing.putbytesLoop
    split
    · rename_i nil
      rw [nil, List.append_nil]
      exact writing
    · have room := writing.room.2
      have piece : (addr.take (min addr.length (s.sendsize - s.buffer.length))).length =
          min addr.length (s.sendsize - s.buffer.length) := by
        rw [List.length_take]
        lia
      have filled :
          Writing (s.put (addr.take (min addr.length (s.sendsize - s.buffer.length)))) flushed told
            (cur ++ addr.take (min addr.length (s.sendsize - s.buffer.length))) :=
            writing.put (by lia)
      have left : (addr.drop (min addr.length (s.sendsize - s.buffer.length))).length ≤ fuel := by
        rw [List.length_drop]
        lia
      have all :
          cur ++ addr = (cur ++ addr.take (min addr.length (s.sendsize - s.buffer.length))) ++
          addr.drop (min addr.length (s.sendsize - s.buffer.length)) := by
        rw [List.append_assoc, List.take_append_drop]
      rw [all]
      dsimp only
      split
      · obtain ⟨after, four⟩ := filled.cut
        refine ih after (.inr ⟨left, ?_⟩)
        rw [four]
        exact Nat.lt_of_lt_of_le (by decide) after.size.1
      · rename_i unfull
        refine ih filled (.inr ⟨left, ?_⟩)
        exact Nat.lt_of_le_of_ne filled.room.2 unfull

theorem Writing.write (writing : Writing s flushed told cur) (op : WriteOp) :
    Writing (s.write op).1 flushed told (cur ++ (s.write op).2) := by
  cases op with
  | putlong x => exact writing.putlong x
  | putbytes addr => exact writing.putbytesLoop (.inl (Nat.lt_succ_self _))
  | inline bytes =>
    simp only [Outgoing.write, Outgoing.xdrrec_inline]
    split
    · rename_i room
      exact writing.put room
    · simp only [Bool.false_eq_true, if_false, List.append_nil]
      exact writing

theorem Writing.writes (writing : Writing s flushed told cur) (ops : List WriteOp) :
    Writing (s.writes ops).1 flushed told (cur ++ (s.writes ops).2) := by
  induction ops generalizing s cur with
  | nil =>
    rw [Outgoing.writes, List.append_nil]
    exact writing
  | cons op ops ih =>
    rw [Outgoing.writes, ← List.append_assoc]
    exact ih (writing.write op)

theorem Writing.endofrecord (writing : Writing s flushed told cur) (sendnow : Bool) :
    Writing (s.xdrrec_endofrecord sendnow) (if sendnow then told.length + 1 else flushed)
      (told ++ [cur]) [] ∧
    (s.xdrrec_endofrecord sendnow).frag_sent = false := by
  obtain ⟨sent, length⟩ := writing.patched true
  have short := writing.short
  obtain ⟨size, ⟨low, high⟩, ⟨begun, framed, rfl⟩, whole, before⟩ := writing
  unfold Outgoing.xdrrec_endofrecord
  split
  · have four : (({ s with frag_sent := false }.flush_out true).buffer).length = 4 := by
      change ((s.patch (header s.fragLen true)).take 4).length = 4
      rw [List.length_take, length]
      lia
    have ended : Records header LAST_FRAG (s.written ++ s.patch (header s.fragLen true))
        (told ++ [begun ++ s.buffer.drop (s.frag_header + 4)]) [] := by
      rw [sent]
      exact framed.closed short
    have more : (if sendnow then told.length + 1 else flushed) ≤
        (told ++ [begun ++ s.buffer.drop (s.frag_header + 4)]).length := by
      rw [List.length_append, List.length_singleton]
      split <;> lia
    refine ⟨⟨size, ⟨Nat.le_of_eq four.symm, ?_⟩, ⟨[], ?_, ?_⟩, fun _ => ⟨_, more, Nat.le_refl _,
      ?_⟩, more⟩, rfl⟩
    · rw [four]
      exact Nat.le_trans (by decide) size.1
    · change Framed header LAST_FRAG ((s.written ++ s.patch (header s.fragLen true)) ++ []) _ []
      rw [List.append_nil, sent]
      exact .close short framed
    · exact (List.drop_of_length_le (Nat.le_of_eq four)).symm
    · rw [List.take_length]
      exact ended
  · rename_i stays
    simp only [not_or] at stays
    rw [if_neg stays.1]
    refine ⟨⟨size, ?_, ⟨[], ?_, ?_⟩, fun _ => ?_, ?_⟩, Bool.eq_false_iff.mpr stays.2.1⟩
    · simp only [List.length_append, length, List.length_cons, List.length_nil]
      lia
    · dsimp only
      rw [List.take_left, sent]
      exact .close short framed
    · dsimp only
      rw [List.drop_of_length_le (by simp)]
      rfl
    · obtain ⟨k, least, inside, records⟩ := whole (Bool.eq_false_iff.mpr stays.2.1)
      refine ⟨k, least, by rw [List.length_append]; lia, ?_⟩
      rw [List.take_append_of_le_length inside]
      exact records
    · rw [List.length_append]
      lia

/-- Records are sent whole, one after the other, and those that are to be sent at their end are. -/
theorem Writing.records (writing : Writing s flushed told []) (between : s.frag_sent = false)
    (more : List (List WriteOp × Bool)) :
    ∃ k, flushed ≤ k ∧ k ≤ told.length + more.length ∧
      Records header LAST_FRAG (s.records more).1.written ((told ++ (s.records more).2).take k) [] ∧
      ∀ before ops after, more = before ++ (ops, true) :: after →
        told.length + before.length < k := by
  induction more generalizing s told flushed with
  | nil =>
    obtain ⟨k, least, inside, records⟩ := writing.whole between
    rw [Outgoing.records, List.append_nil]
    refine ⟨k, least, inside, records, fun before ops after wrong => ?_⟩
    exact absurd wrong (by simp)
  | cons record more ih =>
    obtain ⟨ops, sendnow⟩ := record
    obtain ⟨after, none⟩ := (writing.writes ops).endofrecord sendnow
    rw [List.nil_append] at after
    obtain ⟨k, least, inside, records, each⟩ := ih after none
    rw [List.length_append, List.length_singleton] at inside each
    have all : told ++ (s.records ((ops, sendnow) :: more)).2 =
        (told ++ [(s.writes ops).2]) ++
          (((s.writes ops).1.xdrrec_endofrecord sendnow).records more).2 := by
      rw [List.append_assoc]
      rfl
    rw [all]
    refine ⟨k, ?_, by rw [List.length_cons]; lia, records, fun before ops' after' split => ?_⟩
    · have before := writing.before
      split at least <;> lia
    · cases before with
      | nil =>
        obtain ⟨rfl, rfl⟩ : sendnow = true ∧ more = after' := by simp_all
        rw [if_pos rfl] at least
        exact least
      | cons record before =>
        rw [List.cons_append, List.cons.injEq] at split
        have later := each before ops' after' split.2
        rw [List.length_cons]
        lia

theorem create_out_writing {sendsize : Nat} (admits : fix_buf_size sendsize < LAST_FRAG) :
    Writing (xdrrec_create_out sendsize) 0 [] [] := by
  have size := fix_buf_size_ge sendsize
  exact ⟨⟨size, admits⟩, ⟨Nat.le_refl 4, Nat.le_trans (show 4 ≤ 100 by decide) size⟩,
    ⟨[], .nil, rfl⟩, fun _ => ⟨0, Nat.le_refl 0, Nat.le_refl 0, .nil⟩, Nat.le_refl 0⟩

end Writing

section Reading

variable {s : Incoming} {stream cur tail data rest : List Byte} {len n fuel : Nat} {last : Bool}

structure Took (s s' : Incoming) (len : Nat) : Prop where
  stream : s'.stream = s.stream.drop len
  size : s'.in_size = s.in_size
  fbtbc : s'.fbtbc = s.fbtbc
  last_frag : s'.last_frag = s.last_frag

theorem fill_spec (empty : s.ahead = []) (some : s.coming ≠ []) :
    ∃ s', s.fill_input_buf = Option.some s' ∧ Took s s' 0 ∧ s'.ahead ≠ [] := by
  obtain ⟨piece, positive, filled⟩ : ∃ piece, 0 < piece ∧ s.fill_input_buf = Option.some { s with
      ahead := s.coming.take piece, in_boundry :=
        s.in_boundry % BYTES_PER_XDR_UNIT + (s.coming.take piece).length,
      coming := s.coming.drop piece, reads := s.reads + 1 } := by
    refine ⟨max 1 (min (s.pieces s.reads)
      (s.in_size - s.in_boundry % BYTES_PER_XDR_UNIT)), by omega, ?_⟩
    simp only [Incoming.fill_input_buf, Incoming.readit, if_neg some, Option.map_some]
  refine ⟨_, filled, ⟨?_, rfl, rfl, rfl⟩, fun none => ?_⟩
  · rw [Incoming.stream, List.take_append_drop, Incoming.stream, empty]
    rfl
  · rcases List.take_eq_nil_iff.mp none with wrong | wrong
    · omega
    · exact some wrong

theorem getLoop_spec (size : 100 ≤ s.in_size) (enough : len ≤ fuel) :
    ∃ s', Incoming.getLoop fuel s len =
      (s', if len ≤ s.stream.length then some (s.stream.take len) else none) ∧ Took s s' len := by
  induction fuel generalizing s len with
  | zero =>
    obtain rfl : len = 0 := Nat.le_zero.mp enough
    exact ⟨s, rfl, rfl, rfl, rfl, rfl⟩
  | succ fuel ih =>
    unfold Incoming.getLoop
    by_cases nothing : len = 0
    · subst nothing
      exact ⟨s, by simp, rfl, rfl, rfl, rfl⟩
    rw [if_neg nothing]
    -- there are bytes in the buffer, or there will be
    have ready : (s.stream = [] ∧ (if s.ahead = [] then s.fill_input_buf else some s) = none) ∨
        ∃ b, (if s.ahead = [] then s.fill_input_buf else some s) = some b ∧ Took s b 0 ∧
          b.ahead ≠ [] := by
      by_cases empty : s.ahead = []
      · rw [if_pos empty]
        by_cases none : s.coming = []
        · refine .inl ⟨?_, ?_⟩
          · rw [Incoming.stream, empty, none]
            rfl
          · rw [Incoming.fill_input_buf, Incoming.readit, if_pos none]
            rfl
        · exact .inr (fill_spec empty none)
      · rw [if_neg empty]
        exact .inr ⟨s, rfl, ⟨rfl, rfl, rfl, rfl⟩, empty⟩
    rcases ready with ⟨none, failed⟩ | ⟨b, got, took, some⟩
    · rw [failed, none]
      refine ⟨s, ?_, ?_, rfl, rfl, rfl⟩
      · rw [if_neg (by simpa using nothing)]
      · rw [none, List.drop_nil]
    · rw [got]
      dsimp only
      have positive : 0 < b.ahead.length := List.length_pos_iff.mpr some
      have stream : s.stream = b.ahead ++ b.coming := took.stream.symm.trans rfl
      obtain ⟨s', rest, after⟩ := @ih { b with ahead := b.ahead.drop (min len b.ahead.length) }
        (len - min len b.ahead.length)
        (by rw [took.size]; exact size) (by lia)
      have left : Incoming.stream { b with ahead := b.ahead.drop (min len b.ahead.length) } =
          s.stream.drop (min len b.ahead.length) := by
        rw [stream, List.drop_append_of_le_length (Nat.min_le_right _ _)]
        rfl
      have piece : b.ahead.take (min len b.ahead.length) =
        s.stream.take (min len b.ahead.length) := by
        rw [stream, List.take_append_of_le_length (Nat.min_le_right _ _)]
      have inside : min len b.ahead.length ≤ s.stream.length := by
        rw [stream, List.length_append]
        lia
      refine ⟨s', ?_, ?_, after.size.trans took.size, after.fbtbc.trans took.fbtbc,
        after.last_frag.trans took.last_frag⟩
      · rw [rest, left, piece, List.length_drop]
        by_cases fits : len ≤ s.stream.length
        · have sum : min len b.ahead.length + (len - min len b.ahead.length) = len := by lia
          rw [if_pos fits, if_pos (by lia), Option.map_some, ← List.take_add, sum]
        · rw [if_neg fits, if_neg (by lia)]
          rfl
      · rw [after.stream, left, List.drop_drop]
        congr 1
        lia

theorem get_input_bytes_spec (size : 100 ≤ s.in_size) (len : Nat) :
    ∃ s', s.get_input_bytes len =
      (s', if len ≤ s.stream.length then some (s.stream.take len) else none) ∧ Took s s' len :=
  getLoop_spec size (Nat.le_refl len)

theorem skip_input_bytes_spec (size : 100 ≤ s.in_size) (fits : len ≤ s.stream.length) :
    ∃ s', s.skip_input_bytes len = (s', true) ∧ Took s s' len := by
  obtain ⟨s', got, took⟩ := @getLoop_spec s len len size (Nat.le_refl len)
  refine ⟨s', ?_, took⟩
  rw [Incoming.skip_input_bytes, got, if_pos fits]
  rfl

theorem set_input_fragment_spec (size : 100 ≤ s.in_size) (short : n < LAST_FRAG)
    (ahead : s.stream = header n last ++ rest) :
    ∃ s', s.set_input_fragment = (s', true) ∧ s'.stream = rest ∧ s'.in_size = s.in_size ∧
      s'.fbtbc = n ∧ s'.last_frag = last := by
  obtain ⟨b, got, took⟩ := get_input_bytes_spec size 4
  have four : s.stream.take 4 = header n last := by
    rw [ahead]
    exact List.take_left' rfl
  have after : s.stream.drop 4 = rest := by
    rw [ahead]
    exact List.drop_left' rfl
  have fits : 4 ≤ s.stream.length := by
    rw [ahead, List.length_append, length_header]
    omega
  obtain ⟨flag, count⟩ := ntohl_header short last
  rw [if_pos fits, four] at got
  refine ⟨{ b with last_frag := last, fbtbc := n }, ?_, took.stream.trans after, took.size, rfl,
    rfl⟩
  rw [Incoming.set_input_fragment, got]
  dsimp only
  rw [flag, count]

theorem set_input_fragment_none (size : 100 ≤ s.in_size) (none : s.stream = []) :
    ∃ s', s.set_input_fragment = (s', false) ∧ Took s s' 4 := by
  obtain ⟨b, got, took⟩ := get_input_bytes_spec size 4
  rw [none, if_neg (by decide)] at got
  refine ⟨b, ?_, took⟩
  rw [Incoming.set_input_fragment, got]

theorem getbytesLoop_data (size : 100 ≤ s.in_size) (count : s.fbtbc = data.length)
    (ahead : s.stream = data ++ rest) (some : data ≠ []) (asked : len ≠ 0) :
    ∃ s', Incoming.getbytesLoop (fuel + 1) s len =
        ((Incoming.getbytesLoop fuel s' (len - data.length)).1,
          (Incoming.getbytesLoop fuel s' (len - data.length)).2.map (data.take len ++ ·)) ∧
      s'.in_size = s.in_size ∧ s'.last_frag = s.last_frag ∧ s'.fbtbc = (data.drop len).length ∧
        s'.stream = data.drop len ++ rest := by
  have positive := List.length_pos_iff.mpr some
  obtain ⟨b, got, took⟩ := get_input_bytes_spec size (min len s.fbtbc)
  have fits : min len s.fbtbc ≤ s.stream.length := by
    rw [ahead, List.length_append]
    lia
  have piece : s.stream.take (min len s.fbtbc) = data.take len := by
    rw [ahead, List.take_append_of_le_length (by lia), count, List.take_eq_take_iff]
    lia
  have left : s.stream.drop (min len s.fbtbc) = data.drop len ++ rest := by
    rw [ahead, List.drop_append_of_le_length (by lia), count]
    congr 1
    rcases Nat.le_total len data.length with less | more
    · rw [Nat.min_eq_left less]
    · rw [Nat.min_eq_right more, List.drop_length, List.drop_of_length_le more]
  rw [if_pos fits, piece] at got
  refine ⟨{ b with fbtbc := b.fbtbc - min len s.fbtbc }, ?_, took.size, took.last_frag, ?_,
    took.stream.trans left⟩
  · have less : len - min len s.fbtbc = len - data.length := by lia
    rw [Incoming.getbytesLoop, if_neg asked, if_neg (by lia)]
    dsimp only
    rw [got, less]
  · rw [took.fbtbc, List.length_drop]
    dsimp only
    lia

/-- Bytes of the record are read, or, if there are not so many, none of the next. -/
theorem getbytesLoop_spec (current : Current header LAST_FRAG n last stream cur tail) :
    ∀ s : Incoming, s.fbtbc = n → s.last_frag = last → s.stream = stream → 100 ≤ s.in_size →
      ∀ len fuel, stream.length + 2 ≤ fuel →
    ∃ s', Incoming.getbytesLoop fuel s len =
      (s', if len ≤ cur.length then some (cur.take len) else none) ∧
      s'.in_size = s.in_size ∧
        Current header LAST_FRAG s'.fbtbc s'.last_frag s'.stream (cur.drop len) tail := by
  induction current with
  | @last data tail =>
    intro s count flag ahead size len fuel enough
    obtain ⟨fuel, rfl⟩ : ∃ k, fuel = k + 2 := ⟨fuel - 2, by lia⟩
    have whole : Current header LAST_FRAG s.fbtbc s.last_frag s.stream data tail := by
      rw [count, flag, ahead]
      exact .last
    by_cases asked : len = 0
    · subst asked
      exact ⟨s, by simp [Incoming.getbytesLoop], rfl, whole⟩
    cases data with
    | nil =>
      have zero : s.fbtbc = 0 := count
      refine ⟨s, ?_, rfl, by rwa [List.drop_nil]⟩
      rw [Incoming.getbytesLoop, if_neg asked, if_pos zero, if_pos flag,
        if_neg (by simpa using asked)]
    | cons byte bytes =>
      obtain ⟨s', pass, size', flag', count', ahead'⟩ :=
        @getbytesLoop_data s (byte :: bytes) tail len (fuel + 1) size count
        ahead (List.cons_ne_nil _ _) asked
      have after :
          Current header LAST_FRAG s'.fbtbc s'.last_frag s'.stream ((byte :: bytes).drop len)
          tail := by
        rw [count', flag', flag, ahead']
        exact .last
      refine ⟨s', ?_, size', after⟩
      rw [pass, Incoming.getbytesLoop]
      by_cases fits : len ≤ (byte :: bytes).length
      · rw [if_pos (by lia), if_pos fits]
        simp
      · rw [if_neg (by lia), if_pos (by rw [count', List.length_drop]; lia),
          if_pos (flag'.trans flag), if_neg fits]
        rfl
  | @more data stream rest tail n last short next ih =>
    intro s count flag ahead size len fuel enough
    rw [List.length_append, List.length_append, length_header] at enough
    obtain ⟨fuel, rfl⟩ : ∃ k, fuel = k + 2 := ⟨fuel - 2, by lia⟩
    -- the fragment is used up, and the next one starts
    have turn (b : Incoming) (fuel len : Nat) (asked : len ≠ 0) (count : b.fbtbc = 0)
        (flag : b.last_frag = false)
        (ahead : b.stream = header n last ++ stream) (size : 100 ≤ b.in_size)
          (enough : stream.length + 2 ≤ fuel) :
        ∃ s', Incoming.getbytesLoop (fuel + 1) b len =
          (s', if len ≤ rest.length then some (rest.take len) else none) ∧
          s'.in_size = b.in_size ∧
            Current header LAST_FRAG s'.fbtbc s'.last_frag s'.stream (rest.drop len) tail := by
      obtain ⟨b', set, stream', size', count', flag'⟩ := set_input_fragment_spec size short ahead
      obtain ⟨s', result, size'', current⟩ :=
        ih b' count' flag' stream' (by rw [size']; exact size) len fuel enough
      refine ⟨s', ?_, size''.trans size', current⟩
      rw [Incoming.getbytesLoop, if_neg asked, if_pos count, if_neg (by simp [flag]), set]
      exact result
    by_cases asked : len = 0
    · subst asked
      refine ⟨s, by simp [Incoming.getbytesLoop], rfl, ?_⟩
      rw [count, flag, ahead]
      exact .more short next
    cases data with
    | nil =>
      obtain ⟨s', result, size', current⟩ :=
        turn s (fuel + 1) len asked count flag ahead size (by lia)
      exact ⟨s', result, size', current⟩
    | cons byte bytes =>
      obtain ⟨b, pass, size', flag', count', ahead'⟩ :=
        @getbytesLoop_data s (byte :: bytes) (header n last ++ stream) len
          (fuel + 1) size count ahead (List.cons_ne_nil _ _) asked
      rw [pass]
      by_cases fits : len ≤ (byte :: bytes).length
      · refine ⟨b, ?_, size', ?_⟩
        · rw [Incoming.getbytesLoop, if_pos (by lia), if_pos (by rw [List.length_append]; lia),
            List.take_append_of_le_length fits]
          simp
        · rw [count', flag', flag, ahead', List.drop_append_of_le_length fits]
          exact .more short next
      · have used : (byte :: bytes).drop len = [] := List.drop_of_length_le (by lia)
        rw [used] at count' ahead'
        obtain ⟨s', result, size'', current⟩ :=
          turn b fuel (len - (byte :: bytes).length) (by lia) count' (flag'.trans flag)
          ahead' (by rw [size']; exact size) (by rw [List.length_cons] at enough; lia)
        refine ⟨s', ?_, size''.trans size', ?_⟩
        · rw [result]
          by_cases inside : len ≤ (byte :: bytes ++ rest).length
          · rw [if_pos inside, if_pos (by rw [List.length_append] at inside; lia), List.take_append,
              List.take_of_length_le (show (byte :: bytes).length ≤ len by lia)]
            rfl
          · rw [if_neg inside, if_neg (by rw [List.length_append] at inside; lia)]
            rfl
        · rw [List.drop_append, used]
          exact current

theorem skipLoop_spec (current : Current header LAST_FRAG n last stream cur tail) :
    ∀ s : Incoming, s.fbtbc = n → s.last_frag = last → s.stream = stream → 100 ≤ s.in_size →
      ∀ fuel, stream.length + 2 ≤ fuel →
    ∃ s', Incoming.skipLoop fuel s = (s', true) ∧ s'.in_size = s.in_size ∧ s'.fbtbc = 0 ∧
      s'.last_frag = true ∧ s'.stream = tail := by
  induction current with
  | @last data tail =>
    intro s count flag ahead size fuel enough
    obtain ⟨fuel, rfl⟩ : ∃ k, fuel = k + 2 := ⟨fuel - 2, by lia⟩
    by_cases none : s.fbtbc = 0
    · have nil : data = [] := List.length_eq_zero_iff.mp (count.symm.trans none)
      refine ⟨s, ?_, rfl, none, flag, by rw [ahead, nil]; rfl⟩
      rw [Incoming.skipLoop, if_neg (by simp [none, flag])]
    · obtain ⟨b, skipped, took⟩ :=
        @skip_input_bytes_spec s s.fbtbc size (by rw [ahead, count, List.length_append]; lia)
      refine ⟨{ b with fbtbc := 0 }, ?_, took.size, rfl, took.last_frag.trans flag, ?_⟩
      · rw [Incoming.skipLoop, if_pos (.inl (Nat.pos_of_ne_zero none)), skipped]
        dsimp only
        rw [if_pos (took.last_frag.trans flag), Incoming.skipLoop, if_neg]
        simp [took.last_frag, flag]
      · refine took.stream.trans ?_
        rw [ahead, count]
        exact List.drop_left
  | @more data stream rest tail n last short next ih =>
    intro s count flag ahead size fuel enough
    rw [List.length_append, List.length_append, length_header] at enough
    obtain ⟨fuel, rfl⟩ : ∃ k, fuel = k + 1 := ⟨fuel - 1, by lia⟩
    obtain ⟨b, skipped, took⟩ :=
      @skip_input_bytes_spec s s.fbtbc size (by rw [ahead, count, List.length_append]; lia)
    have after : Incoming.stream { b with fbtbc := 0 } = header n last ++ stream := by
      refine took.stream.trans ?_
      rw [ahead, count]
      exact List.drop_left
    obtain ⟨b', set, stream', size', count', flag'⟩ :=
      @set_input_fragment_spec { b with fbtbc := 0 } stream n last (by rw [took.size]; exact size)
        short after
    obtain ⟨s', result, size'', done⟩ :=
      ih b' count' flag' stream' (by rw [size', took.size]; exact size) fuel (by lia)
    refine ⟨s', ?_, size''.trans (size'.trans took.size), done⟩
    rw [Incoming.skipLoop, if_pos (.inr flag), skipped]
    dsimp only
    rw [if_neg (by simp [took.last_frag, flag]), set]
    exact result

end Reading

end FreeBsd.Rpc
