import FreeBsd.Db.RecRead

/-! The readers of records of fixed length, over any requests. -/
namespace FreeBsd.Db.Rec

open FreeBsd.Lib

section Buffer

variable {t : Btree} {input : Bytes} {p len r : Nat} {dbuf : Nat → UInt8}

def written (dbuf : Nat → UInt8) (p : Nat) (input : Bytes) : Nat → UInt8 := fun i =>
  if p ≤ i then input[i - p]?.getD (dbuf i) else dbuf i

theorem written_nil : written dbuf p [] = dbuf := by
  funext i
  rw [written]
  split <;> rfl

theorem written_cons (ch : UInt8) (rest : Bytes) :
    written (Function.update dbuf p ch) (p + 1) rest = written dbuf p (ch :: rest) := by
  funext i
  unfold written
  rcases Nat.lt_trichotomy i p with less | rfl | more
  · rw [if_neg (by lia), if_neg (by lia), Function.update_of_ne (by lia)]
  · rw [if_neg (by lia), if_pos (Nat.le_refl _), Nat.sub_self, Function.update_self]
    rfl
  · obtain ⟨k, rfl⟩ := Nat.exists_eq_add_of_lt more
    rw [if_pos (by lia), if_pos (by lia), Function.update_of_ne (by lia)]
    have here : p + k + 1 - p = k + 1 := by lia
    have there : p + k + 1 - (p + 1) = k := by lia
    rw [here, there]
    rfl

theorem written_of_le {i : Nat} (above : input.length ≤ i) : written dbuf 0 input i = dbuf i := by
  rw [written, if_pos (Nat.zero_le _), Nat.sub_zero, List.getElem?_eq_none above]
  rfl

/-- The first bytes of the buffer are the new ones, and behind them those that were there. -/
theorem written_data (short : input.length ≤ r) :
    (List.range r).map (written dbuf 0 input) =
      input ++ (List.range' input.length (r - input.length)).map dbuf := by
  refine List.ext_getElem (by simp; lia) fun i inside _ => ?_
  rw [List.length_map, List.length_range] at inside
  rw [List.getElem_map, List.getElem_range]
  rcases Nat.lt_or_ge i input.length with less | more
  · rw [List.getElem_append_left less, written, if_pos (Nat.zero_le _), Nat.sub_zero,
      List.getElem?_eq_getElem less]
    rfl
  · rw [List.getElem_append_right more, written_of_le more, List.getElem_map, List.getElem_range']
    congr 1
    lia

theorem filled_iff {bval : UInt8} (n : Nat) :
    (List.range' input.length n).map dbuf = List.replicate n bval ↔
      ∀ i, input.length ≤ i → i < input.length + n → dbuf i = bval := by
  simp only [List.eq_replicate_iff, List.length_map, List.length_range', List.forall_mem_map,
    List.mem_range'_1, and_imp, true_and]

theorem fpipeRecord_all (short : input.length ≤ len) :
    fpipeRecord input t p len = ({ t with input := [], dbuf := written t.dbuf p input }, true) := by
  induction input generalizing t p len with
  | nil => rw [written_nil]; rfl
  | cons ch rest ih =>
    rw [List.length_cons] at short
    rw [fpipeRecord, if_neg (by lia), ih (by lia), ← written_cons]
    rfl

theorem fmapRecord_all (short : input.length ≤ len) :
    fmapRecord input t p len = ({ t with dbuf := written t.dbuf p input }, p + input.length, [],
      len - input.length) := by
  induction input generalizing t p len with
  | nil => rw [written_nil]; rfl
  | cons ch rest ih =>
    rw [List.length_cons] at short
    rw [fmapRecord, if_neg (by lia), ih (by lia), ← written_cons, List.length_cons]
    have next : p + 1 + rest.length = p + (rest.length + 1) := by lia
    have left : len - 1 - rest.length = len - (rest.length + 1) := by lia
    rw [next, left]
    rfl

theorem fmapRecord_wraps (long : len < input.length) :
    ∃ t' sp wrapped, fmapRecord input t p len = (t', p + len, sp, wrapped) ∧ t'.dbufsz = t.dbufsz ∧
      2 ^ 32 ≤ wrapped + 1 := by
  induction input generalizing t p len with
  | nil => cases long
  | cons ch rest ih =>
    rw [List.length_cons] at long
    rw [fmapRecord]
    split
    · rename_i zero
      exact ⟨t, ch :: rest, 2 ^ 32 - 1, by rw [zero]; rfl, rfl, by lia⟩
    · obtain ⟨t', sp, wrapped, same, size, large⟩ := @ih (t.store p ch) (p + 1) (len - 1) (by lia)
      have next : p + 1 + (len - 1) = p + len := by lia
      exact ⟨t', sp, wrapped, by rw [same, next], size, large⟩

end Buffer

section Requests

variable {irec : Btree → Nat → Except Fault (Btree × Status)} {t : Btree} {tops : List Nat}

theorem requests_first (empty : t.recs = []) (open' : t.eof = false) (some : most tops ≠ 0) :
    ∃ top later before, 0 < top ∧ most tops = max top (most later) ∧ requests irec tops t = (do
      let (u, status) ← irec t top
      let (v, rest) ← requests irec later u
      .ok (v, before ++ status :: rest)) := by
  induction tops with
  | nil => exact absurd rfl some
  | cons top tops ih =>
    rw [most_cons] at some
    rcases Nat.eq_zero_or_pos top with rfl | positive
    · rw [Nat.zero_max] at some
      obtain ⟨top, later, before, positive, same, run⟩ := ih some
      refine ⟨top, later, .success :: before, positive, by rw [most_cons, Nat.zero_max, same], ?_⟩
      rw [requests, if_pos (Nat.zero_le _)]
      simp only [bind, Except.bind] at run ⊢
      rw [run]
      cases irec t top with
      | error fault => rfl
      | ok r =>
        dsimp only
        cases requests irec later r.1 <;> rfl
    · refine ⟨top, tops, [], positive, most_cons top tops, ?_⟩
      rw [requests, if_neg (by rw [empty, List.length_nil]; omega), if_neg (by rw [open']; decide)]
      rfl

theorem requests_none (none : most tops = 0) :
    ∃ statuses, requests irec tops t = .ok (t, statuses) := by
  induction tops with
  | nil => exact ⟨[], rfl⟩
  | cons top tops ih =>
    rw [most_cons] at none
    obtain ⟨statuses, run⟩ := ih (by lia)
    refine ⟨.success :: statuses, ?_⟩
    rw [requests, if_pos (by lia)]
    simp only [bind, Except.bind]
    rw [run]

end Requests

section Fixed

variable {t : Btree} {moves : Bool} {top : Nat} {tops : List Nat}

def Btree.Kept (t : Btree) (moves : Bool) : Prop := moves = false ∨ t.reclen ≤ t.dbufsz

theorem Btree.kept_iff : (moves && decide (t.dbufsz < t.reclen)) = false ↔ t.Kept moves := by
  rw [Bool.and_eq_false_iff, decide_eq_false_iff_not, Nat.not_lt]
  rfl

theorem recFpipe_lost (lost : ¬ t.Kept moves) (asked : t.recs.length < top) :
    recFpipe moves t top = .error .astray := by
  rw [← Btree.kept_iff, Bool.not_eq_false] at lost
  obtain ⟨n, same⟩ := Nat.exists_eq_add_of_lt asked
  have count : top - t.recs.length = n + 1 := by lia
  rw [recFpipe, lost, count]
  rfl

/-- A file that is not longer than a record is one, also an empty one; what is missing comes from
the buffer. -/
theorem recFpipe_first (kept : t.Kept moves) (asked : t.recs.length < top)
    (short : t.input.length ≤ t.reclen) :
    recFpipe moves t top =
      .ok ({ t.grow with
        input := []
        dbuf := written t.dbuf 0 t.input
        recs := t.recs ++ [(List.range t.reclen).map (written t.dbuf 0 t.input)]
        eof := true }, .special) := by
  obtain ⟨n, same⟩ := Nat.exists_eq_add_of_lt asked
  have count : top - t.recs.length = n + 1 := by lia
  have read : fpipeRecord t.grow.input t.grow 0 t.grow.reclen = _ := fpipeRecord_all short
  rw [recFpipe, Btree.kept_iff.mpr kept, count, fpipeLoop, read]
  rfl

def padded (t : Btree) : Nat → UInt8 := fun i =>
  if t.input.length ≤ i ∧ i < t.input.length + (t.reclen - t.input.length) then t.bval else written
    t.dbuf 0 t.input i

theorem padded_data (short : t.input.length ≤ t.reclen) :
    (List.range t.reclen).map (padded t) =
      t.input ++ List.replicate (t.reclen - t.input.length) t.bval := by
  have pads : ∀ i, t.input.length ≤ i → i < t.input.length + (t.reclen - t.input.length) →
      padded t i = t.bval :=
    fun i above below => if_pos ⟨above, below⟩
  rw [← (filled_iff _).mpr pads, ← written_data short]
  refine List.map_congr_left fun i _ => ?_
  unfold written
  rw [if_pos (Nat.zero_le _), Nat.sub_zero]
  rcases Nat.lt_or_ge i t.input.length with less | more
  · rw [padded, if_neg (by omega), written, if_pos (Nat.zero_le _), Nat.sub_zero,
      List.getElem?_eq_getElem less]
    rfl
  · rw [List.getElem?_eq_none more]
    rfl

theorem fmapLoop_some {sp : Bytes} (some : sp ≠ []) (lost : Bool) (n : Nat) (t : Btree) :
    fmapLoop lost (n + 1) t sp = (do
      let (t, p, sp, len) := fmapRecord sp t 0 t.reclen
      let t ← t.memset p t.bval len
      if lost then .error .astray else fmapLoop lost n (t.iput (t.data t.reclen)) sp) := by
  cases sp with
  | nil => exact absurd rfl some
  | cons ch rest => rfl

def Spent (t : Btree) : Prop := t.eof = true ∨ t.input = []

theorem recFmap_first (kept : t.Kept moves) (asked : t.recs.length < top)
    (short : t.input.length ≤ t.reclen) (some : t.input ≠ []) :
    ∃ u status, recFmap moves t top = .ok (u, status) ∧
      u.recs = t.recs ++ [(List.range t.reclen).map (padded t)] ∧
      u.dbuf = padded t ∧ Spent u := by
  obtain ⟨n, same⟩ := Nat.exists_eq_add_of_lt asked
  have count : top - t.recs.length = n + 1 := by lia
  have read : fmapRecord t.input t.grow 0 t.grow.reclen = _ := fmapRecord_all short
  have room : ¬ 0 + t.input.length + (t.grow.reclen - t.input.length) > t.grow.dbufsz := by
    have fits : t.grow.reclen ≤ t.grow.dbufsz := Nat.le_max_right ..
    change t.input.length ≤ t.grow.reclen at short
    lia
  have fill : Btree.memset { t.grow with dbuf := written t.grow.dbuf 0 t.input }
    (0 + t.input.length) t.grow.bval
      (t.grow.reclen - t.input.length) = .ok { t.grow with dbuf := padded t } := by
    rw [Btree.memset, if_neg room, Nat.zero_add]
    rfl
  have step : ∀ n, fmapLoop false (n + 1) t.grow t.input =
      fmapLoop false n
        ({ t.grow with dbuf := padded t }.iput ((List.range t.reclen).map (padded t))) [] := by
    intro n
    rw [fmapLoop_some some, read]
    simp only [bind, Except.bind]
    rw [fill]
    rfl
  rw [recFmap, Btree.kept_iff.mpr kept, count, step]
  cases n with
  | zero => exact ⟨_, _, rfl, rfl, rfl, .inr rfl⟩
  | succ n => exact ⟨_, _, rfl, rfl, rfl, .inl rfl⟩

theorem recFmap_spent (spent : t.input = []) (asked : t.recs.length < top) :
    recFmap moves t top = .ok ({ t.grow with eof := true }, .special) := by
  obtain ⟨n, same⟩ := Nat.exists_eq_add_of_lt asked
  have count : top - t.recs.length = n + 1 := by lia
  rw [recFmap, count, spent]
  rfl

theorem requests_spent (spent : Spent t) (tops : List Nat) :
    ∃ u statuses, requests (recFmap moves) tops t = .ok (u, statuses) ∧ u.recs = t.recs ∧
      u.dbuf = t.dbuf := by
  induction tops with
  | nil => exact ⟨t, [], rfl, rfl, rfl⟩
  | cons top tops ih =>
    rcases spent with done | read
    · exact ⟨t, _, requests_eof done _, rfl, rfl⟩
    · obtain ⟨u, statuses, run, same⟩ := ih
      rw [requests]
      simp only [bind, Except.bind]
      split
      · exact ⟨u, _, by rw [run], same⟩
      · rename_i asked
        split
        · exact ⟨u, _, by rw [run], same⟩
        · rw [recFmap_spent read (by omega)]
          dsimp only
          rw [requests_eof rfl]
          exact ⟨_, _, rfl, rfl, rfl⟩

/-- From a longer file the padding of the first record goes past the buffer. -/
theorem recFmap_wraps (asked : t.recs.length < top) (long : t.reclen < t.input.length)
    (positive : 0 < t.reclen) (size : t.dbufsz < 2 ^ 32) :
      recFmap moves t top = .error .astray := by
  obtain ⟨n, same⟩ := Nat.exists_eq_add_of_lt asked
  have count : top - t.recs.length = n + 1 := by lia
  obtain ⟨t', sp, wrapped, read, wide, large⟩ :=
    @fmapRecord_wraps t.grow t.input 0 t.grow.reclen long
  have outside : 0 + t.grow.reclen + wrapped > t'.dbufsz := by
    rw [wide]
    change 0 + t.reclen + wrapped > max t.dbufsz t.reclen
    lia
  have some : t.input ≠ [] := by
    rintro none
    rw [none] at long
    cases long
  rw [recFmap, count, fmapLoop_some some]
  rw [read]
  simp only [bind, Except.bind, Btree.memset, if_pos outside]

/-- From a pipe and from a mapped file come the records of the contents, each filled up with the pad
byte, and no byte behind the record buffer changes. -/
def FixedRecords (moves : Bool) (contents : Bytes) (t : Btree) (tops : List Nat) : Prop :=
  ∃ u v statuses statuses', requests (recFpipe moves) tops t = .ok (u, statuses) ∧
    requests (recFmap moves) tops t = .ok (v, statuses') ∧
    u.recs = (blocks t.reclen t.bval contents).take (most tops) ∧
    v.recs = (blocks t.reclen t.bval contents).take (most tops) ∧
    ∀ i, t.reclen ≤ i → u.dbuf i = t.dbuf i ∧ v.dbuf i = t.dbuf i

theorem requests_recFpipe_first (empty : t.recs = []) (open' : t.eof = false) (some : most tops ≠ 0)
    (kept : t.Kept moves) (short : t.input.length ≤ t.reclen) :
    ∃ u statuses, requests (recFpipe moves) tops t = .ok (u, statuses) ∧
      u.recs = [(List.range t.reclen).map (written t.dbuf 0 t.input)] ∧
        u.dbuf = written t.dbuf 0 t.input := by
  obtain ⟨top, later, before, positive, -, run⟩ :=
    @requests_first (recFpipe moves) t tops empty open' some
  rw [run, recFpipe_first kept (by rw [empty]; exact positive) short]
  simp only [bind, Except.bind]
  rw [requests_eof rfl]
  exact ⟨_, _, rfl, by rw [empty]; rfl, rfl⟩

theorem requests_recFmap_first (empty : t.recs = []) (open' : t.eof = false) (some : most tops ≠ 0)
    (kept : t.Kept moves) (short : t.input.length ≤ t.reclen) (nonempty : t.input ≠ []) :
    ∃ u statuses, requests (recFmap moves) tops t = .ok (u, statuses) ∧
      u.recs = [(List.range t.reclen).map (padded t)] ∧ u.dbuf = padded t := by
  obtain ⟨top, later, before, positive, -, run⟩ :=
    @requests_first (recFmap moves) t tops empty open' some
  obtain ⟨u, status, first, recs, dbuf, spent⟩ :=
    @recFmap_first t moves top kept (by rw [empty]; exact positive) short nonempty
  obtain ⟨v, statuses, rest, same, buffer⟩ := @requests_spent u moves spent later
  rw [run, first]
  simp only [bind, Except.bind]
  rw [rest]
  exact ⟨v, _, rfl, by rw [same, recs, empty]; rfl, buffer.trans dbuf⟩

theorem requests_lost (empty : t.recs = []) (open' : t.eof = false) (some : most tops ≠ 0)
    (lost : ¬ t.Kept moves) :
    requests (recFpipe moves) tops t = .error .astray := by
  obtain ⟨top, later, before, positive, -, run⟩ :=
    @requests_first (recFpipe moves) t tops empty open' some
  rw [run, recFpipe_lost lost (by rw [empty]; exact positive)]
  rfl

theorem requests_wraps (empty : t.recs = []) (open' : t.eof = false) (some : most tops ≠ 0)
    (long : t.reclen < t.input.length) (positive : 0 < t.reclen) (size : t.dbufsz < 2 ^ 32) :
    requests (recFmap moves) tops t = .error .astray := by
  obtain ⟨top, later, before, asked, -, run⟩ :=
    @requests_first (recFmap moves) t tops empty open' some
  rw [run, recFmap_wraps (by rw [empty]; exact asked) long positive size]
  rfl

/-- The readers of records of fixed length are right just where nothing is asked of them, or the
buffer is not moved, the file is one record, and the buffer has the padding that the pipe does not
write. -/
theorem recFpipe_recFmap_iff (contents : Bytes) (bval : UInt8) (reclen : Nat) (dbuf : Nat → UInt8)
    (dbufsz : Nat) (moves : Bool) (tops : List Nat) (positive : 0 < reclen)
    (size : dbufsz < 2 ^ 32) :
    FixedRecords moves contents (opened contents bval reclen dbuf dbufsz) tops ↔
      (∀ top ∈ tops, top = 0) ∨
      (moves = false ∨ reclen ≤ dbufsz) ∧ 0 < contents.length ∧ contents.length ≤ reclen ∧
        ∀ i, contents.length ≤ i → i < reclen → dbuf i = bval := by
  rw [← most_eq_zero]
  by_cases none : most tops = 0
  · refine iff_of_true ?_ (.inl none)
    obtain ⟨statuses, piped⟩ :=
      @requests_none (recFpipe moves) (opened contents bval reclen dbuf dbufsz) tops none
    obtain ⟨statuses', mapped⟩ :=
      @requests_none (recFmap moves) (opened contents bval reclen dbuf dbufsz) tops none
    exact ⟨_, _, _, _, piped, mapped, by rw [none]; rfl, by rw [none]; rfl, fun i _ => ⟨rfl, rfl⟩⟩
  rw [or_iff_right none]
  have one : ∀ record : Bytes, [record].take (most tops) = [record] :=
    fun record => List.take_of_length_le (Nat.one_le_iff_ne_zero.mpr none)
  constructor
  · rintro ⟨u, v, statuses, statuses', piped, mapped, precs, -, -⟩
    have kept : (opened contents bval reclen dbuf dbufsz).Kept moves := by
      by_contra lost
      rw [requests_lost rfl rfl none lost] at piped
      cases piped
    have short : contents.length ≤ reclen := by
      by_contra long
      have fault := @requests_wraps (opened contents bval reclen dbuf dbufsz) moves tops rfl rfl
        none
        (Nat.lt_of_not_le long) positive size
      rw [fault] at mapped
      cases mapped
    obtain ⟨u', statuses'', piped', precs', -⟩ :=
      @requests_recFpipe_first (opened contents bval reclen dbuf dbufsz) moves
      tops rfl rfl none kept short
    rw [piped] at piped'
    cases piped'
    rw [precs] at precs'
    have some : contents ≠ [] := by
      rintro rfl
      change (blocks reclen bval []).take (most tops) = _ at precs'
      rw [blocks_nil positive, List.take_nil] at precs'
      cases precs'
    change (blocks reclen bval contents).take (most tops) =
      [(List.range reclen).map (written dbuf 0 contents)] at precs'
    rw [blocks_one some short, one, written_data short] at precs'
    have tail := List.append_cancel_left (List.cons.inj precs').1
    refine ⟨kept, List.length_pos_iff.mpr some, short, fun i above below => ?_⟩
    exact (filled_iff _).mp tail.symm i above (by omega)
  · rintro ⟨kept, nonempty, short, filled⟩
    have some := List.length_pos_iff.mp nonempty
    obtain ⟨u, statuses, piped, precs, pbuf⟩ :=
      @requests_recFpipe_first (opened contents bval reclen dbuf dbufsz) moves
      tops rfl rfl none kept short
    obtain ⟨v, statuses', mapped, mrecs, mbuf⟩ :=
      @requests_recFmap_first (opened contents bval reclen dbuf dbufsz) moves
      tops rfl rfl none kept short some
    have all : (blocks reclen bval contents).take (most tops) =
        [contents ++ List.replicate (reclen - contents.length) bval] := by
      rw [blocks_one some short, one]
    refine ⟨u, v, _, _, piped, mapped, ?_, ?_, fun i above => ⟨?_, ?_⟩⟩
    · rw [precs]
      change [(List.range reclen).map (written dbuf 0 contents)] = _
      rw [written_data short, (filled_iff _).mpr fun i above below => filled i above (by omega)]
      exact all.symm
    · rw [mrecs, padded_data short]
      exact all.symm
    · rw [pbuf]
      exact written_of_le (short.trans above)
    · rw [mbuf]
      change reclen ≤ i at above
      rw [padded, if_neg]
      · exact written_of_le (short.trans above)
      · change ¬ (contents.length ≤ i ∧ i < contents.length + (reclen - contents.length))
        omega

theorem recFpipe_recFmap_short :
    FixedRecords true [97, 98] (opened [97, 98] 32 4 (fun _ => 32) 4) [1, 2] :=
  (recFpipe_recFmap_iff [97, 98] 32 4 (fun _ => 32) 4 true [1, 2] (by decide) (by decide)).mpr
    (.inr ⟨.inr (by decide), by decide, by decide, fun _ _ _ => rfl⟩)

/-- Of two records none can be read from a mapped file. -/
theorem recFpipe_recFmap_two :
    ¬ FixedRecords false [97, 98] (opened [97, 98] 32 1 (fun _ => 0) 1) [2] := by
  rintro ⟨u, v, statuses, statuses', -, mapped, -⟩
  have fault : requests (recFmap false) [2] (opened [97, 98] 32 1 (fun _ => 0) 1) =
      .error .astray :=
    requests_wraps rfl rfl (by decide) (by decide) (by decide) (by decide)
  rw [fault] at mapped
  cases mapped

end Fixed

end FreeBsd.Db.Rec
