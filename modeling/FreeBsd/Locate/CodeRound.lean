import Mathlib.Data.List.TakeWhile
import FreeBsd.Locate.Code

/-! What `locate.code` packs and `fastfind` unpacks: the paths as the encoder's buffer has them,
unless a character is left in it that looks like a count. -/
namespace FreeBsd.Locate

section Words

theorem getw_putw {w : Int} (low : -2 ^ 31 ≤ w) (high : w < 2 ^ 31) (stream : List Byte) :
    getw (putw w ++ stream) = (w, stream) := by
  obtain ⟨n, eq⟩ : ∃ n, (w % 2 ^ 32).toNat = n := ⟨_, rfl⟩
  have small : n < 2 ^ 32 := by lia
  have whole : (BitVec.ofNat 8 n).toNat + (BitVec.ofNat 8 (n / 2 ^ 8)).toNat * 2 ^ 8 +
      (BitVec.ofNat 8 (n / 2 ^ 16)).toNat * 2 ^ 16 + (BitVec.ofNat 8 (n / 2 ^ 24)).toNat * 2 ^ 24 =
        n := by
    simp only [BitVec.toNat_ofNat]
    lia
  simp only [putw, eq, List.cons_append, List.nil_append, getw, whole]
  refine Prod.ext ?_ rfl
  dsimp only
  split
  · lia
  · lia

theorem getCount_putCount {w : Int} (low : -2 ^ 31 ≤ w) (high : w < 2 ^ 31) (stream : List Byte) :
    ∃ c rest, putCount w ++ stream = c :: rest ∧ c.toNat ≤ SWITCH ∧
      (if c.toNat = SWITCH then getw rest else (↑c.toNat, rest)) = (w, stream) := by
  unfold putCount OFFSET
  split
  · refine ⟨_, _, rfl, by decide, ?_⟩
    rw [if_pos (by decide)]
    exact getw_putw low high stream
  · refine ⟨_, _, rfl, ?_, ?_⟩
    · simp only [BitVec.toNat_ofNat, SWITCH]
      lia
    · have value : (BitVec.ofNat 8 w.toNat).toNat = w.toNat := by
        simp only [BitVec.toNat_ofNat]
        lia
      rw [value, if_neg (by unfold SWITCH; lia)]
      refine Prod.ext ?_ rfl
      dsimp only
      lia

end Words

section Bytes

theorem squelch_lt (c : Byte) : (squelch c).toNat < PARITY := by
  revert c
  decide

theorem squelch_eq_zero {c : Byte} (proper : c ≠ 0) : squelch c = 0 ↔ c = 0x80 := by
  revert c
  decide

theorem squelch_low {c : Byte} (proper : c ≠ 0) (other : c ≠ 0x80) :
    (squelch c).toNat ≤ SWITCH ↔ 0x81 ≤ c.toNat ∧ c.toNat ≤ 0x9e := by
  revert c
  decide

theorem mark_code : ∀ k < NBG, (BitVec.ofNat 8 k ||| BitVec.ofNat 8 PARITY).toNat ≥ PARITY ∧
    ((BitVec.ofNat 8 k ||| BitVec.ofNat 8 PARITY : Byte) &&& 0x7f).toNat = k := by
  decide

end Bytes

section Lines

theorem getLine_line {n : Nat} {bytes : List Byte} (fits : bytes.length < n)
    (proper : ∀ c ∈ bytes, c ≠ 0x0a) (stream : List Byte) : getLine n (bytes ++ 0x0a :: stream) =
      (bytes ++ [0x0a], stream) := by
  induction bytes generalizing n with
  | nil =>
    obtain ⟨n, rfl⟩ := Nat.exists_eq_succ_of_ne_zero (Nat.ne_of_gt fits)
    rfl
  | cons c bytes ih =>
    obtain ⟨n, rfl⟩ :=
      Nat.exists_eq_succ_of_ne_zero (Nat.ne_of_gt (Nat.lt_of_le_of_lt (Nat.zero_le _) fits))
    obtain ⟨other, proper⟩ := List.forall_mem_cons.mp proper
    rw [List.cons_append, getLine, if_neg other, ih (by simpa using fits) proper]
    rfl

theorem fgets_line (path : Path) (stream : List Byte) :
    fgets MAXPATHLEN (path.bytes ++ 0x0a :: stream) = some (path.bytes ++ [0x0a], stream) := by
  rw [fgets, if_neg (by simp)]
  exact congrArg some (getLine_line path.short (fun c member => (path.proper c member).2) stream)

def Path.buffered (path : Path) : List Byte := buffer (path.bytes ++ [0x0a])

theorem cstring_eq_self {s : List Byte} (proper : ∀ c ∈ s, c ≠ 0) : cstring s = s :=
  List.takeWhile_eq_self_iff.mpr fun c member => decide_eq_true (proper c member)

theorem Path.buffered_eq (path : Path) :
    path.buffered = (path.bytes.takeWhile (· ≠ 0x80)).map squelch := by
  have whole : cstring (path.bytes ++ [0x0a]) = path.bytes ++ [0x0a] := by
    refine cstring_eq_self fun c member => ?_
    rcases List.mem_append.mp member with here | last
    · exact (path.proper c here).1
    · rw [List.mem_singleton.mp last]
      decide
  have long : 0 < path.bytes.length := by
    have slash := path.slash
    cases bytes : path.bytes with
    | nil => simp [bytes] at slash
    | cons c bytes => simp
  have cut : 1 < (path.bytes ++ [0x0a]).length ∧
      (path.bytes ++ [(0x0a : Byte)]).getLast? = some 0x0a :=
    ⟨by simpa using long, List.getLast?_concat⟩
  unfold buffered buffer
  dsimp only
  rw [whole, if_pos cut, List.dropLast_concat, cstring, List.takeWhile_map]
  congr 1
  have proper := fun c member => (path.proper c member).1
  generalize path.bytes = bytes at proper
  induction bytes with
  | nil => rfl
  | cons c bytes ih =>
    obtain ⟨first, rest⟩ := List.forall_mem_cons.mp proper
    have same := squelch_eq_zero first
    by_cases nul : c = 0x80
    · rw [nul, List.takeWhile_cons_of_neg (by decide), List.takeWhile_cons_of_neg (by decide)]
    · rw [List.takeWhile_cons_of_pos, List.takeWhile_cons_of_pos, ih rest]
      · exact decide_eq_true nul
      · exact decide_eq_true (mt same.mp nul)

theorem Path.buffered_head (path : Path) : path.buffered.head? = some 0x2f := by
  rw [path.buffered_eq]
  have slash := path.slash
  cases bytes : path.bytes with
  | nil => simp [bytes] at slash
  | cons c bytes =>
    simp only [bytes, List.head?_cons, Option.some.injEq] at slash
    rw [slash, List.takeWhile_cons_of_pos (by decide)]
    rfl

theorem Path.buffered_length (path : Path) : path.buffered.length < MAXPATHLEN - 1 := by
  rw [path.buffered_eq, List.length_map]
  exact Nat.lt_of_le_of_lt (List.takeWhile_sublist _).length_le path.short

theorem Path.buffered_proper (path : Path) : ∀ c ∈ path.buffered, c ≠ 0 ∧ c.toNat < PARITY := by
  rw [path.buffered_eq]
  intro c member
  obtain ⟨b, there, rfl⟩ := List.mem_map.mp member
  have other : b ≠ 0x80 := by simpa using List.mem_takeWhile_imp there
  have proper := (path.proper b ((List.takeWhile_sublist _).subset there)).1
  exact ⟨mt (squelch_eq_zero proper).mp other, squelch_lt b⟩

def Clean (path : List Byte) : Prop := ∀ c ∈ path, SWITCH < c.toNat

instance (path : List Byte) : Decidable (Clean path) := inferInstanceAs (Decidable (∀ _ ∈ _, _))

theorem Path.clean_iff (path : Path) :
    Clean path.buffered ↔ ∀ c ∈ path.bytes.takeWhile (· ≠ 0x80),
      ¬ (0x81 ≤ c.toNat ∧ c.toNat ≤ 0x9e) := by
  rw [path.buffered_eq, Clean, List.forall_mem_map]
  refine forall₂_congr fun c there => ?_
  have other : c ≠ 0x80 := by simpa using List.mem_takeWhile_imp there
  have proper := (path.proper c ((List.takeWhile_sublist _).subset there)).1
  rw [← squelch_low proper other, Nat.not_le]

end Lines

section Residue

variable {bigrams bigram1 bigram2 : List Byte} {table : Table}

theorem bgindexFrom_some {bg0 bg1 : Byte} {p code : Nat}
    (found : bgindexFrom bg0 bg1 bigrams p = some code) :
    ∃ k, code = p + 2 * k ∧ bigrams[2 * k]? = some bg0 ∧ bigrams[2 * k + 1]? = some bg1 := by
  induction bigrams, p using bgindexFrom.induct bg0 bg1 with
  | case1 a b bigrams p here =>
    rw [bgindexFrom, if_pos here] at found
    obtain ⟨rfl, rfl⟩ := here
    exact ⟨0, (Option.some.inj found).symm, rfl, rfl⟩
  | case2 a b bigrams p other ih =>
    rw [bgindexFrom, if_neg other] at found
    obtain ⟨k, eq, first, second⟩ := ih found
    exact ⟨k + 1, by omega, first, second⟩
  | case3 => simp_all [bgindexFrom]

/-- A bigram that is found stands in the table, and both its characters are proper. -/
theorem bgindex_some {a b : Byte} {code : Nat} (found : bgindex table.bytes a b = some code) :
    code / 2 < NBG ∧ table.bytes[2 * (code / 2)]? = some a ∧
      table.bytes[2 * (code / 2) + 1]? = some b := by
  have proper : ∀ c ∈ table.bytes, c ≠ 0 := by
    rintro c member rfl
    exact absurd (table.between 0 member).1 (by decide)
  rw [bgindex, cstring_eq_self proper] at found
  obtain ⟨k, eq, first, second⟩ := bgindexFrom_some found
  obtain ⟨within, -⟩ := List.getElem?_eq_some_iff.mp second
  have full := table.full
  have half : code / 2 = k := by lia
  rw [half]
  unfold BGBUFSIZE at full
  exact ⟨by lia, first, second⟩

theorem bigramsAt_get {rest : List Byte} {k second : Nat} {c : Byte} (code : k < NBG)
    (found : bigrams[2 * k + second]? = some c) :
    (bigramsAt second (bigrams ++ rest)).getD k 0 = c := by
  have within := (List.getElem?_eq_some_iff.mp found).1
  rw [bigramsAt, List.getD_eq_getElem?_getD, List.getElem?_map, List.getElem?_range code]
  simp only [Option.map_some, Option.getD_some]
  rw [List.getD_eq_getElem?_getD, List.getElem?_append_left within, found]
  rfl

theorem getResidue_literal {c : Byte} {stream : List Byte} (high : SWITCH < c.toNat)
    (proper : c.toNat < PARITY) :
    getResidue bigram1 bigram2 (c :: stream) =
      (c :: (getResidue bigram1 bigram2 stream).1, (getResidue bigram1 bigram2 stream).2) := by
  rw [getResidue, if_pos high, if_pos proper]

theorem getResidue_low {c : Byte} {stream : List Byte} (low : c.toNat ≤ SWITCH) :
    getResidue bigram1 bigram2 (c :: stream) = ([], c :: stream) := by
  rw [getResidue, if_neg (Nat.not_lt.mpr low)]

theorem getResidue_code {a b : Byte} {code : Nat} {stream rest : List Byte}
    (found : bgindex table.bytes a b = some code) :
    getResidue (bigramsAt 0 (table.bytes ++ rest)) (bigramsAt 1 (table.bytes ++ rest))
        ((.ofNat 8 (code / 2) ||| .ofNat 8 PARITY) :: stream) =
      (a :: b :: (getResidue (bigramsAt 0 (table.bytes ++ rest)) (bigramsAt 1 (table.bytes ++ rest))
        stream).1, (getResidue (bigramsAt 0 (table.bytes ++ rest))
          (bigramsAt 1 (table.bytes ++ rest)) stream).2) := by
  obtain ⟨small, first, second⟩ := bgindex_some found
  obtain ⟨marked, plain⟩ := mark_code _ small
  have high : SWITCH < (BitVec.ofNat 8 (code / 2) ||| BitVec.ofNat 8 PARITY).toNat :=
    Nat.lt_of_lt_of_le (by decide) marked
  rw [getResidue, if_pos high]
  dsimp only
  rw [if_neg (Nat.not_lt.mpr marked), plain, bigramsAt_get small first, bigramsAt_get small second]

theorem getResidue_end {stream : List Byte} (count : ∀ c ∈ stream.head?, c.toNat ≤ SWITCH) :
    getResidue bigram1 bigram2 stream = ([], stream) := by
  cases stream with
  | nil => rfl
  | cons c stream => exact getResidue_low (count c rfl)

/-- What is read of a residue: all up to its first low character, and all of it if it has none. -/
structure Reads (residue later : List Byte) (result : List Byte × List Byte) : Prop where
  read : result.1 = residue.takeWhile (SWITCH < ·.toNat)
  left : Clean residue → result.2 = later

theorem takeWhile_high {c : Byte} {residue : List Byte} (high : SWITCH < c.toNat) :
    (c :: residue).takeWhile (SWITCH < ·.toNat) = c :: residue.takeWhile (SWITCH < ·.toNat) := by
  rw [List.takeWhile_cons_of_pos]
  exact decide_eq_true high

theorem Reads.low {c : Byte} {residue later stream : List Byte} (low : c.toNat ≤ SWITCH) :
    Reads (c :: residue) later (getResidue bigram1 bigram2 (c :: stream)) := by
  rw [getResidue_low low]
  refine ⟨?_, fun clean => ?_⟩
  · rw [List.takeWhile_cons_of_neg]
    simpa using low
  · exact absurd (clean c List.mem_cons_self) (Nat.not_lt.mpr low)

theorem Reads.literal {c : Byte} {residue later stream : List Byte} (high : SWITCH < c.toNat)
    (proper : c.toNat < PARITY) (reads : Reads residue later (getResidue bigram1 bigram2 stream)) :
    Reads (c :: residue) later (getResidue bigram1 bigram2 (c :: stream)) := by
  rw [getResidue_literal high proper]
  refine ⟨?_, fun clean => reads.left (List.forall_mem_cons.mp clean).2⟩
  rw [takeWhile_high high, reads.read]

theorem getResidue_putResidue {residue later rest : List Byte}
    (proper : ∀ c ∈ residue, c.toNat < PARITY) (count : ∀ c ∈ later.head?, c.toNat ≤ SWITCH) :
    Reads residue later
      (getResidue (bigramsAt 0 (table.bytes ++ rest)) (bigramsAt 1 (table.bytes ++ rest))
      (putResidue table.bytes residue ++ later)) := by
  induction residue using putResidue.induct table.bytes with
  | case1 =>
    rw [putResidue, List.nil_append, getResidue_end count]
    exact ⟨rfl, fun _ => rfl⟩
  | case2 c =>
    rw [putResidue]
    by_cases low : c.toNat ≤ SWITCH
    · exact .low low
    · refine .literal (Nat.not_le.mp low) (proper c List.mem_cons_self) ?_
      change Reads [] later (getResidue _ _ later)
      rw [getResidue_end count]
      exact ⟨rfl, fun _ => rfl⟩
  | case3 a b path none ih =>
    obtain ⟨first, proper⟩ := List.forall_mem_cons.mp proper
    obtain ⟨second, proper⟩ := List.forall_mem_cons.mp proper
    rw [putResidue, none]
    by_cases low : a.toNat ≤ SWITCH
    · exact .low low
    · refine .literal (Nat.not_le.mp low) first ?_
      by_cases low : b.toNat ≤ SWITCH
      · exact .low low
      · exact .literal (Nat.not_le.mp low) second (ih proper)
  | case4 a b path code found ih =>
    obtain ⟨-, proper⟩ := List.forall_mem_cons.mp proper
    obtain ⟨-, proper⟩ := List.forall_mem_cons.mp proper
    obtain ⟨-, first, second⟩ := bgindex_some found
    have high (c : Byte) (i : Nat) (there : table.bytes[i]? = some c) : SWITCH < c.toNat :=
      (table.between c (List.mem_of_getElem? there)).1
    have reads := ih proper
    rw [putResidue, found, List.cons_append, getResidue_code found]
    refine ⟨?_, fun clean => reads.left fun c member =>
      clean c (List.mem_cons_of_mem _ (List.mem_cons_of_mem _ member))⟩
    rw [takeWhile_high (high a _ first), takeWhile_high (high b _ second), reads.read]

end Residue

section Overlay

variable {mem : Nat → Byte} {path oldpath residue : List Byte} {count : Nat}

theorem skip_le : skip path oldpath ≤ path.length := by
  induction path, oldpath using skip.induct with
  | case1 a path oldpath ih =>
    rw [skip, if_pos rfl]
    exact Nat.succ_le_succ ih
  | case2 a path b oldpath other =>
    rw [skip, if_neg other]
    exact Nat.zero_le _
  | case3 path oldpath other => simp [skip]

theorem skip_same {i : Nat} (below : i < skip path oldpath) :
    path[i]? = oldpath[i]? ∧ i < oldpath.length := by
  induction path, oldpath using skip.induct generalizing i with
  | case1 a path oldpath ih =>
    rw [skip, if_pos rfl] at below
    cases i with
    | zero => exact ⟨rfl, Nat.succ_pos _⟩
    | succ i =>
      obtain ⟨same, within⟩ := ih (Nat.lt_of_succ_lt_succ below)
      exact ⟨same, Nat.succ_lt_succ within⟩
  | case2 a path b oldpath other =>
    rw [skip, if_neg other] at below
    cases below
  | case3 path oldpath other => simp [skip] at below

def Holds (mem : Nat → Byte) (s : List Byte) : Prop := ∀ i ≤ s.length, mem i = s.getD i 0

def Ready (mem : Nat → Byte) (oldpath : List Byte) : Prop :=
  ∀ path : List Byte, path.head? = some 0x2f → ∀ i < skip path oldpath, mem i = path.getD i 0

theorem Holds.ready (holds : Holds mem oldpath) : Ready mem oldpath := by
  intro path _ i below
  obtain ⟨same, within⟩ := skip_same below
  rw [holds i (Nat.le_of_lt within), List.getD_eq_getElem?_getD, List.getD_eq_getElem?_getD, same]

theorem ready_blank (mem : Nat → Byte) : Ready mem [0x20] := by
  intro path slash i below
  cases path with
  | nil => cases slash
  | cons c path =>
    obtain rfl := Option.some.inj slash
    exact absurd below (by simp [skip])

theorem holds_overlay (before : ∀ i < count, mem i = path.getD i 0) (within : count ≤ path.length)
    {n : Nat} :
    Holds (overlay mem count ((path.drop count).take n)) (path.take (count + n)) := by
  intro i bound
  rw [List.length_take] at bound
  unfold overlay
  split
  · rename_i below
    rw [before i below, List.getD_eq_getElem?_getD, List.getD_eq_getElem?_getD,
      List.getElem?_take_of_lt (by lia)]
  · rename_i above
    rw [if_pos (by simp only [List.length_take, List.length_drop]; lia)]
    rw [List.getD_eq_getElem?_getD, List.getD_eq_getElem?_getD, List.getElem?_take,
      List.getElem?_take, List.getElem?_drop]
    have place : count + (i - count) = i := by lia
    rw [place]
    by_cases last : i < count + n
    · rw [if_pos last, if_pos (by lia)]
    · rw [if_neg last, if_neg (by lia)]

theorem string_from {s : List Byte} (holds : Holds mem s) (proper : ∀ c ∈ s, c ≠ 0) {n i : Nat}
    (within : i ≤ s.length) (room : s.length < i + n) : string mem n i = s.drop i := by
  induction n generalizing i with
  | zero => lia
  | succ n ih =>
    rw [string, holds i within]
    by_cases last : i = s.length
    · rw [if_pos]
      · rw [last, List.drop_length]
      · rw [List.getD_eq_getElem?_getD, List.getElem?_eq_none (Nat.le_of_eq last.symm)]
        rfl
    · have inside : i < s.length := by lia
      rw [List.getD_eq_getElem?_getD, List.getElem?_eq_getElem inside, Option.getD_some,
        if_neg (proper _ (List.getElem_mem inside)), ih inside (by lia),
        List.drop_eq_getElem_cons inside]

theorem string_holds {s : List Byte} (holds : Holds mem s) (proper : ∀ c ∈ s, c ≠ 0)
    (room : s.length < MAXPATHLEN) :
    string mem MAXPATHLEN 0 = s := by
  rw [string_from holds proper (Nat.zero_le _) (by omega), List.drop_zero]

end Overlay

section Records

variable {mem : Nat → Byte} {path oldpath bigrams : List Byte} {table : Table}

theorem putCount_low {diffcount : Int} : ∀ c ∈ (putCount diffcount).head?, c.toNat ≤ SWITCH := by
  unfold putCount OFFSET
  split
  · rintro c ⟨rfl⟩
    decide
  · rintro c ⟨rfl⟩
    simp only [BitVec.toNat_ofNat, SWITCH]
    lia

theorem putCount_length (diffcount : Int) : 0 < (putCount diffcount).length := by
  unfold putCount
  split
  · exact Nat.succ_pos _
  · exact Nat.succ_pos _

theorem codePaths_low {rounds : Nat} {oldcount : Int} {stream : List Byte} :
    ∀ c ∈ (codePaths bigrams rounds oldpath oldcount stream).head?, c.toNat ≤ SWITCH := by
  cases rounds with
  | zero => rintro _ ⟨⟩
  | succ rounds =>
    rw [codePaths]
    cases fgets MAXPATHLEN stream with
    | none => rintro _ ⟨⟩
    | some next =>
      obtain ⟨c, rest, counted⟩ :
          ∃ c rest, putCount (skip (buffer next.1) oldpath - oldcount + OFFSET) = c :: rest := by
        unfold putCount
        split
        · exact ⟨_, _, rfl⟩
        · exact ⟨_, _, rfl⟩
      have low := @putCount_low (skip (buffer next.1) oldpath - oldcount + OFFSET)
      dsimp only
      rw [counted] at low ⊢
      exact low

/-- What is read of a residue is a part of the path, all of it only if it is clean. -/
theorem residue_part (clean : Clean oldpath) {n : Nat}
    (part : ((path.drop (skip path oldpath)).takeWhile (SWITCH < ·.toNat)).length = n) :
    (path.drop (skip path oldpath)).takeWhile (SWITCH < ·.toNat) =
      (path.drop (skip path oldpath)).take n ∧
      skip path oldpath + n ≤ path.length ∧
        (Clean path ↔ path.take (skip path oldpath + n) = path) := by
  have before :=
    List.prefix_iff_eq_take.mp
      (List.takeWhile_prefix (SWITCH < ·.toNat) (l := path.drop (skip path oldpath)))
  rw [part] at before
  have whole := @skip_le path oldpath
  have size := congrArg List.length before
  rw [part, List.length_take, List.length_drop] at size
  refine ⟨before, by lia, ?_⟩
  constructor
  · intro high
    have all : (path.drop (skip path oldpath)).takeWhile (SWITCH < ·.toNat) =
        path.drop (skip path oldpath) :=
      List.takeWhile_eq_self_iff.mpr fun c member =>
        decide_eq_true (high c (List.mem_of_mem_drop member))
    rw [all, List.length_drop] at part
    exact List.take_of_length_le (by lia)
  · intro whole c member
    have long := congrArg List.length whole
    rw [List.length_take] at long
    rw [List.take_of_length_le (by rw [List.length_drop]; lia),
      List.takeWhile_eq_self_iff] at before
    rw [← List.take_append_drop (skip path oldpath) path] at member
    rcases List.mem_append.mp member with common | residue
    · -- the old path has it too
      obtain ⟨i, below, rfl⟩ := List.mem_take_iff_getElem.mp common
      obtain ⟨same, within⟩ := @skip_same path oldpath i (by lia)
      rw [List.getElem?_eq_getElem (by lia), List.getElem?_eq_getElem within] at same
      rw [Option.some.inj same]
      exact clean _ (List.getElem_mem within)
    · exact of_decide_eq_true (before c residue)

/-- The next record: the path itself just when it is clean, and then the decoder agrees on it. -/
theorem decodePaths_record (path : Path) {later rest : List Byte} {oldcount n : Nat}
    (ready : Ready mem oldpath) (clean : Clean oldpath) (small : oldcount < MAXPATHLEN)
    (low : ∀ c ∈ later.head?, c.toNat ≤ SWITCH) :
    ∃ mem' left s,
      decodePaths (bigramsAt 0 (table.bytes ++ rest)) (bigramsAt 1 (table.bytes ++ rest))
        (n + 1) mem oldcount
          (putCount (skip path.buffered oldpath - oldcount + OFFSET) ++
            putResidue table.bytes (path.buffered.drop (skip path.buffered oldpath)) ++ later) =
        (decodePaths (bigramsAt 0 (table.bytes ++ rest)) (bigramsAt 1 (table.bytes ++ rest)) n mem'
          (skip path.buffered oldpath : Nat) left).map (s :: ·) ∧
      (s = path.buffered ↔ Clean path.buffered) ∧
        (Clean path.buffered → left = later ∧ Ready mem' path.buffered) := by
  have within := @skip_le path.buffered oldpath
  have size := path.buffered_length
  have proper := path.buffered_proper
  have agree := ready path.buffered path.buffered_head
  obtain ⟨m, part⟩ :
      ∃ m, ((path.buffered.drop (skip path.buffered oldpath)).takeWhile (SWITCH < ·.toNat)).length =
      m :=
    ⟨_, rfl⟩
  obtain ⟨prefixed, inside, whole⟩ := residue_part clean part
  generalize skip path.buffered oldpath = k at within agree part prefixed inside whole ⊢
  have reads := @getResidue_putResidue table (path.buffered.drop k) later rest
    (fun c member => (proper c (List.mem_of_mem_drop member)).2) low
  have holds := @holds_overlay mem path.buffered k agree within m
  have short : (path.buffered.take (k + m)).length < MAXPATHLEN := by
    rw [List.length_take]
    lia
  have stands := string_holds holds (fun c member => (proper c (List.mem_of_mem_take member)).1)
    short
  have count : (oldcount : Int) + ((k - oldcount + OFFSET : Int) - OFFSET) = k := by lia
  have taken : ((path.buffered.drop k).take m).length = m := by rw [← prefixed, part]
  refine ⟨overlay mem k ((path.buffered.drop k).take m), _, path.buffered.take (k + m), ?_,
    whole.symm, fun clear =>
    ⟨reads.left fun c member => clear c (List.mem_of_mem_drop member), ?_⟩⟩
  · unfold MAXPATHLEN at small size
    obtain ⟨c, tail, counted, -, word⟩ :=
      @getCount_putCount (k - oldcount + OFFSET) (by unfold OFFSET; lia)
        (by unfold OFFSET; lia) (putResidue table.bytes (path.buffered.drop k) ++ later)
    rw [List.append_assoc, counted, decodePaths]
    dsimp only
    rw [word]
    dsimp only
    rw [count, reads.read, prefixed, if_neg, Int.toNat_natCast, stands]
    rw [taken]
    unfold MAXPATHLEN
    lia
  · have ready := holds.ready
    rw [whole.mp clear] at ready
    exact ready

/-- The records of the rest of the list, for an encoder and a decoder that agree on the old path. -/
theorem decodePaths_iff (paths : List Path) {rest : List Byte} {oldcount rounds n : Nat}
    (ready : Ready mem oldpath) (clean : Clean oldpath) (small : oldcount < MAXPATHLEN)
    (enough : (Path.lines paths).length ≤ rounds)
    (fuel : (codePaths table.bytes rounds oldpath oldcount (Path.lines paths)).length ≤ n) :
    decodePaths (bigramsAt 0 (table.bytes ++ rest)) (bigramsAt 1 (table.bytes ++ rest)) n mem
      oldcount
        (codePaths table.bytes rounds oldpath oldcount (Path.lines paths)) =
          some (paths.map Path.buffered) ↔
      ∀ path ∈ paths, Clean path.buffered := by
  induction paths generalizing mem oldpath oldcount rounds n with
  | nil =>
    have done : codePaths table.bytes rounds oldpath oldcount (Path.lines []) = [] := by
      cases rounds with
      | zero => rfl
      | succ rounds => rfl
    rw [done, decodePaths]
    exact ⟨fun _ _ wrong => absurd wrong List.not_mem_nil, fun _ => rfl⟩
  | cons path paths ih =>
    have lines : Path.lines (path :: paths) = path.bytes ++ 0x0a :: Path.lines paths := by
      simp [Path.lines]
    rw [lines] at enough fuel ⊢
    simp only [List.length_append, List.length_cons] at enough
    obtain ⟨rounds, rfl⟩ :=
      Nat.exists_eq_succ_of_ne_zero (Nat.ne_of_gt (Nat.lt_of_lt_of_le (Nat.succ_pos _) enough))
    have coded :
        codePaths table.bytes (rounds + 1) oldpath oldcount
          (path.bytes ++ 0x0a :: Path.lines paths) =
        putCount (skip path.buffered oldpath - oldcount + OFFSET) ++
          putResidue table.bytes (path.buffered.drop (skip path.buffered oldpath)) ++
            codePaths table.bytes rounds path.buffered (skip path.buffered oldpath : Nat)
              (Path.lines paths) := by
      rw [codePaths, fgets_line]
      rfl
    rw [coded] at fuel ⊢
    have some := putCount_length (skip path.buffered oldpath - oldcount + OFFSET)
    simp only [List.length_append] at fuel
    obtain ⟨n, rfl⟩ := Nat.exists_eq_succ_of_ne_zero (Nat.ne_of_gt (by lia : 0 < n))
    obtain ⟨mem', left, s, record, same, onward⟩ :=
      @decodePaths_record mem oldpath table path _ rest oldcount n ready clean
      small
      (@codePaths_low _ table.bytes rounds (skip path.buffered oldpath : Nat) (Path.lines paths))
    have within := Nat.lt_of_le_of_lt (@skip_le path.buffered oldpath) path.buffered_length
    have rest (clear : Clean path.buffered) :=
      @ih mem' path.buffered (skip path.buffered oldpath) rounds n
        (onward clear).2 clear (Nat.lt_of_lt_of_le within (Nat.sub_le _ _)) (by lia) (by lia)
    rw [record, List.forall_mem_cons]
    constructor
    · intro decoded
      obtain ⟨others, found, eq⟩ := Option.map_eq_some_iff.mp decoded
      obtain ⟨here, rfl⟩ := List.cons.inj eq
      have clear := same.mp here
      rw [(onward clear).1] at found
      exact ⟨clear, (rest clear).mp found⟩
    · rintro ⟨clear, others⟩
      rw [(onward clear).1, (rest clear).mpr others, same.mpr clear]
      rfl

end Records

section Databases

theorem getLine_full {bytes : List Byte} (proper : ∀ c ∈ bytes, c ≠ 0x0a) :
    getLine bytes.length bytes = (bytes, []) := by
  induction bytes with
  | nil => rfl
  | cons c bytes ih =>
    obtain ⟨other, proper⟩ := List.forall_mem_cons.mp proper
    rw [List.length_cons, getLine, if_neg other, ih proper]

theorem code_eq (table : Table) (stdin : List Byte) :
    code table.bytes stdin = table.bytes ++ codePaths table.bytes stdin.length [0x20] 0 stdin := by
  have full := table.full
  have proper : ∀ c ∈ table.bytes, c ≠ 0x0a := by
    rintro c member rfl
    exact absurd (table.between _ member).1 (by decide)
  have some : table.bytes ≠ [] := by
    intro none
    rw [none] at full
    cases full
  have read : fgets (BGBUFSIZE + 1) table.bytes = Option.some (table.bytes, []) := by
    rw [fgets, if_neg some, Nat.add_sub_cancel, ← full, getLine_full proper]
  unfold code
  rw [read]
  dsimp only [Option.map_some, Option.getD_some]
  rw [← full, List.take_left]

/-- What the database gives back is the list as the encoder's buffer has had it, just when no path
has a character from 0x81 to 0x9e, before the first that becomes a NUL. -/
theorem decode_code_iff (table : Table) (paths : List Path) (mem : Nat → Byte) :
    decode mem (code table.bytes (Path.lines paths)) = some (paths.map Path.buffered) ↔
      ∀ path ∈ paths, ∀ c ∈ path.bytes.takeWhile (· ≠ 0x80),
        ¬ (0x81 ≤ c.toNat ∧ c.toNat ≤ 0x9e) := by
  have full : table.bytes.length = 2 * NBG := table.full
  rw [code_eq, decode]
  rw [← full, List.drop_left]
  refine (@decodePaths_iff mem [0x20] table paths _ 0 _ _ (ready_blank mem) (by decide) (by decide)
    (Nat.le_refl _)
    (Nat.le_refl _)).trans (forall₂_congr fun path _ => path.clean_iff)

/-- A character of a path that becomes a count. -/
theorem decode_code_masked : ¬ ∀ (table : Table) (paths : List Path) (mem : Nat → Byte),
    decode mem (code table.bytes (Path.lines paths)) = some (paths.map Path.buffered) := by
  intro all
  have between : ∀ c ∈ List.replicate 256 (0x61 : Byte), SWITCH < c.toNat ∧ c.toNat < PARITY := by
    intro c member
    rw [List.eq_of_mem_replicate member]
    decide
  have wrong : decode (fun _ => 0) (code (List.replicate 256 0x61) [0x2f, 0x61, 0x85, 0x62, 0x0a]) =
      some [buffer [0x2f, 0x61, 0x85, 0x62, 0x0a]] :=
    all ⟨List.replicate 256 0x61, List.length_replicate, between⟩
      [⟨[0x2f, 0x61, 0x85, 0x62], rfl, by decide, by decide⟩] fun _ => 0
  exact absurd wrong (by decide +kernel)

end Databases

end FreeBsd.Locate
