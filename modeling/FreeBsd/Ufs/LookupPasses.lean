import FreeBsd.Ufs.Lookup

/-! A search of a directory that starts where the last one ended, and goes on from the front, finds
what a search from the front finds. -/
namespace FreeBsd.Ufs

open FreeBsd.Lib

section Layout

variable {fs : Fs} {read : Nat → Except Nat DirBuf} {o m stop : Nat} {es rest : List (Nat × Direct)}

inductive Entries (fs : Fs) (read : Nat → Except Nat DirBuf) : Nat → Nat → List (Nat × Direct) →
    Prop where
  | nil (o : Nat) : Entries fs read o o []
  | cons {o stop : Nat} {rest : List (Nat × Direct)} {bp : DirBuf} {ep : Direct} :
      read (fs.lblkno o) = .ok bp → fs.blkoff o + 8 ≤ bp.mapped → bp.direct (fs.blkoff o) = ep →
      dirbadentry ep (fs.blkoff o) = false → Entries fs read (o + ep.reclen) stop rest →
      Entries fs read o stop ((o, ep) :: rest)

/-- A directory of whole chunks of `DIRBLKSIZ`, each filled by its entries, with no name twice. -/
structure DirLayout (fs : Fs) (read : Nat → Except Nat DirBuf) (size : Nat)
    (entries : Nat → List (Nat × Direct)) :
    Prop where
  whole : DIRBLKSIZ ∣ size
  small : size < 2 ^ 31
  filled : ∀ k, DIRBLKSIZ * k < size →
    Entries fs read (DIRBLKSIZ * k) (DIRBLKSIZ * (k + 1)) (entries k)
  once : ∀ ndp k k' x x', DIRBLKSIZ * k < size → DIRBLKSIZ * k' < size → x ∈ entries k →
    x' ∈ entries k' →
    x.2.named ndp → x'.2.named ndp → x = x'

theorem Entries.le (entries : Entries fs read o stop es) : o ≤ stop := by
  induction entries with
  | nil o => exact Nat.le_refl o
  | cons _ _ _ _ _ ih => omega

theorem reclen_bounds {ep : Direct} {loc : Nat} (sane : dirbadentry ep loc = false) :
    0 < ep.reclen ∧ DIRSIZ ep ≤ ep.reclen ∧ ep.reclen ≤ DIRBLKSIZ - loc % DIRBLKSIZ := by
  unfold dirbadentry at sane
  split at sane
  · cases sane
  · rename_i bounds
    have enough : 8 ≤ DIRSIZ ep := Nat.le_add_right 8 _
    lia

theorem bsize_chunks (fs : Fs) : ∃ q, fs.bsize = DIRBLKSIZ * q := by
  have bound := fs.le_bshift
  refine ⟨2 ^ (fs.bshift - 9), ?_⟩
  rw [show DIRBLKSIZ = 2 ^ 9 from rfl, ← Nat.pow_add]
  exact congrArg (2 ^ ·) (by omega)

theorem next_place (fs : Fs) {ep : Direct} (sane : dirbadentry ep (fs.blkoff o) = false) :
    fs.blkoff (o + ep.reclen) = 0 ∨
      fs.lblkno (o + ep.reclen) = fs.lblkno o ∧
        fs.blkoff (o + ep.reclen) = fs.blkoff o + ep.reclen := by
  obtain ⟨positive, -, inside⟩ := reclen_bounds sane
  obtain ⟨q, chunks⟩ := bsize_chunks fs
  have room : 0 < fs.bsize := Nat.two_pow_pos _
  have below : o % fs.bsize < fs.bsize := Nat.mod_lt _ room
  have within : o % fs.bsize + ep.reclen ≤ fs.bsize := by
    have split := Nat.div_add_mod (o % fs.bsize) DIRBLKSIZ
    have quotient : o % fs.bsize / DIRBLKSIZ < q := by
      rw [Nat.div_lt_iff_lt_mul (by decide), Nat.mul_comm, ← chunks]
      exact below
    have step : DIRBLKSIZ * (o % fs.bsize / DIRBLKSIZ + 1) ≤ DIRBLKSIZ * q :=
      Nat.mul_le_mul_left _ quotient
    rw [Nat.mul_add, ← chunks] at step
    have last : o % fs.bsize % DIRBLKSIZ < DIRBLKSIZ := Nat.mod_lt _ (by decide)
    unfold Fs.blkoff at inside
    lia
  have split := Nat.div_add_mod o fs.bsize
  unfold Fs.blkoff Fs.lblkno
  rw [Nat.shiftRight_eq_div_pow, Nat.shiftRight_eq_div_pow]
  change _ ∨ (o + ep.reclen) / fs.bsize = o / fs.bsize ∧ _
  have place : o + ep.reclen = fs.bsize * (o / fs.bsize) + (o % fs.bsize + ep.reclen) := by lia
  rcases Nat.lt_or_ge (o % fs.bsize + ep.reclen) fs.bsize with inner | outer
  · right
    constructor
    · rw [place, Nat.mul_add_div room, Nat.div_eq_of_lt inner, Nat.add_zero]
    · rw [place, Nat.mul_add_mod, Nat.mod_eq_of_lt inner]
  · left
    rw [place, Nat.mul_add_mod, show o % fs.bsize + ep.reclen = fs.bsize by lia, Nat.mod_self]

end Layout

section Passes

variable {dirchk : Bool} {dp : DirInode} {ndp : Nameidata} {s t : DirSearch} {ep : Direct}
    {bp : DirBuf} {o stop : Nat}
  {es : List (Nat × Direct)} {entries : Nat → List (Nat × Direct)}

/-- A search for a name only, at the offset `o`: in the buffer of its block, unless that comes next.
-/
structure At (dp : DirInode) (s : DirSearch) (o : Nat) : Prop where
  offset : s.offset = o
  slot : s.slotstatus = .found
  held : dp.fs.blkoff o = 0 ∨
    ∃ bp, s.bp = some bp ∧ dp.read (dp.fs.lblkno o) = .ok bp ∧ s.entryoffsetinblock = dp.fs.blkoff o

theorem blkoffOf_eq (fs : Fs) (o : Nat) : blkoffOf fs o = fs.blkoff o := by
  unfold blkoffOf Fs.blkoff
  rw [← Int.natCast_mod, Int.toNat_natCast]

theorem countAnew_found (slot : s.slotstatus = .found) : countAnew s = s := by
  unfold countAnew
  rw [if_neg]
  rw [slot]
  exact fun none => by cases none.1

theorem At.nextBlock (place : At dp s o) (there : dp.read (dp.fs.lblkno o) = .ok bp) :
    nextBlock dp s = .ok { s with bp := some bp, entryoffsetinblock := dp.fs.blkoff o } := by
  have read : blkatoff dp s.offset = .ok bp := by
    rw [blkatoff, place.offset, if_neg (show ¬ (o : Int) < 0 by omega), Int.toNat_natCast, there]
  have loc : blkoffOf dp.fs s.offset = dp.fs.blkoff o := by rw [place.offset, blkoffOf_eq]
  unfold Ufs.nextBlock
  rw [read, loc]
  split
  · rename_i boundary
    dsimp only
    rw [countAnew_found (show DirSearch.slotstatus { s with bp := some bp,
                                                            entryoffsetinblock := 0 } =
                                                            .found from place.slot),
      boundary]
  · rename_i inside
    rcases place.held with boundary | ⟨bp', buffer, there', entry⟩
    · exact absurd boundary inside
    · rw [there, Except.ok.injEq] at there'
      rw [countAnew_found place.slot, there', ← buffer, ← entry]

theorem noteSlot_found (slot : s.slotstatus = .found) : noteSlot ndp ep s = s := by
  unfold noteSlot
  dsimp only
  rw [if_pos (.inl slot)]

/-- A turn at an entry: the name is found there, or the search is at the next. -/
theorem At.turn (place : At dp s o) (there : dp.read (dp.fs.lblkno o) = .ok bp)
    (mapped : dp.fs.blkoff o + 8 ≤ bp.mapped) (entry : bp.direct (dp.fs.blkoff o) = ep)
    (sane : dirbadentry ep (dp.fs.blkoff o) = false) (inside : o + ep.reclen ≤ dp.size)
    (small : dp.size < 2 ^ 31) (more : (o : Int) < s.endsearch) :
    (ep.named ndp ∧ ∃ u, searchStep dirchk dp ndp s = .halt (.found u ep) ∧ u.offset = o ∧
      u.entryoffsetinblock + DIRSIZ ep ≤ dp.size) ∨
    (¬ ep.named ndp ∧ ∃ t, searchStep dirchk dp ndp s = .next t ∧ At dp t (o + ep.reclen) ∧
      t.numdirpasses = s.numdirpasses ∧ t.endsearch = s.endsearch) := by
  obtain ⟨positive, size, -⟩ := reclen_bounds sane
  have low : dp.fs.blkoff o ≤ o := Nat.mod_le _ _
  have wrapped : wrap32 (s.offset + ep.reclen) = (o + ep.reclen : Nat) := by
    rw [place.offset, wrap32_eq (by lia) (by lia), Nat.cast_add]
  unfold searchStep
  rw [if_pos (by rw [place.offset]; exact more), place.nextBlock there]
  generalize block : ({ s with bp := some bp, entryoffsetinblock := dp.fs.blkoff o } : DirSearch) =
    u
  have buffer : u.bp = some bp := by rw [← block]
  have loc : u.entryoffsetinblock = dp.fs.blkoff o := by rw [← block]
  have slot : u.slotstatus = .found := by rw [← block]; exact place.slot
  have offset : u.offset = s.offset := by rw [← block]
  have passes : u.numdirpasses = s.numdirpasses := by rw [← block]
  have endsearch : u.endsearch = s.endsearch := by rw [← block]
  dsimp only
  rw [buffer]
  dsimp only
  rw [loc, if_neg (by lia), entry, sane, if_neg (by simp; lia), noteSlot_found slot]
  split
  · rename_i named
    refine .inl ⟨named, u, ?_, offset.trans place.offset, by lia⟩
    rw [foundName, loc, if_neg (by lia)]
  · rename_i other
    have held : dp.fs.blkoff (o + ep.reclen) = 0 ∨ ∃ bp, u.bp = some bp ∧
        dp.read (dp.fs.lblkno (o + ep.reclen)) = .ok bp ∧
        u.entryoffsetinblock + ep.reclen = dp.fs.blkoff (o + ep.reclen) := by
      rcases next_place dp.fs sane with boundary | ⟨same, behind⟩
      · exact .inl boundary
      · exact .inr ⟨bp, buffer, by rw [same, there], by rw [behind, loc]⟩
    rw [← offset] at wrapped
    refine .inr ⟨other, _, rfl, ?_⟩
    split
    · exact ⟨⟨wrapped, slot, held⟩, passes, endsearch⟩
    · exact ⟨⟨wrapped, slot, held⟩, passes, endsearch⟩

/-- The name is found in the entry, which the directory is long enough for. -/
def FindsName (dirchk : Bool) (dp : DirInode) (ndp : Nameidata) (s : DirSearch) (x : Nat × Direct) :
    Prop :=
  ∃ t u, Reaches (searchStep dirchk dp ndp) s t ∧
    searchStep dirchk dp ndp t = .halt (.found u x.2) ∧
    u.offset = x.1 ∧ u.entryoffsetinblock + DIRSIZ x.2 ≤ dp.size

def ComesTo (dirchk : Bool) (dp : DirInode) (ndp : Nameidata) (s : DirSearch) (o : Nat) : Prop :=
  ∃ t, Reaches (searchStep dirchk dp ndp) s t ∧ At dp t o ∧ t.numdirpasses = s.numdirpasses ∧
    t.endsearch = s.endsearch

theorem At.pass (walk : Entries dp.fs dp.read o stop es) (place : At dp s o)
    (inside : stop ≤ dp.size) (small : dp.size < 2 ^ 31) (more : (stop : Int) ≤ s.endsearch) :
    (∃ x ∈ es, x.2.named ndp ∧ FindsName dirchk dp ndp s x) ∨
    (∀ x ∈ es, ¬ x.2.named ndp) ∧ ComesTo dirchk dp ndp s stop := by
  induction walk generalizing s with
  | nil o => exact .inr ⟨fun x member => absurd member List.not_mem_nil, s, .refl s, place, rfl,
    rfl⟩
  | @cons o stop rest bp ep there mapped entry sane walk ih =>
    obtain ⟨positive, -, -⟩ := reclen_bounds sane
    have bound := walk.le
    rcases place.turn there mapped entry sane (by lia) small (by lia) with
      ⟨named, u, found, offset⟩ | ⟨other, t, step, place, passes, endsearch⟩
    · exact .inl ⟨(o, ep), List.mem_cons_self, named, s, u, .refl s, found, offset⟩
    · rcases ih place inside (by rw [endsearch]; exact more) with
        ⟨x, member, named, v, u, reached, found, offset⟩ | ⟨others, v, reached, placed, passes',
          endsearch'⟩
      · exact .inl ⟨x, List.mem_cons_of_mem _ member, named, v, u, reached.head step, found, offset⟩
      · refine .inr ⟨List.forall_mem_cons.mpr ⟨other, others⟩, v, reached.head step, placed, ?_, ?_⟩
        · rw [passes', passes]
        · rw [endsearch', endsearch]

theorem At.chunks (layout : DirLayout dp.fs dp.read dp.size entries) {k n : Nat}
    (place : At dp s (DIRBLKSIZ * k)) (inside : DIRBLKSIZ * (k + n) ≤ dp.size)
    (more : (DIRBLKSIZ * (k + n) : Nat) ≤ s.endsearch) :
    (∃ j, k ≤ j ∧ j < k + n ∧ ∃ x ∈ entries j, x.2.named ndp ∧ FindsName dirchk dp ndp s x) ∨
    (∀ j, k ≤ j → j < k + n → ∀ x ∈ entries j, ¬ x.2.named ndp) ∧
      ComesTo dirchk dp ndp s (DIRBLKSIZ * (k + n)) := by
  induction n with
  | zero => exact .inr ⟨fun j low high => by lia, s, .refl s, place, rfl, rfl⟩
  | succ n ih =>
    have next : DIRBLKSIZ * (k + n) + DIRBLKSIZ = DIRBLKSIZ * (k + (n + 1)) := by
      rw [← Nat.add_assoc, Nat.mul_add DIRBLKSIZ (k + n) 1, Nat.mul_one]
    have positive : 0 < DIRBLKSIZ := by decide
    rcases ih (by lia) (by lia) with ⟨j, low, high, found⟩ | ⟨others, t, reached, placed, passes,
      endsearch⟩
    · exact .inl ⟨j, low, by lia, found⟩
    · rcases placed.pass (layout.filled (k + n) (by lia)) inside layout.small
        (by rw [endsearch]; exact more) with
        ⟨x, member, named, v, u, reached', found, offset⟩ | ⟨last, v, reached', placed', passes',
          endsearch'⟩
      · exact .inl
          ⟨k + n, by lia, by lia, x, member, named, v, u, reached.trans reached', found, offset⟩
      · refine .inr ⟨?_, v, reached.trans reached', placed', ?_, ?_⟩
        · intro j low high
          rcases Nat.lt_or_ge j (k + n) with before | at_
          · exact others j low before
          · rw [show j = k + n by lia]
            exact last
        · rw [passes', passes]
        · rw [endsearch', endsearch]

def Looked.answer : Looked → Option (Option (Nat × Int))
  | .found s ep => some (some (ep.ino, s.offset))
  | .notfound _ => some none
  | .error _ | .panic | .fault => none

/-- What a search of the directory may answer: the one entry of the name, or that there is none. -/
def Answers (size : Nat) (entries : Nat → List (Nat × Direct)) (ndp : Nameidata) :
    Option (Nat × Int) → Prop
  | some (ino, offset) => ∃ j x, DIRBLKSIZ * j < size ∧ x ∈ entries j ∧ x.2.named ndp ∧
    x.2.ino = ino ∧ (x.1 : Int) = offset
  | none => ∀ j, DIRBLKSIZ * j < size → ∀ x ∈ entries j, ¬ x.2.named ndp

theorem Answers.unique (layout : DirLayout dp.fs dp.read dp.size entries)
    {first second : Option (Nat × Int)} (one : Answers dp.size entries ndp first)
    (two : Answers dp.size entries ndp second) : first = second := by
  cases first with
  | none =>
    cases second with
    | none => rfl
    | some place =>
      obtain ⟨j, x, inside, member, named, -⟩ := two
      exact absurd named (one j inside x member)
  | some place =>
    obtain ⟨j, x, inside, member, named, ino, offset⟩ := one
    cases second with
    | none => exact absurd named (two j inside x member)
    | some place' =>
      obtain ⟨j', x', inside', member', named', ino', offset'⟩ := two
      have same := layout.once ndp j j' x x' inside inside' member member' named named'
      rw [← same] at ino' offset'
      exact congrArg some (Prod.ext (ino.symm.trans ino') (offset.symm.trans offset'))

theorem FindsName.run {x : Nat × Direct} (finds : FindsName dirchk dp ndp s x) :
    ∃ turns looked, run (searchStep dirchk dp ndp) turns s = some looked ∧
      looked.answer = some (some (x.2.ino, (x.1 : Int))) ∧ (looked.kept dp ndp).1 = dp.size := by
  obtain ⟨t, u, reached, last, offset, long⟩ := finds
  obtain ⟨turns, halts⟩ := run_of_reaches reached last
  refine ⟨turns, _, halts, by rw [Looked.answer, offset], ?_⟩
  exact if_neg (Nat.not_lt.mpr long)

/-- The last pass, to the end of the directory or to where the first began. -/
theorem At.lastPass (layout : DirLayout dp.fs dp.read dp.size entries) {n : Nat} (place : At dp s 0)
    (inside : DIRBLKSIZ * n ≤ dp.size) (last : s.endsearch = (DIRBLKSIZ * n : Nat))
    (one : s.numdirpasses = 1) :
    (∃ j < n, ∃ x ∈ entries j, x.2.named ndp ∧ FindsName dirchk dp ndp s x) ∨
    (∀ j < n, ∀ x ∈ entries j, ¬ x.2.named ndp) ∧ ∃ t u, Reaches (searchStep dirchk dp ndp) s t ∧
      searchStep dirchk dp ndp t = .halt (.notfound u) := by
  have place : At dp s (DIRBLKSIZ * 0) := place
  rw [← Nat.zero_add n] at inside last
  rcases place.chunks layout inside (Int.le_of_eq last.symm) with ⟨j, -, below, x, member, found⟩ |
    ⟨others, t, reached, placed, passes, endsearch⟩
  · exact .inl ⟨j, by lia, x, member, found⟩
  · refine .inr ⟨fun j below => others j (Nat.zero_le j) (by lia), t, t, reached, ?_⟩
    unfold searchStep
    rw [placed.offset, endsearch, last, if_neg (by lia), passes, one, if_neg (by decide)]

theorem blkoff_zero (fs : Fs) : fs.blkoff 0 = 0 := Nat.zero_mod _

/-- The search from a state on answers, and leaves the directory as long as it was. -/
def AnswersFrom (dirchk : Bool) (dp : DirInode) (ndp : Nameidata)
    (entries : Nat → List (Nat × Direct)) (s : DirSearch) : Prop :=
  ∃ turns looked answer, run (searchStep dirchk dp ndp) turns s = some looked ∧
    looked.answer = some answer ∧ Answers dp.size entries ndp answer ∧
    (looked.kept dp ndp).1 = dp.size

theorem FindsName.answers {j : Nat} {x : Nat × Direct} (finds : FindsName dirchk dp ndp s x)
    (inside : DIRBLKSIZ * j < dp.size) (member : x ∈ entries j) (named : x.2.named ndp) :
      AnswersFrom dirchk dp ndp entries s := by
  obtain ⟨turns, looked, halts, answer, size⟩ := finds.run
  exact ⟨turns, looked, _, halts, answer, ⟨j, x, inside, member, named, rfl, rfl⟩, size⟩

theorem At.onePass (layout : DirLayout dp.fs dp.read dp.size entries) {n : Nat}
    (size : dp.size = DIRBLKSIZ * n) (place : At dp s 0)
    (last : s.endsearch = (DIRBLKSIZ * n : Nat)) (one : s.numdirpasses = 1) :
    AnswersFrom dirchk dp ndp entries s := by
  have positive : 0 < DIRBLKSIZ := by decide
  rcases place.lastPass layout (Nat.le_of_eq size.symm) last one with ⟨j, below, x, member, named,
    finds⟩ | ⟨others, t, u, reached, stop⟩
  · exact finds.answers (by rw [size]; exact Nat.mul_lt_mul_of_pos_left below positive) member named
  · obtain ⟨turns, halts⟩ := run_of_reaches reached stop
    refine ⟨turns, _, none, halts, rfl, fun j inside => others j ?_, rfl⟩
    rw [size] at inside
    exact Nat.lt_of_mul_lt_mul_left inside

theorem At.twoPasses (layout : DirLayout dp.fs dp.read dp.size entries) {k n : Nat}
    (size : dp.size = DIRBLKSIZ * (k + n)) (start : dp.diroff = (DIRBLKSIZ * k : Nat))
    (place : At dp s (DIRBLKSIZ * k)) (last : s.endsearch = (DIRBLKSIZ * (k + n) : Nat))
    (two : s.numdirpasses = 2) :
    AnswersFrom dirchk dp ndp entries s := by
  have positive : 0 < DIRBLKSIZ := by decide
  rcases place.chunks layout (Nat.le_of_eq size.symm) (Int.le_of_eq last.symm) with
    ⟨j, -, below, x, member, named, finds⟩ | ⟨behind, t, reached, placed, passes, endsearch⟩
  · exact finds.answers (by rw [size]; exact Nat.mul_lt_mul_of_pos_left below positive) member named
  · have turn : searchStep dirchk dp ndp t = .next { t with numdirpasses := 1, offset := 0,
                                                            endsearch := dp.diroff } := by
      unfold searchStep
      rw [placed.offset, endsearch, last, if_neg (by omega), if_pos (passes.trans two)]
    have front : At dp { t with numdirpasses := 1, offset := 0, endsearch := dp.diroff } 0 :=
      ⟨rfl, placed.slot, .inl (blkoff_zero dp.fs)⟩
    have shorter : DIRBLKSIZ * k ≤ dp.size := by
      rw [size]
      exact Nat.mul_le_mul_left _ (Nat.le_add_right k n)
    rcases front.lastPass layout shorter start rfl with ⟨j, below, x, member, named, v, u, further,
      found, offset⟩ | ⟨others, v, u, further, stop⟩
    · have finds : FindsName dirchk dp ndp s x :=
        ⟨v, u, (reached.tail turn).trans further, found, offset⟩
      exact finds.answers (Nat.lt_of_lt_of_le (Nat.mul_lt_mul_of_pos_left below positive) shorter)
        member named
    · obtain ⟨turns, halts⟩ := run_of_reaches ((reached.tail turn).trans further) stop
      refine ⟨turns, _, none, halts, rfl, fun j inside => ?_, rfl⟩
      rw [size] at inside
      have below : j < k + n := Nat.lt_of_mul_lt_mul_left inside
      rcases Nat.lt_or_ge j k with before | after
      · exact others j before
      · exact behind j after below

theorem DirLayout.readable (layout : DirLayout dp.fs dp.read dp.size entries) {k : Nat}
    (inside : DIRBLKSIZ * (k + 1) ≤ dp.size) (inner : dp.fs.blkoff (DIRBLKSIZ * (k + 1)) ≠ 0) :
    ∃ bp, dp.read (dp.fs.lblkno (DIRBLKSIZ * (k + 1))) = .ok bp := by
  have positive : 0 < DIRBLKSIZ := by decide
  obtain ⟨q, chunks⟩ := bsize_chunks dp.fs
  have same : dp.fs.lblkno (DIRBLKSIZ * (k + 1)) = dp.fs.lblkno (DIRBLKSIZ * k) := by
    unfold Fs.blkoff at inner
    unfold Fs.lblkno
    rw [Nat.shiftRight_eq_div_pow, Nat.shiftRight_eq_div_pow]
    change _ / dp.fs.bsize = _ / dp.fs.bsize
    rw [chunks, Nat.mul_mod_mul_left] at inner
    rw [chunks, Nat.mul_div_mul_left _ _ positive, Nat.mul_div_mul_left _ _ positive]
    exact Nat.succ_div_of_not_dvd fun divides =>
      inner (by rw [Nat.mod_eq_zero_of_dvd divides, Nat.mul_zero])
  have more : DIRBLKSIZ * (k + 1) = DIRBLKSIZ * k + DIRBLKSIZ := Nat.mul_succ DIRBLKSIZ k
  have walk := layout.filled k (by lia)
  generalize next : DIRBLKSIZ * (k + 1) = stop at walk
  generalize entries k = es at walk
  cases walk with
  | nil => lia
  | cons there => exact ⟨_, by rw [← next, same]; exact there⟩

/-- Where a search for a name starts: at the front, or at a chunk of the directory. -/
theorem searchStart_place (layout : DirLayout dp.fs dp.read dp.size entries) {n : Nat}
    (size : dp.size = DIRBLKSIZ * n) (aligned : (DIRBLKSIZ : Int) ∣ dp.diroff)
    (op : ndp.op = .lookup) :
    ∃ s, searchStart dp ndp = .inr s ∧ s.endsearch = (DIRBLKSIZ * n : Nat) ∧
      (At dp s 0 ∧ s.numdirpasses = 1 ∨ ∃ k m, n = k + m ∧ dp.diroff = (DIRBLKSIZ * k : Nat) ∧
        At dp s (DIRBLKSIZ * k) ∧ s.numdirpasses = 2) := by
  obtain ⟨k, start⟩ := aligned
  have small := layout.small
  have low := dp.le_diroff
  have high := dp.diroff_lt
  have rounded : wrap32 (roundupDir dp.size) = (DIRBLKSIZ * n : Nat) := by
    have whole : roundupDir dp.size = dp.size := by
      unfold roundupDir
      unfold DIRBLKSIZ at *
      lia
    rw [whole, wrap32_eq (by lia) (by lia), size]
  have slot : ¬ ((ndp.op = .create ∨ ndp.op = .rename) ∧ ndp.last) := by
    rw [op]
    simp
  unfold searchStart
  rw [rounded, if_neg slot]
  dsimp only
  by_cases front : ndp.op ≠ .lookup ∨ dp.diroff = 0 ∨ (dp.diroff % 2 ^ 32).toNat > dp.size
  · rw [if_pos front]
    exact ⟨_, rfl, rfl, .inl ⟨⟨rfl, rfl, .inl (blkoff_zero dp.fs)⟩, rfl⟩⟩
  · rw [if_neg front]
    have bounds : 0 < dp.diroff ∧ dp.diroff ≤ dp.size := by
      simp only [not_or, Decidable.not_not] at front
      lia
    obtain ⟨k, rfl⟩ := Int.eq_ofNat_of_zero_le (show 0 ≤ k by unfold DIRBLKSIZ at start; lia)
    have start : dp.diroff = (DIRBLKSIZ * k : Nat) := by rw [start, Nat.cast_mul]
    have shorter : DIRBLKSIZ * k ≤ DIRBLKSIZ * n := by lia
    obtain ⟨m, rfl⟩ := Nat.exists_eq_add_of_le (Nat.le_of_mul_le_mul_left shorter (by decide))
    have loc : blkoffOf dp.fs dp.diroff = dp.fs.blkoff (DIRBLKSIZ * k) := by rw [start, blkoffOf_eq]
    rw [loc]
    by_cases boundary : dp.fs.blkoff (DIRBLKSIZ * k) = 0
    · rw [if_neg (not_not.mpr boundary)]
      exact ⟨_, rfl, rfl, .inr ⟨k, m, rfl, start, ⟨start, rfl, .inl boundary⟩, rfl⟩⟩
    · rw [if_pos boundary]
      obtain ⟨j, rfl⟩ : ∃ j, k = j + 1 := Nat.exists_eq_succ_of_ne_zero (by rintro rfl; lia)
      obtain ⟨bp, there⟩ := layout.readable (by lia) boundary
      have read : blkatoff dp dp.diroff = .ok bp := by
        rw [blkatoff, start, if_neg (by lia), Int.toNat_natCast, there]
      rw [read]
      exact ⟨_, rfl, rfl, .inr ⟨j + 1, m, rfl, start, ⟨start, rfl, .inr ⟨bp, rfl, there, rfl⟩⟩,
        rfl⟩⟩

/-- A search for a name in a well-formed directory answers, wherever it starts. -/
theorem ufsLookup_answers (layout : DirLayout dp.fs dp.read dp.size entries)
    (aligned : (DIRBLKSIZ : Int) ∣ dp.diroff) (op : ndp.op = .lookup) :
      ∃ turns looked answer, ufsLookup dirchk dp ndp turns = some looked ∧
      looked.answer = some answer ∧ Answers dp.size entries ndp answer ∧
      (looked.kept dp ndp).1 = dp.size := by
  obtain ⟨n, size⟩ := layout.whole
  obtain ⟨s, start, last, place⟩ := searchStart_place layout size aligned op
  unfold ufsLookup
  rw [start]
  rcases place with ⟨place, one⟩ | ⟨k, m, rfl, diroff, place, two⟩
  · exact place.onePass layout size last one
  · exact place.twoPasses layout size diroff last two

theorem kept_aligned (looked : Looked) (aligned : (DIRBLKSIZ : Int) ∣ dp.diroff) :
    (DIRBLKSIZ : Int) ∣ (looked.kept dp ndp).2 := by
  cases looked with
  | found s ep =>
    unfold Looked.kept
    dsimp only
    split
    · exact Int.dvd_mul_left _ _
    · exact aligned
  | notfound s | error errno | panic | fault => exact aligned

def DirInode.rewound (dp : DirInode) : DirInode where
  fs := dp.fs
  ronly := dp.ronly
  size := dp.size
  diroff := 0
  read := dp.read
  size_lt := dp.size_lt
  le_diroff := by norm_num
  diroff_lt := by norm_num

/-- A search ends whatever the directory holds. In a well-formed directory one that starts where
the last one ended, at any chunk, and one from the front both answer with the one entry of the name,
or that there is none; and the directory they leave can be searched in the same way again. -/
theorem ufs_lookup_two_passes :
    (∀ dirchk dp ndp, ∃ turns looked, ufsLookup dirchk dp ndp turns = some looked) ∧
    ∀ dirchk dp ndp entries, DirLayout dp.fs dp.read dp.size entries →
    (DIRBLKSIZ : Int) ∣ dp.diroff →
      ndp.op = .lookup →
      ∃ turns looked turns' looked' answer, ufsLookup dirchk dp ndp turns = some looked ∧
        ufsLookup dirchk dp.rewound ndp turns' = some looked' ∧
        looked.answer = some answer ∧ looked'.answer = some answer ∧
        Answers dp.size entries ndp answer ∧
        (looked.kept dp ndp).1 = dp.size ∧ (DIRBLKSIZ : Int) ∣ (looked.kept dp ndp).2 := by
  refine ⟨ufsLookup_halts, ?_⟩
  intro dirchk dp ndp entries layout aligned op
  have front : DirLayout dp.rewound.fs dp.rewound.read dp.rewound.size entries := layout
  obtain ⟨turns, looked, answer, halts, answers, one, size⟩ :=
    @ufsLookup_answers dirchk dp ndp entries layout aligned op
  obtain ⟨turns', looked', answer', halts', answers', two, -⟩ :=
    @ufsLookup_answers dirchk dp.rewound ndp entries front (Int.dvd_zero _) op
  refine ⟨turns, looked, turns', looked', answer, halts, halts', answers, ?_, one, size, ?_⟩
  · rw [answers', one.unique layout two]
  · exact kept_aligned looked aligned

theorem eleven_le : 11 ≤ 13 := by decide

def chunkFs : Fs where
  bshift := 13
  fshift := 10
  size := 64
  ncg := 1
  nbpg := 8
  nspf := 2
  spc := 2
  nsect := 2
  npsect := 2
  trackskew := 0
  interleave := 1
  nrpos := 1
  cpc := 0
  postbl := fun _ _ => 0
  rotbl := fun _ => 0
  bshift_le := by decide
  le_bshift := eleven_le
  le_fshift := by decide
  fshift_le := by decide
  frag_le := by decide
  ncg_pos := Nat.one_pos
  nbpg_pos := by decide

/-- Two chunks with an entry of 512 bytes each: `a`, inode 2, and `b`, inode 3. -/
def twoNames : DirBuf where
  bytes
    | 0 => 2
    | 5 => 2
    | 6 => 1
    | 8 => 97
    | 512 => 3
    | 517 => 2
    | 518 => 1
    | 520 => 98
    | _ => 0
  mapped := 1024
  mapped_le := by norm_num

def twoChunks : DirInode where
  fs := chunkFs
  ronly := true
  size := 1024
  diroff := 512
  read lbn := if lbn = 0 then .ok twoNames else .error EFBIG
  size_lt := by norm_num
  le_diroff := by norm_num
  diroff_lt := by norm_num

def twoEntries (k : Nat) : List (Nat × Direct) := [(512 * k, twoNames.direct (512 * k))]

theorem twoChunks_layout : DirLayout twoChunks.fs twoChunks.read twoChunks.size twoEntries := by
  refine ⟨by decide, by decide, ?_, ?_⟩
  · intro k inside
    have cases : k = 0 ∨ k = 1 := by
      change 512 * k < 1024 at inside
      lia
    rcases cases with rfl | rfl
    · exact .cons (show twoChunks.read 0 = .ok twoNames from rfl) (by decide) rfl (by decide)
        (.nil 512)
    · exact .cons (show twoChunks.read 0 = .ok twoNames from rfl) (by decide) rfl (by decide)
        (.nil 1024)
  · intro ndp k k' x x' inside inside' member member' named named'
    have cases : (k = 0 ∨ k = 1) ∧ (k' = 0 ∨ k' = 1) := by
      change 512 * k < 1024 at inside
      change 512 * k' < 1024 at inside'
      lia
    cases List.mem_singleton.mp member
    cases List.mem_singleton.mp member'
    have same : (List.range _).map (twoNames.direct (512 * k)).name =
        (List.range _).map (twoNames.direct (512 * k')).name :=
      named.2.2.trans named'.2.2.symm
    rcases cases with ⟨rfl | rfl, rfl | rfl⟩
    · rfl
    · exact absurd same (by decide)
    · exact absurd same (by decide)
    · rfl

/-- The name `a`, which the first pass leaves to the second. -/
theorem ufs_lookup_two_passes_chunks : ∃ turns looked turns' looked',
    ufsLookup true twoChunks ⟨.lookup, true, [97]⟩ turns = some looked ∧
      ufsLookup true twoChunks.rewound ⟨.lookup, true, [97]⟩ turns' = some looked' ∧
      looked.answer = some (some (2, 0)) ∧ looked'.answer = some (some (2, 0)) := by
  obtain ⟨turns, looked, turns', looked', answer, halts, halts', same, same', one, -⟩ :=
    ufs_lookup_two_passes.2 true twoChunks ⟨.lookup, true, [97]⟩ twoEntries twoChunks_layout
      (by decide) rfl
  have entry : Answers twoChunks.size twoEntries ⟨.lookup, true, [97]⟩ (some (2, 0)) :=
    ⟨0, _, by decide, List.mem_singleton_self _, by decide, rfl, rfl⟩
  rw [one.unique twoChunks_layout entry] at same same'
  exact ⟨turns, looked, turns', looked', halts, halts', same, same'⟩

end Passes

end FreeBsd.Ufs
