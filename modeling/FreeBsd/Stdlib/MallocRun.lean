import FreeBsd.Stdlib.MallocSafe

/-! Runs of a program that allocates, frees, reallocates and writes to what it has. -/
namespace FreeBsd.Stdlib.Malloc

open FreeBsd.Lib

structure System where
  state : State
  live : List Live
  ranges : List (Nat × Nat)

inductive Event where
  | malloc (nbytes : Nat) (env : Sbrk)
  | free (l : Live)
  | realloc (l : Live) (nbytes : Nat) (env : Sbrk)
  /-- The program stores a byte in a block of its own. -/
  | store (x : Nat) (byte : BitVec 8)

def Stays (s : State) (cp nbytes : Nat) : Prop :=
  s.mem (cp - 4) = MAGIC ∧ nbytes ≤ onb s.pagesz (s.mem (cp - 4 + 1)).toNat ∧
    nbytes > below s.pagesz (s.mem (cp - 4 + 1)).toNat

instance (s : State) (cp nbytes : Nat) : Decidable (Stays s cp nbytes) :=
  inferInstanceAs (Decidable (_ ∧ _))

/-- The memory that an event has of `sbrk` for blocks. -/
def Event.newRanges (s : State) : Event → List (Nat × Nat)
  | malloc nbytes env => grown s nbytes env
  | realloc l nbytes env => if Stays s l.cp nbytes then [] else grown (Malloc.free s l.cp) nbytes
    env
  | _ => []

/-- A block is live until it is freed, which a `realloc` that returns `NULL` has done too. -/
def System.after (y : System) (event : Event) : System :=
  let ranges := event.newRanges y.state ++ y.ranges
  match event with
  | .malloc nbytes env =>
    let (t, cp) := malloc y.state nbytes env
    ⟨t, if cp = 0 then y.live else ⟨cp, nbytes⟩ :: y.live, ranges⟩
  | .free l => ⟨free y.state l.cp, y.live.erase l, ranges⟩
  | .realloc l nbytes env =>
    let (t, cp) := realloc y.state l.cp nbytes env
    ⟨t, if cp = 0 then y.live.erase l else ⟨cp, nbytes⟩ :: y.live.erase l, ranges⟩
  | .store x byte => ⟨{ y.state with mem := Function.update y.state.mem x byte }, y.live, ranges⟩

def Event.Allowed (y : System) (event : Event) : Prop :=
  (∀ r ∈ event.newRanges y.state, Fresh y.state.mem y.ranges r) ∧
    match event with
    | .malloc nbytes _ => nbytes < 2 ^ 32
    | .free l => l ∈ y.live
    | .realloc l nbytes _ => l ∈ y.live ∧ nbytes < 2 ^ 32
    | .store x _ => ∃ l ∈ y.live, l.cp ≤ x ∧ x < l.cp + l.n

/-- The first call has of `sbrk` what it needs to align the heap. -/
def Event.Aligns (y : System) : Event → Prop
  | malloc _ env => env.Aligns y.state
  | realloc _ _ env => env.Aligns y.state
  | _ => True

def Step (y : System) (event : Event) (z : System) : Prop := event.Allowed y ∧ z = y.after event

def AlignedStep (y : System) (event : Event) (z : System) : Prop := Step y event z ∧ event.Aligns y

def initial (mem : Memory) : System := ⟨⟨mem, fun _ => 0, 0, 0⟩, [], []⟩

/-- The addresses on a list are those of blocks of bucket `i`, apart from the ones handed out. -/
structure FreeList (y : System) (i : Nat) (xs : List Nat) : Prop where
  threads : Threads (word y.state.mem) (y.state.nextf i) xs
  nodup : xs.Nodup
  within : ∀ op ∈ xs, ∃ r ∈ y.ranges, r.1 ≤ op ∧ op + blockSize i ≤ r.2
  apart : ∀ op ∈ xs, ∀ l ∈ y.live, op + blockSize i ≤ l.cp - 4 ∨ l.cp + l.n ≤ op

/-- What is promised of the blocks handed out and of the lists of free ones. -/
structure Safe (y : System) : Prop where
  placed : ∀ l ∈ y.live, 4 ≤ l.cp ∧ l.n + 4 ≤ blockSize (y.state.mem (l.cp - 3)).toNat ∧
    ∃ r ∈ y.ranges, r.1 ≤ l.cp - 4 ∧ l.cp - 4 + blockSize (y.state.mem (l.cp - 3)).toNat ≤ r.2
  disjoint : y.live.Pairwise fun l m => l.cp + l.n ≤ m.cp - 4 ∨ m.cp + m.n ≤ l.cp - 4
  lists : ∀ i, ∃ xs, FreeList y i xs

variable {y z : System} {blocks : List Block} {free : Nat → List Nat} {s t : State}
    {live : List Live}
  {ranges : List (Nat × Nat)} {l m : Live} {i n x : Nat} {env : Sbrk} {event : Event}
  {events : List Event}

theorem Live.Held.index_toNat (held : l.Held blocks s.mem i) (few : i ≤ 27) :
    (s.mem (l.cp - 4 + 1)).toNat = i := by
  rw [held.index, BitVec.toNat_ofNat]
  exact Nat.mod_eq_of_lt (by lia)

theorem Ok.safe (ok : Ok y.state y.live y.ranges blocks free) : Safe y where
  placed l member := by
    obtain ⟨i, held⟩ := ok.held l member
    obtain ⟨few, -, within⟩ := ok.block _ held.block
    have behind := held.behind
    rw [show l.cp - 3 = l.cp - 4 + 1 by lia, held.index_toNat few]
    exact ⟨behind, held.room, within⟩
  disjoint := by
    refine ok.distinct.imp_of_mem fun {l m} first second differ => ?_
    obtain ⟨i, held⟩ := ok.held l first
    obtain ⟨j, held'⟩ := ok.held m second
    have apart := ok.headers held.block held'.block
    obtain ⟨-, behind, room, -, -⟩ := held
    obtain ⟨-, behind', room', -, -⟩ := held'
    unfold Block.Apart Block.size at apart
    dsimp only at apart
    have := apart (by lia)
    lia
  lists i := by
    refine ⟨free i, ok.threads i, (ok.threads i).nodup,
      fun op member => (ok.block _ (ok.listed i op member)).within, ?_⟩
    intro op member l inside
    obtain ⟨j, held⟩ := ok.held l inside
    have apart := ok.headers (ok.listed i op member) held.block fun same : op = l.cp - 4 =>
      ok.used l inside i (same ▸ member)
    obtain ⟨-, behind, room, -, -⟩ := held
    unfold Block.Apart Block.size at apart
    dsimp only at apart
    lia

theorem realloc_stays {cp : Nat} (positive : cp ≠ 0) (stays : Stays s cp n) :
    realloc s cp n env = (s, cp) := by
  unfold realloc
  rw [if_neg positive]
  obtain ⟨magic, high, low⟩ := stays
  simp only [magic, decide_true, ↓reduceIte, high, low, and_self]

theorem realloc_moves {cp : Nat} (positive : cp ≠ 0) (magic : s.mem (cp - 4) = MAGIC)
    (moves : ¬ Stays s cp n) :
    realloc s cp n env =
      let (t, res) := malloc (Malloc.free s cp) n env
      if res = 0 then (t, 0)
      else if cp ≠ res then
        ({ t with mem := copyBytes t.mem res cp (min n (onb s.pagesz (s.mem (cp - 4 + 1)).toNat)) },
          res)
      else (t, res) := by
  unfold realloc
  rw [if_neg positive]
  have moves' :
      ¬ (n ≤ onb s.pagesz (s.mem (cp - 4 + 1)).toNat ∧
      n > below s.pagesz (s.mem (cp - 4 + 1)).toNat) :=
    fun both => moves ⟨magic, both⟩
  simp only [magic, decide_true, ↓reduceIte, true_and, moves']

theorem Ok.store (ok : Ok s live ranges blocks free) (member : l ∈ live) (low : l.cp ≤ x)
    (high : x < l.cp + l.n) (byte : BitVec 8) :
      Ok { s with mem := Function.update s.mem x byte } live ranges blocks free := by
  obtain ⟨i, held⟩ := ok.held l member
  refine ok.write fun b inside a first last => Function.update_of_ne ?_ _ _
  rintro rfl
  have behind := held.behind
  have room := held.room
  rcases eq_or_ne b.op (l.cp - 4) with same | differ
  · lia
  · have apart := ok.headers inside held.block differ
    have := b.size_ge
    unfold Block.Apart Block.size at apart
    unfold Block.size at this
    dsimp only at apart
    lia

theorem Ok.fresh_freed (ok : Ok s live ranges blocks free) (member : l ∈ live) {r : Nat × Nat}
    (fresh : Fresh s.mem ranges r) :
    Fresh (Malloc.free s l.cp).mem ranges r := by
  obtain ⟨i, held, freed, -, -⟩ := ok.freed member
  obtain ⟨-, -, r', inside, low, high⟩ := ok.block _ held.block
  refine { fresh with zero := fun x first last => ?_ }
  have apart := fresh.apart r' inside
  have := blockSize_ge i
  unfold Block.size at high
  dsimp only at low high
  rw [freed, ← fresh.zero x first last]
  exact setWord_other (by lia)

/-- A block that is too small or too large for the request is freed, and what `malloc` gives then
takes over its bytes. -/
theorem Ok.moved (ok : Ok s live ranges blocks free) (member : l ∈ live) (moves : ¬ Stays s l.cp n)
    (aligns : env.Aligns s) (fresh : ∀ r ∈ grown (Malloc.free s l.cp) n env, Fresh s.mem ranges r) :
    ∃ blocks' free', Ok (realloc s l.cp n env).1
      (if (realloc s l.cp n env).2 = 0 then live.erase l else ⟨(realloc s l.cp n env).2,
        n⟩ :: live.erase l)
      (grown (Malloc.free s l.cp) n env ++ ranges) blocks' free' ∧
      ((realloc s l.cp n env).2 ≠ 0 → ∀ x < min l.n n,
        (realloc s l.cp n env).1.mem ((realloc s l.cp n env).2 + x) = s.mem (l.cp + x)) := by
  obtain ⟨i, held, freed, okFree, kept⟩ := ok.freed member
  have few := (ok.block _ held.block).few
  dsimp only at few
  have pages : s.pagesz = 4096 := by
    refine (ok.sized.resolve_right fun ⟨_, idle, _⟩ => ?_).1
    rw [idle] at member
    cases member
  have behind := held.behind
  have room := held.room
  have alignsFree : env.Aligns (Malloc.free s l.cp) := by
    unfold Sbrk.Aligns at *
    rw [freed]
    exact aligns
  obtain ⟨blocks', free', ok', more, kept'⟩ :=
    okFree.malloc alignsFree fun r inside => ok.fresh_freed member (fresh r inside)
  have content (x : Nat) (inside : x < l.n) :
      (Malloc.malloc (Malloc.free s l.cp) n env).1.mem (l.cp + x) = s.mem (l.cp + x) := by
    have low : l.cp - 4 + 4 ≤ l.cp + x := by lia
    have high : l.cp + x < l.cp - 4 + blockSize i := by lia
    exact (kept' _ held.block _ low high).trans (kept _ held.block _ low high)
  rw [realloc_moves (by lia) held.magic moves, held.index_toNat few, pages, onb_eq few]
  generalize Malloc.malloc (Malloc.free s l.cp) n env = res at *
  obtain ⟨t, res⟩ := res
  dsimp only at *
  rcases eq_or_ne res 0 with rfl | some
  · rw [if_pos rfl] at ok'
    simp only [↓reduceIte]
    exact ⟨blocks', free', ok', fun wrong => absurd rfl wrong⟩
  · rw [if_neg some] at ok'
    rcases eq_or_ne l.cp res with rfl | other
    · simp only [some, ↓reduceIte, ne_eq, not_true_eq_false]
      exact ⟨blocks', free', ok', fun _ x inside => content x (by lia)⟩
    · simp only [some, ↓reduceIte, ne_eq, other, not_false_eq_true]
      refine ⟨blocks', free', ok'.write fun b inside x low high => copyBytes_out ?_,
        fun _ x inside => ?_⟩
      · obtain ⟨j, held'⟩ := ok'.held _ List.mem_cons_self
        obtain ⟨block, behind', room', -, -⟩ := held'
        dsimp only at block behind' room'
        rcases eq_or_ne b.op (res - 4) with same | differ
        · lia
        · have apart := ok'.headers inside block differ
          have := b.size_ge
          unfold Block.Apart Block.size at apart
          unfold Block.size at this
          dsimp only at apart
          lia
      · rw [copyBytes_in (Nat.le_add_right _ _) (by lia), Nat.add_sub_cancel_left]
        exact content x (by lia)

theorem Ok.stayed (ok : Ok s live ranges blocks free) (member : l ∈ live) (stays : Stays s l.cp n) :
    Ok s (⟨l.cp, n⟩ :: live.erase l) ranges blocks free := by
  obtain ⟨i, held⟩ := ok.held l member
  have few := (ok.block _ held.block).few
  dsimp only at few
  have pages : s.pagesz = 4096 ∧ s.pagebucket = 9 := by
    refine ok.sized.resolve_right fun ⟨_, idle, _⟩ => ?_
    rw [idle] at member
    cases member
  obtain ⟨-, enough, -⟩ := stays
  rw [held.index_toNat few, pages.1, onb_eq few] at enough
  have size := blockSize_ge i
  refine (ok.drop List.erase_sublist).hold pages { held with room := by dsimp only; lia }
    (ok.used l member) fun m other same => ?_
  have distinct := (List.perm_cons_erase member).pairwise_iff (fun differ => differ.symm) |>.mp
    ok.distinct
  exact (List.pairwise_cons.mp distinct).1 m other same

theorem Ok.reallocated (ok : Ok y.state y.live y.ranges blocks free)
    (allowed : (Event.realloc l n env).Allowed y) (aligns : env.Aligns y.state) :
    ∃ blocks' free', Ok (y.after (.realloc l n env)).state (y.after (.realloc l n env)).live
      (y.after (.realloc l n env)).ranges
      blocks' free' ∧ ((realloc y.state l.cp n env).2 ≠ 0 →
        ∀ x < min l.n n, (realloc y.state l.cp n env).1.mem ((realloc y.state l.cp n env).2 + x) =
          y.state.mem (l.cp + x)) := by
  obtain ⟨fresh, member, -⟩ := allowed
  unfold System.after Event.newRanges at *
  dsimp only at *
  rcases em (Stays y.state l.cp n) with stays | moves
  · obtain ⟨i, held⟩ := ok.held l member
    have positive : l.cp ≠ 0 := by have := held.behind; lia
    rw [realloc_stays positive stays]
    dsimp only
    rw [if_neg positive, if_pos stays]
    exact ⟨blocks, free, ok.stayed member stays, fun _ _ _ => rfl⟩
  · rw [if_neg moves] at fresh ⊢
    exact ok.moved member moves aligns fresh

theorem AlignedStep.ok (step : AlignedStep y event z)
    (ok : ∃ blocks free, Ok y.state y.live y.ranges blocks free) :
    ∃ blocks free, Ok z.state z.live z.ranges blocks free := by
  obtain ⟨⟨allowed, rfl⟩, aligns⟩ := step
  obtain ⟨blocks, free, ok⟩ := ok
  cases event with
  | malloc n env =>
    obtain ⟨blocks', free', ok', -, -⟩ := ok.malloc aligns allowed.1
    exact ⟨blocks', free', ok'⟩
  | free l =>
    obtain ⟨i, -, -, ok', -⟩ := ok.freed allowed.2
    exact ⟨blocks, _, ok'⟩
  | realloc l n env =>
    obtain ⟨blocks', free', ok', -⟩ := ok.reallocated allowed aligns
    exact ⟨blocks', free', ok'⟩
  | store x byte =>
    obtain ⟨l, member, low, high⟩ := allowed.2
    exact ⟨blocks, free, ok.store member low high byte⟩

theorem Ok.initial (mem : Memory) :
    Ok (initial mem).state (initial mem).live (initial mem).ranges [] fun _ => [] where
  sized := .inr ⟨rfl, rfl, fun _ => rfl⟩
  top := List.forall_mem_nil _
  block := List.forall_mem_nil _
  apart := List.forall_mem_nil _
  threads _ := .nil
  listed _ := List.forall_mem_nil _
  held := List.forall_mem_nil _
  used := List.forall_mem_nil _
  distinct := .nil

theorem run_ok {mem : Memory} (run : Run AlignedStep (initial mem) events y) :
    ∃ blocks free, Ok y.state y.live y.ranges blocks free :=
  run.invariant (P := fun y => ∃ blocks free, Ok y.state y.live y.ranges blocks free)
    (fun _ _ _ (_ : True) ok step => step.ok ok) (fun _ _ => trivial) ⟨_, _, .initial mem⟩

/-- Whatever a program allocates, frees, reallocates and stores, its blocks are large enough, apart
and in memory of `sbrk`, no list of free blocks comes near them, and `realloc` keeps their bytes, if
the first call aligns the heap. -/
theorem malloc_safe {mem : Memory} (run : Run AlignedStep (initial mem) events y) :
    Safe y ∧ ∀ l n env, AlignedStep y (.realloc l n env) (y.after (.realloc l n env)) →
      (realloc y.state l.cp n env).2 ≠ 0 →
      ∀ x < min l.n n, (realloc y.state l.cp n env).1.mem ((realloc y.state l.cp n env).2 + x) =
        y.state.mem (l.cp + x) := by
  obtain ⟨blocks, free, ok⟩ := run_ok run
  refine ⟨ok.safe, fun l n env step => ?_⟩
  obtain ⟨-, -, -, keeps⟩ := ok.reallocated step.1.1 step.2
  exact keeps

/-- `sbrk` gives no memory, not even to align the heap. -/
def noCore : Sbrk := ⟨0, none, none⟩

def System.run (y : System) (events : List Event) : System := events.foldl System.after y

/-- A page of two blocks is used up, one of them is freed and handed out again, the other one grows
in place. -/
def fewCalls : List Event :=
  [.malloc 2000 ⟨0, some 0, some 4096⟩, .malloc 2000 noCore, .free ⟨4100, 2000⟩,
    .malloc 1500 noCore, .realloc ⟨6148, 2000⟩ 2040 noCore]

theorem fewCalls_run :
    Run AlignedStep (initial fun _ => 0) fewCalls ((initial fun _ => 0).run fewCalls) := by
  have none (y : System) (event : Event) (same : event.newRanges y.state = []) :
      ∀ r ∈ event.newRanges y.state, Fresh y.state.mem y.ranges r := by
    rw [same]
    exact List.forall_mem_nil _
  have first : (Event.malloc 2000 ⟨0, some 0, some 4096⟩).newRanges (initial fun _ => 0).state =
      [(4096, 8192)] := by
    decide
  refine .cons ⟨⟨⟨?_, by decide⟩, rfl⟩, fun _ _ => by decide⟩ ?_
  · rw [first]
    exact List.forall_mem_singleton.mpr
      ⟨by decide, by decide, List.forall_mem_nil _, fun _ _ _ => rfl⟩
  refine .cons ⟨⟨⟨none _ _ (by decide), by decide⟩, rfl⟩, fun start => absurd start (by decide)⟩ ?_
  refine .cons ⟨⟨⟨none _ _ rfl, by decide⟩, rfl⟩, trivial⟩ ?_
  refine .cons ⟨⟨⟨none _ _ (by decide), by decide⟩, rfl⟩, fun start => absurd start (by decide)⟩ ?_
  exact .cons ⟨⟨⟨none _ _ (by decide), by decide⟩, rfl⟩, fun start => absurd start (by decide)⟩
    (.nil _)

theorem malloc_safe_few : Safe ((initial fun _ => 0).run fewCalls) ∧
    ((initial fun _ => 0).run fewCalls).live = [⟨6148, 2040⟩, ⟨4100, 1500⟩] :=
  ⟨(malloc_safe fewCalls_run).1, by decide⟩

/-- A call whose `sbrk` failed, and one that has memory. -/
def badStart : List Event := [.malloc 10 noCore, .malloc 5000 ⟨0, some 0, some 4096⟩]

theorem badStart_run :
    Run Step (initial fun _ => 0) badStart ((initial fun _ => 0).run badStart) := by
  have first : (Event.malloc 10 noCore).newRanges (initial fun _ => 0).state = [] := by decide
  have second :
      (Event.malloc 5000 ⟨0, some 0, some 4096⟩).newRanges
      ((initial fun _ => 0).after (.malloc 10 noCore)).state =
      [(4096, 8192)] := by decide
  refine .cons ⟨⟨?_, by decide⟩, rfl⟩ (.cons ⟨⟨?_, by decide⟩, rfl⟩ (.nil _))
  · rw [first]
    exact List.forall_mem_nil _
  · rw [second]
    exact List.forall_mem_singleton.mpr
      ⟨by decide, by decide, List.forall_mem_nil _, fun _ _ _ => rfl⟩

/-- Blocks of 5000 bytes are cut from memory eight bytes at a time, when the first call left
`pagebucket` 0. -/
theorem malloc_not_safe : ¬ ∀ (mem : Memory) (events : List Event) (y : System),
    Run Step (initial mem) events y → Safe y := by
  intro safe
  obtain ⟨-, room, -⟩ := (safe _ _ _ badStart_run).placed ⟨4100, 5000⟩ (by decide)
  exact absurd room (by decide)

section Failure

/-- An address on the list that starts at another one, which may never end. -/
inductive Reaches (next : Nat → Nat) (a : Nat) : Nat → Prop where
  | here : a ≠ 0 → Reaches next a a
  | next {head : Nat} : head ≠ 0 → Reaches next a (next head) → Reaches next a head

def Listed (s : State) (op : Nat) : Prop := ∃ i, Reaches (word s.mem) op (s.nextf i)

variable {cp : Nat}

theorem setup_frame : (setup s env).1.mem = s.mem ∧ (setup s env).1.nextf = s.nextf ∧
    (setup s env).1.pagesz ≠ 0 := by
  unfold setup
  split
  · split
    · exact ⟨rfl, rfl, (by decide : getpagesize ≠ 0)⟩
    · exact ⟨rfl, rfl, (by decide : getpagesize ≠ 0)⟩
  · rename_i some
    exact ⟨rfl, rfl, some⟩

theorem setup_later (pages : s.pagesz ≠ 0) : setup s env = (s, true) := if_neg pages

theorem take_null (null : (take s i).2 = 0) : s.nextf i = 0 := by
  by_contra some
  rw [take, if_neg some] at null
  exact Nat.succ_ne_zero _ null

theorem malloc_null (core : env.core ≠ some 0) (null : (malloc s n env).2 = 0) :
    (malloc s n env).1.mem = s.mem ∧ (malloc s n env).1.nextf = s.nextf ∧
      (malloc s n env).1.pagesz ≠ 0 := by
  obtain ⟨mem, nextf, pages⟩ := @setup_frame s env
  unfold malloc at *
  generalize setup s env = set at *
  obtain ⟨t, _ | _⟩ := set
  · exact ⟨mem, nextf, pages⟩
  · dsimp only at *
    split at null
    · exact ⟨mem, nextf, pages⟩
    · rename_i i found
      rw [← refill] at null ⊢
      have empty := take_null null
      rw [take_none empty]
      have same : refill t i env = t := by
        rcases eq_or_ne (t.nextf i) 0 with none | some
        · rw [refill, if_pos none] at empty ⊢
          rcases Nat.lt_or_ge 27 i with large | few
          · exact morecore_large large
          · cases grows : env.core with
            | none => exact morecore_none grows
            | some op =>
              rw [morecore_some (by lia) grows] at empty
              simp only [Function.update_self] at empty
              exact absurd (empty ▸ grows) core
        · exact if_neg some
      rw [same]
      exact ⟨mem, nextf, pages⟩

theorem malloc_head (pages : s.pagesz ≠ 0) (found : findBucket s n = some i)
    (some : s.nextf i ≠ 0) :
    (malloc s n env).2 = s.nextf i + 4 := by
  obtain ⟨takes, -⟩ := malloc_some (setup_later pages : setup s env = (s, true)) found
  rw [takes, refill, if_neg some, take, if_neg some]

theorem realloc_null_eq (block : 4 < cp) (null : (realloc s cp n env).2 = 0) :
    (realloc s cp n env).1 =
      (malloc (if s.mem (cp - 4) = MAGIC then Malloc.free s cp else s) n env).1 ∧
      (malloc (if s.mem (cp - 4) = MAGIC then Malloc.free s cp else s) n env).2 = 0 := by
  have moves : ¬ Stays s cp n := fun stays => by
    rw [realloc_stays (by lia) stays] at null
    dsimp only at null
    lia
  obtain ⟨k, eq⟩ : ∃ k, realloc s cp n env =
      let (t, res) := malloc (if s.mem (cp - 4) = MAGIC then Malloc.free s cp else s) n env
      if res = 0 then (t, 0)
      else if cp ≠ res then ({ t with mem := copyBytes t.mem res cp (min n k) }, res)
      else (t, res) := by
    rcases em (s.mem (cp - 4) = MAGIC) with magic | other
    · exact ⟨_, by rw [realloc_moves (by lia) magic moves, if_pos magic]⟩
    · let i :=
        ((findbucket s (cp - 4) 1).orElse fun _ => findbucket s (cp - 4) realloc_srchlen).getD
        NBUCKETS
      refine ⟨onb s.pagesz i, ?_⟩
      unfold realloc
      rw [if_neg (by lia), if_neg other]
      simp only [other, decide_false, false_and, ↓reduceIte, Bool.false_eq_true]
      rfl
  rw [eq] at null ⊢
  generalize malloc (if s.mem (cp - 4) = MAGIC then Malloc.free s cp else s) n env = r at *
  obtain ⟨t, res⟩ := r
  rcases eq_or_ne res 0 with rfl | some
  · simp only [↓reduceIte, and_self]
  · simp only [some, ↓reduceIte] at null
    split at null
    · exact absurd null some
    · exact absurd null some

theorem free_magic (block : 4 < cp) (magic : s.mem (cp - 4) = MAGIC) : Malloc.free s cp =
    { s with mem := setWord s.mem (cp - 4) (s.nextf (s.mem (cp - 3)).toNat),
             nextf := Function.update s.nextf (s.mem (cp - 3)).toNat (cp - 4) } := by
  unfold Malloc.free
  rw [if_neg (by lia)]
  dsimp only
  rw [if_neg (not_not.mpr magic), show cp - 4 + 1 = cp - 3 by lia]

/-- `realloc` that returns `NULL` has put a block that it took for allocated on a list. -/
theorem realloc_null_head (block : 4 < cp) (core : env.core ≠ some 0)
    (null : (realloc s cp n env).2 = 0) (magic : s.mem (cp - 4) = MAGIC) :
    (realloc s cp n env).1.nextf (s.mem (cp - 3)).toNat = cp - 4 ∧
      (realloc s cp n env).1.pagesz ≠ 0 := by
  obtain ⟨same, null'⟩ := realloc_null_eq block null
  rw [if_pos magic] at same null'
  obtain ⟨-, nextf, pages⟩ := malloc_null core null'
  rw [same, nextf, free_magic block magic]
  exact ⟨Function.update_self _ _ _, by rwa [free_magic block magic] at pages⟩

theorem findBucket_capacity (pages : s.pagesz = 4096) (bucket : s.pagebucket = 9) (few : i ≤ 27) :
    findBucket s (blockSize i - 4) = some i := by
  have all :
      ∀ i < 28, (if blockSize i - 4 ≤ 4096 - 4 then search (blockSize i - 4) (2 ^ 32 - 4) 32 8 0
      else search (blockSize i - 4) (4096 - 4) 32 4096 9) = some i := by decide
  unfold findBucket
  rw [pages, bucket]
  exact all i (by lia)

/-- A `realloc` that returns `NULL` leaves a block off the lists of free ones just if the header is
not that of an allocated block, and each block that a program has been given has such a header. So
the block is free, and the next call for as many bytes as it has returns it. -/
theorem realloc_null (block : 4 < cp) (core : env.core ≠ some 0) (unlisted : ¬ Listed s (cp - 4))
    (null : (realloc s cp n env).2 = 0) :
    (¬ Listed (realloc s cp n env).1 (cp - 4) ↔ s.mem (cp - 4) ≠ MAGIC) ∧
      ∀ mem events y, Run AlignedStep (initial mem) events y → y.state = s →
        ∀ l ∈ y.live, l.cp = cp →
        AlignedStep y (.realloc l n env) (y.after (.realloc l n env)) →
        s.mem (cp - 4) = MAGIC ∧ ∃ m, l.n ≤ m ∧
          ∀ env', (malloc (realloc s cp n env).1 m env').2 = cp := by
  refine ⟨⟨fun off magic => ?_, fun other => ?_⟩, fun mem events y run same l member address step =>
    ?_⟩
  · refine off ⟨(s.mem (cp - 3)).toNat, ?_⟩
    rw [(realloc_null_head block core null magic).1]
    exact .here (by lia)
  · obtain ⟨same, null'⟩ := realloc_null_eq block null
    rw [if_neg other] at same null'
    obtain ⟨mem, nextf, -⟩ := malloc_null core null'
    rw [same]
    unfold Listed
    rwa [mem, nextf]
  · subst same address
    obtain ⟨blocks, free, ok⟩ := run_ok run
    obtain ⟨i, held⟩ := ok.held l member
    have few := (ok.block _ held.block).few
    dsimp only at few
    obtain ⟨head, pages⟩ := realloc_null_head block core null held.magic
    rw [show l.cp - 3 = l.cp - 4 + 1 by lia, held.index_toNat few] at head
    obtain ⟨blocks', free', ok'⟩ := step.ok ⟨blocks, free, ok⟩
    obtain ⟨sized, bucket⟩ := ok'.sized.resolve_right fun idle => pages idle.1
    refine ⟨held.magic, blockSize i - 4, ?_, fun env' => ?_⟩
    · have := held.room
      lia
    · have positive : (realloc y.state l.cp n env).1.nextf i ≠ 0 := by lia
      rw [malloc_head pages (findBucket_capacity sized bucket few) positive, head]
      lia

theorem Reaches.mem {next : Nat → Nat} {a head : Nat} {xs : List Nat}
    (reaches : Reaches next a head) (threads : Threads next head xs) : a ∈ xs := by
  induction reaches generalizing xs with
  | here some =>
    obtain ⟨rest, rfl, -⟩ := threads.pop some
    exact List.mem_cons_self
  | next some _ ih =>
    obtain ⟨rest, rfl, later⟩ := threads.pop some
    exact List.mem_cons_of_mem _ (ih later)

theorem Ok.unlisted (ok : Ok s live ranges blocks free) (member : l ∈ live) :
    ¬ Listed s (l.cp - 4) :=
  fun ⟨i, reaches⟩ => ok.used l member i (reaches.mem (ok.threads i))

def goodStart : Event := .malloc 10 ⟨0, some 0, some 4096⟩

theorem goodStart_step :
    AlignedStep (initial fun _ => 0) goodStart ((initial fun _ => 0).after goodStart) := by
  have range : goodStart.newRanges (initial fun _ => 0).state = [(4096, 8192)] := by decide
  refine ⟨⟨⟨?_, (by decide : 10 < 2 ^ 32)⟩, rfl⟩, fun _ _ => by decide⟩
  rw [range]
  exact List.forall_mem_singleton.mpr
    ⟨by decide, by decide, List.forall_mem_nil _, fun _ _ _ => rfl⟩

theorem realloc_null_page :
    Listed (realloc ((initial fun _ => 0).after goodStart).state 4100 5000 noCore).1 4096 := by
  obtain ⟨blocks, free, ok⟩ := run_ok (.cons goodStart_step (.nil _))
  have unlisted := ok.unlisted (l := ⟨4100, 10⟩) (by decide)
  have null : (realloc ((initial fun _ => 0).after goodStart).state 4100 5000 noCore).2 =
    0 := by decide
  have iff := (realloc_null (by decide) (by decide) unlisted null).1
  exact of_not_not fun off => iff.mp off (by decide)

/-- The block of ten bytes is on the list of its bucket when there is no memory for one of 5000. -/
theorem realloc_null_not_kept :
    ¬ ∀ (mem : Memory) (events : List Event) (y : System) (l : Live) (n : Nat) (env : Sbrk),
      Run Step (initial mem) events y → l ∈ y.live → (Event.realloc l n env).Allowed y →
      (realloc y.state l.cp n env).2 = 0 → ¬ Listed (realloc y.state l.cp n env).1 (l.cp - 4) := by
  intro kept
  refine kept _ _ _ ⟨4100, 10⟩ 5000 noCore (.cons goodStart_step.1 (.nil _)) (by decide)
    ⟨?_, by decide, by decide⟩ (by decide) ?_
  · have none :
        (Event.realloc ⟨4100, 10⟩ 5000 noCore).newRanges
        ((initial fun _ => 0).after goodStart).state = [] := by decide
    rw [none]
    exact List.forall_mem_nil _
  · exact ⟨1, .here (by decide)⟩

end Failure

end FreeBsd.Stdlib.Malloc
