import FreeBsd.Stdlib.Malloc

/-! What `malloc`, `free` and `realloc` hand out: blocks in the memory of `sbrk` that do not
overlap, with the free ones on the list of their bucket. -/
namespace FreeBsd.Stdlib.Malloc

open FreeBsd.Lib

section Sizes

variable {nbytes n fuel k i : Nat} {s : State}

/-- The bytes of a block of bucket `i`, with its header. -/
def blockSize (i : Nat) : Nat := if i < 9 then 2 ^ (i + 3) else 2 ^ (i + 3) + 4096

theorem two_pow_add_three_le (i k : Nat) (few : i ≤ k) : 2 ^ (i + 3) ≤ 2 ^ (k + 3) :=
  Nat.pow_le_pow_right (by decide) (Nat.add_le_add_right few 3)

theorem blockSize_ge (i : Nat) : 8 ≤ blockSize i := by
  have := two_pow_add_three_le 0 i (Nat.zero_le i)
  unfold blockSize
  split <;> lia

theorem onb_eq (few : i ≤ 27) : onb 4096 i = blockSize i - 4 := by
  have high := two_pow_add_three_le i 27 few
  have low := two_pow_add_three_le 0 i (Nat.zero_le i)
  unfold onb blockSize
  rw [Nat.mod_eq_of_lt (by lia : i + 3 < 32)]
  by_cases small : i < 9
  · have := two_pow_add_three_le i 8 (by lia)
    rw [if_pos small]
    dsimp only
    rw [if_pos (by lia)]
    lia
  · have := two_pow_add_three_le 9 i (by lia)
    rw [if_neg small]
    dsimp only
    rw [if_neg (by lia)]
    lia

/-- The bucket found is large enough, and none that was looked at before it was. -/
theorem search_spec (few : k ≤ 28) (found : search nbytes n fuel (2 ^ (k + 3)) k = some i) :
    k ≤ i ∧ i ≤ 28 ∧ nbytes ≤ (2 ^ (i + 3) + n) % 2 ^ 32 ∧
      ∀ j, k ≤ j → i = j + 1 → (2 ^ (j + 3) + n) % 2 ^ 32 < nbytes := by
  induction fuel generalizing k with
  | zero => cases found
  | succ fuel ih =>
    rw [search] at found
    split at found
    · rename_i more
      rcases Nat.lt_or_eq_of_le few with room | rfl
      · have doubled : 2 ^ (k + 3) * 2 % 2 ^ 32 = 2 ^ (k + 1 + 3) := by
          rw [← Nat.pow_succ]
          exact Nat.mod_eq_of_lt (Nat.pow_lt_pow_right (by decide) (by lia))
        dsimp only at found
        rw [doubled, if_neg (Nat.two_pow_pos _).ne'] at found
        obtain ⟨above, within, enough, first⟩ := ih room found
        refine ⟨by lia, within, enough, fun j low last => ?_⟩
        rcases Nat.lt_or_eq_of_le low with later | rfl
        · exact first j later last
        · exact more
      · cases found
    · rename_i enough
      cases found
      exact ⟨Nat.le_refl _, few, not_lt.mp enough, fun j _ _ => by lia⟩

/-- The bucket of a request is the first one whose blocks are large enough. -/
theorem findBucket_spec (pages : s.pagesz = 4096) (bucket : s.pagebucket = 9)
    (found : findBucket s nbytes = some i) :
    i ≤ 28 ∧ nbytes + 4 ≤ blockSize i ∧ ∀ j, i = j + 1 → blockSize j < nbytes + 4 := by
  unfold findBucket at found
  rw [pages, bucket] at found
  unfold blockSize
  split at found
  · rename_i little
    obtain ⟨-, within, enough, first⟩ := @search_spec nbytes (2 ^ 32 - 4) 32 0 i (by decide) found
    have exact' {j : Nat} (few : j ≤ 28) : (2 ^ (j + 3) + (2 ^ 32 - 4)) % 2 ^ 32 =
        2 ^ (j + 3) - 4 := by
      have := two_pow_add_three_le 0 j (Nat.zero_le j)
      have := two_pow_add_three_le j 28 few
      lia
    have low := two_pow_add_three_le 0 i (Nat.zero_le i)
    rw [exact' within] at enough
    refine ⟨within, by split <;> lia, fun j last => ?_⟩
    have before := first j (Nat.zero_le j) last
    rw [exact' (by lia)] at before
    have few : j < 9 := by
      by_contra many
      have := two_pow_add_three_le 9 j (by lia)
      lia
    rw [if_pos few]
    lia
  · rename_i large
    obtain ⟨above, within, enough, first⟩ := @search_spec nbytes (4096 - 4) 32 9 i (by decide) found
    have exact' {j : Nat} (few : j ≤ 28) : (2 ^ (j + 3) + (4096 - 4)) % 2 ^ 32 =
        2 ^ (j + 3) + (4096 - 4) := by
      have := two_pow_add_three_le j 28 few
      exact Nat.mod_eq_of_lt (by lia)
    rw [exact' within] at enough
    refine ⟨within, by rw [if_neg (by lia)]; lia, fun j last => ?_⟩
    rcases Nat.lt_or_ge j 9 with few | many
    · have := two_pow_add_three_le j 8 (by lia)
      rw [if_pos few]
      lia
    · have before := first j many last
      rw [exact' (by lia)] at before
      rw [if_neg (by lia)]
      lia

end Sizes

section Carve

variable {sz k op x : Nat} {mem : Memory}

def pieces (sz : Nat) : Nat → Nat → List Nat
  | 0, op => [op]
  | k + 1, op => op :: pieces sz k (op + sz)

theorem mem_pieces : x ∈ pieces sz k op ↔ ∃ m ≤ k, x = op + m * sz := by
  induction k generalizing op with
  | zero => simp [pieces]
  | succ k ih =>
    rw [pieces, List.mem_cons, ih]
    constructor
    · rintro (rfl | ⟨m, few, rfl⟩)
      · exact ⟨0, Nat.zero_le _, by simp⟩
      · exact ⟨m + 1, Nat.succ_le_succ few, by ring⟩
    · rintro ⟨_ | m, few, rfl⟩
      · exact .inl (by simp)
      · exact .inr ⟨m, Nat.le_of_succ_le_succ few, by ring⟩

theorem carve_other (out : ∀ m < k, x < op + m * sz ∨ op + m * sz + 4 ≤ x) :
    carve sz k mem op x = mem x := by
  induction k generalizing mem op with
  | zero => rfl
  | succ k ih =>
    rw [carve, ih, setWord_other]
    · simpa using out 0 (Nat.succ_pos k)
    · intro m few
      have later := out (m + 1) (Nat.succ_lt_succ few)
      rw [add_one_mul] at later
      lia

theorem carve_threads (wide : 4 ≤ sz) (positive : 0 < op) (fits : op + k * sz < 2 ^ 32)
    (zero : word mem (op + k * sz) = 0) :
      Threads (word (carve sz k mem op)) op (pieces sz k op) := by
  induction k generalizing mem op with
  | zero =>
    rw [zero_mul, Nat.add_zero] at zero
    refine .cons positive.ne' ?_
    rw [carve, zero]
    exact .nil
  | succ k ih =>
    rw [add_one_mul] at fits zero
    refine .cons positive.ne' ?_
    have next : word (carve sz (k + 1) mem op) op = op + sz := by
      rw [carve, word_congr fun x low high => carve_other fun m _ => by lia]
      exact word_setWord (by lia)
    rw [next]
    refine ih (by lia) (by lia) ?_
    rw [word_setWord_other (by lia)]
    rwa [show op + sz + k * sz = op + (k * sz + sz) by lia]

end Carve

section Blocks

structure Block where
  op : Nat
  bucket : Nat
  deriving DecidableEq

structure Live where
  cp : Nat
  n : Nat
  deriving DecidableEq

def Block.size (b : Block) : Nat := blockSize b.bucket

structure Block.Sound (ranges : List (Nat × Nat)) (b : Block) : Prop where
  few : b.bucket ≤ 27
  positive : 0 < b.op
  within : ∃ r ∈ ranges, r.1 ≤ b.op ∧ b.op + b.size ≤ r.2

def Block.Apart (b c : Block) : Prop := b.op + b.size ≤ c.op ∨ c.op + c.size ≤ b.op

def Keeps (blocks : List Block) (mem mem' : Memory) : Prop :=
  ∀ b ∈ blocks, ∀ x, b.op + 4 ≤ x → x < b.op + b.size → mem' x = mem x

structure Live.Held (blocks : List Block) (mem : Memory) (l : Live) (i : Nat) : Prop where
  block : ⟨l.cp - 4, i⟩ ∈ blocks
  behind : 4 ≤ l.cp
  room : l.n + 4 ≤ blockSize i
  magic : mem (l.cp - 4) = MAGIC
  index : mem (l.cp - 4 + 1) = BitVec.ofNat 8 i

structure Ok (s : State) (live : List Live) (ranges : List (Nat × Nat)) (blocks : List Block)
    (free : Nat → List Nat) : Prop where
  sized : s.pagesz = 4096 ∧ s.pagebucket = 9 ∨ s.pagesz = 0 ∧ live = [] ∧ ∀ i, s.nextf i = 0
  top : ∀ r ∈ ranges, r.2 ≤ 2 ^ 32
  block : ∀ b ∈ blocks, b.Sound ranges
  apart : ∀ b ∈ blocks, ∀ c ∈ blocks, b ≠ c → b.Apart c
  threads : ∀ i, Threads (word s.mem) (s.nextf i) (free i)
  listed : ∀ i, ∀ op ∈ free i, ⟨op, i⟩ ∈ blocks
  held : ∀ l ∈ live, ∃ i, l.Held blocks s.mem i
  used : ∀ l ∈ live, ∀ i, l.cp - 4 ∉ free i
  distinct : live.Pairwise fun l m => l.cp ≠ m.cp

variable {s : State} {live : List Live} {ranges : List (Nat × Nat)} {blocks : List Block}
    {free : Nat → List Nat}
  {mem' : Memory} {b c : Block} {l m : Live} {i j op n : Nat}

theorem Block.size_ge (b : Block) : 8 ≤ b.size := blockSize_ge b.bucket

theorem Ok.headers (ok : Ok s live ranges blocks free) (first : b ∈ blocks) (second : c ∈ blocks)
    (differ : b.op ≠ c.op) :
    b.Apart c :=
  ok.apart b first c second fun same => differ (congrArg Block.op same)

theorem Ok.same_bucket (ok : Ok s live ranges blocks free) (first : ⟨op, i⟩ ∈ blocks)
    (second : ⟨op, j⟩ ∈ blocks) : i = j := by
  by_contra differ
  have apart := ok.apart _ first _ second fun same => differ (congrArg Block.bucket same)
  have := blockSize_ge i
  have := blockSize_ge j
  unfold Block.Apart Block.size at apart
  dsimp only at apart
  lia

/-- The bytes between the headers may change at will, if the caller's header stays. -/
theorem Ok.write (ok : Ok s live ranges blocks free)
    (same : ∀ b ∈ blocks, ∀ x, b.op ≤ x → x < b.op + 4 → mem' x = s.mem x) :
    Ok { s with mem := mem' } live ranges blocks free := by
  refine { ok with threads := fun i => ?_, held := fun l member => ?_ }
  · exact (ok.threads i).congr fun a inside => word_congr fun x low high =>
      same _ (ok.listed i a inside) x low high
  · obtain ⟨i, held⟩ := ok.held l member
    refine ⟨i, { held with magic := ?_, index := ?_ }⟩
    · rw [← held.magic]
      exact same _ held.block _ (Nat.le_refl _) (by dsimp only; lia)
    · rw [← held.index]
      exact same _ held.block _ (by dsimp only; lia) (by dsimp only; lia)

/-- A list of free blocks changes with the header of one block, which nobody holds. -/
theorem Ok.relist (ok : Ok s live ranges blocks free) {next : Nat} {l : List Nat}
    (block : ⟨op, i⟩ ∈ blocks) (unused : ∀ l ∈ live, l.cp - 4 ≠ op)
    (elsewhere : ∀ j, j ≠ i → op ∉ free j) (threads : Threads (word mem') next l)
    (inside : ∀ a ∈ l, ⟨a, i⟩ ∈ blocks ∧ ∀ l ∈ live, l.cp - 4 ≠ a)
    (same : ∀ x, x < op ∨ op + 4 ≤ x → mem' x = s.mem x)
    (pages : s.pagesz = 4096 ∧ s.pagebucket = 9) :
    Ok { s with mem := mem', nextf := Function.update s.nextf i next } live ranges blocks
      (Function.update free i l) := by
  have word_same {a j : Nat} (member : ⟨a, j⟩ ∈ blocks) (other : a ≠ op) :
      word mem' a = word s.mem a := by
    refine word_congr fun x low high => same x ?_
    have apart := ok.headers member block other
    have := blockSize_ge j
    have := blockSize_ge i
    unfold Block.Apart Block.size at apart
    dsimp only at apart
    lia
  refine { ok with sized := .inl pages, threads := fun j => ?_, listed := fun j a member => ?_,
                   held := fun l member => ?_, used := fun l member j => ?_ }
  · rcases eq_or_ne j i with rfl | other
    · simpa only [Function.update_self] using threads
    · simp only [Function.update_of_ne other]
      refine (ok.threads j).congr fun a member => word_same (ok.listed j a member) ?_
      rintro rfl
      exact elsewhere j other member
  · rcases eq_or_ne j i with rfl | other
    · rw [Function.update_self] at member
      exact (inside a member).1
    · rw [Function.update_of_ne other] at member
      exact ok.listed j a member
  · obtain ⟨k, held⟩ := ok.held l member
    have apart := ok.headers held.block block (unused l member)
    have := blockSize_ge k
    have := blockSize_ge i
    unfold Block.Apart Block.size at apart
    dsimp only at apart
    refine ⟨k, { held with magic := ?_, index := ?_ }⟩
    · rw [← held.magic]
      exact same _ (by lia)
    · rw [← held.index]
      exact same _ (by lia)
  · rcases eq_or_ne j i with rfl | other
    · rw [Function.update_self]
      exact fun within => (inside _ within).2 l member rfl
    · rw [Function.update_of_ne other]
      exact ok.used l member j

theorem Ok.drop (ok : Ok s live ranges blocks free) {live' : List Live}
    (fewer : live'.Sublist live) :
    Ok s live' ranges blocks free where
  sized := ok.sized.imp_right fun ⟨pages, idle, empty⟩ =>
    ⟨pages, List.sublist_nil.mp (idle ▸ fewer), empty⟩
  top := ok.top
  block := ok.block
  apart := ok.apart
  threads := ok.threads
  listed := ok.listed
  held l member := ok.held l (fewer.subset member)
  used l member := ok.used l (fewer.subset member)
  distinct := ok.distinct.sublist fewer

theorem Ok.hold (ok : Ok s live ranges blocks free) (pages : s.pagesz = 4096 ∧ s.pagebucket = 9)
    (held : l.Held blocks s.mem i) (unlisted : ∀ j, l.cp - 4 ∉ free j)
    (fresh : ∀ m ∈ live, l.cp ≠ m.cp) : Ok s (l :: live) ranges blocks free :=
  { ok with
    sized := .inl pages
    held := List.forall_mem_cons.mpr ⟨⟨i, held⟩, ok.held⟩
    used := List.forall_mem_cons.mpr ⟨unlisted, ok.used⟩
    distinct := List.pairwise_cons.mpr ⟨fresh, ok.distinct⟩ }

theorem mark_other {mem : Memory} {x : Nat} (other : x < op ∨ op + 4 ≤ x) :
    mark mem op i x = mem x := by
  unfold mark
  rw [if_neg (by lia), if_neg (by lia)]

theorem Ok.keeps (ok : Ok s live ranges blocks free) (block : ⟨op, i⟩ ∈ blocks)
    (same : ∀ x, x < op ∨ op + 4 ≤ x → mem' x = s.mem x) : Keeps blocks s.mem mem' := by
  intro b member x low high
  rcases eq_or_ne b.op op with eq | differ
  · exact same x (by lia)
  · have apart := ok.headers member block differ
    have := blockSize_ge i
    unfold Block.Apart Block.size at apart
    unfold Block.size at high
    dsimp only at apart
    exact same x (by lia)

theorem Ok.take (ok : Ok s live ranges blocks free) (pages : s.pagesz = 4096 ∧ s.pagebucket = 9)
    (some : s.nextf i ≠ 0) (room : n + 4 ≤ blockSize i) :
      ∃ free', Ok (take s i).1 (⟨s.nextf i + 4, n⟩ :: live) ranges blocks free' ∧
      (take s i).2 = s.nextf i + 4 ∧ Keeps blocks s.mem (take s i).1.mem := by
  obtain ⟨rest, split, tail⟩ := (ok.threads i).pop some
  have nodup := (ok.threads i).nodup
  rw [split, List.nodup_cons] at nodup
  have inside : s.nextf i ∈ free i := by rw [split]; exact List.mem_cons_self
  have block := ok.listed i _ inside
  have same (x : Nat) (other : x < s.nextf i ∨ s.nextf i + 4 ≤ x) : mark s.mem (s.nextf i) i x =
      s.mem x := mark_other other
  have unused (l : Live) (member : l ∈ live) (a : Nat) (listed : a ∈ free i) : l.cp - 4 ≠ a :=
    fun eq => ok.used l member i (eq ▸ listed)
  have within (a : Nat) (member : a ∈ rest) :
    a ∈ free i := by rw [split]; exact List.mem_cons_of_mem _ member
  have marked : Threads (word (mark s.mem (s.nextf i) i)) (word s.mem (s.nextf i)) rest :=
    tail.congr fun a member => word_congr fun x low high => by
      have apart := ok.headers (ok.listed i a (within a member)) block fun eq : a = s.nextf i =>
        nodup.1 (eq ▸ member)
      have := blockSize_ge i
      unfold Block.Apart Block.size at apart
      dsimp only at apart
      exact same x (by lia)
  have relisted := ok.relist block (fun l member => unused l member _ inside)
    (fun j other member => other (ok.same_bucket (ok.listed j _ member) block)) marked
    (fun a member => ⟨ok.listed i a (within a member),
      fun l held => unused l held a (within a member)⟩) same pages
  unfold Malloc.take
  rw [if_neg some]
  refine ⟨_, relisted.hold (l := ⟨s.nextf i + 4, n⟩) pages ⟨block, Nat.le_add_left 4 _, room,
    if_pos rfl, ?_⟩ (fun j => ?_)
      (fun m member same => ?_), rfl, ok.keeps block same⟩
  · exact (if_neg (by simp)).trans (if_pos rfl)
  · rw [Nat.add_sub_cancel]
    rcases eq_or_ne j i with rfl | other
    · rw [Function.update_self]
      exact nodup.1
    · rw [Function.update_of_ne other]
      exact fun member => other (ok.same_bucket (ok.listed j _ member) block)
  · obtain ⟨k, held⟩ := ok.held m member
    refine unused m member _ inside ?_
    rw [← same]
    rfl

theorem Ok.freed (ok : Ok s live ranges blocks free) (member : l ∈ live) :
    ∃ i, l.Held blocks s.mem i ∧
    Malloc.free s l.cp = { s with mem := setWord s.mem (l.cp - 4) (s.nextf i),
                                  nextf := Function.update s.nextf i (l.cp - 4) } ∧
    Ok (Malloc.free s l.cp) (live.erase l) ranges blocks
      (Function.update free i ((l.cp - 4) :: free i)) ∧
      Keeps blocks s.mem (Malloc.free s l.cp).mem := by
  obtain ⟨i, held⟩ := ok.held l member
  have sound := ok.block _ held.block
  have few := sound.few
  have positive := sound.positive
  dsimp only at few positive
  have freed : Malloc.free s l.cp =
      { s with mem := setWord s.mem (l.cp - 4) (s.nextf i),
               nextf := Function.update s.nextf i (l.cp - 4) } := by
    unfold Malloc.free
    have behind := held.behind
    dsimp only
    rw [if_neg (by lia), if_neg (not_not.mpr held.magic), held.index, BitVec.toNat_ofNat,
      Nat.mod_eq_of_lt (by lia)]
  have same (x : Nat) (other : x < l.cp - 4 ∨ l.cp - 4 + 4 ≤ x) :
      setWord s.mem (l.cp - 4) (s.nextf i) x = s.mem x :=
    setWord_other other
  have unlisted (j : Nat) : l.cp - 4 ∉ free j := ok.used l member j
  have pages : s.pagesz = 4096 ∧ s.pagebucket = 9 := by
    refine ok.sized.resolve_right fun ⟨_, idle, _⟩ => ?_
    rw [idle] at member
    cases member
  -- the other callers hold other blocks
  have others : ∀ m ∈ live.erase l, m.cp - 4 ≠ l.cp - 4 := by
    intro m other eq
    obtain ⟨k, held'⟩ := ok.held m (List.mem_of_mem_erase other)
    have behind := held.behind
    have behind' := held'.behind
    have distinct := (List.perm_cons_erase member).pairwise_iff (fun same => same.symm) |>.mp
      ok.distinct
    exact (List.pairwise_cons.mp distinct).1 m other (by lia)
  have small : s.nextf i < 2 ^ 32 := by
    rcases Nat.eq_zero_or_pos (s.nextf i) with none | some
    · lia
    · obtain ⟨rest, split, _⟩ := (ok.threads i).pop some.ne'
      have block := ok.block _ (ok.listed i _ (split ▸ List.mem_cons_self))
      obtain ⟨r, inside, low, high⟩ := block.within
      have := ok.top r inside
      have := blockSize_ge i
      unfold Block.size at high
      dsimp only at high
      lia
  refine ⟨i, held, freed, ?_, ?_⟩
  · rw [freed]
    refine (ok.drop List.erase_sublist).relist (l := (l.cp - 4) :: free i) held.block others
      (fun j _ => unlisted j) ?_ ?_ same pages
    · refine .cons positive.ne' ?_
      rw [word_setWord small]
      refine (ok.threads i).congr fun a inside => word_setWord_other ?_
      have apart := ok.headers held.block (ok.listed i a inside) fun eq : l.cp - 4 = a =>
        unlisted i (eq ▸ inside)
      have := blockSize_ge i
      unfold Block.Apart Block.size at apart
      dsimp only at apart
      lia
    · refine List.forall_mem_cons.mpr ⟨⟨held.block, others⟩, fun a inside => ⟨ok.listed i a inside,
        fun m other eq => ?_⟩⟩
      exact ok.used m (List.mem_of_mem_erase other) i (eq ▸ inside)
  · rw [freed]
    exact ok.keeps held.block same

structure Fresh (mem : Memory) (ranges : List (Nat × Nat)) (r : Nat × Nat) : Prop where
  positive : 0 < r.1
  top : r.2 ≤ 2 ^ 32
  apart : ∀ r' ∈ ranges, r'.2 ≤ r.1 ∨ r.2 ≤ r'.1
  zero : ∀ x, r.1 ≤ x → x < r.2 → mem x = 0

theorem amount_spec (i : Nat) : ∃ k, (amount 4096 (2 ^ (i + 3))).2 = k + 1 ∧
    k * 2 ^ (i + 3) + blockSize i = (amount 4096 (2 ^ (i + 3))).1 ∧
      (0 < k → blockSize i = 2 ^ (i + 3)) := by
  rcases Nat.lt_or_ge i 9 with small | large
  · have all : ∀ i < 9, (amount 4096 (2 ^ (i + 3))).2 = (4096 / 2 ^ (i + 3) - 1) + 1 ∧
        (4096 / 2 ^ (i + 3) - 1) * 2 ^ (i + 3) + blockSize i = (amount 4096 (2 ^ (i + 3))).1 ∧
        (0 < 4096 / 2 ^ (i + 3) - 1 → blockSize i = 2 ^ (i + 3)) := by decide
    exact ⟨_, all i small⟩
  · have := two_pow_add_three_le 9 i large
    unfold amount blockSize
    rw [if_neg (by lia), if_neg (by lia)]
    exact ⟨0, rfl, by lia, fun none => absurd none (Nat.lt_irrefl 0)⟩

theorem Ok.grow (ok : Ok s live ranges blocks free) (pages : s.pagesz = 4096 ∧ s.pagebucket = 9)
    (few : i ≤ 27) (empty : s.nextf i =
      0) (fresh : Fresh s.mem ranges (op, op + (amount 4096 (2 ^ (i + 3))).1)) :
    ∃ blocks' free', Ok { s with nextf := Function.update s.nextf i op,
                                 mem := carve (2 ^ (i + 3)) ((amount 4096
                                   (2 ^ (i + 3))).2 - 1) s.mem op }
      live ((op, op + (amount 4096 (2 ^ (i + 3))).1) :: ranges) blocks'
        free' ∧ (∀ b ∈ blocks, b ∈ blocks') ∧
      Keeps blocks s.mem (carve (2 ^ (i + 3)) ((amount 4096 (2 ^ (i + 3))).2 - 1) s.mem op) := by
  obtain ⟨k, count, total, exact'⟩ := amount_spec i
  have wide := two_pow_add_three_le 0 i (Nat.zero_le i)
  have size := blockSize_ge i
  rw [← total] at fresh ⊢
  rw [count, Nat.add_sub_cancel]
  clear count total
  generalize 2 ^ (i + 3) = sz at *
  obtain ⟨positive, top, apart, zero⟩ := fresh
  dsimp only at positive top apart zero
  -- the memory of the blocks there are is not touched
  have old {b : Block} (member : b ∈ blocks) :
      b.op + b.size ≤ op ∨ op + (k * sz + blockSize i) ≤ b.op := by
    obtain ⟨r, inside, low, high⟩ := (ok.block b member).within
    have := apart r inside
    have := b.size_ge
    lia
  have other (x : Nat) (out : x < op ∨ op + (k * sz + blockSize i) ≤ x) :
      carve sz k s.mem op x = s.mem x := by
    refine carve_other fun m less => ?_
    have := Nat.mul_le_mul_right sz (Nat.le_of_lt less)
    lia
  have kept (b : Block) (member : b ∈ blocks) (x : Nat) (low : b.op ≤ x)
      (high : x < b.op + b.size) :
      carve sz k s.mem op x = s.mem x := by
    have := old member
    exact other x (by lia)
  have ok' := ok.write fun b member x low high => kept b member x low (by have := b.size_ge; lia)
  have piece {x : Nat} (member : x ∈ pieces sz k op) :
      op ≤ x ∧ x + blockSize i ≤ op + (k * sz + blockSize i) := by
    obtain ⟨m, le, rfl⟩ := mem_pieces.mp member
    have := Nat.mul_le_mul_right sz le
    lia
  have between {x y : Nat} (first : x ∈ pieces sz k op) (second : y ∈ pieces sz k op)
      (differ : x ≠ y) :
      x + blockSize i ≤ y ∨ y + blockSize i ≤ x := by
    obtain ⟨m, le, rfl⟩ := mem_pieces.mp first
    obtain ⟨n, le', rfl⟩ := mem_pieces.mp second
    rcases Nat.lt_trichotomy m n with less | rfl | more
    · have := Nat.mul_le_mul_right sz less
      rw [Nat.succ_mul] at this
      have := exact' (by lia)
      lia
    · exact absurd rfl differ
    · have := Nat.mul_le_mul_right sz more
      rw [Nat.succ_mul] at this
      have := exact' (by lia)
      lia
  have none : free i = [] := by
    have threads := ok.threads i
    rw [empty] at threads
    cases list : free i with
    | nil => rfl
    | cons a rest =>
      rw [list] at threads
      cases threads with
      | cons wrong _ => exact absurd rfl wrong
  have last : word s.mem (op + k * sz) = 0 := by
    unfold word
    rw [zero _ (by lia) (by lia), zero _ (by lia) (by lia), zero _ (by lia) (by lia),
      zero _ (by lia) (by lia)]
    rfl
  have threads : Threads (word (carve sz k s.mem op)) op (pieces sz k op) :=
    carve_threads (by lia) positive (by lia) last
  refine ⟨(pieces sz k op).map (⟨·, i⟩) ++ blocks, Function.update free i (pieces sz k op), ?_,
    fun b member => List.mem_append_right _ member, fun b member x low high =>
    kept b member x (by lia) high⟩
  refine { sized := .inl pages, top := List.forall_mem_cons.mpr ⟨top, ok.top⟩,
           block := fun b member => ?_, apart := fun b first c second differ => ?_, threads :=
           fun j => ?_, listed := fun j a member => ?_, held := fun l member => ?_, used :=
             fun l member j => ?_, distinct := ok.distinct }
  · rcases List.mem_append.mp member with new | old
    · obtain ⟨x, inside, rfl⟩ := List.mem_map.mp new
      have := piece inside
      exact ⟨few, by dsimp only; lia, _, List.mem_cons_self, this⟩
    · obtain ⟨few, positive, r, inside, within⟩ := ok.block b old
      exact ⟨few, positive, r, List.mem_cons_of_mem _ inside, within⟩
  · unfold Block.Apart
    rcases List.mem_append.mp first with new | first
    · obtain ⟨x, inside, rfl⟩ := List.mem_map.mp new
      have := piece inside
      rcases List.mem_append.mp second with new' | second
      · obtain ⟨y, inside', rfl⟩ := List.mem_map.mp new'
        exact between inside inside' fun same : x = y => differ (by rw [same])
      · have := old second
        unfold Block.size at *
        dsimp only at *
        lia
    · rcases List.mem_append.mp second with new' | second
      · obtain ⟨y, inside', rfl⟩ := List.mem_map.mp new'
        have := piece inside'
        have := old first
        unfold Block.size at *
        dsimp only at *
        lia
      · exact ok.apart b first c second differ
  · rcases eq_or_ne j i with rfl | differ
    · simpa only [Function.update_self] using threads
    · simpa only [Function.update_of_ne differ] using ok'.threads j
  · rcases eq_or_ne j i with rfl | differ
    · rw [Function.update_self] at member
      exact List.mem_append_left _ (List.mem_map.mpr ⟨a, member, rfl⟩)
    · rw [Function.update_of_ne differ] at member
      exact List.mem_append_right _ (ok.listed j a member)
  · obtain ⟨j, held⟩ := ok'.held l member
    exact ⟨j, { held with block := List.mem_append_right _ held.block }⟩
  · rcases eq_or_ne j i with rfl | differ
    · rw [Function.update_self]
      intro new
      obtain ⟨m, held⟩ := ok.held l member
      have := piece new
      have := old held.block
      have := blockSize_ge m
      unfold Block.size at *
      dsimp only at *
      lia
    · rw [Function.update_of_ne differ]
      exact ok.used l member j

def refill (s : State) (i : Nat) (env : Sbrk) :
    State := if s.nextf i = 0 then morecore s i env else s

def newRange (s : State) (i : Nat) (env : Sbrk) : List (Nat × Nat) :=
  if s.nextf i = 0 ∧ i ≤ 27 then
    (env.core.map fun op => (op, op + (amount s.pagesz (2 ^ (i + 3))).1)).toList
  else []

/-- The memory that a call of `malloc` has of `sbrk` for its blocks. -/
def grown (s : State) (nbytes : Nat) (env : Sbrk) : List (Nat × Nat) :=
  ((findBucket (setup s env).1 nbytes).map fun i => newRange (setup s env).1 i env).getD []

/-- The first call has of `sbrk` what it needs to align the heap. -/
def Sbrk.Aligns (env : Sbrk) (s : State) : Prop :=
  s.pagesz = 0 → alignment env.brk ≠ 0 → env.align ≠ none

variable {env : Sbrk}

theorem Ok.setup (ok : Ok s live ranges blocks free) (aligns : env.Aligns s) :
    ∃ t, setup s env = (t, true) ∧ (t.pagesz = 4096 ∧ t.pagebucket = 9) ∧ t.mem = s.mem ∧
      t.nextf = s.nextf ∧
      Ok t live ranges blocks free := by
  unfold Malloc.setup
  split
  · rename_i first
    rw [if_neg fun fails => aligns first fails.1 fails.2]
    exact ⟨_, rfl, ⟨rfl, rfl⟩, rfl, rfl, { ok with sized := .inl ⟨rfl, rfl⟩ }⟩
  · rename_i later
    exact ⟨s, rfl, ok.sized.resolve_right fun idle => later idle.1, rfl, rfl, ok⟩

theorem morecore_large (large : 28 ≤ i) : morecore s i env = s := if_pos (by lia)

theorem morecore_none (none : env.core = none) : morecore s i env = s := by
  unfold morecore
  split
  · rfl
  · rw [none]

theorem morecore_some (few : i ≤ 27) (grows : env.core = some op) : morecore s i env =
    { s with nextf := Function.update s.nextf i op,
             mem := carve (2 ^ (i + 3)) ((amount s.pagesz (2 ^ (i + 3))).2 - 1) s.mem op } := by
  unfold morecore
  rw [if_neg (by lia), grows]

theorem Ok.refilled (ok : Ok s live ranges blocks free) (pages : s.pagesz = 4096 ∧ s.pagebucket = 9)
    (fresh : ∀ r ∈ newRange s i env, Fresh s.mem ranges r) :
    ∃ blocks' free', Ok (refill s i env) live (newRange s i env ++ ranges)
      blocks' free' ∧ (∀ b ∈ blocks, b ∈ blocks') ∧
      Keeps blocks s.mem (refill s i env).mem ∧
        (refill s i env).pagesz = 4096 ∧ (refill s i env).pagebucket = 9 := by
  have same (none : newRange s i env = []) (alone : refill s i env = s) : ∃ blocks' free', Ok
      (refill s i env) live
      (newRange s i env ++ ranges) blocks' free' ∧ (∀ b ∈ blocks, b ∈ blocks') ∧
        Keeps blocks s.mem (refill s i env).mem ∧
      (refill s i env).pagesz = 4096 ∧ (refill s i env).pagebucket = 9 := by
    rw [none, alone]
    exact ⟨blocks, free, ok, fun _ member => member, fun _ _ _ _ _ => rfl, pages⟩
  rcases eq_or_ne (s.nextf i) 0 with empty | some
  · rcases Nat.lt_or_ge 27 i with large | few
    · exact same (if_neg (by lia)) (by rw [refill, if_pos empty, morecore_large large])
    · cases grows : env.core with
      | none => exact same (by rw [newRange, grows]; exact ite_self _) (by rw [refill, if_pos empty,
        morecore_none grows])
      | some op =>
        have range : newRange s i env = [(op, op + (amount 4096 (2 ^ (i + 3))).1)] := by
          rw [newRange, grows, if_pos ⟨empty, few⟩, pages.1]
          rfl
        rw [range] at fresh ⊢
        obtain ⟨blocks', free', ok', more, keeps⟩ := ok.grow pages few empty
          (fresh _ List.mem_cons_self)
        have size : amount s.pagesz (2 ^ (i + 3)) = amount 4096 (2 ^ (i + 3)) := by rw [pages.1]
        rw [refill, if_pos empty, morecore_some few grows, size]
        exact ⟨blocks', free', ok', more, keeps, pages⟩
  · exact same (if_neg fun empty => some empty.1) (by rw [refill, if_neg some])

theorem take_none (empty : s.nextf i = 0) : Malloc.take s i = (s, 0) := if_pos empty

theorem malloc_none {t : State} (set : setup s env = (t, true)) (none : findBucket t n = none) :
    malloc s n env = (t, 0) ∧ grown s n env = [] := by
  unfold malloc grown
  simp only [set, none, Option.map_none, Option.getD_none, and_self]

theorem malloc_some {t : State} (set : setup s env = (t, true)) (found : findBucket t n = some i) :
    malloc s n env = Malloc.take (refill t i env) i ∧ grown s n env = newRange t i env := by
  unfold malloc grown
  simp only [set, found, Option.map_some, Option.getD_some]
  exact ⟨rfl, trivial⟩

theorem Ok.malloc (ok : Ok s live ranges blocks free) (aligns : env.Aligns s)
    (fresh : ∀ r ∈ grown s n env, Fresh s.mem ranges r) :
    ∃ blocks' free', Ok (malloc s n env).1
      (if (malloc s n env).2 = 0 then live else ⟨(malloc s n env).2, n⟩ :: live)
        (grown s n env ++ ranges) blocks' free' ∧ (∀ b ∈ blocks, b ∈ blocks') ∧
        Keeps blocks s.mem (malloc s n env).1.mem := by
  obtain ⟨t, set, pages, mem, nextf, ok⟩ := ok.setup aligns
  rw [← mem] at fresh ⊢
  rcases Option.eq_none_or_eq_some (findBucket t n) with none | ⟨i, found⟩
  · obtain ⟨fails, nothing⟩ := malloc_none set none
    rw [fails, nothing]
    exact ⟨blocks, free, ok, fun _ member => member, fun _ _ _ _ _ => rfl⟩
  · obtain ⟨few, room, -⟩ := findBucket_spec pages.1 pages.2 found
    obtain ⟨takes, range⟩ := malloc_some set found
    rw [range] at fresh
    rw [takes, range]
    obtain ⟨blocks', free', ok', more, keeps, pages'⟩ := ok.refilled pages fresh
    rcases eq_or_ne ((refill t i env).nextf i) 0 with empty | some
    · rw [take_none empty]
      exact ⟨blocks', free', ok', more, keeps⟩
    · obtain ⟨free'', taken, address, keeps'⟩ := ok'.take pages' some room
      rw [address, if_neg (Nat.succ_ne_zero _)]
      exact ⟨blocks', free'', taken, more, fun b member x low high =>
        (keeps' b (more b member) x low high).trans (keeps b member x low high)⟩

end Blocks

end FreeBsd.Stdlib.Malloc
