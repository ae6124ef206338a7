import FreeBsd.Kern.Malloc
import Mathlib.Data.List.Perm.Basic

/-! Blocks of kernel memory lie apart in what `kmem_malloc` has returned, and the lists of free
blocks keep to their buckets. -/
namespace FreeBsd.Kern

open FreeBsd.Lib

section Sizes

variable {size : Nat}

theorem BUCKETINDX_bounds (size : Nat) : 4 ≤ BUCKETINDX size ∧ BUCKETINDX size ≤ 19 := by
  unfold BUCKETINDX MINBUCKET
  split
  · split
    · split
      · split <;> lia
      · split <;> lia
    · split
      · split <;> lia
      · split <;> lia
  · split
    · split
      · split <;> lia
      · split <;> lia
    · split
      · split <;> lia
      · split <;> lia

/-- The buckets of parts of a page are those of requests that are no larger than half of one. -/
theorem BUCKETINDX_lt : BUCKETINDX size < 12 ↔ size ≤ 2048 := by
  unfold BUCKETINDX MINALLOCSIZE MINBUCKET
  simp only [show (1 <<< 4 : Nat) = 16 from rfl]
  grind

theorem le_two_pow_BUCKETINDX (small : size ≤ 2048) : size ≤ 2 ^ BUCKETINDX size := by
  unfold BUCKETINDX MINALLOCSIZE MINBUCKET
  simp only [show (1 <<< 4 : Nat) = 16 from rfl]
  grind

theorem BUCKETINDX_page (large : 2048 < size) (small : size ≤ 4096) : BUCKETINDX size = 12 := by
  unfold BUCKETINDX MINALLOCSIZE MINBUCKET
  simp only [show (1 <<< 4 : Nat) = 16 from rfl]
  grind

theorem allocsize_cases (bound : size < 2 ^ 32) (some : 0 < allocpages size) :
    (BUCKETINDX size < 12 ∧ allocsize size = 2 ^ BUCKETINDX size ∧ allocpages size = 1 ∧
      size ≤ 2 ^ BUCKETINDX size) ∨
    (12 ≤ BUCKETINDX size ∧ allocsize size = allocpages size * NBPG ∧
      size ≤ allocpages size * NBPG) := by
  rcases Nat.lt_or_ge 2048 size with large | small
  · right
    refine ⟨Nat.not_lt.mp fun below => Nat.not_le.mpr large (BUCKETINDX_lt.mp below), ?_⟩
    unfold allocpages at *
    rw [Nat.shiftRight_eq_div_pow] at *
    rcases Nat.lt_or_ge MAXALLOCSAVE size with past | under
    · have value : allocsize size = (size + 4095) % 2 ^ 32 / 4096 * 4096 := if_pos past
      unfold NBPG PGSHIFT MAXALLOCSAVE CLBYTES at *
      rw [value] at some ⊢
      lia
    · have value : allocsize size = 4096 := by
        rw [allocsize, if_neg (by lia),
          BUCKETINDX_page large (by unfold MAXALLOCSAVE CLBYTES at under; lia)]
        rfl
      unfold NBPG PGSHIFT MAXALLOCSAVE CLBYTES at *
      rw [value] at some ⊢
      lia
  · left
    have bucket := BUCKETINDX_lt.mpr small
    have value : allocsize size = 2 ^ BUCKETINDX size := by
      rw [allocsize, if_neg (by unfold MAXALLOCSAVE CLBYTES; lia), Nat.one_shiftLeft]
    have most : 2 ^ BUCKETINDX size ≤ 2 ^ 11 := Nat.pow_le_pow_right (by decide) (by lia)
    have least : 2 ^ 4 ≤ 2 ^ BUCKETINDX size :=
      Nat.pow_le_pow_right (by decide) (BUCKETINDX_bounds size).1
    refine ⟨bucket, value, ?_, le_two_pow_BUCKETINDX small⟩
    rw [allocpages, value, Nat.shiftRight_eq_div_pow]
    unfold NBPG PGSHIFT
    lia

end Sizes

section Places

variable {map : KmemMap} {k k' : Kmem} {ranges ranges' : List Extent} {a b p i n : Nat} {r : Extent}
    {kup : Kmemusage}

theorem btokup_eq (map : KmemMap) (a : Nat) : btokup map a = (a - map.kmembase) / NBPG := by
  rw [btokup, Nat.shiftRight_eq_div_pow]
  rfl

theorem btokup_iff (above : map.kmembase ≤ a) :
    btokup map a = p ↔ map.kmembase + p * NBPG ≤ a ∧ a < map.kmembase + p * NBPG + NBPG := by
  rw [btokup_eq]
  unfold NBPG
  lia

def pageRange (map : KmemMap) (p : Nat) : Extent := ⟨map.kmembase + p * NBPG, NBPG⟩

def roomOf (kup : Kmemusage) : Nat := if kup.indx < 12 then 2 ^ kup.indx else kup.un * NBPG

/-- The range of `kmem_map` in which the block is: its page, or all of it. -/
def rangeOf (map : KmemMap) (kup : Kmemusage) (a : Nat) : Extent :=
  if kup.indx < 12 then pageRange map (btokup map a) else ⟨a, kup.un * NBPG⟩

structure Placed (map : KmemMap) (k : Kmem) (ranges : List Extent) (a : Nat) : Prop where
  above : map.kmembase ≤ a
  bucket : 4 ≤ (k.kmemusage (btokup map a)).indx
  aligned : 2 ^ min (k.kmemusage (btokup map a)).indx 12 ∣ a - map.kmembase
  held : rangeOf map (k.kmemusage (btokup map a)) a ∈ ranges

structure WholePages (map : KmemMap) (r : Extent) : Prop where
  above : map.kmembase ≤ r.start
  aligned : NBPG ∣ r.start - map.kmembase
  pages : ∃ n, 0 < n ∧ n ≤ 4096 ∧ r.length = n * NBPG

/-- A multiple of a divisor of `m` leaves room for the divisor below the next multiple of `m`. -/
theorem mod_add_le {d m x : Nat} (divides : d ∣ x) (divides' : d ∣ m) (positive : 0 < m) :
    x % m + d ≤ m := by
  have rest : d ∣ m - x % m := Nat.dvd_sub divides' ((Nat.dvd_mod_iff divides').mpr divides)
  have below : x % m < m := Nat.mod_lt x positive
  have least : d ≤ m - x % m := Nat.le_of_dvd (by lia) rest
  lia

theorem Placed.within (placed : Placed map k ranges a) :
    (⟨a, roomOf (k.kmemusage (btokup map a))⟩ : Extent).Within
      (rangeOf map (k.kmemusage (btokup map a)) a) := by
  have above := placed.above
  have aligned := placed.aligned
  unfold roomOf rangeOf
  split
  · rename_i small
    rw [Nat.min_eq_left (by lia)] at aligned
    have fits := mod_add_le aligned (Nat.pow_dvd_pow 2 (show _ ≤ 12 by lia)) (by decide)
    have page := (btokup_iff above).mp rfl
    refine .inr ⟨page.1, ?_⟩
    unfold Extent.stop pageRange
    dsimp only
    unfold NBPG at *
    lia
  · exact .inr ⟨Nat.le_refl _, Nat.le_refl _⟩

theorem Placed.inRange (placed : Placed map k ranges a) (whole : ∀ r ∈ ranges, WholePages map r) :
    (pageRange map (btokup map a)).Within (rangeOf map (k.kmemusage (btokup map a)) a) := by
  have held := placed.held
  have aligned := placed.aligned
  unfold rangeOf at *
  split
  · exact .inr ⟨Nat.le_refl _, Nat.le_refl _⟩
  · rename_i large
    rw [if_neg large] at held
    obtain ⟨n, positive, -, length⟩ := (whole _ held).pages
    rw [Nat.min_eq_right (by omega)] at aligned
    have above := placed.above
    have page := (btokup_iff above).mp rfl
    refine .inr ?_
    unfold Extent.stop pageRange
    dsimp only at length ⊢
    unfold NBPG at *
    omega

theorem Placed.room_pos (placed : Placed map k ranges a) (whole : ∀ r ∈ ranges, WholePages map r) :
    16 ≤ roomOf (k.kmemusage (btokup map a)) := by
  have held := placed.held
  unfold roomOf rangeOf at *
  split
  · exact Nat.pow_le_pow_right (n := 2) (by decide) placed.bucket
  · rename_i large
    rw [if_neg large] at held
    obtain ⟨n, positive, -, length⟩ := (whole _ held).pages
    unfold NBPG at *
    dsimp only at length
    omega

/-- Two blocks in the same page, or in the same range, are parts of the same size. -/
theorem Placed.same_page (placed : Placed map k ranges a) (placed' : Placed map k ranges b)
    (apart : ranges.Pairwise Extent.Apart)
    (meet : ¬ (rangeOf map (k.kmemusage (btokup map a)) a).Apart
      (rangeOf map (k.kmemusage (btokup map b)) b))
    (other : a ≠ b) : btokup map a = btokup map b ∧ (k.kmemusage (btokup map a)).indx < 12 := by
  have same : rangeOf map (k.kmemusage (btokup map a)) a =
      rangeOf map (k.kmemusage (btokup map b)) b := by
    by_contra differ
    exact meet (apart.forall placed.held placed'.held differ)
  have above := placed.above
  have above' := placed'.above
  unfold rangeOf at same
  split at same
  · rename_i small
    split at same
    · have start : (pageRange map (btokup map a)).start =
        (pageRange map (btokup map b)).start := by rw [same]
      unfold pageRange NBPG at start
      dsimp only at start
      exact ⟨by omega, small⟩
    · rename_i large
      have start : (pageRange map (btokup map a)).start = b := by rw [same]
      have page : btokup map b = btokup map a := by
        rw [btokup_iff above', ← start]
        exact ⟨Nat.le_refl _, Nat.lt_add_of_pos_right (by decide)⟩
      rw [page] at large
      exact absurd small large
  · rename_i large
    split at same
    · rename_i small
      have start : a = (pageRange map (btokup map b)).start := by rw [← same]
      have page : btokup map a = btokup map b := by
        rw [btokup_iff above, start]
        exact ⟨Nat.le_refl _, Nat.lt_add_of_pos_right (by decide)⟩
      rw [page] at large
      exact absurd small large
    · exact absurd (congrArg Extent.start same) other

theorem Placed.apart (placed : Placed map k ranges a) (placed' : Placed map k ranges b)
    (apart : ranges.Pairwise Extent.Apart) (other : a ≠ b) :
    (⟨a, roomOf (k.kmemusage (btokup map a))⟩ : Extent).Apart
      ⟨b, roomOf (k.kmemusage (btokup map b))⟩ := by
  by_cases meet :
    (rangeOf map (k.kmemusage (btokup map a)) a).Apart (rangeOf map (k.kmemusage (btokup map b)) b)
  · exact ((meet.mono placed.within).symm.mono placed'.within).symm
  · obtain ⟨page, small⟩ := placed.same_page placed' apart meet other
    have aligned := placed.aligned
    have aligned' := placed'.aligned
    rw [← page] at aligned' ⊢
    rw [Nat.min_eq_left (by lia)] at aligned aligned'
    obtain ⟨m, first⟩ := aligned
    obtain ⟨n, second⟩ := aligned'
    have above := placed.above
    have above' := placed'.above
    unfold roomOf Extent.Apart Extent.stop
    rw [if_pos small]
    dsimp only
    rcases Nat.lt_trichotomy m n with less | same | more
    · have step := Nat.mul_le_mul_left (2 ^ (k.kmemusage (btokup map a)).indx) less
      rw [Nat.mul_succ, ← second, ← first] at step
      lia
    · subst same
      lia
    · have step := Nat.mul_le_mul_left (2 ^ (k.kmemusage (btokup map a)).indx) more
      rw [Nat.mul_succ, ← second, ← first] at step
      lia

theorem Placed.elsewhere (placed : Placed map k ranges a) (whole : ∀ r ∈ ranges, WholePages map r)
    (fresh : ∀ r' ∈ ranges, r.Apart r') (inside : (pageRange map p).Within r) :
      btokup map a ≠ p := by
  rintro rfl
  have apart := (fresh _ placed.held).mono inside
  have apart := apart.symm.mono (placed.inRange whole)
  unfold Extent.Apart Extent.stop pageRange NBPG at apart
  dsimp only at apart
  omega

/-- What is known of a page, but for a count of free blocks, and its range keep a block in place. -/
theorem Placed.keep (placed : Placed map k ranges a)
    (indx : (k'.kmemusage (btokup map a)).indx = (k.kmemusage (btokup map a)).indx)
    (un : 12 ≤ (k.kmemusage (btokup map a)).indx →
      (k'.kmemusage (btokup map a)).un = (k.kmemusage (btokup map a)).un)
    (held : rangeOf map (k.kmemusage (btokup map a)) a ∈ ranges →
      rangeOf map (k.kmemusage (btokup map a)) a ∈ ranges') :
    Placed map k' ranges' a ∧
      roomOf (k'.kmemusage (btokup map a)) = roomOf (k.kmemusage (btokup map a)) := by
  have range : rangeOf map (k'.kmemusage (btokup map a)) a =
      rangeOf map (k.kmemusage (btokup map a)) a := by
    unfold rangeOf
    rw [indx]
    split
    · rfl
    · rename_i large
      rw [un (by omega)]
  refine ⟨⟨placed.above, by rw [indx]; exact placed.bucket, by rw [indx]; exact placed.aligned, ?_⟩,
    ?_⟩
  · rw [range]
    exact held placed.held
  · unfold roomOf
    rw [indx]
    split
    · rfl
    · rename_i large
      rw [un (by omega)]

end Places

section Carve

variable {mem : Nat → Nat} {va d saved j x : Nat} {xs : List Nat}

def pieces (va d : Nat) : Nat → List Nat
  | 0 => [va]
  | j + 1 => (va + (j + 1) * d) :: pieces va d j

theorem mem_pieces : x ∈ pieces va d j ↔ ∃ m ≤ j, x = va + m * d := by
  induction j with
  | zero => simp [pieces]
  | succ j ih =>
    rw [pieces, List.mem_cons, ih]
    constructor
    · rintro (rfl | ⟨m, bound, rfl⟩)
      · exact ⟨j + 1, Nat.le_refl _, rfl⟩
      · exact ⟨m, Nat.le_succ_of_le bound, rfl⟩
    · rintro ⟨m, bound, rfl⟩
      rcases Nat.le_succ_iff.mp bound with less | rfl
      · exact .inr ⟨m, less, rfl⟩
      · exact .inl rfl

theorem length_pieces : (pieces va d j).length = j + 1 := by
  induction j with
  | zero => rfl
  | succ j ih => rw [pieces, List.length_cons, ih]

/-- The loop links the blocks from `cp` down, and the lowest to the list there was. -/
theorem carve_spec (positive : 0 < va) (size : 0 < d) (n : Nat) (enough : j ≤ n)
    (threads : Threads mem saved xs) (fresh : ∀ x ∈ xs, x ∉ pieces va d j) :
    Threads (carve va d saved n (va + j * d) mem) (va + j * d) (pieces va d j ++ xs) ∧
      ∀ x, x ∉ pieces va d j → carve va d saved n (va + j * d) mem x = mem x := by
  induction j generalizing n mem with
  | zero =>
    have last : carve va d saved n (va + 0 * d) mem = Function.update mem va saved := by
      cases n with
      | zero => rw [carve, Nat.zero_mul, Nat.add_zero]
      | succ n => rw [carve, if_neg (by lia), Nat.zero_mul, Nat.add_zero]
    rw [last, Nat.zero_mul, Nat.add_zero]
    refine ⟨?_, fun x other => Function.update_of_ne (fun same => other (by simp [pieces, same])) _
      _⟩
    refine threads.push (fun again => fresh va again (by simp [pieces])) (by lia)
  | succ j ih =>
    cases n with
    | zero => lia
    | succ n =>
      have step : (j + 1) * d = j * d + d := Nat.succ_mul j d
      have above : ∀ m ≤ j, va + (j + 1) * d ≠ va + m * d := fun m bound same => by
        have less := Nat.mul_le_mul_right d bound
        lia
      have outside : va + (j + 1) * d ∉ pieces va d j := fun inside => by
        obtain ⟨m, bound, same⟩ := mem_pieces.mp inside
        exact above m bound same
      have next : va + (j + 1) * d - d = va + j * d := by lia
      rw [carve, if_pos (by lia), next]
      have threads' : Threads (Function.update mem (va + (j + 1) * d) (va + j * d)) saved xs :=
        threads.congr fun x member =>
          Function.update_of_ne (fun same => fresh x member (by rw [same, pieces]; simp)) _ _
      obtain ⟨linked, kept⟩ := ih n (by lia) threads' fun x member inside =>
        fresh x member (List.mem_cons_of_mem _ inside)
      constructor
      · refine .cons (by lia) ?_
        rw [kept _ outside, Function.update_self]
        exact linked
      · intro x other
        rw [pieces, List.mem_cons, not_or] at other
        rw [kept x other.2, Function.update_of_ne other.1]

end Carve

section Invariant

variable {map : KmemMap} {k k' : Kmem} {live : List KmemBlock} {ranges : List Extent}
    {free : Nat → List Nat}
  {a b p q i n va size : Nat} {r : Extent} {c : MallocCall} {type : Fin M_LAST} {mem : Nat → Nat}

def freeIn (map : KmemMap) (l : List Nat) (p : Nat) : Nat := l.countP fun a => btokup map a = p

def usedIn (map : KmemMap) (l : List KmemBlock) (p : Nat) :
    Nat := l.countP fun b => btokup map b.addr = p

/-- The free blocks, bucket by bucket, and those in use have their places, and are all there is in
the pages. -/
structure KmemOk (map : KmemMap) (k : Kmem) (live : List KmemBlock) (ranges : List Extent)
    (free : Nat → List Nat) :
    Prop where
  whole : ∀ r ∈ ranges, WholePages map r
  apart : ranges.Pairwise Extent.Apart
  threads : ∀ i, Threads k.mem (k.next i) (free i)
  freed : ∀ i, ∀ a ∈ free i, i < 12 ∧ Placed map k ranges a ∧ (k.kmemusage (btokup map a)).indx = i
  used : ∀ b ∈ live, Placed map k ranges b.addr ∧ b.size ≤ roomOf (k.kmemusage (btokup map b.addr))
  once : (live.map KmemBlock.addr).Nodup
  other : ∀ b ∈ live, ∀ i, b.addr ∉ free i
  counts : ∀ p, pageRange map p ∈ ranges → (k.kmemusage p).indx < 12 →
    freeIn map (free (k.kmemusage p).indx) p = (k.kmemusage p).un ∧
      (k.kmemusage p).un + usedIn map live p = elmpercl (k.kmemusage p).indx

@[simp] theorem freeIn_cons (l : List Nat) :
    freeIn map (a :: l) p = freeIn map l p + if btokup map a = p then 1 else 0 := by
  simp [freeIn, List.countP_cons]

@[simp] theorem usedIn_cons (l : List KmemBlock) :
    usedIn map (⟨a, size⟩ :: l) p = usedIn map l p + if btokup map a = p then 1 else 0 := by
  simp [usedIn, List.countP_cons]

theorem elmpercl_small (small : i < 12) : elmpercl i = NBPG / 2 ^ i := by
  have less : 2 ^ i ≤ 2 ^ 11 := Nat.pow_le_pow_right (by decide) (by omega)
  rw [elmpercl, Nat.one_shiftLeft, if_neg (by unfold CLBYTES; omega)]
  rfl

theorem Placed.page_held (placed : Placed map k ranges a)
    (small : (k.kmemusage (btokup map a)).indx < 12) :
    pageRange map (btokup map a) ∈ ranges := by
  have held := placed.held
  rw [rangeOf, if_pos small] at held
  exact held

theorem Placed.recount (placed : Placed map k ranges a) (small : (k.kmemusage q).indx < 12)
    {un : Nat} (usage : k'.kmemusage = Function.update k.kmemusage q ⟨(k.kmemusage q).indx, un⟩) :
    Placed map k' ranges a ∧
      roomOf (k'.kmemusage (btokup map a)) = roomOf (k.kmemusage (btokup map a)) ∧
      (k'.kmemusage (btokup map a)).indx = (k.kmemusage (btokup map a)).indx := by
  have indx : (k'.kmemusage (btokup map a)).indx = (k.kmemusage (btokup map a)).indx := by
    rw [usage]
    by_cases here : btokup map a = q
    · rw [here, Function.update_self]
    · rw [Function.update_of_ne here]
  have kept := @Placed.keep map k k' ranges ranges a placed indx (fun large => by
    rw [usage, Function.update_of_ne]
    rintro rfl
    omega) id
  exact ⟨kept.1, kept.2, indx⟩

theorem KmemOk.pop (ok : KmemOk map k live ranges free) {rest : List Nat}
    (split : free i = va :: rest) (fits : size ≤ 2 ^ i) (mem : k'.mem = k.mem)
    (next : k'.next = Function.update k.next i (k.mem va))
    (usage : k'.kmemusage = Function.update k.kmemusage (btokup map va) ⟨i,
    (k.kmemusage (btokup map va)).un - 1⟩) :
    KmemOk map k' (⟨va, size⟩ :: live) ranges (Function.update free i rest) := by
  have inside : va ∈ free i := by rw [split]; exact List.mem_cons_self
  have threads := ok.threads i
  have nodup := threads.nodup
  rw [split] at threads nodup
  obtain ⟨small, placed, indx⟩ := ok.freed i va inside
  have page := placed.page_held (by lia)
  obtain ⟨frees, total⟩ := ok.counts _ page (by lia)
  rw [indx, split, freeIn_cons, if_pos rfl] at frees
  rw [indx] at total
  have usage' := usage
  rw [← indx] at usage'
  have subset : ∀ j, Function.update free i rest j ⊆ free j := fun j a member => by
    by_cases same : j = i
    · subst same
      rw [Function.update_self] at member
      rw [split]
      exact List.mem_cons_of_mem _ member
    · rwa [Function.update_of_ne same] at member
  exact {
    whole := ok.whole
    apart := ok.apart
    threads := fun j => by
      rw [mem, next]
      by_cases same : j = i
      · subst same
        rw [Function.update_self, Function.update_self]
        exact threads.tail
      · rw [Function.update_of_ne same, Function.update_of_ne same]
        exact ok.threads j
    freed := fun j a member => by
      obtain ⟨below, placed', bucket⟩ := ok.freed j a (subset j member)
      obtain ⟨kept, -, same⟩ := placed'.recount (by lia) usage'
      exact ⟨below, kept, same.trans bucket⟩
    used := fun b member => by
      rcases List.mem_cons.mp member with rfl | old
      · obtain ⟨kept, room, same⟩ := placed.recount (by lia) usage'
        refine ⟨kept, ?_⟩
        rw [room, roomOf, indx, if_pos small]
        exact fits
      · obtain ⟨placed', fits⟩ := ok.used b old
        obtain ⟨kept, room, same⟩ := placed'.recount (by lia) usage'
        exact ⟨kept, by rw [room]; exact fits⟩
    once := by
      rw [List.map_cons, List.nodup_cons]
      refine ⟨fun again => ?_, ok.once⟩
      obtain ⟨b, member, same⟩ := List.mem_map.mp again
      exact ok.other b member i (by rw [same]; exact inside)
    other := fun b member j again => by
      rcases List.mem_cons.mp member with rfl | old
      · by_cases same : j = i
        · subst same
          rw [Function.update_self] at again
          exact (List.nodup_cons.mp nodup).1 again
        · have bucket := (ok.freed j va (subset j again)).2.2
          lia
      · exact ok.other b old j (subset j again)
    counts := fun p held below => by
      rw [usage] at below ⊢
      by_cases here : p = btokup map va
      · subst here
        rw [Function.update_self, Function.update_self, usedIn_cons, if_pos rfl]
        dsimp only
        lia
      · rw [Function.update_of_ne here] at below ⊢
        obtain ⟨frees', total'⟩ := ok.counts p held below
        rw [usedIn_cons, if_neg (fun same => here same.symm)]
        refine ⟨?_, total'⟩
        by_cases same : (k.kmemusage p).indx = i
        · rw [same, Function.update_self]
          rw [same, split, freeIn_cons, if_neg (fun same => here same.symm)] at frees'
          exact frees'
        · rw [Function.update_of_ne same]
          exact frees' }

/-- A block that is freed goes to the list of its bucket, and its first word links it there. -/
theorem KmemOk.push (ok : KmemOk map k live ranges free) {b : KmemBlock} (inside : b ∈ live)
    (indx : (k.kmemusage (btokup map b.addr)).indx = i) (small : i < 12)
    (positive : 0 < map.kmembase) (mem : k'.mem = Function.update k.mem b.addr (k.next i))
    (next : k'.next = Function.update k.next i b.addr) (usage : k'.kmemusage =
      Function.update k.kmemusage (btokup map b.addr) ⟨i,
        (k.kmemusage (btokup map b.addr)).un + 1⟩) :
    KmemOk map k' (live.erase b) ranges (Function.update free i (b.addr :: free i)) := by
  have perm := List.perm_cons_erase inside
  obtain ⟨placed, -⟩ := ok.used b inside
  have page := placed.page_held (by lia)
  have above := placed.above
  have once : (b.addr :: (live.erase b).map KmemBlock.addr).Nodup :=
    (perm.map KmemBlock.addr).nodup_iff.mp ok.once
  have used : ∀ p, usedIn map live p = usedIn map (live.erase b) p +
    if btokup map b.addr = p then 1 else 0 := fun p => by
    have cons : usedIn map (b :: live.erase b) p = _ := usedIn_cons _
    rw [← cons]
    exact perm.countP_eq _
  have usage' := usage
  rw [← indx] at usage'
  exact {
    whole := ok.whole
    apart := ok.apart
    threads := fun j => by
      rw [mem, next]
      by_cases same : j = i
      · subst same
        rw [Function.update_self, Function.update_self]
        exact (ok.threads j).push (ok.other b inside j) (by lia)
      · rw [Function.update_of_ne same, Function.update_of_ne same]
        refine (ok.threads j).congr fun a member => Function.update_of_ne ?_ _ _
        rintro rfl
        exact ok.other b inside j member
    freed := fun j a member => by
      by_cases new : a = b.addr
      · subst new
        have bucket : j = i := by
          by_contra differ
          rw [Function.update_of_ne differ] at member
          exact ok.other b inside j member
        obtain ⟨kept, -, same⟩ := placed.recount (by lia) usage'
        exact ⟨by lia, kept, by lia⟩
      · have old : a ∈ free j := by
          by_cases same : j = i
          · subst same
            rw [Function.update_self] at member
            exact (List.mem_cons.mp member).resolve_left new
          · rwa [Function.update_of_ne same] at member
        obtain ⟨below, placed', bucket⟩ := ok.freed j a old
        obtain ⟨kept, -, same⟩ := placed'.recount (by lia) usage'
        exact ⟨below, kept, same.trans bucket⟩
    used := fun b' member => by
      obtain ⟨placed', fits⟩ := ok.used b' (List.mem_of_mem_erase member)
      obtain ⟨kept, room, -⟩ := placed'.recount (by lia) usage'
      exact ⟨kept, by rw [room]; exact fits⟩
    once := (List.nodup_cons.mp once).2
    other := fun b' member j again => by
      have differ : b'.addr ≠ b.addr := fun same =>
        (List.nodup_cons.mp once).1 (List.mem_map.mpr ⟨b', member, same⟩)
      refine ok.other b' (List.mem_of_mem_erase member) j ?_
      by_cases same : j = i
      · subst same
        rw [Function.update_self] at again
        exact (List.mem_cons.mp again).resolve_left differ
      · rwa [Function.update_of_ne same] at again
    counts := fun p held below => by
      rw [usage] at below ⊢
      have used := used p
      by_cases here : p = btokup map b.addr
      · subst here
        obtain ⟨frees, total⟩ := ok.counts _ page (by lia)
        rw [indx] at frees total
        rw [if_pos rfl] at used
        rw [Function.update_self]
        dsimp only
        rw [Function.update_self, freeIn_cons, if_pos rfl]
        lia
      · obtain ⟨frees, total⟩ := ok.counts p held (by rwa [Function.update_of_ne here] at below)
        rw [if_neg (fun same => here same.symm)] at used
        rw [Function.update_of_ne here, ← used.trans (Nat.add_zero _)]
        refine ⟨?_, total⟩
        by_cases same : (k.kmemusage p).indx = i
        · rw [same] at frees ⊢
          rw [Function.update_self, freeIn_cons, if_neg (fun same => here same.symm)]
          exact frees
        · rw [Function.update_of_ne same]
          exact frees }

/-- Nothing changes for the blocks that there are when a page in a new range is taken into use. -/
theorem Placed.beside (placed : Placed map k ranges a) (whole : ∀ r ∈ ranges, WholePages map r)
    (fresh : ∀ r' ∈ ranges, r.Apart r') (inside : (pageRange map p).Within r) {kup : Kmemusage}
    (usage : k'.kmemusage = Function.update k.kmemusage p kup) :
    btokup map a ≠ p ∧ k'.kmemusage (btokup map a) = k.kmemusage (btokup map a) ∧
      Placed map k' (r :: ranges) a := by
  have away := placed.elsewhere whole fresh inside
  have same : k'.kmemusage (btokup map a) = k.kmemusage (btokup map a) := by
    rw [usage, Function.update_of_ne away]
  exact ⟨away, same,
    (placed.keep (by rw [same]) (fun _ => by rw [same]) (List.mem_cons_of_mem r)).1⟩

theorem page_cases (whole : WholePages map r) (fresh : ∀ r' ∈ ranges, r.Apart r')
    (start : map.kmembase + p * NBPG = r.start) (held : pageRange map q ∈ r :: ranges) :
      q = p ∨ q ≠ p ∧ pageRange map q ∈ ranges := by
  rcases List.mem_cons.mp held with same | old
  · left
    have starts : map.kmembase + q * NBPG = r.start := congrArg Extent.start same
    unfold NBPG at *
    lia
  · right
    refine ⟨?_, old⟩
    rintro rfl
    obtain ⟨n, positive, -, length⟩ := whole.pages
    have apart := fresh _ old
    unfold Extent.Apart Extent.stop pageRange at apart
    dsimp only at apart
    rw [start, length] at apart
    unfold NBPG at apart
    lia

theorem KmemOk.addLarge (ok : KmemOk map k live ranges free) (whole : WholePages map r)
    (fresh : ∀ r' ∈ ranges, r.Apart r') (large : 12 ≤ i) (length : r.length = n * NBPG)
    (fits : size ≤ n * NBPG) (mem : k'.mem = k.mem) (next : k'.next = k.next)
    (usage : k'.kmemusage = Function.update k.kmemusage (btokup map r.start) ⟨i, n⟩) :
    KmemOk map k' (⟨r.start, size⟩ :: live) (r :: ranges) free := by
  have above := whole.above
  have aligned := whole.aligned
  have start : map.kmembase + btokup map r.start * NBPG = r.start := by
    rw [btokup_eq, Nat.div_mul_cancel aligned]
    lia
  have inside : (pageRange map (btokup map r.start)).Within r := by
    obtain ⟨m, positive, -, pages⟩ := whole.pages
    refine .inr ⟨Nat.le_of_eq start.symm, ?_⟩
    unfold Extent.stop pageRange
    dsimp only
    rw [start, pages]
    exact Nat.add_le_add_left (Nat.le_mul_of_pos_left _ positive) _
  have here : k'.kmemusage (btokup map r.start) = ⟨i, n⟩ := by rw [usage, Function.update_self]
  have beside : ∀ a, Placed map k ranges a → _ :=
    fun a placed => placed.beside ok.whole fresh inside usage
  exact {
    whole := List.forall_mem_cons.mpr ⟨whole, ok.whole⟩
    apart := List.pairwise_cons.mpr ⟨fresh, ok.apart⟩
    threads := fun j => by
      rw [mem, next]
      exact ok.threads j
    freed := fun j a member => by
      obtain ⟨below, placed, bucket⟩ := ok.freed j a member
      obtain ⟨-, same, kept⟩ := beside a placed
      exact ⟨below, kept, by rw [same]; exact bucket⟩
    used := fun b member => by
      rcases List.mem_cons.mp member with rfl | old
      · dsimp only
        refine ⟨⟨above, by rw [here]; dsimp only; lia, ?_, ?_⟩, ?_⟩
        · rw [here, Nat.min_eq_right large]
          exact aligned
        · rw [here, rangeOf, if_neg (by dsimp only; lia)]
          dsimp only
          rw [← length]
          exact List.mem_cons_self
        · rw [here, roomOf, if_neg (by dsimp only; lia)]
          exact fits
      · obtain ⟨placed, fits⟩ := ok.used b old
        obtain ⟨-, same, kept⟩ := beside b.addr placed
        exact ⟨kept, by rw [same]; exact fits⟩
    once := by
      rw [List.map_cons, List.nodup_cons]
      refine ⟨fun again => ?_, ok.once⟩
      obtain ⟨b, member, same⟩ := List.mem_map.mp again
      exact (beside b.addr (ok.used b member).1).1 (congrArg _ same)
    other := fun b member j again => by
      rcases List.mem_cons.mp member with rfl | old
      · exact (beside _ (ok.freed j _ again).2.1).1 rfl
      · exact ok.other b old j again
    counts := fun q held below => by
      rcases page_cases whole fresh start held with rfl | ⟨differ, old⟩
      · rw [here] at below
        dsimp only at below
        lia
      · rw [usage, Function.update_of_ne differ] at below ⊢
        rw [usedIn_cons, if_neg differ.symm]
        exact ok.counts q old below }

theorem piece_place {start d x : Nat} (above : map.kmembase ≤ start)
    (aligned : NBPG ∣ start - map.kmembase) (divides : d ∣ NBPG)
    (member : x ∈ pieces start d (NBPG / d - 1)) :
    map.kmembase ≤ x ∧ btokup map x = btokup map start ∧ d ∣ x - map.kmembase := by
  obtain ⟨j, bound, rfl⟩ := mem_pieces.mp member
  have positive : 0 < d := Nat.pos_of_dvd_of_pos divides (by decide)
  have whole := Nat.div_mul_cancel divides
  have some : 0 < NBPG / d := Nat.div_pos (Nat.le_of_dvd (by decide) divides) positive
  have below : j * d < NBPG := by
    rw [← whole]
    exact Nat.mul_lt_mul_of_pos_right (by lia) positive
  have split : start + j * d - map.kmembase = (start - map.kmembase) + j * d := by lia
  obtain ⟨q, pages⟩ := aligned
  refine ⟨by lia, ?_, ?_⟩
  · rw [btokup_eq, btokup_eq, split, pages, Nat.mul_add_div (by decide), Nat.div_eq_of_lt below,
      Nat.mul_div_cancel_left _ (by decide), Nat.add_zero]
  · rw [split]
    exact Nat.dvd_add (Nat.dvd_trans divides ⟨q, pages⟩) (Nat.dvd_mul_left d j)

theorem freed_pieces {start d : Nat} (all : ∀ x ∈ pieces start d n, btokup map x = p) :
    freeIn map (pieces start d n ++ free i) p = n + 1 + freeIn map (free i) p := by
  unfold freeIn
  rw [List.countP_append, List.countP_eq_length.mpr fun x member => decide_eq_true (all x member),
    length_pieces]

theorem KmemOk.addPage (ok : KmemOk map k live ranges free) (whole : WholePages map r)
    (fresh : ∀ r' ∈ ranges, r.Apart r') (least : 4 ≤ i) (small : i < 12) (length : r.length = NBPG)
    (positive : 0 < map.kmembase)
    (mem : k'.mem = carve r.start (2 ^ i) (k.next i) (NBPG / 2 ^ i) (r.start + NBPG - 2 ^ i) k.mem)
    (next : k'.next = Function.update k.next i (r.start + NBPG - 2 ^ i))
    (usage : k'.kmemusage = Function.update k.kmemusage (btokup map r.start) ⟨i, elmpercl i⟩) :
    KmemOk map k' live (r :: ranges)
      (Function.update free i (pieces r.start (2 ^ i) (NBPG / 2 ^ i - 1) ++ free i)) := by
  have above := whole.above
  have aligned := whole.aligned
  have divides : 2 ^ i ∣ NBPG := Nat.pow_dvd_pow 2 (show i ≤ 12 by lia)
  have start : map.kmembase + btokup map r.start * NBPG = r.start := by
    rw [btokup_eq, Nat.div_mul_cancel aligned]
    lia
  have page : pageRange map (btokup map r.start) = r := by
    cases r with
    | mk s l =>
      dsimp only at start length ⊢
      rw [pageRange, start, length]
  have beside : ∀ a, Placed map k ranges a → _ := fun a placed =>
    placed.beside ok.whole fresh (.inr ⟨Nat.le_of_eq (congrArg Extent.start page).symm,
      Nat.le_of_eq (congrArg Extent.stop page)⟩) usage
  have here : k'.kmemusage (btokup map r.start) =
    ⟨i, elmpercl i⟩ := by rw [usage, Function.update_self]
  have place : ∀ x ∈ pieces r.start (2 ^ i) (NBPG / 2 ^ i - 1), _ := fun x member =>
    piece_place above aligned divides member
  have outside : ∀ a, Placed map k ranges a → a ∉ pieces r.start (2 ^ i) (NBPG / 2 ^ i - 1) :=
    fun a placed member =>
    (beside a placed).1 (place a member).2.1
  have some : 0 < NBPG / 2 ^ i :=
    Nat.div_pos (Nat.le_of_dvd (by decide) divides) (Nat.two_pow_pos i)
  have first : r.start + NBPG - 2 ^ i = r.start + (NBPG / 2 ^ i - 1) * 2 ^ i := by
    have cut := Nat.div_mul_cancel divides
    have least := Nat.le_of_dvd (show 0 < NBPG by decide) divides
    rw [Nat.sub_mul, cut, Nat.one_mul]
    lia
  obtain ⟨linked, kept⟩ := carve_spec (show 0 < r.start by lia) (Nat.two_pow_pos i) (NBPG / 2 ^ i)
    (Nat.sub_le _ 1) (ok.threads i) fun x member => outside x (ok.freed i x member).2.1
  rw [← first, ← mem] at linked kept
  exact {
    whole := List.forall_mem_cons.mpr ⟨whole, ok.whole⟩
    apart := List.pairwise_cons.mpr ⟨fresh, ok.apart⟩
    threads := fun j => by
      rw [next]
      by_cases same : j = i
      · subst same
        rw [Function.update_self, Function.update_self]
        exact linked
      · rw [Function.update_of_ne same, Function.update_of_ne same]
        exact (ok.threads j).congr fun x member => kept x (outside x (ok.freed j x member).2.1)
    freed := fun j a member => by
      have cases : a ∈ free j ∨ j = i ∧ a ∈ pieces r.start (2 ^ i) (NBPG / 2 ^ i - 1) := by
        by_cases same : j = i
        · subst same
          rw [Function.update_self] at member
          rcases List.mem_append.mp member with new | old
          · exact .inr ⟨rfl, new⟩
          · exact .inl old
        · rw [Function.update_of_ne same] at member
          exact .inl member
      rcases cases with old | ⟨rfl, new⟩
      · obtain ⟨below, placed, bucket⟩ := ok.freed j a old
        obtain ⟨-, same, kept⟩ := beside a placed
        exact ⟨below, kept, by rw [same]; exact bucket⟩
      · obtain ⟨low, pg, multiple⟩ := place a new
        refine ⟨small, ⟨low, ?_, ?_, ?_⟩, ?_⟩
        · rw [pg, here]
          exact least
        · rw [pg, here, Nat.min_eq_left (show j ≤ 12 by lia)]
          exact multiple
        · rw [pg, here, rangeOf, if_pos small, pg, page]
          exact List.mem_cons_self
        · rw [pg, here]
    used := fun b member => by
      obtain ⟨placed, fits⟩ := ok.used b member
      obtain ⟨-, same, kept⟩ := beside b.addr placed
      exact ⟨kept, by rw [same]; exact fits⟩
    once := ok.once
    other := fun b member j again => by
      by_cases same : j = i
      · subst same
        rw [Function.update_self] at again
        rcases List.mem_append.mp again with new | old
        · exact outside b.addr (ok.used b member).1 new
        · exact ok.other b member j old
      · rw [Function.update_of_ne same] at again
        exact ok.other b member j again
    counts := fun q held below => by
      rcases page_cases whole fresh start held with rfl | ⟨differ, old⟩
      · rw [here, Function.update_self, freed_pieces fun x member => (place x member).2.1,
          elmpercl_small small]
        have frees : freeIn map (free i) (btokup map r.start) = 0 :=
          List.countP_eq_zero.mpr fun a member => by
            simpa using (beside a (ok.freed i a member).2.1).1
        have useds : usedIn map live (btokup map r.start) = 0 :=
          List.countP_eq_zero.mpr fun b member => by
            simpa using (beside b.addr (ok.used b member).1).1
        dsimp only
        lia
      · rw [usage, Function.update_of_ne differ] at below ⊢
        obtain ⟨frees, total⟩ := ok.counts q old below
        refine ⟨?_, total⟩
        by_cases same : (k.kmemusage q).indx = i
        · have none :
              (pieces r.start (2 ^ i) (NBPG / 2 ^ i - 1)).countP (fun a => btokup map a = q) = 0 :=
            List.countP_eq_zero.mpr fun x member => by
              rw [(place x member).2.1]
              simpa using differ.symm
          rw [same] at frees ⊢
          rw [Function.update_self, freeIn, List.countP_append, none, Nat.zero_add]
          exact frees
        · rw [Function.update_of_ne same]
          exact frees }

theorem ranges_nodup (whole : ∀ r ∈ ranges, WholePages map r)
    (apart : ranges.Pairwise Extent.Apart) : ranges.Nodup := by
  refine apart.imp_of_mem fun {x y} inX inY apart same => ?_
  subst same
  obtain ⟨n, positive, -, length⟩ := (whole x inX).pages
  unfold Extent.Apart Extent.stop at apart
  rw [length] at apart
  unfold NBPG at apart
  omega

theorem Placed.meets (placed : Placed map k ranges a) (whole : ∀ r ∈ ranges, WholePages map r) :
    ¬ (rangeOf map (k.kmemusage (btokup map a)) a).Apart
      (rangeOf map (k.kmemusage (btokup map a)) a) := by
  obtain ⟨n, positive, -, length⟩ := (whole _ placed.held).pages
  unfold Extent.Apart Extent.stop
  rw [length]
  unfold NBPG
  omega

theorem KmemOk.drop (ok : KmemOk map k live ranges free) {b : KmemBlock} (inside : b ∈ live)
    (large : 12 ≤ (k.kmemusage (btokup map b.addr)).indx) (mem : k'.mem = k.mem)
    (next : k'.next = k.next)
    (usage : k'.kmemusage = Function.update k.kmemusage (btokup map b.addr) ⟨0, 0⟩) :
    KmemOk map k' (live.erase b) (ranges.erase ⟨b.addr,
      (k.kmemusage (btokup map b.addr)).un * NBPG⟩) free := by
  obtain ⟨placed, -⟩ := ok.used b inside
  have range : rangeOf map (k.kmemusage (btokup map b.addr)) b.addr =
      ⟨b.addr, (k.kmemusage (btokup map b.addr)).un * NBPG⟩ := if_neg (by lia)
  have perm := List.perm_cons_erase inside
  have once : (b.addr :: (live.erase b).map KmemBlock.addr).Nodup :=
    (perm.map KmemBlock.addr).nodup_iff.mp ok.once
  -- another block is in another page, and in another range
  have apart : ∀ a, Placed map k ranges a → a ≠ b.addr → btokup map a ≠ btokup map b.addr := by
    intro a placed' other page
    have aligned := placed.aligned
    have aligned' := placed'.aligned
    have above := placed.above
    have above' := placed'.above
    rw [page, Nat.min_eq_right large] at aligned'
    rw [Nat.min_eq_right large] at aligned
    rw [btokup_eq, btokup_eq] at page
    have same := (Nat.div_left_inj aligned' aligned).mp page
    lia
  have keep : ∀ a, Placed map k ranges a → a ≠ b.addr →
      k'.kmemusage (btokup map a) = k.kmemusage (btokup map a) ∧
        Placed map k' (ranges.erase ⟨b.addr, (k.kmemusage (btokup map b.addr)).un * NBPG⟩) a := by
    intro a placed' other
    have same : k'.kmemusage (btokup map a) = k.kmemusage (btokup map a) := by
      rw [usage, Function.update_of_ne (apart a placed' other)]
    refine ⟨same, (placed'.keep (by rw [same]) (fun _ => by rw [same]) ?_).1⟩
    refine (List.mem_erase_of_ne ?_).mpr
    intro shared
    rw [← range] at shared
    have meets := placed.meets ok.whole
    rw [← shared] at meets
    exact apart a placed' other (placed'.same_page placed ok.apart (by rw [← shared]; exact meets)
      other).1
  exact {
    whole := fun r member => ok.whole r (List.mem_of_mem_erase member)
    apart := ok.apart.sublist List.erase_sublist
    threads := fun j => by
      rw [mem, next]
      exact ok.threads j
    freed := fun j a member => by
      obtain ⟨below, placed', bucket⟩ := ok.freed j a member
      have other : a ≠ b.addr := by
        rintro rfl
        exact ok.other b inside j member
      obtain ⟨same, kept⟩ := keep a placed' other
      exact ⟨below, kept, by rw [same]; exact bucket⟩
    used := fun b' member => by
      have other : b'.addr ≠ b.addr := fun same =>
        (List.nodup_cons.mp once).1 (List.mem_map.mpr ⟨b', member, same⟩)
      obtain ⟨placed', fits⟩ := ok.used b' (List.mem_of_mem_erase member)
      obtain ⟨same, kept⟩ := keep b'.addr placed' other
      exact ⟨kept, by rw [same]; exact fits⟩
    once := (List.nodup_cons.mp once).2
    other := fun b' member => ok.other b' (List.mem_of_mem_erase member)
    counts := fun p held below => by
      have old := List.mem_of_mem_erase held
      have differ : p ≠ btokup map b.addr := by
        rintro rfl
        have page := placed.held
        have part := placed.inRange ok.whole
        rw [range] at page part
        by_cases same : pageRange map (btokup map b.addr) =
          ⟨b.addr, (k.kmemusage (btokup map b.addr)).un * NBPG⟩
        · rw [same] at held
          exact (ranges_nodup ok.whole ok.apart).not_mem_erase held
        · have shared := (ok.apart.forall old page same).symm.mono part
          unfold Extent.Apart Extent.stop pageRange NBPG at shared
          dsimp only at shared
          lia
      rw [usage, Function.update_of_ne differ] at below ⊢
      obtain ⟨frees, total⟩ := ok.counts p old below
      have cons : usedIn map (b :: live.erase b) p = _ := usedIn_cons _
      rw [if_neg differ.symm] at cons
      have used : usedIn map live p = usedIn map (b :: live.erase b) p := perm.countP_eq _
      exact ⟨frees, by lia⟩ }

theorem KmemOk.write (ok : KmemOk map k live ranges free)
    (kept : ∀ a, (∀ b ∈ live, ¬ b.Touches a) → mem a = k.mem a) :
      KmemOk map { k with mem } live ranges free := by
  have alone : ∀ i, ∀ a ∈ free i, mem a = k.mem a := by
    intro i a member
    refine kept a fun b inside touches => ?_
    obtain ⟨-, placed, -⟩ := ok.freed i a member
    obtain ⟨placed', fits⟩ := ok.used b inside
    have other : a ≠ b.addr := by
      rintro rfl
      exact ok.other b inside i member
    have apart := placed.apart placed' ok.apart other
    have room := placed.room_pos ok.whole
    have room' := placed'.room_pos ok.whole
    unfold Extent.Apart Extent.stop at apart
    unfold KmemBlock.Touches at touches
    dsimp only at apart
    lia
  exact {
    whole := ok.whole
    apart := ok.apart
    threads := fun i => (ok.threads i).congr (alone i)
    freed := fun i a member => by
      obtain ⟨below, placed, bucket⟩ := ok.freed i a member
      exact ⟨below, ⟨placed.above, placed.bucket, placed.aligned, placed.held⟩, bucket⟩
    used := fun b member => by
      obtain ⟨placed, fits⟩ := ok.used b member
      exact ⟨⟨placed.above, placed.bucket, placed.aligned, placed.held⟩, fits⟩
    once := ok.once
    other := ok.other
    counts := ok.counts }

/-- A step of a call keeps the invariant, with the block it may have got. -/
def Answered (map : KmemMap) (live : List KmemBlock) (ranges : List Extent) (size : Nat) :
    Malloced × Kmem → Prop
  | (.block va, k) => ∃ free, KmemOk map k (⟨va, size⟩ :: live) ranges free
  | (_, k) => ∃ free, KmemOk map k live ranges free

theorem takeBlock_ok (ok : KmemOk map k live ranges free) (some : k.next (BUCKETINDX c.size) ≠ 0) :
    ∃ answer, takeBlock map k c = .ok answer ∧ Answered map live ranges c.size answer := by
  obtain ⟨rest, split, -⟩ := (ok.threads (BUCKETINDX c.size)).pop some
  have inside :
    k.next (BUCKETINDX c.size) ∈ free (BUCKETINDX c.size) := by rw [split]; exact List.mem_cons_self
  obtain ⟨small, placed, indx⟩ := ok.freed _ _ inside
  obtain ⟨frees, -⟩ := ok.counts _ (placed.page_held (by omega)) (by omega)
  rw [indx, split, freeIn_cons, if_pos rfl] at frees
  have bucket : ((k.setNext (BUCKETINDX c.size) (k.mem (k.next (BUCKETINDX c.size)))).kmemusage
      (btokup map (k.next (BUCKETINDX c.size)))) =
        k.kmemusage (btokup map (k.next (BUCKETINDX c.size))) := rfl
  unfold takeBlock
  dsimp only
  rw [bucket, if_neg (not_not.mpr indx), if_neg (by omega)]
  exact ⟨_, rfl, _, ok.pop split (le_two_pow_BUCKETINDX (BUCKETINDX_lt.mp small)) rfl rfl
    (by rw [indx]; rfl)⟩

theorem malloc_ok (ok : KmemOk map k live ranges free) (c : MallocCall) :
    ∃ answer, malloc map k c = .ok answer ∧ Answered map live ranges c.size answer := by
  unfold malloc
  dsimp only
  split
  · refine ⟨_, rfl, ?_⟩
    split
    · exact ⟨free, ok⟩
    · exact ⟨free, ok⟩
  · split
    · exact ⟨_, rfl, free, ok⟩
    · rename_i some
      exact takeBlock_ok ok some

theorem mallocPages_ok (ok : KmemOk map k live ranges free) (c : MallocCall)
    (some : 0 < allocpages c.size) (above : map.kmembase ≤ va) (aligned : NBPG ∣ va)
    (room : va + allocpages c.size * NBPG ≤ map.kmembase + VM_KMEM_SIZE)
    (fresh : ∀ r ∈ ranges, (⟨va, allocpages c.size * NBPG⟩ : Extent).Apart r) :
    ∃ answer, mallocPages map k c va = .ok answer ∧
      Answered map live (⟨va, allocpages c.size * NBPG⟩ :: ranges) c.size answer := by
  have fits : allocpages c.size * NBPG ≤ VM_KMEM_SIZE := by lia
  have pages : allocpages c.size ≤ 4096 := by
    unfold NBPG VM_KMEM_SIZE at fits
    lia
  have whole : WholePages map ⟨va, allocpages c.size * NBPG⟩ :=
    ⟨above, Nat.dvd_sub aligned map.aligned, _, some, pages, rfl⟩
  obtain ⟨least, -⟩ := BUCKETINDX_bounds c.size
  unfold mallocPages
  dsimp only
  rcases allocsize_cases c.size_lt some with ⟨small, bytes, one, enough⟩ | ⟨large, bytes, enough⟩
  · have most : 2 ^ BUCKETINDX c.size ≤ 2 ^ 11 := Nat.pow_le_pow_right (by decide) (by lia)
    rw [one] at whole fresh ⊢
    rw [bytes, wrap32_eq (by lia) (by lia), if_neg (by unfold MAXALLOCSAVE CLBYTES; lia),
      Nat.one_mul]
    rw [Nat.one_mul] at whole fresh
    have positive := map.pos
    refine takeBlock_ok (ok.addPage whole fresh least small rfl positive rfl rfl rfl) ?_
    have first : Function.update k.next (BUCKETINDX c.size) (va + NBPG - 2 ^ BUCKETINDX c.size)
        (BUCKETINDX c.size) = _ :=
      Function.update_self ..
    refine ne_of_eq_of_ne first ?_
    unfold NBPG
    lia
  · have some : NBPG ≤ allocsize c.size := by
      rw [bytes]
      exact Nat.le_mul_of_pos_left _ some
    have signed : wrap32 (allocsize c.size) = allocsize c.size := by
      unfold VM_KMEM_SIZE at fits
      exact wrap32_eq (by lia) (by lia)
    rw [signed, if_pos (by unfold MAXALLOCSAVE CLBYTES; unfold NBPG at some; lia), if_neg (by lia)]
    exact ⟨_, rfl, free, ok.addLarge whole fresh large rfl enough rfl rfl rfl⟩

theorem Placed.mask (placed : Placed map k ranges a) :
    a &&& (if 1 <<< (k.kmemusage (btokup map a)).indx > NBPG then addrmask (BUCKETINDX NBPG)
      else addrmask (k.kmemusage (btokup map a)).indx) = 0 := by
  generalize known : k.kmemusage (btokup map a) = kup
  have aligned := placed.aligned
  have above := placed.above
  rw [known] at aligned
  have whole : 2 ^ min kup.indx 12 ∣ a := by
    have base : 2 ^ min kup.indx 12 ∣ map.kmembase :=
      Nat.dvd_trans (Nat.pow_dvd_pow 2 (Nat.min_le_right kup.indx 12)) map.aligned
    have sum := Nat.dvd_add aligned base
    rwa [Nat.sub_add_cancel above] at sum
  have mask : (if 1 <<< kup.indx > NBPG then addrmask (BUCKETINDX NBPG) else addrmask kup.indx) =
      2 ^ min kup.indx 12 - 1 := by
    rw [Nat.one_shiftLeft]
    split
    · rename_i past
      have more : 12 < kup.indx := (Nat.pow_lt_pow_iff_right Nat.one_lt_two).mp past
      rw [Nat.min_eq_right (by omega), BUCKETINDX_page (by decide) (by decide)]
      rfl
    · rename_i under
      have less : kup.indx ≤ 12 :=
        (Nat.pow_le_pow_iff_right Nat.one_lt_two).mp (Nat.not_lt.mp under)
      rw [Nat.min_eq_left less]
      rfl
  rw [mask, Nat.and_two_pow_sub_one_eq_mod]
  exact Nat.mod_eq_zero_of_dvd whole

theorem free_ok (ok : KmemOk map k live ranges free) {b : KmemBlock} (inside : b ∈ live)
    (diagnostic : Bool) (type : Fin M_LAST) : ∃ given k', Kern.free map diagnostic k b.addr type =
      .ok (given, k') ∧
      ∃ free', KmemOk map k' (live.erase b) (giveBack ranges given) free' := by
  obtain ⟨placed, -⟩ := ok.used b inside
  unfold Kern.free
  dsimp only
  rw [if_neg (fun bad => bad.2 placed.mask)]
  by_cases large : 12 ≤ (k.kmemusage (btokup map b.addr)).indx
  · have more : 2 ^ 12 ≤ 2 ^ (k.kmemusage (btokup map b.addr)).indx :=
      Nat.pow_le_pow_right (by decide) large
    rw [if_pos (by rw [Nat.one_shiftLeft]; unfold MAXALLOCSAVE CLBYTES; lia)]
    exact ⟨_, _, rfl, free, ok.drop inside large rfl rfl rfl⟩
  · have less : 2 ^ (k.kmemusage (btokup map b.addr)).indx ≤ 2 ^ 11 :=
      Nat.pow_le_pow_right (by decide) (by lia)
    have page := placed.page_held (by lia)
    obtain ⟨-, total⟩ := ok.counts _ page (by lia)
    have some : 0 < usedIn map live (btokup map b.addr) :=
      List.countP_pos_iff.mpr ⟨b, inside, by simp⟩
    have most : elmpercl (k.kmemusage (btokup map b.addr)).indx ≤ 4096 := by
      rw [elmpercl_small (by lia)]
      exact Nat.div_le_self _ _
    have count : ((k.kmemusage (btokup map b.addr)).un + 1) % 65536 =
        (k.kmemusage (btokup map b.addr)).un + 1 :=
      Nat.mod_eq_of_lt (by lia)
    rw [if_neg (by rw [Nat.one_shiftLeft]; unfold MAXALLOCSAVE CLBYTES; lia), count,
      if_neg (by lia)]
    exact ⟨_, _, rfl, _, ok.push inside rfl (by lia) map.pos rfl rfl rfl⟩

end Invariant

section Safe

variable {map : KmemMap} {diagnostic : Bool} {s t : KmemSystem} {event : KmemEvent}
    {events : List KmemEvent}

def KmemSystem.Ok (map : KmemMap) (s : KmemSystem) :
    Prop := ∃ free, KmemOk map s.kmem s.live s.ranges free

theorem settle_ok (n : Nat) (c : MallocCall) {answer : Malloced × Kmem}
    (answered : Answered map s.live s.ranges c.size answer) : (s.settle n c answer).Ok map := by
  obtain ⟨how, k⟩ := answer
  cases how with
  | null => exact answered
  | limit => exact answered
  | kmem => exact answered
  | block va => exact answered

theorem kmemStep_ok (ok : s.Ok map) (allowed : event.Allowed map s) :
    ∃ t, kmemStep map diagnostic s event = .ok t ∧ t.Ok map := by
  obtain ⟨free, ok⟩ := ok
  cases event with
  | call c => exact ⟨_, rfl, free, ok⟩
  | resume n =>
    obtain ⟨c, there⟩ := allowed
    obtain ⟨answer, done, answered⟩ := malloc_ok ok c
    refine ⟨s.settle n c answer, ?_, settle_ok n c answered⟩
    unfold kmemStep
    dsimp only
    rw [there]
    dsimp only
    rw [done]
    rfl
  | pages n va =>
    cases va with
    | none => exact ⟨_, rfl, free, ok⟩
    | some va =>
      obtain ⟨c, there, some, above, aligned, room, fresh⟩ := allowed
      obtain ⟨answer, done, answered⟩ := mallocPages_ok ok c some above aligned room fresh
      let grown : KmemSystem := { s with ranges := ⟨va, allocpages c.size * NBPG⟩ :: s.ranges }
      refine ⟨grown.settle n c answer, ?_, @settle_ok map grown n c answer answered⟩
      unfold kmemStep
      dsimp only
      rw [there]
      dsimp only
      rw [done]
      rfl
  | free b type =>
    obtain ⟨given, k, done, free', ok'⟩ := free_ok ok allowed diagnostic type
    refine ⟨{ s with kmem := k, live := s.live.erase b, ranges := giveBack s.ranges given }, ?_,
      free', ok'⟩
    unfold kmemStep
    dsimp only
    rw [done]
    rfl
  | write mem => exact ⟨_, rfl, free, ok.write allowed⟩

def KmemSystem.extent (map : KmemMap) (s : KmemSystem) (b : KmemBlock) : Extent :=
  ⟨b.addr, roomOf (s.kmem.kmemusage (btokup map b.addr))⟩

/-- Blocks in use are large enough, in memory of `kmem_malloc` and apart; the list of each bucket
ends and has blocks of its size only, apart from each other and from those in use. -/
structure KmemSafe (map : KmemMap) (s : KmemSystem) : Prop where
  enough : ∀ b ∈ s.live, b.size ≤ (s.extent map b).length
  held : ∀ b ∈ s.live, ∃ r ∈ s.ranges, (s.extent map b).Within r
  apart : s.live.Pairwise fun b b' => (s.extent map b).Apart (s.extent map b')
  lists : ∀ i, ∃ l, Threads s.kmem.mem (s.kmem.next i) l ∧ l.Nodup ∧ ∀ a ∈ l,
    (∃ r ∈ s.ranges, (⟨a, 2 ^ i⟩ : Extent).Within r) ∧
    (∀ b ∈ s.live, (⟨a, 2 ^ i⟩ : Extent).Apart (s.extent map b)) ∧
      ∀ a' ∈ l, a ≠ a' → (⟨a, 2 ^ i⟩ : Extent).Apart ⟨a', 2 ^ i⟩

theorem KmemSystem.Ok.safe (ok : s.Ok map) : KmemSafe map s := by
  obtain ⟨free, ok⟩ := ok
  have once : s.live.Pairwise fun b b' => b.addr ≠ b'.addr := List.pairwise_map.mp ok.once
  refine ⟨fun b member => (ok.used b member).2, fun b member => ⟨_, (ok.used b member).1.held,
    (ok.used b member).1.within⟩, ?_, fun i => ⟨free i, ok.threads i, (ok.threads i).nodup, ?_⟩⟩
  · refine once.imp_of_mem fun inside inside' other => ?_
    exact (ok.used _ inside).1.apart (ok.used _ inside').1 ok.apart other
  · intro a member
    obtain ⟨small, placed, indx⟩ := ok.freed i a member
    have room : roomOf (s.kmem.kmemusage (btokup map a)) =
      2 ^ i := by rw [roomOf, indx, if_pos small]
    refine ⟨⟨_, placed.held, by rw [← room]; exact placed.within⟩, fun b inside => ?_,
      fun a' member' other => ?_⟩
    · have differ : a ≠ b.addr := by
        rintro rfl
        exact ok.other b inside i member
      rw [← room]
      exact placed.apart (ok.used b inside).1 ok.apart differ
    · obtain ⟨-, placed', indx'⟩ := ok.freed i a' member'
      have room' : roomOf (s.kmem.kmemusage (btokup map a')) =
        2 ^ i := by rw [roomOf, indx', if_pos small]
      have apart := placed.apart placed' ok.apart other
      rwa [room, room'] at apart

theorem kmeminit_ok (map : KmemMap) (mem : Nat → Nat) :
    KmemSystem.Ok map ⟨kmeminit mem, [], [], []⟩ :=
  ⟨fun _ => [], {
    whole := fun _ member => absurd member List.not_mem_nil
    apart := .nil
    threads := fun _ => .nil
    freed := fun _ _ member => absurd member List.not_mem_nil
    used := fun _ member => absurd member List.not_mem_nil
    once := List.nodup_nil
    other := fun _ member => absurd member List.not_mem_nil
    counts := fun _ member => absurd member List.not_mem_nil }⟩

/-- Whatever calls of `malloc` and `free` come in whatever order, blocks in use are large enough and
apart, lists of free blocks are sound, and no step panics. -/
theorem malloc_hands_out_disjoint (map : KmemMap) (diagnostic : Bool) (mem : Nat → Nat)
    (run : Run (KmemRuns map diagnostic) ⟨kmeminit mem, [], [], []⟩ events s) :
    KmemSafe map s ∧ ∀ event, event.Allowed map s →
      ∃ t, kmemStep map diagnostic s event = .ok t := by
  have kept : ∀ u event v, True → u.Ok map → KmemRuns map diagnostic u event v → v.Ok map := by
    rintro u event v - ok ⟨allowed, done⟩
    obtain ⟨t, done', ok'⟩ := kmemStep_ok ok allowed
    rw [done, Except.ok.injEq] at done'
    rw [done']
    exact ok'
  have ok : s.Ok map := run.invariant kept (fun _ _ => trivial) (kmeminit_ok map mem)
  refine ⟨ok.safe, fun event allowed => ?_⟩
  obtain ⟨t, done, -⟩ := kmemStep_ok ok allowed
  exact ⟨t, done⟩

/-- A map from the second page on, and calls for half a page and for two pages. -/
def lowMap : KmemMap := ⟨4096, by decide, ⟨1, rfl⟩⟩

def smallCall : MallocCall := ⟨2000, ⟨0, by decide⟩, false, by decide⟩

def largeCall : MallocCall := ⟨5000, ⟨1, by decide⟩, true, by decide⟩

/-- Two calls wait for memory at once; one of their blocks is freed before a third call has its
pages. -/
def fewCalls : List KmemEvent :=
  [.call smallCall, .call smallCall, .resume 0, .resume 1, .pages 1 (some 8192),
    .pages 0 (some 4096), .free ⟨10240, 2000⟩ ⟨0, by decide⟩, .call largeCall, .resume 0,
    .pages 0 (some 12288)]

def KmemSystem.after (s : KmemSystem) (event : KmemEvent) : KmemSystem :=
  match kmemStep lowMap true s event with
  | .ok t => t
  | .error _ => s

theorem KmemSystem.after_runs (allowed : event.Allowed lowMap s)
    (done : (kmemStep lowMap true s event).isOk) :
    KmemRuns lowMap true s event (s.after event) := by
  refine ⟨allowed, ?_⟩
  unfold KmemSystem.after
  cases step : kmemStep lowMap true s event with
  | ok t => rfl
  | error why => rw [step] at done; cases done

theorem fewCalls_run : Run (KmemRuns lowMap true) ⟨kmeminit fun _ => 0, [], [], []⟩ fewCalls
    (fewCalls.foldl KmemSystem.after ⟨kmeminit fun _ => 0, [], [], []⟩) := by
  refine .cons (KmemSystem.after_runs trivial rfl) (.cons (KmemSystem.after_runs trivial rfl) ?_)
  refine .cons (KmemSystem.after_runs ⟨smallCall, rfl⟩ rfl)
    (.cons (KmemSystem.after_runs ⟨smallCall, rfl⟩ rfl) ?_)
  refine .cons (KmemSystem.after_runs ⟨smallCall, rfl, by decide⟩ rfl) ?_
  refine .cons (KmemSystem.after_runs ⟨smallCall, rfl, by decide⟩ rfl) ?_
  refine .cons (KmemSystem.after_runs (by decide : (⟨10240, 2000⟩ : KmemBlock) ∈ _) rfl) ?_
  refine .cons (KmemSystem.after_runs trivial rfl)
    (.cons (KmemSystem.after_runs ⟨largeCall, rfl⟩ rfl) ?_)
  exact .cons (KmemSystem.after_runs ⟨largeCall, rfl, by decide⟩ rfl) (.nil _)

theorem malloc_hands_out_disjoint_few : ∃ s, s.live = [⟨12288, 5000⟩, ⟨6144, 2000⟩] ∧
    KmemSafe lowMap s :=
  ⟨_, by decide, (malloc_hands_out_disjoint lowMap true (fun _ => 0) fewCalls_run).1⟩

end Safe

end FreeBsd.Kern
