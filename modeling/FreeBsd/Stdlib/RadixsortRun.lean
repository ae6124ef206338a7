import FreeBsd.Stdlib.Radixsort
import Mathlib.Tactic.Ring

/-! The partition of `radixsort`, its stack, and the order it leaves. -/
namespace FreeBsd.Stdlib
open FreeBsd.Lib

variable {α : Type} {str : α → Nat → BitVec 8} {tr : BitVec 8 → BitVec 8}

section Partition

variable {v l2 : Nat → α} {bot indx i n u : Nat} {c : Nat → Nat} {xs : List α}

def key (str : α → Nat → BitVec 8) (tr : BitVec 8 → BitVec 8) (indx : Nat) (a : α) :
    Nat := weight str tr a indx

theorem key_lt (a : α) : key str tr indx a < 256 := BitVec.isLt _

def size (str : α → Nat → BitVec 8) (tr : BitVec 8 → BitVec 8) (indx : Nat) (xs : List α)
    (u : Nat) : Nat :=
  (bucket (key str tr indx) xs u).length

def start (str : α → Nat → BitVec 8) (tr : BitVec 8 → BitVec 8) (indx : Nat) (xs : List α) :
    Nat → Nat :=
  starts (key str tr indx) xs

theorem start_succ :
    start str tr indx xs (u + 1) = start str tr indx xs u + size str tr indx xs u := rfl

theorem size_none (high : 256 ≤ u) : size str tr indx xs u = 0 := by
  refine List.length_eq_zero_iff.mpr (List.filter_eq_nil_iff.mpr fun a _ here => ?_)
  exact absurd (of_decide_eq_true here) ((key_lt a).trans_le high).ne

theorem start_last (str : α → Nat → BitVec 8) (tr : BitVec 8 → BitVec 8) (indx : Nat)
    (xs : List α) :
    start str tr indx xs 256 = xs.length := starts_all fun a _ => key_lt a

theorem start_le (str : α → Nat → BitVec 8) (tr : BitVec 8 → BitVec 8) (indx : Nat) (xs : List α)
    (low : u ≤ 256) :
    start str tr indx xs u ≤ xs.length := by
  have mono : start str tr indx xs u ≤ start str tr indx xs 256 := starts_mono low
  rwa [start_last] at mono

theorem count_apply (n p : Nat) (c : Nat → Nat) (u : Nat) :
    count str tr v indx n p c u = c u + size str tr indx (cells v p n) u := by
  induction n generalizing p c with
  | zero => rfl
  | succ n ih =>
    rw [count]
    rw [ih, cells_succ, size, size, bucket, bucket, List.filter_cons, Function.update_apply]
    by_cases here : u = weight str tr (v p) indx
    · have same : key str tr indx (v p) = u := here.symm
      rw [if_pos here, if_pos (decide_eq_true same), List.length_cons, here]
      omega
    · have other : ¬ key str tr indx (v p) = u := fun same => here same.symm
      rw [if_neg here, if_neg (fun yes => other (of_decide_eq_true yes))]

theorem sums_snd (left : Nat) {t2 max : Nat} (same : ∀ u, i ≤ u → c u = size str tr indx xs u) :
    (sums left i (start str tr indx xs i) t2 max c).2 u =
      if i ≤ u ∧ u < i + left then start str tr indx xs (u + 1) else c u := by
  induction left generalizing i t2 max c with
  | zero => exact (if_neg (by lia)).symm
  | succ left ih =>
    have total : Function.update c i (c i + start str tr indx xs i) i =
        start str tr indx xs (i + 1) := by
      rw [Function.update_self, same i (Nat.le_refl i), start_succ, Nat.add_comm]
    have later : ∀ u, i + 1 ≤ u →
        Function.update c i (c i + start str tr indx xs i) u = size str tr indx xs u :=
      fun u high => by rw [Function.update_of_ne (by lia), same u (by lia)]
    have final : (if i + 1 ≤ u ∧ u < i + 1 + left then start str tr indx xs (u + 1)
        else Function.update c i (c i + start str tr indx xs i) u) =
        if i ≤ u ∧ u < i + (left + 1) then start str tr indx xs (u + 1) else c u := by
      by_cases here : u = i
      · rw [here, if_neg (by lia), total, if_pos (by lia)]
      · rw [Function.update_of_ne here]
        by_cases inside : i + 1 ≤ u ∧ u < i + 1 + left
        · rw [if_pos inside, if_pos (by lia)]
        · rw [if_neg inside, if_neg (by lia)]
    rw [sums]
    rw [total]
    split
    · exact (ih later).trans final
    · exact (ih later).trans final

/-- Of `k` buckets, `max` is a largest one above the cutoff, or none is above it. -/
structure Largest (size : Nat → Nat) (k max : Nat) : Prop where
  bounds : ∀ u < k, size u ≤ 40 ∨ size u ≤ size max
  above : max = 0 ∨ 40 < size max

theorem sums_fst {size : Nat → Nat} (left t1 : Nat) {t2 max : Nat}
    (same : ∀ u, i ≤ u → c u = size u) (below : ∀ u < i, size u ≤ t2)
    (found : max = 0 ∧ t2 = 40 ∨ t2 = size max ∧ 40 < t2) :
    Largest size (i + left) (sums left i t1 t2 max c).1 := by
  induction left generalizing i t1 t2 max c with
  | zero =>
    refine ⟨fun u less => ?_, ?_⟩
    · have bound := below u less
      rcases found with ⟨_, cutoff⟩ | ⟨largest, _⟩
      · exact .inl (by lia)
      · exact .inr (by rw [sums, ← largest]; exact bound)
    · rcases found with ⟨zero, _⟩ | ⟨largest, more⟩
      · exact .inl zero
      · exact .inr (by rw [sums, ← largest]; exact more)
  | succ left ih =>
    have here := same i (Nat.le_refl i)
    have later : ∀ u, i + 1 ≤ u → Function.update c i (c i + t1) u = size u := fun u high => by
      rw [Function.update_of_ne (by lia), same u (by lia)]
    have next : i + (left + 1) = i + 1 + left := by lia
    rw [sums, next]
    split
    · rename_i larger
      refine ih _ later (fun u less => ?_) (.inr ⟨here, by lia⟩)
      by_cases last : u = i
      · rw [last, here]
      · exact (below u (by lia)).trans larger.le
    · rename_i notLarger
      refine ih _ later (fun u less => ?_) found
      by_cases last : u = i
      · rw [last, ← here]
        exact Nat.le_of_not_lt notLarger
      · exact below u (by lia)

theorem cells_concat (v : Nat → α) (lo n : Nat) :
    cells v lo (n + 1) = cells v lo n ++ [v (lo + n)] := cells_add v lo n 1

theorem size_mono (less : i ≤ n) :
    size str tr indx (cells v bot i) u ≤ size str tr indx (cells v bot n) u := by
  obtain ⟨k, rfl⟩ := Nat.exists_eq_add_of_le less
  rw [cells_add]
  exact ((List.sublist_append_left _ _).filter _).length_le

/-- What the loop that distributes leaves: each bucket of `front` in its place in `l2'`, and the
rest of `l2`. -/
structure Distributed (start : Nat → Nat) (bucket : Nat → List α) (c c' : Nat → Nat)
    (l2 l2' : Nat → α) : Prop where
  first : ∀ u < 256, c' u = start u
  rest : ∀ u, 256 ≤ u → c' u = c u
  filled : ∀ u < 256, cells l2' (start u) (bucket u).length = bucket u
  other : ∀ q, (∀ u < 256, ¬ (start u ≤ q ∧ q < start u + (bucket u).length)) → l2' q = l2 q

theorem distribute_spec (l2 : Nat → α) (less : i ≤ n)
    (ends : ∀ u < 256, c u = start str tr indx (cells v bot n) u + size str tr indx (cells v bot i)
      u) :
    Distributed (start str tr indx (cells v bot n)) (bucket (key str tr indx) (cells v bot i)) c
      (distribute str tr v bot indx i c l2).1 l2 (distribute str tr v bot indx i c l2).2 := by
  induction i generalizing c l2 with
  | zero => exact ⟨ends, fun _ _ => rfl, fun _ _ => rfl, fun _ _ => rfl⟩
  | succ i ih =>
    have below : key str tr indx (v (bot + i)) < 256 := key_lt _
    have joined (u : Nat) : bucket (key str tr indx) (cells v bot (i + 1)) u =
        if u = key str tr indx (v (bot + i)) then bucket (key str tr indx) (cells v bot i) u ++
          [v (bot + i)]
        else bucket (key str tr indx) (cells v bot i) u := by
      rw [cells_concat, bucket_concat]
    have total := ends (key str tr indx (v (bot + i))) below
    have room (u : Nat) :
        size str tr indx (cells v bot (i + 1)) u ≤ size str tr indx (cells v bot n) u :=
        size_mono less
    have early (u : Nat) :
        size str tr indx (cells v bot i) u ≤ size str tr indx (cells v bot n) u :=
        size_mono (by lia)
    unfold size at ends total room early
    rw [distribute]
    change Distributed _ _ _
      (distribute str tr v bot indx i (Function.update c (key str tr indx (v (bot + i)))
        (c (key str tr indx (v (bot + i))) - 1))
          (Function.update l2 (c (key str tr indx (v (bot + i))) - 1) (v (bot + i)))).1 _
      (distribute str tr v bot indx i (Function.update c (key str tr indx (v (bot + i)))
        (c (key str tr indx (v (bot + i))) - 1))
          (Function.update l2 (c (key str tr indx (v (bot + i))) - 1) (v (bot + i)))).2
    generalize key str tr indx (v (bot + i)) = k at *
    have here := joined k
    rw [if_pos rfl] at here
    have longer : (bucket (key str tr indx) (cells v bot (i + 1)) k).length =
        (bucket (key str tr indx) (cells v bot i) k).length + 1 := by
      rw [here, List.length_append]
      rfl
    have place :
        c k - 1 = start str tr indx (cells v bot n) k +
        (bucket (key str tr indx) (cells v bot i) k).length := by
      lia
    rw [place]
    obtain ⟨first, rest, filled, other⟩ :=
      ih (c := Function.update c k (start str tr indx (cells v bot n) k +
        (bucket (key str tr indx) (cells v bot i) k).length))
          (Function.update l2 (start str tr indx (cells v bot n) k +
        (bucket (key str tr indx) (cells v bot i) k).length) (v (bot + i)))
          (by lia) fun u less => by
      by_cases same : u = k
      · rw [same, Function.update_self]
        rfl
      · rw [Function.update_of_ne same, ends u less, joined, if_neg same]
        rfl
    refine ⟨first, fun u high => ?_, fun u inside => ?_, fun q out => ?_⟩
    · rw [rest u high, Function.update_of_ne (by lia)]
    · by_cases same : u = k
      · -- the new one stands behind those of its bucket, in no other's place
        rw [same, longer, cells_concat, filled k below, here, other, Function.update_self]
        intro w _ between
        rcases Nat.lt_trichotomy w k with before | equal | behind
        · have apart :
              start str tr indx (cells v bot n) w +
              (bucket (key str tr indx) (cells v bot n) w).length ≤
            start str tr indx (cells v bot n) k := starts_lt before
          have least := early w
          lia
        · rw [equal] at between
          lia
        · have apart :
              start str tr indx (cells v bot n) k +
              (bucket (key str tr indx) (cells v bot n) k).length ≤
            start str tr indx (cells v bot n) w := starts_lt behind
          have least := room k
          lia
      · have others := joined u
        rw [if_neg same] at others
        rw [others]
        exact filled u inside
    · rw [other, Function.update_of_ne]
      · rintro rfl
        exact out k below ⟨Nat.le_add_right _ _, by lia⟩
      · intro w less between
        refine out w less ⟨between.1, between.2.trans_le (Nat.add_le_add_left ?_ _)⟩
        rw [joined]
        split
        · rw [List.length_append]
          exact Nat.le_add_right _ _
        · exact Nat.le_refl _

theorem cells_copyBack {lo m : Nat} (inside : lo + m ≤ n) :
    cells (copyBack v l2 bot n) (bot + lo) m = cells l2 lo m := by
  refine List.map_congr_left fun i member => ?_
  have less := List.mem_range.mp member
  have back : bot + lo + i - bot = lo + i := by lia
  unfold copyBack
  rw [if_pos (by lia), back]

/-- What one turn of the loop leaves of the strings `xs` of a context: the largest bucket, where
each one starts, and each one in its place. -/
structure Turn (str : α → Nat → BitVec 8) (tr : BitVec 8 → BitVec 8) (bot indx n max : Nat)
    (c : Nat → Nat) (v v' : Nat → α) : Prop where
  largest : Largest (size str tr indx (cells v bot n)) 257 max
  starts : ∀ u, u ≤ 256 → c u = start str tr indx (cells v bot n) u
  filled : ∀ u < 256, cells v' (bot + start str tr indx (cells v bot n) u)
    (size str tr indx (cells v bot n) u) =
    bucket (key str tr indx) (cells v bot n) u
  outside : ∀ q, ¬ (bot ≤ q ∧ q < bot + n) → v' q = v q

theorem turn_spec (str : α → Nat → BitVec 8) (tr : BitVec 8 → BitVec 8) (v l2 : Nat → α)
    (bot indx n : Nat) :
    let summed := sums (NBUCKETS + 1) 0 0 rspartition 0 (count str tr v indx n bot fun _ => 0)
    let placed := distribute str tr v bot indx n summed.2 l2
    Turn str tr bot indx n summed.1 placed.1 v (copyBack v placed.2 bot n) := by
  intro summed placed
  have sizes (u : Nat) (_ : 0 ≤ u) : count str tr v indx n bot (fun _ => 0) u =
      size str tr indx (cells v bot n) u :=
    (count_apply n bot _ u).trans (Nat.zero_add _)
  have total (u : Nat) (less : u < 257) : summed.2 u = start str tr indx (cells v bot n) (u + 1) :=
    (sums_snd 257 sizes).trans (if_pos ⟨Nat.zero_le u, by lia⟩)
  have whole := start_last str tr indx (cells v bot n)
  obtain ⟨first, rest, filled, _⟩ := distribute_spec l2 (Nat.le_refl n) fun u (less : u < 256) =>
    total u (by lia)
  refine ⟨?_, fun u low => ?_, fun u less => ?_, fun q out => if_neg out⟩
  · have largest := sums_fst 257 0 sizes (fun u less => absurd less (Nat.not_lt_zero u))
      (.inl ⟨rfl, rfl⟩)
    rwa [Nat.zero_add] at largest
  · by_cases last : u = 256
    · rw [last, rest 256 (Nat.le_refl 256), total 256 (by lia), start_succ,
        size_none (Nat.le_refl 256), Nat.add_zero]
    · exact first u (by lia)
  · rw [cells_copyBack]
    · exact filled u less
    · have inside := start_le str tr indx (cells v bot n) (by lia : u + 1 ≤ 256)
      rwa [start_succ, cells_length] at inside

end Partition

section Order

variable {max u : Nat}

theorem mem_order (low : max ≤ 255) : u ∈ order max ↔ 1 ≤ u ∧ u ≤ 255 := by
  unfold order NBUCKETS
  rw [List.mem_append, List.mem_map, List.mem_map]
  constructor
  · rintro (⟨k, member, rfl⟩ | ⟨k, member, rfl⟩)
    · have less := List.mem_range.mp (List.mem_reverse.mp member)
      lia
    · have less := List.mem_range.mp member
      lia
  · intro inside
    by_cases first : u ≤ max
    · exact .inl ⟨u - 1, List.mem_reverse.mpr (List.mem_range.mpr (by lia)), by lia⟩
    · exact .inr ⟨u - (max + 1), List.mem_range.mpr (by lia), by lia⟩

theorem order_nodup (max : Nat) : (order max).Nodup := by
  refine List.nodup_append.mpr ⟨?_, ?_, fun a first b second => ?_⟩
  · exact (List.nodup_reverse.mpr List.nodup_range).map fun a b same => Nat.succ_injective same
  · exact List.nodup_range.map fun a b same => Nat.add_right_cancel same
  · obtain ⟨k, member, rfl⟩ := List.mem_map.mp first
    obtain ⟨k', _, rfl⟩ := List.mem_map.mp second
    have less := List.mem_range.mp (List.mem_reverse.mp member)
    omega

theorem order_head (above : 1 ≤ max) : ∃ rest, order max = max :: rest := by
  obtain ⟨k, rfl⟩ := Nat.exists_eq_add_of_le' above
  unfold order
  rw [List.range_succ, List.reverse_append]
  exact ⟨_, rfl⟩

end Order

section Pending

variable {v v' : Nat → α} {bot indx i j n max u N : Nat} {c : Nat → Nat} {origin : Nat → α}
    {spans : List Span}

def bucketSpan (bot indx : Nat) (c : Nat → Nat) (u : Nat) :
    Span := ⟨bot + c u, c (u + 1) - c u, indx + 1⟩

theorem Turn.sized (turn : Turn str tr bot indx n max c v v') (less : u < 256) :
    c (u + 1) - c u = size str tr indx (cells v bot n) u := by
  rw [turn.starts u less.le, turn.starts (u + 1) less, start_succ]
  exact Nat.add_sub_cancel_left ..

theorem Turn.within (turn : Turn str tr bot indx n max c v v') (less : u < 256) :
    c u + size str tr indx (cells v bot n) u ≤ n := by
  have inside := start_le str tr indx (cells v bot n) (by omega : u + 1 ≤ 256)
  rwa [start_succ, cells_length, ← turn.starts u less.le] at inside

theorem Turn.member (turn : Turn str tr bot indx n max c v v') (less : u < 256)
    (has : (bucketSpan bot indx c u).Has i) :
    (∃ j, bot ≤ j ∧ j < bot + n ∧ v' i = v j) ∧ weight str tr (v' i) indx = u := by
  have sized := turn.sized less
  have placed := turn.filled u less
  rw [← turn.starts u less.le] at placed
  obtain ⟨low, high⟩ := has
  have member : v' i ∈ bucket (key str tr indx) (cells v bot n) u :=
    placed ▸ mem_cells.mpr ⟨i, low, sized ▸ high, rfl⟩
  obtain ⟨inside, same⟩ := mem_bucket.mp member
  obtain ⟨j, low, high, eq⟩ := mem_cells.mp inside
  exact ⟨⟨j, low, high, eq.symm⟩, same⟩

theorem Turn.shuffles (turn : Turn str tr bot indx n max c v v') : Shuffles bot n v v' := by
  refine ⟨?_, turn.outside⟩
  have joined : cells v' bot (start str tr indx (cells v bot n) 256) = _ := cells_joined turn.filled
  rw [start_last, cells_length] at joined
  have all : ((cells v bot n).filter fun a => key str tr indx a < 256) = cells v bot n :=
    List.filter_eq_self.mpr fun a _ => decide_eq_true (key_lt a)
  rw [joined]
  exact (joined_perm (key str tr indx) (cells v bot n) 256).trans (.of_eq all)

theorem Turn.bucket (turn : Turn str tr bot indx n max c v v') (low : bot ≤ i)
    (high : i < bot + n) :
    ∃ u < 256, (bucketSpan bot indx c u).Has i := by
  have whole := start_last str tr indx (cells v bot n)
  rw [cells_length] at whole
  have inside : i - bot < start str tr indx (cells v bot n) 256 := by lia
  obtain ⟨u, less, first, last⟩ := exists_bucket inside
  have place : bot + start str tr indx (cells v bot n) u ≤ i ∧
      i < bot + start str tr indx (cells v bot n) u + size str tr indx (cells v bot n) u := by
    unfold start size
    lia
  rw [← turn.starts u less.le, ← turn.sized less] at place
  exact ⟨u, less, place⟩

theorem Turn.mono (turn : Turn str tr bot indx n max c v v') {w : Nat} (order : u < w)
    (last : w < 256) :
    c u + (c (u + 1) - c u) ≤ c w := by
  rw [turn.sized (order.trans last), turn.starts u (by omega), turn.starts w last.le]
  exact starts_lt order

/-- The buckets but for the first one take the place of the context among what is to be sorted. -/
theorem Turn.pending (turn : Turn str tr bot indx n max c v v') (low : max ≤ 255)
    (pending : Pending (weight str tr) N origin v (⟨bot, n, indx⟩ :: spans)) :
    Pending (weight str tr) N origin v' ((order max).map (bucketSpan bot indx c) ++ spans) := by
  have same := pending.same _ List.mem_cons_self
  have agree {i j u w : Nat} (lessU : u < 256) (lessW : w < 256)
      (first : (bucketSpan bot indx c u).Has i)
      (second : (bucketSpan bot indx c w).Has j) :
        Agree 0 indx (weight str tr (v' i)) (weight str tr (v' j)) := by
    obtain ⟨i', low, high, fromI⟩ := (turn.member lessU first).1
    obtain ⟨j', low', high', fromJ⟩ := (turn.member lessW second).1
    rw [fromI, fromJ]
    exact same i' j' ⟨low, high⟩ ⟨low', high'⟩
  refine Pending.refine_span _ pending turn.shuffles (fun t member => ?_) ?_ (fun t member => ?_)
    fun i j order first second => ?_
  · obtain ⟨u, inOrder, rfl⟩ := List.mem_map.mp member
    have range := (mem_order low).mp inOrder
    have inside := turn.within (u := u) (by lia)
    rw [← turn.sized (by lia)] at inside
    exact ⟨Nat.le_add_right _ _, by
      change bot + c u + (c (u + 1) - c u) ≤ bot + n
      lia⟩
  · refine List.pairwise_map.mpr ((order_nodup max).imp_of_mem fun {u w} first second differ => ?_)
    have rangeU := (mem_order low).mp first
    have rangeW := (mem_order low).mp second
    change bot + c u + (c (u + 1) - c u) ≤ bot + c w ∨ bot + c w + (c (w + 1) - c w) ≤ bot + c u
    rcases Nat.lt_or_gt_of_ne differ with before | behind
    · have apart := turn.mono before (by lia)
      lia
    · have apart := turn.mono behind (by lia)
      lia
  · obtain ⟨u, inOrder, rfl⟩ := List.mem_map.mp member
    have range := (mem_order low).mp inOrder
    intro i j first second
    have here := (turn.member (by lia) first).2
    have there := (turn.member (by lia) second).2
    exact (agree (by lia) (by lia) first second).succ (here.trans there.symm) (by lia)
  · obtain ⟨u, lessU, hasU⟩ := turn.bucket first.1 first.2
    obtain ⟨w, lessW, hasW⟩ := turn.bucket second.1 second.2
    have here := (turn.member lessU hasU).2
    have there := (turn.member lessW hasW).2
    rcases Nat.lt_trichotomy u w with before | rfl | behind
    · exact .inr (.of_agree (agree lessU lessW hasU hasW) (.of_lt (by lia)))
    · by_cases first : u = 0
      · exact .inr (.of_agree (agree lessU lessW hasU hasW) (.of_end (by lia)))
      · exact .inl ⟨_, List.mem_map.mpr ⟨u, (mem_order low).mpr (by lia), rfl⟩, hasU, hasW⟩
    · have apart := turn.mono behind lessU
      have later := hasU.1
      have earlier := hasW.2
      change bot + c u ≤ i at later
      change j < bot + c w + (c (w + 1) - c w) at earlier
      lia

end Pending

section Loop

variable {v v' l2 origin : Nat → α} {bot indx n max N Z compares limit total : Nat} {c : Nat → Nat}
    {stack : List Context}

def Context.span (s : Context) : Span := ⟨s.bot, s.nmemb, s.indx⟩

def large (c : Nat → Nat) (us : List Nat) :
    List Nat := us.filter fun u => rspartition < c (u + 1) - c u

/-- What the loops over the buckets `us` push, the last one on top. -/
def pushed (bot indx : Nat) (c : Nat → Nat) (us : List Nat) : List Context :=
  ((large c us).map fun u => ⟨bot + c u, indx, c (u + 1) - c u⟩).reverse

theorem pushed_length (bot indx : Nat) (c : Nat → Nat) (us : List Nat) :
    (pushed bot indx c us).length = (large c us).length := by
  rw [pushed, List.length_reverse, List.length_map]

theorem large_cons {u : Nat} (us : List Nat) (above : rspartition < c (u + 1) - c u) :
    large c (u :: us) = u :: large c us := by
  rw [large, List.filter_cons, if_pos (decide_eq_true above)]
  rfl

theorem large_skip {u : Nat} (us : List Nat) (small : ¬ rspartition < c (u + 1) - c u) :
    large c (u :: us) = large c us := by
  rw [large, List.filter_cons, if_neg fun yes => small (of_decide_eq_true yes)]
  rfl

theorem pushed_large {u : Nat} (us : List Nat) (above : rspartition < c (u + 1) - c u) :
    pushed bot indx c (u :: us) = pushed bot indx c us ++ [⟨bot + c u, indx, c (u + 1) - c u⟩] := by
  rw [pushed, large_cons us above, List.map_cons, List.reverse_cons]
  rfl

theorem pushed_small {u : Nat} (us : List Nat) (small : ¬ rspartition < c (u + 1) - c u) :
    pushed bot indx c (u :: us) = pushed bot indx c us := by
  rw [pushed, large_skip us small]
  rfl

/-- A string that waits in a span ends behind what its strings have in common. -/
theorem ends_behind {s : Span} {spans : List Span} {i : Nat}
    (ends : ∀ i < N, Ends str tr Z 0 (origin i))
    (pending : Pending (weight str tr) N origin v (s :: spans)) (has : s.Has i) :
    ∃ k, s.depth ≤ k ∧ k < Z ∧ weight str tr (v i) k = 0 := by
  have inside := pending.inside s List.mem_cons_self
  have last := has.2
  obtain ⟨j, _, less, from'⟩ := pending.shuffled.source (Nat.zero_le i) (by lia)
  obtain ⟨k, _, short, zero⟩ := ends j (by lia)
  rw [← from'] at zero
  refine ⟨k, ?_, by lia, zero⟩
  by_contra early
  exact (pending.same s List.mem_cons_self i i has has k (Nat.zero_le k) (by lia)).2 zero

/-- The loops over the buckets leave the large ones on the stack and nothing else to do. -/
theorem buckets_spec {us : List Nat} (ends : ∀ i < N, Ends str tr Z 0 (origin i))
    (compared : Z ≤ compares)
    (pending : Pending (weight str tr) N origin v
    (us.map (bucketSpan bot indx c) ++ stack.map Context.span))
    (room : (pushed bot (indx + 1) c us ++ stack).length ≤ limit) :
    ∃ v', us.foldlM (bucketTurn str tr compares limit bot (indx + 1) c) (v, stack) =
        some (v', pushed bot (indx + 1) c us ++ stack) ∧
      Pending (weight str tr) N origin v'
        ((pushed bot (indx + 1) c us ++ stack).map Context.span) := by
  induction us generalizing v stack with
  | nil => exact ⟨v, rfl, pending⟩
  | cons u us ih =>
    rw [List.foldlM_cons, bucketTurn]
    rw [List.map_cons, List.cons_append] at pending
    by_cases large : rspartition < c (u + 1) - c u
    · have many : ¬ c (u + 1) - c u < 2 := by
        unfold rspartition at large
        lia
      rw [pushed_large us large, List.append_assoc] at room ⊢
      have space : stack.length < limit := by
        rw [List.length_append, List.length_append, List.length_singleton] at room
        lia
      rw [if_neg many, if_pos large, if_pos space]
      exact ih (pending.perm List.perm_middle.symm) room
    · rw [pushed_small us large] at room ⊢
      by_cases few : c (u + 1) - c u < 2
      · rw [if_pos few]
        exact ih (pending.short few) room
      · rw [if_neg few, if_neg large]
        have ended (i : Nat) (low : bot + c u ≤ i) (high : i < bot + c u + (c (u + 1) - c u)) :
            Ends str tr compares (indx + 1) (v i) := by
          obtain ⟨k, behind, short, zero⟩ := ends_behind ends pending ⟨low, high⟩
          exact ⟨k, behind, by lia, zero⟩
        obtain ⟨v', run, sorted⟩ := shellsort_spec ended
        rw [run]
        exact ih (pending.sorted sorted.rearranges.shuffles sorted.ordered) room

theorem large_append (front back : List Nat) :
    large c (front ++ back) = large c front ++ large c back :=
  List.filter_append front back

theorem large_le (us : List Nat) :
    41 * (large c us).length ≤ (us.map fun u => c (u + 1) - c u).sum := by
  induction us with
  | nil => exact Nat.le_refl 0
  | cons u us ih =>
    rw [List.map_cons, List.sum_cons]
    by_cases above : rspartition < c (u + 1) - c u
    · rw [large_cons us above, List.length_cons]
      unfold rspartition at above
      lia
    · rw [large_skip us above]
      lia

theorem large_besides {us : List Nat} {m : Nat} (member : m ∈ us) :
    c (m + 1) - c m + 41 * ((large c us).length - 1) ≤ (us.map fun u => c (u + 1) - c u).sum := by
  have split := List.perm_cons_erase member
  have sum := (split.map fun u => c (u + 1) - c u).sum_nat
  have count : (large c us).length = (large c (m :: us.erase m)).length :=
    (split.filter _).length_eq
  have rest := large_le (c := c) (us.erase m)
  rw [List.map_cons, List.sum_cons] at sum
  by_cases above : rspartition < c (m + 1) - c m
  · rw [large_cons _ above, List.length_cons] at count
    lia
  · rw [large_skip _ above] at count
    lia

theorem Turn.sum_le (turn : Turn str tr bot indx n max c v v') {us : List Nat} (distinct : us.Nodup)
    (below : ∀ u ∈ us, u < 256) : (us.map fun u => c (u + 1) - c u).sum ≤ n := by
  have sizes : (us.map fun u => c (u + 1) - c u) = us.map (size str tr indx (cells v bot n)) :=
    List.map_congr_left fun u member => turn.sized (below u member)
  have most : (us.map (size str tr indx (cells v bot n))).sum ≤ (cells v bot n).length :=
    buckets_le distinct
  rwa [cells_length, ← sizes] at most

theorem order_length (low : max ≤ 255) : (order max).length = 255 := by
  unfold order NBUCKETS
  rw [List.length_append, List.length_map, List.length_map, List.length_reverse, List.length_range,
    List.length_range]
  omega

/-- The stack under a bucket that is pushed, and what may grow on top of this one, stay within the
growth of the whole. -/
theorem Turn.room (turn : Turn str tr bot indx n max c v v') (low : max ≤ 255)
    {front back : List Nat} {u : Nat} (split : order max = front ++ u :: back)
    (above : rspartition < c (u + 1) - c u) :
    (large c front).length + growth ((c (u + 1) - c u) / 41) ≤ growth (n / 41) := by
  have inOrder : u ∈ order max := split ▸ List.mem_append_right _ List.mem_cons_self
  have range := (mem_order low).mp inOrder
  have inside := turn.within (u := u) (by lia)
  rw [← turn.sized (by lia)] at inside
  by_cases bottom : (large c front).length = 0
  · rw [bottom, Nat.zero_add]
    exact growth_mono (Nat.div_le_div_right (by lia))
  have distinct : (u :: 0 :: front).Nodup := by
    have nodup := order_nodup max
    rw [split] at nodup
    obtain ⟨first, _, apart⟩ := List.nodup_append.mp nodup
    refine List.nodup_cons.mpr ⟨?_, List.nodup_cons.mpr ⟨fun zero => ?_, first⟩⟩
    · rw [List.mem_cons, not_or]
      exact ⟨by lia, fun again => apart u again u List.mem_cons_self rfl⟩
    · have positive := (mem_order low).mp (split ▸ List.mem_append_left _ zero)
      lia
  -- the largest bucket is the first one pushed, or that of the strings that have ended
  have first : max ∈ 0 :: front := by
    by_cases none : max = 0
    · rw [none]
      exact List.mem_cons_self
    · obtain ⟨rest, head⟩ := order_head (by lia : 1 ≤ max)
      cases front with
      | nil => exact absurd rfl bottom
      | cons w front =>
        rw [split, List.cons_append] at head
        rw [(List.cons.inj head).1]
        exact List.mem_cons_of_mem _ List.mem_cons_self
  have most := turn.sum_le distinct fun w member => by
    rcases List.mem_cons.mp member with rfl | member
    · lia
    rcases List.mem_cons.mp member with rfl | member
    · lia
    · have inOrder := (mem_order low).mp (split ▸ List.mem_append_left _ member)
      lia
  rw [List.map_cons, List.sum_cons] at most
  have besides := large_besides (c := c) first
  have zero : (large c front).length ≤ (large c (0 :: front)).length := by
    by_cases large0 : rspartition < c (0 + 1) - c 0
    · rw [large_cons front large0]
      exact Nat.le_succ _
    · rw [large_skip front large0]
  have largest : c (u + 1) - c u ≤ c (max + 1) - c max := by
    rw [turn.sized (by lia), turn.sized (by lia)]
    rcases turn.largest.bounds u (by lia) with small | less
    · rw [← turn.sized (by lia)] at small
      unfold rspartition at above
      lia
    · exact less
  have few : (large c front).length ≤ 254 := by
    have lengths := congrArg List.length split
    have sub : (large c front).length ≤ front.length := List.length_filter_le _ _
    rw [order_length low, List.length_append, List.length_cons] at lengths
    lia
  unfold rspartition at above
  exact growth_split (by lia) few (by lia) (by lia)

/-- Each context of the stack, with those under it and what may grow on it, is within `total`. -/
def Fits (total : Nat) : List Context → Prop
  | [] => True
  | s :: stack => rspartition < s.nmemb ∧ stack.length + growth (s.nmemb / 41) ≤ total ∧
    Fits total stack

theorem Fits.length_le (fits : Fits total stack) : stack.length ≤ total := by
  cases stack with
  | nil => exact Nat.zero_le _
  | cons s stack =>
    obtain ⟨above, room, _⟩ := fits
    unfold rspartition at above
    have least : 1 ≤ growth (s.nmemb / 41) := growth_pos (by lia)
    rw [List.length_cons]
    lia

theorem Turn.fits (turn : Turn str tr bot indx n max c v v') (low : max ≤ 255)
    (room : stack.length + growth (n / 41) ≤ total) (fits : Fits total stack)
    {front back : List Nat} (split : order max = front ++ back) :
    Fits total (pushed bot (indx + 1) c front ++ stack) := by
  induction front using List.reverseRecOn generalizing back with
  | nil => exact fits
  | append_singleton front u ih =>
    rw [List.append_assoc, List.singleton_append] at split
    have before := ih split
    by_cases above : rspartition < c (u + 1) - c u
    · have top : pushed bot (indx + 1) c (front ++ [u]) =
          ⟨bot + c u, indx + 1, c (u + 1) - c u⟩ :: pushed bot (indx + 1) c front := by
        rw [pushed, large_append, large_cons [] above, List.map_append, List.reverse_append]
        rfl
      rw [top]
      refine ⟨above, ?_, before⟩
      have space := turn.room low split above
      change (pushed bot (indx + 1) c front ++ stack).length + growth ((c (u + 1) - c u) / 41) ≤
        total
      rw [List.length_append, pushed_length]
      omega
    · have same : pushed bot (indx + 1) c (front ++ [u]) = pushed bot (indx + 1) c front := by
        have none : large c [] = [] := rfl
        rw [pushed, large_append, large_skip [] above, none, List.append_nil]
        rfl
      rw [same]
      exact before

/-- What is left to do: for each context its items, as often as there are bytes left of them. -/
def work (Z : Nat) (stack : List Context) : Nat := (stack.map fun s => s.nmemb * (Z - s.indx)).sum

theorem work_append (upper lower : List Context) :
    work Z (upper ++ lower) = work Z upper + work Z lower := by
  rw [work, List.map_append, List.sum_append]
  rfl

theorem work_pushed (us : List Nat) :
    work Z (pushed bot indx c us) ≤ (us.map fun u => c (u + 1) - c u).sum * (Z - indx) := by
  induction us with
  | nil => exact Nat.zero_le _
  | cons u us ih =>
    rw [List.map_cons, List.sum_cons, Nat.add_mul]
    by_cases above : rspartition < c (u + 1) - c u
    · rw [pushed_large us above, work, List.map_append, List.sum_append, List.map_singleton,
        List.sum_singleton]
      unfold work at ih
      exact (Nat.add_comm _ _).le.trans (Nat.add_le_add_left ih _)
    · rw [pushed_small us above]
      omega

theorem work_step {spans : List Span} (ends : ∀ i < N, Ends str tr Z 0 (origin i))
    (pending : Pending (weight str tr) N origin v (⟨bot, n, indx⟩ :: spans)) (positive : 1 ≤ n) :
    n * (Z - indx) = n * (Z - (indx + 1)) + n := by
  have bottom : (⟨bot, n, indx⟩ : Span).Has bot :=
    ⟨Nat.le_refl bot, Nat.lt_add_of_pos_right positive⟩
  obtain ⟨k, behind, short, _⟩ := ends_behind ends pending bottom
  have left : Z - indx = Z - (indx + 1) + 1 := by
    change indx ≤ k at behind
    lia
  rw [left, Nat.mul_add, Nat.mul_one]

/-- The loop comes to its end, with nothing out of order, and never finds the stack full. -/
theorem radixLoop_spec {fuel : Nat} (ends : ∀ i < N, Ends str tr Z 0 (origin i))
    (compared : Z ≤ compares)
    (pending : Pending (weight str tr) N origin v (⟨bot, n, indx⟩ :: stack.map Context.span))
    (positive : 1 ≤ n) (room : stack.length + growth (n / 41) ≤ total) (fits : Fits total stack)
    (enough : total ≤ limit) (turns : n * (Z - indx) + work Z stack ≤ fuel) :
    ∃ v', radixLoop str tr compares limit fuel v l2 stack bot indx n = some v' ∧
      Pending (weight str tr) N origin v' [] := by
  induction fuel generalizing v l2 stack bot indx n with
  | zero =>
    have byte := work_step ends pending positive
    lia
  | succ fuel ih =>
    have byte := work_step ends pending positive
    have turn := turn_spec str tr v l2 bot indx n
    dsimp only at turn
    rw [radixLoop]
    generalize sums (NBUCKETS + 1) 0 0 rspartition 0 (count str tr v indx n bot fun _ => 0) =
      summed at *
    generalize distribute str tr v bot indx n summed.2 l2 = placed at *
    have low : summed.1 ≤ 255 := by
      by_contra high
      rcases turn.largest.above with zero | above
      · lia
      · rw [size_none (by lia)] at above
        lia
    have fits := turn.fits low room fits (List.append_nil _).symm
    obtain ⟨v', run, pending⟩ :=
      buckets_spec ends compared (turn.pending low pending) (fits.length_le.trans enough)
    have pushes : work Z (pushed bot (indx + 1) placed.1 (order summed.1)) ≤ _ :=
      work_pushed (order summed.1)
    have items := turn.sum_le (order_nodup summed.1) fun u member => by
      have range := (mem_order low).mp member
      lia
    have bytes := Nat.mul_le_mul_right (Z - (indx + 1)) items
    have whole := work_append (Z := Z) (pushed bot (indx + 1) placed.1 (order summed.1)) stack
    rw [run]
    generalize pushed bot (indx + 1) placed.1 (order summed.1) ++ stack = stack' at *
    cases stack' with
    | nil => exact ⟨v', rfl, pending⟩
    | cons top stack' =>
      obtain ⟨above, room, fits⟩ := fits
      have rest : work Z (top :: stack') = top.nmemb * (Z - top.indx) + work Z stack' := rfl
      exact ih pending (by lia) room fits (by lia)

end Loop

/-- The weights of the first string, up to its end, come not after those of the second one. -/
def Precedes (str : α → Nat → BitVec 8) (tr : BitVec 8 → BitVec 8) (a b : α) : Prop :=
  ∃ (endA : ∃ i, weight str tr a i = 0) (endB : ∃ i, weight str tr b i = 0),
    List.le (upTo (weight str tr a) endA) (upTo (weight str tr b) endB)

theorem all_end {origin : Nat → α} {N : Nat} (ends : ∀ i < N, ∃ k, weight str tr (origin i) k = 0) :
    ∃ Z, ∀ i < N, Ends str tr Z 0 (origin i) := by
  induction N with
  | zero => exact ⟨0, fun i less => absurd less (Nat.not_lt_zero i)⟩
  | succ N ih =>
    obtain ⟨Z, bound⟩ := ih fun i less => ends i (by lia)
    obtain ⟨k, zero⟩ := ends N (Nat.lt_succ_self N)
    refine ⟨Z + k + 1, fun i less => ?_⟩
    by_cases last : i = N
    · rw [last]
      exact ⟨k, Nat.zero_le k, by lia, zero⟩
    · obtain ⟨k', _, short, zero'⟩ := bound i (by lia)
      exact ⟨k', Nat.zero_le k', by lia, zero'⟩

/-- With memory for its arrays, `radixsort` ends, has never pushed more contexts than there is room
for, and leaves the pointers in the order of the weights. -/
theorem radixsort_sorts (malloc : Nat → Bool) (tab : Option (BitVec 8 → BitVec 8))
    (endbyte : BitVec 8) (l1 l2 : Nat → α) (nmemb : Nat)
    (addressable : sizeofPointer * nmemb < 2 ^ 32)
    (ends : ∀ i < nmemb, ∃ k, weight str (table tab endbyte) (l1 i) k = 0)
    (stackThere : contexts nmemb nmemb ≠ 0 → malloc (contexts nmemb nmemb * sizeofContext) = true)
    (arrayThere : malloc (sizeofPointer * nmemb) = true) :
    ∃ enough, ∀ fuel, enough ≤ fuel →
      ∃ l1', radixsort str malloc fuel l1 l2 nmemb tab endbyte = some (l1', 0) ∧
      (cells l1' 0 nmemb).Perm (cells l1 0 nmemb) ∧
      (cells l1' 0 nmemb).Pairwise (Precedes str (table tab endbyte)) ∧ ∀ p, nmemb ≤ p →
        l1' p = l1 p := by
  obtain ⟨Z, short⟩ := all_end ends
  refine ⟨nmemb * Z + Z, fun fuel enough => ?_⟩
  obtain ⟨l1', run, pending⟩ : ∃ l1', radixsort str malloc fuel l1 l2 nmemb tab endbyte =
      some (l1', 0) ∧
      Pending (weight str (table tab endbyte)) nmemb l1 l1' [] := by
    unfold radixsort
    split
    · rename_i few
      have short : 0 + nmemb ≤ 0 + 1 := by omega
      exact ⟨l1, rfl, (Pending.whole nmemb l1).sorted (.refl 0 nmemb l1) (.short short)⟩
    · rename_i many
      have below : nmemb + 1 < 2 ^ 31 := by
        unfold sizeofPointer at addressable
        omega
      have turns : nmemb * (Z - 0) + work Z [] ≤ fuel := by
        rw [Nat.sub_zero]
        exact Nat.le_trans (Nat.le_add_right _ Z) enough
      have space : growth (nmemb / 41) ≤ contexts nmemb nmemb :=
        growth_le_contexts below (Nat.le_refl nmemb)
      obtain ⟨l1', run, pending⟩ :
          ∃ l1', radixLoop str (table tab endbyte) fuel (contexts nmemb nmemb) fuel l1 l2
          [] 0 0 nmemb =
          some l1' ∧ Pending (weight str (table tab endbyte)) nmemb l1 l1' [] :=
        radixLoop_spec short (by omega) (Pending.whole nmemb l1) (by omega) (Nat.zero_add _).le
          trivial space turns
      have stack : ¬ (contexts nmemb nmemb ≠ 0 ∧
          ¬ malloc (contexts nmemb nmemb * sizeofContext) = true) :=
        fun full => full.2 (stackThere full.1)
      refine ⟨l1', ?_, pending⟩
      rw [if_neg stack, run]
      rfl
  refine ⟨l1', run, pending.shuffled.perm, ?_,
    fun p behind => pending.shuffled.outside p (by omega)⟩
  have ordered : Ordered (Precedes str (table tab endbyte)) 0 (0 + nmemb) l1' := by
    intro i j _ order last
    have ended (i : Nat) (inside : i < nmemb) : ∃ k, weight str (table tab endbyte) (l1' i) k =
      0 := by
      obtain ⟨i', _, less, from'⟩ := pending.shuffled.source (Nat.zero_le i) (by omega)
      exact from' ▸ ends i' (by omega)
    have endA := ended i (by omega)
    have endB := ended j (by omega)
    exact ⟨endA, endB, (notAfter_iff endA endB).mp (pending.done i j order (by omega))⟩
  exact ordered.pairwise

/-- Three strings that a zero ends. -/
theorem radixsort_sorts_three : ∃ enough, ∀ fuel, enough ≤ fuel → ∃ l1',
    radixsort (fun (s : List (BitVec 8)) i => s.getD i 0) (fun _ => true) fuel
      (fun i => [[2, 1], [2], [1, 3]].getD i [])
        (fun _ => []) 3 none 0 = some (l1', 0) ∧
      (cells l1' 0 3).Perm (cells (fun i => [[2, 1], [2], [1, 3]].getD i []) 0 3) ∧
      (cells l1' 0 3).Pairwise (Precedes (fun s i => s.getD i 0) (table none 0)) ∧
      ∀ p, 3 ≤ p → l1' p = [[2, 1], [2], [1, 3]].getD p [] :=
  radixsort_sorts (fun _ => true) none 0 _ _ 3 (by decide) (fun i less => ⟨2, by revert i; decide⟩)
    (fun _ => rfl) rfl

end FreeBsd.Stdlib
