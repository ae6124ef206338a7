import Mathlib.Logic.Equiv.Basic
import Mathlib.Data.List.Range
import Mathlib.Data.List.Nodup
import Mathlib.Data.List.Perm.Subperm
import Mathlib.Tactic.Common

/-! Cells that are rearranged within a range, and ranges in order. -/
namespace FreeBsd.Lib

variable {α β : Type} {lo mid hi lo' hi' i j n : Nat} {v v' v'' : Nat → α}

/-- The cells of `v` in another order between `lo` and `hi`, and as they are elsewhere. -/
def Rearranges (lo hi : Nat) (v v' : Nat → α) : Prop :=
  ∃ σ : Equiv.Perm Nat, (∀ i, ¬ (lo ≤ i ∧ i < hi) → σ i = i) ∧ ∀ i, v' i = v (σ i)

def Ordered (le : α → α → Prop) (lo hi : Nat) (v : Nat → α) : Prop :=
  ∀ i j, lo ≤ i → i < j → j < hi → le (v i) (v j)

def cells (v : Nat → α) (lo n : Nat) : List α := (List.range n).map fun i => v (lo + i)

def exchange (v : Nat → α) (i j : Nat) : Nat → α := fun k => v (Equiv.swap i j k)

namespace Rearranges

theorem refl (lo hi : Nat) (v : Nat → α) : Rearranges lo hi v v :=
  ⟨Equiv.refl Nat, fun _ _ => rfl, fun _ => rfl⟩

theorem trans (first : Rearranges lo hi v v') (second : Rearranges lo hi v' v'') :
    Rearranges lo hi v v'' := by
  obtain ⟨σ, fixed, eq⟩ := first
  obtain ⟨τ, fixed', eq'⟩ := second
  refine ⟨τ.trans σ, fun i out => ?_, fun i => (eq' i).trans (eq (τ i))⟩
  change σ (τ i) = i
  rw [fixed' i out, fixed i out]

theorem mono (inner : Rearranges lo hi v v') (low : lo' ≤ lo) (high : hi ≤ hi') :
    Rearranges lo' hi' v v' := by
  obtain ⟨σ, fixed, eq⟩ := inner
  exact ⟨σ, fun i out => fixed i fun inside => out ⟨low.trans inside.1, inside.2.trans_le high⟩, eq⟩

theorem outside (rearranged : Rearranges lo hi v v') (out : ¬ (lo ≤ i ∧ i < hi)) : v' i = v i := by
  obtain ⟨σ, fixed, eq⟩ := rearranged
  rw [eq, fixed i out]

theorem swap (first : lo ≤ i ∧ i < hi) (second : lo ≤ j ∧ j < hi) :
    Rearranges lo hi v (exchange v i j) := by
  refine ⟨Equiv.swap i j, fun k out => Equiv.swap_apply_of_ne_of_ne ?_ ?_, fun k => rfl⟩
  · rintro rfl
    exact out first
  · rintro rfl
    exact out second

/-- A permutation that moves nothing outside a range moves nothing out of it. -/
theorem within {σ : Equiv.Perm Nat} (fixed : ∀ i, ¬ (lo ≤ i ∧ i < hi) → σ i = i)
    (inside : lo ≤ i ∧ i < hi) :
    lo ≤ σ i ∧ σ i < hi := by
  by_contra out
  have same : σ i = i := σ.injective (fixed (σ i) out)
  exact out (same.symm ▸ inside)

theorem keeps {P : α → Prop} (rearranged : Rearranges lo hi v v')
    (all : ∀ i, lo ≤ i → i < hi → P (v i)) :
    ∀ i, lo ≤ i → i < hi → P (v' i) := by
  obtain ⟨σ, fixed, eq⟩ := rearranged
  intro i low high
  rw [eq]
  obtain ⟨low', high'⟩ := within fixed ⟨low, high⟩
  exact all (σ i) low' high'

theorem cells_perm (rearranged : Rearranges lo (lo + n) v v') :
    (cells v' lo n).Perm (cells v lo n) := by
  obtain ⟨σ, fixed, eq⟩ := rearranged
  have moved : cells v' lo n = ((List.range n).map fun i => σ (lo + i) - lo).map fun i =>
      v (lo + i) := by
    rw [cells, List.map_map]
    refine List.map_congr_left fun i member => ?_
    have inside := within (i := lo + i) fixed ⟨Nat.le_add_right lo i, by
      have short := List.mem_range.mp member
      lia⟩
    rw [eq, Function.comp_apply, Nat.add_sub_cancel' inside.1]
  rw [moved]
  refine List.Perm.map _ ?_
  have inside : ∀ i, i < n → lo ≤ σ (lo + i) ∧ σ (lo + i) < lo + n := fun i short =>
    within fixed ⟨Nat.le_add_right lo i, by lia⟩
  refine (List.subperm_of_subset ?_ fun i member => ?_).perm_of_length_le ?_
  · refine List.Nodup.map_on (fun i member j member' same => ?_) List.nodup_range
    have first := inside i (List.mem_range.mp member)
    have second := inside j (List.mem_range.mp member')
    have equal : σ (lo + i) = σ (lo + j) := by lia
    exact Nat.add_left_cancel (σ.injective equal)
  · obtain ⟨k, member', rfl⟩ := List.mem_map.mp member
    have inside := inside k (List.mem_range.mp member')
    exact List.mem_range.mpr (by lia)
  · rw [List.length_map]

end Rearranges

theorem exchange_left (v : Nat → α) (i j : Nat) : exchange v i j i = v j :=
  congrArg v (Equiv.swap_apply_left i j)

theorem exchange_right (v : Nat → α) (i j : Nat) : exchange v i j j = v i :=
  congrArg v (Equiv.swap_apply_right i j)

theorem exchange_other {k : Nat} (first : k ≠ i) (second : k ≠ j) : exchange v i j k = v k :=
  congrArg v (Equiv.swap_apply_of_ne_of_ne first second)

/-- `v` with the cell `i` moved down to `j`, those between one up. -/
def rotate (v : Nat → α) (j i : Nat) : Nat → α := fun k =>
  if k = j then v i else if j < k ∧ k ≤ i then v (k - 1) else v k

theorem rotate_rearranges (low : lo ≤ j) (order : j ≤ i) (high : i < hi) :
    Rearranges lo hi v (rotate v j i) := by
  induction i, order using Nat.le_induction generalizing v with
  | base =>
    have same : rotate v j j = v := by
      funext k
      unfold rotate
      split
      · rename_i here
        rw [here]
      · exact if_neg (by lia)
    rw [same]
    exact .refl lo hi v
  | succ i order ih =>
    have eq : rotate v j (i + 1) = rotate (exchange v i (i + 1)) j i := by
      funext k
      unfold rotate
      by_cases first : k = j
      · rw [if_pos first, if_pos first, exchange_left]
      by_cases last : k = i + 1
      · rw [if_neg first, if_pos (by lia), if_neg first, if_neg (by lia), last, exchange_right]
        rfl
      by_cases between : j < k ∧ k ≤ i
      · rw [if_neg first, if_pos (by lia), if_neg first, if_pos between,
          exchange_other (by lia) (by lia)]
      · rw [if_neg first, if_neg (by lia), if_neg first, if_neg between,
          exchange_other (by lia) (by lia)]
    rw [eq]
    exact (Rearranges.swap (by lia) (by lia)).trans (ih (by lia))

namespace Ordered

variable {le : α → α → Prop}

theorem mono (ordered : Ordered le lo hi v) (low : lo ≤ lo') (high : hi' ≤ hi) :
    Ordered le lo' hi' v :=
  fun i j first order last => ordered i j (low.trans first) order (last.trans_le high)

theorem congr (ordered : Ordered le lo hi v) (same : ∀ i, lo ≤ i → i < hi → v' i = v i) :
    Ordered le lo hi v' := by
  intro i j first order last
  rw [same i first (order.trans last), same j (first.trans order.le) last]
  exact ordered i j first order last

theorem short (small : hi ≤ lo + 1) : Ordered le lo hi v :=
  fun i j first order last => absurd last (by omega)

theorem join (mid : Nat) (trans : ∀ a b c, le a b → le b c → le a c) (lower : Ordered le lo mid v)
    (upper : Ordered le (mid + 1) hi v) (below : ∀ i, lo ≤ i → i < mid → le (v i) (v mid))
    (above : ∀ i, mid < i → i < hi → le (v mid) (v i)) :
    Ordered le lo hi v := by
  intro i j first order last
  by_cases high : j < mid
  · exact lower i j first order high
  by_cases low : mid < i
  · exact upper i j low order last
  by_cases here : i = mid
  · subst here
    exact above j order last
  · have less := below i first (by lia)
    by_cases there : j = mid
    · rw [there]
      exact less
    · exact trans _ _ _ less (above j (by lia) last)

/-- A cell that is put into an ordered range, behind those not above it. -/
theorem insert (lower : Ordered le lo i v) (from' : lo ≤ j) (to' : j ≤ i)
    (below : ∀ k, lo ≤ k → k < j → le (v k) (v i)) (above : ∀ k, j ≤ k → k < i → le (v i) (v k)) :
    Ordered le lo (i + 1) (rotate v j i) := by
  have low {k : Nat} (less : k < j) : rotate v j i k = v k := by
    unfold rotate
    rw [if_neg (by lia), if_neg (by lia)]
  have high {k : Nat} (more : j < k) (last : k ≤ i) : rotate v j i k = v (k - 1) := by
    unfold rotate
    rw [if_neg (by lia), if_pos ⟨more, last⟩]
  have here : rotate v j i j = v i := if_pos rfl
  intro a b first order last
  rcases Nat.lt_trichotomy b j with before | rfl | after
  · rw [low before, low (order.trans before)]
    exact lower a b first order (by lia)
  · rw [here, low order]
    exact below a first order
  · rw [high after (by lia)]
    rcases Nat.lt_trichotomy a j with before | rfl | between
    · rw [low before]
      exact lower a (b - 1) first (by lia) (by lia)
    · rw [here]
      exact above (b - 1) (by lia) (by lia)
    · rw [high between (by lia)]
      exact lower (a - 1) (b - 1) (by lia) (by lia) (by lia)

theorem pairwise (ordered : Ordered le lo (lo + n) v) : (cells v lo n).Pairwise le := by
  rw [cells, List.pairwise_map]
  refine List.pairwise_lt_range.imp_of_mem fun {i j} _ member order => ?_
  have short := List.mem_range.mp member
  exact ordered _ _ (by lia) (by lia) (by lia)

end Ordered

/-- In order but for the cell `t`, which is not above those behind it. -/
structure Inserting (le : α → α → Prop) (lo t hi : Nat) (v : Nat → α) : Prop where
  others : ∀ i j, lo ≤ i → i < j → j < hi → i ≠ t → j ≠ t → le (v i) (v j)
  behind : ∀ j, t < j → j < hi → le (v t) (v j)

namespace Inserting

variable {le : α → α → Prop} {t : Nat}

theorem last (ordered : Ordered le lo t v) : Inserting le lo t (t + 1) v :=
  ⟨fun i j low order high _ other => ordered i j low order (by omega),
    fun j low high => absurd high (by omega)⟩

/-- A cell that is not above the one before it changes places with that. -/
theorem down (inserting : Inserting le lo (t + 1) hi v) (high : t + 1 < hi) (low : lo ≤ t)
    (less : le (v (t + 1)) (v t)) :
    Inserting le lo t hi (exchange v t (t + 1)) := by
  refine ⟨fun i j low order high first second => ?_, fun j low high => ?_⟩
  · by_cases left : i = t + 1
    · rw [left, exchange_right, exchange_other (by lia) (by lia)]
      exact inserting.others t j (by lia) (by lia) high (by lia) (by lia)
    · rw [exchange_other first left]
      by_cases right : j = t + 1
      · rw [right, exchange_right]
        exact inserting.others i t low (by lia) (by lia) left (by lia)
      · rw [exchange_other second right]
        exact inserting.others i j low order high left right
  · rw [exchange_left]
    by_cases next : j = t + 1
    · rw [next, exchange_right]
      exact less
    · rw [exchange_other (by lia) next]
      exact inserting.behind j (by lia) high

/-- It has its place behind a cell that is not above it, or as the first one. -/
theorem ordered (trans : ∀ a b c, le a b → le b c → le a c) (inserting : Inserting le lo t hi v)
    (above : lo < t → le (v (t - 1)) (v t)) : Ordered le lo hi v := by
  intro i j low order high
  by_cases left : i = t
  · rw [left]
    exact inserting.behind j (by lia) high
  by_cases right : j = t
  · rw [right]
    by_cases next : i = t - 1
    · rw [next]
      exact above (by lia)
    · exact trans _ _ _ (inserting.others i (t - 1) low (by lia) (by lia) left (by lia))
        (above (by lia))
  · exact inserting.others i j low order high left right

end Inserting

structure Sorts (le : α → α → Prop) (lo hi : Nat) (v v' : Nat → α) : Prop where
  rearranges : Rearranges lo hi v v'
  ordered : Ordered le lo hi v'

namespace Sorts

variable {le : α → α → Prop}

/-- The ranges on both sides of a cell that bounds them are sorted, and with them the whole. -/
theorem around (trans : ∀ a b c, le a b → le b c → le a c) (low : lo ≤ mid) (high : mid < hi)
    (lower : Sorts le lo mid v v') (upper : Sorts le (mid + 1) hi v' v'')
    (below : ∀ i, lo ≤ i → i < mid → le (v i) (v mid))
    (above : ∀ i, mid < i → i < hi → le (v mid) (v i)) :
    Sorts le lo hi v v'' := by
  have pivot : v'' mid = v mid :=
    (upper.rearranges.outside (by lia)).trans (lower.rearranges.outside (by lia))
  refine ⟨(lower.rearranges.mono (Nat.le_refl lo) high.le).trans (upper.rearranges.mono (by lia)
    (Nat.le_refl hi)), ?_⟩
  refine Ordered.join mid trans ?_ upper.ordered (fun i first last => ?_) (fun i first last => ?_)
  · exact lower.ordered.congr fun i _ last => upper.rearranges.outside (by lia)
  · rw [pivot, upper.rearranges.outside (by lia)]
    exact lower.rearranges.keeps (P := fun a => le a (v mid)) below i first last
  · rw [pivot]
    refine upper.rearranges.keeps (P := fun a => le (v mid) a) (fun i first last => ?_) i first last
    rw [lower.rearranges.outside (by lia)]
    exact above i first last

theorem around' (trans : ∀ a b c, le a b → le b c → le a c) (low : lo ≤ mid) (high : mid < hi)
    (upper : Sorts le (mid + 1) hi v v') (lower : Sorts le lo mid v' v'')
    (below : ∀ i, lo ≤ i → i < mid → le (v i) (v mid))
    (above : ∀ i, mid < i → i < hi → le (v mid) (v i)) :
    Sorts le lo hi v v'' := by
  have pivot : v'' mid = v mid :=
    (lower.rearranges.outside (by lia)).trans (upper.rearranges.outside (by lia))
  refine ⟨(upper.rearranges.mono (by lia) (Nat.le_refl hi)).trans (lower.rearranges.mono
    (Nat.le_refl lo) high.le), ?_⟩
  refine Ordered.join mid trans lower.ordered ?_ (fun i first last => ?_) (fun i first last => ?_)
  · exact upper.ordered.congr fun i first _ => lower.rearranges.outside (by lia)
  · rw [pivot]
    refine lower.rearranges.keeps (P := fun a => le a (v mid)) (fun i first last => ?_) i first last
    rw [upper.rearranges.outside (by lia)]
    exact below i first last
  · rw [pivot, lower.rearranges.outside (by lia)]
    exact upper.rearranges.keeps (P := fun a => le (v mid) a) above i first last

theorem after (rearranged : Rearranges lo hi v v') (sorts : Sorts le lo hi v' v'') :
    Sorts le lo hi v v'' :=
  ⟨rearranged.trans sorts.rearranges, sorts.ordered⟩

end Sorts

section Cells

theorem cells_length (v : Nat → α) (lo n : Nat) : (cells v lo n).length = n := by
  rw [cells, List.length_map, List.length_range]

theorem mem_cells {a : α} : a ∈ cells v lo n ↔ ∃ i, lo ≤ i ∧ i < lo + n ∧ v i = a := by
  rw [cells, List.mem_map]
  constructor
  · rintro ⟨i, member, rfl⟩
    have inside := List.mem_range.mp member
    exact ⟨lo + i, Nat.le_add_right lo i, by lia, rfl⟩
  · rintro ⟨i, low, high, rfl⟩
    exact ⟨i - lo, List.mem_range.mpr (by lia), by rw [Nat.add_sub_cancel' low]⟩

theorem cells_congr (same : ∀ i, lo ≤ i → i < lo + n → v' i = v i) : cells v' lo n = cells v lo n :=
  List.map_congr_left fun i member => same _ (Nat.le_add_right lo i) (by
    have inside := List.mem_range.mp member
    omega)

theorem cells_add (v : Nat → α) (lo m n : Nat) :
    cells v lo (m + n) = cells v lo m ++ cells v (lo + m) n := by
  rw [cells, cells, cells, List.range_add, List.map_append, List.map_map]
  refine congrArg _ (List.map_congr_left fun i _ => ?_)
  rw [Function.comp_apply, Nat.add_assoc]

theorem cells_succ (v : Nat → α) (lo n : Nat) :
    cells v lo (n + 1) = v lo :: cells v (lo + 1) n := by
  rw [Nat.add_comm n 1, cells_add]
  rfl

/-- The `n` cells from `lo` on in another order, the rest as before: what a copy of a sorted list
leaves. -/
structure Shuffles (lo n : Nat) (v v' : Nat → α) : Prop where
  perm : (cells v' lo n).Perm (cells v lo n)
  outside : ∀ i, ¬ (lo ≤ i ∧ i < lo + n) → v' i = v i

theorem Rearranges.shuffles (rearranged : Rearranges lo (lo + n) v v') : Shuffles lo n v v' :=
  ⟨rearranged.cells_perm, fun _ out => rearranged.outside out⟩

namespace Shuffles

theorem refl (lo n : Nat) (v : Nat → α) : Shuffles lo n v v := ⟨.refl _, fun _ _ => rfl⟩

theorem trans (first : Shuffles lo n v v') (second : Shuffles lo n v' v'') : Shuffles lo n v v'' :=
  ⟨second.perm.trans first.perm, fun i out => (second.outside i out).trans (first.outside i out)⟩

theorem mono {n' : Nat} (inner : Shuffles lo n v v') (low : lo' ≤ lo) (high : lo + n ≤ lo' + n') :
    Shuffles lo' n' v v' := by
  refine ⟨?_, fun i out => inner.outside i fun inside => out ⟨by lia, by lia⟩⟩
  obtain ⟨front, rfl⟩ := Nat.exists_eq_add_of_le low
  obtain ⟨back, rfl⟩ : ∃ back, n' = front + (n + back) := ⟨n' - front - n, by lia⟩
  rw [cells_add, cells_add, cells_add, cells_add]
  refine .append (.of_eq (cells_congr fun i _ _ => inner.outside i (by lia)))
    (.append inner.perm (.of_eq ?_))
  exact cells_congr fun i _ _ => inner.outside i (by lia)

theorem source (shuffled : Shuffles lo n v v') (low : lo ≤ i) (high : i < lo + n) :
    ∃ j, lo ≤ j ∧ j < lo + n ∧ v' i = v j := by
  have member : v' i ∈ cells v lo n := shuffled.perm.mem_iff.mp (mem_cells.mpr ⟨i, low, high, rfl⟩)
  obtain ⟨j, low', high', eq⟩ := mem_cells.mp member
  exact ⟨j, low', high', eq.symm⟩

end Shuffles

end Cells

end FreeBsd.Lib
