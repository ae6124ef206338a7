import FreeBsd.Ufs.Balloc

/-! `itrunc` keeps the blocks of the file up to the last one within the new length, and hands every
other block to `blkfree` once. -/
namespace FreeBsd.Ufs

open FreeBsd.Fanout Finset

section Levels

variable {fs : Fs} {dev : Device} {ip : Inode}

/-- The last block to keep, as a level of indirection sees it: `most` counts from the blocks after
the direct ones. -/
def lastAt (fs : Fs) (most : Int) (level : Nat) : Int :=
  if most - base fs level < 0 then -1 else most - base fs level

theorem lastAt_neg {most : Int} {level : Nat} :
    lastAt fs most level < 0 ↔ most < base fs level := by
  unfold lastAt
  by_cases h : most - base fs level < 0
  · rw [if_pos h]
    omega
  · rw [if_neg h]
    omega

theorem le_lastAt {most : Int} {level k : Nat} :
    (k : Int) ≤ lastAt fs most level ↔ (base fs level + k : Nat) ≤ most := by
  unfold lastAt
  by_cases h : most - base fs level < 0
  · rw [if_pos h]
    lia
  · rw [if_neg h]
    lia

/-- One level: the tree at the pointer is cut, and freed with the pointer where nothing is kept. -/
theorem truncLevel_spec {level : Nat} {most : Int} (top : most < base fs (level + 1))
    (apart : (tree fs.nindir (level + 1) dev.disk (ip.ib level)).Nodup) :
    ∃ f, Frees fs dev (truncLevel fs (lastAt fs most level) level dev ip).1 f
        (tree fs.nindir (level + 1) dev.disk (ip.ib level))
        (truncLevel fs (lastAt fs most level) level dev ip).2.2 ∧
      (truncLevel fs (lastAt fs most level) level dev ip).2.1 =
        { ip with ib := if most < base fs level then Function.update ip.ib level 0 else ip.ib } ∧
      names f + tree fs.nindir (level + 1)
        (truncLevel fs (lastAt fs most level) level dev ip).1.disk
          ((truncLevel fs (lastAt fs most level) level dev ip).2.1.ib level) =
        tree fs.nindir (level + 1) dev.disk (ip.ib level) ∧
      ∀ k < fs.nindir ^ (level + 1),
        leaf fs.nindir (level + 1) (truncLevel fs (lastAt fs most level) level dev ip).1.disk
            ((truncLevel fs (lastAt fs most level) level dev ip).2.1.ib level) k =
          if (base fs level + k : Nat) ≤ most then
            leaf fs.nindir (level + 1) dev.disk (ip.ib level) k else none := by
  by_cases hq : ip.ib level = 0
  · have same : truncLevel fs (lastAt fs most level) level dev ip = (dev, ip, 0) := by
      simp [truncLevel, hq]
    have zero : Function.update ip.ib level 0 = ip.ib := by
      rw [← hq, Function.update_eq_self]
    rw [same]
    refine ⟨[], Frees.refl .., ?_, by simp, ?_⟩
    · rw [zero, ite_self]
    · intro k _
      simp [hq]
  · have least : -1 ≤ lastAt fs most level := by
      unfold lastAt
      split <;> lia
    have bound : lastAt fs most level < (fs.nindir ^ (level + 1) : Nat) := by
      have step : base fs (level + 1) = base fs level + fs.nindir ^ (level + 1) := rfl
      unfold lastAt
      split <;> lia
    obtain ⟨f, cut⟩ := indirtrunc_spec level dev (lastAt fs most level) hq apart least bound
    by_cases negative : most < base fs level
    · have run : truncLevel fs (lastAt fs most level) level dev ip =
          (blkfree (indirtrunc fs level dev (ip.ib level) (lastAt fs most level)).1 (ip.ib level)
            fs.bsize, { ip with ib := Function.update ip.ib level 0 },
            (indirtrunc fs level dev (ip.ib level) (lastAt fs most level)).2 + btodb fs.bsize) := by
        simp [truncLevel, hq, lastAt_neg.mpr negative]
      rw [run]
      refine ⟨f ++ [(ip.ib level, fs.bsize)], cut.frees.blkfree _, by rw [if_pos negative], ?_, ?_⟩
      · dsimp only
        rw [Function.update_self, tree_zero, add_zero, names_append, names_single,
          ← cut.bare (lastAt_neg.mpr negative), cut.blocks]
      · intro k _
        dsimp only
        rw [Function.update_self, leaf_zero, if_neg]
        lia
    · have run : truncLevel fs (lastAt fs most level) level dev ip =
          ((indirtrunc fs level dev (ip.ib level) (lastAt fs most level)).1, ip,
            (indirtrunc fs level dev (ip.ib level) (lastAt fs most level)).2) := by
        simp [truncLevel, hq, lastAt_neg, negative]
      rw [run]
      refine ⟨f, cut.frees, by rw [if_neg negative], cut.blocks, ?_⟩
      intro k hk
      dsimp only
      rw [cut.leaf, Nat.mod_eq_of_lt hk]
      exact if_congr le_lastAt rfl rfl

theorem base_mono (fs : Fs) {i j : Nat} (hij : i ≤ j) : base fs i ≤ base fs j := by
  rcases Nat.lt_or_eq_of_le hij with lt | rfl
  · have := base_add_le fs lt
    omega
  · exact le_refl _

/-- The trees below the first `n` indirect pointers lose the blocks `f`, and what is left leads to
the blocks of the file up to `most`. -/
structure LevelsCut (fs : Fs) (most : Int) (n : Nat) (dev dev' : Device) (ip ip' : Inode) (c : Nat)
    (f : List (Nat × Nat)) : Prop where
  frees : Frees fs dev dev' f (∑ level ∈ range n, tree fs.nindir (level + 1) dev.disk (ip.ib level))
    c
  inode : ip' = { ip with ib := fun level =>
    if level < n ∧ most < base fs level then 0 else ip.ib level }
  blocks : names f + ∑ level ∈ range n, tree fs.nindir (level + 1) dev'.disk (ip'.ib level) =
    ∑ level ∈ range n, tree fs.nindir (level + 1) dev.disk (ip.ib level)
  leaves : ∀ level < n, ∀ k < fs.nindir ^ (level + 1),
    leaf fs.nindir (level + 1) dev'.disk (ip'.ib level) k =
      if (base fs level + k : Nat) ≤ most then
        leaf fs.nindir (level + 1) dev.disk (ip.ib level) k else none

theorem truncLevels_spec (most : Int) (n : Nat) (top : most < base fs n)
    (apart : (∑ level ∈ range n, tree fs.nindir (level + 1) dev.disk (ip.ib level)).Nodup) :
    (∃ f, LevelsCut fs most n dev (truncLevels fs (lastAt fs most) n dev ip).1 ip
        (truncLevels fs (lastAt fs most) n dev ip).2.1
        (truncLevels fs (lastAt fs most) n dev ip).2.2.1 f) ∧
      ((truncLevels fs (lastAt fs most) n dev ip).2.2.2 = true ↔ 0 ≤ most) := by
  induction n generalizing dev ip with
  | zero =>
    refine ⟨⟨[], Frees.refl .., ?_, by simp, by simp⟩, ?_⟩
    · simp [truncLevels]
    · have : base fs 0 = 0 := rfl
      simp only [truncLevels, Bool.false_eq_true, false_iff]
      lia
  | succ n ih =>
    rw [sum_range_succ] at apart
    have parts := Multiset.nodup_add.mp apart
    obtain ⟨f₁, frees₁, inode₁, blocks₁, leaves₁⟩ := truncLevel_spec top parts.2.1
    -- The levels below are apart from this one.
    have away : ∀ level < n, ∀ x ∈ tree fs.nindir (level + 1) dev.disk (ip.ib level),
        (truncLevel fs (lastAt fs most n) n dev ip).1.disk x = dev.disk x := by
      intro level hl x hx
      apply frees₁.frame
      exact notMem_of_nodup_add apart (Multiset.mem_sum.mpr ⟨level, mem_range.mpr hl, hx⟩)
    have lower : ∀ level < n, (truncLevel fs (lastAt fs most n) n dev ip).2.1.ib level =
        ip.ib level := by
      intro level hl
      have ne : level ≠ n := by lia
      rw [inode₁]
      by_cases h : most < base fs n <;> simp [h, ne]
    have trees : ∑ level ∈ range n, tree fs.nindir (level + 1)
          (truncLevel fs (lastAt fs most n) n dev ip).1.disk
          ((truncLevel fs (lastAt fs most n) n dev ip).2.1.ib level) =
        ∑ level ∈ range n, tree fs.nindir (level + 1) dev.disk (ip.ib level) := by
      apply sum_congr rfl
      intro level hl
      rw [lower level (mem_range.mp hl)]
      exact tree_congr (away level (mem_range.mp hl))
    generalize run : truncLevel fs (lastAt fs most n) n dev ip = r
      at frees₁ inode₁ blocks₁ leaves₁ away lower trees
    obtain ⟨dev₁, ip₁, c₁⟩ := r
    dsimp only at frees₁ inode₁ blocks₁ leaves₁ away lower trees
    by_cases negative : most < base fs n
    · rw [if_pos negative] at inode₁
      have stays : ¬ lastAt fs most n ≥ 0 := by
        have := lastAt_neg.mpr negative
        lia
      simp only [truncLevels, run, if_neg stays]
      obtain ⟨⟨f₂, cut⟩, done⟩ := ih negative (trees ▸ parts.1)
      generalize truncLevels fs (lastAt fs most) n dev₁ ip₁ = s at cut done ⊢
      refine ⟨⟨f₁ ++ f₂, ?_⟩, done⟩
      have empty : s.2.1.ib n = 0 := by simp [cut.inode, inode₁]
      constructor
      case frees =>
        have frees₂ := cut.frees
        rw [trees] at frees₂
        rw [sum_range_succ]
        exact frees₁.trans frees₂ (fun x hx => Multiset.mem_add.mpr (Or.inr hx))
          (fun x hx => Multiset.mem_add.mpr (Or.inl hx))
      case inode =>
        rw [cut.inode, inode₁]
        congr 1
        funext level
        by_cases here : level = n
        · subst here
          simp [negative]
        · simp only [Function.update_of_ne here]
          exact if_congr (by lia) rfl rfl
      case blocks =>
        rw [inode₁] at blocks₁
        dsimp only at blocks₁
        rw [Function.update_self, tree_zero, add_zero] at blocks₁
        rw [sum_range_succ, sum_range_succ, empty, tree_zero, add_zero, names_append, ← trees,
          ← cut.blocks, blocks₁]
        abel
      case leaves =>
        intro level hl k hk
        by_cases here : level = n
        · subst here
          rw [empty, leaf_zero, if_neg (by lia)]
        · have hl : level < n := by lia
          rw [cut.leaves level hl k hk, lower level hl, leaf_congr fs.nindir_pos (away level hl)]
    · rw [if_neg negative] at inode₁
      have keeps : lastAt fs most n ≥ 0 := by
        by_contra h
        exact negative (lastAt_neg.mp (by lia))
      simp only [truncLevels, run, if_pos keeps, true_iff]
      refine ⟨⟨f₁, ?_⟩, by lia⟩
      constructor
      case frees =>
        rw [sum_range_succ]
        exact frees₁.widen fun x hx => Multiset.mem_add.mpr (Or.inr hx)
      case inode =>
        rw [inode₁]
        congr 1
        funext level
        rw [if_neg]
        rintro ⟨hl, out⟩
        have := base_mono fs (Nat.lt_succ_iff.mp hl)
        lia
      case blocks =>
        rw [sum_range_succ, sum_range_succ, trees, ← blocks₁]
        abel
      case leaves =>
        intro level hl k hk
        by_cases here : level = n
        · subst here
          exact leaves₁ k hk
        · have hl : level < n := by lia
          have := base_add_le fs hl
          rw [lower level hl, leaf_congr fs.nindir_pos (away level hl), if_pos (by lia)]

end Levels

section Direct

variable {fs : Fs} {dev : Device} {ip : Inode}

/-- The first `n` direct pointers lose the blocks `f`, those after `last`. -/
structure DirectCut (fs : Fs) (last : Int) (n : Nat) (dev dev' : Device) (ip ip' : Inode) (c : Nat)
    (f : List (Nat × Nat)) : Prop where
  device : dev' = { dev with freed := dev.freed ++ f }
  count : c = sectors f
  sizes : ∀ e ∈ f, ∃ i < n, (i : Int) > last ∧ e = (ip.db i, fs.blksize ip i)
  inode : ip' = { ip with db := fun i => if i < n ∧ (i : Int) > last then 0 else ip.db i }
  blocks : names f + ∑ i ∈ range n, tree fs.nindir 0 dev.disk (ip'.db i) =
    ∑ i ∈ range n, tree fs.nindir 0 dev.disk (ip.db i)

theorem truncDirect_spec (fs : Fs) (last : Int) (n : Nat) (dev : Device) (ip : Inode) :
    ∃ f, DirectCut fs last n dev (truncDirect fs last n dev ip).1 ip
      (truncDirect fs last n dev ip).2.1 (truncDirect fs last n dev ip).2.2 f := by
  induction n generalizing dev ip with
  | zero => exact ⟨[], by simp [truncDirect], rfl, by simp, by simp [truncDirect], by simp⟩
  | succ n ih =>
    by_cases after : (n : Int) > last
    · by_cases hole : ip.db n = 0
      · obtain ⟨f, cut⟩ := ih dev ip
        have run : truncDirect fs last (n + 1) dev ip = truncDirect fs last n dev ip := by
          simp [truncDirect, after, hole]
        rw [run]
        generalize truncDirect fs last n dev ip = r at cut ⊢
        have same : r.2.1.db n = 0 := by simp [cut.inode, hole]
        constructor
        constructor
        case device => exact cut.device
        case count => exact cut.count
        case sizes =>
          intro e he
          obtain ⟨i, hi, later, eq⟩ := cut.sizes e he
          exact ⟨i, by lia, later, eq⟩
        case inode =>
          rw [cut.inode]
          congr 1
          funext i
          by_cases here : i = n
          · subst here
            simp [hole]
          · exact if_congr (by lia) rfl rfl
        case blocks =>
          rw [sum_range_succ, sum_range_succ, same, hole, tree_zero, add_zero, add_zero]
          exact cut.blocks
      · obtain ⟨f, cut⟩ := ih (blkfree dev (ip.db n) (fs.blksize ip n))
          { ip with db := Function.update ip.db n 0 }
        have run : truncDirect fs last (n + 1) dev ip =
            ((truncDirect fs last n (blkfree dev (ip.db n) (fs.blksize ip n))
                { ip with db := Function.update ip.db n 0 }).1,
              (truncDirect fs last n (blkfree dev (ip.db n) (fs.blksize ip n))
                { ip with db := Function.update ip.db n 0 }).2.1,
              btodb (fs.blksize ip n) +
                (truncDirect fs last n (blkfree dev (ip.db n) (fs.blksize ip n))
                { ip with db := Function.update ip.db n 0 }).2.2) := by
          simp [truncDirect, after, hole]
        rw [run]
        generalize truncDirect fs last n _ _ = r at cut ⊢
        have gone : r.2.1.db n = 0 := by simp [cut.inode]
        refine ⟨(ip.db n, fs.blksize ip n) :: f, ?_⟩
        constructor
        case device => rw [cut.device]; simp [blkfree]
        case count => simp [cut.count, sectors]
        case sizes =>
          intro e he
          rcases List.mem_cons.mp he with rfl | he
          · exact ⟨n, by lia, after, rfl⟩
          · obtain ⟨i, hi, later, eq⟩ := cut.sizes e he
            refine ⟨i, by lia, later, ?_⟩
            rw [eq]
            simp only [Function.update_of_ne (by lia : i ≠ n)]
            rfl
        case inode =>
          rw [cut.inode]
          congr 1
          funext i
          by_cases here : i = n
          · subst here
            simp [after]
          · simp only [Function.update_of_ne here]
            exact if_congr (by lia) rfl rfl
        case blocks =>
          have others : ∑ i ∈ range n, tree fs.nindir 0 dev.disk (Function.update ip.db n 0 i) =
              ∑ i ∈ range n, tree fs.nindir 0 dev.disk (ip.db i) := by
            apply sum_congr rfl
            intro i hi
            rw [Function.update_of_ne (by have := mem_range.mp hi; lia)]
          have rest : names f + ∑ i ∈ range n, tree fs.nindir 0 dev.disk (r.2.1.db i) =
              ∑ i ∈ range n, tree fs.nindir 0 dev.disk (Function.update ip.db n 0 i) := cut.blocks
          have single : tree fs.nindir 0 dev.disk (ip.db n) = {ip.db n} := by simp [tree, hole]
          rw [sum_range_succ, sum_range_succ, gone, tree_zero, add_zero, ← others, single, ← rest,
            add_comm _ {ip.db n}, ← add_assoc]
          rfl
    · refine ⟨[], ?_, ?_, by simp, ?_, ?_⟩
      · simp [truncDirect, after]
      · simp [truncDirect, after]
      · have same : (fun i => if i < n + 1 ∧ (i : Int) > last then 0 else ip.db i) = ip.db := by
          funext i
          exact if_neg (by lia)
        rw [same]
        simp [truncDirect, after]
      · simp [truncDirect, after]

/-- The fragments at the end of the last direct block that are given back. -/
def tailOf (fs : Fs) (ip : Inode) (last : Int) (osize length : Nat) : List (Nat × Nat) :=
  let oldspace := fs.blksize { ip with size := osize } last.toNat
  let newspace := fs.blksize { ip with size := length } last.toNat
  if 0 ≤ last ∧ last < NDADDR ∧ ip.db last.toNat ≠ 0 ∧ newspace < oldspace then
    [(ip.db last.toNat + fs.numfrags newspace, oldspace - newspace)]
  else []

theorem tailOf_congr {ip' : Inode} {last : Int}
    (same : 0 ≤ last → ip'.db last.toNat = ip.db last.toNat) (osize length : Nat) :
      tailOf fs ip' last osize length = tailOf fs ip last osize length := by
  by_cases least : 0 ≤ last
  · unfold tailOf
    rw [same least]
    rfl
  · unfold tailOf
    rw [if_neg (fun h => least h.1), if_neg (fun h => least h.1)]

theorem truncTail_spec {last : Int} {length : Nat} (small : last < NDADDR)
    (room : 0 ≤ last → fs.blksize { ip with size := length } last.toNat ≠ 0) :
    ∃ ip', truncTail fs last length dev ip =
        .ok ({ dev with freed := dev.freed ++ tailOf fs ip last ip.size length }, ip',
          sectors (tailOf fs ip last ip.size length)) ∧ ip'.db = ip.db ∧ ip'.ib = ip.ib := by
  by_cases empty : last < 0 ∨ ip.db last.toNat = 0
  · have none_left : tailOf fs ip last ip.size length = [] := by
      apply if_neg
      rintro ⟨least, -, hole, -⟩
      rcases empty with h | h
      · omega
      · exact hole h
    refine ⟨ip, ?_, rfl, rfl⟩
    simp [truncTail, empty, none_left]
  · obtain ⟨least, some⟩ := not_or.mp empty
    have kept := room (by omega)
    refine ⟨{ ip with size := length }, ?_, rfl, rfl⟩
    by_cases less : fs.blksize { ip with size := length } last.toNat < fs.blksize ip last.toNat
    · have tail : tailOf fs ip last ip.size length =
          [(ip.db last.toNat + fs.numfrags (fs.blksize { ip with size := length } last.toNat),
            fs.blksize ip last.toNat - fs.blksize { ip with size := length } last.toNat)] :=
        if_pos ⟨by omega, small, some, less⟩
      simp [truncTail, empty, kept, less, tail, blkfree]
    · have tail : tailOf fs ip last ip.size length = [] := by
        apply if_neg
        rintro ⟨-, -, -, more⟩
        exact less more
      simp [truncTail, empty, kept, less, tail]

end Direct

section Last

variable {fs : Fs} {length : Nat}

theorem lastblock_nonneg (small : length < 2 ^ 32) (least : 0 ≤ lastblock fs length) :
    lastblock fs length = ((length + fs.bsize - 1) / fs.bsize : Nat) - 1 := by
  have positive := fs.bsize_pos
  unfold lastblock at least ⊢
  rw [fs.lblkno_eq] at least ⊢
  by_cases wrap : length + fs.bsize - 1 < 2 ^ 32
  · rw [Nat.mod_eq_of_lt wrap]
  · exfalso
    have below : fs.bsize ≤ 2 ^ 13 := Nat.pow_le_pow_right (by lia) fs.bshift_le
    have rest : (length + fs.bsize - 1) % 2 ^ 32 < fs.bsize := by lia
    rw [Nat.div_eq_of_lt rest] at least
    lia

theorem lastblock_lt (fs : Fs) (length : Nat) :
    lastblock fs length < (2 ^ 32 / fs.bsize : Nat) := by
  have small : (length + fs.bsize - 1) % 2 ^ 32 < 2 ^ 32 := Nat.mod_lt _ (by omega)
  have := fs.lblkno_lt small
  unfold lastblock
  omega

theorem newspace_pos (small : length < 2 ^ 32) (least : 0 ≤ lastblock fs length) (ip : Inode) :
    fs.blksize { ip with size := length } (lastblock fs length).toNat ≠ 0 := by
  have positive := fs.bsize_pos
  have here := lastblock_nonneg small least
  unfold Fs.blksize
  split
  · lia
  · rename_i short
    have shift : ((lastblock fs length).toNat + 1) <<< fs.bshift =
        ((lastblock fs length).toNat + 1) * fs.bsize := Nat.shiftLeft_eq _ _
    have round : (lastblock fs length).toNat + 1 = (length + fs.bsize - 1) / fs.bsize := by lia
    rw [not_or, shift, round] at short
    -- A length on a block boundary would have a whole last block.
    have offset : 0 < fs.blkoff length := by
      by_contra zero
      obtain ⟨m, hm⟩ : fs.bsize ∣ length := Nat.dvd_of_mod_eq_zero (Nat.eq_zero_of_not_pos zero)
      have same : (length + fs.bsize - 1) / fs.bsize = m := by
        apply Nat.div_eq_of_lt_le
        · rw [Nat.mul_comm, ← hm]
          lia
        · rw [Nat.mul_comm, Nat.mul_succ, ← hm]
          lia
      apply short.2
      rw [same, hm, Nat.mul_comm]
    have one : 1 ≤ (fs.blkoff length + fs.fsize - 1) / fs.fsize := by
      rw [Nat.le_div_iff_mul_le fs.fsize_pos]
      lia
    exact Nat.mul_ne_zero (Nat.ne_of_gt one) fs.fsize_pos.ne'

/-- The block that a length off a block boundary lies in is the last one kept, or not a direct one.
-/
theorem lblkno_of_offset (offset : fs.blkoff length ≠ 0) :
    (fs.lblkno length : Int) ≤ lastblock fs length ∨ NDADDR ≤ fs.lblkno length := by
  have positive := fs.bsize_pos
  have most : fs.bsize ≤ 2 ^ 13 := Nat.pow_le_pow_right (by lia) fs.bshift_le
  rw [lastblock, fs.lblkno_eq, fs.lblkno_eq]
  by_cases wrap : length + fs.bsize - 1 < 2 ^ 32
  · left
    have up : length / fs.bsize + 1 ≤ (length + fs.bsize - 1) / fs.bsize := by
      rw [Nat.le_div_iff_mul_le positive, Nat.add_mul, Nat.one_mul]
      have := Nat.div_add_mod length fs.bsize
      have : length % fs.bsize ≠ 0 := offset
      rw [Nat.mul_comm]
      lia
    rw [Nat.mod_eq_of_lt wrap]
    lia
  · right
    have least : NDADDR * fs.bsize ≤ length := by
      change 12 * fs.bsize ≤ length
      lia
    exact (Nat.le_div_iff_mul_le positive).mpr least

theorem lastiblock_eq (fs : Fs) (length : Nat) :
    lastiblock fs length = lastAt fs (lastblock fs length - NDADDR) := by
  have indir : ∀ level, lastindir fs length level =
    lastblock fs length - NDADDR - base fs level := by
    intro level
    induction level with
    | zero => simp [lastindir, base]
    | succ level ih =>
      rw [lastindir, ih, base]
      push_cast
      omega
  funext level
  rw [lastiblock, lastAt, indir]

theorem lastblock_top (fs : Fs) (length : Nat) : lastblock fs length - NDADDR < base fs NIADDR := by
  have bound := lastblock_lt fs length
  have same := fs.pow_div_bsize
  rw [same] at bound
  have sum : base fs NIADDR = 0 + fs.nindir ^ 1 + fs.nindir ^ 2 + fs.nindir ^ 3 := rfl
  rw [sum]
  rcases nindir_cases fs with h | h | h <;> rw [h] at bound ⊢ <;> lia

end Last

section Settle

variable {fs : Fs} {dev : Device} {oip : Inode} {length : Nat}
  (realloccg : Device → Inode → Nat → Nat → Nat → Except Stop (Device × Inode))

theorem settle_spec (shorter : length < oip.size) (small : length < 2 ^ 32)
    (apart : (owned fs dev oip + (dev.fresh : Multiset Nat)).Nodup) (nonzero : 0 ∉ dev.fresh)
    (enough : fs.blkoff length = 0 ∨ Finds fs dev oip (fs.lblkno length) ∨
      NIADDR + 1 ≤ dev.fresh.length) :
    ∃ dev' ip' new, settle realloccg fs dev oip length = .ok (dev', { ip' with size := length }) ∧
      Settled fs dev dev' oip ip' (fs.lblkno length) new ∧
      (fs.blkoff length = 0 ∨ Finds fs dev oip (fs.lblkno length) →
        new = [] ∧ dev' = dev ∧ ip' = oip) ∧
      (fs.lblkno length < NDADDR → new = [] ∨
        new = [(ip'.db (fs.lblkno length), fs.room oip length)]) := by
  by_cases aligned : fs.blkoff length = 0
  · refine ⟨dev, oip, [], ?_, Settled.refl .., fun _ => ⟨rfl, rfl, rfl⟩, fun _ => .inl rfl⟩
    simp [settle, aligned]
    rfl
  · obtain ⟨dev', ip', new, run, settled, given⟩ :=
      balloc_spec realloccg shorter small apart nonzero (enough.resolve_left aligned)
    refine ⟨dev', ip', new, ?_, settled, fun found => settled.mapped (found.resolve_left aligned),
      given⟩
    simp only [settle, aligned, if_false, run]
    rfl

structure BlocksCut (fs : Fs) (length : Nat) (dev dev' : Device) (ip ip' : Inode) (c : Nat)
    (f tail : List (Nat × Nat)) : Prop where
  freed : dev'.freed = dev.freed ++ f ++ tail
  allocated : dev'.allocated = dev.allocated
  count : c = sectors f + sectors tail
  sizes : ∀ e ∈ f, e.2 = fs.bsize ∨
    ∃ i < NDADDR, (i : Int) > lastblock fs length ∧ e = (ip.db i, fs.blksize ip i)
  tail : tail = tailOf fs ip (lastblock fs length) ip.size length
  db : ip'.db = fun i => if i < NDADDR ∧ (i : Int) > lastblock fs length then 0 else ip.db i
  ib : ip'.ib = fun level =>
    if level < NIADDR ∧ lastiblock fs length level < 0 then 0 else ip.ib level
  blocks : names f + owned fs dev' ip' = owned fs dev ip
  leaves : ∀ level < NIADDR, ∀ k < fs.nindir ^ (level + 1),
    leaf fs.nindir (level + 1) dev'.disk (ip'.ib level) k =
      if (NDADDR + base fs level + k : Nat) ≤ lastblock fs length then
        leaf fs.nindir (level + 1) dev.disk (ip.ib level) k else none

theorem truncBlocks_spec (small : length < 2 ^ 32) {ip : Inode} (apart : (owned fs dev ip).Nodup) :
    ∃ dev' ip' c f tail, truncBlocks fs length dev ip = .ok (dev', ip', c) ∧
      BlocksCut fs length dev dev' ip ip' c f tail := by
  obtain ⟨⟨f₁, cut⟩, done⟩ := truncLevels_spec (lastblock fs length - NDADDR) NIADDR
    (lastblock_top fs length) (Multiset.nodup_add.mp apart).2.1
  rw [← lastiblock_eq] at cut done
  unfold truncBlocks
  generalize truncLevels fs (lastiblock fs length) NIADDR dev ip = r at cut done ⊢
  obtain ⟨dev₁, ip₁, c₁, stop⟩ := r
  dsimp only at cut done ⊢
  have kept : ip₁.ib = fun level => if level < NIADDR ∧ lastiblock fs length level < 0 then 0
      else ip.ib level := by
    rw [cut.inode, lastiblock_eq]
    funext level
    exact if_congr (and_congr_right fun _ => lastAt_neg.symm) rfl rfl
  have leaves : ∀ level < NIADDR, ∀ k < fs.nindir ^ (level + 1),
      leaf fs.nindir (level + 1) dev₁.disk (ip₁.ib level) k =
        if (NDADDR + base fs level + k : Nat) ≤ lastblock fs length then
          leaf fs.nindir (level + 1) dev.disk (ip.ib level) k else none := by
    intro level hl k hk
    rw [cut.leaves level hl k hk]
    exact if_congr (by lia) rfl rfl
  have same : ip₁.db = ip.db ∧ ip₁.size = ip.size := by rw [cut.inode]; exact ⟨rfl, rfl⟩
  by_cases past : 0 ≤ lastblock fs length - NDADDR
  · have none_after : ∀ i, ¬ (i < NDADDR ∧ (i : Int) > lastblock fs length) := by lia
    rw [if_pos (done.mpr past)]
    refine ⟨dev₁, ip₁, c₁, f₁, [], rfl, ?_⟩
    constructor
    case freed => simpa using cut.frees.freed
    case allocated => exact cut.frees.allocated
    case count => simpa using cut.frees.count
    case sizes => exact fun e he => Or.inl (cut.frees.sizes e he)
    case tail =>
      apply Eq.symm
      apply if_neg
      rintro ⟨-, less, -, -⟩
      lia
    case db => simp [none_after, same.1]
    case ib => exact kept
    case blocks =>
      have data : ∑ i ∈ range NDADDR, tree fs.nindir 0 dev₁.disk (ip.db i) =
          ∑ i ∈ range NDADDR, tree fs.nindir 0 dev.disk (ip.db i) := rfl
      rw [owned, owned, ← cut.blocks, same.1, data]
      abel
    case leaves => exact leaves
  · rw [if_neg (fun stopped => past (done.mp stopped))]
    obtain ⟨f₂, cut₂⟩ := truncDirect_spec fs (lastblock fs length) NDADDR dev₁ ip₁
    generalize truncDirect fs (lastblock fs length) NDADDR dev₁ ip₁ = r at cut₂ ⊢
    obtain ⟨dev₂, ip₂, c₂⟩ := r
    dsimp only at cut₂ ⊢
    have same₂ : ip₂.ib = ip₁.ib ∧ ip₂.size = ip.size := by
      rw [cut₂.inode]
      exact ⟨rfl, same.2⟩
    have kept₂ : ip₂.db = fun i => if i < NDADDR ∧ (i : Int) > lastblock fs length then 0
        else ip.db i := by rw [cut₂.inode, same.1]
    have tails : tailOf fs ip₂ (lastblock fs length) ip₂.size length =
        tailOf fs ip (lastblock fs length) ip.size length := by
      rw [same₂.2]
      apply tailOf_congr
      intro least
      rw [kept₂]
      exact if_neg (by lia)
    obtain ⟨ip₃, run, db₃, ib₃⟩ := @truncTail_spec fs dev₂ ip₂ (lastblock fs length) length (by lia)
      (fun least => newspace_pos small least ip₂)
    rw [run, tails]
    refine ⟨_, ip₃, _, f₁ ++ f₂, tailOf fs ip (lastblock fs length) ip.size length, rfl, ?_⟩
    constructor
    case freed => simp [cut₂.device, cut.frees.freed]
    case allocated => simp [cut₂.device, cut.frees.allocated]
    case count => rw [cut.frees.count, cut₂.count, sectors_append]
    case sizes =>
      intro e he
      rcases List.mem_append.mp he with he | he
      · exact Or.inl (cut.frees.sizes e he)
      · obtain ⟨i, hi, later, eq⟩ := cut₂.sizes e he
        refine Or.inr ⟨i, hi, later, ?_⟩
        rw [eq, same.1, Fs.blksize, same.2]
        rfl
    case tail => rfl
    case db => rw [db₃, kept₂]
    case ib => rw [ib₃, same₂.1, kept]
    case blocks =>
      have disk : dev₂.disk = dev₁.disk := by rw [cut₂.device]
      have direct : names f₂ + ∑ i ∈ range NDADDR, tree fs.nindir 0 dev.disk (ip₂.db i) =
          ∑ i ∈ range NDADDR, tree fs.nindir 0 dev.disk (ip.db i) := same.1 ▸ cut₂.blocks
      have data : ∑ i ∈ range NDADDR, tree fs.nindir 0 dev₂.disk (ip₃.db i) =
          ∑ i ∈ range NDADDR, tree fs.nindir 0 dev.disk (ip₂.db i) := by
        rw [db₃]
        rfl
      rw [owned, owned, ← cut.blocks, ← direct, names_append, ib₃, same₂.1]
      dsimp only
      rw [data, disk]
      abel
    case leaves =>
      intro level hl k hk
      rw [ib₃, same₂.1, cut₂.device]
      exact leaves level hl k hk

theorem BlocksCut.bmap_kept {dev dev' : Device} {ip ip' : Inode} {c : Nat}
    {f tail : List (Nat × Nat)} (cut : BlocksCut fs length dev dev' ip ip' c f tail) {b : Int}
    (hb : b ≤ lastblock fs length) : bmap fs dev' ip' b = bmap fs dev ip b := by
  cases slot fs b with
  | none looks => rw [looks, looks]
  | direct i hi here looks =>
    have kept : ip'.db i = ip.db i := by
      rw [cut.db]
      exact if_neg (by lia)
    rw [looks, looks, kept]
    rfl
  | indirect level hl k hk here looks =>
    rw [looks, looks, cut.leaves level hl k hk, if_pos (by lia)]

theorem BlocksCut.not_finds {dev dev' : Device} {ip ip' : Inode} {c : Nat}
    {f tail : List (Nat × Nat)} (cut : BlocksCut fs length dev dev' ip ip' c f tail) {b : Int}
    (hb : b > lastblock fs length) : ¬ Finds fs dev' ip' b := by
  rintro ⟨a, found⟩
  cases slot fs b with
  | none looks =>
    rw [looks] at found
    cases found
  | direct i hi here looks =>
    have gone : ip'.db i = 0 := by
      rw [cut.db]
      exact if_pos (by lia)
    rw [looks, gone, leaf_zero] at found
    cases found
  | indirect level hl k hk here looks =>
    rw [looks, cut.leaves level hl k hk, if_neg (by lia)] at found
    cases found

/-- The two copies of the inode agree at the end, so the checks there pass. -/
theorem itrunc_eq (plain : oip.FASTLINK = false) (shorter : length < oip.size) {dev₁ dev₂ : Device}
    {ip₁ ip₂ : Inode} {c : Nat} {f tail : List (Nat × Nat)}
    (run₁ : settle realloccg fs dev oip length = .ok (dev₁, { ip₁ with size := length }))
    (run₂ : truncBlocks fs length dev₁ { ip₁ with size := oip.size } = .ok (dev₂, ip₂, c))
    (cut : BlocksCut fs length dev₁ dev₂ { ip₁ with size := oip.size } ip₂ c f tail) :
    itrunc realloccg fs dev oip length =
      .ok (dev₂, { ip₁ with
        size := length
        ib := ip₂.ib
        db := ip₂.db
        blocks := max 0 (ip₁.blocks - c) }) := by
  have longer : ¬ oip.size ≤ length := not_le.mpr shorter
  have sane : (if ip₁.blocks - (c : Int) < 0 then 0 else ip₁.blocks - (c : Int)) =
      max 0 (ip₁.blocks - c) := by
    split <;> lia
  simp only [itrunc, plain, Bool.false_eq_true, false_and, if_false, longer, run₁]
  simp only [bind, Except.bind, pure, Except.pure, run₂, cut.ib, cut.db, ne_eq, not_true_eq_false,
    and_false, exists_false, if_false, sane]

theorem lastblock_of_offset (offset : fs.blkoff length ≠ 0) (least : 0 ≤ lastblock fs length)
    (small : length < 2 ^ 32) : lastblock fs length = fs.lblkno length := by
  have positive := fs.bsize_pos
  have round : (length + fs.bsize - 1) / fs.bsize = length / fs.bsize + 1 := by
    have parts := Nat.div_add_mod length fs.bsize
    have less := Nat.mod_lt length positive
    have some : 0 < length % fs.bsize := Nat.pos_of_ne_zero offset
    apply Nat.div_eq_of_lt_le
    · rw [Nat.succ_mul, Nat.mul_comm]
      lia
    · rw [Nat.succ_mul, Nat.succ_mul, Nat.mul_comm]
      lia
  rw [lastblock_nonneg small least, fs.lblkno_eq, round]
  lia

/-- A hole is filled with the room that a block of the old size has, unless it is in a last block of
fragments, of which the new length has less. -/
theorem room_eq (direct : fs.lblkno length < NDADDR)
    (held : (fs.lblkno length + 1) * fs.bsize ≤ oip.size ∨
      fs.blksize oip (fs.lblkno length) ≤ fs.fragroundup (fs.blkoff length))
    (less : fs.blksize { oip with size := length } (fs.lblkno length) <
      fs.blksize oip (fs.lblkno length)) :
    fs.room oip length = fs.blksize oip (fs.lblkno length) := by
  have above : length < (fs.lblkno length + 1) * fs.bsize := by
    rw [fs.lblkno_eq, Nat.mul_comm]
    exact Nat.lt_mul_div_succ length fs.bsize_pos
  have kept : fs.blksize { oip with size := length } (fs.lblkno length) =
    fs.fragroundup (fs.blkoff length) := by
    unfold Fs.blksize
    rw [Nat.shiftLeft_eq]
    exact if_neg (by rw [not_or]; exact ⟨Nat.not_le.mpr direct, Nat.not_le.mpr above⟩)
  rw [kept] at less
  have whole : (fs.lblkno length + 1) * fs.bsize ≤ oip.size :=
    held.resolve_right (Nat.not_le.mpr less)
  unfold Fs.room Fs.blksize
  rw [if_neg (Nat.not_lt.mpr whole), Nat.shiftLeft_eq]
  exact (if_pos (.inr whole)).symm

/-- Every block after the last one that is kept is freed once, with the indirect blocks that lead to
no other; a hole at the end of the new length is filled first. -/
theorem itrunc_frees (fs : Fs)
    (realloccg : Device → Inode → Nat → Nat → Nat → Except Stop (Device × Inode)) (dev : Device)
    (oip : Inode) (length : Nat) (plain : oip.FASTLINK = false) (shorter : length < oip.size)
    (word : oip.size < 2 ^ 32) (apart : (owned fs dev oip + (dev.fresh : Multiset Nat)).Nodup)
    (nonzero : 0 ∉ dev.fresh)
    (enough : fs.blkoff length = 0 ∨ Finds fs dev oip (fs.lblkno length) ∨
      NIADDR + 1 ≤ dev.fresh.length)
    (held : fs.blkoff length = 0 ∨ Finds fs dev oip (fs.lblkno length) ∨ NDADDR ≤ fs.lblkno length ∨
      (fs.lblkno length + 1) * fs.bsize ≤ oip.size ∨
      fs.blksize oip (fs.lblkno length) ≤ fs.fragroundup (fs.blkoff length)) :
    ∃ dev' ip' new f tail, itrunc realloccg fs dev oip length = .ok (dev', ip') ∧
      dev'.allocated = dev.allocated ++ new ∧ dev'.freed = dev.freed ++ f ++ tail ∧
      (fs.blkoff length = 0 ∨ Finds fs dev oip (fs.lblkno length) → new = []) ∧
      (∀ b ≤ lastblock fs length,
        b ≠ fs.lblkno length ∨ fs.blkoff length = 0 ∨ Finds fs dev oip (fs.lblkno length) →
        bmap fs dev' ip' b = bmap fs dev oip b) ∧
      (∀ b > lastblock fs length, ¬ Finds fs dev' ip' b) ∧
      names f + owned fs dev' ip' = names new + owned fs dev oip ∧
      (names f + owned fs dev' ip').Nodup ∧
      (∀ e ∈ f, e.2 = fs.bsize ∨ ∃ i < NDADDR, e = (oip.db i, fs.blksize oip i)) ∧
      tail = tailOf fs ip' (lastblock fs length) oip.size length ∧
      (∀ e ∈ tail, new = [] ∨
        new = [(ip'.db (lastblock fs length).toNat, fs.blksize oip (lastblock fs length).toNat)]) ∧
      ip'.size = length ∧
      ip'.blocks = max 0 (oip.blocks + sectors new - sectors f - sectors tail) := by
  have small : length < 2 ^ 32 := by omega
  obtain ⟨dev₁, ip₁, new, run₁, settled, still, given⟩ :=
    settle_spec realloccg shorter small apart nonzero enough
  have apart₁ : (owned fs dev₁ ip₁).Nodup := by
    rw [← settled.total] at apart
    exact (Multiset.nodup_add.mp apart).1
  obtain ⟨dev₂, ip₂, c, f, tail, run₂, cut⟩ :=
    @truncBlocks_spec fs dev₁ length small { ip₁ with size := oip.size } apart₁
  have run := itrunc_eq realloccg plain shorter run₁ run₂ cut
  set ip' : Inode := { ip₁ with
        size := length
        ib := ip₂.ib
        db := ip₂.db
        blocks := max 0 (ip₁.blocks - c) } with def'
  have after : owned fs dev₂ ip' = owned fs dev₂ ip₂ := rfl
  have before : owned fs dev₁ { ip₁ with size := oip.size } = owned fs dev₁ ip₁ := rfl
  have total := cut.blocks
  rw [before, ← after] at total
  have kept : 0 ≤ lastblock fs length →
      ip'.db (lastblock fs length).toNat = ip₁.db (lastblock fs length).toNat := by
    intro least
    change ip₂.db _ = _
    rw [cut.db]
    exact if_neg (by omega)
  refine ⟨dev₂, ip', new, f, tail, run, ?_, ?_, fun h => (still h).1, ?_, ?_, ?_, ?_, ?_, ?_, ?_,
    rfl, ?_⟩
  · rw [cut.allocated, settled.allocated]
  · rw [cut.freed, settled.freed]
  · intro b hb same
    have earlier : bmap fs dev₁ ip₁ b = bmap fs dev oip b := by
      rcases same with ne | same
      · exact settled.elsewhere b ne
      · rw [(still same).2.1, (still same).2.2]
    rw [← earlier]
    exact cut.bmap_kept hb
  · intro b hb
    exact cut.not_finds hb
  · rw [total, settled.blocks]
  · rw [total]
    exact apart₁
  · intro e he
    rcases cut.sizes e he with whole | ⟨i, hi, later, eq⟩
    · exact Or.inl whole
    · refine Or.inr ⟨i, hi, ?_⟩
      have same : ip₁.db i = oip.db i := by
        by_cases here : i = fs.lblkno length
        · have aligned : fs.blkoff length = 0 := by
            by_contra offset
            have := lblkno_of_offset offset
            omega
          rw [(still (Or.inl aligned)).2.2]
        · exact settled.direct i here
      rw [eq, ← same]
      rfl
  · rw [cut.tail]
    exact tailOf_congr (fun least => (kept least).symm) _ _
  · intro e member
    by_cases found : fs.blkoff length = 0 ∨ Finds fs dev oip (fs.lblkno length)
    · exact .inl (still found).1
    obtain ⟨offset, hole⟩ := not_or.mp found
    rw [cut.tail] at member
    unfold tailOf at member
    dsimp only at member
    split at member
    · rename_i some
      obtain ⟨least, direct, -, less⟩ := some
      have here := lastblock_of_offset offset least small
      rw [here, Int.toNat_natCast] at less
      rw [here] at direct
      rw [kept least, here, Int.toNat_natCast, ← room_eq (by omega)
        (((held.resolve_left offset).resolve_left hole).resolve_left (by omega)) less]
      exact given (by omega)
    · cases member
  · change max 0 (ip₁.blocks - (c : Int)) = _
    rw [cut.count, settled.charged]
    push_cast
    congr 1
    omega

end Settle

def plainFs : Fs where
  bshift := 11
  fshift := 9
  size := 1024
  ncg := 1
  nbpg := 256
  nspf := 1
  spc := 32
  nsect := 32
  npsect := 32
  trackskew := 0
  interleave := 1
  nrpos := 1
  cpc := 0
  postbl := fun _ _ => -1
  rotbl := fun _ => 0
  bshift_le := by decide
  le_bshift := by decide
  le_fshift := by decide
  fshift_le := by decide
  frag_le := by decide
  ncg_pos := by decide
  nbpg_pos := by decide

/-- Two blocks below a single indirect one, and a first block that is a hole. -/
def sparseDevice : Device where
  disk bn i := if bn = 24 then (if i = 0 then 32 else if i = 3 then 40 else 0) else 0
  fresh := [48, 56, 64, 72]
  allocated := []
  freed := []

def sparseInode : Inode where
  isLink := false
  size := 30000
  spare := 0
  db i := if i = 1 then 8 else if i = 5 then 16 else 0
  ib level := if level = 0 then 24 else 0
  blocks := 20

theorem itrunc_frees_sparse : ∃ dev' ip' new f tail,
    itrunc (fun dev ip _ _ _ => .ok (dev, ip)) plainFs sparseDevice sparseInode 2500 =
      .ok (dev', ip') ∧
      dev'.freed = f ++ tail ∧
      names f + owned plainFs dev' ip' = names new + owned plainFs sparseDevice sparseInode := by
  obtain ⟨dev', ip', new, f, tail, run, -, freed, -, -, -, total, -⟩ :=
    itrunc_frees plainFs (fun dev ip _ _ _ => .ok (dev, ip)) sparseDevice sparseInode 2500 rfl
      (by simp [sparseInode]) (by simp [sparseInode]) (by decide +kernel) (by decide)
      (Or.inr (Or.inr (by decide))) (Or.inr (Or.inr (Or.inr (Or.inl (by decide)))))
  exact ⟨dev', ip', new, f, tail, run, by simpa [sparseDevice] using freed, total⟩

/-- The first block is a hole, and becomes a block of the file when the file is cut inside it. -/
theorem itrunc_fills_hole :
    (owned plainFs sparseDevice sparseInode).Nodup ∧ 100 < sparseInode.size ∧
      (0 : Int) ≤ lastblock plainFs 100 ∧ bmap plainFs sparseDevice sparseInode 0 = .ok none ∧
      ∃ dev' ip', itrunc (fun dev ip _ _ _ => .ok (dev, ip)) plainFs sparseDevice sparseInode 100 =
        .ok (dev', ip') ∧ bmap plainFs dev' ip' 0 = .ok (some 48) := by
  refine ⟨by decide +kernel, by decide, by decide, by decide, ?_⟩
  have after :
      ((itrunc (fun dev ip _ _ _ => .ok (dev, ip)) plainFs sparseDevice sparseInode 100).map
      fun r => bmap plainFs r.1 r.2 0) = .ok (.ok (some 48)) := by
    decide +kernel
  cases run : itrunc (fun dev ip _ _ _ => .ok (dev, ip)) plainFs sparseDevice sparseInode 100 with
  | error stop =>
    rw [run] at after
    cases after
  | ok r =>
    rw [run] at after
    exact ⟨r.1, r.2, rfl, Except.ok.inj after⟩

end FreeBsd.Ufs
