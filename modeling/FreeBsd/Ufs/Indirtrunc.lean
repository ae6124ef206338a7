import FreeBsd.Lib.Fanout
import FreeBsd.Ufs.Inode
import Mathlib.Tactic.Abel

/-! `indirtrunc` frees the blocks after the last one that is kept. A tree of height 1 is a single
indirect block with the data blocks it points at. -/
namespace FreeBsd.Ufs

open FreeBsd.Fanout Finset

section Frees

variable {fs : Fs} {dev dev₁ dev₂ : Device} {f f₁ f₂ : List (Nat × Nat)} {T T₁ T₂ : Multiset Nat}
  {c c₁ c₂ : Nat}

theorem Fs.nindir_pos (fs : Fs) : 0 < fs.nindir := by
  have small : 2 ^ 11 ≤ 2 ^ fs.bshift := Nat.pow_le_pow_right (by omega) fs.le_bshift
  unfold nindir bsize
  omega

/-- The blocks of a list of calls of `alloc` or `blkfree`. -/
def names (f : List (Nat × Nat)) : Multiset Nat := (f.map Prod.fst : List Nat)

@[simp] theorem names_nil : names [] = 0 := rfl

@[simp] theorem names_append (f g : List (Nat × Nat)) : names (f ++ g) = names f + names g := by
  simp [names]

theorem names_single (e : Nat × Nat) : names [e] = {e.1} := rfl

def sectors (f : List (Nat × Nat)) : Nat := (f.map fun e => btodb e.2).sum

@[simp] theorem sectors_nil : sectors [] = 0 := rfl

@[simp] theorem sectors_append (f g : List (Nat × Nat)) :
    sectors (f ++ g) = sectors f + sectors g := by
  simp [sectors]

@[simp] theorem sectors_single (e : Nat × Nat) : sectors [e] = btodb e.2 := by
  simp [sectors]

/-- Whole blocks `f` are freed, `c` sectors of them, and the indirect blocks outside `T` stay. -/
structure Frees (fs : Fs) (dev dev' : Device) (f : List (Nat × Nat)) (T : Multiset Nat) (c : Nat) :
    Prop where
  freed : dev'.freed = dev.freed ++ f
  sizes : ∀ e ∈ f, e.2 = fs.bsize
  count : c = sectors f
  frame : ∀ x ∉ T, dev'.disk x = dev.disk x
  fresh : dev'.fresh = dev.fresh
  allocated : dev'.allocated = dev.allocated

theorem Frees.refl (fs : Fs) (dev : Device) (T : Multiset Nat) : Frees fs dev dev [] T 0 :=
  ⟨by simp, by simp, by simp, fun _ _ => rfl, rfl, rfl⟩

theorem Frees.widen (one : Frees fs dev dev₁ f T₁ c) (wide : ∀ x ∈ T₁, x ∈ T) :
    Frees fs dev dev₁ f T c :=
  ⟨one.freed, one.sizes, one.count, fun x hx => one.frame x fun h => hx (wide x h), one.fresh,
    one.allocated⟩

theorem Frees.trans (one : Frees fs dev dev₁ f₁ T₁ c₁) (two : Frees fs dev₁ dev₂ f₂ T₂ c₂)
    (left : ∀ x ∈ T₁, x ∈ T) (right : ∀ x ∈ T₂, x ∈ T) :
    Frees fs dev dev₂ (f₁ ++ f₂) T (c₁ + c₂) where
  freed := by rw [two.freed, one.freed, List.append_assoc]
  sizes := by
    intro e he
    rcases List.mem_append.mp he with he | he
    · exact one.sizes e he
    · exact two.sizes e he
  count := by rw [one.count, two.count, sectors_append]
  frame := by
    intro x hx
    rw [two.frame x (fun h => hx (right x h)), one.frame x (fun h => hx (left x h))]
  fresh := two.fresh.trans one.fresh
  allocated := two.allocated.trans one.allocated

theorem Frees.blkfree (one : Frees fs dev dev₁ f T c) (q : Nat) :
    Frees fs dev (blkfree dev₁ q fs.bsize) (f ++ [(q, fs.bsize)]) T (c + btodb fs.bsize) := by
  have last : Frees fs dev₁ (Ufs.blkfree dev₁ q fs.bsize) [(q, fs.bsize)] T (btodb fs.bsize) :=
    ⟨rfl, by simp, by simp, fun _ _ => rfl, rfl, rfl⟩
  exact one.trans last (fun _ h => h) (fun _ h => h)

/-- The tree at `q` loses the blocks `f`, and what is left leads to the blocks up to `last`. -/
structure Cut (fs : Fs) (h : Nat) (dev dev' : Device) (q : Nat) (last : Int) (c : Nat)
    (f : List (Nat × Nat)) : Prop where
  frees : Frees fs dev dev' f (tree fs.nindir h dev.disk q) c
  blocks : names f + tree fs.nindir h dev'.disk q = tree fs.nindir h dev.disk q
  leaf : ∀ k, leaf fs.nindir h dev'.disk q k =
    if (k % fs.nindir ^ h : Nat) ≤ last then leaf fs.nindir h dev.disk q k else none
  bare : last < 0 → tree fs.nindir h dev'.disk q = {q}

/-- What the recursive call of `indirtrunc` does to trees of height `h`. -/
inductive Lower (fs : Fs) : Nat → Option (Device → Nat → Int → Device × Nat) → Prop where
  | single : Lower fs 0 none
  | deeper {h : Nat} {call : Device → Nat → Int → Device × Nat}
      (cuts : ∀ (dev : Device) (q : Nat) (last : Int), q ≠ 0 →
        (tree fs.nindir (h + 1) dev.disk q).Nodup → -1 ≤ last →
        last < (fs.nindir ^ (h + 1) : Nat) →
        ∃ f, Cut fs (h + 1) dev (call dev q last).1 q last (call dev q last).2 f) :
      Lower fs (h + 1) (some call)

end Frees

section Indirect

variable {fs : Fs} {lower : Option (Device → Nat → Int → Device × Nat)} {h : Nat}

theorem Lower.whole (spec : Lower fs h lower) {dev : Device} {q : Nat} (hq : q ≠ 0)
    (apart : (tree fs.nindir h dev.disk q).Nodup) :
    ∃ f, Frees fs dev
        (blkfree (match lower with | none => (dev, 0) | some call => call dev q (-1)).1 q fs.bsize)
          f
        (tree fs.nindir h dev.disk q)
        ((match lower with | none => (dev, 0) | some call => call dev q (-1)).2 + btodb fs.bsize) ∧
      names f = tree fs.nindir h dev.disk q := by
  cases spec with
  | single =>
    refine ⟨[] ++ [(q, fs.bsize)], (Frees.refl fs dev _).blkfree q, ?_⟩
    simp [tree, hq, names_single]
  | @deeper h call cuts =>
    have low : (-1 : Int) < (fs.nindir ^ (h + 1) : Nat) := by omega
    obtain ⟨f, cut⟩ := cuts dev q (-1) hq apart (le_refl _) low
    refine ⟨f ++ [(q, fs.bsize)], cut.frees.blkfree q, ?_⟩
    rw [names_append, names_single, ← cut.bare (by omega), cut.blocks]

theorem release_spec (spec : Lower fs h lower) (bap : Nat → Nat) (low n : Nat) (dev : Device)
    (apart : (∑ i ∈ range n, tree fs.nindir h dev.disk (bap (low + i))).Nodup) :
    ∃ f, Frees fs dev (release fs lower bap low n dev).1 f
        (∑ i ∈ range n, tree fs.nindir h dev.disk (bap (low + i)))
        (release fs lower bap low n dev).2 ∧
      names f = ∑ i ∈ range n, tree fs.nindir h dev.disk (bap (low + i)) := by
  induction n generalizing dev with
  | zero => exact ⟨[], Frees.refl fs dev _, by simp⟩
  | succ n ih =>
    rw [sum_range_succ] at apart ⊢
    by_cases hb : bap (low + n) = 0
    · simp only [release, hb, tree_zero, add_zero, if_true] at apart ⊢
      exact ih dev apart
    · have parts := Multiset.nodup_add.mp apart
      obtain ⟨f₁, one, names₁⟩ := spec.whole hb parts.2.1
      simp only [release, hb, if_false]
      set dev₁ := blkfree
        (match lower with | none => (dev, 0) | some call => call dev (bap (low + n)) (-1)).1
        (bap (low + n)) fs.bsize
      -- The other entries have no block in common with this one.
      have same : ∀ i ∈ range n, tree fs.nindir h dev₁.disk (bap (low + i)) =
          tree fs.nindir h dev.disk (bap (low + i)) := by
        intro i hi
        apply tree_congr
        intro x hx
        apply one.frame
        exact notMem_of_nodup_add apart (Multiset.mem_sum.mpr ⟨i, hi, hx⟩)
      have sums := sum_congr rfl same
      obtain ⟨f₂, two, names₂⟩ := ih dev₁ (by rw [sums]; exact parts.1)
      rw [sums] at two names₂
      refine ⟨f₁ ++ f₂, one.trans two ?_ ?_, ?_⟩
      · exact fun x hx => Multiset.mem_add.mpr (Or.inr hx)
      · exact fun x hx => Multiset.mem_add.mpr (Or.inl hx)
      · rw [names_append, names₁, names₂, add_comm]

theorem Lower.part (spec : Lower fs h lower) {dev : Device} {q r : Nat}
    (apart : (tree fs.nindir h dev.disk q).Nodup) (hr : r < fs.nindir ^ h) :
    ∃ f, Cut fs h dev
        (match lower with
          | none => (dev, 0)
          | some call => if q ≠ 0 then call dev q r else (dev, 0)).1 q r
        (match lower with
          | none => (dev, 0)
          | some call => if q ≠ 0 then call dev q r else (dev, 0)).2 f := by
  cases spec with
  | single =>
    refine ⟨[], Frees.refl fs dev _, by simp, ?_, fun low => absurd low (by lia)⟩
    intro k
    simp [Nat.mod_one]
  | @deeper h call cuts =>
    by_cases hq : q = 0
    · simp only [hq, ne_eq, not_true_eq_false, if_false]
      exact ⟨[], Frees.refl fs dev _, by simp, by simp, fun low => absurd low (by lia)⟩
    · simp only [hq, ne_eq, not_false_eq_true, if_true]
      exact cuts dev q r hq apart (by lia) (by lia)

theorem release_zeroed (spec : Lower fs h lower) (dev : Device) {q low : Nat} (hq : q ≠ 0)
    (apart : (tree fs.nindir (h + 1) dev.disk q).Nodup) (hlow : low ≤ fs.nindir) {r : Device × Nat}
    (run : r = release fs lower (dev.disk q) low (fs.nindir - low)
      { dev with disk := Function.update dev.disk q (zeroed fs (dev.disk q) low) }) :
    ∃ f, Frees fs dev r.1 f (tree fs.nindir (h + 1) dev.disk q) r.2 ∧
      names f = ∑ i ∈ range (fs.nindir - low), tree fs.nindir h dev.disk (dev.disk q (low + i)) ∧
      r.1.disk q = zeroed fs (dev.disk q) low ∧
      ∀ i < low, ∀ x ∈ tree fs.nindir h dev.disk (dev.disk q i), r.1.disk x = dev.disk x := by
  set dev₀ : Device := { dev with disk := Function.update dev.disk q (zeroed fs (dev.disk q) low) }
  have away : ∀ x ≠ q, dev₀.disk x = dev.disk x := fun x hx => Function.update_of_ne hx _ _
  have entry : ∀ i < fs.nindir, tree fs.nindir h dev₀.disk (dev.disk q i) =
      tree fs.nindir h dev.disk (dev.disk q i) := by
    intro i hi
    apply tree_congr
    rintro x hx
    apply away
    rintro rfl
    exact root_notMem_entry hq apart hi hx
  have split : ∑ i ∈ range fs.nindir, tree fs.nindir h dev.disk (dev.disk q i) =
      ∑ i ∈ range low, tree fs.nindir h dev.disk (dev.disk q i) +
        ∑ i ∈ range (fs.nindir - low), tree fs.nindir h dev.disk (dev.disk q (low + i)) := by
    rw [← sum_range_add, Nat.add_sub_cancel' hlow]
  have whole := entries_nodup hq apart
  rw [split] at whole
  have sums : ∑ i ∈ range (fs.nindir - low), tree fs.nindir h dev₀.disk (dev.disk q (low + i)) =
      ∑ i ∈ range (fs.nindir - low), tree fs.nindir h dev.disk (dev.disk q (low + i)) := by
    apply sum_congr rfl
    intro i hi
    exact entry _ (by have := mem_range.mp hi; omega)
  have mem : ∀ x ∈ ∑ i ∈ range (fs.nindir - low), tree fs.nindir h dev.disk (dev.disk q (low + i)),
      x ∈ tree fs.nindir (h + 1) dev.disk q ∧ x ≠ q := by
    intro x hx
    obtain ⟨i, hi, hx⟩ := Multiset.mem_sum.mp hx
    have hi : low + i < fs.nindir := by have := mem_range.mp hi; omega
    refine ⟨mem_tree_entry hq hi hx, ?_⟩
    rintro rfl
    exact root_notMem_entry hq apart hi hx
  obtain ⟨f, frees, named⟩ := release_spec spec (dev.disk q) low (fs.nindir - low) dev₀
    (by rw [sums]; exact (Multiset.nodup_add.mp whole).2.1)
  rw [← run] at frees
  rw [sums] at frees named
  have base : Frees fs dev dev₀ [] (tree fs.nindir (h + 1) dev.disk q) 0 :=
    ⟨by simp [dev₀], by simp, by simp, by
      intro x hx
      apply away
      rintro rfl
      exact hx (mem_tree_self hq _ _), rfl, rfl⟩
  refine ⟨f, ?_, named, ?_, ?_⟩
  · simpa using base.trans frees (fun x hx => hx) (fun x hx => (mem x hx).1)
  · rw [frees.frame q (fun hx => (mem q hx).2 rfl)]
    exact Function.update_self ..
  · intro i hi x hx
    have apart' := notMem_of_nodup_add whole (Multiset.mem_sum.mpr ⟨i, mem_range.mpr hi, hx⟩)
    rw [frees.frame x apart']
    apply away
    rintro rfl
    exact root_notMem_entry hq apart (lt_of_lt_of_le hi hlow) hx

theorem indirtruncAt_keep (dev : Device) (q m : Nat) (hl : m / fs.nindir ^ h < fs.nindir) :
    indirtruncAt fs h lower dev q m =
      (let r := release fs lower (dev.disk q) (m / fs.nindir ^ h + 1)
          (fs.nindir - (m / fs.nindir ^ h + 1))
          { dev with disk :=
            Function.update dev.disk q (zeroed fs (dev.disk q) (m / fs.nindir ^ h + 1)) }
        let p := match lower with
          | none => (r.1, 0)
          | some call => if dev.disk q (m / fs.nindir ^ h) ≠ 0 then
              call r.1 (dev.disk q (m / fs.nindir ^ h)) (m % fs.nindir ^ h : Nat) else (r.1, 0)
        (p.1, r.2 + p.2)) := by
  have low : ∀ l : Nat, ((l : Int) + 1).toNat = l + 1 := fun l => by lia
  have last : (if (m : Int) > 0 then (m : Int) / (fs.nindir ^ h : Nat) else m) =
      (m / fs.nindir ^ h : Nat) := by
    by_cases hm : (m : Int) > 0
    · rw [if_pos hm]
      norm_cast
    · obtain rfl : m = 0 := by lia
      simp
  have here : min (fs.nindir - 1) (m / fs.nindir ^ h) = m / fs.nindir ^ h := by lia
  have kept : (m : Int) ≥ 0 := by lia
  unfold indirtruncAt
  simp only [last, low, Int.toNat_natCast, here, kept, true_and, Int.natCast_mod]
  cases lower with
  | none => rfl
  | some call =>
    dsimp only
    split <;> rfl

/-- What is left when entry `l` is cut at `r` and those after it are freed. -/
theorem kept_spec {dev dev₁ dev₂ : Device} {q l r m c₁ c₂ : Nat} {f₁ f₂ : List (Nat × Nat)}
    (hq : q ≠ 0) (apart : (tree fs.nindir (h + 1) dev.disk q).Nodup) (hl : l < fs.nindir)
    (hr : r < fs.nindir ^ h) (parts : m = fs.nindir ^ h * l + r)
    (frees : Frees fs dev dev₁ f₁ (tree fs.nindir (h + 1) dev.disk q) c₁)
    (named : names f₁ = ∑ i ∈ range (fs.nindir - (l + 1)),
      tree fs.nindir h dev.disk (dev.disk q (l + 1 + i)))
    (root : dev₁.disk q = zeroed fs (dev.disk q) (l + 1))
    (same : ∀ i < l + 1, ∀ x ∈ tree fs.nindir h dev.disk (dev.disk q i), dev₁.disk x = dev.disk x)
    (cut : Cut fs h dev₁ dev₂ (dev.disk q l) r c₂ f₂) :
    ∃ f, Cut fs (h + 1) dev dev₂ q m (c₁ + c₂) f := by
  have entry : tree fs.nindir h dev₁.disk (dev.disk q l) =
      tree fs.nindir h dev.disk (dev.disk q l) :=
    tree_congr (same l (Nat.lt_succ_self l))
  have frame := cut.frees.frame
  have blocks := cut.blocks
  rw [entry] at frame blocks
  have root₂ : dev₂.disk q = zeroed fs (dev.disk q) (l + 1) := by
    rw [frame q (root_notMem_entry hq apart hl), root]
  have below : ∀ i < l, dev₂.disk q i = dev.disk q i := by
    intro i hi
    rw [root₂]
    exact if_neg (by lia)
  have here : dev₂.disk q l = dev.disk q l := by
    rw [root₂]
    exact if_neg (by lia)
  have above : ∀ i < fs.nindir, l < i → dev₂.disk q i = 0 := by
    intro i hi hli
    rw [root₂]
    exact if_pos ⟨hli, hi⟩
  have stays : ∀ i < l, ∀ x ∈ tree fs.nindir h dev.disk (dev.disk q i), dev₂.disk x =
    dev.disk x := by
    intro i hi x hx
    rw [frame x (entries_apart hq apart (by lia) hl (by lia) hx), same i (by lia) x hx]
  -- The tree as it was and as it is now, entry by entry.
  have before : tree fs.nindir (h + 1) dev.disk q =
      q ::ₘ (∑ i ∈ range l, tree fs.nindir h dev.disk (dev.disk q i) +
        tree fs.nindir h dev.disk (dev.disk q l) + names f₁) := by
    rw [tree_split hq h dev.disk hl, named]
  have after : tree fs.nindir (h + 1) dev₂.disk q =
      q ::ₘ (∑ i ∈ range l, tree fs.nindir h dev.disk (dev.disk q i) +
        tree fs.nindir h dev₂.disk (dev.disk q l)) := by
    have freed : ∑ i ∈ range (fs.nindir - (l + 1)),
        tree fs.nindir h dev₂.disk (dev₂.disk q (l + 1 + i)) = 0 := by
      apply sum_eq_zero
      intro i hi
      have := mem_range.mp hi
      rw [above _ (by lia) (by lia), tree_zero]
    have kept : ∑ i ∈ range l, tree fs.nindir h dev₂.disk (dev₂.disk q i) =
        ∑ i ∈ range l, tree fs.nindir h dev.disk (dev.disk q i) := by
      apply sum_congr rfl
      intro i hi
      rw [below i (mem_range.mp hi)]
      exact tree_congr (stays i (mem_range.mp hi))
    rw [tree_split hq h dev₂.disk hl, freed, kept, here, add_zero]
  refine ⟨f₁ ++ f₂, frees.trans cut.frees (fun x hx => hx) ?_, ?_, ?_, fun negative => by lia⟩
  · intro x hx
    rw [entry] at hx
    exact mem_tree_entry hq hl hx
  · rw [before, after, ← blocks, names_append]
    simp only [← Multiset.singleton_add]
    abel
  · intro k
    have digits : k % fs.nindir ^ (h + 1) =
        k % fs.nindir ^ h + fs.nindir ^ h * (k / fs.nindir ^ h % fs.nindir) := Nat.mod_pow_succ
    have small : k % fs.nindir ^ h < fs.nindir ^ h := Nat.mod_lt _ (Nat.pow_pos fs.nindir_pos)
    have hj := Nat.mod_lt (k / fs.nindir ^ h) fs.nindir_pos
    have within := cut.leaf k
    rw [leaf_congr fs.nindir_pos (same l (Nat.lt_succ_self l))] at within
    rw [leaf_succ hq, leaf_succ hq, digits]
    generalize k % fs.nindir ^ h = a at small within ⊢
    generalize k / fs.nindir ^ h % fs.nindir = j at hj ⊢
    rcases Nat.lt_trichotomy j l with hjl | rfl | hlj
    · have room := Nat.mul_le_mul_left (fs.nindir ^ h) (Nat.succ_le_of_lt hjl)
      rw [Nat.mul_succ] at room
      rw [below j hjl, leaf_congr fs.nindir_pos (stays j hjl), if_pos (by lia)]
    · rw [here, within]
      exact if_congr (by lia) rfl rfl
    · have room := Nat.mul_le_mul_left (fs.nindir ^ h) (Nat.succ_le_of_lt hlj)
      rw [Nat.mul_succ] at room
      rw [above j hj hlj, leaf_zero, if_neg (by lia)]

theorem indirtruncAt_spec (spec : Lower fs h lower) (dev : Device) {q : Nat} (last : Int)
    (hq : q ≠ 0) (apart : (tree fs.nindir (h + 1) dev.disk q).Nodup) (least : -1 ≤ last)
    (most : last < (fs.nindir ^ (h + 1) : Nat)) :
    ∃ f, Cut fs (h + 1) dev (indirtruncAt fs h lower dev q last).1 q last
      (indirtruncAt fs h lower dev q last).2 f := by
  by_cases negative : last < 0
  · obtain rfl : last = -1 := by omega
    have whole : indirtruncAt fs h lower dev q (-1) =
        release fs lower (dev.disk q) 0 (fs.nindir - 0)
          { dev with disk := Function.update dev.disk q (zeroed fs (dev.disk q) 0) } := by
      unfold indirtruncAt
      cases lower <;> simp
    obtain ⟨f, frees, named, root, -⟩ := release_zeroed spec dev hq apart (Nat.zero_le _) whole
    generalize indirtruncAt fs h lower dev q (-1) = r at frees root ⊢
    have none_left : ∀ i < fs.nindir, r.1.disk q i = 0 := by
      intro i hi
      simp [root, zeroed, hi]
    have bare : tree fs.nindir (h + 1) r.1.disk q = {q} := by
      rw [tree_succ hq, sum_eq_zero]
      · rfl
      · intro i hi
        rw [none_left i (mem_range.mp hi), tree_zero]
    refine ⟨f, frees, ?_, ?_, fun _ => bare⟩
    · rw [bare, named, tree_succ hq]
      simp [add_comm]
    · intro k
      rw [leaf_succ hq, none_left _ (Nat.mod_lt _ fs.nindir_pos), leaf_zero, if_neg]
      have := Int.natCast_nonneg (k % fs.nindir ^ (h + 1))
      omega
  · obtain ⟨m, rfl⟩ := Int.eq_ofNat_of_zero_le (not_lt.mp negative)
    have bound : m < fs.nindir ^ h * fs.nindir := by
      rw [pow_succ] at most
      exact_mod_cast most
    have hl : m / fs.nindir ^ h < fs.nindir := Nat.div_lt_of_lt_mul bound
    have hr : m % fs.nindir ^ h < fs.nindir ^ h := Nat.mod_lt _ (Nat.pow_pos fs.nindir_pos)
    have parts := (Nat.div_add_mod m (fs.nindir ^ h)).symm
    rw [indirtruncAt_keep dev q m hl]
    generalize m / fs.nindir ^ h = l at hl parts ⊢
    generalize m % fs.nindir ^ h = r at hr parts ⊢
    obtain ⟨f₁, frees₁, named₁, root₁, same₁⟩ :=
      release_zeroed spec dev hq apart (Nat.succ_le_of_lt hl) rfl
    have entry₁ := tree_congr (same₁ l (Nat.lt_succ_self l))
    obtain ⟨f₂, cut⟩ := spec.part (entry₁ ▸ entry_nodup hq apart hl) hr
    exact kept_spec hq apart hl hr parts frees₁ named₁ root₁ same₁ cut

theorem indirtrunc_lower (fs : Fs) (level : Nat) :
    Lower fs (level + 1) (some (indirtrunc fs level)) := by
  induction level with
  | zero =>
    constructor
    intro dev q last hq apart least most
    exact indirtruncAt_spec .single dev last hq apart least most
  | succ level ih =>
    constructor
    intro dev q last hq apart least most
    exact indirtruncAt_spec ih dev last hq apart least most

/-- `indirtrunc` keeps the blocks up to `last` of the tree at `q` and frees the others. -/
theorem indirtrunc_spec (level : Nat) (dev : Device) {q : Nat} (last : Int) (hq : q ≠ 0)
    (apart : (tree fs.nindir (level + 1) dev.disk q).Nodup) (least : -1 ≤ last)
    (most : last < (fs.nindir ^ (level + 1) : Nat)) :
    ∃ f, Cut fs (level + 1) dev (indirtrunc fs level dev q last).1 q last
      (indirtrunc fs level dev q last).2 f := by
  cases indirtrunc_lower fs level with
  | deeper cuts => exact cuts dev q last hq apart least most

end Indirect

end FreeBsd.Ufs
