import FreeBsd.Ufs.Indirtrunc

/-! `balloc` brings in one block of a file, with the indirect blocks that lead to it. -/
namespace FreeBsd.Ufs

open FreeBsd.Fanout Finset

section Through

variable {fs : Fs} {h : Nat} {dev dev₁ dev₂ : Device} {ip ip₁ ip₂ : Inode} {q k : Nat}
  {new new₁ new₂ : List (Nat × Nat)}

/-- The blocks `new` are added to the tree at `q` on the way to number `k`. -/
structure Grown (fs : Fs) (h : Nat) (dev dev' : Device) (ip ip' : Inode) (q k : Nat)
    (new : List (Nat × Nat)) : Prop where
  supply : dev.fresh = new.map Prod.fst ++ dev'.fresh
  allocated : dev'.allocated = dev.allocated ++ new
  freed : dev'.freed = dev.freed
  inode : ip' = { ip with blocks := ip.blocks + sectors new }
  frame : ∀ x ∉ tree fs.nindir h dev.disk q, x ∉ names new → dev'.disk x = dev.disk x
  blocks : tree fs.nindir h dev'.disk q = names new + tree fs.nindir h dev.disk q
  leaves : ∀ k', k' % fs.nindir ^ h ≠ k % fs.nindir ^ h →
    leaf fs.nindir h dev'.disk q k' = leaf fs.nindir h dev.disk q k'
  mapped : leaf fs.nindir h dev.disk q k ≠ none → new = [] ∧ dev' = dev

theorem Grown.refl (fs : Fs) (h : Nat) (dev : Device) (ip : Inode) (q k : Nat) :
    Grown fs h dev dev ip ip q k [] :=
  ⟨by simp, by simp, rfl, by simp, fun _ _ _ => rfl, by simp, fun _ _ => rfl, fun _ => ⟨rfl, rfl⟩⟩

theorem Grown.trans (one : Grown fs h dev dev₁ ip ip₁ q k new₁)
    (two : Grown fs h dev₁ dev₂ ip₁ ip₂ q k new₂) (hole : leaf fs.nindir h dev.disk q k = none) :
    Grown fs h dev dev₂ ip ip₂ q k (new₁ ++ new₂) where
  supply := by rw [one.supply, two.supply, List.map_append, List.append_assoc]
  allocated := by rw [two.allocated, one.allocated, List.append_assoc]
  freed := two.freed.trans one.freed
  inode := by
    rw [two.inode, one.inode, sectors_append, Nat.cast_add, Int.add_assoc]
  frame := by
    intro x old added
    rw [names_append, Multiset.mem_add, not_or] at added
    rw [two.frame x _ added.2, one.frame x old added.1]
    rw [one.blocks, Multiset.mem_add, not_or]
    exact ⟨added.1, old⟩
  blocks := by
    rw [two.blocks, one.blocks, names_append]
    abel
  leaves := by
    intro k' ne
    rw [two.leaves k' ne, one.leaves k' ne]
  mapped := fun some => absurd hole some

theorem Grown.total (grown : Grown fs h dev dev₁ ip ip₁ q k new) :
    tree fs.nindir h dev₁.disk q + (dev₁.fresh : Multiset Nat) =
      tree fs.nindir h dev.disk q + (dev.fresh : Multiset Nat) := by
  rw [grown.blocks, grown.supply, ← Multiset.coe_add, names]
  abel

theorem Grown.new_fresh (grown : Grown fs h dev dev₁ ip ip₁ q k new) {x : Nat}
    (hx : x ∈ names new) :
    x ∈ dev.fresh := by
  rw [grown.supply]
  exact List.mem_append.mpr (Or.inl hx)

theorem Grown.descend (hq : q ≠ 0)
    (apart : (tree fs.nindir (h + 1) dev.disk q + (dev.fresh : Multiset Nat)).Nodup)
    (grown : Grown fs h dev dev₁ ip ip₁ (dev.disk q (k / fs.nindir ^ h % fs.nindir)) k new) :
    Grown fs (h + 1) dev dev₁ ip ip₁ q k new := by
  have hi := Nat.mod_lt (k / fs.nindir ^ h) fs.nindir_pos
  have own := (Multiset.nodup_add.mp apart).1
  have added : ∀ x ∈ tree fs.nindir (h + 1) dev.disk q, x ∉ names new :=
    fun x hx hn => notMem_of_nodup_add apart hx (grown.new_fresh hn)
  have root : dev₁.disk q = dev.disk q :=
    grown.frame q (root_notMem_entry hq own hi) (added q (mem_tree_self hq _ _))
  have others : ∀ j < fs.nindir, j ≠ k / fs.nindir ^ h % fs.nindir →
      dev₁.disk q j = dev.disk q j ∧
        ∀ x ∈ tree fs.nindir h dev.disk (dev.disk q j), dev₁.disk x = dev.disk x := by
    intro j hj ne
    refine ⟨by rw [root], fun x hx => ?_⟩
    exact grown.frame x (entries_apart hq own hj hi ne hx) (added x (mem_tree_entry hq hj hx))
  constructor
  case supply => exact grown.supply
  case allocated => exact grown.allocated
  case freed => exact grown.freed
  case inode => exact grown.inode
  case frame =>
    intro x hx
    exact grown.frame x (fun inner => hx (mem_tree_entry hq hi inner))
  case blocks =>
    have change := tree_replace hq hi others
    rw [root, grown.blocks, ← add_assoc] at change
    rw [add_right_cancel change, add_comm]
  case leaves =>
    intro k' ne
    by_cases same : k' / fs.nindir ^ h % fs.nindir = k / fs.nindir ^ h % fs.nindir
    · rw [leaf_succ hq, leaf_succ hq, root, same]
      apply grown.leaves
      intro low
      apply ne
      rw [Nat.mod_pow_succ, Nat.mod_pow_succ, same, low]
    · exact leaf_replace fs.nindir_pos hq others same
  case mapped =>
    rw [leaf_succ hq]
    exact grown.mapped

/-- A block with nothing below it becomes an entry of the root that was empty. -/
theorem Grown.attach (hq : q ≠ 0) {p : Nat} (hp : p ≠ 0)
    (apart : (tree fs.nindir (h + 1) dev.disk q + (dev.fresh : Multiset Nat)).Nodup)
    (hole : dev.disk q (k / fs.nindir ^ h % fs.nindir) = 0) (supply : dev.fresh = p :: dev₁.fresh)
    (allocated : dev₁.allocated = dev.allocated ++ [(p, fs.bsize)]) (freed : dev₁.freed = dev.freed)
    (inode : ip₁ = { ip with blocks := ip.blocks + btodb fs.bsize })
    (root : dev₁.disk q = Function.update (dev.disk q) (k / fs.nindir ^ h % fs.nindir) p)
    (frame : ∀ x ≠ q, x ≠ p → dev₁.disk x = dev.disk x)
    (bare : tree fs.nindir h dev₁.disk p = {p})
    (leaves : ∀ k', k' % fs.nindir ^ h ≠ k % fs.nindir ^ h →
      leaf fs.nindir h dev₁.disk p k' = none) :
    Grown fs (h + 1) dev dev₁ ip ip₁ q k [(p, fs.bsize)] := by
  have hi := Nat.mod_lt (k / fs.nindir ^ h) fs.nindir_pos
  have own := (Multiset.nodup_add.mp apart).1
  have outside : p ∉ tree fs.nindir (h + 1) dev.disk q := by
    intro hx
    exact notMem_of_nodup_add apart hx (by simp [supply])
  have others : ∀ j < fs.nindir, j ≠ k / fs.nindir ^ h % fs.nindir →
      dev₁.disk q j = dev.disk q j ∧
        ∀ x ∈ tree fs.nindir h dev.disk (dev.disk q j), dev₁.disk x = dev.disk x := by
    intro j hj ne
    refine ⟨by rw [root, Function.update_of_ne ne], fun x hx => frame x ?_ ?_⟩
    · rintro rfl
      exact root_notMem_entry hq own hj hx
    · rintro rfl
      exact outside (mem_tree_entry hq hj hx)
  have here : dev₁.disk q (k / fs.nindir ^ h % fs.nindir) = p := by
    rw [root, Function.update_self]
  constructor
  case supply => exact supply
  case allocated => exact allocated
  case freed => exact freed
  case inode => simpa using inode
  case frame =>
    intro x hx added
    apply frame
    · rintro rfl
      exact hx (mem_tree_self hq _ _)
    · rintro rfl
      exact added (by simp [names_single])
  case blocks =>
    have change := tree_replace hq hi others
    rw [hole, here, bare, tree_zero, add_zero] at change
    rw [change, names_single, add_comm]
  case leaves =>
    intro k' ne
    by_cases same : k' / fs.nindir ^ h % fs.nindir = k / fs.nindir ^ h % fs.nindir
    · rw [leaf_succ hq, leaf_succ hq, same, here, hole, leaf_zero]
      apply leaves
      intro low
      apply ne
      rw [Nat.mod_pow_succ, Nat.mod_pow_succ, same, low]
    · exact leaf_replace fs.nindir_pos hq others same
  case mapped =>
    rw [leaf_succ hq, hole, leaf_zero]
    exact fun some => absurd rfl some

theorem Fs.pow_div_nindir (fs : Fs) (n : Nat) :
    fs.nindir ^ (n + 1) / fs.nindir = fs.nindir ^ n := by
  rw [pow_succ, Nat.mul_div_cancel _ fs.nindir_pos]

/-- A device that answers `alloc` with `p` and goes on with `rest`. -/
def Device.grant (dev : Device) (p size : Nat) (rest : List Nat) : Device :=
  { dev with fresh := rest, allocated := dev.allocated ++ [(p, size)] }

def Inode.charge (ip : Inode) (size : Nat) : Inode := { ip with blocks := ip.blocks + btodb size }

theorem alloc_cons {p : Nat} {rest : List Nat} (supply : dev.fresh = p :: rest) (ip : Inode)
    (size : Nat) : alloc dev ip size = .ok (dev.grant p size rest, ip.charge size, p) := by
  simp [alloc, supply, Device.grant, Inode.charge]

theorem Grown.data (hq : q ≠ 0) {p : Nat} {rest : List Nat}
    (apart : (tree fs.nindir 1 dev.disk q + (dev.fresh : Multiset Nat)).Nodup)
    (nonzero : 0 ∉ dev.fresh) (supply : dev.fresh = p :: rest)
    (hole : dev.disk q (k / fs.nindir ^ 0 % fs.nindir) = 0) :
    Grown fs 1 dev ((dev.grant p fs.bsize rest).point q (k / fs.nindir ^ 0 % fs.nindir) p)
      ip (ip.charge fs.bsize) q k [(p, fs.bsize)] := by
  have hp : p ≠ 0 := by
    rintro rfl
    exact nonzero (by simp [supply])
  apply Grown.attach hq hp apart hole
  case supply => exact supply
  case allocated => rfl
  case freed => rfl
  case inode => rfl
  case root => simp [Device.point, Device.grant]
  case frame =>
    intro x hx _
    simp [Device.point, Device.grant, Function.update_of_ne hx]
  case bare => simp [tree, hp]
  case leaves =>
    intro k' ne
    simp [Nat.mod_one] at ne

theorem Grown.indirect (ip : Inode) (hq : q ≠ 0) {p : Nat} {rest : List Nat}
    (apart : (tree fs.nindir (h + 2) dev.disk q + (dev.fresh : Multiset Nat)).Nodup)
    (nonzero : 0 ∉ dev.fresh) (supply : dev.fresh = p :: rest)
    (hole : dev.disk q (k / fs.nindir ^ (h + 1) % fs.nindir) = 0) :
    Grown fs (h + 2) dev
      (((dev.grant p fs.bsize rest).clrbuf p).point q (k / fs.nindir ^ (h + 1) % fs.nindir) p)
      ip (ip.charge fs.bsize) q k [(p, fs.bsize)] := by
  have hp : p ≠ 0 := by
    rintro rfl
    exact nonzero (by simp [supply])
  have hpq : p ≠ q := by
    rintro rfl
    exact notMem_of_nodup_add apart (mem_tree_self hq _ _) (by simp [supply])
  have empty : (((dev.grant p fs.bsize rest).clrbuf p).point q
      (k / fs.nindir ^ (h + 1) % fs.nindir) p).disk p = fun _ => 0 := by
    simp [Device.point, Device.clrbuf, Device.grant, hpq]
  apply Grown.attach hq hp apart hole
  case supply => exact supply
  case allocated => rfl
  case freed => rfl
  case inode => rfl
  case root => simp [Device.point, Device.clrbuf, Device.grant, hpq.symm]
  case frame =>
    intro x hx hxp
    simp [Device.point, Device.clrbuf, Device.grant, Function.update_of_ne hx,
      Function.update_of_ne hxp]
  case bare =>
    rw [tree_succ hp, empty]
    simp
  case leaves =>
    intro k' _
    rw [leaf_succ hp, empty, leaf_zero]

theorem through_spec (fs : Fs) (n : Nat) (dev : Device) (ip : Inode) (q k : Nat) (hq : q ≠ 0)
    (apart : (tree fs.nindir (n + 1) dev.disk q + (dev.fresh : Multiset Nat)).Nodup)
    (nonzero : 0 ∉ dev.fresh)
    (enough : leaf fs.nindir (n + 1) dev.disk q k ≠ none ∨ n + 1 ≤ dev.fresh.length) :
    ∃ dev' ip' new, through fs (n + 1) dev ip (fs.nindir ^ (n + 1)) k q = .ok (dev', ip') ∧
      Grown fs (n + 1) dev dev' ip ip' q k new := by
  induction n generalizing dev ip q with
  | zero =>
    by_cases hole : dev.disk q (k / fs.nindir ^ 0 % fs.nindir) = 0
    · have least : 1 ≤ dev.fresh.length := by
        rcases enough with some | least
        · rw [leaf_succ hq, hole, leaf_zero] at some
          exact absurd rfl some
        · exact least
      obtain ⟨p, rest, supply⟩ := List.exists_cons_of_length_pos least
      refine ⟨_, _, _, ?_, Grown.data hq apart nonzero supply hole⟩
      simp only [through, fs.pow_div_nindir, hole, ne_eq, not_true_eq_false, if_false,
        alloc_cons supply]
      rfl
    · refine ⟨dev, ip, [], ?_, Grown.refl ..⟩
      simp only [through, fs.pow_div_nindir, hole, ne_eq, not_false_eq_true, if_true]
      rfl
  | succ n ih =>
    have hi := Nat.mod_lt (k / fs.nindir ^ (n + 1)) fs.nindir_pos
    have descend : ∀ (dev : Device) (ip : Inode),
        (tree fs.nindir (n + 2) dev.disk q + (dev.fresh : Multiset Nat)).Nodup → 0 ∉ dev.fresh →
        dev.disk q (k / fs.nindir ^ (n + 1) % fs.nindir) ≠ 0 →
        leaf fs.nindir (n + 1) dev.disk (dev.disk q (k / fs.nindir ^ (n + 1) % fs.nindir)) k ≠
          none ∨
          n + 1 ≤ dev.fresh.length →
        ∃ dev' ip' new, through fs (n + 1) dev ip (fs.nindir ^ (n + 1)) k
            (dev.disk q (k / fs.nindir ^ (n + 1) % fs.nindir)) = .ok (dev', ip') ∧
          Grown fs (n + 2) dev dev' ip ip' q k new := by
      intro dev ip apart nonzero hb enough
      have inner := entry_le hq (n + 1) dev.disk hi
      obtain ⟨dev', ip', new, run, grown⟩ := ih dev ip _ hb
        (Multiset.nodup_of_le (add_le_add inner (le_refl _)) apart) nonzero enough
      exact ⟨dev', ip', new, run, grown.descend hq apart⟩
    by_cases hole : dev.disk q (k / fs.nindir ^ (n + 1) % fs.nindir) = 0
    · have unmapped : leaf fs.nindir (n + 2) dev.disk q k = none := by
        rw [leaf_succ hq, hole, leaf_zero]
      have least : n + 2 ≤ dev.fresh.length := by
        rcases enough with some | least
        · exact absurd unmapped some
        · exact least
      obtain ⟨p, rest, supply⟩ := List.exists_cons_of_length_pos (by lia : 0 < dev.fresh.length)
      have one := Grown.indirect ip hq apart nonzero supply hole
      set dev₁ := ((dev.grant p fs.bsize rest).clrbuf p).point q
        (k / fs.nindir ^ (n + 1) % fs.nindir) p with def₁
      have entry : dev₁.disk q (k / fs.nindir ^ (n + 1) % fs.nindir) = p := by
        simp [def₁, Device.point]
      have left : dev₁.fresh = rest := rfl
      have hp : p ≠ 0 := by
        rintro rfl
        exact nonzero (by simp [supply])
      have nonzero₁ : 0 ∉ dev₁.fresh := by
        intro zero
        exact nonzero (supply ▸ List.mem_cons_of_mem p zero)
      have enough₁ : n + 1 ≤ dev₁.fresh.length := by
        rw [supply, List.length_cons] at least
        rw [left]
        lia
      obtain ⟨dev', ip', new, run, two⟩ := descend dev₁ (ip.charge fs.bsize) (by rwa [one.total])
        nonzero₁ (entry ▸ hp) (Or.inr enough₁)
      refine ⟨dev', ip', _, ?_, one.trans two unmapped⟩
      rw [entry] at run
      simp only [through, fs.pow_div_nindir, hole, ne_eq, not_true_eq_false, if_false,
        alloc_cons supply]
      exact run
    · obtain ⟨dev', ip', new, run, grown⟩ := descend dev ip apart nonzero hole
        (by
          rw [leaf_succ hq] at enough
          exact enough.imp_right (by lia))
      refine ⟨dev', ip', new, ?_, grown⟩
      simp only [through, fs.pow_div_nindir, hole, ne_eq, not_false_eq_true, if_true]
      exact run

end Through

section Slots

variable (fs : Fs)

/-- Blocks of the file between the direct ones and those of an indirect block of the inode. -/
def base : Nat → Nat
  | 0 => 0
  | level + 1 => base level + fs.nindir ^ (level + 1)

theorem nindir_cases : fs.nindir = 512 ∨ fs.nindir = 1024 ∨ fs.nindir = 2048 := by
  have least := fs.le_bshift
  have most := fs.bshift_le
  obtain h | h | h : fs.bshift = 11 ∨ fs.bshift = 12 ∨ fs.bshift = 13 := by lia
  · exact Or.inl (by simp [Fs.nindir, Fs.bsize, h])
  · exact Or.inr (Or.inl (by simp [Fs.nindir, Fs.bsize, h]))
  · exact Or.inr (Or.inr (by simp [Fs.nindir, Fs.bsize, h]))

/-- The third product of `sh` is 0 as an `int` where it is too large for one. -/
theorem indirection_cases (k : Nat) :
    (indirection fs NIADDR 1 k = none ∧ 2 ^ 30 / fs.nindir ≤ k) ∨
      ∃ level < NIADDR, ∃ rest < fs.nindir ^ (level + 1), k = base fs level + rest ∧
        indirection fs NIADDR 1 k = some (NIADDR - level, fs.nindir ^ (level + 1), rest) := by
  have one : 1 * fs.nindir % 2 ^ 32 = fs.nindir ^ 1 := by
    rcases nindir_cases fs with h | h | h <;> simp [h]
  have two : fs.nindir ^ 1 * fs.nindir % 2 ^ 32 = fs.nindir ^ 2 := by
    rcases nindir_cases fs with h | h | h <;> simp [h]
  have three : fs.nindir ^ 2 * fs.nindir % 2 ^ 32 = fs.nindir ^ 3 ∨
      fs.nindir ^ 2 * fs.nindir % 2 ^ 32 = 0 := by
    rcases nindir_cases fs with h | h | h <;> simp [h]
  simp only [indirection, NIADDR, one, two]
  by_cases h₀ : k < fs.nindir ^ 1
  · exact Or.inr ⟨0, by lia, k, h₀, by simp [base], if_pos h₀⟩
  · rw [if_neg h₀]
    by_cases h₁ : k - fs.nindir ^ 1 < fs.nindir ^ 2
    · refine Or.inr ⟨1, by lia, _, h₁, ?_, if_pos h₁⟩
      show k = 0 + fs.nindir ^ 1 + (k - fs.nindir ^ 1)
      lia
    · rw [if_neg h₁]
      rcases three with three | three
      · rw [three]
        by_cases h₂ : k - fs.nindir ^ 1 - fs.nindir ^ 2 < fs.nindir ^ 3
        · refine Or.inr ⟨2, by lia, _, h₂, ?_, if_pos h₂⟩
          show k = 0 + fs.nindir ^ 1 + fs.nindir ^ 2 + (k - fs.nindir ^ 1 - fs.nindir ^ 2)
          lia
        · refine Or.inl ⟨if_neg h₂, ?_⟩
          rcases nindir_cases fs with h | h | h <;> rw [h] at h₂ ⊢ <;> lia
      · rw [three]
        refine Or.inl ⟨if_neg (Nat.not_lt_zero _), ?_⟩
        rcases nindir_cases fs with h | h | h <;> simp [h] at three h₁ ⊢
        lia

theorem fetch_eq_leaf (disk : Nat → Nat → Nat) (n k : Nat) {q : Nat} (hq : q ≠ 0) :
    fetch fs disk n (fs.nindir ^ n) k q = leaf fs.nindir n disk q k := by
  induction n generalizing q with
  | zero => simp [fetch, leaf, hq]
  | succ n ih =>
    simp only [fetch, fs.pow_div_nindir, leaf_succ hq]
    by_cases hole : disk q (k / fs.nindir ^ n % fs.nindir) = 0
    · simp [hole]
    · rw [if_neg hole, ih hole]

/-- Where `bmap` looks for a block: in a direct pointer, below an indirect one, or nowhere. -/
inductive Slot (fs : Fs) (b : Int) : Prop where
  | none (looks : ∀ dev ip, bmap fs dev ip b = .error .EFBIG)
  | direct (i : Nat) (hi : i < NDADDR) (hb : b = i)
      (looks : ∀ dev ip, bmap fs dev ip b =
        .ok ((leaf fs.nindir 0 dev.disk (ip.db i) 0).map fs.fsbtodb))
  | indirect (level : Nat) (hl : level < NIADDR) (k : Nat) (hk : k < fs.nindir ^ (level + 1))
      (hb : b = (NDADDR + base fs level + k : Nat))
      (looks : ∀ dev ip, bmap fs dev ip b =
        .ok ((leaf fs.nindir (level + 1) dev.disk (ip.ib level) k).map fs.fsbtodb))

theorem slot (b : Int) : Slot fs b := by
  by_cases negative : b < 0
  · exact .none fun dev ip => by simp [bmap, negative]
  · obtain ⟨n, rfl⟩ := Int.eq_ofNat_of_zero_le (not_lt.mp negative)
    by_cases hn : n < NDADDR
    · refine .direct n hn rfl fun dev ip => ?_
      by_cases hole : ip.db n = 0 <;> simp [bmap, hn, leaf, hole]
    · rcases indirection_cases fs (n - NDADDR) with ⟨out, -⟩ | ⟨level, hl, k, hk, split, found⟩
      · exact .none fun dev ip => by simp [bmap, hn, out]
      · refine .indirect level hl k hk (by lia) fun dev ip => ?_
        have back : NIADDR - (NIADDR - level) = level := by lia
        have height : NIADDR + 1 - (NIADDR - level) = level + 1 := by lia
        simp only [bmap, negative, if_false, Int.toNat_natCast, hn, found, back, height]
        by_cases hole : ip.ib level = 0
        · simp [hole]
        · simp [hole, fetch_eq_leaf fs dev.disk (level + 1) k hole]

end Slots

section Settled

variable {fs : Fs} {dev dev₁ dev₂ : Device} {ip ip₁ ip₂ : Inode} {lbn : Nat}
  {new new₁ new₂ : List (Nat × Nat)}

def owned (fs : Fs) (dev : Device) (ip : Inode) : Multiset Nat :=
  ∑ i ∈ range NDADDR, tree fs.nindir 0 dev.disk (ip.db i) +
    ∑ level ∈ range NIADDR, tree fs.nindir (level + 1) dev.disk (ip.ib level)

def Finds (fs : Fs) (dev : Device) (ip : Inode) (b : Int) : Prop :=
  ∃ a, bmap fs dev ip b = .ok (some a)

/-- The blocks `new` are added to the inode on the way to block `lbn` of the file. -/
structure Settled (fs : Fs) (dev dev' : Device) (ip ip' : Inode) (lbn : Nat)
    (new : List (Nat × Nat)) : Prop where
  supply : dev.fresh = new.map Prod.fst ++ dev'.fresh
  allocated : dev'.allocated = dev.allocated ++ new
  freed : dev'.freed = dev.freed
  size : ip'.size = ip.size
  direct : ∀ i ≠ lbn, ip'.db i = ip.db i
  charged : ip'.blocks = ip.blocks + sectors new
  blocks : owned fs dev' ip' = names new + owned fs dev ip
  elsewhere : ∀ b : Int, b ≠ lbn → bmap fs dev' ip' b = bmap fs dev ip b
  mapped : Finds fs dev ip lbn → new = [] ∧ dev' = dev ∧ ip' = ip

theorem Settled.refl (fs : Fs) (dev : Device) (ip : Inode) (lbn : Nat) :
    Settled fs dev dev ip ip lbn [] :=
  ⟨by simp, by simp, rfl, rfl, fun _ _ => rfl, by simp, by simp, fun _ _ => rfl,
    fun _ => ⟨rfl, rfl, rfl⟩⟩

theorem Settled.trans (one : Settled fs dev dev₁ ip ip₁ lbn new₁)
    (two : Settled fs dev₁ dev₂ ip₁ ip₂ lbn new₂) (hole : ¬ Finds fs dev ip lbn) :
    Settled fs dev dev₂ ip ip₂ lbn (new₁ ++ new₂) where
  supply := by rw [one.supply, two.supply, List.map_append, List.append_assoc]
  allocated := by rw [two.allocated, one.allocated, List.append_assoc]
  freed := two.freed.trans one.freed
  size := two.size.trans one.size
  direct := fun i ne => (two.direct i ne).trans (one.direct i ne)
  charged := by rw [two.charged, one.charged, sectors_append, Nat.cast_add, Int.add_assoc]
  blocks := by
    rw [two.blocks, one.blocks, names_append]
    abel
  elsewhere := by
    intro b ne
    rw [two.elsewhere b ne, one.elsewhere b ne]
  mapped := fun some => absurd some hole

theorem Settled.total (settled : Settled fs dev dev₁ ip ip₁ lbn new) :
    owned fs dev₁ ip₁ + (dev₁.fresh : Multiset Nat) =
      owned fs dev ip + (dev.fresh : Multiset Nat) := by
  rw [settled.blocks, settled.supply, ← Multiset.coe_add, names]
  abel

/-- The tree at an indirect pointer of the inode and the rest of what it refers to. -/
theorem held_split (fs : Fs) {level : Nat} (hl : level < NIADDR) (dev : Device) (ip : Inode) :
    ∃ rest, owned fs dev ip = tree fs.nindir (level + 1) dev.disk (ip.ib level) + rest ∧
      (∀ i < NDADDR, ∀ x ∈ tree fs.nindir 0 dev.disk (ip.db i), x ∈ rest) ∧
      ∀ j < NIADDR, j ≠ level → ∀ x ∈ tree fs.nindir (j + 1) dev.disk (ip.ib j), x ∈ rest := by
  refine ⟨∑ i ∈ range NDADDR, tree fs.nindir 0 dev.disk (ip.db i) +
    ∑ j ∈ (range NIADDR).erase level, tree fs.nindir (j + 1) dev.disk (ip.ib j), ?_, ?_, ?_⟩
  · rw [owned, ← sum_erase_add _ _ (mem_range.mpr hl)]
    abel
  · intro i hi x hx
    exact Multiset.mem_add.mpr (Or.inl (Multiset.mem_sum.mpr ⟨i, mem_range.mpr hi, hx⟩))
  · intro j hj ne x hx
    exact Multiset.mem_add.mpr
      (Or.inr (Multiset.mem_sum.mpr ⟨j, mem_erase.mpr ⟨ne, mem_range.mpr hj⟩, hx⟩))

theorem held_replace (fs : Fs) {level : Nat} (hl : level < NIADDR)
    (direct : ∀ i < NDADDR, ip₁.db i = ip.db i)
    (others : ∀ j < NIADDR, j ≠ level → ip₁.ib j = ip.ib j ∧
      ∀ x ∈ tree fs.nindir (j + 1) dev.disk (ip.ib j), dev₁.disk x = dev.disk x) :
    owned fs dev₁ ip₁ + tree fs.nindir (level + 1) dev.disk (ip.ib level) =
      owned fs dev ip + tree fs.nindir (level + 1) dev₁.disk (ip₁.ib level) := by
  have same : ∀ j < NIADDR, j ≠ level → tree fs.nindir (j + 1) dev₁.disk (ip₁.ib j) =
      tree fs.nindir (j + 1) dev.disk (ip.ib j) := by
    intro j hj ne
    rw [(others j hj ne).1]
    exact tree_congr (others j hj ne).2
  have first : ∑ i ∈ range NDADDR, tree fs.nindir 0 dev₁.disk (ip₁.db i) =
      ∑ i ∈ range NDADDR, tree fs.nindir 0 dev.disk (ip.db i) := by
    apply sum_congr rfl
    intro i hi
    rw [direct i (mem_range.mp hi)]
    rfl
  have second := sum_replace hl same
  rw [owned, owned, first, add_assoc, add_assoc, second]

/-- The blocks of the file outside the slot that is filled are where they were. -/
theorem bmap_replace {level k : Nat}
    (direct : ∀ i < NDADDR, ip₁.db i = ip.db i)
    (others : ∀ j < NIADDR, j ≠ level → ip₁.ib j = ip.ib j ∧
      ∀ x ∈ tree fs.nindir (j + 1) dev.disk (ip.ib j), dev₁.disk x = dev.disk x)
    (hk : k < fs.nindir ^ (level + 1))
    (leaves : ∀ k', k' % fs.nindir ^ (level + 1) ≠ k % fs.nindir ^ (level + 1) →
      leaf fs.nindir (level + 1) dev₁.disk (ip₁.ib level) k' =
        leaf fs.nindir (level + 1) dev.disk (ip.ib level) k')
    {b : Int} (hb : b ≠ (NDADDR + base fs level + k : Nat)) :
    bmap fs dev₁ ip₁ b = bmap fs dev ip b := by
  cases slot fs b with
  | none looks => rw [looks, looks]
  | direct i hi _ looks =>
    rw [looks, looks, direct i hi]
    rfl
  | indirect j hj k' hk' here looks =>
    rw [looks, looks]
    by_cases same : j = level
    · subst same
      rw [leaves]
      rw [Nat.mod_eq_of_lt hk, Nat.mod_eq_of_lt hk']
      rintro rfl
      exact hb here
    · rw [(others j hj same).1, leaf_congr fs.nindir_pos (others j hj same).2]

theorem base_add_le (fs : Fs) {i j : Nat} (hij : i < j) :
    base fs i + fs.nindir ^ (i + 1) ≤ base fs j := by
  induction j, hij using Nat.le_induction with
  | base => exact le_refl _
  | succ j _ ih => exact le_trans ih (Nat.le_add_right _ _)

theorem Finds.leaf {level k : Nat} (hl : level < NIADDR) (hk : k < fs.nindir ^ (level + 1))
    (found : Finds fs dev ip (NDADDR + base fs level + k : Nat)) :
    leaf fs.nindir (level + 1) dev.disk (ip.ib level) k ≠ none := by
  obtain ⟨a, found⟩ := found
  cases slot fs (NDADDR + base fs level + k : Nat) with
  | none looks =>
    rw [looks] at found
    cases found
  | direct i hi hb _ => lia
  | indirect j hj k' hk' hb looks =>
    obtain rfl : j = level := by
      rcases Nat.lt_trichotomy j level with lt | eq | lt
      · have := base_add_le fs lt
        lia
      · exact eq
      · have := base_add_le fs lt
        lia
    obtain rfl : k' = k := by lia
    intro hole
    rw [looks, hole] at found
    cases found

theorem Settled.below {level k : Nat} (hl : level < NIADDR)
    (hk : k < fs.nindir ^ (level + 1))
    (apart : (owned fs dev ip + (dev.fresh : Multiset Nat)).Nodup)
    (grown : Grown fs (level + 1) dev dev₁ ip ip₁ (ip.ib level) k new) :
    Settled fs dev dev₁ ip ip₁ (NDADDR + base fs level + k) new := by
  obtain ⟨rest, split, -, elsewhere⟩ := held_split fs hl dev ip
  have pointers : ip₁.db = ip.db ∧ ip₁.ib = ip.ib := by rw [grown.inode]; exact ⟨rfl, rfl⟩
  have others : ∀ j < NIADDR, j ≠ level → ip₁.ib j = ip.ib j ∧
      ∀ x ∈ tree fs.nindir (j + 1) dev.disk (ip.ib j), dev₁.disk x = dev.disk x := by
    intro j hj ne
    refine ⟨by rw [pointers.2], fun x hx => grown.frame x ?_ ?_⟩
    · intro inside
      rw [split, add_assoc] at apart
      exact notMem_of_nodup_add apart inside
        (Multiset.mem_add.mpr (Or.inl (elsewhere j hj ne x hx)))
    · intro added
      apply notMem_of_nodup_add apart _ (grown.new_fresh added)
      rw [split]
      exact Multiset.mem_add.mpr (Or.inr (elsewhere j hj ne x hx))
  have direct : ∀ i < NDADDR, ip₁.db i = ip.db i := fun i _ => by rw [pointers.1]
  constructor
  case supply => exact grown.supply
  case allocated => exact grown.allocated
  case freed => exact grown.freed
  case size => rw [grown.inode]
  case direct => exact fun i _ => by rw [pointers.1]
  case charged => rw [grown.inode]
  case blocks =>
    have change := held_replace fs hl direct others
    rw [pointers.2, grown.blocks, ← add_assoc] at change
    rw [add_right_cancel change, add_comm]
  case elsewhere =>
    intro b hb
    apply bmap_replace direct others hk _ hb
    rw [pointers.2]
    exact grown.leaves
  case mapped =>
    intro found
    have some := found.leaf hl hk
    obtain ⟨rfl, same⟩ := grown.mapped some
    refine ⟨rfl, same, ?_⟩
    rw [grown.inode]
    simp

theorem Settled.root {level k p : Nat} {rest : List Nat} (hl : level < NIADDR)
    (hk : k < fs.nindir ^ (level + 1)) (hole : ip.ib level = 0)
    (apart : (owned fs dev ip + (dev.fresh : Multiset Nat)).Nodup) (nonzero : 0 ∉ dev.fresh)
    (supply : dev.fresh = p :: rest) :
    Settled fs dev ((dev.grant p fs.bsize rest).clrbuf p) ip
        { ip.charge fs.bsize with ib := Function.update ip.ib level p }
        (NDADDR + base fs level + k) [(p, fs.bsize)] ∧
      tree fs.nindir (level + 1) ((dev.grant p fs.bsize rest).clrbuf p).disk p = {p} := by
  have hp : p ≠ 0 := by
    rintro rfl
    exact nonzero (by simp [supply])
  have outside : p ∉ owned fs dev ip := by
    intro hx
    exact notMem_of_nodup_add apart hx (by simp [supply])
  set dev₁ := (dev.grant p fs.bsize rest).clrbuf p with def₁
  set ip₁ : Inode := { ip.charge fs.bsize with ib := Function.update ip.ib level p } with def₂
  have cleared : dev₁.disk p = fun _ => 0 := by simp [def₁, Device.clrbuf]
  have away : ∀ x ≠ p, dev₁.disk x = dev.disk x := by
    intro x hx
    simp [def₁, Device.clrbuf, Device.grant, Function.update_of_ne hx]
  have bare : tree fs.nindir (level + 1) dev₁.disk p = {p} := by
    rw [tree_succ hp, cleared]
    simp
  obtain ⟨rest', split, -, elsewhere⟩ := held_split fs hl dev ip
  have others : ∀ j < NIADDR, j ≠ level → ip₁.ib j = ip.ib j ∧
      ∀ x ∈ tree fs.nindir (j + 1) dev.disk (ip.ib j), dev₁.disk x = dev.disk x := by
    intro j hj ne
    refine ⟨Function.update_of_ne ne _ _, fun x hx => away x ?_⟩
    rintro rfl
    apply outside
    rw [split]
    exact Multiset.mem_add.mpr (Or.inr (elsewhere j hj ne x hx))
  have direct : ∀ i < NDADDR, ip₁.db i = ip.db i := fun _ _ => rfl
  have here : ip₁.ib level = p := Function.update_self ..
  refine ⟨?_, bare⟩
  constructor
  case supply => exact supply
  case allocated => rfl
  case freed => rfl
  case size => rfl
  case direct => exact fun _ _ => rfl
  case charged => simp [def₂, Inode.charge]
  case blocks =>
    have change := held_replace fs hl direct others
    rw [hole, here, bare, tree_zero, add_zero] at change
    rw [change, names_single, add_comm]
  case elsewhere =>
    intro b hb
    apply bmap_replace direct others hk _ hb
    intro k' _
    rw [here, hole, leaf_zero, leaf_succ hp, cleared, leaf_zero]
  case mapped =>
    intro found
    have some := found.leaf hl hk
    rw [hole, leaf_zero] at some
    exact absurd rfl some

theorem Settled.data {p : Nat} {rest : List Nat} (size : Nat) (hn : lbn < NDADDR)
    (hole : ip.db lbn = 0) (nonzero : 0 ∉ dev.fresh) (supply : dev.fresh = p :: rest) :
    Settled fs dev (dev.grant p size rest) ip
      { ip.charge size with db := Function.update ip.db lbn p } lbn [(p, size)] := by
  have hp : p ≠ 0 := by
    rintro rfl
    exact nonzero (by simp [supply])
  constructor
  case supply => exact supply
  case allocated => rfl
  case freed => rfl
  case size => rfl
  case direct => exact fun i ne => Function.update_of_ne ne _ _
  case charged => simp [Inode.charge]
  case blocks =>
    have others : ∀ j < NDADDR, j ≠ lbn →
        tree fs.nindir 0 dev.disk (Function.update ip.db lbn p j) =
          tree fs.nindir 0 dev.disk (ip.db j) :=
      fun j _ ne => by rw [Function.update_of_ne ne]
    have change := sum_replace hn others
    rw [hole, tree_zero, add_zero, Function.update_self] at change
    have single : tree fs.nindir 0 dev.disk p = {p} := by simp [tree, hp]
    rw [owned, owned, names_single, ← add_assoc, add_comm {(p, size).1}, ← single]
    exact congrArg (· + _) change
  case elsewhere =>
    intro b hb
    cases slot fs b with
    | none looks => rw [looks, looks]
    | direct i _ here looks =>
      rw [looks, looks]
      have ne : i ≠ lbn := by
        rintro rfl
        exact hb here
      dsimp only
      rw [Function.update_of_ne ne]
      rfl
    | indirect level _ k _ _ looks =>
      rw [looks, looks]
      rfl
  case mapped =>
    rintro ⟨a, found⟩
    have natural : ¬ (lbn : Int) < 0 := by omega
    simp [bmap, natural, hn, hole] at found

end Settled

section Balloc

variable {fs : Fs} {dev : Device} {ip : Inode}
  (realloccg : Device → Inode → Nat → Nat → Nat → Except Stop (Device × Inode))

theorem Fs.bsize_pos (fs : Fs) : 0 < fs.bsize := Nat.two_pow_pos _

theorem Fs.fsize_pos (fs : Fs) : 0 < fs.fsize := Nat.two_pow_pos _

theorem Fs.lblkno_eq (fs : Fs) (loc : Nat) : fs.lblkno loc = loc / fs.bsize :=
  Nat.shiftRight_eq_div_pow ..

theorem Fs.fragroundup_mono (fs : Fs) {a b : Nat} (h : a ≤ b) :
    fs.fragroundup a ≤ fs.fragroundup b := by
  unfold Fs.fragroundup
  apply Nat.mul_le_mul_right
  apply Nat.div_le_div_right
  lia

theorem fragment_large_enough {length : Nat} (shorter : length < ip.size)
    (small : ¬ ip.size ≥ (fs.lblkno length + 1) * fs.bsize) :
    fs.fragroundup (fs.blkoff length) ≤ fs.fragroundup (fs.blkoff ip.size) := by
  apply fs.fragroundup_mono
  rw [fs.lblkno_eq] at small
  have positive := fs.bsize_pos
  have low := Nat.div_add_mod length fs.bsize
  have high := Nat.div_add_mod ip.size fs.bsize
  have lower : length / fs.bsize ≤ ip.size / fs.bsize := Nat.div_le_div_right shorter.le
  have upper : ip.size / fs.bsize < length / fs.bsize + 1 :=
    Nat.div_lt_of_lt_mul (by rw [Nat.mul_comm]; lia)
  have same : ip.size / fs.bsize = length / fs.bsize := by lia
  unfold Fs.blkoff
  rw [same] at high
  lia

theorem Fs.pow_div_bsize (fs : Fs) : 2 ^ 32 / fs.bsize = 2 ^ 30 / fs.nindir := by
  have four : fs.bsize = 4 * fs.nindir := by
    have small : 2 ^ 2 ∣ 2 ^ fs.bshift := Nat.pow_dvd_pow 2 (by have := fs.le_bshift; omega)
    exact (Nat.mul_div_cancel' small).symm
  rw [four, ← Nat.div_div_eq_div_mul]
  rfl

theorem level_of_small {n : Nat} (small : n < 2 ^ 32 / fs.bsize) (large : ¬ n < NDADDR) :
    ∃ level < NIADDR, ∃ k < fs.nindir ^ (level + 1), n = NDADDR + base fs level + k ∧
      indirection fs NIADDR 1 (n - NDADDR) = some (NIADDR - level, fs.nindir ^ (level + 1), k) := by
  rcases indirection_cases fs (n - NDADDR) with ⟨-, out⟩ | ⟨level, hl, k, hk, here, found⟩
  · rw [fs.pow_div_bsize] at small
    lia
  · exact ⟨level, hl, k, hk, by lia, found⟩

theorem Fs.lblkno_lt (fs : Fs) {loc : Nat} (small : loc < 2 ^ 32) :
    fs.lblkno loc < 2 ^ 32 / fs.bsize := by
  have whole : fs.bsize ∣ 2 ^ 32 := Nat.pow_dvd_pow 2 (by have := fs.bshift_le; omega)
  rw [fs.lblkno_eq, Nat.div_lt_iff_lt_mul fs.bsize_pos, Nat.div_mul_cancel whole]
  exact small

theorem indirect_spec {level k : Nat} (hl : level < NIADDR) (hk : k < fs.nindir ^ (level + 1))
    (apart : (owned fs dev ip + (dev.fresh : Multiset Nat)).Nodup) (nonzero : 0 ∉ dev.fresh)
    (enough : Finds fs dev ip (NDADDR + base fs level + k : Nat) ∨ NIADDR + 1 ≤ dev.fresh.length) :
    ∃ dev' ip' new,
      (if ip.ib level ≠ 0 then through fs (level + 1) dev ip (fs.nindir ^ (level + 1)) k
        (ip.ib level)
        else do
          let (dev, ip, newb) ← alloc dev ip fs.bsize
          through fs (level + 1) (dev.clrbuf newb)
            { ip with ib := Function.update ip.ib level newb } (fs.nindir ^ (level + 1)) k newb) =
          .ok (dev', ip') ∧
        Settled fs dev dev' ip ip' (NDADDR + base fs level + k) new := by
  have bounded : level + 1 ≤ NIADDR := hl
  have below : ∀ (dev : Device) (ip : Inode),
      (owned fs dev ip + (dev.fresh : Multiset Nat)).Nodup →
      (tree fs.nindir (level + 1) dev.disk (ip.ib level) + (dev.fresh : Multiset Nat)).Nodup := by
    intro dev ip apart
    obtain ⟨rest, split, -, -⟩ := held_split fs hl dev ip
    rw [split] at apart
    exact Multiset.nodup_of_le (add_le_add (Multiset.le_add_right _ _) (le_refl _)) apart
  by_cases hole : ip.ib level = 0
  · have unmapped : ¬ Finds fs dev ip (NDADDR + base fs level + k : Nat) := by
      intro found
      have some := found.leaf hl hk
      rw [hole, leaf_zero] at some
      exact some rfl
    have least := enough.resolve_left unmapped
    obtain ⟨p, rest, supply⟩ := List.exists_cons_of_length_pos (by lia : 0 < dev.fresh.length)
    have hp : p ≠ 0 := by
      rintro rfl
      exact nonzero (by simp [supply])
    obtain ⟨one, bare⟩ := Settled.root hl hk hole apart nonzero supply
    set dev₁ := (dev.grant p fs.bsize rest).clrbuf p with def₁
    set ip₁ : Inode := { ip.charge fs.bsize with ib := Function.update ip.ib level p } with def₂
    have entry : ip₁.ib level = p := Function.update_self ..
    have left : dev₁.fresh = rest := rfl
    have apart₁ : (owned fs dev₁ ip₁ + (dev₁.fresh : Multiset Nat)).Nodup := by rwa [one.total]
    have nonzero₁ : 0 ∉ dev₁.fresh := fun zero => nonzero (supply ▸ List.mem_cons_of_mem p zero)
    have enough₁ : level + 1 ≤ dev₁.fresh.length := by
      rw [supply, List.length_cons] at least
      rw [left]
      lia
    obtain ⟨dev', ip', new, run, grown⟩ := through_spec fs level dev₁ ip₁ (ip₁.ib level) k
      (entry ▸ hp) (below dev₁ ip₁ apart₁) nonzero₁ (Or.inr enough₁)
    refine ⟨dev', ip', _, ?_, one.trans (Settled.below hl hk apart₁ grown) unmapped⟩
    rw [entry] at run
    rw [if_neg (not_not.mpr hole), alloc_cons supply]
    exact run
  · obtain ⟨dev', ip', new, run, grown⟩ := through_spec fs level dev ip (ip.ib level) k hole
      (below dev ip apart) nonzero (by
        rcases enough with found | least
        · exact Or.inl (found.leaf hl hk)
        · exact Or.inr (by lia))
    refine ⟨dev', ip', new, ?_, Settled.below hl hk apart grown⟩
    rw [if_pos hole]
    exact run

/-- The room that `balloc` takes for a hole among the direct blocks. -/
def Fs.room (fs : Fs) (ip : Inode) (length : Nat) : Nat :=
  if ip.size < (fs.lblkno length + 1) * fs.bsize then fs.fragroundup
    (fs.blkoff length) else fs.bsize

theorem balloc_spec {length : Nat} (shorter : length < ip.size) (small : length < 2 ^ 32)
    (apart : (owned fs dev ip + (dev.fresh : Multiset Nat)).Nodup) (nonzero : 0 ∉ dev.fresh)
    (enough : Finds fs dev ip (fs.lblkno length) ∨ NIADDR + 1 ≤ dev.fresh.length) :
    ∃ dev' ip' new,
      balloc realloccg fs dev ip (fs.lblkno length) (fs.blkoff length) = .ok (dev', ip') ∧
        Settled fs dev dev' ip ip' (fs.lblkno length) new ∧
        (fs.lblkno length < NDADDR → new = [] ∨
          new = [(ip'.db (fs.lblkno length), fs.room ip length)]) := by
  have inside : ¬ (fs.lblkno ip.size < NDADDR ∧ fs.lblkno ip.size < fs.lblkno length ∧
      fs.blksize ip (fs.lblkno ip.size) < fs.bsize ∧ fs.blksize ip (fs.lblkno ip.size) > 0) := by
    have mono : length / fs.bsize ≤ ip.size / fs.bsize := Nat.div_le_div_right shorter.le
    rw [fs.lblkno_eq, fs.lblkno_eq]
    lia
  simp only [balloc, if_neg inside, pure_bind]
  by_cases hn : fs.lblkno length < NDADDR
  · rw [if_pos hn]
    by_cases hole : ip.db (fs.lblkno length) = 0
    · have unmapped : ¬ Finds fs dev ip (fs.lblkno length) := by
        rintro ⟨a, found⟩
        have natural : ¬ (fs.lblkno length : Int) < 0 := by lia
        simp [bmap, natural, hn, hole] at found
      have least := enough.resolve_left unmapped
      obtain ⟨p, rest, supply⟩ := List.exists_cons_of_length_pos (by lia : 0 < dev.fresh.length)
      refine ⟨_, _, _, ?_, Settled.data (fs.room ip length) hn hole nonzero supply,
        fun _ => .inr ?_⟩
      · simp only [hole, ne_eq, not_true_eq_false, false_and, if_false, alloc_cons supply]
        rfl
      · dsimp only
        rw [Function.update_self]
    · refine ⟨dev, ip, [], ?_, Settled.refl .., fun _ => .inl rfl⟩
      by_cases full : ip.size ≥ (fs.lblkno length + 1) * fs.bsize
      · simp only [hole, ne_eq, not_false_eq_true, full, and_self, if_true]
        rfl
      · simp only [hole, ne_eq, not_false_eq_true, full, and_false, if_false, if_true,
          fragment_large_enough shorter full]
        rfl
  · rw [if_neg hn]
    obtain ⟨level, hl, k, hk, here, found⟩ := level_of_small (fs.lblkno_lt small) hn
    rw [found, here]
    rw [here] at enough
    have back : NIADDR - (NIADDR - level) = level := by lia
    have height : NIADDR + 1 - (NIADDR - level) = level + 1 := by lia
    simp only [back, height]
    obtain ⟨dev', ip', new, run, settled⟩ := indirect_spec hl hk apart nonzero enough
    exact ⟨dev', ip', new, run, settled, fun less => absurd less (by lia)⟩

end Balloc

end FreeBsd.Ufs
