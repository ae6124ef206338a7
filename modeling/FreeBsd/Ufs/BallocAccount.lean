import FreeBsd.Ufs.BallocFail
import FreeBsd.Ufs.Itrunc
import Mathlib.Data.Nat.ModEq

/-! The sectors charged to an inode and the fragments taken in the free maps, after `balloc` as it
returns with or without an error. -/
namespace FreeBsd.Ufs.Faults

open FreeBsd.Fanout Finset

section Sizes

variable (fs : Fs)

theorem numfrags_eq (n : Nat) : fs.numfrags n = n / fs.fsize := Nat.shiftRight_eq_div_pow ..

theorem numfrags_pos {n : Nat} (whole : n % fs.fsize = 0) (pos : 0 < n) : 0 < fs.numfrags n := by
  rw [numfrags_eq]
  exact Nat.div_pos (Nat.le_of_dvd pos (Nat.dvd_of_mod_eq_zero whole)) fs.fsize_pos

theorem bsize_whole : fs.bsize % fs.fsize = 0 :=
  Nat.mod_eq_zero_of_dvd (Nat.pow_dvd_pow 2 fs.fshift_le)

theorem rest_whole {a b : Nat} (ha : a % fs.fsize = 0) (hb : b % fs.fsize = 0) :
    (b - a) % fs.fsize = 0 :=
  Nat.mod_eq_zero_of_dvd (Nat.dvd_sub (Nat.dvd_of_mod_eq_zero hb) (Nat.dvd_of_mod_eq_zero ha))

theorem numfrags_rest {a b : Nat} (whole : a % fs.fsize = 0) (le : a ≤ b) :
    fs.numfrags a + fs.numfrags (b - a) = fs.numfrags b := by
  simp only [numfrags_eq]
  rw [← Nat.add_div_of_dvd_right (Nat.dvd_of_mod_eq_zero whole), Nat.add_sub_cancel' le]

theorem btodb_rest {a b : Nat} (whole : a % fs.fsize = 0) (le : a ≤ b) :
    btodb a + btodb (b - a) = btodb b := by
  have sector : 2 ^ DEV_BSHIFT ∣ a :=
    dvd_trans (Nat.pow_dvd_pow 2 fs.le_fshift) (Nat.dvd_of_mod_eq_zero whole)
  simp only [btodb, Nat.shiftRight_eq_div_pow]
  rw [← Nat.add_div_of_dvd_right sector, Nat.add_sub_cancel' le]

theorem btodb_bsize_pos : 0 < btodb fs.bsize := by
  rw [btodb, Nat.shiftRight_eq_div_pow]
  exact Nat.div_pos (Nat.pow_le_pow_right (by decide) (le_trans fs.le_fshift fs.fshift_le))
    (by decide)

omit fs in
theorem union_val {A B : Finset Nat} (free : ∀ f ∈ B, f ∉ A) : (A ∪ B).val = A.val + B.val := by
  have apart : Disjoint A B := disjoint_right.mpr fun f hf => free f hf
  rw [← disjUnion_eq_union A B apart]
  rfl

omit fs in
theorem sdiff_val {A B : Finset Nat} (sub : B ⊆ A) : (A \ B).val + B.val = A.val := by
  rw [← union_val fun f hf => by simp [hf], sdiff_union_of_subset sub]

theorem frags_rest (bno : Nat) {a b : Nat} (whole : a % fs.fsize = 0) (le : a ≤ b) :
    (frags fs bno b).val =
      (frags fs bno a).val + (frags fs (bno + fs.numfrags a) (b - a)).val := by
  have length := numfrags_rest fs whole le
  rw [← union_val]
  · congr 1
    simp only [frags, add_assoc, length]
    rw [Ico_union_Ico_eq_Ico (by lia) (by lia)]
  · simp only [frags, mem_Ico]
    lia

theorem self_mem_frags (bno : Nat) {n : Nat} (pos : 0 < fs.numfrags n) : bno ∈ frags fs bno n := by
  simp [frags, pos]

end Sizes

section Ledger

variable (fs : Fs)

def slot (q size : Nat) : Multiset (Nat × Nat) := if q = 0 then 0 else {(q, size)}

/-- The data blocks and fragments that the direct pointers lead to, with their sizes. -/
def directs (sizes : Nat → Nat) (ip : Inode) : Multiset (Nat × Nat) :=
  ∑ i ∈ range NDADDR, slot (ip.db i) (sizes i)

/-- The blocks below the indirect pointers, those of pointers and those of data. -/
def trees (s : Store) : Multiset Nat :=
  ∑ level ∈ range NIADDR, tree fs.nindir (level + 1) s.disk (s.ip.ib level)

def extents (sizes : Nat → Nat) (s : Store) : Multiset (Nat × Nat) :=
  directs sizes s.ip + (trees fs s).map (·, fs.bsize)

def sectorsOf (E : Multiset (Nat × Nat)) : Nat := (E.map fun e => btodb e.2).sum

def fragsOf (E : Multiset (Nat × Nat)) : Multiset Nat := E.bind fun e => (frags fs e.1 e.2).val

/-- The inode is charged with `extra` sectors more than those of the blocks it refers to, and the
free maps have the fragments `lost` beside these blocks and what `others` is taken for. -/
structure Ledger (others : Multiset Nat) (sizes : Nat → Nat) (s : Store) (extra : Nat)
    (lost : Multiset Nat) : Prop where
  blocks : s.ip.blocks = sectorsOf (extents fs sizes s) + extra
  map : s.map.val = others + fragsOf fs (extents fs sizes s) + lost

def Accounted (others : Multiset Nat) (sizes : Nat → Nat) (s : Store) : Prop :=
  Ledger fs others sizes s 0 0

@[simp] theorem sectorsOf_add (E F : Multiset (Nat × Nat)) :
    sectorsOf (E + F) = sectorsOf E + sectorsOf F := by
  simp [sectorsOf]

@[simp] theorem sectorsOf_single (q size : Nat) : sectorsOf {(q, size)} = btodb size := by
  simp [sectorsOf]

@[simp] theorem fragsOf_add (E F : Multiset (Nat × Nat)) :
    fragsOf fs (E + F) = fragsOf fs E + fragsOf fs F :=
  Multiset.add_bind ..

@[simp] theorem fragsOf_single (q size : Nat) : fragsOf fs {(q, size)} = (frags fs q size).val :=
  Multiset.singleton_bind ..

variable {fs} {others lost : Multiset Nat} {sizes sizes' : Nat → Nat} {s s' : Store} {extra : Nat}

theorem Ledger.accounted_iff (ledger : Ledger fs others sizes s extra lost) :
    Accounted fs others sizes s ↔ extra = 0 ∧ lost = 0 := by
  constructor
  · intro even
    have blocks := ledger.blocks.symm.trans even.blocks
    have map := ledger.map.symm.trans even.map
    rw [add_zero] at map
    exact ⟨by omega, add_eq_left.mp map⟩
  · rintro ⟨rfl, rfl⟩
    exact ledger

theorem trees_le (fs : Fs) (sizes : Nat → Nat) (s : Store) :
    trees fs s ≤ fragsOf fs (extents fs sizes s) := by
  have each : ∀ T : Multiset Nat, T ≤ fragsOf fs (T.map (·, fs.bsize)) := by
    intro T
    induction T using Multiset.induction with
    | empty => exact Multiset.zero_le _
    | cons q T ih =>
      rw [Multiset.map_cons, ← Multiset.singleton_add, ← Multiset.singleton_add, fragsOf_add,
        fragsOf_single]
      apply add_le_add _ ih
      rw [Multiset.singleton_le]
      exact self_mem_frags fs q (numfrags_pos fs (bsize_whole fs) fs.bsize_pos)
  rw [extents, fragsOf_add]
  exact le_trans (each _) (Multiset.le_add_left _ _)

theorem Ledger.trees_le_map (ledger : Ledger fs others sizes s extra lost) :
    trees fs s ≤ s.map.val := by
  rw [ledger.map, add_assoc]
  exact le_trans (trees_le fs sizes s)
    (le_trans (Multiset.le_add_right _ _) (Multiset.le_add_left _ _))

theorem Ledger.direct_taken (ledger : Ledger fs others sizes s extra lost) {i : Nat}
    (hi : i < NDADDR) (hq : s.ip.db i ≠ 0) : frags fs (s.ip.db i) (sizes i) ⊆ s.map := by
  have whole : directs sizes s.ip = ∑ j ∈ (range NDADDR).erase i, slot (s.ip.db j) (sizes j) +
      {(s.ip.db i, sizes i)} := by
    rw [directs, ← sum_erase_add _ _ (mem_range.mpr hi)]
    congr 1
    rw [slot, if_neg hq]
  rw [← val_le_iff, ledger.map, extents, whole, fragsOf_add, fragsOf_add, fragsOf_single]
  apply le_trans _ (Multiset.le_add_right _ _)
  apply le_trans _ (Multiset.le_add_left _ _)
  exact le_trans (Multiset.le_add_left _ _) (Multiset.le_add_right _ _)

theorem Ledger.trees_nodup (ledger : Ledger fs others sizes s extra lost) : (trees fs s).Nodup :=
  Multiset.nodup_of_le ledger.trees_le_map s.map.nodup

theorem Ledger.congr (ledger : Ledger fs others sizes s extra lost)
    (same : ∀ i < NDADDR, s.ip.db i ≠ 0 → sizes' i = sizes i) :
    Ledger fs others sizes' s extra lost := by
  have equal : extents fs sizes' s = extents fs sizes s := by
    rw [extents, extents, directs, directs]
    congr 1
    apply sum_congr rfl
    intro i hi
    by_cases hole : s.ip.db i = 0
    · simp [slot, hole]
    · rw [same i (mem_range.mp hi) hole]
  exact ⟨by rw [equal, ledger.blocks], by rw [equal, ledger.map]⟩

theorem Ledger.link {q size : Nat}
    (ledger : Ledger fs others sizes s (extra + btodb size) (lost + (frags fs q size).val))
    (more : extents fs sizes' s' = extents fs sizes s + {(q, size)}) (map : s'.map = s.map)
    (blocks : s'.ip.blocks = s.ip.blocks) : Ledger fs others sizes' s' extra lost := by
  constructor
  · rw [blocks, ledger.blocks, more, sectorsOf_add, sectorsOf_single]
    omega
  · rw [map, ledger.map, more, fragsOf_add, fragsOf_single]
    abel

theorem directs_update (sizes : Nat → Nat) {i : Nat} (hi : i < NDADDR) (ip : Inode) (q size : Nat) :
    directs (Function.update sizes i size) { ip with db := Function.update ip.db i q } +
        slot (ip.db i) (sizes i) = directs sizes ip + slot q size := by
  have change := sum_replace (f := fun j => slot (ip.db j) (sizes j))
    (g := fun j => slot (Function.update ip.db i q j) (Function.update sizes i size j)) hi
    (fun j _ ne => by rw [Function.update_of_ne ne, Function.update_of_ne ne])
  simpa only [directs, Function.update_self] using change

end Ledger

section Operations

variable {fs : Fs} {env : Env} {others lost : Multiset Nat} {sizes : Nat → Nat} {s s' : Store}
  {extra : Nat} {place : Place} {p size : Nat}

/-- The state of the file and the maps as the function is left, by whatever exit. -/
def exit {α : Type} : EStateM.Result Errno Store α → Store
  | .ok _ s => s
  | .error _ s => s

structure Free (fs : Fs) (s : Store) (p size : Nat) : Prop where
  nonzero : p ≠ 0
  inside : p + fs.numfrags size ≤ fs.size
  whole : size = fs.bsize → fs.fragnum p = 0
  free : ∀ f ∈ frags fs p size, f ∉ s.map

def Store.take (s : Store) (fs : Fs) (p size : Nat) : Store :=
  { s with map := s.map ∪ frags fs p size }

theorem hashalloc_cases (fs : Fs) (env : Env) (place : Place) (size : Nat) (s : Store) :
    hashalloc fs env place size s = none ∨ ∃ p, Free fs s p size ∧
      hashalloc fs env place size s = some (p, s.take fs p size) := by
  by_cases found : env.search place ≠ 0 ∧ env.search place + fs.numfrags size ≤ fs.size ∧
      (size = fs.bsize → fs.fragnum (env.search place) = 0) ∧
      ∀ f ∈ frags fs (env.search place) size, f ∉ s.map
  · exact Or.inr ⟨_, ⟨found.1, found.2.1, found.2.2.1, found.2.2.2⟩, if_pos found⟩
  · exact Or.inl (if_neg found)

theorem alloc_none (nothing : hashalloc fs env place size s = none) :
    alloc fs env place size s = .error (.panic "alloc: bad size") s ∨
      alloc fs env place size s = .error .enospc s := by
  by_cases bad : size > fs.bsize ∨ size % fs.fsize ≠ 0
  · exact Or.inl (by simp only [alloc, bad, if_true, Call.throw_bind_apply])
  · refine Or.inr ?_
    simp only [alloc, bad, if_false, Call.get_bind_apply, nothing,
      Call.throw_apply]

theorem alloc_some (found : hashalloc fs env place size s = some (p, s.take fs p size)) :
    alloc fs env place size s = .error (.panic "alloc: bad size") s ∨
      alloc fs env place size s = .ok p ((s.take fs p size).charge size) := by
  by_cases bad : size > fs.bsize ∨ size % fs.fsize ≠ 0
  · exact Or.inl (by simp only [alloc, bad, if_true, Call.throw_bind_apply])
  · refine Or.inr ?_
    simp only [alloc, bad, if_false, Call.get_bind_apply, found,
      Call.set_bind_apply, Call.pure_apply]

theorem Ledger.take (ledger : Ledger fs others sizes s extra lost)
    (free : ∀ f ∈ frags fs p size, f ∉ s.map) :
    Ledger fs others sizes (s.take fs p size) extra (lost + (frags fs p size).val) where
  blocks := ledger.blocks
  map := by
    have taken := union_val free
    rw [ledger.map, add_assoc] at taken
    exact taken

theorem Ledger.charge (ledger : Ledger fs others sizes s extra lost) (size : Nat) :
    Ledger fs others sizes (s.charge size) (extra + btodb size) lost where
  blocks := by
    have blocks := ledger.blocks
    simp only [Store.charge, Inode.charge, blocks]
    push_cast
    exact add_assoc _ _ _
  map := ledger.map

/-- The maps after `blkfree`, which does nothing where the group cannot be read. -/
def Store.release (s : Store) (fs : Fs) (fails : Bool) (p size : Nat) : Store :=
  if fails then s else { s with map := s.map \ frags fs p size }

theorem Store.release_ip (s : Store) (fs : Fs) (fails : Bool) (p size : Nat) :
    (s.release fs fails p size).ip = s.ip := by
  cases fails <;> rfl

theorem Store.release_sub (s : Store) (fs : Fs) (fails : Bool) (p size : Nat) :
    (s.release fs fails p size).map ⊆ s.map := by
  cases fails with
  | true => exact Finset.Subset.refl _
  | false => exact Finset.sdiff_subset

theorem Store.release_link (s : Store) (fs : Fs) (fails : Bool) (p size i nb more : Nat) :
    ((s.release fs fails p size).charge more).direct i nb =
      ((s.charge more).direct i nb).release fs fails p size := by
  cases fails <;> rfl

theorem blkfree_eq (fails : Bool) (whole : size % fs.fsize = 0) (small : size < fs.bsize)
    (inside : p < fs.size) (taken : frags fs p size ⊆ s.map) :
    blkfree fs fails p size s = .ok () (s.release fs fails p size) := by
  have fine : ¬ (size > fs.bsize ∨ size % fs.fsize ≠ 0) := by lia
  have known : ¬ p ≥ fs.size := by lia
  have busy : ¬ ∃ f ∈ frags fs p size, f ∉ s.map := fun ⟨f, hf, out⟩ => out (taken hf)
  cases fails
  · simp only [blkfree, fine, known, small.ne, busy, if_false, Call.get_bind_apply, Call.set_apply,
      Bool.false_eq_true, Store.release]
  · simp only [blkfree, fine, known, if_false, if_true, Call.pure_apply, Store.release]

theorem Ledger.release
    (ledger : Ledger fs others sizes s extra (lost + (frags fs p size).val)) (fails : Bool) :
    Ledger fs others sizes (s.release fs fails p size) extra
      (lost + if fails then (frags fs p size).val else 0) := by
  cases fails with
  | true => exact ledger
  | false =>
    refine ⟨ledger.blocks, ?_⟩
    have sub : frags fs p size ⊆ s.map := by
      rw [← val_le_iff, ledger.map, ← add_assoc]
      exact Multiset.le_add_left _ _
    have left := sdiff_val sub
    rw [ledger.map, ← add_assoc] at left
    exact (add_right_cancel left).trans
      (congrArg (others + fragsOf fs (extents fs sizes s) + ·) (add_zero lost).symm)

end Operations

section Moves

variable {fs : Fs} {env : Env} {others lost : Multiset Nat} {sizes : Nat → Nat} {s s' : Store}
  {extra : Nat} {place : Place}

/-- As many sectors and fragments as before, and more where `bad` is the case. -/
def Strays (fs : Fs) (others : Multiset Nat) (sizes : Nat → Nat) (s : Store) (extra : Nat)
    (lost : Multiset Nat) (bad : Prop) : Prop :=
  ∃ more gone, Ledger fs others sizes s (extra + more) (lost + gone) ∧ (bad ↔ more ≠ 0 ∨ gone ≠ 0)

theorem Ledger.stays {bad : Prop} (ledger : Ledger fs others sizes s extra lost) (fine : ¬ bad) :
    Strays fs others sizes s extra lost bad :=
  ⟨0, 0, by simpa using ledger, by simpa using fine⟩

def Unreleased (fs : Fs) (env : Env) (place : Place) (lbprev osize nsize : Nat) (s : Store) :
    Prop :=
  env.reserve place = false ∧ s.ip.db lbprev ≠ 0 ∧ env.breadFails place = false ∧
    fragextend fs env place (s.ip.db lbprev) osize nsize s = false ∧
    (hashalloc fs env place (request fs env place nsize) s).isSome ∧
    (env.cgFails place ∨ nsize < request fs env place nsize ∧ env.restFails place)

/-- A fragment made larger is referred to as such, where it was or elsewhere. -/
theorem Ledger.resize {i osize nsize q p : Nat}
    (ledger : Ledger fs others sizes s (extra + btodb (nsize - osize)) lost) (gone : Multiset Nat)
    (hi : i < NDADDR) (hp : p ≠ 0) (hq : s.ip.db i = q)
    (hq0 : q ≠ 0) (old : sizes i = osize) (whole : osize % fs.fsize = 0) (le : osize ≤ nsize)
    (swap : lost + (frags fs q osize).val = gone + (frags fs p nsize).val) :
    Ledger fs others (Function.update sizes i nsize) (s.direct i p) extra gone := by
  have pieces : extents fs (Function.update sizes i nsize) (s.direct i p) + {(q, osize)} =
      extents fs sizes s + {(p, nsize)} := by
    have change : directs (Function.update sizes i nsize) (s.direct i p).ip +
        slot (s.ip.db i) (sizes i) = directs sizes s.ip + slot p nsize :=
      directs_update sizes hi s.ip p nsize
    rw [slot, slot, if_neg hp, if_neg (hq ▸ hq0), hq, old] at change
    show directs _ _ + (trees fs s).map _ + _ = directs _ _ + (trees fs s).map _ + _
    rw [add_right_comm, change, add_right_comm]
  constructor
  · have sectors := congrArg sectorsOf pieces
    rw [sectorsOf_add, sectorsOf_add, sectorsOf_single, sectorsOf_single] at sectors
    have grow := btodb_rest fs whole le
    have blocks := ledger.blocks
    show s.ip.blocks = _
    lia
  · have all := congrArg (fragsOf fs) pieces
    rw [fragsOf_add, fragsOf_add, fragsOf_single, fragsOf_single] at all
    show s.map.val = _
    apply add_right_cancel (b := (frags fs q osize).val)
    rw [ledger.map, add_right_comm (_ + _) gone, add_assoc others _ (frags fs q osize).val, all,
      add_assoc _ lost, swap]
    abel

/-- How a function that brings in fragments ends: an error leaves things as they were. -/
def Settles {α : Type} (s : Store) (bad : Prop) (after : α → Store → Prop) :
    EStateM.Result Errno Store α → Prop
  | .ok a s' => after a s'
  | .error (.panic _) _ => True
  | .error _ s' => s' = s ∧ ¬ bad

theorem Settles.error {α β : Type} {s s' : Store} {bad : Prop} {e : Errno}
    {after : α → Store → Prop} {after' : β → Store → Prop}
    (settles : Settles s bad after (.error e s')) :
    Settles s bad after' (.error e s') := by
  cases e <;> exact settles

structure Moved (fs : Fs) (others : Multiset Nat) (sizes : Nat → Nat) (s s' : Store) (extra : Nat)
    (lost : Multiset Nat) (i nsize : Nat) (bad : Prop) (bp : Buf) : Prop where
  bcount : bp.bcount = nsize
  size : s'.ip.size = s.ip.size
  pointers : s'.ip.db = s.ip.db
  inside : ∀ f ∈ s'.map, f < fs.size
  nonzero : bp.blkno ≠ 0
  strays : Strays fs others (Function.update sizes i nsize) (s'.direct i bp.blkno) extra lost bad

section Realloccg

variable {lbprev osize nsize : Nat}

theorem extended_spec (ledger : Ledger fs others sizes s extra lost)
    (inside : ∀ f ∈ s.map, f < fs.size) (hi : lbprev < NDADDR) (hq : s.ip.db lbprev ≠ 0)
    (old : sizes lbprev = osize) (whole : osize % fs.fsize = 0) (lt : osize < nsize)
    (free : ∀ f ∈ frags fs (s.ip.db lbprev + fs.numfrags osize) (nsize - osize),
      f < fs.size ∧ f ∉ s.map) {bad : Prop} (fine : ¬ bad) :
    Moved fs others sizes s
      ((s.take fs (s.ip.db lbprev + fs.numfrags osize) (nsize - osize)).charge (nsize - osize))
      extra lost lbprev nsize bad ⟨s.ip.db lbprev, nsize⟩ := by
  constructor
  case bcount => rfl
  case size => rfl
  case pointers => rfl
  case inside =>
    intro f hf
    rcases Finset.mem_union.mp hf with hf | hf
    · exact inside f hf
    · exact (free f hf).1
  case nonzero => exact hq
  case strays =>
    apply Ledger.stays _ fine
    have taken := ledger.take fun f hf => (free f hf).2
    apply (taken.charge _).resize _ hi hq rfl hq old whole lt.le
    rw [frags_rest fs _ whole lt.le]
    abel

omit s s' fs env place sizes extra others lost in
theorem unread_iff {A B : Multiset Nat} (hA : A ≠ 0) (hB : B ≠ 0) (a b : Bool) :
    (a ∨ b) ↔ (0 : Nat) ≠ 0 ∨ (if a then A else 0) + (if b then B else 0) ≠ 0 := by
  have both : A + B ≠ 0 := fun none => hA (Multiset.le_zero.mp (none ▸ Multiset.le_add_right A B))
  cases a <;> cases b <;> simp [hA, hB, both]

/-- The fragment has a new place; what it leaves is given back where the group can be read. -/
theorem moved_spec {p request : Nat} (old rest : Bool)
    (ledger : Ledger fs others sizes s extra lost) (inside : ∀ f ∈ s.map, f < fs.size)
    (hi : lbprev < NDADDR) (hq : s.ip.db lbprev ≠ 0) (size : sizes lbprev = osize)
    (whole : osize % fs.fsize = 0) (pos : 0 < osize) (nwhole : nsize % fs.fsize = 0)
    (lt : osize < nsize) (le : nsize ≤ request) (small : request ≤ fs.bsize)
    (rwhole : request % fs.fsize = 0) (free : Free fs s p request) :
    ∃ s', (do
        blkfree fs old (s.ip.db lbprev) osize
        if nsize < request then
          blkfree fs rest (p + fs.numfrags nsize) (request - nsize)
        modify fun s => s.charge (nsize - osize)
        return (⟨p, nsize⟩ : Buf) : Call Buf) (s.take fs p request) = .ok ⟨p, nsize⟩ s' ∧
      Moved fs others sizes s s' extra lost lbprev nsize (old ∨ nsize < request ∧ rest) ⟨p,
        nsize⟩ := by
  have known : frags fs (s.ip.db lbprev) osize ⊆ s.map := size ▸ ledger.direct_taken hi hq
  set A := frags fs (s.ip.db lbprev) osize with defA
  set B := frags fs (p + fs.numfrags nsize) (request - nsize) with defB
  have full := frags_rest fs p nwhole le
  have inB : ∀ f ∈ B, f ∈ frags fs p request := by
    intro f hf
    rw [← mem_val, full]
    exact Multiset.mem_add.mpr (Or.inr hf)
  set s₁ := s.take fs p request with def₁
  set s₂ := s₁.release fs old (s.ip.db lbprev) osize with def₂
  have first : blkfree fs old (s.ip.db lbprev) osize s₁ = .ok () s₂ := by
    apply blkfree_eq old whole (lt_of_lt_of_le lt (le_trans le small))
    · exact inside _ (known (self_mem_frags fs _ (numfrags_pos fs whole pos)))
    · exact fun f hf => Finset.mem_union_left _ (known hf)
  have stays : B ⊆ s₂.map := by
    intro f hf
    have there : f ∈ s₁.map := Finset.mem_union_right _ (inB f hf)
    have away : f ∉ A := fun hA => free.free f (inB f hf) (known hA)
    rw [def₂, Store.release]
    split
    · exact there
    · exact Finset.mem_sdiff.mpr ⟨there, away⟩
  have linked := ((ledger.take free.free).charge (nsize - osize)).resize (p := p)
    (lost + B.val + A.val) hi free.nonzero rfl hq size whole lt.le (by
      rw [full]
      abel)
  have freed := linked.release old
  rw [← Store.release_link, ← def₁, ← def₂, add_right_comm] at freed
  have someA : A.val ≠ 0 := by
    intro none
    have self := self_mem_frags fs (s.ip.db lbprev) (numfrags_pos fs whole pos)
    rw [← defA, ← mem_val, none] at self
    exact Multiset.notMem_zero _ self
  have within : ∀ f ∈ s₂.map, f < fs.size := by
    intro f hf
    rcases Finset.mem_union.mp (s₁.release_sub _ _ _ _ hf) with hf | hf
    · exact inside f hf
    · have := free.inside
      have := Finset.mem_Ico.mp hf
      lia
  by_cases cut : nsize < request
  · have some := self_mem_frags fs (p + fs.numfrags nsize)
      (numfrags_pos fs (rest_whole fs nwhole rwhole) (Nat.sub_pos_of_lt cut))
    rw [← defB] at some
    have second : blkfree fs rest (p + fs.numfrags nsize) (request - nsize) s₂ =
        .ok () (s₂.release fs rest (p + fs.numfrags nsize) (request - nsize)) := by
      apply blkfree_eq rest (rest_whole fs nwhole rwhole) _ (within _ (stays some)) stays
      lia
    have freed := freed.release rest
    rw [← Store.release_link] at freed
    refine ⟨(s₂.release fs rest (p + fs.numfrags nsize) (request - nsize)).charge (nsize - osize),
      ?_, rfl, ?_, ?_, ?_, free.nonzero, 0, _, by simpa only [add_zero, add_assoc] using freed, ?_⟩
    · simp only [Call.bind_ok first, cut, if_true, Call.bind_ok second]
      rfl
    · simp [Store.charge, Inode.charge, Store.release_ip, def₂, def₁, Store.take]
    · simp [Store.charge, Inode.charge, Store.release_ip, def₂, def₁, Store.take]
    · exact fun f hf => within f (s₂.release_sub _ _ _ _ hf)
    · have someB : B.val ≠ 0 := fun none => by
        rw [← mem_val, none] at some
        exact Multiset.notMem_zero _ some
      simpa only [cut, true_and] using unread_iff someA someB old rest
  · have none : B.val = 0 := by
      have same : request - nsize = 0 := by lia
      simp [defB, frags, same, numfrags_eq]
    rw [none, add_zero] at freed
    refine ⟨s₂.charge (nsize - osize), ?_, rfl, ?_, ?_, within, free.nonzero, 0, _,
      by simpa only [add_zero] using freed, ?_⟩
    · simp only [Call.bind_ok first, cut, if_false]
      rfl
    · simp [Store.charge, Inode.charge, Store.release_ip, def₂, def₁, Store.take]
    · simp [Store.charge, Inode.charge, Store.release_ip, def₂, def₁, Store.take]
    · simpa [cut] using unread_iff someA someA old false

theorem request_cases (fs : Fs) (env : Env) (place : Place) (nsize : Nat) :
    request fs env place nsize = nsize ∨ request fs env place nsize = fs.bsize := by
  unfold request
  cases env.fs_optim place with
  | FS_OPTTIME => exact Or.inr rfl
  | FS_OPTSPACE => exact Or.inl rfl

/-- The fragment at `lbprev` grows to `nsize` bytes, or the call ends in an error and nothing is
done. -/
theorem realloccg_spec (env : Env) (place : Place) (ledger : Ledger fs others sizes s extra lost)
    (inside : ∀ f ∈ s.map, f < fs.size) (hi : lbprev < NDADDR)
    (size : s.ip.db lbprev ≠ 0 → sizes lbprev = osize) (pos : 0 < osize) (lt : osize < nsize) :
    Settles s (Unreleased fs env place lbprev osize nsize s)
      (fun bp s' => Moved fs others sizes s s' extra lost lbprev nsize
        (Unreleased fs env place lbprev osize nsize s) bp)
      (realloccg fs env place lbprev osize nsize s) := by
  simp only [realloccg]
  by_cases bad : osize > fs.bsize ∨ osize % fs.fsize ≠ 0 ∨ nsize > fs.bsize ∨ nsize % fs.fsize ≠ 0
  · simp only [bad, if_true, Call.throw_bind_apply]
    trivial
  have whole : osize % fs.fsize = 0 := by lia
  have nwhole : nsize % fs.fsize = 0 := by lia
  simp only [bad, if_false]
  cases reserve : env.reserve place with
  | true => exact ⟨rfl, fun unreleased => by simp [Unreleased, reserve] at unreleased⟩
  | false =>
    simp only [Bool.false_eq_true, if_false, Call.get_bind_apply]
    by_cases hq : s.ip.db lbprev = 0
    · simp only [hq, if_true, Call.throw_bind_apply]
      trivial
    simp only [hq, if_false]
    cases unread : env.breadFails place with
    | true => exact ⟨rfl, fun unreleased => by simp [Unreleased, unread] at unreleased⟩
    | false =>
      simp only [Bool.false_eq_true, if_false]
      cases extend : fragextend fs env place (s.ip.db lbprev) osize nsize s with
      | true =>
        have fine : ¬ Unreleased fs env place lbprev osize nsize s := by
          rintro ⟨-, -, -, no, -⟩
          rw [extend] at no
          cases no
        simp only [fragextend, Bool.and_eq_true, decide_eq_true_eq] at extend
        have more :
            Finset.Ico (s.ip.db lbprev + fs.numfrags osize) (s.ip.db lbprev + fs.numfrags nsize) =
            frags fs (s.ip.db lbprev + fs.numfrags osize) (nsize - osize) := by
          rw [frags, add_assoc, numfrags_rest fs whole lt.le]
        have free := extend.2
        rw [more] at free
        simp only [if_true, more, Call.set_bind_apply, Call.pure_apply]
        exact extended_spec ledger inside hi hq (size hq) whole lt free fine
      | false =>
        simp only [Bool.false_eq_true, if_false]
        rcases hashalloc_cases fs env place (request fs env place nsize) s with none | ⟨p, free,
          found⟩
        · simp only [none, Call.throw_apply]
          exact ⟨rfl, fun unreleased => by simp [Unreleased, none] at unreleased⟩
        · have same : Unreleased fs env place lbprev osize nsize s ↔ (env.cgFails place ∨
              nsize < request fs env place nsize ∧ env.restFails place) := by
            simp [Unreleased, reserve, hq, unread, extend, found]
          have size := size hq
          obtain ⟨s', run, moved⟩ := moved_spec (env.cgFails place) (env.restFails place) ledger
            inside hi hq size whole pos nwhole lt
            (by rcases request_cases fs env place nsize with e | e <;> lia)
            (by rcases request_cases fs env place nsize with e | e <;> lia)
            (by rcases request_cases fs env place nsize with e | e <;> rw [e]
                · exact nwhole
                · exact bsize_whole fs) free
          simp only [found, Call.set_bind_apply]
          rw [run, same]
          exact moved

end Realloccg

end Moves

section Fragment

variable {fs : Fs} {env : Env} {others lost : Multiset Nat} {s s' : Store} {extra : Nat} {bn : Nat}

/-- A file in order but for what is lost: its direct blocks lie below its end, each as large as
`blksize` has it, and no map goes past the end of the volume. -/
structure Sound (fs : Fs) (others : Multiset Nat) (s : Store) (extra : Nat) (lost : Multiset Nat) :
    Prop where
  ledger : Ledger fs others (fs.blksize s.ip) s extra lost
  inside : ∀ f ∈ s.map, f < fs.size
  ends : ∀ i < NDADDR, s.ip.db i ≠ 0 → i * fs.bsize < s.ip.size

theorem blksize_full {ip : Inode} {i : Nat} (full : (i + 1) * fs.bsize ≤ ip.size) :
    fs.blksize ip i = fs.bsize := by
  rw [Fs.blksize, if_pos]
  right
  rw [Nat.shiftLeft_eq]
  exact full

theorem blksize_part {ip : Inode} {i : Nat} (hi : i < NDADDR)
    (part : ip.size < (i + 1) * fs.bsize) :
    fs.blksize ip i = fs.fragroundup (fs.blkoff ip.size) := by
  rw [Fs.blksize, if_neg]
  rintro (high | full)
  · omega
  · rw [Nat.shiftLeft_eq] at full
    exact absurd (lt_of_lt_of_le part full) (lt_irrefl _)

def TailMoves (fs : Fs) (bn : Nat) (ip : Inode) : Prop :=
  fs.lblkno ip.size < NDADDR ∧ fs.lblkno ip.size < bn ∧
    fs.blksize ip (fs.lblkno ip.size) < fs.bsize ∧ fs.blksize ip (fs.lblkno ip.size) > 0

def TailUnreleased (fs : Fs) (env : Env) (bn : Nat) (s : Store) : Prop :=
  TailMoves fs bn s.ip ∧
    Unreleased fs env .tail (fs.lblkno s.ip.size) (fs.blksize s.ip (fs.lblkno s.ip.size)) fs.bsize s

/-- What the first paragraph of `balloc` leaves to the rest. -/
structure Enlarged (fs : Fs) (others : Multiset Nat) (s' : Store) (extra : Nat)
    (lost : Multiset Nat) (bad : Prop) : Prop where
  strays : Strays fs others (fs.blksize s'.ip) s' extra lost bad
  inside : ∀ f ∈ s'.map, f < fs.size
  ends : ∀ i < NDADDR, s'.ip.db i ≠ 0 → i * fs.bsize < s'.ip.size

theorem enlarge_spec (env : Env) (bn : Nat) (sound : Sound fs others s extra lost) :
    Settles s (TailUnreleased fs env bn s)
      (fun _ s' => Enlarged fs others s' extra lost (TailUnreleased fs env bn s))
      (enlarge fs env bn s) := by
  simp only [enlarge, Call.get_bind_apply]
  by_cases moves : TailMoves fs bn s.ip
  · have guard := moves
    rw [TailMoves] at guard
    rw [if_pos guard]
    obtain ⟨hnb, -, lt, pos⟩ := guard
    have bad : TailUnreleased fs env bn s ↔ Unreleased fs env .tail (fs.lblkno s.ip.size)
        (fs.blksize s.ip (fs.lblkno s.ip.size)) fs.bsize s := and_iff_right moves
    have step := realloccg_spec env .tail sound.ledger sound.inside hnb (fun _ => rfl) pos lt
    rw [← bad] at step
    cases run : realloccg fs env .tail (fs.lblkno s.ip.size)
        (fs.blksize s.ip (fs.lblkno s.ip.size)) fs.bsize s with
    | error e s' =>
      rw [run] at step
      rw [Call.bind_error run]
      exact step.error
    | ok bp s' =>
      rw [run] at step
      rw [Call.bind_ok run, Call.modify_apply]
      obtain ⟨-, -, pointers, inside, nonzero, more, gone, ledger, lost⟩ := step
      have below : ∀ i < NDADDR, (Function.update s'.ip.db (fs.lblkno s.ip.size) bp.blkno) i ≠ 0 →
          i = fs.lblkno s.ip.size ∨ i < fs.lblkno s.ip.size := by
        intro i hi some
        by_cases here : i = fs.lblkno s.ip.size
        · exact Or.inl here
        · rw [Function.update_of_ne here, pointers] at some
          have := sound.ends i hi some
          rw [fs.lblkno_eq] at here ⊢
          have := Nat.div_lt_iff_lt_mul (x := s.ip.size) (y := i) fs.bsize_pos
          lia
      have larger : ∀ i, i = fs.lblkno s.ip.size ∨ i < fs.lblkno s.ip.size →
          (i + 1) * fs.bsize ≤ (fs.lblkno s.ip.size + 1) * fs.bsize := by
        intro i hi
        exact Nat.mul_le_mul_right _ (by lia)
      refine ⟨⟨more, gone, Ledger.congr ⟨ledger.blocks, ledger.map⟩ ?_, lost⟩, inside, ?_⟩
      · intro i hi some
        rw [blksize_full (larger i (below i hi some))]
        rcases below i hi some with rfl | lower
        · rw [Function.update_self]
        · rw [Function.update_of_ne lower.ne, blksize_full]
          rw [fs.lblkno_eq] at lower
          exact (Nat.le_div_iff_mul_le fs.bsize_pos).mp lower
      · intro i hi some
        exact lt_of_lt_of_le (Nat.mul_lt_mul_of_pos_right i.lt_succ_self fs.bsize_pos)
          (larger i (below i hi some))
  · have guard := moves
    rw [TailMoves] at guard
    rw [if_neg guard]
    have fine : ¬ TailUnreleased fs env bn s := fun bad => moves bad.1
    exact ⟨sound.ledger.stays fine, sound.inside, sound.ends⟩

/-- The block asked for is the fragment that ends the file, and has to grow. -/
def DirectUnreleased (fs : Fs) (env : Env) (bn size : Nat) (s : Store) : Prop :=
  s.ip.size < (bn + 1) * fs.bsize ∧
    fs.fragroundup (fs.blkoff s.ip.size) < fs.fragroundup size ∧
    Unreleased fs env .data bn (fs.fragroundup (fs.blkoff s.ip.size)) (fs.fragroundup size) s

theorem direct_spec (env : Env) (size : Nat) (hn : bn < NDADDR)
    (sound : Sound fs others s extra lost) :
    Settles s (DirectUnreleased fs env bn size s)
      (fun bp s' => s'.ip.size = s.ip.size ∧
        Strays fs others (Function.update (fs.blksize s.ip) bn bp.bcount) s' extra lost
          (DirectUnreleased fs env bn size s))
      (direct fs env bn size s) := by
  simp only [direct, Call.get_bind_apply]
  have same : ∀ (s' : Store) (size : Nat), size = fs.blksize s.ip bn →
      Ledger fs others (fs.blksize s.ip) s' extra lost →
      Ledger fs others (Function.update (fs.blksize s.ip) bn size) s' extra lost := by
    rintro s' _ rfl ledger
    rwa [Function.update_eq_self]
  by_cases whole : s.ip.db bn ≠ 0 ∧ s.ip.size ≥ (bn + 1) * fs.bsize
  · have fine : ¬ DirectUnreleased fs env bn size s := fun bad => by
      have := bad.1
      lia
    simp only [if_pos whole]
    cases env.breadFails .data with
    | true => exact ⟨rfl, fine⟩
    | false => exact ⟨rfl, (same s _ (blksize_full whole.2).symm sound.ledger).stays fine⟩
  rw [if_neg whole]
  by_cases some : s.ip.db bn ≠ 0
  · have part : s.ip.size < (bn + 1) * fs.bsize := by
      have : ¬ s.ip.size ≥ (bn + 1) * fs.bsize := fun full => whole ⟨some, full⟩
      lia
    have held := @blksize_part fs _ _ hn part
    rw [if_pos some]
    by_cases room : fs.fragroundup size ≤ fs.fragroundup (fs.blkoff s.ip.size)
    · have fine : ¬ DirectUnreleased fs env bn size s := fun bad => by
        have := bad.2.1
        lia
      simp only [if_pos room]
      cases env.breadFails .data with
      | true => exact ⟨rfl, fine⟩
      | false =>
        have kept : s.direct bn (s.ip.db bn) = s := by
          rw [Store.direct, Function.update_eq_self]
        refine ⟨rfl, ?_⟩
        show Strays _ _ _ (s.direct bn (s.ip.db bn)) _ _ _
        rw [kept]
        exact (same s _ held.symm sound.ledger).stays fine
    · have grows : fs.fragroundup (fs.blkoff s.ip.size) < fs.fragroundup size :=
        Nat.lt_of_not_le room
      have begun : 0 < fs.fragroundup (fs.blkoff s.ip.size) := by
        have low := sound.ends bn hn some
        have pos : 0 < s.ip.size % fs.bsize := by
          rw [Nat.pos_iff_ne_zero]
          intro none
          obtain ⟨k, hk⟩ := Nat.dvd_of_mod_eq_zero none
          rw [hk, Nat.mul_comm] at low part
          have := Nat.lt_of_mul_lt_mul_left low
          have := Nat.lt_of_mul_lt_mul_right part
          lia
        apply Nat.mul_pos _ fs.fsize_pos
        apply Nat.div_pos _ fs.fsize_pos
        have : 0 < fs.blkoff s.ip.size := pos
        lia
      have bad : DirectUnreleased fs env bn size s ↔ Unreleased fs env .data bn
          (fs.fragroundup (fs.blkoff s.ip.size)) (fs.fragroundup size) s :=
        ⟨fun bad => bad.2.2, fun bad => ⟨part, grows, bad⟩⟩
      have step := realloccg_spec env .data sound.ledger sound.inside hn (fun _ => held) begun grows
      rw [← bad] at step
      simp only [if_neg room]
      cases run : realloccg fs env .data bn (fs.fragroundup (fs.blkoff s.ip.size))
          (fs.fragroundup size) s with
      | error e s' =>
        rw [run] at step
        rw [Call.bind_error run]
        exact step.error
      | ok bp s' =>
        rw [run] at step
        rw [Call.bind_ok run]
        refine ⟨step.size, ?_⟩
        rw [step.bcount]
        exact step.strays
  · have hole : s.ip.db bn = 0 := not_not.mp some
    have fine : ¬ DirectUnreleased fs env bn size s := fun bad => bad.2.2.2.1 hole
    rw [if_neg some]
    set nsize := if s.ip.size < (bn + 1) * fs.bsize then fs.fragroundup size else fs.bsize
    rcases hashalloc_cases fs env .data nsize s with none | ⟨p, free, found⟩
    · rcases alloc_none none with run | run
      · rw [Call.bind_error run]
        trivial
      · rw [Call.bind_error run]
        exact ⟨rfl, fine⟩
    · rcases alloc_some found with run | run
      · rw [Call.bind_error run]
        trivial
      · rw [Call.bind_ok run]
        refine ⟨rfl, Ledger.stays ?_ fine⟩
        show Ledger fs others (Function.update (fs.blksize s.ip) bn nsize)
          (((s.take fs p nsize).charge nsize).direct bn p) extra lost
        apply ((sound.ledger.take free.free).charge nsize).link
        case map => rfl
        case blocks => rfl
        case more =>
          have change := directs_update (fs.blksize s.ip) hn s.ip p nsize
          rw [slot, slot, if_pos hole, if_neg free.nonzero, add_zero] at change
          show directs _ _ + (trees fs s).map _ = directs _ _ + (trees fs s).map _ + _
          rw [add_right_comm]
          exact congrArg (· + _) change

end Fragment

section Indirect

variable {fs : Fs} {env : Env} {others lost : Multiset Nat} {sizes : Nat → Nat} {s t : Store}
  {extra : Nat} {level m b i p : Nat}

theorem trees_split (fs : Fs) (s : Store) (hl : level < NIADDR) :
    trees fs s = ∑ j ∈ (range NIADDR).erase level, tree fs.nindir (j + 1) s.disk (s.ip.ib j) +
      tree fs.nindir (level + 1) s.disk (s.ip.ib level) := by
  rw [trees, sum_erase_add _ _ (mem_range.mpr hl)]

theorem trees_apart (apart : (trees fs s).Nodup) (hl : level < NIADDR)
    (hb : b ∈ tree fs.nindir (level + 1) s.disk (s.ip.ib level)) {j : Nat} (hj : j < NIADDR)
    (ne : j ≠ level) : ∀ x ∈ tree fs.nindir (j + 1) s.disk (s.ip.ib j), x ∈ trees fs s ∧ x ≠ b := by
  intro x hx
  have there : x ∈ ∑ j ∈ (range NIADDR).erase level, tree fs.nindir (j + 1) s.disk (s.ip.ib j) :=
    Multiset.mem_sum.mpr ⟨j, mem_erase.mpr ⟨ne, mem_range.mpr hj⟩, hx⟩
  rw [trees_split fs s hl] at apart ⊢
  refine ⟨Multiset.mem_add.mpr (Or.inl there), ?_⟩
  rintro rfl
  exact notMem_of_nodup_add apart there hb

theorem trees_graft (apart : (trees fs s).Nodup) (hl : level < NIADDR)
    (path : Heads fs.nindir s.disk (level + 1) (s.ip.ib level) (m + 1) b) (hb : b ≠ 0)
    (hi : i < fs.nindir) (hole : s.disk b i = 0)
    (same : ∀ x ∈ trees fs s, x ≠ b → t.disk x = s.disk x)
    (entries : ∀ j ≠ i, t.disk b j = s.disk b j) (ib : t.ip.ib = s.ip.ib) :
    trees fs t = trees fs s + tree fs.nindir m t.disk (t.disk b i) ∧
      Heads fs.nindir t.disk (level + 1) (t.ip.ib level) (m + 1) b := by
  have inner := path.mem hb
  have whole := trees_split fs s hl
  have own : (tree fs.nindir (level + 1) s.disk (s.ip.ib level)).Nodup := by
    rw [whole] at apart
    exact (Multiset.nodup_add.mp apart).2.1
  obtain ⟨gain, path'⟩ := path.graft own hb hi hole (fun x hx => same x (by
    rw [whole]
    exact Multiset.mem_add.mpr (Or.inr hx))) entries
  refine ⟨?_, ib ▸ path'⟩
  have others : ∀ j < NIADDR, j ≠ level → tree fs.nindir (j + 1) t.disk (t.ip.ib j) =
      tree fs.nindir (j + 1) s.disk (s.ip.ib j) := by
    intro j hj ne
    rw [ib]
    apply tree_congr
    intro x hx
    have away := trees_apart apart hl inner hj ne x hx
    exact same x away.1 away.2
  have change := sum_replace hl others
  rw [ib, gain] at change
  apply add_right_cancel (b := tree fs.nindir (level + 1) s.disk (s.ip.ib level))
  rw [trees, trees, ib, change]
  abel

theorem Ledger.new_block (ledger : Ledger fs others sizes s extra lost)
    (free : Free fs s p fs.bsize) : ∀ x ∈ trees fs s, x ≠ p := by
  rintro x hx rfl
  apply free.free x (self_mem_frags fs x (numfrags_pos fs (bsize_whole fs) fs.bsize_pos))
  exact Multiset.mem_of_le ledger.trees_le_map hx

theorem Ledger.attach (ledger : Ledger fs others sizes s extra lost) (free : Free fs s p fs.bsize)
    (hl : level < NIADDR) (path : Heads fs.nindir s.disk (level + 1) (s.ip.ib level) (m + 1) b)
    (hb : b ≠ 0) (hi : i < fs.nindir) (hole : s.disk b i = 0)
    (entry : t.disk b = Function.update (s.disk b) i p)
    (away : ∀ x ≠ b, x ≠ p → t.disk x = s.disk x) (bare : tree fs.nindir m t.disk p = {p})
    (map : t.map = (s.take fs p fs.bsize).map) (inode : t.ip = s.ip.charge fs.bsize) :
    Ledger fs others sizes t extra lost ∧
      Heads fs.nindir t.disk (level + 1) (t.ip.ib level) m p := by
  have outside := ledger.new_block free
  have here : t.disk b i = p := by rw [entry, Function.update_self]
  obtain ⟨gain, path'⟩ := trees_graft (t := t) ledger.trees_nodup hl path hb hi hole
    (fun x hx ne => away x ne (outside x hx))
    (fun j ne => by rw [entry, Function.update_of_ne ne]) (by rw [inode]; rfl)
  rw [here, bare] at gain
  refine ⟨?_, here ▸ path'.next hb hi⟩
  apply ((ledger.take free.free).charge fs.bsize).link
  case map => exact map
  case blocks => rw [inode]; rfl
  case more =>
    have direct : directs sizes t.ip = directs sizes s.ip := by rw [inode]; rfl
    rw [extents, gain, direct, Multiset.map_add, Multiset.map_singleton, ← add_assoc]
    rfl

theorem Ledger.attach_root (ledger : Ledger fs others sizes s extra lost)
    (free : Free fs s p fs.bsize) (hl : level < NIADDR) (hole : s.ip.ib level = 0)
    (cleared : t.disk p = fun _ => 0) (away : ∀ x ≠ p, t.disk x = s.disk x)
    (map : t.map = (s.take fs p fs.bsize).map)
    (inode : t.ip = { s.ip.charge fs.bsize with ib := Function.update s.ip.ib level p }) :
    Ledger fs others sizes t extra lost ∧
      Heads fs.nindir t.disk (level + 1) (t.ip.ib level) (level + 1) p := by
  have outside := ledger.new_block free
  have ib : t.ip.ib = Function.update s.ip.ib level p := by rw [inode]
  have here : t.ip.ib level = p := by rw [ib, Function.update_self]
  have bare : tree fs.nindir (level + 1) t.disk (t.ip.ib level) = {p} := by
    rw [here, tree_succ free.nonzero, cleared]
    simp
  refine ⟨?_, by rw [here]; exact .root _ _⟩
  apply ((ledger.take free.free).charge fs.bsize).link
  case map => exact map
  case blocks => rw [inode]; rfl
  case more =>
    have direct : directs sizes t.ip = directs sizes s.ip := by rw [inode]; rfl
    have others : ∀ j < NIADDR, j ≠ level → tree fs.nindir (j + 1) t.disk (t.ip.ib j) =
        tree fs.nindir (j + 1) s.disk (s.ip.ib j) := by
      intro j hj ne
      rw [ib, Function.update_of_ne ne]
      apply tree_congr
      intro x hx
      apply away x
      exact outside x (Multiset.mem_sum.mpr ⟨j, mem_range.mpr hj, hx⟩)
    have gain := sum_replace hl others
    rw [hole, tree_zero, add_zero, bare] at gain
    have gain : trees fs t = trees fs s + {p} := gain
    rw [extents, gain, direct, Multiset.map_add, Multiset.map_singleton, ← add_assoc]
    rfl

theorem block_fine (fs : Fs) : ¬ (fs.bsize > fs.bsize ∨ fs.bsize % fs.fsize ≠ 0) := by
  rintro (large | odd)
  · exact lt_irrefl _ large
  · exact odd (bsize_whole fs)

variable (env : Env)

theorem alloc_block_none {place : Place} (none : hashalloc fs env place fs.bsize s = none) :
    alloc fs env place fs.bsize s = .error .enospc s := by
  simp only [alloc, block_fine, if_false, Call.get_bind_apply, none, Call.throw_apply]

theorem alloc_block_some {place : Place}
    (found : hashalloc fs env place fs.bsize s = some (p, s.take fs p fs.bsize)) :
    alloc fs env place fs.bsize s = .ok p ((s.take fs p fs.bsize).charge fs.bsize) := by
  simp only [alloc, block_fine, if_false, Call.get_bind_apply, found, Call.set_bind_apply,
    Call.pure_apply]

/-- A whole block is given back, which leaves the sectors of the inode as they are. -/
theorem blkfree_block (fails : Bool) (free : Free fs s p fs.bsize) {more : Nat} :
    blkfree fs fails p fs.bsize ((s.take fs p fs.bsize).charge more) =
      .ok () (((s.take fs p fs.bsize).charge more).release fs fails p fs.bsize) := by
  have pos := numfrags_pos fs (bsize_whole fs) fs.bsize_pos
  have known : ¬ p ≥ fs.size := by
    have := free.inside
    omega
  have aligned : fs.blknum p = p := by
    have := free.whole rfl
    rw [Fs.fragnum] at this
    rw [Fs.blknum, this, Nat.sub_zero]
  have busy : ¬ ∀ f ∈ frags fs p fs.bsize, f ∉ ((s.take fs p fs.bsize).charge more).map :=
    fun none =>
    none p (self_mem_frags fs p pos) (Finset.mem_union_right _ (self_mem_frags fs p pos))
  cases fails
  · simp only [blkfree, block_fine, known, aligned, busy, if_false, if_true, Call.get_bind_apply,
      Call.set_apply, Bool.false_eq_true, Store.release]
  · simp only [blkfree, block_fine, known, if_false, if_true, Call.pure_apply, Store.release]

theorem newIndirect_none {n : Nat} (none : hashalloc fs env (.indirect n) fs.bsize s = none) :
    newIndirect fs env n s = .error .enospc s := by
  rw [newIndirect, Call.bind_error (alloc_block_none env none)]

theorem newIndirect_fails {n : Nat} (free : Free fs s p fs.bsize)
    (found : hashalloc fs env (.indirect n) fs.bsize s = some (p, s.take fs p fs.bsize))
    (fails : env.bwriteFails (.indirect n) = true) :
    newIndirect fs env n s = .error .eio (((s.take fs p fs.bsize).charge fs.bsize).release fs
      (env.cgFails (.indirect n)) p fs.bsize) := by
  rw [newIndirect, Call.bind_ok (alloc_block_some env found)]
  simp only [fails, if_true]
  rw [Call.bind_ok (blkfree_block _ free)]
  rfl

theorem newIndirect_ok {n : Nat}
    (found : hashalloc fs env (.indirect n) fs.bsize s = some (p, s.take fs p fs.bsize))
    (written : env.bwriteFails (.indirect n) = false) :
    newIndirect fs env n s = .ok p (((s.take fs p fs.bsize).charge fs.bsize).clrbuf p) := by
  rw [newIndirect, Call.bind_ok (alloc_block_some env found)]
  simp only [written, Bool.false_eq_true, if_false]
  rfl

end Indirect

section Through

variable {fs : Fs} {env : Env} {others lost : Multiset Nat} {sizes : Nat → Nat} {s : Store}
  {extra : Nat} {level bp : Nat}

/-- A new indirect block is found, but not written; or it is, and what comes `later` is not. -/
def NewUnwritten (fs : Fs) (env : Env) (n : Nat) (later : Nat → Store → Prop) (s : Store) : Prop :=
  match hashalloc fs env (.indirect n) fs.bsize s with
  | none => False
  | some (p, s) => env.bwriteFails (.indirect n) ∨ later p ((s.charge fs.bsize).clrbuf p)

def Unwritten (fs : Fs) (env : Env) : Nat → Nat → Nat → Nat → Store → Prop
  | 0, _, _, _, _ => False
  | 1, _, _, _, _ => False
  | n + 2, sh, k, bp, s =>
    let i := k / (sh / fs.nindir) % fs.nindir
    env.breadFails (.indirect (n + 2)) = false ∧
      if s.disk bp i ≠ 0 then Unwritten fs env (n + 1) (sh / fs.nindir) k (s.disk bp i) s
      else NewUnwritten fs env (n + 1)
        (fun p s => Unwritten fs env (n + 1) (sh / fs.nindir) k p (s.point bp i p)) s

theorem Ledger.unwritten {p : Nat} {bad : Prop} (fails : Bool)
    (ledger : Ledger fs others sizes s extra lost) (free : Free fs s p fs.bsize) (is : bad) :
    Strays fs others sizes (((s.take fs p fs.bsize).charge fs.bsize).release fs fails p fs.bsize)
      extra lost bad := by
  have left := ((ledger.take free.free).charge fs.bsize).release fails
  refine ⟨btodb fs.bsize, _, left, ?_⟩
  have pos := btodb_bsize_pos fs
  simp only [is, true_iff]
  exact Or.inl (by omega)

theorem through_spec (env : Env) (n sh k : Nat) (ledger : Ledger fs others sizes s extra lost)
    (hl : level < NIADDR) (path : Heads fs.nindir s.disk (level + 1) (s.ip.ib level) (n + 1) bp)
    (hb : bp ≠ 0) :
    (exit (through fs env (n + 1) sh k bp s)).ip.size = s.ip.size ∧
      Strays fs others sizes (exit (through fs env (n + 1) sh k bp s)) extra lost
        (Unwritten fs env (n + 1) sh k bp s) := by
  induction n generalizing s sh bp with
  | zero =>
    have fine : ¬ Unwritten fs env 1 sh k bp s := fun bad => bad
    have hi := Nat.mod_lt (k / (sh / fs.nindir)) fs.nindir_pos
    simp only [through]
    cases unread : env.breadFails (.indirect 1) with
    | true => exact ⟨rfl, ledger.stays fine⟩
    | false =>
      simp only [Bool.false_eq_true, if_false, Call.get_bind_apply]
      by_cases hole : s.disk bp (k / (sh / fs.nindir) % fs.nindir) = 0
      · simp only [hole, ne_eq, not_true_eq_false, if_false]
        rcases hashalloc_cases fs env .data fs.bsize s with none | ⟨p, free, found⟩
        · rw [Call.bind_error (alloc_block_none env none)]
          exact ⟨rfl, ledger.stays fine⟩
        · rw [Call.bind_ok (alloc_block_some env found)]
          have entry := Function.update_self bp
            (Function.update (s.disk bp) (k / (sh / fs.nindir) % fs.nindir) p) s.disk
          have bare : tree fs.nindir 0 (Function.update s.disk bp (Function.update (s.disk bp)
              (k / (sh / fs.nindir) % fs.nindir) p)) p = {p} := by
            simp [tree, free.nonzero]
          have attached := ledger.attach (t := ((s.take fs p fs.bsize).charge fs.bsize).point bp
            (k / (sh / fs.nindir) % fs.nindir) p) free hl path hb hi hole entry
            (fun x hx _ => Function.update_of_ne hx ..) bare rfl rfl
          exact ⟨rfl, attached.1.stays fine⟩
      · simp only [hole, ne_eq, not_false_eq_true, if_true]
        cases env.B_CLRBUF && env.breadFails .data with
        | true => exact ⟨rfl, ledger.stays fine⟩
        | false => exact ⟨rfl, ledger.stays fine⟩
  | succ n ih =>
    have hi := Nat.mod_lt (k / (sh / fs.nindir)) fs.nindir_pos
    simp only [through, Unwritten]
    cases unread : env.breadFails (.indirect (n + 2)) with
    | true => exact ⟨rfl, ledger.stays fun bad => by simp at bad⟩
    | false =>
      simp only [Bool.false_eq_true, if_false, Call.get_bind_apply, true_and]
      by_cases hole : s.disk bp (k / (sh / fs.nindir) % fs.nindir) = 0
      · simp only [hole, ne_eq, not_true_eq_false, if_false, NewUnwritten]
        rcases hashalloc_cases fs env (.indirect (n + 1)) fs.bsize s with none | ⟨p, free, found⟩
        · rw [Call.bind_error (newIndirect_none env none), none]
          exact ⟨rfl, ledger.stays fun bad => bad⟩
        · rw [found]
          cases written : env.bwriteFails (.indirect (n + 1)) with
          | true =>
            rw [Call.bind_error (newIndirect_fails env free found written)]
            exact ⟨by simp [exit, Store.release_ip, Store.charge, Inode.charge, Store.take],
              ledger.unwritten _ free (Or.inl rfl)⟩
          | false =>
            rw [Call.bind_ok (newIndirect_ok env found written), Call.modify_bind_apply]
            simp only [Bool.false_eq_true, false_or]
            have other : bp ≠ p := by
              apply ledger.new_block free
              rw [trees_split fs s hl]
              exact Multiset.mem_add.mpr (Or.inr (path.mem hb))
            set t := (((s.take fs p fs.bsize).charge fs.bsize).clrbuf p).point bp
              (k / (sh / fs.nindir) % fs.nindir) p with deft
            have entry : t.disk bp =
                Function.update (s.disk bp) (k / (sh / fs.nindir) % fs.nindir) p := by
              simp [deft, Store.point, Store.clrbuf, Store.charge, Store.take, other]
            have away : ∀ x ≠ bp, x ≠ p → t.disk x = s.disk x := by
              intro x hx hxp
              simp [deft, Store.point, Store.clrbuf, Store.charge, Store.take, hx, hxp]
            have cleared : t.disk p = fun _ => 0 := by
              simp [deft, Store.point, Store.clrbuf, other.symm]
            have bare : tree fs.nindir (n + 1) t.disk p = {p} := by
              rw [tree_succ free.nonzero, cleared]
              simp
            obtain ⟨ledger', path'⟩ :=
              ledger.attach free hl path hb hi hole entry away bare rfl rfl
            exact ih (sh / fs.nindir) ledger' path' free.nonzero
      · simp only [hole, ne_eq, not_false_eq_true, if_true]
        exact ih (sh / fs.nindir) ledger (path.next hb hi) hole

end Through

section Balloc

variable {fs : Fs} {env : Env} {others lost : Multiset Nat} {s : Store} {extra size : Nat}

def IndirectUnwritten (fs : Fs) (env : Env) (j sh k : Nat) (s : Store) : Prop :=
  if s.ip.ib (NIADDR - j) ≠ 0 then
    Unwritten fs env (NIADDR + 1 - j) sh k (s.ip.ib (NIADDR - j)) s
  else
    NewUnwritten fs env (NIADDR + 1 - j)
      (fun p s => Unwritten fs env (NIADDR + 1 - j) sh k p (s.indirect (NIADDR - j) p)) s

def SupplyLoses (fs : Fs) (env : Env) (bn size : Nat) (s : Store) : Prop :=
  if bn < NDADDR then DirectUnreleased fs env bn size s
  else
    match indirection fs NIADDR 1 (bn - NDADDR) with
    | none => False
    | some (j, sh, k) => IndirectUnwritten fs env j sh k s

/-- A write of a new indirect block fails, or a fragment that moves leaves a group that cannot be
read. -/
def Loses (fs : Fs) (env : Env) (bn : Int) (size : Nat) (s : Store) : Prop :=
  ¬ bn < 0 ∧ (TailUnreleased fs env bn.toNat s ∨
    match enlarge fs env bn.toNat s with
    | .error _ _ => False
    | .ok _ s => SupplyLoses fs env bn.toNat size s)

def Returns : EStateM.Result Errno Store Buf → Prop
  | .error (.panic _) _ => False
  | _ => True

instance : DecidablePred Returns
  | .ok _ _ => .isTrue trivial
  | .error (.panic _) _ => .isFalse id
  | .error .enospc _ => .isTrue trivial
  | .error .efbig _ => .isTrue trivial
  | .error .eio _ => .isTrue trivial

/-- The sizes of the direct blocks, that of the block asked for being the size of its buffer. -/
def held (fs : Fs) (bn : Int) : EStateM.Result Errno Store Buf → Nat → Nat
  | .ok bp s, i => if (i : Int) = bn then bp.bcount else fs.blksize s.ip i
  | .error _ s, i => fs.blksize s.ip i

theorem blksize_congr {ip ip' : Inode} (same : ip'.size = ip.size) :
    fs.blksize ip' = fs.blksize ip := by
  funext i
  rw [Fs.blksize, Fs.blksize, same]

theorem held_update {bn : Nat} {bp : Buf} {s' : Store} (same : s'.ip.size = s.ip.size) :
    held fs bn (.ok bp s') = Function.update (fs.blksize s.ip) bn bp.bcount := by
  funext i
  by_cases here : i = bn
  · simp [held, here]
  · simp [held, here, blksize_congr same]

theorem Strays.held {bad : Prop} {bn : Nat} {r : EStateM.Result Errno Store Buf}
    (hn : ¬ bn < NDADDR) (same : (exit r).ip.size = s.ip.size)
    (strays : Strays fs others (fs.blksize s.ip) (exit r) extra lost bad) :
    Strays fs others (held fs bn r) (exit r) extra lost bad := by
  obtain ⟨more, gone, ledger, is⟩ := strays
  refine ⟨more, gone, ledger.congr ?_, is⟩
  intro i hi _
  cases r with
  | error e s' => exact congrFun (blksize_congr same) i
  | ok bp s' =>
    have other : i ≠ bn := by omega
    have same : s'.ip.size = s.ip.size := same
    rw [held_update same, Function.update_of_ne other]

theorem indirect_strays {level : Nat} (env : Env) (sh k : Nat)
    (ledger : Ledger fs others (fs.blksize s.ip) s extra lost) (hl : level < NIADDR) :
    let r := (do
      let nb ← firstIndirect fs env (NIADDR - level)
      through fs env (NIADDR + 1 - (NIADDR - level)) sh k nb : Call Buf) s
    (exit r).ip.size = s.ip.size ∧
      Strays fs others (fs.blksize s.ip) (exit r) extra lost
        (IndirectUnwritten fs env (NIADDR - level) sh k s) := by
  have back : NIADDR - (NIADDR - level) = level := by lia
  have height : NIADDR + 1 - (NIADDR - level) = level + 1 := by lia
  intro r
  simp only [r, IndirectUnwritten, back, height]
  by_cases hole : s.ip.ib level = 0
  · have here : firstIndirect fs env (NIADDR - level) s = (do
        let nb ← newIndirect fs env (level + 1)
        modify fun s => s.indirect level nb
        return nb : Call Nat) s := by
      simp only [firstIndirect, back, height, Call.get_bind_apply, hole, ne_eq, not_true_eq_false,
        if_false]
    simp only [hole, ne_eq, not_true_eq_false, if_false, NewUnwritten]
    rcases hashalloc_cases fs env (.indirect (level + 1)) fs.bsize s with none | ⟨p, free, found⟩
    · rw [Call.bind_error (by rw [here, Call.bind_error (newIndirect_none env none)]), none]
      exact ⟨rfl, ledger.stays fun bad => bad⟩
    · rw [found]
      cases written : env.bwriteFails (.indirect (level + 1)) with
      | true =>
        rw [Call.bind_error (by
          rw [here, Call.bind_error (newIndirect_fails env free found written)])]
        exact ⟨by simp [exit, Store.release_ip, Store.charge, Inode.charge, Store.take],
          ledger.unwritten _ free (Or.inl rfl)⟩
      | false =>
        set t := (((s.take fs p fs.bsize).charge fs.bsize).clrbuf p).indirect level p with deft
        have step : firstIndirect fs env (NIADDR - level) s = .ok p t := by
          rw [here, Call.bind_ok (newIndirect_ok env found written)]
          rfl
        rw [Call.bind_ok step]
        simp only [Bool.false_eq_true, false_or]
        have cleared : t.disk p = fun _ => 0 := Function.update_self ..
        obtain ⟨ledger', path'⟩ := ledger.attach_root (t := t) free hl hole cleared
          (fun x hx => Function.update_of_ne hx ..) rfl rfl
        exact through_spec env level sh k ledger' hl path' free.nonzero
  · have here : firstIndirect fs env (NIADDR - level) s = .ok (s.ip.ib level) s := by
      simp [firstIndirect, back, hole]
    rw [Call.bind_ok here, if_pos hole]
    exact through_spec env level sh k ledger hl (.root _ _) hole

theorem supply_strays (env : Env) (bn size : Nat) (sound : Sound fs others s extra lost)
    (returns : Returns (supply fs env bn size s)) :
    Strays fs others (held fs bn (supply fs env bn size s)) (exit (supply fs env bn size s)) extra
      lost
      (SupplyLoses fs env bn size s) := by
  by_cases hn : bn < NDADDR
  · simp only [supply, SupplyLoses, if_pos hn] at returns ⊢
    have step := direct_spec env size hn sound
    cases run : direct fs env bn size s with
    | ok bp s' =>
      rw [run] at step
      rw [held_update step.1]
      exact step.2
    | error e s' =>
      rw [run] at step returns
      cases e with
      | panic text => exact returns.elim
      | _ =>
        obtain ⟨rfl, fine⟩ := step
        exact sound.ledger.stays fine
  · simp only [supply, SupplyLoses, if_neg hn]
    rcases indirection_cases fs (bn - NDADDR) with ⟨out, -⟩ | ⟨level, hl, k, -, -, found⟩
    · rw [out]
      exact sound.ledger.stays fun bad => bad
    · rw [found]
      have step := indirect_strays env (fs.nindir ^ (level + 1)) k sound.ledger hl
      exact step.2.held hn step.1

theorem Strays.after {bad then_ : Prop} {sizes : Nat → Nat} {more : Nat} {gone : Multiset Nat}
    (strays : Strays fs others sizes s (extra + more) (lost + gone) then_)
    (first : bad ↔ more ≠ 0 ∨ gone ≠ 0) : Strays fs others sizes s extra lost (bad ∨ then_) := by
  obtain ⟨more', gone', ledger, second⟩ := strays
  rw [add_assoc, add_assoc] at ledger
  refine ⟨more + more', gone + gone', ledger, ?_⟩
  have none : gone + gone' = 0 ↔ gone = 0 ∧ gone' = 0 := by
    constructor
    · intro none
      exact ⟨Multiset.le_zero.mp (none ▸ Multiset.le_add_right _ _),
        Multiset.le_zero.mp (none ▸ Multiset.le_add_left _ _)⟩
    · rintro ⟨rfl, rfl⟩
      rfl
  have charged : more + more' = 0 ↔ more = 0 ∧ more' = 0 := by lia
  rw [first, second, ne_eq (gone + gone'), none, ne_eq (more + more'), charged]
  tauto

theorem balloc_strays (env : Env) (bn : Int) (size : Nat) (sound : Sound fs others s 0 0)
    (returns : Returns (balloc fs env bn size s)) :
    Strays fs others (held fs bn (balloc fs env bn size s)) (exit (balloc fs env bn size s)) 0 0
      (Loses fs env bn size s) := by
  by_cases negative : bn < 0
  · simp only [balloc, negative, if_true]
    exact sound.ledger.stays fun bad => bad.1 negative
  · obtain ⟨n, rfl⟩ := Int.eq_ofNat_of_zero_le (not_lt.mp negative)
    simp only [balloc, negative, if_false, Loses, not_false_eq_true, true_and, Int.toNat_natCast]
      at returns ⊢
    have step := enlarge_spec env n sound
    cases run : enlarge fs env n s with
    | error e s' =>
      rw [run] at step
      rw [Call.bind_error run] at returns ⊢
      cases e with
      | panic text => exact returns.elim
      | _ =>
        obtain ⟨rfl, fine⟩ := step
        exact sound.ledger.stays fun bad => bad.elim fine id
    | ok _ s' =>
      rw [run] at step
      rw [Call.bind_ok run] at returns ⊢
      obtain ⟨⟨more, gone, ledger, first⟩, inside, ends⟩ := step
      exact (supply_strays env n size ⟨ledger, inside, ends⟩ returns).after first

/-- The inode is charged with what it refers to, and no block is taken that is not referred to,
after every return that comes by no failing write of a new indirect block and frees what it frees.
-/
theorem balloc_accounted_iff (fs : Fs) (env : Env) (others : Multiset Nat) (s : Store) (bn : Int)
    (size : Nat) (sound : Sound fs others s 0 0) (returns : Returns (balloc fs env bn size s)) :
    Accounted fs others (held fs bn (balloc fs env bn size s)) (exit (balloc fs env bn size s)) ↔
      ¬ Loses fs env bn size s := by
  obtain ⟨more, gone, ledger, loses⟩ := balloc_strays env bn size sound returns
  rw [ledger.accounted_iff, loses, zero_add, zero_add, not_or, not_not, not_not]

def emptyStore : Store where
  disk := fun _ _ => 0
  map := ∅
  ip := { isLink := false, size := 0, spare := 0, db := fun _ => 0, ib := fun _ => 0, blocks := 0 }

def twoBlocks (bwriteFails : Bool) : Env where
  B_CLRBUF := false
  breadFails := fun _ => false
  bwriteFails := fun _ => bwriteFails
  cgFails := fun _ => false
  restFails := fun _ => false
  reserve := fun _ => false
  fs_optim := fun _ => .FS_OPTTIME
  canExtend := fun _ => false
  search := fun place => if place = .data then 16 else 8

theorem emptyStore_extents (sizes : Nat → Nat) (t : Store) (db : ∀ i < NDADDR, t.ip.db i = 0)
    (ib : ∀ level < NIADDR, t.ip.ib level = 0) (fs : Fs) : extents fs sizes t = 0 := by
  have direct : directs sizes t.ip = 0 :=
    Finset.sum_eq_zero fun i hi => if_pos (db i (mem_range.mp hi))
  have indirect : trees fs t = 0 :=
    Finset.sum_eq_zero fun level hl => by rw [ib level (mem_range.mp hl), tree_zero]
  rw [extents, direct, indirect]
  rfl

theorem emptyStore_sound (fs : Fs) : Sound fs 0 emptyStore 0 0 := by
  have none := emptyStore_extents (fs.blksize emptyStore.ip) emptyStore (fun _ _ => rfl)
    (fun _ _ => rfl) fs
  refine ⟨⟨?_, ?_⟩, fun f hf => absurd hf (Finset.notMem_empty f), fun i _ some => absurd rfl some⟩
  · rw [none]
    rfl
  · rw [none]
    rfl

theorem balloc_accounted_written :
    Accounted plainFs 0 (held plainFs 12 (balloc plainFs (twoBlocks false) 12 2048 emptyStore))
      (exit (balloc plainFs (twoBlocks false) 12 2048 emptyStore)) := by
  apply (balloc_accounted_iff plainFs (twoBlocks false) 0 emptyStore 12 2048 (emptyStore_sound _)
    (by decide +kernel)).mpr
  rintro ⟨-, ⟨moves, -⟩ | loses⟩
  · exact absurd moves.2.2.2 (by decide)
  · have first : enlarge plainFs (twoBlocks false) 12 emptyStore = .ok () emptyStore := rfl
    have found : indirection plainFs NIADDR 1 0 = some (3, 512, 0) := by decide
    rw [show (12 : Int).toNat = 12 from rfl, first] at loses
    have loses : SupplyLoses plainFs (twoBlocks false) 12 2048 emptyStore := loses
    rw [SupplyLoses, if_neg (by decide), show 12 - NDADDR = 0 from rfl, found] at loses
    have loses : IndirectUnwritten plainFs (twoBlocks false) 3 512 0 emptyStore := loses
    rw [IndirectUnwritten, if_neg (by simp [emptyStore]), NewUnwritten] at loses
    split at loses
    · exact loses
    · rcases loses with unwritten | later
      · cases unwritten
      · exact later

theorem balloc_overcharges :
    Sound plainFs 0 emptyStore 0 0 ∧ Returns (balloc plainFs (twoBlocks true) 12 2048 emptyStore) ∧
      ¬ Accounted plainFs 0 (held plainFs 12 (balloc plainFs (twoBlocks true) 12 2048 emptyStore))
        (exit (balloc plainFs (twoBlocks true) 12 2048 emptyStore)) := by
  refine ⟨emptyStore_sound _, by decide +kernel, ?_⟩
  · intro accounted
    have blocks := accounted.blocks
    rw [emptyStore_extents] at blocks
    · have charged : (exit (balloc plainFs (twoBlocks true) 12 2048 emptyStore)).ip.blocks = 4 := by
        decide +kernel
      rw [charged] at blocks
      exact absurd blocks (by decide)
    · decide +kernel
    · decide +kernel

end Balloc

end FreeBsd.Ufs.Faults
