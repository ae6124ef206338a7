import FreeBsd.Kern.VfsCacheChains
import Mathlib.Data.Finset.Card
import Mathlib.Data.Finset.Range

/-! The two lists of the name cache: what each operation does to the LRU list and to the hash
chains, and which calls follow a NULL pointer. -/
namespace FreeBsd.Kern.VfsCache

open FreeBsd.Lib

section Lists

/-- `order` is the LRU list, of every entry, and `chains` the hash chains. -/
structure Linked (s : Cache) (order : List Nat) (chains : Nat → List Nat) : Prop where
  lru : s.lru.Holds order
  exactly : ∀ i, i ∈ order ↔ i < s.numcache
  hash : Hashed s.hash s.nchash (Finset.range s.numcache) chains

variable {s : Cache} {order : List Nat} {chains : Nat → List Nat} {h i : Nat} {ndp : Nameidata}
    {test : Nat → Bool}

theorem Linked.mem_order (linked : Linked s order chains) (member : i ∈ chains h) : i ∈ order :=
  (linked.exactly i).mpr (Finset.mem_range.mp (linked.hash.bounds h i member).2)

theorem length_le_of_below {l : List Nat} {n : Nat} (nodup : l.Nodup) (below : ∀ i ∈ l, i < n) :
    l.length ≤ n := by
  have subset : l.toFinset ⊆ Finset.range n := fun i member =>
    Finset.mem_range.mpr (below i (List.mem_toFinset.mp member))
  calc l.length = l.toFinset.card := (List.toFinset_card_of_nodup nodup).symm
    _ ≤ (Finset.range n).card := Finset.card_le_card subset
    _ = n := Finset.card_range n

theorem Linked.length_chain (linked : Linked s order chains) (h : Nat) :
    (chains h).length ≤ s.numcache :=
  length_le_of_below (linked.hash.nodup h) fun i member =>
    Finset.mem_range.mp (linked.hash.bounds h i member).2

theorem Linked.length_order (linked : Linked s order chains) : order.length ≤ s.numcache :=
  length_le_of_below linked.lru.nodup fun i member => (linked.exactly i).mp member

theorem bucketOf_le (s : Cache) (hash : BitVec 32) : s.bucketOf hash ≤ s.nchash := Nat.and_le_right

theorem nchinit_linked (doingcache : Bool) (desiredvnodes : Nat) :
    Linked (nchinit doingcache desiredvnodes) [] fun _ => [] where
  lru := ⟨rfl, rfl, List.nodup_nil⟩
  exactly i := by simp [nchinit]
  hash :=
    { chain := fun h within => by
        refine ⟨?_, by simp⟩
        simp only [nchinit] at within
        simp [nchinit, initHead, within]
      bounds := fun _ _ member => absurd member List.not_mem_nil
      apart := fun _ _ _ member => absurd member List.not_mem_nil
      loose := fun i alive => by simp [nchinit] at alive }

theorem Linked.order_of_one (linked : Linked s order chains) (one : s.numcache = 1) :
    order = [0] := by
  have exactly (i : Nat) : i ∈ order ↔ i = 0 := by rw [linked.exactly, one, Nat.lt_one_iff]
  cases order with
  | nil => exact absurd ((exactly 0).mpr rfl) List.not_mem_nil
  | cons i l =>
    obtain rfl := (exactly i).mp List.mem_cons_self
    have fresh := (List.nodup_cons.mp linked.lru.nodup).1
    cases l with
    | nil => rfl
    | cons j l =>
      obtain rfl := (exactly j).mp (List.mem_cons_of_mem _ List.mem_cons_self)
      exact absurd List.mem_cons_self fresh

theorem Linked.one_of_order {i : Nat} (linked : Linked s [i] chains) : s.numcache = 1 ∧ i = 0 := by
  have exactly (k : Nat) : k = i ↔ k < s.numcache := by rw [← linked.exactly, List.mem_singleton]
  have below := (exactly i).mp rfl
  have zero := (exactly 0).mpr (by lia)
  by_cases more : 1 < s.numcache
  · have one := (exactly 1).mpr more
    lia
  · lia

/-- The scan from an entry of a chain on finds what the rest of the chain has. -/
theorem scan_suffix {l r : List Nat} (within : h ≤ s.nchash) (linked : Linked s order chains)
    (here : chains h = l ++ r) {fuel : Nat} (enough : r.length < fuel) :
    scan s h test fuel ((r.map Nch.entry).headD (.bucket h)) = some (r.find? test) := by
  induction r generalizing l fuel with
  | nil =>
    obtain ⟨fuel, rfl⟩ := Nat.exists_eq_succ_of_ne_zero (Nat.ne_of_gt enough)
    exact if_pos rfl
  | cons i r ih =>
    obtain ⟨fuel, rfl⟩ :=
      Nat.exists_eq_succ_of_ne_zero (Nat.ne_of_gt (Nat.lt_of_le_of_lt (Nat.zero_le _) enough))
    have chain := linked.hash.chain h within
    rw [here, List.map_append, List.map_cons] at chain
    have next := chain.next_of
    have rest := ih (l := l ++ [i]) (by rw [here, List.append_assoc, List.singleton_append])
      (Nat.lt_of_succ_lt_succ enough)
    rw [List.map_cons, List.headD_cons, scan, if_neg (by simp), next, rest, List.find?_cons]
    cases test i <;> rfl

theorem scan_spec (linked : Linked s order chains) (within : h ≤ s.nchash) :
    scan s h test (s.numcache + 1) (s.hash.forw (.bucket h)) = some ((chains h).find? test) := by
  rw [(linked.hash.chain h within).next_head]
  exact scan_suffix (l := []) within linked rfl (Nat.lt_succ_of_le (linked.length_chain h))

theorem touch_spec (linked : Linked s order chains) (member : i ∈ order) :
    ∃ lru order', touch s i = some { s with lru } ∧ Linked { s with lru } order' chains := by
  obtain ⟨l, r, rfl⟩ := List.append_of_mem member
  have next := linked.lru.next
  unfold touch
  cases r with
  | nil =>
    rw [next]
    exact ⟨s.lru, _, rfl, linked⟩
  | cons j r =>
    rw [next]
    obtain ⟨lru, removed, holds⟩ := Tailq.remove_spec linked.lru
    have fresh : i ∉ l ++ j :: r :=
      (List.nodup_cons.mp (List.perm_middle.nodup_iff.mp linked.lru.nodup)).1
    refine ⟨lru.insertTail i, (l ++ j :: r) ++ [i], congrArg (Option.map _) removed, ?_⟩
    refine ⟨Tailq.insertTail_spec holds fresh, fun k => ?_, linked.hash⟩
    refine Iff.trans ?_ (linked.exactly k)
    simp only [List.mem_append, List.mem_cons]
    tauto

theorem drop_none (linked : Linked s [i] chains) : drop s i = none := by
  obtain ⟨lru, removed, holds⟩ := Tailq.remove_spec (l := []) linked.lru
  obtain ⟨hash, unlinked, -⟩ :=
    linked.hash.remque (Finset.mem_range.mpr ((linked.exactly i).mp List.mem_cons_self))
  unfold drop
  rw [removed, Option.bind_some, unlinked, Option.bind_some, Tailq.insertHead_none holds]
  rfl

theorem erase_append {l r : List Nat} (nodup : (l ++ i :: r).Nodup) :
    (l ++ i :: r).erase i = l ++ r := by
  have fresh : i ∉ l := fun member => (List.nodup_append.mp nodup).2.2 i member i List.mem_cons_self
    rfl
  rw [List.erase_append_right _ fresh, List.erase_cons_head]

theorem drop_spec (linked : Linked s order chains) (member : i ∈ order) (others : order ≠ [i]) :
    ∃ lru hash, drop s i = some { s with lru, hash } ∧
      Linked { s with lru, hash } (i :: order.erase i) (without chains i) := by
  obtain ⟨l, r, rfl⟩ := List.append_of_mem member
  have below := (linked.exactly i).mp member
  obtain ⟨lru, removed, holds⟩ := Tailq.remove_spec linked.lru
  obtain ⟨hash, unlinked, hashed⟩ := linked.hash.remque (Finset.mem_range.mpr below)
  have nodup := linked.lru.nodup
  have fresh : i ∉ l ++ r := (List.nodup_cons.mp (List.perm_middle.nodup_iff.mp nodup)).1
  obtain ⟨j, rest, some⟩ : ∃ j rest, l ++ r = j :: rest := by
    cases front : l ++ r with
    | nil =>
      obtain ⟨rfl, rfl⟩ := List.append_eq_nil_iff.mp front
      exact absurd rfl others
    | cons j rest => exact ⟨j, rest, rfl⟩
  rw [erase_append nodup]
  rw [some] at holds fresh ⊢
  obtain ⟨lru', inserted, holds'⟩ := Tailq.insertHead_spec holds fresh
  refine ⟨lru', hash.dummy (.entry i), ?_, holds', fun k => ?_, ?_⟩
  · unfold drop
    rw [removed, Option.bind_some, unlinked, Option.bind_some, inserted]
    rfl
  · refine Iff.trans ?_ (linked.exactly k)
    rw [← some]
    simp only [List.mem_cons, List.mem_append]
    tauto
  · have again := hashed.dummy (Finset.notMem_erase i _)
    rw [Finset.insert_erase (Finset.mem_range.mpr below)] at again
    exact again

end Lists

section Operations

variable {s : Cache} {order : List Nat} {chains : Nat → List Nat} {i : Nat} {ndp : Nameidata}

def Dropped (s : Cache) (ndp : Nameidata) (i : Nat) : Prop :=
  ndp.niMakeentry = 0 ∨
    match (s.cache i).ncVp with
    | none => ndp.niNameiop &&& OPMASK = CREATE
    | some vp => (s.cache i).ncVpid ≠ s.vId vp

def Searched (s : Cache) (ndp : Nameidata) : Prop :=
  s.doingcache = true ∧ ndp.niPtr.length ≤ NCHNAMLEN

theorem cacheLookup_unsearched (off : ¬ Searched s ndp) :
    ∃ makeentry, cacheLookup s ndp = some (0, { ndp with niMakeentry := makeentry }, s) ∧
      (s.doingcache = true → makeentry = 0) := by
  unfold cacheLookup
  by_cases active : s.doingcache = true
  · have long : ndp.niPtr.length > NCHNAMLEN := Nat.lt_of_not_le fun short => off ⟨active, short⟩
    rw [if_neg (fun wrong => wrong active), if_pos long]
    exact ⟨0, rfl, fun _ => rfl⟩
  · rw [if_pos active]
    exact ⟨ndp.niMakeentry, rfl, fun wrong => absurd wrong active⟩

theorem cacheLookup_searched (linked : Linked s order chains) (searched : Searched s ndp) :
    cacheLookup s ndp = match (chains (s.bucketOf ndp.niHash)).find? (s.isEntry ndp) with
      | none => some (0, ndp, s)
      | some i =>
        if ndp.niMakeentry = 0 then (drop s i).map fun s => (0, ndp, s)
        else match (s.cache i).ncVp with
          | none =>
            if ndp.niNameiop &&& OPMASK ≠ CREATE then (touch s i).map fun s => (ENOENT, ndp, s)
            else (drop s i).map fun s => (0, ndp, s)
          | some vp =>
            if (s.cache i).ncVpid ≠ s.vId vp then (drop s i).map fun s => (0, ndp, s)
            else (touch s i).map fun s => (-1, { ndp with niVp := some vp }, s) := by
  unfold cacheLookup
  rw [if_neg (fun wrong => wrong searched.1), if_neg (Nat.not_lt_of_le searched.2)]
  dsimp only
  rw [scan_spec linked (bucketOf_le s _)]
  exact Option.bind_some ..

theorem cacheLookup_miss (linked : Linked s order chains) (searched : Searched s ndp)
    (missing : (chains (s.bucketOf ndp.niHash)).find? (s.isEntry ndp) = none) :
      cacheLookup s ndp = some (0, ndp, s) := by
  rw [cacheLookup_searched linked searched, missing]

theorem cacheLookup_dropped (linked : Linked s order chains) (searched : Searched s ndp)
    (found : (chains (s.bucketOf ndp.niHash)).find? (s.isEntry ndp) = some i)
    (dropped : Dropped s ndp i) :
    cacheLookup s ndp = (drop s i).map fun s => (0, ndp, s) := by
  rw [cacheLookup_searched linked searched, found]
  dsimp only
  by_cases clear : ndp.niMakeentry = 0
  · exact if_pos clear
  · rw [if_neg clear]
    have kind := dropped.resolve_left clear
    cases entry : (s.cache i).ncVp with
    | none =>
      rw [entry] at kind
      exact if_neg (fun wrong => wrong kind)
    | some vp =>
      rw [entry] at kind
      exact if_pos kind

theorem cacheLookup_hit (linked : Linked s order chains) (searched : Searched s ndp)
    (found : (chains (s.bucketOf ndp.niHash)).find? (s.isEntry ndp) = some i)
    (kept : ¬ Dropped s ndp i) :
    ndp.niMakeentry ≠ 0 ∧
      ((s.cache i).ncVp = none ∧ cacheLookup s ndp = (touch s i).map (fun s => (ENOENT, ndp, s)) ∨
        ∃ vp, (s.cache i).ncVp = some vp ∧ (s.cache i).ncVpid = s.vId vp ∧
          cacheLookup s ndp = (touch s i).map fun s => (-1, { ndp with niVp := some vp }, s)) := by
  obtain ⟨set, kind⟩ := not_or.mp kept
  refine ⟨set, ?_⟩
  rw [cacheLookup_searched linked searched, found]
  dsimp only
  rw [if_neg set]
  cases entry : (s.cache i).ncVp with
  | none =>
    rw [entry] at kind
    exact .inl ⟨rfl, if_pos kind⟩
  | some vp =>
    rw [entry] at kind
    have valid := not_not.mp kind
    exact .inr ⟨vp, rfl, valid, if_neg (fun wrong => wrong valid)⟩

theorem fillSlot_spec {live : Finset Nat} (holds : s.lru.Holds order)
    (hashed : Hashed s.hash s.nchash live chains) (fresh : i ∉ order) (unhashed : i ∉ live)
    (all : ∀ k, k ∈ order ∨ k = i ↔ k < s.numcache)
    (whole : insert i live = Finset.range s.numcache) :
    ∃ hash, fillSlot s i ndp =
        some { s with cache := Function.update s.cache i (s.slotFor ndp), lru := s.lru.insertTail i,
                      hash } ∧
      Linked { s with cache := Function.update s.cache i (s.slotFor ndp), lru := s.lru.insertTail i,
                      hash } (order ++ [i])
        (Function.update chains (s.bucketOf ndp.niHash) (i :: chains (s.bucketOf ndp.niHash))) := by
  obtain ⟨hash, inserted, linked⟩ := hashed.insque unhashed (bucketOf_le s ndp.niHash)
  refine ⟨hash, ?_, Tailq.insertTail_spec holds fresh, fun k => ?_, ?_⟩
  · unfold fillSlot
    rw [inserted]
    rfl
  · rw [List.mem_append, List.mem_singleton]
    exact all k
  · rw [whole] at linked
    exact linked

/-- The chains when entry `i` has been filled for the name. -/
def entered (s : Cache) (chains : Nat → List Nat) (ndp : Nameidata) (i : Nat) : Nat → List Nat :=
  Function.update (without chains i) (s.bucketOf ndp.niHash)
    (i :: without chains i (s.bucketOf ndp.niHash))

theorem cacheEnter_spec (linked : Linked s order chains) (ndp : Nameidata) :
    cacheEnter s ndp = some s ∧ (s.doingcache = true → ∀ h, chains h = []) ∨
      s.doingcache = true ∧ ∃ i lru hash numcache order', cacheEnter s ndp =
          some { s with numcache, cache := Function.update s.cache i (s.slotFor ndp), lru, hash } ∧
        Linked { s with numcache, cache := Function.update s.cache i (s.slotFor ndp), lru, hash }
          order'
          (entered s chains ndp i) := by
  unfold cacheEnter
  by_cases active : s.doingcache = true
  · rw [if_neg (fun wrong => wrong active)]
    by_cases room : s.numcache < s.desiredvnodes
    · rw [if_pos room]
      refine .inr ⟨active, ?_⟩
      have unhashed : s.numcache ∉ Finset.range s.numcache := Finset.notMem_range_self
      have away (h : Nat) : s.numcache ∉ chains h :=
        fun member => unhashed (linked.hash.bounds h _ member).2
      obtain ⟨hash, filled, after⟩ := @fillSlot_spec { s with numcache := s.numcache + 1 }
        order chains s.numcache ndp
        (Finset.range s.numcache) linked.lru linked.hash
        (fun member => absurd ((linked.exactly _).mp member) (Nat.lt_irrefl _)) unhashed
        (fun k => by rw [linked.exactly]; exact Nat.lt_succ_iff_lt_or_eq.symm)
          Finset.range_add_one.symm
      refine ⟨s.numcache, _, hash, s.numcache + 1, order ++ [s.numcache], filled, ?_⟩
      rw [entered, without_eq away]
      exact after
    · rw [if_neg room, linked.lru.head]
      cases order with
      | nil =>
        refine .inl ⟨rfl, fun _ h => List.eq_nil_iff_forall_not_mem.mpr fun i member => ?_⟩
        exact absurd (linked.mem_order member) List.not_mem_nil
      | cons i order =>
        refine .inr ⟨active, ?_⟩
        have below := (linked.exactly i).mp List.mem_cons_self
        obtain ⟨lru, removed, holds⟩ := Tailq.remove_spec (l := []) linked.lru
        obtain ⟨hash, unlinked, hashed⟩ := linked.hash.remque (Finset.mem_range.mpr below)
        obtain ⟨hash', filled, after⟩ :=
          @fillSlot_spec { s with lru, hash } order (without chains i) i ndp
            ((Finset.range s.numcache).erase i) holds hashed (List.nodup_cons.mp linked.lru.nodup).1
          (Finset.notMem_erase i _)
          (fun k => by rw [← linked.exactly k, List.mem_cons, or_comm])
          (Finset.insert_erase (Finset.mem_range.mpr below))
        refine ⟨i, _, hash', s.numcache, order ++ [i], ?_, after⟩
        dsimp only [List.head?_cons]
        rw [removed, Option.bind_some, unlinked, Option.bind_some, filled]
        rfl
  · rw [if_pos active]
    exact .inl ⟨rfl, fun wrong => absurd wrong active⟩

theorem Linked.refill (linked : Linked s order chains) (cache : Nat → Namecache) :
    Linked { s with cache } order chains :=
  ⟨linked.lru, linked.exactly, linked.hash⟩

theorem clearChain_suffix {l r : List Nat} {h : Nat} (within : h ≤ s.nchash)
    (linked : Linked s order chains) (here : chains h = l ++ r) {fuel : Nat}
    (enough : r.length < fuel) :
    ∃ cache, clearChain h fuel s ((r.map Nch.entry).headD (.bucket h)) = some { s with cache } := by
  induction r generalizing l s fuel with
  | nil =>
    obtain ⟨fuel, rfl⟩ := Nat.exists_eq_succ_of_ne_zero (Nat.ne_of_gt enough)
    exact ⟨s.cache, if_pos rfl⟩
  | cons i r ih =>
    obtain ⟨fuel, rfl⟩ :=
      Nat.exists_eq_succ_of_ne_zero (Nat.ne_of_gt (Nat.lt_of_le_of_lt (Nat.zero_le _) enough))
    have chain := linked.hash.chain h within
    rw [here, List.map_append, List.map_cons] at chain
    have next := chain.next_of
    let cache := Function.update s.cache i { s.cache i with ncVpid := 0, ncDvpid := 0 }
    obtain ⟨last, rest⟩ := ih (s := { s with cache }) (l := l ++ [i]) within (linked.refill cache)
      (by rw [here, List.append_assoc, List.singleton_append]) (Nat.lt_of_succ_lt_succ enough)
    rw [List.map_cons, List.headD_cons, clearChain, if_neg (by simp), next]
    exact ⟨last, rest⟩

theorem clearChains_spec (linked : Linked s order chains) {n : Nat} (within : n ≤ s.nchash + 1) :
    ∃ cache, clearChains n s = some { s with cache } := by
  induction n generalizing s with
  | zero => exact ⟨s.cache, rfl⟩
  | succ n ih =>
    have inside : n ≤ s.nchash := Nat.le_of_succ_le_succ within
    obtain ⟨cache, first⟩ :=
      clearChain_suffix (l := []) inside linked rfl (Nat.lt_succ_of_le (linked.length_chain n))
    obtain ⟨last, rest⟩ := ih (linked.refill cache) (Nat.le_of_succ_le within)
    refine ⟨last, ?_⟩
    rw [clearChains, (linked.hash.chain n inside).next_head, first]
    exact rest

theorem cachePurge_spec (linked : Linked s order chains) (vp : Vnode) :
    ∃ s', cachePurge s vp = some s' ∧ Linked s' order chains := by
  have renumbered : Linked (renumber s vp) order chains := ⟨linked.lru, linked.exactly, linked.hash⟩
  unfold cachePurge
  by_cases plain : (renumber s vp).nextvnodeid ≠ 0
  · exact ⟨_, if_pos plain, renumbered⟩
  · obtain ⟨cache, cleared⟩ := clearChains_spec renumbered (Nat.le_refl _)
    have refilled := renumbered.refill cache
    refine ⟨renumber { renumber s vp with cache } vp, ?_, refilled.lru, refilled.exactly,
      refilled.hash⟩
    dsimp only
    rw [if_neg plain, cleared]
    rfl

end Operations

section Unmount

variable {s : Cache} {order : List Nat} {chains : Nat → List Nat} {i : Nat} {mp : Mount}
    {vMount : Vnode → Mount}

def OnMount (s : Cache) (mp : Mount) (vMount : Vnode → Mount) (i : Nat) : Prop :=
  ∃ dvp, (s.cache i).ncDvp = some dvp ∧ vMount dvp = mp

instance (s : Cache) (mp : Mount) (vMount : Vnode → Mount) (i : Nat) :
    Decidable (OnMount s mp vMount i) :=
  decidable_of_iff ((s.cache i).ncDvp.any fun dvp => vMount dvp = mp) (by
    cases entry : (s.cache i).ncDvp <;> simp [OnMount, entry])

theorem all_off (s : Cache) (mp : Mount) (vMount : Vnode → Mount) (i : Nat) :
    ((s.cache i).ncDvp.all fun dvp => vMount dvp ≠ mp) = true ↔ ¬ OnMount s mp vMount i := by
  cases entry : (s.cache i).ncDvp <;> simp [OnMount, entry]

def matching (s : Cache) (mp : Mount) (vMount : Vnode → Mount) : Finset Nat :=
  (Finset.range s.numcache).filter (OnMount s mp vMount)

theorem mem_matching : i ∈ matching s mp vMount ↔ i < s.numcache ∧ OnMount s mp vMount i := by
  rw [matching, Finset.mem_filter, Finset.mem_range]

/-- The caches differ in their links, and in entries that are on no hash chain. -/
structure Fewer (s : Cache) (chains : Nat → List Nat) (s' : Cache) (chains' : Nat → List Nat) :
    Prop where
  same : s' = { s with lru := s'.lru, hash := s'.hash, cache := s'.cache }
  kept : ∀ h, ∀ j ∈ chains' h, j ∈ chains h ∧ s'.cache j = s.cache j

structure Unmounted (mp : Mount) (vMount : Vnode → Mount) (s : Cache) (chains : Nat → List Nat)
    (s' : Cache) (chains' : Nat → List Nat) : Prop extends Fewer s chains s' chains' where
  gone : ∀ h, ∀ j ∈ chains' h, ¬ OnMount s' mp vMount j

def freeSlot (s : Cache) (i : Nat) (lru : Tailq Nat) (hash : Links) : Cache :=
  { s with lru, hash, cache := Function.update s.cache i { s.cache i with ncVp := none,
                                                                          ncDvp := none } }

theorem freeSlot_self (s : Cache) (i : Nat) (lru : Tailq Nat) (hash : Links) :
    ¬ OnMount (freeSlot s i lru hash) mp vMount i := by
  simp [OnMount, freeSlot]

theorem freeSlot_other {j : Nat} (s : Cache) (lru : Tailq Nat) (hash : Links) (other : j ≠ i) :
    OnMount (freeSlot s i lru hash) mp vMount j ↔ OnMount s mp vMount j := by
  simp [OnMount, freeSlot, other]

theorem card_freeSlot (lru : Tailq Nat) (hash : Links) (below : i < s.numcache)
    (on : OnMount s mp vMount i) :
    (matching (freeSlot s i lru hash) mp vMount).card + 1 = (matching s mp vMount).card := by
  have member : i ∈ matching s mp vMount := mem_matching.mpr ⟨below, on⟩
  have erased : matching (freeSlot s i lru hash) mp vMount = (matching s mp vMount).erase i := by
    ext j
    rw [mem_matching, Finset.mem_erase, mem_matching]
    by_cases same : j = i
    · subst same
      exact ⟨fun wrong => absurd wrong.2 (freeSlot_self s j lru hash),
        fun wrong => absurd rfl wrong.1⟩
    · rw [freeSlot_other s lru hash same]
      exact ⟨fun both => ⟨same, both⟩, fun both => both.2⟩
  rw [erased, Finset.card_erase_add_one member]

/-- One slot of the file system: it is freed, and the scan goes on with the old head. -/
theorem purgeSlots_free {l r : List Nat} (linked : Linked s (l ++ i :: r) chains)
    (on : OnMount s mp vMount i) (others : s.numcache ≠ 1) : ∃ lru hash j rest, l ++ r = j :: rest ∧
      Linked (freeSlot s i lru hash) (i :: j :: rest) (without chains i) ∧
      ∀ fuel, purgeSlots mp vMount (fuel + 1) s (some i) =
        purgeSlots mp vMount fuel (freeSlot s i lru hash) (some j) := by
  have below : i < s.numcache := (linked.exactly i).mp (by simp)
  obtain ⟨hash, unlinked, hashed⟩ := linked.hash.remque (Finset.mem_range.mpr below)
  obtain ⟨lru, removed, holds⟩ := Tailq.remove_spec linked.lru
  have fresh : i ∉ l ++ r := (List.nodup_cons.mp (List.perm_middle.nodup_iff.mp linked.lru.nodup)).1
  obtain ⟨j, rest, left⟩ : ∃ j rest, l ++ r = j :: rest := by
    cases front : l ++ r with
    | nil =>
      obtain ⟨rfl, rfl⟩ := List.append_eq_nil_iff.mp front
      have only (k : Nat) (small : k < s.numcache) :
        k = i := List.mem_singleton.mp ((linked.exactly k).mpr small)
      have zero := only 0 (by lia)
      have one := only 1 (by lia)
      lia
    | cons j rest => exact ⟨j, rest, rfl⟩
  rw [left] at holds fresh
  obtain ⟨lru', inserted, holds'⟩ := Tailq.insertHead_spec holds fresh
  refine ⟨lru', hash.dummy (.entry i), j, rest, left, ⟨holds', fun k => ?_, ?_⟩, fun fuel => ?_⟩
  · refine Iff.trans ?_ (linked.exactly k)
    rw [← left]
    simp only [List.mem_cons, List.mem_append]
    tauto
  · have again := hashed.dummy (Finset.notMem_erase i _)
    rw [Finset.insert_erase (Finset.mem_range.mpr below)] at again
    exact again
  · have head : lru.link .head = some j := holds.head
    rw [purgeSlots, if_neg (by rw [all_off]; exact not_not.mpr on), unlinked, Option.bind_some]
    dsimp only
    rw [removed, Option.bind_some, inserted, Option.bind_some, head]
    rfl

theorem purgeSlots_spec {l r : List Nat} {fuel : Nat} (linked : Linked s (l ++ r) chains)
    (scanned : ∀ j ∈ l, ¬ OnMount s mp vMount j)
    (spared : s.numcache = 1 → ∀ j ∈ r, ¬ OnMount s mp vMount j)
    (enough : (matching s mp vMount).card * (s.numcache + 1) + r.length < fuel) :
    ∃ s' order' chains', purgeSlots mp vMount fuel s r.head? = some s' ∧ Linked s' order' chains' ∧
      Unmounted mp vMount s chains s' chains' := by
  induction fuel generalizing s l r chains with
  | zero => exact absurd enough (Nat.not_lt_zero _)
  | succ fuel ih =>
    cases r with
    | nil =>
      refine ⟨s, _, chains, rfl, linked, ⟨rfl, fun h j member => ⟨member, rfl⟩⟩,
        fun h j member => ?_⟩
      have inside := linked.mem_order member
      rw [List.append_nil] at inside
      exact scanned j inside
    | cons i r =>
      rw [List.head?_cons]
      by_cases on : OnMount s mp vMount i
      · have others : s.numcache ≠ 1 := fun one => spared one i List.mem_cons_self on
        obtain ⟨lru, hash, j, rest, left, after, goes⟩ := purgeSlots_free linked on others
        have below : i < s.numcache := (linked.exactly i).mp (by simp)
        have fewer := @card_freeSlot s i mp vMount lru hash below on
        have short := after.length_order
        have budget : (matching (freeSlot s i lru hash) mp vMount).card * (s.numcache + 1) +
            (j :: rest).length < fuel := by
          rw [← fewer, Nat.add_mul, Nat.one_mul] at enough
          rw [List.length_cons] at short
          have size : (freeSlot s i lru hash).numcache = s.numcache := rfl
          rw [size] at short
          lia
        obtain ⟨s', order', chains', done, linked', unmounted⟩ := ih (l := [i]) after
          (fun k member => by rw [List.mem_singleton.mp member]; exact freeSlot_self s i lru hash)
          (fun one => absurd one others) budget
        refine ⟨s', order', chains', (goes fuel).trans done, linked', ⟨?_, ?_⟩, unmounted.gone⟩
        · exact unmounted.same
        · intro h k member
          obtain ⟨inside, same⟩ := unmounted.kept h k member
          obtain ⟨old, other⟩ := mem_without.mp inside
          exact ⟨old, same.trans (Function.update_of_ne other _ _)⟩
      · have next := linked.lru.next
        have linked' : Linked s ((l ++ [i]) ++ r) chains := by
          rw [List.append_assoc, List.singleton_append]
          exact linked
        obtain ⟨s', order', chains', done, rest⟩ := ih (l := l ++ [i]) linked'
          (fun k member => by
            rcases List.mem_append.mp member with before | here
            · exact scanned k before
            · rw [List.mem_singleton.mp here]
              exact on)
          (fun one k member => spared one k (List.mem_cons_of_mem _ member))
          (by rw [List.length_cons] at enough; lia)
        refine ⟨s', order', chains', ?_, rest⟩
        rw [purgeSlots, if_pos ((all_off s mp vMount i).mpr on), next]
        exact done

theorem cachePurgevfs_spec (linked : Linked s order chains)
    (spared : s.numcache = 1 → ∀ i ∈ order, ¬ OnMount s mp vMount i) :
    ∃ s' order' chains', cachePurgevfs s mp vMount = some s' ∧ Linked s' order' chains' ∧
      Unmounted mp vMount s chains s' chains' := by
  unfold cachePurgevfs
  rw [linked.lru.head]
  refine purgeSlots_spec (l := []) linked (fun j member => absurd member List.not_mem_nil) spared ?_
  have few : (matching s mp vMount).card ≤ s.numcache :=
    (Finset.card_filter_le _ _).trans (Finset.card_range _).le
  have short := linked.length_order
  calc (matching s mp vMount).card * (s.numcache + 1) + order.length
      ≤ s.numcache * (s.numcache + 1) + s.numcache :=
        Nat.add_le_add (Nat.mul_le_mul_right _ few) short
    _ < (s.numcache + 1) * (s.numcache + 1) := by rw [Nat.add_mul s.numcache 1, Nat.one_mul]; omega

theorem cachePurgevfs_none (linked : Linked s [i] chains) (on : OnMount s mp vMount i) :
    cachePurgevfs s mp vMount = none := by
  have below : i < s.numcache := (linked.exactly i).mp List.mem_cons_self
  obtain ⟨hash, unlinked, -⟩ := linked.hash.remque (Finset.mem_range.mpr below)
  obtain ⟨lru, removed, holds⟩ := Tailq.remove_spec (l := []) linked.lru
  unfold cachePurgevfs
  rw [linked.lru.head, List.head?_cons, Nat.add_mul s.numcache 1, Nat.one_mul, ← Nat.add_assoc,
    purgeSlots, if_neg (by rw [all_off]; exact not_not.mpr on), unlinked, Option.bind_some]
  dsimp only
  rw [removed, Option.bind_some, Tailq.insertHead_none holds]
  rfl

theorem cachePurgevfs_cases (linked : Linked s order chains) (mp : Mount) (vMount : Vnode → Mount) :
    s.numcache = 1 ∧ OnMount s mp vMount 0 ∧ cachePurgevfs s mp vMount = none ∨
      (s.numcache = 1 → ¬ OnMount s mp vMount 0) ∧
        ∃ s' order' chains', cachePurgevfs s mp vMount = some s' ∧
        Linked s' order' chains' ∧ Unmounted mp vMount s chains s' chains' := by
  by_cases only : s.numcache = 1 ∧ OnMount s mp vMount 0
  · obtain ⟨one, on⟩ := only
    obtain rfl := linked.order_of_one one
    exact .inl ⟨one, on, cachePurgevfs_none linked on⟩
  · have spared (one : s.numcache = 1) : ¬ OnMount s mp vMount 0 := fun on => only ⟨one, on⟩
    refine .inr ⟨spared, cachePurgevfs_spec linked fun one i member => ?_⟩
    obtain rfl := linked.order_of_one one
    rw [List.mem_singleton.mp member]
    exact spared one

end Unmount

end FreeBsd.Kern.VfsCache
