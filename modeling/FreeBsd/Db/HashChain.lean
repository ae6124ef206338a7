import Mathlib.Data.List.Nodup
import FreeBsd.Db.HashLive
import FreeBsd.Lib.Exits
import FreeBsd.Db.HashSplit

/-! The buffers of a table as chains of pages, one for each bucket, and one more for the pages that
a split is emptying. -/
namespace FreeBsd.Db

open FreeBsd.Lib

abbrev Nodes := List (Nat × List Pair)

variable {s t : Hashp} {b next addr : Nat} {l : List Pair} {c c' rest : Nodes} {p : HashPage}

section Linked

def Nodes.ids (c : Nodes) : List Nat := c.map Prod.fst

def Nodes.pairs (c : Nodes) : List Pair := c.flatMap Prod.snd

def Hashp.linkOf (s : Hashp) (c : Nodes) :
    Option Nat := c.head?.map fun node => (s.bufs node.1).addr

/-- Each page holds its pairs and the address of the next page, and the buffer points to the next
buffer. -/
def Linked (s : Hashp) : Nodes → Prop
  | [] => True
  | (b, l) :: rest => (s.page b).Holds s.bsize l (s.linkOf rest) ∧
      (∀ node, rest.head? = some node → (s.bufs b).ovfl = some node.1) ∧ Linked s rest

theorem Linked.congr (linked : Linked s c) (size : t.bsize = s.bsize)
    (same : ∀ i ∈ c.ids, t.bufs i = s.bufs i) :
    Linked t c := by
  induction c with
  | nil => trivial
  | cons node rest ih =>
    obtain ⟨b, l⟩ := node
    obtain ⟨holds, pointed, later⟩ := linked
    have here := same b List.mem_cons_self
    have others : ∀ i ∈ Nodes.ids rest, t.bufs i = s.bufs i :=
      fun i member => same i (List.mem_cons_of_mem _ member)
    have link : t.linkOf rest = s.linkOf rest := by
      cases rest with
      | nil => rfl
      | cons node rest =>
        change some (t.bufs node.1).addr = some (s.bufs node.1).addr
        rw [others node.1 List.mem_cons_self]
    refine ⟨?_, ?_, ih later others⟩
    · rw [Hashp.page, here, size, link]
      exact holds
    · rw [here]
      exact pointed

theorem Linked.at (linked : Linked s (c ++ (b, l) :: rest)) :
    (s.page b).Holds s.bsize l (s.linkOf rest) ∧
      (∀ node, rest.head? = some node → (s.bufs b).ovfl = some node.1) ∧ Linked s rest := by
  induction c with
  | nil => exact linked
  | cons node c ih => exact ih linked.2.2

/-- The pages before one keep their place when that page keeps its address. -/
theorem Linked.replace {l' : List Pair} {rest' : Nodes} (linked : Linked s (c ++ (b, l) :: rest))
    (size : t.bsize = s.bsize) (same : ∀ i ∈ c.ids, t.bufs i = s.bufs i)
    (address : (t.bufs b).addr = (s.bufs b).addr) (later : Linked t ((b, l') :: rest')) :
      Linked t (c ++ (b, l') :: rest') := by
  induction c with
  | nil => exact later
  | cons node c ih =>
    obtain ⟨i, pairs⟩ := node
    obtain ⟨holds, pointed, behind⟩ := linked
    have here := same i List.mem_cons_self
    have others : ∀ i ∈ Nodes.ids c, t.bufs i = s.bufs i :=
      fun i member => same i (List.mem_cons_of_mem _ member)
    have link : t.linkOf (c ++ (b, l') :: rest') = s.linkOf (c ++ (b, l) :: rest) := by
      cases c with
      | nil =>
        change some (t.bufs b).addr = some (s.bufs b).addr
        rw [address]
      | cons node c =>
        change some (t.bufs node.1).addr = some (s.bufs node.1).addr
        rw [others node.1 List.mem_cons_self]
    refine ⟨?_, ?_, ih behind others⟩
    · change (t.page i).Holds t.bsize pairs (t.linkOf (c ++ (b, l') :: rest'))
      rw [Hashp.page, here, size, link]
      exact holds
    · rw [here]
      intro node first
      cases c with
      | nil =>
        cases first
        exact pointed (b, l) rfl
      | cons node' c => exact pointed node first

theorem Linked.tail (linked : Linked s ((b, l) :: rest)) : Linked s rest := linked.2.2

theorem Linked.getOvfl {l' : List Pair} (linked : Linked s (c ++ (b, l) :: (next, l') :: rest)) :
    s.getOvfl (s.bufs next).addr b = (s, next) := by
  obtain ⟨-, pointed, -⟩ := linked.at
  rw [Hashp.getOvfl, pointed (next, l') rfl, Option.filter_some, if_pos (by simp)]

end Linked

section Arranged

def Hashp.live (s : Hashp) :
    Set Nat := { a | a ≠ 0 ∧ ∃ b < s.made, (s.bufs b).bucket = false ∧ (s.bufs b).addr = a }

def Hashp.IsOvfl (s : Hashp) (b : Nat) : Prop := (s.bufs b).bucket = false ∧ (s.bufs b).addr ≠ 0

/-- Links between buffers lead to overflow pages only, and no two of those in use have one address.
-/
structure Hashp.Sane (s : Hashp) : Prop where
  wide : 6 ≤ s.bsize
  small : s.bsize < 2 ^ 16
  ovfl : ∀ b < s.made, ∀ next, (s.bufs b).ovfl = some next → next < s.made ∧
    (s.bufs next).bucket = false
  apart : ∀ b < s.made, ∀ b' < s.made, s.IsOvfl b → s.IsOvfl b' →
    (s.bufs b).addr = (s.bufs b').addr → b = b'
  table : Table.Distinct ⟨s.htab, s.live⟩

/-- Each buffer has at most one place in the chains, and the first one of a bucket is in the
directory. -/
structure Hashp.Indexed (s : Hashp) (ids : Option Nat → List Nat) : Prop where
  dir : ∀ bucket, s.dir bucket = (ids (some bucket)).head?
  nodup : ∀ k, (ids k).Nodup
  apart : ∀ k k' i, i ∈ ids k → i ∈ ids k' → k = k'
  made : ∀ k, ∀ i ∈ ids k, i < s.made
  tails : ∀ bucket, ∀ i ∈ (ids (some bucket)).tail, s.IsOvfl i
  loose : ∀ i ∈ ids none, s.IsOvfl i

/-- The buffers of a table are the nodes of its chains. Chain `none` belongs to no bucket. -/
structure Hashp.Arranged (s : Hashp) (f : Option Nat → Nodes) : Prop where
  sane : s.Sane
  indexed : s.Indexed fun k => (f k).ids
  linked : ∀ k, Linked s (f k)

variable {f : Option Nat → Nodes} {ids : Option Nat → List Nat} {k : Option Nat}

theorem Nodes.ids_append (c c' : Nodes) : (c ++ c').ids = c.ids ++ c'.ids := List.map_append

theorem ids_update (f : Option Nat → Nodes) (k : Option Nat) (c : Nodes) :
    (fun k' => (Function.update f k c k').ids) =
      Function.update (fun k' => (f k').ids) k c.ids := by
  funext k'
  by_cases same : k' = k
  · rw [same, Function.update_self, Function.update_self]
  · rw [Function.update_of_ne same, Function.update_of_ne same]

theorem Hashp.Sane.congr (sane : s.Sane) (htab : t.htab = s.htab) (made : t.made = s.made)
    (same : ∀ i, (t.bufs i).addr = (s.bufs i).addr ∧ (t.bufs i).ovfl = (s.bufs i).ovfl ∧
      (t.bufs i).bucket = (s.bufs i).bucket) : t.Sane := by
  have size : t.bsize = s.bsize := by rw [Hashp.bsize, Hashp.bsize, htab]
  have live : t.live = s.live := by simp only [Hashp.live, same, made]
  refine ⟨?_, ?_, ?_, ?_, ?_⟩
  · rw [size]
    exact sane.wide
  · rw [size]
    exact sane.small
  · simp only [same, made]
    exact sane.ovfl
  · simp only [Hashp.IsOvfl, same, made]
    exact sane.apart
  · rw [htab, live]
    exact sane.table

theorem Hashp.Indexed.congr (indexed : s.Indexed ids) (dir : t.dir = s.dir) (made : t.made = s.made)
    (same : ∀ i, (t.bufs i).addr = (s.bufs i).addr ∧ (t.bufs i).bucket = (s.bufs i).bucket) :
      t.Indexed ids := by
  refine ⟨?_, indexed.nodup, indexed.apart, ?_, ?_, ?_⟩
  · rw [dir]
    exact indexed.dir
  · rw [made]
    exact indexed.made
  · simp only [Hashp.IsOvfl, same]
    exact indexed.tails
  · simp only [Hashp.IsOvfl, same]
    exact indexed.loose

theorem Hashp.setPage_fields (s : Hashp) (b : Nat) (p : HashPage) (i : Nat) :
    ((s.setPage b p).bufs i).addr = (s.bufs i).addr ∧
      ((s.setPage b p).bufs i).ovfl = (s.bufs i).ovfl ∧
      ((s.setPage b p).bufs i).bucket = (s.bufs i).bucket := by
  rw [Hashp.setPage, Hashp.setBuf]
  by_cases here : i = b
  · subst here
    simp only [Function.update_self, and_self]
  · simp only [Function.update_of_ne here, and_self]

theorem Hashp.setPage_page (s : Hashp) (b : Nat) (p : HashPage) : (s.setPage b p).page b = p := by
  simp only [Hashp.page, Hashp.setPage, Hashp.setBuf, Function.update_self]

theorem Hashp.setPage_other (s : Hashp) (p : HashPage) {i : Nat} (other : i ≠ b) :
    (s.setPage b p).bufs i = s.bufs i :=
  Function.update_of_ne other ..

theorem Hashp.setPage_linkOf (s : Hashp) (b : Nat) (p : HashPage) (c : Nodes) :
    (s.setPage b p).linkOf c = s.linkOf c := by
  simp only [Hashp.linkOf, (s.setPage_fields b p _).1]

theorem Hashp.Indexed.other {k' : Option Nat} {i : Nat} (indexed : s.Indexed ids) (here : i ∈ ids k)
    (other : k' ≠ k) : ∀ j ∈ ids k', j ≠ i := by
  rintro j there rfl
  exact other (indexed.apart k' k j there here)

theorem Hashp.Indexed.length_le (indexed : s.Indexed ids) (k : Option Nat) :
    (ids k).length ≤ s.made := by
  have inside : ids k ⊆ List.range s.made :=
    fun i member => List.mem_range.mpr (indexed.made k i member)
  have := (List.subperm_of_subset (indexed.nodup k) inside).length_le
  rwa [List.length_range] at this

theorem Nodes.mem_ids (c : Nodes) (b : Nat) (l : List Pair) (rest : Nodes) :
    b ∈ (c ++ (b, l) :: rest).ids := by
  rw [Nodes.ids_append]
  exact List.mem_append_right _ List.mem_cons_self

theorem Nodes.nodup_at (nodup : (Nodes.ids (c ++ (b, l) :: rest)).Nodup) :
    (∀ i ∈ c.ids, i ≠ b) ∧ (∀ i ∈ rest.ids, i ≠ b) := by
  rw [Nodes.ids_append, List.nodup_append] at nodup
  obtain ⟨-, later, apart⟩ := nodup
  constructor
  · intro i here
    exact apart i here b List.mem_cons_self
  · rintro i here rfl
    exact (List.nodup_cons.mp later).1 here

theorem Hashp.Arranged.setPage {l' : List Pair} (arranged : s.Arranged f)
    (here : f k = c ++ (b, l) :: rest) (holds : p.Holds s.bsize l' (s.linkOf rest)) :
    (s.setPage b p).Arranged (Function.update f k (c ++ (b, l') :: rest)) := by
  have fields := s.setPage_fields b p
  have linked := arranged.linked k
  have nodup := arranged.indexed.nodup k
  rw [here] at linked nodup
  obtain ⟨before, behind⟩ := Nodes.nodup_at nodup
  obtain ⟨-, pointed, later⟩ := linked.at
  refine ⟨arranged.sane.congr rfl rfl fields, ?_, ?_⟩
  · rw [ids_update, show Nodes.ids (c ++ (b, l') :: rest) = (f k).ids by
      rw [here, Nodes.ids_append, Nodes.ids_append]; rfl, Function.update_eq_self]
    exact arranged.indexed.congr rfl rfl fun i => ⟨(fields i).1, (fields i).2.2⟩
  · intro k'
    by_cases same : k' = k
    · rw [same, Function.update_self]
      refine linked.replace rfl (fun i member => s.setPage_other p (before i member)) (fields b).1
        ⟨?_, ?_, ?_⟩
      · rw [Hashp.setPage_page, Hashp.setPage_linkOf]
        exact holds
      · rw [(fields b).2.1]
        exact pointed
      · exact later.congr rfl fun i member => s.setPage_other p (behind i member)
    · rw [Function.update_of_ne same]
      have member : b ∈ (f k).ids := by
        rw [here]
        exact Nodes.mem_ids ..
      exact (arranged.linked k').congr rfl fun i there =>
        s.setPage_other p (arranged.indexed.other member same i there)

theorem Hashp.Indexed.push (indexed : s.Indexed ids) (dir : t.dir = s.dir)
    (made : t.made = s.made + 1)
    (same : ∀ i < s.made, (t.bufs i).addr = (s.bufs i).addr ∧ (t.bufs i).bucket = (s.bufs i).bucket)
    (some_page : ids k ≠ []) (new : t.IsOvfl s.made) :
    t.Indexed (Function.update ids k (ids k ++ [s.made])) := by
  have old : ∀ k i, i ∈ ids k → i < s.made := indexed.made
  have kept : ∀ i < s.made, s.IsOvfl i → t.IsOvfl i := by
    intro i below ovfl
    rw [Hashp.IsOvfl, (same i below).1, (same i below).2]
    exact ovfl
  have members : ∀ k' i, i ∈ Function.update ids k (ids k ++ [s.made]) k' → i ∈ ids k' ∨
      (i = s.made ∧ k' = k) := by
    intro k' i member
    by_cases here : k' = k
    · rw [here, Function.update_self, List.mem_append, List.mem_singleton] at member
      rw [here]
      exact member.imp id fun last => ⟨last, rfl⟩
    · rw [Function.update_of_ne here] at member
      exact .inl member
  refine ⟨?_, ?_, ?_, ?_, ?_, ?_⟩
  · intro bucket
    rw [dir, indexed.dir]
    by_cases here : some bucket = k
    · rw [here, Function.update_self, List.head?_append_of_ne_nil _ some_page]
    · rw [Function.update_of_ne here]
  · intro k'
    by_cases here : k' = k
    · rw [here, Function.update_self, List.nodup_append]
      refine ⟨indexed.nodup k, List.nodup_singleton _, ?_⟩
      intro i before j last
      have := old k i before
      rw [List.mem_singleton] at last
      lia
    · rw [Function.update_of_ne here]
      exact indexed.nodup k'
  · intro k₁ k₂ i first second
    rcases members k₁ i first with early | ⟨last, here⟩ <;> rcases members k₂ i second with early' |
      ⟨last', here'⟩
    · exact indexed.apart k₁ k₂ i early early'
    · have := old _ i early
      lia
    · have := old _ i early'
      lia
    · rw [here, here']
  · intro k' i member
    rcases members k' i member with before | ⟨last, -⟩
    · have := old k' i before
      lia
    · lia
  · intro bucket i member
    by_cases here : some bucket = k
    · rw [here, Function.update_self, List.tail_append_of_ne_nil some_page, List.mem_append,
        List.mem_singleton] at member
      rcases member with before | rfl
      · rw [← here] at before
        exact kept i (old _ i (List.mem_of_mem_tail before)) (indexed.tails bucket i before)
      · exact new
    · rw [Function.update_of_ne here] at member
      exact kept i (old _ i (List.mem_of_mem_tail member)) (indexed.tails bucket i member)
  · intro i member
    rcases members none i member with before | ⟨rfl, -⟩
    · exact kept i (old _ i before) (indexed.loose i before)
    · exact new

/-- What putting pages into chains and taking them out leaves as it is. -/
structure Hashp.Calm (s t : Hashp) : Prop where
  hash : t.hash = s.hash
  bshift : t.htab.bshift = s.htab.bshift
  maxBucket : t.htab.maxBucket = s.htab.maxBucket
  highMask : t.htab.highMask = s.htab.highMask
  lowMask : t.htab.lowMask = s.htab.lowMask
  nsegs : t.nsegs = s.nsegs
  dsize : t.dsize = s.dsize
  dirEnd : t.dirEnd = s.dirEnd

theorem Hashp.Calm.refl (s : Hashp) : s.Calm s := ⟨rfl, rfl, rfl, rfl, rfl, rfl, rfl, rfl⟩

theorem Hashp.Calm.trans {u : Hashp} (first : s.Calm t) (second : t.Calm u) : s.Calm u :=
  ⟨second.hash.trans first.hash, second.bshift.trans first.bshift,
    second.maxBucket.trans first.maxBucket, second.highMask.trans first.highMask,
    second.lowMask.trans first.lowMask, second.nsegs.trans first.nsegs,
    second.dsize.trans first.dsize, second.dirEnd.trans first.dirEnd⟩

theorem Hashp.Calm.bsize (calm : s.Calm t) :
    t.bsize = s.bsize := by rw [Hashp.bsize, Hashp.bsize, calm.bshift]

theorem Hashp.Calm.callHash (calm : s.Calm t) (key : Bytes) : t.callHash key = s.callHash key := by
  simp only [Hashp.callHash, calm.hash, calm.maxBucket, calm.highMask, calm.lowMask]

end Arranged

section Overflow

/-- The fields of the header that `overflow_page` does not touch. -/
def Htab.Steady (h h' : Htab) : Prop :=
  h'.bshift = h.bshift ∧ h'.maxBucket = h.maxBucket ∧ h'.highMask = h.highMask ∧
    h'.lowMask = h.lowMask

theorem overflowPage_steady {h h' : Htab} (paged : overflowPage h = some (h', addr)) :
    h.Steady h' := by
  simp only [overflowPage] at paged
  split at paged
  · obtain ⟨⟨h₁, s, o⟩, added, rest⟩ := Option.bind_eq_some_iff.mp paged
    have first : h.Steady h₁ := by
      simp only [Htab.addPage] at added
      split at added
      · split at added
        · cases added
        · obtain ⟨rfl, -⟩ := Prod.mk.inj (Option.some.inj added)
          exact ⟨rfl, rfl, rfl, rfl⟩
      · obtain ⟨rfl, -⟩ := Prod.mk.inj (Option.some.inj added)
        exact ⟨rfl, rfl, rfl, rfl⟩
    have second : h₁.Steady h' := by
      simp only at rest
      split at rest
      · rw [Htab.addMap] at rest
        split at rest
        · cases rest
        · obtain ⟨h₂, made, rest⟩ := Option.bind_eq_some_iff.mp rest
          obtain ⟨-, rfl⟩ := initBitmap_some made
          simp only at rest
          split at rest
          · split at rest
            · cases rest
            · obtain ⟨rfl, -⟩ := Prod.mk.inj (Option.some.inj rest)
              exact ⟨rfl, rfl, rfl, rfl⟩
          · obtain ⟨rfl, -⟩ := Prod.mk.inj (Option.some.inj rest)
            exact ⟨rfl, rfl, rfl, rfl⟩
      · obtain ⟨rfl, -⟩ := Prod.mk.inj (Option.some.inj rest)
        exact ⟨rfl, rfl, rfl, rfl⟩
    obtain ⟨first₁, first₂, first₃, first₄⟩ := first
    obtain ⟨second₁, second₂, second₃, second₄⟩ := second
    exact ⟨second₁.trans first₁, second₂.trans first₂, second₃.trans first₃, second₄.trans first₄⟩
  · obtain ⟨hint, -, rfl, -⟩ := takePage_some paged
    exact ⟨rfl, rfl, rfl, rfl⟩

variable {f : Option Nat → Nodes} {k : Option Nat}

/-- Where no link leads to a buffer with the address, a new one is linked in. -/
theorem Hashp.getOvfl_new (stale : ∀ next, (s.bufs b).ovfl = some next → (s.bufs next).addr ≠ addr)
    (made : b < s.made) :
    (s.getOvfl addr b).2 = s.made ∧ (s.getOvfl addr b).1 = { s with
      bufs := Function.update (Function.update s.bufs s.made
        { addr, ovfl := none, bucket := false, page := pageInit s.bsize }) b
          { s.bufs b with ovfl := some s.made }
      made := s.made + 1 } := by
  have miss : ((s.bufs b).ovfl.filter fun b => (s.bufs b).addr = addr) = none := by
    cases pointed : (s.bufs b).ovfl with
    | none => rfl
    | some next =>
      rw [Option.filter_some, if_neg]
      simpa using stale next pointed
  rw [Hashp.getOvfl, miss]
  refine ⟨rfl, ?_⟩
  simp only [Hashp.newbuf, Hashp.setBuf, Function.update_of_ne (Nat.ne_of_lt made)]

theorem Hashp.Arranged.push {h : Htab} (arranged : s.Arranged f) (here : f k = c ++ [(b, l)])
    (filled : l ≠ []) (handed : overflowPage s.htab = some (h, addr)) (nonzero : addr ≠ 0)
    (htab : t.htab = h) (dir : t.dir = s.dir) (made : t.made = s.made + 1)
    (new : t.bufs s.made = { addr, ovfl := none, bucket := false, page := pageInit s.bsize })
    (last : t.bufs b = { s.bufs b with ovfl := some s.made, page := addLink (s.page b) addr })
    (others : ∀ i < s.made, i ≠ b → t.bufs i = s.bufs i) :
    t.Arranged (Function.update f k (c ++ [(b, l), (s.made, [])])) := by
  have sane := arranged.sane
  have steady := overflowPage_steady handed
  have size : t.bsize = s.bsize := by rw [Hashp.bsize, Hashp.bsize, htab, steady.1]
  have member : b ∈ (f k).ids := by
    rw [here]
    exact Nodes.mem_ids ..
  have below : b < s.made := arranged.indexed.made k b member
  have fields : ∀ i < s.made, (t.bufs i).addr = (s.bufs i).addr ∧
      (t.bufs i).bucket = (s.bufs i).bucket := by
    intro i early
    by_cases same : i = b
    · rw [same, last]
      exact ⟨rfl, rfl⟩
    · rw [others i early same]
      exact ⟨rfl, rfl⟩
  obtain ⟨unused, distinct⟩ := sane.table.overflow handed
  have unlike : ∀ i < s.made, s.IsOvfl i → (s.bufs i).addr ≠ addr := by
    rintro i early ⟨flag, positive⟩ rfl
    exact unused ⟨positive, i, early, flag, rfl⟩
  refine ⟨⟨by rw [size]; exact sane.wide, by rw [size]; exact sane.small, ?_, ?_, ?_⟩, ?_, ?_⟩
  · rw [made]
    intro i early next pointed
    by_cases fresh : i = s.made
    · rw [fresh, new] at pointed
      cases pointed
    · by_cases same : i = b
      · rw [same, last] at pointed
        cases pointed
        rw [new]
        exact ⟨Nat.lt_succ_self _, rfl⟩
      · rw [others i (by lia) same] at pointed
        obtain ⟨below, flag⟩ := sane.ovfl i (by lia) next pointed
        rw [(fields next below).2]
        exact ⟨by lia, flag⟩
  · rw [made]
    have old : ∀ i < s.made, t.IsOvfl i → s.IsOvfl i := by
      intro i early
      rw [Hashp.IsOvfl, (fields i early).1, (fields i early).2]
      exact id
    intro i early j early' first second address
    by_cases fresh : i = s.made <;> by_cases fresh' : j = s.made
    · rw [fresh, fresh']
    · rw [fresh, new, (fields j (by lia)).1] at address
      exact absurd address.symm (unlike j (by lia) (old j (by lia) second))
    · rw [fresh', new, (fields i (by lia)).1] at address
      exact absurd address (unlike i (by lia) (old i (by lia) first))
    · rw [(fields i (by lia)).1, (fields j (by lia)).1] at address
      exact sane.apart i (by lia) j (by lia) (old i (by lia) first) (old j (by lia) second) address
  · rw [htab]
    refine distinct.mono ?_
    rintro a ⟨positive, i, early, flag, rfl⟩
    rw [made] at early
    by_cases fresh : i = s.made
    · rw [fresh, new]
      exact Set.mem_insert ..
    · rw [(fields i (by lia)).1] at positive ⊢
      rw [(fields i (by lia)).2] at flag
      exact Set.mem_insert_of_mem _ ⟨positive, i, by lia, flag, rfl⟩
  · rw [ids_update, show Nodes.ids (c ++ [(b, l), (s.made, [])]) = (f k).ids ++ [s.made] by
      rw [here, Nodes.ids_append, Nodes.ids_append, List.append_assoc]; rfl]
    exact arranged.indexed.push dir made fields (List.ne_nil_of_mem member)
      ⟨by rw [new], by rw [new]; exact nonzero⟩
  · intro k'
    by_cases same : k' = k
    · have linked := arranged.linked k
      have nodup := arranged.indexed.nodup k
      simp only [here] at linked nodup
      obtain ⟨before, -⟩ := Nodes.nodup_at nodup
      obtain ⟨holds, -, -⟩ := linked.at
      rw [same, Function.update_self]
      refine linked.replace size ?_ (by rw [last]) ⟨?_, ?_, ?_, (by rintro _ ⟨⟩), trivial⟩
      · intro i earlier
        refine others i (arranged.indexed.made k i ?_) (before i earlier)
        rw [here, Nodes.ids_append]
        exact List.mem_append_left _ earlier
      · rw [Hashp.page, last, size]
        change (addLink (s.page b) addr).Holds s.bsize l (some (t.bufs s.made).addr)
        rw [new]
        exact addLink_holds holds sane.small filled
      · rintro node ⟨⟩
        rw [last]
      · rw [Hashp.page, new, size]
        exact pageInit_holds sane.wide sane.small
    · rw [Function.update_of_ne same]
      refine (arranged.linked k').congr size fun i there => ?_
      exact others i (arranged.indexed.made k' i there) (arranged.indexed.other member same i there)

theorem Hashp.Arranged.addOvflpage (arranged : s.Arranged f) (here : f k = c ++ [(b, l)])
    (filled : l ≠ []) :
    Ends (fun r => r.1.Arranged (Function.update f k (c ++ [(b, l), (r.2, [])])) ∧ s.Calm r.1)
      (· = .failure)
      (s.addOvflpage b) := by
  have member : b ∈ (f k).ids := by
    rw [here]
    exact Nodes.mem_ids ..
  have below : b < s.made := arranged.indexed.made k b member
  have sane := arranged.sane
  obtain ⟨u, factor, same⟩ : ∃ u, u = (if s.ffactor = DEF_FFACTOR then
      { s with ffactor := (max ((s.page b).bp 0 >>> 1) MIN_FFACTOR : Nat) } else s) ∧
      u = { s with ffactor := u.ffactor } := by
    by_cases default_ : s.ffactor = DEF_FFACTOR
    · exact ⟨_, rfl, by rw [if_pos default_]⟩
    · exact ⟨_, rfl, by rw [if_neg default_]⟩
  simp only [Hashp.addOvflpage, ← factor]
  cases handed : overflowPage u.htab with
  | none => exact rfl
  | some page =>
    obtain ⟨h, addr⟩ := page
    simp only
    by_cases zero : addr = 0
    · rw [if_pos zero]
      exact rfl
    · rw [if_neg zero]
      have htab : u.htab = s.htab := by rw [same]
      rw [htab] at handed
      have steady := overflowPage_steady handed
      obtain ⟨unused, -⟩ := sane.table.overflow handed
      have bufs : u.bufs = s.bufs := by rw [same]
      have stale : ∀ next, (u.bufs b).ovfl = some next → (u.bufs next).addr ≠ addr := by
        rw [bufs]
        rintro next pointed rfl
        obtain ⟨made, flag⟩ := sane.ovfl b below next pointed
        exact unused ⟨zero, next, made, flag, rfl⟩
      have made : u.made = s.made := by rw [same]
      obtain ⟨second, first⟩ :=
        Hashp.getOvfl_new (s := { u with htab := h }) stale (by rw [same]; exact below)
      obtain ⟨⟨v, next⟩, got⟩ : ∃ r, { u with htab := h }.getOvfl addr b = r := ⟨_, rfl⟩
      rw [got] at first second
      change v = _ at first
      change next = u.made at second
      simp only [got]
      have other : s.made ≠ b := Nat.ne_of_gt below
      refine ⟨?_, ?_⟩
      · rw [second, made]
        refine arranged.push here filled handed zero ?_ ?_ ?_ ?_ ?_ ?_
        · rw [first]
          rfl
        · rw [first, same]
          rfl
        · rw [first, same]
          rfl
        · rw [first]
          simp only [Hashp.setPage, Hashp.setBuf, made, Function.update_of_ne other,
            Function.update_self, Hashp.bsize, steady.1]
        · rw [first]
          simp only [Hashp.setPage, Hashp.setBuf, Hashp.page, Function.update_self, bufs, made]
        · intro i early apart
          rw [first]
          simp only [Hashp.setPage, Hashp.setBuf, made, Function.update_of_ne apart,
            Function.update_of_ne (Nat.ne_of_lt early), bufs]
      · rw [first, same]
        exact ⟨rfl, steady.1, steady.2.1, steady.2.2.1, steady.2.2.2, rfl, rfl, rfl⟩

theorem Hashp.Arranged.free (arranged : s.Arranged f) (here : f none = (b, l) :: rest)
    (p : HashPage) :
    ((s.setPage b p).freeOvfl b).Arranged (Function.update f none rest) ∧
      s.Calm ((s.setPage b p).freeOvfl b) := by
  have sane := arranged.sane
  have indexed := arranged.indexed
  have nodup := indexed.nodup none
  have first : b ∈ (f none).ids := by
    rw [here]
    exact List.mem_cons_self
  have below : b < s.made := indexed.made none b first
  obtain ⟨flag, positive⟩ : s.IsOvfl b := indexed.loose b first
  obtain ⟨t, state⟩ : ∃ t, t = (s.setPage b p).freeOvfl b := ⟨_, rfl⟩
  have freed : t.bufs b = { addr := 0, ovfl := none, bucket := false, page := p } := by
    rw [state, Hashp.freeOvfl, Hashp.setBuf]
    simp only [Function.update_self, Hashp.setPage, Hashp.setBuf]
  have others : ∀ i, i ≠ b → t.bufs i = s.bufs i := by
    intro i other
    rw [state, Hashp.freeOvfl, Hashp.setBuf]
    simp only [Function.update_of_ne other, Hashp.setPage, Hashp.setBuf]
  have htab : t.htab = freeOvflpage s.htab (s.bufs b).addr := by
    rw [state, ← (s.setPage_fields b p b).1]
    rfl
  have made : t.made = s.made := by rw [state]; rfl
  have dir : t.dir = s.dir := by rw [state]; rfl
  have calm : s.Calm t := by
    rw [state]
    exact ⟨rfl, rfl, rfl, rfl, rfl, rfl, rfl, rfl⟩
  have kept : ∀ i, t.IsOvfl i → i ≠ b ∧ s.IsOvfl i := by
    intro i ovfl
    have other : i ≠ b := by
      rintro rfl
      rw [Hashp.IsOvfl, freed] at ovfl
      exact ovfl.2 rfl
    rw [Hashp.IsOvfl, others i other] at ovfl
    exact ⟨other, ovfl⟩
  simp only [here] at nodup
  obtain ⟨-, behind⟩ := Nodes.nodup_at (c := []) nodup
  rw [← state]
  refine ⟨⟨⟨by rw [calm.bsize]; exact sane.wide, by rw [calm.bsize]; exact sane.small, ?_, ?_, ?_⟩,
    ⟨?_, ?_, ?_, ?_, ?_, ?_⟩, ?_⟩, calm⟩
  · rw [made]
    intro i early next pointed
    by_cases same : i = b
    · rw [same, freed] at pointed
      cases pointed
    · rw [others i same] at pointed
      obtain ⟨made, target⟩ := sane.ovfl i early next pointed
      by_cases same' : next = b
      · rw [same', freed]
        exact ⟨below, rfl⟩
      · rw [others next same']
        exact ⟨made, target⟩
  · rw [made]
    intro i early j early' ovfl ovfl' address
    obtain ⟨other, ovfl⟩ := kept i ovfl
    obtain ⟨other', ovfl'⟩ := kept j ovfl'
    rw [others i other, others j other'] at address
    exact sane.apart i early j early' ovfl ovfl' address
  · rw [htab]
    refine (sane.table.free ⟨positive, b, below, flag, rfl⟩).mono ?_
    rintro a ⟨nonzero, i, early, target, rfl⟩
    rw [made] at early
    obtain ⟨other, ovfl⟩ := kept i ⟨target, nonzero⟩
    rw [others i other]
    refine ⟨⟨ovfl.2, i, early, ovfl.1, rfl⟩, fun address => other ?_⟩
    exact sane.apart i early b below ovfl ⟨flag, positive⟩ address
  · intro bucket
    rw [dir, Function.update_of_ne (by simp)]
    exact indexed.dir bucket
  · intro k
    by_cases same : k = none
    · rw [same, Function.update_self]
      exact (List.nodup_cons.mp nodup).2
    · rw [Function.update_of_ne same]
      exact indexed.nodup k
  · have members : ∀ k i, i ∈ (Function.update f none rest k).ids → i ∈ (f k).ids := by
      intro k i member
      by_cases same : k = none
      · rw [same, Function.update_self] at member
        rw [same, here]
        exact List.mem_cons_of_mem _ member
      · rwa [Function.update_of_ne same] at member
    exact fun k k' i member member' => indexed.apart k k' i (members k i member)
      (members k' i member')
  · rw [made]
    intro k i member
    by_cases same : k = none
    · rw [same, Function.update_self] at member
      exact indexed.made none i (by rw [here]; exact List.mem_cons_of_mem _ member)
    · rw [Function.update_of_ne same] at member
      exact indexed.made k i member
  · intro bucket i member
    rw [Function.update_of_ne (by simp)] at member
    have other : i ≠ b := @Hashp.Indexed.other _ _ none (some bucket) _ indexed first (by simp) i
      (List.mem_of_mem_tail member)
    rw [Hashp.IsOvfl, others i other]
    exact indexed.tails bucket i member
  · intro i member
    rw [Function.update_self] at member
    rw [Hashp.IsOvfl, others i (behind i member)]
    exact indexed.loose i (by rw [here]; exact List.mem_cons_of_mem _ member)
  · intro k
    by_cases same : k = none
    · have linked := arranged.linked none
      rw [here] at linked
      rw [same, Function.update_self]
      exact linked.tail.congr calm.bsize fun i member => others i (behind i member)
    · rw [Function.update_of_ne same]
      exact (arranged.linked k).congr calm.bsize fun i member =>
        others i (indexed.other first same i member)

/-- The page of a bucket loses its link: what it linked to belongs to no bucket any more. -/
theorem Hashp.Arranged.cut {bucket : Nat} {l' : List Pair} (arranged : s.Arranged f)
    (here : f (some bucket) = (b, l) :: rest) (holds : p.Holds s.bsize l' none) :
    (s.setPage b p).Arranged (Function.update (Function.update f (some bucket) [(b, l')]) none
      rest) := by
  have indexed := arranged.indexed
  have fields := s.setPage_fields b p
  have nodup := indexed.nodup (some bucket)
  have linked := arranged.linked (some bucket)
  have tails := indexed.tails bucket
  simp only [here] at nodup linked tails
  obtain ⟨-, behind⟩ := Nodes.nodup_at (c := []) nodup
  have first : b ∈ (f (some bucket)).ids := by
    rw [here]
    exact List.mem_cons_self
  have later : ∀ i ∈ rest.ids, i ∈ (f (some bucket)).ids := by
    intro i member
    rw [here]
    exact List.mem_cons_of_mem _ member
  obtain ⟨g, chains⟩ :
      ∃ g, g = Function.update (Function.update f (some bucket) [(b, l')]) none rest := ⟨_, rfl⟩
  have loose : g none = rest := by rw [chains, Function.update_self]
  have own : g (some bucket) = [(b, l')] := by
    rw [chains, Function.update_of_ne (by simp), Function.update_self]
  have others : ∀ k, k ≠ none → k ≠ some bucket → g k = f k := by
    intro k real other
    rw [chains, Function.update_of_ne real, Function.update_of_ne other]
  have members : ∀ k i, i ∈ (g k).ids → (i = b ∧ k = some bucket) ∨ (i ∈ rest.ids ∧ k = none) ∨
      (i ∈ (f k).ids ∧ k ≠ none ∧ k ≠ some bucket) := by
    intro k i member
    by_cases same : k = none
    · rw [same, loose] at member
      exact .inr (.inl ⟨member, same⟩)
    · by_cases same' : k = some bucket
      · rw [same', own] at member
        exact .inl ⟨List.mem_singleton.mp member, same'⟩
      · rw [others k same same'] at member
        exact .inr (.inr ⟨member, same, same'⟩)
  rw [← chains]
  refine ⟨arranged.sane.congr rfl rfl fields, ⟨?_, ?_, ?_, ?_, ?_, ?_⟩, ?_⟩
  · intro bucket'
    change s.dir bucket' = _
    rw [indexed.dir bucket']
    by_cases same : bucket' = bucket
    · rw [same, own, here]
      rfl
    · rw [others _ (by simp) (by simpa using same)]
  · intro k
    by_cases same : k = none
    · rw [same, loose]
      exact (List.nodup_cons.mp nodup).2
    · by_cases same' : k = some bucket
      · rw [same', own]
        exact List.nodup_singleton b
      · rw [others k same same']
        exact indexed.nodup k
  · intro k k' i member member'
    rcases members k i member with ⟨rfl, rfl⟩ | ⟨inside, rfl⟩ | ⟨inside, real, other⟩ <;>
      rcases members k' i member' with ⟨again, rfl⟩ | ⟨inside', rfl⟩ | ⟨inside', real', other'⟩
    · rfl
    · exact absurd rfl (behind i inside')
    · exact absurd (indexed.apart _ _ i inside' first) other'
    · exact absurd again (behind i inside)
    · rfl
    · exact absurd (indexed.apart _ _ i inside' (later i inside)) other'
    · exact absurd (indexed.apart _ _ i inside (again ▸ first)) other
    · exact absurd (indexed.apart _ _ i inside (later i inside')) other
    · exact indexed.apart k k' i inside inside'
  · intro k i member
    rcases members k i member with ⟨rfl, -⟩ | ⟨inside, -⟩ | ⟨inside, -⟩
    · exact indexed.made _ i first
    · exact indexed.made _ i (later i inside)
    · exact indexed.made _ i inside
  · intro bucket' i member
    by_cases same : bucket' = bucket
    · rw [same, own] at member
      cases member
    · rw [others _ (by simp) (by simpa using same)] at member
      rw [Hashp.IsOvfl, (fields i).1, (fields i).2.2]
      exact indexed.tails bucket' i member
  · intro i member
    rw [loose] at member
    rw [Hashp.IsOvfl, (fields i).1, (fields i).2.2]
    exact tails i member
  · intro k
    by_cases same : k = none
    · rw [same, loose]
      exact linked.tail.congr rfl fun i member => s.setPage_other p (behind i member)
    · by_cases same' : k = some bucket
      · rw [same', own]
        refine ⟨?_, (by rintro _ ⟨⟩), trivial⟩
        rw [Hashp.setPage_page]
        exact holds
      · rw [others k same same']
        exact (arranged.linked k).congr rfl fun i member =>
          s.setPage_other p (indexed.other first same' i member)

theorem Hashp.Arranged.newBucket (arranged : s.Arranged f) (bucket : Nat) :
    Hashp.Arranged { s.newbuf bucket true with dir := Function.update s.dir bucket (some s.made) }
      (Function.update f (some bucket) [(s.made, [])]) := by
  have sane := arranged.sane
  have indexed := arranged.indexed
  obtain ⟨t, state⟩ : ∃ t : Hashp, t = { s.newbuf bucket true with
    dir := Function.update s.dir bucket (some s.made) } := ⟨_, rfl⟩
  have new :
    t.bufs s.made = { addr := bucket, ovfl := none, bucket := true, page := pageInit s.bsize } := by
    rw [state]
    exact Function.update_self ..
  have others : ∀ i < s.made, t.bufs i = s.bufs i := by
    intro i early
    rw [state]
    exact Function.update_of_ne (Nat.ne_of_lt early) ..
  have made : t.made = s.made + 1 := by rw [state]; rfl
  have htab : t.htab = s.htab := by rw [state]; rfl
  have size : t.bsize = s.bsize := by rw [Hashp.bsize, Hashp.bsize, htab]
  have old : ∀ i, i < t.made → t.IsOvfl i → i < s.made ∧ s.IsOvfl i := by
    intro i early ovfl
    have other : i ≠ s.made := by
      rintro rfl
      rw [Hashp.IsOvfl, new] at ovfl
      cases ovfl.1
    have below : i < s.made := by lia
    rw [Hashp.IsOvfl, others i below] at ovfl
    exact ⟨below, ovfl⟩
  obtain ⟨g, chains⟩ : ∃ g, g = Function.update f (some bucket) [(s.made, [])] := ⟨_, rfl⟩
  have own : g (some bucket) = [(s.made, [])] := by rw [chains, Function.update_self]
  have kept : ∀ k, k ≠ some bucket → g k = f k := by
    intro k other
    rw [chains, Function.update_of_ne other]
  have members : ∀ k i, i ∈ (g k).ids → (i = s.made ∧ k = some bucket) ∨
      (i ∈ (f k).ids ∧ k ≠ some bucket) := by
    intro k i member
    by_cases same : k = some bucket
    · rw [same, own] at member
      exact .inl ⟨List.mem_singleton.mp member, same⟩
    · rw [kept k same] at member
      exact .inr ⟨member, same⟩
  rw [← state, ← chains]
  refine ⟨⟨by rw [size]; exact sane.wide, by rw [size]; exact sane.small, ?_, ?_, ?_⟩,
    ⟨?_, ?_, ?_, ?_, ?_, ?_⟩, ?_⟩
  · intro i early next pointed
    by_cases fresh : i = s.made
    · rw [fresh, new] at pointed
      cases pointed
    · rw [others i (by lia)] at pointed
      obtain ⟨below, flag⟩ := sane.ovfl i (by lia) next pointed
      rw [others next below]
      exact ⟨by lia, flag⟩
  · intro i early j early' first second address
    obtain ⟨below, first⟩ := old i early first
    obtain ⟨below', second⟩ := old j early' second
    rw [others i below, others j below'] at address
    exact sane.apart i below j below' first second address
  · rw [htab]
    refine sane.table.mono ?_
    rintro a ⟨nonzero, i, early, flag, rfl⟩
    obtain ⟨below, ovfl⟩ := old i early ⟨flag, nonzero⟩
    rw [others i below]
    exact ⟨ovfl.2, i, below, ovfl.1, rfl⟩
  · intro bucket'
    rw [show t.dir = Function.update s.dir bucket (some s.made) by rw [state]]
    by_cases same : bucket' = bucket
    · rw [same, own, Function.update_self]
      rfl
    · rw [Function.update_of_ne same, kept _ (by simpa using same)]
      exact indexed.dir bucket'
  · intro k
    by_cases same : k = some bucket
    · rw [same, own]
      exact List.nodup_singleton s.made
    · rw [kept k same]
      exact indexed.nodup k
  · intro k k' i member member'
    rcases members k i member with ⟨fresh, rfl⟩ | ⟨inside, other⟩ <;>
      rcases members k' i member' with ⟨fresh', rfl⟩ | ⟨inside', other'⟩
    · rfl
    · have := indexed.made k' i inside'
      lia
    · have := indexed.made k i inside
      lia
    · exact indexed.apart k k' i inside inside'
  · intro k i member
    rcases members k i member with ⟨fresh, -⟩ | ⟨inside, -⟩
    · lia
    · have := indexed.made k i inside
      lia
  · intro bucket' i member
    by_cases same : bucket' = bucket
    · rw [same, own] at member
      cases member
    · rw [kept _ (by simpa using same)] at member
      rw [Hashp.IsOvfl, others i (indexed.made _ i (List.mem_of_mem_tail member))]
      exact indexed.tails bucket' i member
  · intro i member
    rw [kept none (by simp)] at member
    rw [Hashp.IsOvfl, others i (indexed.made none i member)]
    exact indexed.loose i member
  · intro k
    by_cases same : k = some bucket
    · rw [same, own]
      refine ⟨?_, (by rintro _ ⟨⟩), trivial⟩
      rw [Hashp.page, new, size]
      exact pageInit_holds sane.wide sane.small
    · rw [kept k same]
      exact (arranged.linked k).congr size fun i member => others i (indexed.made k i member)

theorem Hashp.Arranged.getBucket (arranged : s.Arranged f) (bucket : Nat) :
    ∃ g l rest, (s.getBucket bucket).1.Arranged g ∧ s.Calm (s.getBucket bucket).1 ∧
      g (some bucket) = ((s.getBucket bucket).2, l) :: rest ∧ (∀ k, k ≠ some bucket → g k = f k) ∧
      (f (some bucket) = [] ∧ l = [] ∧ rest = [] ∨ g (some bucket) = f (some bucket)) := by
  have known := arranged.indexed.dir bucket
  cases chain : f (some bucket) with
  | nil =>
    rw [chain] at known
    have none : s.dir bucket = none := known
    rw [Hashp.getBucket, none]
    exact ⟨_, [], [], arranged.newBucket bucket, ⟨rfl, rfl, rfl, rfl, rfl, rfl, rfl, rfl⟩,
      Function.update_self .., fun k other => Function.update_of_ne other .., .inl ⟨rfl, rfl, rfl⟩⟩
  | cons node rest =>
    obtain ⟨b, l⟩ := node
    rw [chain] at known
    have found : s.dir bucket = some b := known
    rw [Hashp.getBucket, found]
    exact ⟨f, l, rest, arranged, .refl s, chain, fun _ _ => rfl, .inr chain⟩

end Overflow

end FreeBsd.Db
