import FreeBsd.Db.HashAccess
import FreeBsd.Lib.Trace

/-! Runs of a hash table against a finite map. -/
namespace FreeBsd.Db

open FreeBsd.Lib

variable {s t : Hashp} {f g : Option Nat → Nodes} {b : Nat} {key val : Bytes} {h h' : Htab}

section Masks

/-- The masks span the buckets there are, and those of the doubling under way. -/
def Htab.Masked (h : Htab) : Prop :=
  ∃ j, h.lowMask = 2 ^ j - 1 ∧ h.highMask = 2 ^ (j + 1) - 1 ∧ 2 ^ j ≤ h.maxBucket + 1 ∧
    h.maxBucket + 1 ≤ 2 ^ (j + 1)

def Htab.bucketOf (h : Htab) (n : Nat) : Nat :=
  let bucket := n &&& h.highMask
  if bucket > h.maxBucket then bucket &&& h.lowMask else bucket

theorem Hashp.callHash_eq (s : Hashp) (key : Bytes) :
    s.callHash key = s.htab.bucketOf (s.hash key) := rfl

theorem expandTable_masks (expanded : expandTable h = some h') :
    h'.maxBucket = h.maxBucket + 1 ∧ h'.bshift = h.bshift ∧
      if h.maxBucket + 1 > h.highMask then h'.lowMask = h.highMask ∧
        h'.highMask = (h.maxBucket + 1) ||| h.highMask
      else h'.lowMask = h.lowMask ∧ h'.highMask = h.highMask := by
  simp only [expandTable] at expanded
  by_cases few : h.maxBucket + 1 ≥ MAXBUCKETS
  · rw [if_pos few] at expanded
    cases expanded
  · rw [if_neg few] at expanded
    by_cases later : log2 (h.maxBucket + 1 + 1) > h.ovflPoint
    · by_cases doubled : h.maxBucket + 1 > h.highMask
      · simp only [if_pos later, if_pos doubled, Option.some.injEq] at expanded ⊢
        subst expanded
        exact ⟨rfl, rfl, rfl, rfl⟩
      · simp only [if_pos later, if_neg doubled, Option.some.injEq] at expanded ⊢
        subst expanded
        exact ⟨rfl, rfl, rfl, rfl⟩
    · by_cases doubled : h.maxBucket + 1 > h.highMask
      · simp only [if_neg later, if_pos doubled, Option.some.injEq] at expanded ⊢
        subst expanded
        exact ⟨rfl, rfl, rfl, rfl⟩
      · simp only [if_neg later, if_neg doubled, Option.some.injEq] at expanded ⊢
        subst expanded
        exact ⟨rfl, rfl, rfl, rfl⟩

theorem Htab.Masked.bucketOf_le (masked : h.Masked) (n : Nat) : h.bucketOf n ≤ h.maxBucket := by
  obtain ⟨j, low, high, reaches, -⟩ := masked
  simp only [Htab.bucketOf, low, high]
  by_cases above : n &&& (2 ^ (j + 1) - 1) > h.maxBucket
  · rw [if_pos above, Nat.and_two_pow_sub_one_eq_mod]
    have := Nat.mod_lt (n &&& (2 ^ (j + 1) - 1)) (Nat.two_pow_pos j)
    lia
  · rw [if_neg above]
    lia

/-- When a bucket is added, a hash value keeps its bucket, or goes from the one that is split to the
new one. -/
theorem Htab.Masked.expand (masked : h.Masked) (expanded : expandTable h = some h') :
    h'.Masked ∧ (h.maxBucket + 1) &&& h.lowMask ≤ h.maxBucket ∧
      ∀ n, h'.bucketOf n = h.bucketOf n ∨
        (h'.bucketOf n = h.maxBucket + 1 ∧ h.bucketOf n = (h.maxBucket + 1) &&& h.lowMask) := by
  obtain ⟨j, low, high, reaches, inside⟩ := masked
  obtain ⟨bucket, -, masks⟩ := expandTable_masks expanded
  have positive := Nat.two_pow_pos j
  have double : 2 ^ (j + 1) = 2 * 2 ^ j := by rw [Nat.pow_succ, Nat.mul_comm]
  by_cases doubled : h.maxBucket + 1 > h.highMask
  · rw [if_pos doubled] at masks
    obtain ⟨low', high'⟩ := masks
    have full : h.maxBucket + 1 = 2 ^ (j + 1) := by lia
    have whole : 2 ^ (j + 1) ||| (2 ^ (j + 1) - 1) = 2 ^ (j + 2) - 1 := by
      have := Nat.two_pow_add_eq_or_of_lt (i := j + 1) (b := 2 ^ (j + 1) - 1) (by lia) 1
      rw [Nat.mul_one] at this
      rw [← this, Nat.pow_succ 2 (j + 1)]
      lia
    rw [high, full, whole] at high'
    rw [high] at low'
    have first : (h.maxBucket + 1) &&& h.lowMask = 0 := by
      rw [full, low, Nat.and_two_pow_sub_one_eq_mod, double, Nat.mul_mod_left]
    have wide : 2 ^ (j + 2) = 2 * 2 ^ (j + 1) := by rw [Nat.pow_succ, Nat.mul_comm]
    refine ⟨⟨j + 1, low', high', by lia, by lia⟩, by lia, ?_⟩
    intro n
    rw [first]
    simp only [Htab.bucketOf, low', high', high, bucket, Nat.and_two_pow_sub_one_eq_mod]
    have before : ¬ n % 2 ^ (j + 1) > h.maxBucket := by
      have := Nat.mod_lt n (Nat.two_pow_pos (j + 1))
      lia
    have parts : n % 2 ^ (j + 2) % 2 ^ (j + 1) = n % 2 ^ (j + 1) := Nat.mod_mod_of_dvd n ⟨2, by lia⟩
    have range := Nat.mod_lt n (Nat.two_pow_pos (j + 2))
    rw [if_neg before]
    by_cases above : n % 2 ^ (j + 2) > h.maxBucket + 1
    · rw [if_pos above, parts]
      exact .inl rfl
    · rw [if_neg above]
      by_cases new : n % 2 ^ (j + 2) = h.maxBucket + 1
      · refine .inr ⟨new, ?_⟩
        rw [← parts, new, full, Nat.mod_self]
      · refine .inl ?_
        rw [← parts, Nat.mod_eq_of_lt (a := n % 2 ^ (j + 2)) (by lia)]
  · rw [if_neg doubled] at masks
    obtain ⟨low', high'⟩ := masks
    rw [high] at high'
    have old : (h.maxBucket + 1) &&& h.lowMask = h.maxBucket + 1 - 2 ^ j := by
      rw [low, Nat.and_two_pow_sub_one_eq_mod, Nat.mod_eq_sub_mod reaches,
        Nat.mod_eq_of_lt (by lia)]
    refine ⟨⟨j, by rw [low', low], high', by lia, by lia⟩, by lia, ?_⟩
    intro n
    rw [old]
    simp only [Htab.bucketOf, low', low, high', high, bucket, Nat.and_two_pow_sub_one_eq_mod]
    by_cases above : n % 2 ^ (j + 1) > h.maxBucket + 1
    · rw [if_pos above, if_pos (by lia)]
      exact .inl rfl
    · rw [if_neg above]
      by_cases new : n % 2 ^ (j + 1) = h.maxBucket + 1
      · refine .inr ⟨new, ?_⟩
        rw [if_pos (by lia), new, Nat.mod_eq_sub_mod reaches, Nat.mod_eq_of_lt (by lia)]
      · rw [if_neg (by lia)]
        exact .inl rfl

end Masks

section Reading

/-- The pairs of a page from entry `ndx` on, `fuel` of them at most. -/
def HashPage.readPairs (p : HashPage) : Nat → Nat → Nat → List Pair
  | 0, _, _ => []
  | fuel + 1, ndx, off =>
    if ndx < p.bp 0 ∧ p.bp (ndx + 1) ≥ REAL_KEY then
      (slice p.bytes (p.bp ndx) (off - p.bp ndx),
        slice p.bytes (p.bp (ndx + 1)) (p.bp ndx - p.bp (ndx + 1))) ::
        p.readPairs fuel (ndx + 2) (p.bp (ndx + 1))
    else []

def Hashp.firstPairs (s : Hashp) (bucket : Nat) : List Pair :=
  match s.dir bucket with
  | none => []
  | some b => (s.page b).readPairs ((s.page b).bp 0 + 1) 1 s.bsize

/-- The pairs of the pages that are linked one to the other from a buffer on, `fuel` pages at most.
-/
def Hashp.readChain (s : Hashp) : Nat → Nat → List Pair
  | 0, _ => []
  | fuel + 1, b =>
    let bp := (s.page b).bp
    (s.page b).readPairs (bp 0 + 1) 1 s.bsize ++
      if bp 0 ≠ 0 ∧ bp (bp 0) = OVFLPAGE then s.readChain fuel (s.getOvfl (bp (bp 0 - 1)) b).2
      else []

def Hashp.pairsOf (s : Hashp) (bucket : Nat) : List Pair :=
  match s.dir bucket with
  | none => []
  | some b => s.readChain s.made b

theorem HashPage.Holds.readPairs {bsize n a fuel : Nat} {p : HashPage} {front back : List Pair}
    {link : Option Nat} (holds : p.Holds bsize (front ++ back) link) (enough : back.length < fuel)
    (at_ : 2 * front.length + 1 = n) (off : a + fill front = bsize) :
      p.readPairs fuel n a = back := by
  induction back generalizing front n a fuel with
  | nil =>
    obtain ⟨fuel, rfl⟩ : ∃ m, fuel = m + 1 := ⟨fuel - 1, by lia⟩
    have count := holds.count
    rw [List.append_nil] at count
    rw [HashPage.readPairs, if_neg]
    rintro ⟨inside, real⟩
    cases link with
    | none =>
      simp at count
      lia
    | some addr =>
      obtain ⟨-, second⟩ := holds.linked addr rfl
      rw [List.append_nil, show 2 * front.length + 2 = n + 1 by lia] at second
      rw [second] at real
      exact absurd real (by decide)
  | cons pair back ih =>
    obtain ⟨fuel, rfl⟩ : ∃ m, fuel = m + 1 := ⟨fuel - 1, by lia⟩
    obtain ⟨key, val⟩ := pair
    obtain ⟨start, next, same, same', -, above⟩ := holds.pair at_
    have count := holds.count
    rw [List.length_append, List.length_cons] at count
    rw [List.length_cons] at enough
    rw [List.append_cons] at holds
    have length : (front ++ [(key, val)]).length = front.length + 1 := List.length_append
    have keyLength : a - p.bp n = key.length := by lia
    have valLength : p.bp n - p.bp (n + 1) = val.length := by lia
    rw [HashPage.readPairs, if_pos ⟨by lia, by rw [REAL_KEY]; lia⟩, keyLength, same, valLength, same',
      ih holds (by lia) (by lia) (by rw [fill_append, fill_singleton]; lia)]

theorem HashPage.Holds.readAll {bsize : Nat} {p : HashPage} {l : List Pair} {link : Option Nat}
    (holds : p.Holds bsize l link) : p.readPairs (p.bp 0 + 1) 1 bsize = l := by
  have count := holds.count
  exact @HashPage.Holds.readPairs _ _ _ _ _ [] _ _ holds (by omega) rfl rfl

theorem Linked.readChain {fuel : Nat} {l : List Pair} {rest : Nodes}
    (linked : Linked s ((b, l) :: rest)) (enough : rest.length < fuel) :
      s.readChain fuel b = Nodes.pairs ((b, l) :: rest) := by
  induction rest generalizing b l fuel with
  | nil =>
    obtain ⟨fuel, rfl⟩ : ∃ m, fuel = m + 1 := ⟨fuel - 1, by lia⟩
    rw [Hashp.readChain, linked.1.readAll, if_neg, Nodes.pairs_cons]
    · rfl
    · rintro ⟨nonempty, low⟩
      rcases linked.1.last_real with empty | real
      · exact nonempty empty
      · rw [low] at real
        exact absurd real (by decide)
  | cons node rest ih =>
    obtain ⟨next, l'⟩ := node
    obtain ⟨fuel, rfl⟩ : ∃ m, fuel = m + 1 := ⟨fuel - 1, by lia⟩
    rw [List.length_cons] at enough
    have count : (s.page b).bp 0 = 2 * l.length + 2 := linked.1.count
    obtain ⟨first, second⟩ := linked.1.linked (s.bufs next).addr rfl
    have got := @Linked.getOvfl s b next l [] rest l' linked
    have more : (s.page b).bp 0 ≠ 0 ∧ (s.page b).bp ((s.page b).bp 0) = OVFLPAGE :=
      ⟨by lia, by rw [count, second]⟩
    rw [Hashp.readChain, linked.1.readAll, if_pos more, count, show 2 * l.length + 2 - 1 =
      2 * l.length +
        1 by lia, first, got, ih linked.tail (by lia), Nodes.pairs_cons, Nodes.pairs_cons, Nodes.pairs_cons]

theorem Hashp.Arranged.pairsOf (arranged : s.Arranged f) (bucket : Nat) :
    s.pairsOf bucket = (f (some bucket)).pairs := by
  have known := arranged.indexed.dir bucket
  have length := arranged.indexed.length_le (some bucket)
  have linked := arranged.linked (some bucket)
  cases chain : f (some bucket) with
  | nil =>
    rw [chain] at known
    have none : s.dir bucket = none := known
    rw [Hashp.pairsOf, none]
    rfl
  | cons node rest =>
    obtain ⟨b, l⟩ := node
    rw [chain] at known linked
    simp only [chain, Nodes.ids, List.length_map, List.length_cons] at length
    have found : s.dir bucket = some b := known
    rw [Hashp.pairsOf, found]
    exact linked.readChain (by omega)

theorem Hashp.Arranged.firstPairs {bucket : Nat} {l : List Pair} {rest : Nodes}
    (arranged : s.Arranged f) (chain : f (some bucket) = (b, l) :: rest) :
      s.firstPairs bucket = l := by
  have known := arranged.indexed.dir bucket
  have linked := arranged.linked (some bucket)
  rw [chain] at known linked
  have found : s.dir bucket = some b := known
  rw [Hashp.firstPairs, found]
  exact linked.1.readAll

end Reading

section Stores

/-- Each pair of the map is in the chain of the bucket that its key hashes to. -/
structure Hashp.Stores (s : Hashp) (f : Option Nat → Nodes) (m : Bytes → Option Bytes) : Prop where
  arranged : s.Arranged f
  loose : f none = []
  masked : s.htab.Masked
  beyond : ∀ bucket, s.htab.maxBucket < bucket → f (some bucket) = []
  home : ∀ bucket, ∀ pair ∈ (f (some bucket)).pairs, s.callHash pair.1 = bucket
  unique : ∀ bucket, (keys (f (some bucket)).pairs).Nodup
  map : ∀ key val, m key = some val ↔ ∃ bucket, (key, val) ∈ (f (some bucket)).pairs

variable {m : Bytes → Option Bytes}

theorem Hashp.Stores.map_at (stores : s.Stores f m) (key val : Bytes) :
    m key = some val ↔ (key, val) ∈ (f (some (s.callHash key))).pairs := by
  rw [stores.map]
  constructor
  · rintro ⟨bucket, member⟩
    rwa [stores.home bucket _ member]
  · exact fun member => ⟨_, member⟩

theorem Hashp.Arranged.same (arranged : s.Arranged f) (htab : t.htab = s.htab) (dir : t.dir = s.dir)
    (bufs : t.bufs = s.bufs) (made : t.made = s.made) : t.Arranged f := by
  refine ⟨arranged.sane.congr htab made ?_, arranged.indexed.congr dir made ?_, ?_⟩
  · rw [bufs]
    exact fun _ => ⟨rfl, rfl, rfl⟩
  · rw [bufs]
    exact fun _ => ⟨rfl, rfl⟩
  · intro k
    refine (arranged.linked k).congr (by rw [Hashp.bsize, Hashp.bsize, htab]) ?_
    rw [bufs]
    exact fun _ _ => rfl

theorem Hashp.Arranged.expand (arranged : s.Arranged f) (expanded : expandTable s.htab = some h) :
    Hashp.Arranged { s with htab := h } f := by
  have sane := arranged.sane
  have size : Hashp.bsize { s with htab := h } = s.bsize := by
    rw [Hashp.bsize, Hashp.bsize]
    change 2 ^ h.bshift = _
    rw [(expandTable_masks expanded).2.1]
  refine ⟨⟨by rw [size]; exact sane.wide, by rw [size]; exact sane.small, sane.ovfl, sane.apart,
      sane.table.expand expanded⟩,
    arranged.indexed.congr rfl rfl fun _ => ⟨rfl, rfl⟩, fun k =>
    (arranged.linked k).congr size fun _ _ => rfl⟩

/-- The directory has an entry for the segment of the next bucket, once `__expand_table` has made it
longer. -/
def Hashp.dirHolds (s : Hashp) : Prop :=
  let segnum := (s.htab.maxBucket + 1) / DEF_SEGSIZE
  segnum < s.nsegs ∨ segnum < if segnum ≥ s.dsize then 2 * s.dsize else s.dirEnd

instance : Decidable s.dirHolds := inferInstanceAs (Decidable (_ ∨ _))

theorem Hashp.growDir_ok (holds : s.dirHolds) : ∃ t, s.growDir = .ok t ∧ t.htab = s.htab ∧
    t.hash = s.hash ∧
    t.dir = s.dir ∧ t.bufs = s.bufs ∧ t.made = s.made := by
  simp only [Hashp.dirHolds] at holds
  simp only [Hashp.growDir]
  by_cases new : (s.htab.maxBucket + 1) / DEF_SEGSIZE ≥ s.nsegs
  · rw [if_pos new]
    by_cases long : (s.htab.maxBucket + 1) / DEF_SEGSIZE ≥ s.dsize
    · rw [if_pos long] at holds
      simp only [if_pos long]
      rw [if_neg (by lia)]
      exact ⟨_, rfl, rfl, rfl, rfl, rfl, rfl⟩
    · rw [if_neg long] at holds
      simp only [if_neg long]
      rw [if_neg (by lia)]
      exact ⟨_, rfl, rfl, rfl, rfl, rfl, rfl⟩
  · rw [if_neg new]
    exact ⟨s, rfl, rfl, rfl, rfl, rfl, rfl⟩

def Hashp.oldBucket (s : Hashp) : Nat := (s.htab.maxBucket + 1) &&& s.htab.lowMask

/-- The table can grow: the directory holds the new bucket, and the split of the first page does not
slip. -/
def Hashp.GrowsWell (s : Hashp) : Prop :=
  s.dirHolds ∧ ∀ htab, expandTable s.htab = some htab →
    ¬ Slips (fun key => Hashp.callHash { s with htab } key == s.oldBucket)
      (s.firstPairs s.oldBucket)

theorem mem_parts (stays : Bytes → Bool) (l : List Pair) (pair : Pair) :
    (pair ∈ staying stays l ∨ pair ∈ moving stays l) ↔ pair ∈ l := by
  simp only [staying, moving, List.mem_filter]
  cases stays pair.1 <;> simp

theorem Hashp.Stores.expand (stores : s.Stores f m) (well : s.GrowsWell) :
    Ends (fun t => ∃ g, t.Stores g m) (· = .failure) s.expand := by
  obtain ⟨room, careful⟩ := well
  obtain ⟨u, grown, htab, hash, dir, bufs, made⟩ := Hashp.growDir_ok room
  rw [Hashp.expand, grown]
  simp only [bind, Except.bind]
  cases expanded : expandTable u.htab with
  | none => exact rfl
  | some h =>
    rw [htab] at expanded
    obtain ⟨masked, early, moves⟩ := stores.masked.expand expanded
    obtain ⟨bucket, -, -⟩ := expandTable_masks expanded
    have arranged : Hashp.Arranged { u with htab := h } f :=
      (stores.arranged.same htab dir bufs made).expand (by rw [htab]; exact expanded)
    obtain ⟨v, state⟩ : ∃ v : Hashp, v = { u with htab := h } := ⟨_, rfl⟩
    have newHash : ∀ key, v.callHash key = h.bucketOf (s.hash key) := by
      intro key
      rw [state, Hashp.callHash_eq]
      change h.bucketOf (u.hash key) = _
      rw [hash]
    have differ : s.oldBucket ≠ s.htab.maxBucket + 1 := by
      rw [Hashp.oldBucket]
      lia
    have stays : (fun key => v.callHash key == s.oldBucket) =
        fun key => Hashp.callHash { s with htab := h } key == s.oldBucket := by
      funext key
      rw [newHash]
      rfl
    rw [← state] at arranged
    change Ends _ _ (Hashp.splitPage { u with htab := h } s.oldBucket (s.htab.maxBucket + 1))
    rw [← state]
    refine (arranged.splitPage differ stores.loose (stores.beyond _ (by lia)) (stores.unique _)
      ?_).mono ?_ fun _ => id
    · intro b l rest chain
      rw [stays, ← stores.arranged.firstPairs chain]
      exact careful h expanded
    · rintro t ⟨g, arranged', calm, loose, stay, move, others⟩
      have hashes : ∀ key, t.callHash key = h.bucketOf (s.hash key) :=
        fun key => (calm.callHash key).trans (newHash key)
      have thtab :
        t.htab.maxBucket = s.htab.maxBucket + 1 := by rw [calm.maxBucket, state, ← bucket]
      have elsewhere : ∀ bucket, bucket ≠ s.oldBucket → bucket ≠ s.htab.maxBucket + 1 →
          g (some bucket) = f (some bucket) :=
        others
      refine ⟨g, arranged', loose, ?_, ?_, ?_, ?_, ?_⟩
      · obtain ⟨j, low, high, reaches, inside⟩ := masked
        refine ⟨j, ?_, ?_, ?_, ?_⟩
        · rw [calm.lowMask, state]
          exact low
        · rw [calm.highMask, state]
          exact high
        · rw [thtab, ← bucket]
          exact reaches
        · rw [thtab, ← bucket]
          exact inside
      · intro bucket' above
        rw [thtab] at above
        rw [elsewhere bucket' (by rw [Hashp.oldBucket]; lia) (by lia)]
        exact stores.beyond bucket' (by lia)
      · intro bucket' pair member
        rw [hashes]
        have before : ∀ bucket, pair ∈ (f (some bucket)).pairs →
            s.htab.bucketOf (s.hash pair.1) = bucket :=
          fun bucket here => stores.home bucket pair here
        by_cases old : bucket' = s.oldBucket
        · rw [old, stay] at member
          have here : (v.callHash pair.1 == s.oldBucket) = true := (List.mem_filter.mp member).2
          rw [newHash] at here
          rw [old]
          exact eq_of_beq here
        · by_cases new : bucket' = s.htab.maxBucket + 1
          · rw [new, move] at member
            obtain ⟨inside, away⟩ := List.mem_filter.mp member
            change (!(v.callHash pair.1 == s.oldBucket)) = true at away
            rw [newHash] at away
            rcases moves (s.hash pair.1) with same | ⟨moved, -⟩
            · rw [same, before _ inside, beq_self_eq_true] at away
              cases away
            · rw [moved, new]
          · rw [elsewhere bucket' old new] at member
            rcases moves (s.hash pair.1) with same | ⟨-, away⟩
            · rw [same, before _ member]
            · rw [before _ member] at away
              exact absurd away old
      · intro bucket'
        by_cases old : bucket' = s.oldBucket
        · rw [old, stay]
          exact (stores.unique s.oldBucket).sublist (List.filter_sublist.map _)
        · by_cases new : bucket' = s.htab.maxBucket + 1
          · rw [new, move]
            exact (stores.unique s.oldBucket).sublist (List.filter_sublist.map _)
          · rw [elsewhere bucket' old new]
            exact stores.unique bucket'
      · intro key val
        rw [stores.map]
        constructor
        · rintro ⟨bucket', member⟩
          by_cases old : bucket' = s.oldBucket
          · rw [old, ← mem_parts fun key => v.callHash key == s.oldBucket] at member
            rcases member with here | there
            · exact ⟨s.oldBucket, by rwa [stay]⟩
            · exact ⟨s.htab.maxBucket + 1, by rwa [move]⟩
          · have real : bucket' ≠ s.htab.maxBucket + 1 := by
              rintro rfl
              rw [stores.beyond _ (Nat.lt_succ_self _)] at member
              cases member
            exact ⟨bucket', by rwa [elsewhere bucket' old real]⟩
        · rintro ⟨bucket', member⟩
          by_cases old : bucket' = s.oldBucket
          · rw [old, stay] at member
            exact ⟨s.oldBucket, (List.mem_filter.mp member).1⟩
          · by_cases new : bucket' = s.htab.maxBucket + 1
            · rw [new, move] at member
              exact ⟨s.oldBucket, (List.mem_filter.mp member).1⟩
            · rw [elsewhere bucket' old new] at member
              exact ⟨bucket', member⟩

/-- Only the chain of one key changes, and there only what it holds of this key. -/
theorem Hashp.Stores.change {m' : Bytes → Option Bytes} (stores : s.Stores f m)
    (arranged : t.Arranged g) (calm : s.Calm t)
    (others : ∀ k, k ≠ some (s.callHash key) → g k = f k)
    (rest : ∀ key', key' ≠ key → m' key' = m key') (same : ∀ pair : Pair, pair.1 ≠ key →
      (pair ∈ (g (some (s.callHash key))).pairs ↔ pair ∈ (f (some (s.callHash key))).pairs))
    (own : ∀ val, m' key = some val ↔ (key, val) ∈ (g (some (s.callHash key))).pairs)
    (unique : (keys (g (some (s.callHash key))).pairs).Nodup) : t.Stores g m' := by
  have inside : s.callHash key ≤ s.htab.maxBucket := stores.masked.bucketOf_le _
  have apart : ∀ bucket, bucket ≠ s.callHash key → g (some bucket) = f (some bucket) :=
    fun bucket other => others _ (by simpa using other)
  have home : ∀ bucket, ∀ pair ∈ (g (some bucket)).pairs, s.callHash pair.1 = bucket := by
    intro bucket pair member
    by_cases here : bucket = s.callHash key
    · by_cases this : pair.1 = key
      · rw [this, here]
      · rw [here, same pair this] at member
        rw [here]
        exact stores.home _ pair member
    · rw [apart bucket here] at member
      exact stores.home bucket pair member
  refine ⟨arranged, (others none (by rintro ⟨⟩)).trans stores.loose, ?_, ?_, ?_, ?_, ?_⟩
  · obtain ⟨j, low, high, reaches, within⟩ := stores.masked
    refine ⟨j, calm.lowMask.trans low, calm.highMask.trans high, ?_, ?_⟩
    · rwa [calm.maxBucket]
    · rwa [calm.maxBucket]
  · intro bucket above
    rw [calm.maxBucket] at above
    rw [apart bucket (by omega)]
    exact stores.beyond bucket above
  · intro bucket pair member
    rw [calm.callHash]
    exact home bucket pair member
  · intro bucket
    by_cases here : bucket = s.callHash key
    · rw [here]
      exact unique
    · rw [apart bucket here]
      exact stores.unique bucket
  · intro key' val
    by_cases this : key' = key
    · rw [this, own]
      constructor
      · exact fun member => ⟨_, member⟩
      · rintro ⟨bucket, member⟩
        rwa [home bucket _ member]
    · rw [rest key' this, stores.map_at]
      by_cases here : s.callHash key' = s.callHash key
      · rw [here, ← same (key', val) this]
        constructor
        · exact fun member => ⟨_, member⟩
        · rintro ⟨bucket, member⟩
          rwa [← here, home bucket _ member]
      · rw [← apart _ here]
        constructor
        · exact fun member => ⟨_, member⟩
        · rintro ⟨bucket, member⟩
          rwa [home bucket _ member]

theorem mem_keys {l : List Pair} : key ∈ keys l ↔ ∃ val, (key, val) ∈ l := by
  rw [keys, List.mem_map]
  constructor
  · rintro ⟨⟨key', val⟩, member, rfl⟩
    exact ⟨val, member⟩
  · rintro ⟨val, member⟩
    exact ⟨(key, val), member, rfl⟩

theorem Hashp.Stores.absent (stores : s.Stores f m) :
    m key = none ↔ key ∉ keys (f (some (s.callHash key))).pairs := by
  rw [mem_keys, not_exists, Option.eq_none_iff_forall_ne_some]
  exact forall_congr' fun val => not_congr (stores.map_at key val)

theorem Hashp.Stores.lookup (stores : s.Stores f m) (key : Bytes) :
    ∃ t g b, t.Stores g m ∧ s.Calm t ∧
    ((∃ c front val back rest, g (some (t.callHash key)) = c ++ (b, front ++ (key, val) :: back) ::
      rest ∧
        m key = some val ∧ s.lookup key = .ok (t, b, some (2 * front.length + 1))) ∨
      (m key = none ∧ ∃ c l, g (some (t.callHash key)) = c ++ [(b, l)] ∧
        s.lookup key = .ok (t, b, none))) := by
  obtain ⟨g, l, rest, arranged, calm, chain, others, before⟩ :=
    stores.arranged.getBucket (s.callHash key)
  rw [Hashp.lookup]
  obtain ⟨⟨t, first⟩, got⟩ : ∃ r, r = s.getBucket (s.callHash key) := ⟨_, rfl⟩
  rw [← got] at arranged calm chain ⊢
  have pairs : (g (some (s.callHash key))).pairs = (f (some (s.callHash key))).pairs := by
    rcases before with ⟨none, rfl, rfl⟩ | same
    · rw [chain, none]
      rfl
    · rw [same]
  have stores' :
    t.Stores g m := stores.change arranged calm others (fun _ _ => rfl) (fun _ _ => by rw [pairs])
      (fun val => by rw [pairs]; exact stores.map_at key val) (by rw [pairs]; exact stores.unique _)
  have linked := arranged.linked (some (s.callHash key))
  have length := arranged.indexed.length_le (some (s.callHash key))
  simp only [chain, Nodes.ids, List.length_map, List.length_cons] at length
  rw [chain] at linked
  rw [← calm.callHash] at chain
  rcases @Linked.search _ _ _ _ key (t.made + 1) linked (by omega) with
    ⟨c, b, front, val, back, rest', split, found⟩ | ⟨missing, c, b, l', split, found⟩
  · refine ⟨t, g, b, stores', calm, .inl ⟨c, front, val, back, rest', chain.trans split, ?_, found⟩⟩
    rw [stores'.map_at, chain, split, Nodes.pairs_append, Nodes.pairs_cons]
    simp
  · refine ⟨t, g, b, stores', calm, .inr ⟨?_, c, l', chain.trans split, found⟩⟩
    rw [stores'.absent, chain]
    exact missing

theorem Hashp.Stores.enter {c rest : Nodes} {l : List Pair} (stores : s.Stores f m)
    (absent : m key = none) (here : f (some (s.callHash key)) = c ++ (b, l) :: rest)
    (fits : Fits s.bsize key val) :
    Ends (fun r => ∃ g, r.1.Stores g (Function.update m key (some val))) (· = .failure)
      (s.enter b key val) := by
  refine (stores.arranged.enter here fits).mono ?_ fun _ => id
  rintro r ⟨g, entered⟩
  refine ⟨g, stores.change entered.arranged entered.calm entered.others (fun _ other =>
    Function.update_of_ne other ..)
      ?_ ?_ ?_⟩
  · intro pair other
    rw [entered.pairs.mem_iff, List.mem_cons]
    exact or_iff_right fun this => other (congrArg Prod.fst this)
  · intro val'
    have none : (key, val') ∉ (f (some (s.callHash key))).pairs :=
      fun member => stores.absent.mp absent (mem_keys.mpr ⟨val', member⟩)
    rw [entered.pairs.mem_iff, List.mem_cons, or_iff_left none, Function.update_self]
    simp [eq_comm]
  · have perm :
        (keys (g (some (s.callHash key))).pairs).Perm
        (key :: keys (f (some (s.callHash key))).pairs) :=
      entered.pairs.map _
    rw [perm.nodup_iff, List.nodup_cons]
    exact ⟨stores.absent.mp absent, stores.unique _⟩

theorem Hashp.Stores.delete {c rest : Nodes} {front back : List Pair} (stores : s.Stores f m)
    (here : f (some (s.callHash key)) = c ++ (b, front ++ (key, val) :: back) :: rest) :
    ∃ g, (s.delete b (2 * front.length + 1)).Stores g (Function.update m key none) ∧
      s.Calm (s.delete b (2 * front.length + 1)) ∧
        g (some (s.callHash key)) = c ++ (b, front ++ back) :: rest := by
  obtain ⟨g, arranged, calm, chain, others, perm⟩ := stores.arranged.delete here
  have unique := stores.unique (s.callHash key)
  have perm' :
      (keys (f (some (s.callHash key))).pairs).Perm
      (key :: keys (g (some (s.callHash key))).pairs) :=
    perm.map _
  rw [perm'.nodup_iff, List.nodup_cons] at unique
  refine ⟨g, stores.change arranged calm others (fun _ other => Function.update_of_ne other ..) ?_
    ?_ unique.2, calm, chain⟩
  · intro pair other
    rw [perm.mem_iff, List.mem_cons]
    exact (or_iff_right fun this => other (congrArg Prod.fst this)).symm
  · intro val'
    rw [Function.update_self]
    constructor
    · rintro ⟨⟩
    · exact fun member => absurd (mem_keys.mpr ⟨val', member⟩) unique.1

end Stores

section Calls

variable {m : Bytes → Option Bytes} {action : Action}

def Action.Small (bsize : Nat) : Action → Prop
  | .put key val | .putnew key val => (pageInit bsize).pairfits key val
  | .get _ | .delete _ => True

instance (bsize : Nat) (action : Action) : Decidable (action.Small bsize) :=
  match action with
  | .put key val | .putnew key val =>
    inferInstanceAs (Decidable ((pageInit bsize).pairfits key val))
  | .get _ | .delete _ => inferInstanceAs (Decidable True)

/-- Where the call makes the table grow, the table is one that grows well. -/
def Hashp.Careful (s : Hashp) (action : Action) : Prop :=
  ∀ t, s.entered action = .ok (t, true) → t.GrowsWell

theorem pairfits_small {bsize : Nat} (wide : 6 ≤ bsize) (small : bsize < 2 ^ 16)
    (fits : (pageInit bsize).pairfits key val) : Fits bsize key val := by
  have free := (pageInit_holds wide small).free
  have count := (pageInit_holds wide small).count
  obtain ⟨-, room⟩ := fits
  rw [PAIRSIZE, OVFLSIZE] at room
  rw [Fits]
  rw [fill_nil] at free
  simp at count
  lia

theorem Hashp.Stores.addel {c rest : Nodes} {l : List Pair} (stores : s.Stores f m)
    (absent : m key = none) (here : f (some (s.callHash key)) = c ++ (b, l) :: rest)
    (fits : Fits s.bsize key val) (careful : ∀ t, s.enter b key val = .ok (t, true) → t.GrowsWell) :
    Ends (fun t => ∃ g, t.Stores g (Function.update m key (some val))) (· = .failure)
      (s.addel b key val) := by
  rw [Hashp.addel]
  refine (stores.enter absent here fits).known.bind ?_
  rintro ⟨t, grow⟩ ⟨⟨g, entered⟩, known⟩
  cases grow with
  | false => exact ⟨g, entered⟩
  | true => exact entered.expand (careful t known)

theorem Hashp.Stores.access (stores : s.Stores f m) (small : action.Small s.bsize)
    (careful : s.Careful action) :
    Ends (fun r => ∃ g, r.1.Stores g (answerOf m action).1 ∧ r.2 = (answerOf m action).2)
      (· = .failure)
      (s.access action) := by
  obtain ⟨t, g, b, stores', calm, ends⟩ := stores.lookup action.key
  have wide := stores'.arranged.sane.wide
  have narrow := stores'.arranged.sane.small
  rw [← calm.bsize] at small
  rw [Hashp.Careful, Hashp.entered] at careful
  rw [Hashp.access]
  rcases ends with ⟨c, front, val, back, rest, here, found, looked⟩ | ⟨missing, c, l, here, looked⟩
  · rw [looked] at careful ⊢
    cases action with
    | get key =>
      have found : m key = some val := found
      have linked := stores'.arranged.linked (some (t.callHash key))
      rw [show g (some (t.callHash key)) = _ from here] at linked
      obtain ⟨-, next, -, same, -, -⟩ := linked.at.1.pair rfl
      have data : slice (t.page b).bytes ((t.page b).bp (2 * front.length + 1 + 1))
          ((t.page b).bp (2 * front.length + 1) - (t.page b).bp (2 * front.length + 1 + 1)) =
            val := by
        rw [← next, Nat.add_sub_cancel_left, same]
      refine ⟨g, ?_, ?_⟩
      · simpa only [answerOf, found] using stores'
      · simp only [answerOf, found]
        exact congrArg Answer.data data
    | put key val' =>
      obtain ⟨g', deleted, calm', chain⟩ := stores'.delete here
      have fits := pairfits_small wide narrow small
      rw [← calm'.bsize] at fits
      rw [← calm'.callHash] at chain
      refine (deleted.addel (Function.update_self ..) chain fits careful).bind ?_
      rintro u ⟨h, entered⟩
      refine ⟨h, ?_, rfl⟩
      rw [Function.update_idem] at entered
      exact entered
    | putnew key val' =>
      have found : m key = some val := found
      refine ⟨g, ?_, ?_⟩
      · simpa only [answerOf, found] using stores'
      · simp only [answerOf, found]
    | delete key =>
      have found : m key = some val := found
      obtain ⟨g', deleted, -, -⟩ := stores'.delete here
      refine ⟨g', ?_, ?_⟩
      · simp only [answerOf, found]
        exact deleted
      · simp only [answerOf, found]
  · rw [looked] at careful ⊢
    cases action with
    | get key | delete key =>
      have missing : m key = none := missing
      refine ⟨g, ?_, ?_⟩
      · simpa only [answerOf, missing] using stores'
      · simp only [answerOf, missing]
    | put key val =>
      refine (stores'.addel missing here (pairfits_small wide narrow small) careful).bind ?_
      rintro u ⟨h, entered⟩
      exact ⟨h, entered, rfl⟩
    | putnew key val =>
      refine (stores'.addel missing here (pairfits_small wide narrow small) careful).bind ?_
      rintro u ⟨h, entered⟩
      have missing : m key = none := missing
      refine ⟨h, ?_, ?_⟩
      · simp only [answerOf, missing]
        exact entered
      · simp only [answerOf, missing]

end Calls

section Open

variable {m : Bytes → Option Bytes} {action : Action} {ret : Action × Answer}

theorem initHtab_masks {bshift : Nat} {ffactor nelem : Int}
    (made : initHtab bshift ffactor nelem = some h) :
    h.bshift = bshift ∧ h.Masked := by
  rw [initHtab] at made
  obtain ⟨l2, level⟩ : ∃ l2, log2 (max ((nelem - 1).tdiv ffactor + 1) 2).toNat = l2 := ⟨_, rfl⟩
  simp only [level] at made
  by_cases many : 2 ^ l2 ≥ MAXBUCKETS
  · rw [if_pos many] at made
    cases made
  · rw [if_neg many] at made
    obtain ⟨-, rfl⟩ := initBitmap_some made
    have positive := Nat.two_pow_pos l2
    have double : 2 ^ (l2 + 1) = 2 ^ l2 * 2 := Nat.pow_succ ..
    refine ⟨rfl, l2, rfl, ?_, ?_, ?_⟩
    · change 2 ^ l2 <<< 1 - 1 = _
      rw [Nat.shiftLeft_eq, double]
    · change 2 ^ l2 ≤ 2 ^ l2 - 1 + 1
      lia
    · change 2 ^ l2 - 1 + 1 ≤ _
      lia

theorem hashOpen_stores {hash : Bytes → Nat} {bshift : Nat} {ffactor nelem : Int}
    (wide : 3 ≤ bshift) (small : bshift < 16)
    (opened : hashOpen hash bshift ffactor nelem = some s) :
    s.Stores (fun _ => []) fun _ => none := by
  rw [hashOpen] at opened
  obtain ⟨h, made, rest⟩ := Option.bind_eq_some_iff.mp opened
  cases rest
  obtain ⟨shift, masked⟩ := initHtab_masks made
  have eight : 2 ^ 3 ≤ 2 ^ bshift := Nat.pow_le_pow_right (by decide) wide
  have limit : 2 ^ bshift < 2 ^ 16 := Nat.pow_lt_pow_right (by decide) small
  refine ⟨⟨⟨?_, ?_, (by rintro _ ⟨⟩), (by rintro _ ⟨⟩), ?_⟩, ⟨fun _ => rfl, fun _ => List.nodup_nil,
    nofun, (by rintro _ _ ⟨⟩), (by rintro _ _ ⟨⟩), (by rintro _ ⟨⟩)⟩, fun _ => trivial⟩, rfl,
    masked, fun _ _ => rfl, (by rintro _ _ ⟨⟩), fun _ => List.nodup_nil, ?_⟩
  · change 6 ≤ 2 ^ h.bshift
    rw [shift]
    omega
  · change 2 ^ h.bshift < 2 ^ 16
    rw [shift]
    exact limit
  · refine (Table.Sound.init made).distinct.mono ?_
    rintro a ⟨-, b, early, -⟩
    exact absurd early (Nat.not_lt_zero b)
  · simp [Nodes.pairs]

/-- A call for a pair that fits on a page, and its answer when it does not end in an error. -/
def Hashp.Returns (s : Hashp) (call : Action × Answer) (t : Hashp) : Prop :=
  call.1.Small s.bsize ∧ s.access call.1 = .ok (t, call.2)

def Hashp.Call (s : Hashp) (call : Action × Answer) (t : Hashp) : Prop :=
  s.Careful call.1 ∧ s.Returns call t

theorem Hashp.Stores.call (stores : s.Stores f m) (called : s.Call ret t) :
    ∃ m', MapCall m ret m' ∧ ∃ g, t.Stores g m' := by
  obtain ⟨careful, small, ended⟩ := called
  have ends := stores.access small careful
  rw [ended] at ends
  obtain ⟨g, stores', answer⟩ := ends
  exact ⟨_, Prod.ext rfl answer.symm, g, stores'⟩

theorem filter_absent {l : List Pair} (absent : key ∉ keys l) :
    l.filter (fun pair => pair.1 = key) = [] := by
  rw [List.filter_eq_nil_iff]
  rintro ⟨key', val⟩ member same
  have same : key' = key := by simpa using same
  exact absent (mem_keys.mpr ⟨val, same ▸ member⟩)

theorem filter_unique {l : List Pair} (unique : (keys l).Nodup) (member : (key, val) ∈ l) :
    l.filter (fun pair => pair.1 = key) = [(key, val)] := by
  induction l with
  | nil => cases member
  | cons pair l ih =>
    obtain ⟨absent, unique⟩ := List.nodup_cons.mp unique
    rcases List.mem_cons.mp member with rfl | later
    · rw [List.filter_cons_of_pos (by simp), filter_absent absent]
    · have other : pair.1 ≠ key := by
        rintro rfl
        exact absent (mem_keys.mpr ⟨val, later⟩)
      rw [List.filter_cons_of_neg (by simpa using other), ih unique later]

/-- The chain of the bucket of a key, and no other, has the pair of the key once. -/
theorem Hashp.Stores.placed (stores : s.Stores f m) (bucket : Nat) (key : Bytes) :
    (s.pairsOf bucket).filter (fun pair => pair.1 = key) =
      if s.callHash key = bucket then (m key).toList.map fun val => (key, val) else [] := by
  rw [stores.arranged.pairsOf]
  by_cases here : s.callHash key = bucket
  · rw [if_pos here, ← here]
    cases found : m key with
    | none => exact filter_absent (stores.absent.mp found)
    | some val => exact filter_unique (stores.unique _) ((stores.map_at key val).mp found)
  · rw [if_neg here]
    refine filter_absent fun member => ?_
    obtain ⟨val, member⟩ := mem_keys.mp member
    exact here (stores.home bucket _ member)

/-- Each run of calls on a new table is one on a finite map that starts empty: what it answers is
what the map answers, each pair of the map is once in the chain of its bucket and nowhere else, and
no further call goes astray. -/
theorem hash_refines_map {hash : Bytes → Nat} {bshift : Nat} {ffactor nelem : Int}
    (wide : 3 ≤ bshift) (small : bshift < 16) (opened : hashOpen hash bshift ffactor nelem = some s)
    {calls : List (Action × Answer)} (run : Run Hashp.Call s calls t) :
    ∃ m, Run MapCall (fun _ => none) calls m ∧
      (∀ bucket key, (t.pairsOf bucket).filter (fun pair => pair.1 = key) =
        if t.callHash key = bucket then (m key).toList.map fun val => (key, val) else []) ∧
      ∀ action, action.Small t.bsize → t.Careful action →
        Ends (fun r => r.2 = (answerOf m action).2) (· = .failure) (t.access action) := by
  have steps : ∀ (s : Hashp) (call : Action × Answer) (t : Hashp) (m : Bytes → Option Bytes),
      (∃ f, s.Stores f m) →
      s.Call call t → ∃ m', MapCall m call m' ∧ ∃ g, t.Stores g m' := by
    rintro s call t m ⟨f, stores⟩ called
    exact stores.call called
  obtain ⟨m, answered, g, stores⟩ := run.simulate steps ⟨_, hashOpen_stores wide small opened⟩
  refine ⟨m, answered, stores.placed, ?_⟩
  intro action fits careful
  refine (stores.access fits careful).mono ?_ fun _ => id
  rintro r ⟨-, -, answer⟩
  exact answer

def Hashp.tryCall (s : Hashp) (call : Action × Answer) : Option Hashp :=
  match s.access call.1 with
  | .ok (t, answer) => if call.1.Small s.bsize ∧ answer = call.2 then some t else none
  | .error _ => none

theorem Hashp.tryCall_returns (tried : s.tryCall ret = some t) : s.Returns ret t := by
  rw [Hashp.tryCall] at tried
  cases ended : s.access ret.1 with
  | error e =>
    rw [ended] at tried
    cases tried
  | ok r =>
    obtain ⟨u, answer⟩ := r
    rw [ended] at tried
    by_cases same : ret.1.Small s.bsize ∧ answer = ret.2
    · simp only [if_pos same, Option.some.injEq] at tried
      exact ⟨same.1, by rw [ended, tried, same.2]⟩
    · simp only [if_neg same] at tried
      cases tried

/-- The call does not make the table grow, or the pair of empty key and data is not in the way. -/
def Hashp.plain (s : Hashp) (action : Action) : Bool :=
  match s.entered action with
  | .ok (t, true) => decide t.dirHolds && decide (([], []) ∉ t.firstPairs t.oldBucket)
  | _ => true

theorem Hashp.plain_careful (plain : s.plain action = true) : s.Careful action := by
  intro t grows
  rw [Hashp.plain, grows] at plain
  obtain ⟨holds, absent⟩ := Bool.and_eq_true_iff.mp plain
  refine ⟨of_decide_eq_true holds, ?_⟩
  rintro htab - ⟨front, pair, back, pairs, -⟩
  refine of_decide_eq_true absent ?_
  rw [pairs]
  simp

def Hashp.tryPlain (s : Hashp) (call : Action × Answer) : Option Hashp :=
  if s.plain call.1 then s.tryCall call else none

theorem Hashp.tryPlain_call (tried : s.tryPlain ret = some t) : s.Call ret t := by
  rw [Hashp.tryPlain] at tried
  by_cases plain : s.plain ret.1 = true
  · rw [if_pos plain] at tried
    exact ⟨Hashp.plain_careful plain, Hashp.tryCall_returns tried⟩
  · rw [if_neg plain] at tried
    cases tried

def firstByte (key : Bytes) : Nat := (key.headD 2).toNat

def fourPuts (key : Bytes) : List (Action × Answer) :=
  [(.put key [], .success), (.put [0] [7], .success), (.put [1] [], .success),
    (.put [3] [], .success)]

theorem hash_refines_map_fourPuts : ∃ s t, hashOpen firstByte 6 1 1 = some s ∧
    Run Hashp.Call s (fourPuts [2]) t ∧
    t.htab.maxBucket = 2 ∧
    ∃ m, Run MapCall (fun _ => none) (fourPuts [2]) m ∧
      (∀ bucket key, (t.pairsOf bucket).filter (fun pair => pair.1 = key) =
        if t.callHash key = bucket then (m key).toList.map fun val => (key, val) else []) ∧
      ∀ action, action.Small t.bsize → t.Careful action →
        Ends (fun r => r.2 = (answerOf m action).2) (· = .failure) (t.access action) := by
  have replayed : ((hashOpen firstByte 6 1 1).bind fun s =>
      replay Hashp.tryPlain s (fourPuts [2])).map (fun t => t.htab.maxBucket) =
        some 2 := by decide +kernel
  obtain ⟨t, found, grown⟩ := Option.map_eq_some_iff.mp replayed
  obtain ⟨s, opened, found⟩ := Option.bind_eq_some_iff.mp found
  have run : Run Hashp.Call s (fourPuts [2]) t :=
    replay_run (fun _ _ _ => Hashp.tryPlain_call) found
  exact ⟨s, t, opened, run, grown, hash_refines_map (by decide) (by decide) opened run⟩

/-- The pair of empty key and data moves to bucket 2, and the pair behind it is lost. -/
theorem hash_loses_pair : ∃ s t, hashOpen firstByte 6 1 1 = some s ∧
    Run Hashp.Returns s (fourPuts [] ++ [(.get [0], .abnormal)]) t ∧
    ¬ ∃ m, Run MapCall (fun _ => none) (fourPuts [] ++ [(.get [0], .abnormal)]) m := by
  have replayed : ((hashOpen firstByte 6 1 1).bind fun s =>
      replay Hashp.tryCall s (fourPuts [] ++ [(.get [0], .abnormal)])).isSome =
        true := by decide +kernel
  obtain ⟨t, found⟩ := Option.isSome_iff_exists.mp replayed
  obtain ⟨s, opened, found⟩ := Option.bind_eq_some_iff.mp found
  refine ⟨s, t, opened, replay_run (fun _ _ _ => Hashp.tryCall_returns) found, ?_⟩
  apply not_mapRun
  decide +kernel

end Open

end FreeBsd.Db
