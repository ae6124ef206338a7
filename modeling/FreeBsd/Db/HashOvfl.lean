import FreeBsd.Db.HashPage
import FreeBsd.Lib.Levels
import Mathlib.Data.Nat.Log
import Mathlib.Data.Set.Insert
import Mathlib.Logic.Relation

/-! Bits, addresses and file pages of the overflow pages. Bit `g` of the maps stands for the page
with the number `g + 1`; the levels of these numbers are the split points, counted by SPARES. -/
namespace FreeBsd.Db

open FreeBsd.Lib

variable {h h' : Htab} {g s o b t : Nat}

section Addresses

theorem log2From_spec (num : Nat) : ∀ fuel i, num ≤ 2 ^ (i + fuel) →
    num ≤ 2 ^ log2From num fuel i (2 ^ i) ∧ i ≤ log2From num fuel i (2 ^ i) ∧
      (i < log2From num fuel i (2 ^ i) → 2 ^ (log2From num fuel i (2 ^ i) - 1) < num) := by
  intro fuel
  induction fuel with
  | zero =>
    intro i bound
    exact ⟨bound, Nat.le_refl _, fun later => absurd later (Nat.lt_irrefl _)⟩
  | succ fuel ih =>
    intro i bound
    rw [log2From]
    by_cases more : 2 ^ i < num
    · rw [if_pos more, show 2 ^ i <<< 1 = 2 ^ (i + 1) by rw [Nat.shiftLeft_eq, ← Nat.pow_add]]
      obtain ⟨reaches, later, first⟩ := ih (i + 1) (by rwa [Nat.add_right_comm, Nat.add_assoc])
      refine ⟨reaches, by omega, fun _ => ?_⟩
      rcases Nat.lt_or_eq_of_le later with beyond | here
      · exact first beyond
      · rwa [← here]
    · rw [if_neg more]
      exact ⟨by omega, Nat.le_refl _, fun later => absurd later (Nat.lt_irrefl _)⟩

theorem log2_spec {num : Nat} (bound : num ≤ 2 ^ 32) :
    num ≤ 2 ^ log2 num ∧ (0 < log2 num → 2 ^ (log2 num - 1) < num) := by
  obtain ⟨reaches, -, first⟩ := log2From_spec num 32 0 (by simpa using bound)
  exact ⟨reaches, first⟩

theorem log2_eq {num : Nat} (bound : num ≤ 2 ^ 32) (above : 2 ^ t < num)
    (reaches : num ≤ 2 ^ (t + 1)) :
    log2 num = t + 1 := by
  obtain ⟨low, high⟩ := log2_spec bound
  have later : t < log2 num := (Nat.pow_lt_pow_iff_right (by decide : 1 < 2)).mp (by lia)
  have earlier := (Nat.pow_lt_pow_iff_right (by decide : 1 < 2)).mp
    (Nat.lt_of_lt_of_le (high (by lia)) reaches)
  lia

theorem splitnum_oaddr (inside : o ≤ SPLITMASK) : SPLITNUM (OADDR_OF s o) = s := by
  simp only [SPLITNUM, OADDR_OF, SPLITSHIFT, SPLITMASK, Nat.shiftLeft_eq,
    Nat.shiftRight_eq_div_pow] at *
  lia

theorem opagenum_oaddr (inside : o ≤ SPLITMASK) : OPAGENUM (OADDR_OF s o) = o := by
  simp only [OPAGENUM, OADDR_OF, SPLITSHIFT, SPLITMASK, Nat.shiftLeft_eq] at *
  lia

def Htab.addrOf (h : Htab) (g : Nat) : Nat :=
  OADDR_OF (h.splitOf (g + 1)) (g + 1 - h.before (h.splitOf (g + 1)))

def Htab.pages (h : Htab) : Nat := h.spares h.ovflPoint

structure Htab.Counted (h : Htab) : Prop where
  word : 2 ≤ h.bshift
  point : 1 ≤ h.ovflPoint ∧ h.ovflPoint < NCACHED
  first : h.spares 0 = 0
  counts : CountsUpTo h.spares h.ovflPoint
  room : ∀ i < h.ovflPoint, h.spares (i + 1) ≤ h.spares i + SPLITMASK
  some_page : 1 ≤ h.pages
  buckets : h.maxBucket + 1 ≤ 2 ^ h.ovflPoint

theorem Htab.splitOf_eq (h : Htab) (p : Nat) : h.splitOf p = levelOf h.spares h.ovflPoint p := rfl

theorem Htab.before_succ (h : Htab) (s : Nat) : h.before (s + 1) = h.spares s := rfl

theorem Htab.Counted.place (counted : h.Counted) (inside : g < h.pages) :
    ∃ s < h.ovflPoint, h.splitOf (g + 1) = s + 1 ∧ h.spares s ≤ g ∧ g < h.spares (s + 1) ∧
      g + 1 - h.spares s ≤ SPLITMASK := by
  have low := @levelOf_le h.spares h.ovflPoint (g + 1)
  have reaches := @le_levelOf h.spares h.ovflPoint (g + 1) inside
  have above := @countBefore_levelOf h.spares h.ovflPoint _ (Nat.succ_pos g)
  rw [← h.splitOf_eq] at low reaches above
  cases split : h.splitOf (g + 1) with
  | zero =>
    rw [split, counted.first] at reaches
    lia
  | succ s =>
    rw [split] at low reaches above
    rw [countBefore_succ] at above
    have := counted.room s (by lia)
    exact ⟨s, by lia, rfl, by lia, by lia, by lia⟩

theorem Htab.addrOf_eq (split : h.splitOf (g + 1) = s + 1) :
    h.addrOf g = OADDR_OF (s + 1) (g + 1 - h.spares s) := by
  rw [Htab.addrOf, split, Htab.before_succ]

theorem Htab.Counted.bitAddress_addrOf (counted : h.Counted) (inside : g < h.pages) :
    h.bitAddress (h.addrOf g) = g := by
  obtain ⟨s, -, split, low, -, fits⟩ := counted.place inside
  rw [Htab.addrOf_eq split, Htab.bitAddress, splitnum_oaddr fits, opagenum_oaddr fits,
    Htab.before_succ]
  lia

theorem Htab.Counted.addrOf_inj (counted : h.Counted) {g g' : Nat} (inside : g < h.pages)
    (inside' : g' < h.pages) (same : h.addrOf g = h.addrOf g') : g = g' := by
  rw [← counted.bitAddress_addrOf inside, same, counted.bitAddress_addrOf inside']

/-- The file page of a bucket but the first lies after the pages of the split points up to its own.
-/
theorem Htab.bucketToPage_level (h : Htab) (small : t < NCACHED) (low : 2 ^ t ≤ b)
    (high : b < 2 ^ (t + 1)) :
    h.bucketToPage b = h.hdrpages + b + h.spares t := by
  have positive := Nat.two_pow_pos t
  have fits : 2 ^ (t + 1) ≤ 2 ^ 32 := Nat.pow_le_pow_right (by decide) small
  rw [Htab.bucketToPage, if_pos (by lia), log2_eq (t := t) (by lia) (by lia) (by lia),
    Nat.add_sub_cancel]
  lia

theorem Htab.bucketToPage_pow (h : Htab) (small : s < NCACHED) :
    h.bucketToPage (2 ^ (s + 1) - 1) = h.hdrpages + 2 ^ (s + 1) - 1 + h.spares s := by
  have double : 2 ^ (s + 1) = 2 ^ s + 2 ^ s := by rw [Nat.pow_succ]; lia
  have positive := Nat.two_pow_pos s
  rw [h.bucketToPage_level small (by lia) (by lia)]
  lia

theorem Htab.Counted.page_addrOf (counted : h.Counted) (inside : g < h.pages) :
    h.oaddrToPage (h.addrOf g) = h.hdrpages + 2 ^ h.splitOf (g + 1) + g := by
  obtain ⟨s, below, split, low, -, fits⟩ := counted.place inside
  have := counted.point
  have two : 2 ≤ 2 ^ (s + 1) := Nat.le_self_pow (by lia) 2
  rw [Htab.addrOf_eq split, Htab.oaddrToPage, splitnum_oaddr fits, opagenum_oaddr fits,
    h.bucketToPage_pow (by lia), split]
  lia

theorem Htab.Counted.page_bucket (counted : h.Counted) (positive : b ≠ 0)
    (inside : b ≤ h.maxBucket) :
    ∃ t < h.ovflPoint, 2 ^ t ≤ b ∧ b < 2 ^ (t + 1) ∧
      h.bucketToPage b = h.hdrpages + b + h.spares t := by
  have buckets := counted.buckets
  have low := Nat.pow_log_le_self 2 positive
  have high := Nat.lt_pow_succ_log_self (by decide : 1 < 2) b
  have early : Nat.log 2 b < h.ovflPoint :=
    (Nat.pow_lt_pow_iff_right (by decide : 1 < 2)).mp (by lia)
  have := counted.point
  exact ⟨Nat.log 2 b, early, low, high, h.bucketToPage_level (by lia) low high⟩

theorem Htab.Counted.pages_apart (counted : h.Counted) {g g' : Nat} (order : g < g')
    (inside : g' < h.pages) :
    h.oaddrToPage (h.addrOf g) < h.oaddrToPage (h.addrOf g') := by
  rw [counted.page_addrOf (by lia), counted.page_addrOf inside]
  have later : h.splitOf (g + 1) ≤ h.splitOf (g' + 1) := levelOf_mono (by lia)
  have := Nat.pow_le_pow_right (by decide : 1 ≤ 2) later
  lia

theorem Htab.Counted.buckets_apart (counted : h.Counted) {b b' : Nat} (order : b < b')
    (inside : b' ≤ h.maxBucket) : h.bucketToPage b < h.bucketToPage b' := by
  obtain ⟨t', below', -, high', page'⟩ := counted.page_bucket (by lia) inside
  rw [page']
  by_cases zero : b = 0
  · subst zero
    rw [Htab.bucketToPage, if_neg (by simp)]
    lia
  · obtain ⟨t, below, low, -, page⟩ := counted.page_bucket zero (by lia)
    rw [page]
    have early : t < t' + 1 :=
      (Nat.pow_lt_pow_iff_right (by decide : 1 < 2)).mp (by lia)
    have := counted.counts.le (s := t) (t := t') (by lia) (by lia)
    lia

theorem Htab.Counted.bucket_page_apart (counted : h.Counted) (here : b ≤ h.maxBucket)
    (inside : g < h.pages) :
    h.bucketToPage b ≠ h.oaddrToPage (h.addrOf g) := by
  rw [counted.page_addrOf inside]
  obtain ⟨s, below, split, low, high, -⟩ := counted.place inside
  rw [split]
  by_cases zero : b = 0
  · subst zero
    have := Nat.two_pow_pos (s + 1)
    rw [Htab.bucketToPage, if_neg (by simp)]
    lia
  · obtain ⟨t, early, reaches, ends, page⟩ := counted.page_bucket zero here
    rw [page]
    rcases Nat.lt_or_ge s t with before | after
    · have := counted.counts.le (s := s + 1) (t := t) before (by lia)
      have := Nat.pow_le_pow_right (by decide : 1 ≤ 2) (show s + 1 ≤ t from before)
      lia
    · have := counted.counts.le after (by lia)
      have := Nat.pow_le_pow_right (by decide : 1 ≤ 2) (show t + 1 ≤ s + 1 by lia)
      lia

end Addresses

section Growth

/-- What a table keeps as it grows: the counts of the split points before the current one. -/
structure Htab.Extends (h h' : Htab) : Prop where
  bshift : h'.bshift = h.bshift
  hdrpages : h'.hdrpages = h.hdrpages
  point : h.ovflPoint ≤ h'.ovflPoint
  kept : ∀ i < h.ovflPoint, h'.spares i = h.spares i
  last : h.pages ≤ h'.spares h.ovflPoint
  buckets : h.maxBucket ≤ h'.maxBucket

theorem Htab.Extends.refl (h : Htab) : h.Extends h :=
  ⟨rfl, rfl, Nat.le_refl _, fun _ _ => rfl, Nat.le_refl _, Nat.le_refl _⟩

theorem Htab.Extends.trans {h'' : Htab} (first : h.Extends h') (second : h'.Extends h'') :
    h.Extends h'' := by
  have := first.point
  refine ⟨?_, ?_, ?_, ?_, ?_, ?_⟩
  · rw [second.bshift, first.bshift]
  · rw [second.hdrpages, first.hdrpages]
  · exact Nat.le_trans first.point second.point
  · intro i below
    rw [second.kept i (by omega), first.kept i below]
  · rcases Nat.lt_or_eq_of_le first.point with grew | same
    · rw [second.kept _ grew]
      exact first.last
    · rw [same]
      have last := first.last
      rw [same] at last
      exact Nat.le_trans last second.last
  · exact Nat.le_trans first.buckets second.buckets

theorem Htab.Extends.pages_le (extends_ : h.Extends h') (counted : h'.Counted) :
    h.pages ≤ h'.pages :=
  Nat.le_trans extends_.last (counted.counts.le extends_.point (Nat.le_refl _))

theorem Htab.Extends.mapBits (extends_ : h.Extends h') : h'.mapBits = h.mapBits := by
  rw [Htab.mapBits, Htab.mapBits, extends_.bshift]

theorem Htab.Extends.addrOf (extends_ : h.Extends h') (counted' : h'.Counted) (counted : h.Counted)
    (inside : g < h.pages) : h'.addrOf g = h.addrOf g := by
  obtain ⟨s, below, split, -, -, -⟩ := counted.place inside
  have split' : h'.splitOf (g + 1) = s + 1 := by
    rw [← split]
    exact levelOf_congr counted'.counts extends_.point (Nat.succ_pos _) inside extends_.kept
      extends_.last
  rw [Htab.addrOf_eq split, Htab.addrOf_eq split', extends_.kept s below]

theorem Htab.Extends.bitAddress (extends_ : h.Extends h') (counted : h.Counted)
    (inside : g < h.pages) :
    h'.bitAddress (h.addrOf g) = h.bitAddress (h.addrOf g) := by
  obtain ⟨s, below, split, -, -, fits⟩ := counted.place inside
  rw [Htab.addrOf_eq split, Htab.bitAddress, Htab.bitAddress, splitnum_oaddr fits, Htab.before_succ,
    Htab.before_succ, extends_.kept s below]

theorem Htab.Extends.oaddrToPage (extends_ : h.Extends h') (counted : h.Counted)
    (inside : g < h.pages) :
    h'.oaddrToPage (h.addrOf g) = h.oaddrToPage (h.addrOf g) := by
  obtain ⟨s, below, split, -, -, fits⟩ := counted.place inside
  have := counted.point
  rw [Htab.addrOf_eq split, Htab.oaddrToPage, Htab.oaddrToPage, splitnum_oaddr fits,
    h.bucketToPage_pow (by omega), h'.bucketToPage_pow (by omega), extends_.kept s below,
    extends_.hdrpages]

theorem Htab.Extends.bucketToPage (extends_ : h.Extends h') (counted : h.Counted)
    (inside : b ≤ h.maxBucket) :
    h'.bucketToPage b = h.bucketToPage b := by
  by_cases zero : b = 0
  · rw [Htab.bucketToPage, Htab.bucketToPage, if_neg (by simpa using zero),
      if_neg (by simpa using zero), extends_.hdrpages]
  · obtain ⟨t, early, low, high, page⟩ := counted.page_bucket zero inside
    have := counted.point
    rw [page, h'.bucketToPage_level (by omega) low high, extends_.kept t early, extends_.hdrpages]

theorem Htab.Counted.more (counted : h.Counted) (bshift : h'.bshift = h.bshift)
    (hdrpages : h'.hdrpages = h.hdrpages) (buckets : h'.maxBucket = h.maxBucket)
    (point : h'.ovflPoint = h.ovflPoint) (kept : ∀ i < h.ovflPoint, h'.spares i = h.spares i)
    (grows : h.pages ≤ h'.pages) (fits : h'.pages - h.before h.ovflPoint ≤ SPLITMASK) :
      h.Extends h' ∧ h'.Counted := by
  have pages : h'.pages = h'.spares h.ovflPoint := by rw [Htab.pages, point]
  have range := counted.point
  refine ⟨⟨bshift, hdrpages, by lia, kept, by lia, by lia⟩, ⟨?_, by lia, ?_, ?_, ?_, ?_, ?_⟩⟩
  · rw [bshift]
    exact counted.word
  · rw [kept 0 (by lia)]
    exact counted.first
  · intro i below
    rw [kept i (by lia)]
    rcases Nat.lt_or_eq_of_le (show i + 1 ≤ h.ovflPoint by lia) with early | last
    · rw [kept _ early]
      exact counted.counts i (by lia)
    · have := counted.counts i (by lia)
      rw [last] at this ⊢
      rw [Htab.pages] at grows
      lia
  · intro i below
    rw [kept i (by lia)]
    rcases Nat.lt_or_eq_of_le (show i + 1 ≤ h.ovflPoint by lia) with early | last
    · rw [kept _ early]
      exact counted.room i (by lia)
    · rw [← last, Htab.before_succ] at fits
      rw [last]
      lia
  · have := counted.some_page
    lia
  · rw [buckets, point]
    exact counted.buckets

theorem Htab.Counted.next (counted : h.Counted) (bshift : h'.bshift = h.bshift)
    (hdrpages : h'.hdrpages = h.hdrpages) (point : h'.ovflPoint = h.ovflPoint + 1)
    (small : h.ovflPoint + 1 < NCACHED) (kept : ∀ i ≤ h.ovflPoint, h'.spares i = h.spares i)
    (grows : h.pages ≤ h'.pages) (fits : h'.pages ≤ h.pages + SPLITMASK)
    (order : h.maxBucket ≤ h'.maxBucket) (buckets : h'.maxBucket + 1 ≤ 2 ^ (h.ovflPoint + 1)) :
      h.Extends h' ∧ h'.Counted := by
  have pages : h'.pages = h'.spares (h.ovflPoint + 1) := by rw [Htab.pages, point]
  have last := kept _ (Nat.le_refl _)
  have known : h.pages = h.spares h.ovflPoint := rfl
  refine ⟨⟨bshift, hdrpages, by lia, fun i below => kept i (by lia), Nat.le_of_eq last.symm, order⟩,
    ⟨?_, by lia, ?_, ?_, ?_, ?_, ?_⟩⟩
  · rw [bshift]
    exact counted.word
  · rw [kept 0 (by lia)]
    exact counted.first
  · intro i below
    rw [kept i (by lia)]
    rcases Nat.lt_or_eq_of_le (show i ≤ h.ovflPoint by lia) with early | at_point
    · rw [kept _ (by lia)]
      exact counted.counts i (by lia)
    · rw [at_point]
      lia
  · intro i below
    rw [kept i (by lia)]
    rcases Nat.lt_or_eq_of_le (show i ≤ h.ovflPoint by lia) with early | at_point
    · rw [kept _ (by lia)]
      exact counted.room i (by lia)
    · rw [at_point]
      lia
  · have := counted.some_page
    lia
  · rw [point]
    exact buckets

theorem Htab.Counted.addrOf_last (counted : h.Counted) (above : h.before h.ovflPoint < h.pages) :
    h.addrOf (h.pages - 1) = OADDR_OF h.ovflPoint (h.pages - h.before h.ovflPoint) := by
  have := counted.some_page
  have split : h.splitOf h.pages = h.ovflPoint :=
    levelOf_eq counted.counts (Nat.le_refl _) above (Nat.le_refl _)
  rw [Htab.addrOf, Nat.sub_add_cancel this, split]

def Htab.SameMaps (h h' : Htab) : Prop :=
  h'.mapp = h.mapp ∧ h'.nmaps = h.nmaps ∧ h'.bitmaps = h.bitmaps

theorem Htab.countPage_pages (h : Htab) : h.countPage.pages = h.pages + 1 := Function.update_self ..

theorem Htab.countPage_spares (h : Htab) {i : Nat} (other : i ≠ h.ovflPoint) :
    h.countPage.spares i = h.spares i :=
  Function.update_of_ne other ..

theorem Htab.countPage_before (h : Htab) :
    h.countPage.before h.ovflPoint = h.before h.ovflPoint := by
  cases point : h.ovflPoint with
  | zero => rfl
  | succ s => rw [Htab.before_succ, Htab.before_succ, h.countPage_spares (by omega)]

theorem Htab.nextSplit_spares (h : Htab) {i : Nat} (below : i ≤ h.ovflPoint) :
    (h.countPage.nextSplit h.ovflPoint).spares i = h.spares i := by
  simp only [Htab.nextSplit]
  rcases Nat.lt_or_eq_of_le below with early | rfl
  · rw [Function.update_of_ne (by omega), Function.update_of_ne (by omega),
      h.countPage_spares (by omega)]
  · have := h.countPage_pages
    rw [Function.update_self]
    exact Nat.sub_eq_of_eq_add this

theorem Htab.nextSplit_pages (h : Htab) :
    (h.countPage.nextSplit h.ovflPoint).pages = h.pages + 1 := by
  simp only [Htab.pages, Htab.nextSplit]
  rw [Function.update_of_ne (by simp), Function.update_self]
  exact h.countPage_pages

theorem Htab.Counted.addPage (counted : h.Counted) (added : h.addPage = some (h', s, o)) :
    h.Extends h' ∧ h'.Counted ∧ h.SameMaps h' ∧ h'.lastFreed = h.pages ∧ h'.pages = h.pages + 1 ∧
      s = h'.ovflPoint ∧ o = h'.pages - h'.before s ∧ 1 ≤ o ∧ o ≤ SPLITMASK ∧
      (o = 1 ∨ o = h.pages + 1 - h.before h.ovflPoint) := by
  have ordered : h.before h.ovflPoint ≤ h.pages := countBefore_le counted.counts (Nat.le_refl _)
  have offset : h.countPage.spares h.ovflPoint - h.countPage.before h.ovflPoint =
      h.pages + 1 - h.before h.ovflPoint := by
    rw [h.countPage_before]
    exact congrArg (· - _) h.countPage_pages
  simp only [Htab.addPage, offset] at added
  by_cases full : h.pages + 1 - h.before h.ovflPoint > SPLITMASK
  · rw [if_pos full] at added
    by_cases small : h.ovflPoint + 1 < NCACHED
    · rw [if_neg (by lia)] at added
      obtain ⟨rfl, rfl, rfl⟩ := added
      have pages := h.nextSplit_pages
      have last := h.nextSplit_spares (Nat.le_refl _)
      have buckets := counted.buckets
      obtain ⟨extends_, counted'⟩ :=
        @Htab.Counted.next _ (h.countPage.nextSplit h.ovflPoint) counted rfl rfl rfl small
          (fun i => h.nextSplit_spares) (by lia) (by rw [pages]; simp [SPLITMASK]) (Nat.le_refl _)
        (Nat.le_trans buckets (Nat.pow_le_pow_right (by decide) (by lia)))
      refine ⟨extends_, counted', ⟨rfl, rfl, rfl⟩, rfl, pages, rfl, ?_,
        Nat.le_refl _, by decide, .inl rfl⟩
      rw [Htab.before_succ, last, pages, Htab.pages]
      lia
    · rw [if_pos (by lia)] at added
      cases added
  · rw [if_neg full] at added
    obtain ⟨rfl, rfl, rfl⟩ := added
    have pages := h.countPage_pages
    obtain ⟨extends_, counted'⟩ := @Htab.Counted.more _ h.countPage counted rfl rfl rfl rfl
      (fun i below => h.countPage_spares (by lia)) (by lia) (by lia)
    refine ⟨extends_, counted', ⟨rfl, rfl, rfl⟩, rfl, pages, rfl, ?_, by lia, by lia, .inr rfl⟩
    rw [h.countPage_before, pages]

theorem initBitmap_some {pnum nbits ndx : Nat} (made : initBitmap h pnum nbits ndx = some h') :
    ((nbits - 1) / BITS_PER_MAP + 1) <<< INT_TO_BYTE ≤ 2 ^ h.bshift ∧ h' = { h with
      nmaps := h.nmaps + 1
      bitmaps := Function.update h.bitmaps ndx pnum
      mapp := Function.update h.mapp ndx (some (clearBelow nbits)) } := by
  rw [initBitmap] at made
  by_cases small : ((nbits - 1) / BITS_PER_MAP + 1) <<< INT_TO_BYTE > 2 ^ h.bshift
  · rw [if_pos small] at made
    cases made
  · rw [if_neg small] at made
    exact ⟨by omega, (Option.some.inj made).symm⟩

theorem Htab.Counted.addMap {freePage a : Nat} (counted : h.Counted) (here : s = h.ovflPoint)
    (offset : o = h.pages - h.before s) (left : o + 1 ≤ SPLITMASK)
    (added : h.addMap s o freePage = some (h', a)) :
    h.Extends h' ∧ h'.Counted ∧ h'.pages = h.pages + 1 ∧ h'.lastFreed = h.lastFreed ∧
      h'.mapp = Function.update h.mapp freePage (some (clearBelow 1)) ∧
      h'.bitmaps = Function.update h.bitmaps freePage (OADDR_OF s o) ∧ h'.nmaps = h.nmaps + 1 ∧
      h'.before h'.ovflPoint < h'.pages ∧
        a = OADDR_OF h'.ovflPoint (h'.pages - h'.before h'.ovflPoint) := by
  subst here
  have ordered : h.before h.ovflPoint ≤ h.pages := countBefore_le counted.counts (Nat.le_refl _)
  rw [Htab.addMap] at added
  by_cases small : freePage < NCACHED
  · rw [if_neg (by lia)] at added
    obtain ⟨h₁, made, rest⟩ := Option.bind_eq_some_iff.mp added
    obtain ⟨-, here⟩ := initBitmap_some made
    rw [if_neg (by lia)] at rest
    obtain ⟨rfl, rfl⟩ := rest
    subst here
    obtain ⟨spares, grown⟩ :
        ∃ c, c = Function.update h.spares h.ovflPoint (h.spares h.ovflPoint + 1) := ⟨_, rfl⟩
    have last : spares h.ovflPoint = h.pages + 1 := by
      rw [grown]
      exact Function.update_self ..
    have kept : ∀ i < h.ovflPoint, spares i = h.spares i := by
      intro i below
      rw [grown]
      exact Function.update_of_ne (by lia) ..
    have grows : h.pages ≤ spares h.ovflPoint := by lia
    have fits : spares h.ovflPoint - h.before h.ovflPoint ≤ SPLITMASK := by lia
    obtain ⟨extends_, counted'⟩ := @Htab.Counted.more _ { h with
        nmaps := h.nmaps + 1
        bitmaps := Function.update h.bitmaps freePage (OADDR_OF h.ovflPoint o)
        mapp := Function.update h.mapp freePage (some (clearBelow 1))
        spares } counted rfl rfl rfl rfl kept grows fits
    have before : countBefore spares h.ovflPoint = h.before h.ovflPoint :=
      countBefore_congr kept (Nat.le_refl _)
    have address : OADDR_OF h.ovflPoint (o + 1) =
        OADDR_OF h.ovflPoint (spares h.ovflPoint - countBefore spares h.ovflPoint) := by
      rw [last, before]
      congr 1
      lia
    have above : countBefore spares h.ovflPoint < spares h.ovflPoint := by lia
    subst grown
    exact ⟨extends_, counted', last, rfl, rfl, rfl, rfl, above, address⟩
  · rw [if_pos (by lia)] at added
    cases added

end Growth

section Maps

def Htab.isSet (h : Htab) (g : Nat) : Bool :=
  (h.mapp (g / h.mapBits)).any fun map => map (g % h.mapBits)

theorem Htab.Counted.mapBits_pos (counted : h.Counted) : 32 ∣ h.mapBits ∧ 0 < h.mapBits := by
  have := counted.word
  obtain ⟨k, bits⟩ : ∃ k, h.bshift + 3 = 5 + k := ⟨h.bshift - 2, by omega⟩
  rw [Htab.mapBits, bits, Nat.pow_add]
  exact ⟨⟨2 ^ k, rfl⟩, Nat.mul_pos (by decide) (Nat.two_pow_pos k)⟩

theorem Htab.isSet_setBit (h : Htab) {g : Nat} (present : (h.mapp (g / h.mapBits)).isSome)
    (value : Bool) (f : Nat) :
    (h.setBit (g / h.mapBits) (g % h.mapBits) value).isSet f =
      if f = g then value else h.isSet f := by
  obtain ⟨map, found⟩ := Option.isSome_iff_exists.mp present
  simp only [Htab.isSet, Htab.setBit, found, Option.map_some]
  change (Function.update h.mapp (g / h.mapBits) (some (Function.update map (g % h.mapBits) value))
    (f / h.mapBits)).any (fun map => map (f % h.mapBits)) = _
  by_cases page : f / h.mapBits = g / h.mapBits
  · rw [page, Function.update_self, Option.any_some]
    by_cases bit : f % h.mapBits = g % h.mapBits
    · have same : f = g := by rw [← Nat.div_add_mod f h.mapBits, page, bit, Nat.div_add_mod]
      rw [bit, Function.update_self, if_pos same]
    · have other : f ≠ g := fun same => bit (by rw [same])
      rw [Function.update_of_ne bit, if_neg other, found, Option.any_some]
  · have other : f ≠ g := fun same => page (by rw [same])
    rw [Function.update_of_ne page, if_neg other]

theorem firstFree_spec (map : Bitmap) (j : Nat) (room : allSet map j = false) :
    firstFree map j < BITS_PER_MAP ∧ map (j * BITS_PER_MAP + firstFree map j) = false := by
  rw [firstFree]
  cases found : (List.range BITS_PER_MAP).find? fun b => !map (j * BITS_PER_MAP + b) with
  | none =>
    have full := List.find?_range_eq_none.mp found
    rw [allSet, List.all_eq_false] at room
    obtain ⟨b, inside, clear⟩ := room
    exact absurd (by simpa using full b (List.mem_range.mp inside)) clear
  | some b =>
    obtain ⟨clear, inside, -⟩ := List.find?_range_eq_some.mp found
    exact ⟨List.mem_range.mp inside, by simpa using clear⟩

theorem scanMap_some {map : Bitmap} {j last k : Nat} (found : scanMap map j last = some k) :
    k ≤ last / BITS_PER_MAP ∧ allSet map k = false := by
  rw [scanMap] at found
  have room := List.find?_some found
  have inside := List.mem_range'_1.mp (List.mem_of_find?_eq_some found)
  exact ⟨by omega, by simpa using room⟩

theorem Htab.Counted.scanMaps (counted : h.Counted) {first freePage freeBit i bit : Nat}
    (found : scanMaps h first freePage freeBit = some (i, bit)) (inside : freeBit < h.mapBits) :
    i ≤ freePage ∧ (h.mapp i).isSome ∧ bit < h.mapBits ∧ h.isSet (i * h.mapBits + bit) = false := by
  obtain ⟨i', member, hit⟩ := List.exists_of_findSome?_eq_some found
  have range := List.mem_range'_1.mp member
  cases present : h.mapp i' with
  | none =>
    rw [present] at hit
    cases hit
  | some map =>
    rw [present] at hit
    obtain ⟨k, scan, same⟩ := Option.map_eq_some_iff.mp hit
    obtain ⟨rfl, rfl⟩ := same
    obtain ⟨early, room⟩ := scanMap_some scan
    obtain ⟨low, clear⟩ := firstFree_spec map k room
    obtain ⟨⟨words, bits⟩, positive⟩ := counted.mapBits_pos
    have limit : (if i = freePage then freeBit else h.mapBits - 1) < h.mapBits := by
      by_cases last : i = freePage
      · rw [if_pos last]
        exact inside
      · rw [if_neg last]
        lia
    have small : k * BITS_PER_MAP + firstFree map k < h.mapBits := by
      rw [BITS_PER_MAP] at *
      lia
    refine ⟨by lia, by simp [present], small, ?_⟩
    rw [Htab.isSet, Nat.mul_comm, Nat.mul_add_div positive, Nat.div_eq_of_lt small, Nat.add_zero,
      present, Nat.mul_add_mod, Nat.mod_eq_of_lt small]
    exact clear

end Maps

end FreeBsd.Db
