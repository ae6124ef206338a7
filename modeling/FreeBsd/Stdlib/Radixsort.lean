import FreeBsd.Lib.Buckets
import FreeBsd.Lib.Pending
import Mathlib.Tactic.Ring

/-! `radixsort`: pointers to strings, sorted by the weights of their bytes. -/
namespace FreeBsd.Stdlib
open FreeBsd.Lib

section Model

def rspartition : Nat := 40
def rsshellIncrements : List Nat := [4, 1]
def NBUCKETS : Nat := 256
def sizeofPointer : Nat := 4
def sizeofContext : Nat := 12

structure Context where
  bot : Nat
  indx : Nat
  nmemb : Nat

/-- The `i` of the loop that computes the stack's size; `t2` is an `int`. -/
def contexts : (fuel : Nat) → (t2 : Int) → Nat
  | 0, _ => 0
  | fuel + 1, t2 =>
    let t1 := ((rspartition + 1) * (NBUCKETS - 2)) >>> 1
    if rspartition < t2 then
      (NBUCKETS - 1) + contexts fuel (Int.bmod (t2 + 1) (2 ^ 32) >>> (1 : Nat) - t1)
    else 0

/-- `tr`: the caller's table, or one in which `endbyte` has the lowest weight. -/
def table (tab : Option (BitVec 8 → BitVec 8)) (endbyte : BitVec 8) : BitVec 8 → BitVec 8 :=
  match tab with
  | some tab => tab
  | none => fun t1 => if t1 < endbyte then t1 + 1 else if t1 = endbyte then 0 else t1

variable {α : Type} (str : α → Nat → BitVec 8) (tr : BitVec 8 → BitVec 8)

def weight (a : α) (indx : Nat) : Nat := (tr (str a indx)).toNat

/-- The `while` that compares two strings from byte `indx` on, and the `if` behind it. -/
def exceeds : (fuel : Nat) → (s1 s2 : α) → (indx : Nat) → Option Bool
  | 0, _, _, _ => none
  | fuel + 1, s1, s2, indx =>
    let ch := weight str tr s1 indx
    if ch = weight str tr s2 indx ∧ ch ≠ 0 then exceeds fuel s1 s2 (indx + 1)
    else some (decide (weight str tr s2 indx < ch))

/-- The loop over `t2`, with `t` for `t2 + incr`; `room` bounds its turns. -/
def sift (fuel p indx incr : Nat) : (room : Nat) → (v : Nat → α) → (t : Nat) → Option (Nat → α)
  | 0, v, _ => some v
  | room + 1, v, t =>
    if incr ≤ t then
      match exceeds str tr fuel (v (p + (t - incr))) (v (p + t)) indx with
      | none => none
      | some true => sift fuel p indx incr room (exchange v (p + (t - incr)) (p + t)) (t - incr)
      | some false => some v
    else some v

def shellPass (fuel p indx incr : Nat) : (left : Nat) → (v : Nat → α) → (t1 : Nat) →
    Option (Nat → α)
  | 0, v, _ => some v
  | left + 1, v, t1 => (sift str tr fuel p indx incr t1 v t1).bind fun v =>
    shellPass fuel p indx incr left v (t1 + 1)

def shellsort (fuel : Nat) (v : Nat → α) (p indx nmemb : Nat) : Option (Nat → α) :=
  rsshellIncrements.foldlM (fun v incr => shellPass str tr fuel p indx incr (nmemb - incr) v incr) v

def count (v : Nat → α) (indx : Nat) : (i p : Nat) → (c : Nat → Nat) → Nat → Nat
  | 0, _, c => c
  | i + 1, p, c =>
    let k := weight str tr (v p) indx
    count v indx i (p + 1) (Function.update c k (c k + 1))

/-- The loop that sums the sizes in `c`, with `left` turns to go: `max`, and `c`. -/
def sums : (left i t1 t2 max : Nat) → (c : Nat → Nat) → Nat × (Nat → Nat)
  | 0, _, _, _, max, c => (max, c)
  | left + 1, i, t1, t2, max, c =>
    let c' := Function.update c i (c i + t1)
    if t2 < c i then sums left (i + 1) (c' i) (c i) i c' else sums left (i + 1) (c' i) t2 max c'

/-- The loop that puts the items into `l2`, from the last one on. -/
def distribute (v : Nat → α) (bot indx : Nat) : (i : Nat) → (c : Nat → Nat) → (l2 : Nat → α) →
    (Nat → Nat) × (Nat → α)
  | 0, c, l2 => (c, l2)
  | i + 1, c, l2 =>
    let k := weight str tr (v (bot + i)) indx
    distribute v bot indx i (Function.update c k (c k - 1))
      (Function.update l2 (c k - 1) (v (bot + i)))

def copyBack (v l2 : Nat → α) (bot nmemb : Nat) : Nat → α := fun p =>
  if bot ≤ p ∧ p < bot + nmemb then l2 (p - bot) else v p

/-- The values of `i` in the two loops over the buckets. -/
def order (max : Nat) : List Nat :=
  (List.range max).reverse.map (· + 1) ++ (List.range (NBUCKETS - 1 - max)).map (· + (max + 1))

/-- The body of these loops: `none` where `STACKPUSH` finds `limit` entries on the stack. -/
def bucketTurn (fuel limit bot indx : Nat) (c : Nat → Nat) (s : (Nat → α) × List Context)
    (i : Nat) :
    Option ((Nat → α) × List Context) :=
  let nmemb := c (i + 1) - c i
  let p := bot + c i
  if nmemb < 2 then some s
  else if rspartition < nmemb then
    if s.2.length < limit then some (s.1, ⟨p, indx, nmemb⟩ :: s.2) else none
  else (shellsort str tr fuel s.1 p indx nmemb).map fun v => (v, s.2)

/-- The `for (;;)`, with `fuel` for its turns and `compares` for each comparison. -/
def radixLoop (compares limit : Nat) :
    (fuel : Nat) → (v l2 : Nat → α) → (stack : List Context) → (bot indx nmemb : Nat) →
      Option (Nat → α)
  | 0, _, _, _, _, _, _ => none
  | fuel + 1, v, l2, stack, bot, indx, nmemb =>
    let summed := sums (NBUCKETS + 1) 0 0 rspartition 0 (count str tr v indx nmemb bot fun _ => 0)
    let placed := distribute str tr v bot indx nmemb summed.2 l2
    let v := copyBack v placed.2 bot nmemb
    match (order summed.1).foldlM (bucketTurn str tr compares limit bot (indx + 1) placed.1) (v,
      stack) with
    | none => none
    | some (v, []) => some v
    | some (v, top :: stack) => radixLoop compares limit fuel v placed.2 stack top.bot top.indx
      top.nmemb

/-- `radixsort`: the pointers it leaves and what it returns. `malloc` says which sizes there is
memory for, and `l2` is what the temporary array holds. -/
def radixsort (malloc : Nat → Bool) (fuel : Nat) (l1 l2 : Nat → α) (nmemb : Nat)
    (tab : Option (BitVec 8 → BitVec 8)) (endbyte : BitVec 8) : Option ((Nat → α) × Int) :=
  if nmemb ≤ 1 then some (l1, 0)
  else
    let i := contexts nmemb nmemb
    if i ≠ 0 ∧ ¬ malloc (i * sizeofContext) then some (l1, -1)
    else if ¬ malloc (sizeofPointer * nmemb) then some (l1, -1)
    else (radixLoop str (table tab endbyte) fuel i fuel l1 l2 [] 0 0 nmemb).map fun v => (v, 0)

end Model

section Stack

/-- What the stack may grow by on top of a context of `m` times the cutoff: all but two buckets just
above the cutoff, and half of the rest on top of them. -/
def growth (m : Nat) : Nat := if m < NBUCKETS then m else (NBUCKETS - 2) + growth ((m - 253) / 2)
termination_by m
decreasing_by
  unfold NBUCKETS at *
  lia

theorem growth_small {m : Nat} (small : m < 256) : growth m = m := by
  rw [growth]
  exact if_pos small

theorem growth_large {m : Nat} (large : 256 ≤ m) : growth m = 254 + growth ((m - 253) / 2) := by
  rw [growth]
  exact if_neg (Nat.not_lt.mpr large)

theorem growth_succ (m : Nat) : growth m ≤ growth (m + 1) ∧ growth (m + 1) ≤ growth m + 1 := by
  induction m using Nat.strong_induction_on with
  | _ m ih =>
    rcases Nat.lt_trichotomy m 255 with small | rfl | large
    · rw [growth_small (by lia : m < 256), growth_small (by lia : m + 1 < 256)]
      lia
    · rw [growth_large (by lia : 256 ≤ 255 + 1), growth_small (by lia : 255 < 256),
        growth_small (by lia)]
      lia
    · rw [growth_large (by lia : 256 ≤ m), growth_large (by lia : 256 ≤ m + 1)]
      by_cases same : (m + 1 - 253) / 2 = (m - 253) / 2
      · rw [same]
        lia
      · have next : (m + 1 - 253) / 2 = (m - 253) / 2 + 1 := by lia
        have half := ih ((m - 253) / 2) (by lia)
        rw [next]
        lia

theorem growth_add (m d : Nat) : growth m ≤ growth (m + d) ∧ growth (m + d) ≤ growth m + d := by
  induction d with
  | zero => exact ⟨Nat.le_refl _, Nat.le_refl _⟩
  | succ d ih =>
    have next := growth_succ (m + d)
    rw [← Nat.add_assoc]
    omega

theorem growth_mono {m m' : Nat} (less : m ≤ m') : growth m ≤ growth m' := by
  obtain ⟨d, rfl⟩ := Nat.exists_eq_add_of_le less
  exact (growth_add m d).1

theorem growth_pos {m : Nat} (positive : 1 ≤ m) : 1 ≤ growth m := by
  have least := growth_mono positive
  rwa [growth_small (by decide : 1 < 256)] at least

/-- On top of `j` contexts, the first one no smaller than `x` and the others above the cutoff. -/
theorem growth_split {m j x : Nat} (positive : 1 ≤ x) (few : j ≤ 254) (some : 1 ≤ j)
    (room : 2 * x + (j - 1) ≤ m) :
    j + growth x ≤ growth m := by
  by_cases small : m < 256
  · rw [growth_small small, growth_small (by lia)]
    lia
  · rw [growth_large (m := m) (by lia)]
    -- each bucket that is not there leaves room for half a one
    have half : growth x ≤ growth ((m - 253) / 2 + (254 - j)) := growth_mono (by lia)
    have step := (growth_add ((m - 253) / 2) (254 - j)).2
    lia

theorem growth_le_contexts {fuel n : Nat} (fits : n + 1 < 2 ^ 31) (enough : n ≤ fuel) :
    growth (n / 41) ≤ contexts fuel n := by
  induction fuel generalizing n with
  | zero =>
    have none : n = 0 := by lia
    rw [none, growth_small (by decide)]
    exact Nat.zero_le _
  | succ fuel ih =>
    rw [contexts]
    by_cases cutoff : n ≤ 40
    · rw [growth_small (by lia)]
      lia
    · have above : (rspartition : Int) < n := by
        have more : 40 < n := by lia
        exact Int.ofNat_lt.mpr more
      rw [if_pos above]
      have half : Int.bmod ((n : Int) + 1) (2 ^ 32) >>> (1 : Nat) = ((n + 1) / 2 : Nat) := by
        rw [Int.bmod_eq_of_le (by lia) (by lia), Int.shiftRight_eq_div_pow]
        lia
      rw [half]
      have t1 : ((rspartition + 1) * (NBUCKETS - 2)) >>> 1 = 5207 := by decide
      have buckets : NBUCKETS - 1 = 255 := rfl
      rw [t1, buckets]
      by_cases small : n / 41 < 256
      · rw [growth_small small]
        lia
      · have rest := ih (n := (n + 1) / 2 - 5207) (by lia) (by lia)
        have cast : (((n + 1) / 2 : Nat) : Int) - (5207 : Nat) =
          ((n + 1) / 2 - 5207 : Nat) := by lia
        rw [growth_large (by lia), cast]
        have step := (growth_succ (((n + 1) / 2 - 5207) / 41)).2
        have near : growth ((n / 41 - 253) / 2) ≤ growth (((n + 1) / 2 - 5207) / 41 + 1) :=
          growth_mono (by lia)
        lia

/-- The bound that the source names for the largest `int`. -/
example : contexts 31 (2 ^ 31 - 2) = 4590 := by decide +kernel

end Stack

section Shellsort

variable {α : Type} {str : α → Nat → BitVec 8} {tr : BitVec 8 → BitVec 8}
    {fuel p indx incr n t hi : Nat} {v : Nat → α}

/-- From byte `indx` on, with no more than `fuel` of them, the string ends. -/
def Ends (str : α → Nat → BitVec 8) (tr : BitVec 8 → BitVec 8) (fuel indx : Nat) (a : α) : Prop :=
  ∃ k, indx ≤ k ∧ k < indx + fuel ∧ weight str tr a k = 0

/-- From byte `indx` on, the first string comes not after the second one. -/
def From (str : α → Nat → BitVec 8) (tr : BitVec 8 → BitVec 8) (indx : Nat) (a b : α) : Prop :=
  NotAfter indx (weight str tr a) (weight str tr b)

theorem From.trans (a b c : α) (first : From str tr indx a b) (second : From str tr indx b c) :
    From str tr indx a c :=
  NotAfter.trans first second

theorem exceeds_spec {a b : α} (ends : Ends str tr fuel indx a) :
    ∃ more, exceeds str tr fuel a b indx = some more ∧ (more = false ↔ From str tr indx a b) := by
  induction fuel generalizing indx with
  | zero =>
    obtain ⟨k, low, high, _⟩ := ends
    exact absurd high (by lia)
  | succ fuel ih =>
    rw [exceeds]
    split
    · rename_i goesOn
      obtain ⟨k, low, high, zero⟩ := ends
      have later : k ≠ indx := fun here => goesOn.2 (here ▸ zero)
      have rest : Ends str tr fuel (indx + 1) a := ⟨k, by lia, by lia, zero⟩
      obtain ⟨more, run, iff⟩ := ih rest
      exact ⟨more, run, iff.trans ⟨.of_succ goesOn.1, fun order => order.succ goesOn.1 goesOn.2⟩⟩
    · rename_i stops
      refine ⟨_, rfl, decide_eq_false_iff_not.trans ⟨fun notLess => ?_, fun order less => ?_⟩⟩
      · rcases Nat.lt_or_eq_of_le (Nat.le_of_not_lt notLess) with less | same
        · exact .of_lt less
        · exact .of_end (by
            by_contra more
            exact stops ⟨same, more⟩)
      · exact absurd (order indx (Nat.le_refl indx) (.start indx _ _)) (Nat.not_le.mpr less)

/-- The loop over `t2` exchanges cells; with neighbours it puts the last one in its place. -/
theorem sift_spec (room : Nat) (positive : 1 ≤ incr)
    (ends : ∀ i, p ≤ i → i < hi → Ends str tr fuel indx (v i)) (inside : p + t < hi)
    (enough : t ≤ room) :
    ∃ v', sift str tr fuel p indx incr room v t = some v' ∧ Rearranges p hi v v' ∧
      (incr = 1 → Inserting (From str tr indx) p (p + t) hi v →
        Ordered (From str tr indx) p hi v') := by
  induction room generalizing v t with
  | zero =>
    refine ⟨v, rfl, .refl p hi v, fun _ inserting => inserting.ordered From.trans fun above => ?_⟩
    exact absurd above (by lia)
  | succ room ih =>
    rw [sift]
    by_cases far : incr ≤ t
    · rw [if_pos far]
      obtain ⟨more, run, iff⟩ :=
        exceeds_spec (b := v (p + t)) (ends (p + (t - incr)) (by lia) (by lia))
      rw [run]
      cases more with
      | true =>
        have swapped : Rearranges p hi v (exchange v (p + (t - incr)) (p + t)) :=
          .swap (by lia) (by lia)
        obtain ⟨v', run', rearranged, ordered⟩ :=
          ih (t := t - incr) (swapped.keeps ends) (by lia) (by lia)
        refine ⟨v', run', swapped.trans rearranged, ?_⟩
        rintro rfl inserting
        have next : p + (t - 1) + 1 = p + t := by lia
        have above : ¬ From str tr indx (v (p + (t - 1))) (v (p + t)) :=
          fun order => Bool.noConfusion (iff.mpr order)
        refine ordered rfl ?_
        rw [← next] at inserting above ⊢
        exact inserting.down (by lia) (by lia) (NotAfter.total above)
      | false =>
        refine ⟨v, rfl, .refl p hi v, ?_⟩
        rintro rfl inserting
        refine inserting.ordered From.trans fun above => ?_
        have before : p + t - 1 = p + (t - 1) := by lia
        rw [before]
        exact iff.mp rfl
    · rw [if_neg far]
      refine ⟨v, rfl, .refl p hi v, ?_⟩
      rintro rfl inserting
      exact inserting.ordered From.trans fun above => absurd above (by lia)

theorem shellPass_spec (left t1 : Nat) (positive : 1 ≤ incr)
    (ends : ∀ i, p ≤ i → i < hi → Ends str tr fuel indx (v i))
    (inside : left = 0 ∨ p + t1 + left ≤ hi) :
    ∃ v', shellPass str tr fuel p indx incr left v t1 = some v' ∧ Rearranges p hi v v' ∧
      (incr = 1 → Ordered (From str tr indx) p (p + t1) v →
        Ordered (From str tr indx) p (p + t1 + left) v') := by
  induction left generalizing v t1 with
  | zero => exact ⟨v, rfl, .refl p hi v, fun _ ordered => ordered⟩
  | succ left ih =>
    obtain ⟨v', run, rearranged, sifted⟩ :=
      sift_spec t1 positive (fun i low (high : i < p + t1 + 1) =>
      ends i low (by lia)) (Nat.lt_succ_self _) (Nat.le_refl t1)
    have rearranged : Rearranges p hi v v' := rearranged.mono (Nat.le_refl p) (by lia)
    obtain ⟨v'', run', rearranged', ordered⟩ := ih (t1 + 1) (rearranged.keeps ends) (.inr (by lia))
    refine ⟨v'', ?_, rearranged.trans rearranged', ?_⟩
    · rw [shellPass, run, Option.bind_some, run']
    · rintro rfl before
      have after := ordered rfl (sifted rfl (.last before))
      have last : p + (t1 + 1) + left = p + t1 + (left + 1) := by lia
      rwa [last] at after

theorem shellsort_spec (ends : ∀ i, p ≤ i → i < p + n → Ends str tr fuel indx (v i)) :
    ∃ v', shellsort str tr fuel v p indx n = some v' ∧ Sorts (From str tr indx) p (p + n) v v' := by
  obtain ⟨v', run, rearranged, _⟩ := shellPass_spec (n - 4) 4 (by decide : 1 ≤ 4) ends (by lia)
  obtain ⟨v'', run', rearranged', ordered⟩ := shellPass_spec (n - 1) 1 (Nat.le_refl 1)
    (rearranged.keeps ends) (by lia)
  refine ⟨v'', ?_, rearranged.trans rearranged', ?_⟩
  · unfold shellsort rsshellIncrements
    rw [List.foldlM_cons, run]
    change (shellPass str tr fuel p indx 1 (n - 1) v' 1).bind some = some v''
    rw [run', Option.bind_some]
  · exact (ordered rfl (.short (by lia))).mono (Nat.le_refl p) (by lia)

end Shellsort

end FreeBsd.Stdlib
