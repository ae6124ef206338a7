import FreeBsd.Lib.Rearrange
import Mathlib.Tactic.Ring

/-! `qsort`: elements of `size` bytes that are sorted in place. A pointer into the array is here the
number of its element; `FreeBsd.Stdlib.QsortPointers` has the pointers themselves. -/
namespace FreeBsd.Stdlib
open FreeBsd.Lib

section Model

abbrev Byte := BitVec 8

abbrev Memory := Nat → Byte

abbrev Element (size : Nat) := Fin size → Byte

def MTHRESH : Nat := 6
def THRESH : Nat := 4

variable {size : Nat}

def elements (size : Nat) (mem : Memory) : Nat → Element size := fun i k => mem (i * size + k)

def write (mem : Memory) (p : Nat) (ch : Byte) : Memory := fun q => if q = p then ch else mem q

def swapBytes : (cnt : Nat) → (mem : Memory) → (a b : Nat) → Memory
  | 0, mem, _, _ => mem
  | cnt + 1, mem, a, b => swapBytes cnt (write (write mem a (mem b)) b (mem a)) (a + 1) (b + 1)

def SWAP (size : Nat) (mem : Memory) (a b : Nat) :
    Memory := swapBytes size mem (a * size) (b * size)

/-- The inner `for` of `insertion_sort`: bytes move up by `size` while `s2 -= size` does not pass
`t2`. -/
def bubble (size t2 : Nat) : (fuel : Nat) → (mem : Memory) → (s1 : Nat) → Memory × Nat
  | 0, mem, s1 => (mem, s1)
  | fuel + 1, mem, s1 =>
    if t2 + size ≤ s1 then bubble size t2 fuel (write mem s1 (mem (s1 - size)))
      (s1 - size) else (mem, s1)

/-- The `for` over the `cnt` bytes left of the element at `t1`; `room` bounds the elements below. -/
def insertBytes (size t2 room : Nat) : (cnt : Nat) → (mem : Memory) → (t1 : Nat) → Memory
  | 0, mem, _ => mem
  | cnt + 1, mem, t1 =>
    let (mem', s1) := bubble size t2 room mem t1
    insertBytes size t2 room cnt (write mem' s1 (mem t1)) (t1 + 1)

variable (compar : Element size → Element size → Int)

/-- The loop that looks for the place of the element `t1`, with `n` elements from `bot` up to `t2`:
the elements left when it ends. -/
def place (mem : Memory) (bot t1 : Nat) : (n : Nat) → Nat
  | 0 => 0
  | n + 1 =>
    if compar (elements size mem t1) (elements size mem (bot + n)) < 0 then place mem bot t1 n
    else n + 1

/-- `insertion_sort` with `left` elements from `t1` on. -/
def insertFrom (bot : Nat) : (left : Nat) → (mem : Memory) → (t1 : Nat) → Memory
  | 0, mem, _ => mem
  | left + 1, mem, t1 =>
    let t2 := bot + place compar mem bot t1 (t1 - bot)
    let mem := if t1 ≠ t2 then insertBytes size (t2 * size) t1 size mem (t1 * size) else mem
    insertFrom bot left mem (t1 + 1)

def insertionSort (mem : Memory) (bot nmemb : Nat) :
    Memory := insertFrom compar bot (nmemb - 1) mem (bot + 1)

/-- `for (; bot < mid && compar(bot, mid) <= 0; bot += size)` with `n` elements from `bot` to `mid`.
-/
def scanUp (mem : Memory) (mid : Nat) : (n bot : Nat) → Nat
  | 0, bot => bot
  | n + 1, bot =>
    if compar (elements size mem bot) (elements size mem mid) ≤ 0 then scanUp mem mid n (bot + 1)
    else bot

/-- `while (top > mid)`, as far as `top -= size` goes. -/
def scanDown (mem : Memory) (mid : Nat) : (n : Nat) → Nat
  | 0 => mid
  | n + 1 =>
    if compar (elements size mem mid) (elements size mem (mid + (n + 1))) ≤ 0 then
      scanDown mem mid n
    else mid + (n + 1)

structure Cursors where
  mem : Memory
  bot : Nat
  mid : Nat
  top : Nat
  didswap : Bool

/-- One turn of the partition loop, `none` at its `break`. -/
def partitionTurn (c : Cursors) : Option Cursors :=
  let bot := scanUp compar c.mem c.mid (c.mid - c.bot) c.bot
  let top := scanDown compar c.mem c.mid (c.top - c.mid)
  if c.mid < top then
    if bot = c.mid then some ⟨SWAP size c.mem bot top, bot + 1, top, top, true⟩
    else some ⟨SWAP size c.mem bot top, bot + 1, c.mid, top - 1, true⟩
  else if bot = c.mid then none
  else some ⟨SWAP size c.mem bot c.mid, bot, bot, top - 1, true⟩

/-- The partition loop, `none` where the fuel does not last. -/
def partition : (fuel : Nat) → Cursors → Option Cursors
  | 0, _ => none
  | fuel + 1, c =>
    match partitionTurn compar c with
    | some c => partition fuel c
    | none => some c

/-- The memory with the median of three elements at `mid`. -/
def median (mem : Memory) (bot mid top nmemb : Nat) : Memory :=
  if MTHRESH ≤ nmemb then
    let n1 := compar (elements size mem bot) (elements size mem mid)
    let n2 := compar (elements size mem mid) (elements size mem top)
    let t1 :=
      if n1 < 0 ∧ 0 < n2 then
        if compar (elements size mem bot) (elements size mem top) < 0 then top else bot
      else if 0 < n1 ∧ n2 < 0 then
        if 0 < compar (elements size mem bot) (elements size mem top) then top else bot
      else mid
    if t1 ≠ mid then SWAP size mem t1 mid else mem
  else mem

def SORT (mem : Memory) (bot n : Nat) : Memory :=
  if 1 < n then
    if n = 2 then
      if compar (elements size mem (bot + 1)) (elements size mem bot) < 0 then
        SWAP size mem (bot + 1) bot
      else mem
    else insertionSort compar mem bot n
  else mem

/-- `quick_sort`: the tail iteration `goto partition` is a call with the same fuel as the recursive
one. -/
def quickSort : (fuel : Nat) → (mem : Memory) → (bot nmemb : Nat) → Option Memory
  | 0, _, _, _ => none
  | fuel + 1, mem, bot, nmemb =>
    let mid := bot + nmemb / 2
    let top := bot + (nmemb - 1)
    let mem := median compar mem bot mid top nmemb
    match partition compar (fuel + 1) ⟨mem, bot, mid, top, false⟩ with
    | none => none
    | some c =>
      if ¬ c.didswap then some (insertionSort compar c.mem bot nmemb)
      else
        let nlower := c.mid - bot
        let mid := c.mid + 1
        let nupper := nmemb - nlower - 1
        if nupper < nlower then
          if THRESH ≤ nupper then (quickSort fuel c.mem mid nupper).bind fun mem =>
            quickSort fuel mem bot nlower
          else
            let mem := SORT compar c.mem mid nupper
            if nlower < THRESH then some (SORT compar mem bot nlower) else quickSort fuel mem bot
              nlower
        else if THRESH ≤ nlower then (quickSort fuel c.mem bot nlower).bind fun mem =>
          quickSort fuel mem mid nupper
        else
          let mem := SORT compar c.mem bot nlower
          if nupper < THRESH then some (SORT compar mem mid nupper) else quickSort fuel mem mid
            nupper

def qsort (fuel : Nat) (mem : Memory) (nmemb : Nat) : Option Memory :=
  if nmemb ≤ 1 then some mem
  else if THRESH ≤ nmemb then quickSort compar fuel mem 0 nmemb
  else some (insertionSort compar mem 0 nmemb)

structure TotalPreorder : Prop where
  flip : ∀ a b, compar a b < 0 ↔ 0 < compar b a
  trans : ∀ a b c, compar a b ≤ 0 → compar b c ≤ 0 → compar a c ≤ 0

end Model

section Bytes

variable {size cnt fuel room n a b i j k q s1 : Nat} {mem : Memory} {ch : Byte}

theorem address_inj {c d : Nat} (first : c < size) (second : d < size) :
    i * size + c = j * size + d ↔ i = j ∧ c = d := by
  constructor
  · intro eq
    have some : 0 < size := by omega
    have quot : (i * size + c) / size = (j * size + d) / size := congrArg (· / size) eq
    rw [Nat.mul_comm i, Nat.mul_comm j, Nat.mul_add_div some, Nat.mul_add_div some,
      Nat.div_eq_of_lt first, Nat.div_eq_of_lt second] at quot
    have same : i = j := quot
    subst same
    exact ⟨rfl, Nat.add_left_cancel eq⟩
  · rintro ⟨rfl, rfl⟩
    rfl

theorem elements_write (mem : Memory) (i : Nat) (ch : Byte) (c : Fin size) (k : Nat)
    (d : Fin size) :
    elements size (write mem (i * size + c) ch) k d =
      if k = i ∧ d = c then ch else elements size mem k d := by
  unfold elements write
  by_cases here : k = i ∧ d = c
  · rw [if_pos here, here.1, here.2, if_pos rfl]
  · rw [if_neg here, if_neg]
    intro eq
    obtain ⟨same, same'⟩ := (address_inj d.isLt c.isLt).mp eq
    exact here ⟨same, Fin.ext same'⟩

theorem swapBytes_apply (apart : a + cnt ≤ b ∨ b + cnt ≤ a) (q : Nat) :
    swapBytes cnt mem a b q =
      if a ≤ q ∧ q < a + cnt then mem (b + (q - a)) else
        if b ≤ q ∧ q < b + cnt then mem (a + (q - b)) else mem q := by
  induction cnt generalizing mem a b with
  | zero => rw [swapBytes, if_neg (by lia), if_neg (by lia)]
  | succ cnt ih =>
    rw [swapBytes, ih (by lia)]
    have other {p : Nat} (first : p ≠ a) (second : p ≠ b) :
        write (write mem a (mem b)) b (mem a) p = mem p := by
      unfold write
      rw [if_neg second, if_neg first]
    by_cases first : q = a
    · subst first
      have here : write (write mem q (mem b)) b (mem q) q = mem b := by
        unfold write
        rw [if_neg (by lia), if_pos rfl]
      rw [if_neg (by lia), if_neg (by lia), here, if_pos (by lia), Nat.sub_self]
      rfl
    by_cases second : q = b
    · subst second
      have here : write (write mem a (mem q)) q (mem a) q = mem a := if_pos rfl
      rw [if_neg (by lia), if_neg (by lia), here, if_neg (by lia), if_pos (by lia), Nat.sub_self]
      rfl
    by_cases left : a + 1 ≤ q ∧ q < a + 1 + cnt
    · rw [if_pos left, if_pos (by lia), other (by lia) (by lia), show b + 1 + (q - (a + 1)) =
        b + (q - a) by lia]
    by_cases right : b + 1 ≤ q ∧ q < b + 1 + cnt
    · rw [if_neg left, if_pos right, if_neg (by lia), if_pos (by lia), other (by lia) (by lia),
        show a + 1 + (q - (b + 1)) = a + (q - b) by lia]
    · rw [if_neg left, if_neg right, if_neg (by lia), if_neg (by lia), other first second]

theorem elements_SWAP (differ : i ≠ j) :
    elements size (SWAP size mem i j) = exchange (elements size mem) i j := by
  have apart : i * size + size ≤ j * size ∨ j * size + size ≤ i * size := by
    rcases Nat.lt_or_gt_of_ne differ with less | more
    · left
      rw [← Nat.succ_mul]
      exact Nat.mul_le_mul_right size less
    · right
      rw [← Nat.succ_mul]
      exact Nat.mul_le_mul_right size more
  funext k
  funext c
  have inside := c.isLt
  have range (i : Nat) : (i * size ≤ k * size + c ∧ k * size + c < i * size + size) ↔ k = i := by
    constructor
    · rintro ⟨low, high⟩
      have below : k * size + c = i * size + (k * size + c - i * size) := by lia
      exact ((address_inj inside (by lia)).mp below).1
    · rintro rfl
      lia
  change swapBytes size mem (i * size) (j * size) (k * size + c) = _
  rw [swapBytes_apply apart]
  by_cases first : k = i
  · subst first
    rw [if_pos ((range k).mpr rfl), exchange_left, Nat.add_sub_cancel_left]
    rfl
  by_cases second : k = j
  · subst second
    rw [if_neg (fun both => first ((range i).mp both)), if_pos ((range k).mpr rfl), exchange_right,
      Nat.add_sub_cancel_left]
    rfl
  · rw [if_neg (fun both => first ((range i).mp both)),
      if_neg (fun both => second ((range j).mp both)), exchange_other first second]
    rfl

/-- The bytes at one place of the elements `j` to `j + n`, each moved to the next. -/
theorem bubble_spec (mem : Memory) (c : Fin size) (enough : n ≤ fuel) :
    ∃ mem', bubble size (j * size) fuel mem ((j + n) * size + c) = (mem', j * size + c) ∧
      ∀ k d, elements size mem' k d =
        if d = c ∧ j < k ∧ k ≤ j + n then elements size mem (k - 1) d else elements size mem k
          d := by
  have inside := c.isLt
  induction n generalizing mem fuel with
  | zero =>
    refine ⟨mem, ?_, fun k d => (if_neg (by lia)).symm⟩
    cases fuel with
    | zero => rfl
    | succ fuel => rw [bubble, Nat.add_zero, if_neg (by lia)]
  | succ n ih =>
    obtain ⟨fuel, rfl⟩ : ∃ rest, fuel = rest + 1 := ⟨fuel - 1, by lia⟩
    have address : (j + (n + 1)) * size + c = (j + n) * size + c + size := by ring
    have low : j * size ≤ (j + n) * size := Nat.mul_le_mul_right size (Nat.le_add_right j n)
    obtain ⟨mem', run, moved⟩ :=
      ih (write mem ((j + (n + 1)) * size + c) (mem ((j + n) * size + c)))
      (by lia : n ≤ fuel)
    refine ⟨mem', ?_, fun k d => ?_⟩
    · rw [bubble, if_pos (by lia), show (j + (n + 1)) * size + c - size = (j + n) * size + c by lia]
      exact run
    · rw [moved]
      by_cases column : d = c
      · subst column
        by_cases between : j < k ∧ k ≤ j + n
        · rw [if_pos ⟨rfl, between⟩, if_pos ⟨rfl, between.1, by lia⟩, elements_write,
            if_neg (by lia)]
        · rw [if_neg (fun both => between both.2), elements_write]
          by_cases last : k = j + (n + 1)
          · subst last
            rw [if_pos ⟨rfl, rfl⟩, if_pos ⟨rfl, by lia, Nat.le_refl _⟩]
            rfl
          · rw [if_neg (fun both => last both.1), if_neg (by lia)]
      · rw [if_neg (fun both => column both.1), if_neg (fun both => column both.1), elements_write,
          if_neg (fun both => column both.2)]

/-- The bytes from `b` on of the element `j + n` come before those of the elements from `j` on. -/
theorem insertBytes_spec (mem : Memory) (enough : n ≤ room) (ends : b + cnt = size) (k : Nat)
    (d : Fin size) :
    elements size (insertBytes size (j * size) room cnt mem ((j + n) * size + b)) k d =
      if b ≤ d then rotate (elements size mem) j (j + n) k d else elements size mem k d := by
  induction cnt generalizing mem b with
  | zero => rw [insertBytes, if_neg (by have := d.isLt; lia)]
  | succ cnt ih =>
    have short : b < size := by lia
    obtain ⟨mem', run, moved⟩ := bubble_spec mem (j := j) ⟨b, short⟩ enough
    have run : bubble size (j * size) room mem ((j + n) * size + b) = (mem', j * size + b) := run
    have eq : insertBytes size (j * size) room (cnt + 1) mem ((j + n) * size + b) =
        insertBytes size (j * size) room cnt (write mem' (j * size + b) (mem ((j + n) * size + b)))
          ((j + n) * size + (b + 1)) := by
      rw [insertBytes, run]
      rfl
    have column (k : Nat) (d : Fin size) :
        elements size (write mem' (j * size + b) (mem ((j + n) * size + b))) k d =
          if d.val = b then rotate (elements size mem) j (j + n) k d else elements size mem k
            d := by
      have written := elements_write mem' j (mem ((j + n) * size + b)) ⟨b, short⟩ k d
      rw [written, moved]
      unfold rotate
      by_cases here : d.val = b
      · have same : d = ⟨b, short⟩ := Fin.ext here
        by_cases first : k = j
        · rw [if_pos ⟨first, same⟩, if_pos here, if_pos first, same]
          rfl
        · rw [if_neg (fun both => first both.1), if_pos here, if_neg first]
          by_cases between : j < k ∧ k ≤ j + n
          · rw [if_pos ⟨same, between⟩, if_pos between]
          · rw [if_neg (fun both => between both.2), if_neg between]
      · have differ : d ≠ ⟨b, short⟩ := fun same => here (congrArg Fin.val same)
        rw [if_neg (fun both => differ both.2), if_neg (fun both => differ both.1), if_neg here]
    rw [eq, ih _ (b := b + 1) (by lia)]
    by_cases past : b + 1 ≤ d.val
    · rw [if_pos past, if_pos (by lia)]
      unfold rotate
      split
      · rw [column, if_neg (by lia)]
      · split
        · rw [column, if_neg (by lia)]
        · rw [column, if_neg (by lia)]
    · rw [if_neg past, column]
      by_cases here : d.val = b
      · rw [if_pos here, if_pos here.ge]
      · rw [if_neg here, if_neg (by lia)]

theorem elements_insertBytes (order : j ≤ i) :
    elements size (insertBytes size (j * size) i size mem (i * size)) =
      rotate (elements size mem) j i := by
  obtain ⟨n, rfl⟩ := Nat.exists_eq_add_of_le order
  funext k
  funext d
  have spec := insertBytes_spec mem (j := j) (Nat.le_add_left n j) (Nat.zero_add size) k d
  rw [if_pos (Nat.zero_le _)] at spec
  exact spec

end Bytes

section Sorting

variable {size : Nat} {compar : Element size → Element size → Int}

def le (compar : Element size → Element size → Int) (a b : Element size) : Prop := compar a b ≤ 0

theorem TotalPreorder.total (order : TotalPreorder compar) {a b : Element size}
    (more : ¬ le compar a b) :
    compar b a < 0 := (order.flip b a).mpr (Int.not_le.mp more)

theorem TotalPreorder.self (order : TotalPreorder compar) (a : Element size) : le compar a a := by
  by_contra more
  exact more (order.total more).le

variable {mem : Memory} {bot t1 n fuel nmemb lo hi mid left : Nat} {c c' : Cursors}

theorem place_spec (compar : Element size → Element size → Int) (mem : Memory) (bot t1 n : Nat) :
    place compar mem bot t1 n ≤ n ∧
      (∀ k, place compar mem bot t1 n ≤ k → k < n →
        compar (elements size mem t1) (elements size mem (bot + k)) < 0) ∧
      ∀ k, k + 1 = place compar mem bot t1 n →
        ¬ compar (elements size mem t1) (elements size mem (bot + k)) < 0 := by
  induction n with
  | zero => exact ⟨Nat.le_refl 0, fun k _ last => absurd last (Nat.not_lt_zero k),
    fun k eq => by cases eq⟩
  | succ n ih =>
    rw [place]
    split
    · rename_i less
      obtain ⟨low, above, below⟩ := ih
      refine ⟨by lia, fun k first last => ?_, below⟩
      by_cases here : k = n
      · rw [here]
        exact less
      · exact above k first (by lia)
    · rename_i stops
      refine ⟨Nat.le_refl _, fun k first last => absurd last (by lia), fun k eq => ?_⟩
      obtain rfl : k = n := Nat.succ.inj eq
      exact stops

theorem insert_sorts (order : TotalPreorder compar) (start : bot ≤ t1)
    (lower : Ordered (le compar) bot t1 (elements size mem)) :
    ∃ j, bot ≤ j ∧ j ≤ t1 ∧ j = bot + place compar mem bot t1 (t1 - bot) ∧
      Ordered (le compar) bot (t1 + 1) (rotate (elements size mem) j t1) := by
  obtain ⟨short, above, below⟩ := place_spec compar mem bot t1 (t1 - bot)
  refine ⟨_,
    Nat.le_add_right bot _, by lia, rfl, lower.insert (Nat.le_add_right bot _) (by lia) ?_ ?_⟩
  · intro k first last
    -- the last element below the place is not above the new one, and the others are not above it
    obtain ⟨m, eq⟩ : ∃ m, m + 1 = place compar mem bot t1 (t1 - bot) :=
      ⟨place compar mem bot t1 (t1 - bot) - 1, by lia⟩
    have next : le compar (elements size mem (bot + m)) (elements size mem t1) := by
      by_contra more
      exact below m eq (order.total more)
    by_cases here : k = bot + m
    · rw [here]
      exact next
    · exact order.trans _ _ _ (lower k (bot + m) first (by lia) (by lia)) next
  · intro k first last
    have less := above (k - bot) (by lia) (by lia)
    rw [Nat.add_sub_cancel' (by lia)] at less
    exact less.le

theorem insertFrom_sorts (order : TotalPreorder compar) (start : bot ≤ t1)
    (lower : Ordered (le compar) bot t1 (elements size mem)) :
    Sorts (le compar) bot (t1 + left) (elements size mem)
      (elements size (insertFrom compar bot left mem t1)) := by
  induction left generalizing mem t1 with
  | zero => exact ⟨.refl _ _ _, lower⟩
  | succ left ih =>
    obtain ⟨j, low, high, eq, ordered⟩ := insert_sorts order start lower
    rw [insertFrom, ← eq]
    have moved :
        elements size (if t1 ≠ j then insertBytes size (j * size) t1 size mem
          (t1 * size) else mem) =
        rotate (elements size mem) j t1 := by
      split
      · exact elements_insertBytes high
      · rename_i same
        obtain rfl : t1 = j := Decidable.not_not.mp same
        funext k
        unfold rotate
        rw [if_neg (by lia : ¬ (t1 < k ∧ k ≤ t1))]
        split
        · rename_i here
          rw [here]
        · rfl
    generalize (if t1 ≠ j then insertBytes size (j * size) t1 size mem (t1 * size) else mem) =
      mem' at *
    rw [← moved] at ordered
    have rest := ih (by lia : bot ≤ t1 + 1) ordered
    rw [show t1 + 1 + left = t1 + (left + 1) by lia] at rest
    refine Sorts.after ?_ rest
    rw [moved]
    exact rotate_rearranges low high (by lia)

theorem insertionSort_sorts (order : TotalPreorder compar) :
    Sorts (le compar) bot (bot + nmemb) (elements size mem)
      (elements size (insertionSort compar mem bot nmemb)) := by
  cases nmemb with
  | zero => exact ⟨.refl _ _ _, .short (by omega)⟩
  | succ n =>
    have sorts : Sorts (le compar) bot (bot + 1 + n) (elements size mem)
        (elements size (insertFrom compar bot n mem (bot + 1))) :=
      insertFrom_sorts order (Nat.le_succ bot) (.short (Nat.le_refl _))
    rw [show bot + 1 + n = bot + (n + 1) by omega] at sorts
    exact sorts

theorem SORT_sorts (order : TotalPreorder compar) (mem : Memory) (bot n : Nat) :
    Sorts (le compar) bot (bot + n) (elements size mem)
      (elements size (SORT compar mem bot n)) := by
  unfold SORT
  split
  · split
    · rename_i two
      subst two
      split
      · rename_i less
        rw [elements_SWAP (by lia)]
        refine ⟨.swap (by lia) (by lia), fun i j first order' last => ?_⟩
        obtain rfl : i = bot := by lia
        obtain rfl : j = i + 1 := by lia
        rw [exchange_left, exchange_right]
        exact less.le
      · rename_i notLess
        refine ⟨.refl _ _ _, fun i j first order' last => ?_⟩
        obtain rfl : i = bot := by lia
        obtain rfl : j = i + 1 := by lia
        by_contra more
        exact notLess (order.total more)
    · exact insertionSort_sorts order
  · exact ⟨.refl _ _ _, .short (by lia)⟩

theorem scanUp_spec (compar : Element size → Element size → Int) (mem : Memory)
    (ends : bot + n = mid) :
    bot ≤ scanUp compar mem mid n bot ∧ scanUp compar mem mid n bot ≤ mid ∧
      (∀ i, bot ≤ i → i < scanUp compar mem mid n bot →
        le compar (elements size mem i) (elements size mem mid)) ∧
      (scanUp compar mem mid n bot < mid →
        ¬ le compar (elements size mem (scanUp compar mem mid n bot)) (elements size mem mid)) := by
  induction n generalizing bot with
  | zero =>
    refine ⟨Nat.le_refl _, ends.le, fun i first last => absurd last ?_, fun less => absurd less ?_⟩
    · exact Nat.not_lt.mpr first
    · exact Nat.not_lt.mpr ends.ge
  | succ n ih =>
    rw [scanUp]
    split
    · rename_i below
      obtain ⟨low, high, all, stops⟩ := ih (by lia : bot + 1 + n = mid)
      refine ⟨by lia, high, fun i first last => ?_, stops⟩
      by_cases here : i = bot
      · rw [here]
        exact below
      · exact all i (by lia) last
    · rename_i above
      exact ⟨Nat.le_refl
        _, by lia, fun i first last => absurd last (Nat.not_lt.mpr first), fun _ => above⟩

theorem scanDown_spec (compar : Element size → Element size → Int) (mem : Memory) (mid n : Nat) :
    mid ≤ scanDown compar mem mid n ∧ scanDown compar mem mid n ≤ mid + n ∧
      (∀ i, scanDown compar mem mid n < i → i ≤ mid + n →
        le compar (elements size mem mid) (elements size mem i)) ∧
      (mid < scanDown compar mem mid n →
        ¬ le compar (elements size mem mid) (elements size mem (scanDown compar mem mid n))) := by
  induction n with
  | zero =>
    refine ⟨Nat.le_refl _, Nat.le_refl _, fun i first last => absurd first ?_,
      fun less => absurd less ?_⟩
    · exact Nat.not_lt.mpr last
    · exact Nat.lt_irrefl _
  | succ n ih =>
    rw [scanDown]
    split
    · rename_i above
      obtain ⟨low, high, all, stops⟩ := ih
      refine ⟨low, by lia, fun i first last => ?_, stops⟩
      by_cases here : i = mid + (n + 1)
      · rw [here]
        exact above
      · exact all i first (by lia)
    · rename_i below
      exact ⟨by lia, Nat.le_refl _, fun i first last => absurd last (Nat.not_le.mpr first), fun _ => below⟩

/-- The elements before `bot` are not above the one at `mid`, and those behind `top` not below it.
-/
structure Parted (compar : Element size → Element size → Int) (lo hi : Nat) (mem : Memory)
    (bot mid top : Nat) :
    Prop where
  low : lo ≤ bot
  botMid : bot ≤ mid
  midTop : mid ≤ top
  high : top < hi
  below : ∀ i, lo ≤ i → i < bot → le compar (elements size mem i) (elements size mem mid)
  above : ∀ i, top < i → i < hi → le compar (elements size mem mid) (elements size mem i)

/-- A turn of the partition loop keeps the elements parted, and brings the cursors together. -/
theorem partitionTurn_some (order : TotalPreorder compar)
    (parted : Parted compar lo hi c.mem c.bot c.mid c.top)
    (goes : partitionTurn compar c = some c') :
    Parted compar lo hi c'.mem c'.bot c'.mid c'.top ∧
      Rearranges lo hi (elements size c.mem) (elements size c'.mem) ∧
      c'.top - c'.bot < c.top - c.bot := by
  obtain ⟨low, bot, mid, high, below, above⟩ := parted
  obtain ⟨up, upMid, under, upStops⟩ := scanUp_spec compar c.mem (Nat.add_sub_cancel' bot)
  obtain ⟨down, downTop, beyond, downStops⟩ := scanDown_spec compar c.mem c.mid (c.top - c.mid)
  unfold partitionTurn at goes
  dsimp only at goes
  generalize scanUp compar c.mem c.mid (c.mid - c.bot) c.bot = b at *
  generalize scanDown compar c.mem c.mid (c.top - c.mid) = t at *
  have lower :
      ∀ i, lo ≤ i → i < b → le compar (elements size c.mem i) (elements size c.mem c.mid) := by
    intro i first last
    by_cases old : i < c.bot
    · exact below i first old
    · exact under i (by lia) last
  have upper :
      ∀ i, t < i → i < hi → le compar (elements size c.mem c.mid) (elements size c.mem i) := by
    intro i first last
    by_cases old : c.top < i
    · exact above i old last
    · exact beyond i first (by lia)
  split at goes
  · rename_i stopped
    have small : le compar (elements size c.mem t) (elements size c.mem c.mid) :=
      (order.total (downStops stopped)).le
    split at goes
    · -- the element at `top` goes before the middle one, which takes its place
      rename_i met
      subst met
      cases goes
      have parted : Parted compar lo hi (SWAP size c.mem c.mid t) (c.mid + 1) t t := by
        refine ⟨by lia, by lia, Nat.le_refl _, by lia, fun i first last => ?_, fun i first last => ?_⟩
        · rw [elements_SWAP (by lia), exchange_right]
          by_cases here : i = c.mid
          · rw [here, exchange_left]
            exact small
          · rw [exchange_other here (by lia)]
            exact lower i first (by lia)
        · rw [elements_SWAP (by lia), exchange_right, exchange_other (by lia) (by lia)]
          exact upper i first last
      refine ⟨parted, ?_, (by lia : t - (c.mid + 1) < c.top - c.bot)⟩
      rw [elements_SWAP (by lia)]
      exact .swap (by lia) (by lia)
    · -- two elements on the wrong sides of the middle one
      rename_i apart
      have large : le compar (elements size c.mem c.mid) (elements size c.mem b) :=
        (order.total (upStops (by lia))).le
      cases goes
      have parted : Parted compar lo hi (SWAP size c.mem b t) (b + 1) c.mid (t - 1) := by
        refine ⟨by lia, by lia, by lia, by lia, fun i first last => ?_, fun i first last => ?_⟩
        · rw [elements_SWAP (by lia), exchange_other (k := c.mid) (by lia) (by lia)]
          by_cases here : i = b
          · rw [here, exchange_left]
            exact small
          · rw [exchange_other here (by lia)]
            exact lower i first (by lia)
        · rw [elements_SWAP (by lia), exchange_other (k := c.mid) (by lia) (by lia)]
          by_cases here : i = t
          · rw [here, exchange_right]
            exact large
          · rw [exchange_other (by lia) here]
            exact upper i (by lia) last
      refine ⟨parted, ?_, (by lia : t - 1 - (b + 1) < c.top - c.bot)⟩
      rw [elements_SWAP (by lia)]
      exact .swap (by lia) (by lia)
  · rename_i stopped
    obtain rfl : t = c.mid := by lia
    split at goes
    · cases goes
    · -- the middle element takes the place of one that is above it
      rename_i apart
      have large : le compar (elements size c.mem c.mid) (elements size c.mem b) :=
        (order.total (upStops (by lia))).le
      cases goes
      have parted : Parted compar lo hi (SWAP size c.mem b c.mid) b b (c.mid - 1) := by
        refine ⟨by lia, Nat.le_refl _, by lia, by lia, fun i first last => ?_, fun i first last => ?_⟩
        · rw [elements_SWAP (by lia), exchange_left, exchange_other (by lia) (by lia)]
          exact lower i first last
        · rw [elements_SWAP (by lia), exchange_left]
          by_cases here : i = c.mid
          · rw [here, exchange_right]
            exact large
          · rw [exchange_other (by lia) here]
            exact upper i (by lia) last
      refine ⟨parted, ?_, (by lia : c.mid - 1 - b < c.top - c.bot)⟩
      rw [elements_SWAP (by lia)]
      exact .swap (by lia) (by lia)

theorem partitionTurn_none (parted : Parted compar lo hi c.mem c.bot c.mid c.top)
    (breaks : partitionTurn compar c = none) :
    (∀ i, lo ≤ i → i < c.mid → le compar (elements size c.mem i) (elements size c.mem c.mid)) ∧
      ∀ i, c.mid < i → i < hi → le compar (elements size c.mem c.mid) (elements size c.mem i) := by
  obtain ⟨low, bot, mid, high, below, above⟩ := parted
  obtain ⟨up, upMid, under, -⟩ := scanUp_spec compar c.mem (Nat.add_sub_cancel' bot)
  obtain ⟨down, downTop, beyond, -⟩ := scanDown_spec compar c.mem c.mid (c.top - c.mid)
  unfold partitionTurn at breaks
  dsimp only at breaks
  split at breaks
  · split at breaks <;> cases breaks
  · rename_i stopped
    split at breaks
    · rename_i met
      rw [met] at under
      constructor
      · intro i first last
        by_cases old : i < c.bot
        · exact below i first old
        · exact under i (by lia) last
      · intro i first last
        by_cases old : c.top < i
        · exact above i old last
        · exact beyond i (by lia) (by lia)
    · cases breaks

theorem partition_spec (order : TotalPreorder compar)
    (parted : Parted compar lo hi c.mem c.bot c.mid c.top) (enough : c.top - c.bot < fuel) :
    ∃ c', partition compar fuel c = some c' ∧
      Rearranges lo hi (elements size c.mem) (elements size c'.mem) ∧
      lo ≤ c'.mid ∧ c'.mid < hi ∧
      (∀ i, lo ≤ i → i < c'.mid →
        le compar (elements size c'.mem i) (elements size c'.mem c'.mid)) ∧
      ∀ i, c'.mid < i → i < hi →
        le compar (elements size c'.mem c'.mid) (elements size c'.mem i) := by
  induction fuel generalizing c with
  | zero => exact absurd enough (Nat.not_lt_zero _)
  | succ fuel ih =>
    cases turn : partitionTurn compar c with
    | none =>
      obtain ⟨below, above⟩ := partitionTurn_none parted turn
      obtain ⟨low, bot, mid, high, -, -⟩ := parted
      refine ⟨c, ?_, .refl _ _ _, by lia, by lia, below, above⟩
      rw [partition, turn]
    | some c' =>
      obtain ⟨parted', moved, closer⟩ := partitionTurn_some order parted turn
      obtain ⟨c'', run, moved', rest⟩ := ih parted' (by lia)
      refine ⟨c'', ?_, moved.trans moved', rest⟩
      rw [partition, turn]
      exact run

theorem median_rearranges (compar : Element size → Element size → Int) (mem : Memory) (bot : Nat)
    (nonempty : 1 ≤ nmemb) :
    Rearranges bot (bot + nmemb) (elements size mem)
      (elements size (median compar mem bot (bot + nmemb / 2) (bot + (nmemb - 1)) nmemb)) := by
  unfold median
  split
  · have swap {t1 : Nat} (inside : bot ≤ t1 ∧ t1 < bot + nmemb) :
        Rearranges bot (bot + nmemb) (elements size mem)
          (elements size (if t1 ≠ bot + nmemb / 2 then SWAP size mem t1
            (bot + nmemb / 2) else mem)) := by
      split
      · rename_i differ
        rw [elements_SWAP differ]
        exact .swap inside (by lia)
      · exact .refl _ _ _
    dsimp only
    split
    · split
      · exact swap (by lia)
      · exact swap (by lia)
    · split
      · split
        · exact swap (by lia)
        · exact swap (by lia)
      · exact swap (by lia)
  · exact .refl _ _ _

theorem quickSort_sorts (order : TotalPreorder compar) (mem : Memory) (bot nmemb : Nat)
    (nonempty : 1 ≤ nmemb) (enough : nmemb ≤ fuel) :
    ∃ mem', quickSort compar fuel mem bot nmemb = some mem' ∧
      Sorts (le compar) bot (bot + nmemb) (elements size mem) (elements size mem') := by
  induction fuel generalizing mem bot nmemb with
  | zero => exact absurd enough (by lia)
  | succ fuel ih =>
    have chosen := median_rearranges compar mem bot nonempty
    rw [quickSort]
    dsimp only
    generalize median compar mem bot (bot + nmemb / 2) (bot + (nmemb - 1)) nmemb = start at *
    have parted :
      Parted compar bot (bot + nmemb) start bot (bot + nmemb / 2) (bot + (nmemb - 1)) := by
      refine ⟨Nat.le_refl _, Nat.le_add_right _ _, ?_, ?_, fun i first last => ?_,
        fun i first last => ?_⟩
      · exact Nat.add_le_add_left (by lia) bot
      · exact Nat.add_lt_add_left (by lia) bot
      · exact absurd last (Nat.not_lt.mpr first)
      · lia
    obtain ⟨c, run, moved, low, high, below, above⟩ := partition_spec
      (c := ⟨start, bot, bot + nmemb / 2, bot + (nmemb - 1), false⟩) order parted
      (by lia : bot + (nmemb - 1) - bot < fuel + 1)
    have moved : Rearranges bot (bot + nmemb) (elements size mem) (elements size c.mem) :=
      chosen.trans moved
    rw [run]
    dsimp only
    split
    · exact ⟨_, rfl, .after moved (insertionSort_sorts order)⟩
    have lowerEnd : bot + (c.mid - bot) = c.mid := by lia
    have upperEnd : c.mid + 1 + (nmemb - (c.mid - bot) - 1) = bot + nmemb := by lia
    have lowerFirst {mem2 mem3 : Memory}
        (lower : Sorts (le compar) bot (bot + (c.mid - bot)) (elements size c.mem)
          (elements size mem2))
        (upper : Sorts (le compar) (c.mid + 1) (c.mid + 1 + (nmemb - (c.mid - bot) - 1))
          (elements size mem2)
          (elements size mem3)) : Sorts (le compar) bot (bot + nmemb) (elements size mem)
            (elements size mem3) := by
      rw [lowerEnd] at lower
      rw [upperEnd] at upper
      exact .after moved (.around order.trans low high lower upper below above)
    have upperFirst {mem2 mem3 : Memory}
        (upper : Sorts (le compar) (c.mid + 1) (c.mid + 1 + (nmemb - (c.mid - bot) - 1))
          (elements size c.mem)
          (elements size mem2))
        (lower : Sorts (le compar) bot (bot + (c.mid - bot)) (elements size mem2)
          (elements size mem3)) :
        Sorts (le compar) bot (bot + nmemb) (elements size mem) (elements size mem3) := by
      rw [lowerEnd] at lower
      rw [upperEnd] at upper
      exact .after moved (.around' order.trans low high upper lower below above)
    split
    · rename_i larger
      split
      · rename_i many
        obtain ⟨mem2, eq2, upper⟩ := ih c.mem (c.mid + 1) (nmemb - (c.mid - bot) - 1)
          (Nat.le_trans (by decide) many) (by lia)
        obtain ⟨mem3, eq3, lower⟩ := ih mem2 bot (c.mid - bot) (by lia) (by lia)
        refine ⟨mem3, ?_, upperFirst upper lower⟩
        rw [eq2, Option.bind_some, eq3]
      · have upper := SORT_sorts order c.mem (c.mid + 1) (nmemb - (c.mid - bot) - 1)
        split
        · exact ⟨_, rfl, upperFirst upper (SORT_sorts order _ _ _)⟩
        · obtain ⟨mem3, eq3, lower⟩ :=
            ih (SORT compar c.mem (c.mid + 1) (nmemb - (c.mid - bot) - 1)) bot
              (c.mid - bot) (by lia) (by lia)
          exact ⟨mem3, eq3, upperFirst upper lower⟩
    · rename_i notLarger
      split
      · rename_i many
        have four : 4 ≤ c.mid - bot := many
        obtain ⟨mem2, eq2, lower⟩ := ih c.mem bot (c.mid - bot) (by lia) (by lia)
        obtain ⟨mem3, eq3, upper⟩ := ih mem2 (c.mid + 1) (nmemb - (c.mid - bot) - 1) (by lia)
          (by lia)
        refine ⟨mem3, ?_, lowerFirst lower upper⟩
        rw [eq2, Option.bind_some, eq3]
      · have lower := SORT_sorts order c.mem bot (c.mid - bot)
        split
        · exact ⟨_, rfl, lowerFirst lower (SORT_sorts order _ _ _)⟩
        · rename_i many
          have four : ¬ nmemb - (c.mid - bot) - 1 < 4 := many
          obtain ⟨mem3, eq3, upper⟩ := ih (SORT compar c.mem bot (c.mid - bot)) (c.mid + 1)
            (nmemb - (c.mid - bot) - 1) (by lia) (by lia)
          exact ⟨mem3, eq3, lowerFirst lower upper⟩

end Sorting

/-- `qsort` ends with the elements in another order that is the order of the comparison, and no byte
behind them is changed. -/
theorem qsort_sorts {size : Nat} (compar : Element size → Element size → Int) (positive : 1 ≤ size)
    (order : TotalPreorder compar) (mem : Memory) (nmemb : Nat) :
    ∃ enough, ∀ fuel, enough ≤ fuel → ∃ mem', qsort compar fuel mem nmemb = some mem' ∧
      (cells (elements size mem') 0 nmemb).Perm (cells (elements size mem) 0 nmemb) ∧
      (cells (elements size mem') 0 nmemb).Pairwise (le compar) ∧ ∀ p, nmemb * size ≤ p →
        mem' p = mem p := by
  refine ⟨nmemb, fun fuel enough => ?_⟩
  obtain ⟨mem', run, sorts⟩ : ∃ mem', qsort compar fuel mem nmemb = some mem' ∧
      Sorts (le compar) 0 (0 + nmemb) (elements size mem) (elements size mem') := by
    unfold qsort
    split
    · exact ⟨mem, rfl, .refl _ _ _, .short (by omega)⟩
    · split
      · exact quickSort_sorts order mem 0 nmemb (by omega) enough
      · exact ⟨_, rfl, insertionSort_sorts order⟩
  refine ⟨mem', run, sorts.rearranges.cells_perm, sorts.ordered.pairwise, fun p behind => ?_⟩
  -- every byte is one of an element
  have same := sorts.rearranges.outside (i := p / size) (fun inside => by
    have past : nmemb ≤ p / size := (Nat.le_div_iff_mul_le positive).mpr behind
    omega)
  have byte := congrFun same ⟨p % size, Nat.mod_lt p positive⟩
  have address : p / size * size + p % size = p := Nat.div_add_mod' p size
  unfold elements at byte
  dsimp only at byte
  rw [address] at byte
  exact byte

end FreeBsd.Stdlib
