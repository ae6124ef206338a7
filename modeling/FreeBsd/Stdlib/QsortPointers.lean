import FreeBsd.Stdlib.Qsort
import Mathlib.Algebra.Order.Ring.Int

/-! `qsort` with its pointers, addresses of 32 bits, into an array that lies somewhere in memory.
Where no pointer leaves the array it does what `FreeBsd.Stdlib.qsort` does by element numbers. -/
namespace FreeBsd.Stdlib.Pointers
open FreeBsd.Lib

section Model

structure Object where
  base : Nat
  limit : Nat

def Object.Holds (o : Object) (p cnt : Nat) : Prop := o.base ≤ p ∧ p + cnt ≤ o.limit

instance (o : Object) (p cnt : Nat) : Decidable (o.Holds p cnt) :=
  inferInstanceAs (Decidable (_ ∧ _))

inductive Stop where
  /-- A pointer outside of the array is used. -/
  | wild
  | fuel
  deriving DecidableEq

def up (p n : Nat) : Nat := (p + n) % 2 ^ 32

def down (p n : Nat) : Nat := (p + (2 ^ 32 - n)) % 2 ^ 32

variable {size : Nat} (o : Object) (compar : Element size → Element size → Int)

def element (size : Nat) (mem : Memory) (p : Nat) : Element size := fun k => mem (p + k)

def load (mem : Memory) (p : Nat) : Except Stop Byte :=
  if o.Holds p 1 then .ok (mem p) else .error .wild

def store (mem : Memory) (p : Nat) (ch : Byte) : Except Stop Memory :=
  if o.Holds p 1 then .ok (write mem p ch) else .error .wild

def call (mem : Memory) (p q : Nat) : Except Stop Int :=
  if o.Holds p size ∧ o.Holds q size then .ok (compar (element size mem p) (element size mem q))
  else .error .wild

def swapBytes : (cnt : Nat) → (mem : Memory) → (a b : Nat) → Except Stop Memory
  | 0, mem, _, _ => .ok mem
  | cnt + 1, mem, a, b => do
    let ch ← load o mem a
    let mem ← store o mem a (← load o mem b)
    let mem ← store o mem b ch
    swapBytes cnt mem (up a 1) (up b 1)

def place (mem : Memory) (bot t1 : Nat) : (fuel t2 : Nat) → Except Stop Nat
  | 0, _ => .error .fuel
  | fuel + 1, t2 =>
    let t2 := down t2 size
    if bot ≤ t2 then do
      if (← call o compar mem t1 t2) < 0 then place mem bot t1 fuel t2 else .ok t2
    else .ok t2

def bubble (size t2 : Nat) : (fuel : Nat) → (mem : Memory) → (s1 : Nat) → Except Stop (Memory × Nat)
  | 0, _, _ => .error .fuel
  | fuel + 1, mem, s1 =>
    let s2 := down s1 size
    if t2 ≤ s2 then do
      let mem ← store o mem s1 (← load o mem s2)
      bubble size t2 fuel mem s2
    else .ok (mem, s1)

def insertBytes (size t2 fuel : Nat) : (cnt : Nat) → (mem : Memory) → (t1 : Nat) →
    Except Stop (Memory × Nat)
  | 0, mem, t1 => .ok (mem, t1)
  | cnt + 1, mem, t1 => do
    let ch ← load o mem t1
    let (mem, s1) ← bubble o size t2 fuel mem t1
    let mem ← store o mem s1 ch
    insertBytes size t2 fuel cnt mem (up t1 1)

/-- The `for` of `insertion_sort`, with `turns` for the loops within. -/
def insertFrom (turns bot top : Nat) : (fuel : Nat) → (mem : Memory) → (t1 : Nat) →
    Except Stop Memory
  | 0, _, _ => .error .fuel
  | fuel + 1, mem, t1 =>
    if t1 < top then do
      let t2 := up (← place o compar mem bot t1 turns t1) size
      if t1 ≠ t2 then do
        let (mem, t1) ← insertBytes o size t2 turns size mem t1
        insertFrom turns bot top fuel mem t1
      else insertFrom turns bot top fuel mem (up t1 size)
    else .ok mem

def insertionSort (turns : Nat) (mem : Memory) (bot nmemb : Nat) : Except Stop Memory :=
  insertFrom o compar turns bot (up bot (nmemb * size)) turns mem (up bot size)

def scanUp (mem : Memory) (mid : Nat) : (fuel bot : Nat) → Except Stop Nat
  | 0, _ => .error .fuel
  | fuel + 1, bot =>
    if bot < mid then do
      if (← call o compar mem bot mid) ≤ 0 then scanUp mem mid fuel (up bot size) else .ok bot
    else .ok bot

/-- `while (top > mid)`, as far as `top -= size` goes. -/
def scanDown (mem : Memory) (mid : Nat) : (fuel top : Nat) → Except Stop Nat
  | 0, _ => .error .fuel
  | fuel + 1, top =>
    if mid < top then do
      if (← call o compar mem mid top) ≤ 0 then scanDown mem mid fuel (down top size) else .ok top
    else .ok top

/-- One turn of the partition loop, `none` at its `break`. -/
def partitionTurn (turns : Nat) (c : Cursors) : Except Stop (Option Cursors) := do
  let bot ← scanUp o compar c.mem c.mid turns c.bot
  let top ← scanDown o compar c.mem c.mid turns c.top
  if c.mid < top then
    let mem ← swapBytes o size c.mem bot top
    if bot = c.mid then .ok (some ⟨mem, up bot size, top, top, true⟩)
    else .ok (some ⟨mem, up bot size, c.mid, down top size, true⟩)
  else if bot = c.mid then .ok none
  else do
    let mem ← swapBytes o size c.mem bot c.mid
    .ok (some ⟨mem, bot, bot, down top size, true⟩)

def partition (turns : Nat) : (fuel : Nat) → Cursors → Except Stop Cursors
  | 0, _ => .error .fuel
  | fuel + 1, c => do
    match ← partitionTurn o compar turns c with
    | some c => partition turns fuel c
    | none => .ok c

def median (mem : Memory) (bot mid top nmemb : Nat) : Except Stop Memory :=
  if MTHRESH ≤ nmemb then do
    let n1 ← call o compar mem bot mid
    let n2 ← call o compar mem mid top
    let t1 ←
      if n1 < 0 ∧ 0 < n2 then do
        if (← call o compar mem bot top) < 0 then .ok top else .ok bot
      else if 0 < n1 ∧ n2 < 0 then do
        if 0 < (← call o compar mem bot top) then .ok top else .ok bot
      else .ok mid
    if t1 ≠ mid then swapBytes o size mem t1 mid else .ok mem
  else .ok mem

def SORT (turns : Nat) (mem : Memory) (bot : Nat) (n : Int) : Except Stop Memory :=
  if 1 < n then
    if n = 2 then do
      if (← call o compar mem (up bot size) bot) < 0 then swapBytes o size mem (up bot size) bot
      else .ok mem
    else insertionSort o compar turns mem bot n.toNat
  else .ok mem

/-- `quick_sort`, with `nlower` and `nupper` the `int`s that they are; `turns` bounds the turns of
each loop, and the tail iteration `goto partition` is a call. -/
def quickSort (turns : Nat) : (fuel : Nat) → (mem : Memory) → (bot nmemb : Nat) → Except Stop Memory
  | 0, _, _, _ => .error .fuel
  | fuel + 1, mem, bot, nmemb => do
    let mid := up bot (size * (nmemb / 2))
    let top := up bot ((nmemb - 1) * size)
    let mem ← median o compar mem bot mid top nmemb
    let c ← partition o compar turns turns ⟨mem, bot, mid, top, false⟩
    if ¬ c.didswap then insertionSort o compar turns c.mem bot nmemb
    else
      let nlower := (Int.bmod ((c.mid : Int) - bot) (2 ^ 32)).tdiv size
      let mid := up c.mid size
      let nupper := Int.bmod (nmemb - nlower - 1) (2 ^ 32)
      if nupper < nlower then
        if THRESH ≤ nupper then do
          let mem ← quickSort turns fuel c.mem mid nupper.toNat
          quickSort turns fuel mem bot nlower.toNat
        else do
          let mem ← SORT o compar turns c.mem mid nupper
          if nlower < THRESH then SORT o compar turns mem bot nlower
          else quickSort turns fuel mem bot nlower.toNat
      else if THRESH ≤ nlower then do
        let mem ← quickSort turns fuel c.mem bot nlower.toNat
        quickSort turns fuel mem mid nupper.toNat
      else do
        let mem ← SORT o compar turns c.mem bot nlower
        if nupper < THRESH then SORT o compar turns mem mid nupper
        else quickSort turns fuel mem mid nupper.toNat

def qsort (fuel : Nat) (mem : Memory) (bot nmemb : Nat) : Except Stop Memory :=
  if nmemb ≤ 1 then .ok mem
  else if THRESH ≤ nmemb then quickSort o compar fuel fuel mem bot nmemb
  else insertionSort o compar fuel mem bot nmemb

end Model

section Layout

/-- Memory with `low` below the address `base`, and `mem` from there on. -/
def layout (base : Nat) (low mem : Memory) : Memory :=
  fun p => if p < base then low p else mem (p - base)

def array (base size nmemb : Nat) : Object := ⟨base, base + nmemb * size⟩

variable {size base nmemb : Nat} {low mem : Memory} {compar : Element size → Element size → Int}

theorem bind_ok {α β : Type} (a : α) (f : α → Except Stop β) : (Except.ok a >>= f) = f a := rfl

theorem layout_apply (q : Nat) : layout base low mem (base + q) = mem q := by
  unfold layout
  rw [if_neg (Nat.not_lt.mpr (Nat.le_add_right base q)), Nat.add_sub_cancel_left]

theorem layout_write (q : Nat) (ch : Byte) :
    write (layout base low mem) (base + q) ch = layout base low (write mem q ch) := by
  funext p
  unfold write layout
  dsimp only
  by_cases below : p < base
  · rw [if_neg (by lia), if_pos below, if_pos below]
  · rw [if_neg below, if_neg below]
    by_cases here : p = base + q
    · rw [if_pos here, if_pos (by lia)]
    · rw [if_neg here, if_neg (by lia)]

theorem element_layout (i : Nat) :
    element size (layout base low mem) (base + i * size) = elements size mem i := by
  funext k
  unfold element elements
  rw [Nat.add_assoc, layout_apply]

theorem layout_self (mem : Memory) : layout base mem (fun q => mem (base + q)) = mem := by
  funext p
  unfold layout
  split
  · rfl
  · exact congrArg mem (by lia)

variable {q i j n : Nat}

theorem load_layout (inside : q < nmemb * size) :
    load (array base size nmemb) (layout base low mem) (base + q) = .ok (mem q) := by
  have holds : (array base size nmemb).Holds (base + q) 1 := by
    unfold array Object.Holds
    dsimp only
    lia
  unfold load
  rw [if_pos holds, layout_apply]

theorem store_layout (inside : q < nmemb * size) (ch : Byte) :
    store (array base size nmemb) (layout base low mem) (base + q) ch =
      .ok (layout base low (write mem q ch)) := by
  have holds : (array base size nmemb).Holds (base + q) 1 := by
    unfold array Object.Holds
    dsimp only
    lia
  unfold store
  rw [if_pos holds, layout_write]

theorem holds_element (inside : i < nmemb) : (array base size nmemb).Holds (base + i * size)
    size := by
  have below : (i + 1) * size ≤ nmemb * size := Nat.mul_le_mul_right size inside
  rw [Nat.succ_mul] at below
  unfold array Object.Holds
  dsimp only
  lia

theorem call_layout (first : i < nmemb) (second : j < nmemb) :
    call (array base size nmemb) compar (layout base low mem) (base + i * size) (base + j * size) =
      .ok (compar (elements size mem i) (elements size mem j)) := by
  unfold call
  rw [if_pos ⟨holds_element first, holds_element second⟩, element_layout, element_layout]

theorem up_element (fits : base + nmemb * size < 2 ^ 32) (inside : i + n ≤ nmemb) :
    up (base + i * size) (n * size) = base + (i + n) * size := by
  have below : (i + n) * size ≤ nmemb * size := Nat.mul_le_mul_right size inside
  rw [Nat.add_mul] at below
  unfold up
  rw [Nat.mod_eq_of_lt (by lia), Nat.add_mul, Nat.add_assoc]

theorem up_next (fits : base + nmemb * size < 2 ^ 32) (inside : i < nmemb) :
    up (base + i * size) size = base + (i + 1) * size := by
  have next := up_element (n := 1) fits inside
  rwa [Nat.one_mul] at next

theorem down_eq {p : Nat} (short : size ≤ p) (fits : p < 2 ^ 32) : down p size = p - size := by
  unfold down
  have round : p + (2 ^ 32 - size) = p - size + 2 ^ 32 := by lia
  rw [round, Nat.add_mod_right, Nat.mod_eq_of_lt (by lia)]

theorem down_element (fits : base + nmemb * size < 2 ^ 32) (inside : i < nmemb) :
    down (base + (i + 1) * size) size = base + i * size := by
  have below : (i + 1) * size ≤ nmemb * size := Nat.mul_le_mul_right size inside
  rw [Nat.succ_mul] at below ⊢
  rw [down_eq (by lia) (by lia)]
  lia

theorem element_lt (positive : 1 ≤ size) : base + i * size < base + j * size ↔ i < j := by
  rw [Nat.add_lt_add_iff_left]
  exact Nat.mul_lt_mul_right positive

theorem element_inj (positive : 1 ≤ size) : base + i * size = base + j * size ↔ i = j := by
  rw [Nat.add_right_inj]
  exact Nat.mul_left_inj (Nat.ne_of_gt positive)

end Layout

section Partition

variable {size base nmemb : Nat} {low mem : Memory} {compar : Element size → Element size → Int}
variable {a b bot mid top t1 n cnt fuel turns i j : Nat} {c : Cursors}

def pointers (base size : Nat) (low : Memory) (c : Cursors) : Cursors :=
  ⟨layout base low c.mem, base + c.bot * size, base + c.mid * size, base + c.top * size, c.didswap⟩

theorem swapBytes_layout (fits : base + nmemb * size < 2 ^ 32) (first : a + cnt ≤ nmemb * size)
    (second : b + cnt ≤ nmemb * size) :
    swapBytes (array base size nmemb) cnt (layout base low mem) (base + a) (base + b) =
      .ok (layout base low (Stdlib.swapBytes cnt mem a b)) := by
  induction cnt generalizing mem a b with
  | zero => rfl
  | succ cnt ih =>
    have next {q : Nat} (inside : q + (cnt + 1) ≤ nmemb * size) : up (base + q) 1 =
        base + (q + 1) := by
      unfold up
      rw [Nat.mod_eq_of_lt (by lia), Nat.add_assoc]
    rw [swapBytes, load_layout (by lia), bind_ok, load_layout (by lia), bind_ok,
      store_layout (by lia), bind_ok, store_layout (by lia), bind_ok, next first, next second,
      ih (by lia) (by lia)]
    rfl

theorem SWAP_layout (fits : base + nmemb * size < 2 ^ 32) (first : i < nmemb) (second : j < nmemb) :
    swapBytes (array base size nmemb) size (layout base low mem) (base + i * size)
      (base + j * size) =
      .ok (layout base low (SWAP size mem i j)) := by
  have inside {k : Nat} (less : k < nmemb) : k * size + size ≤ nmemb * size := by
    rw [← Nat.succ_mul]
    exact Nat.mul_le_mul_right size less
  exact swapBytes_layout fits (inside first) (inside second)

theorem scanUp_layout (low : Memory) (compar : Element size → Element size → Int) (mem : Memory)
    (positive : 1 ≤ size) (fits : base + nmemb * size < 2 ^ 32) (ends : bot + n = mid)
    (inside : mid < nmemb) (enough : n < fuel) :
    scanUp (array base size nmemb) compar (layout base low mem) (base + mid * size) fuel
      (base + bot * size) =
      .ok (base + Stdlib.scanUp compar mem mid n bot * size) := by
  induction n generalizing bot fuel with
  | zero =>
    obtain ⟨fuel, rfl⟩ := Nat.exists_eq_add_of_lt enough
    rw [scanUp, if_neg (mt (element_lt positive).mp (by lia))]
    rfl
  | succ n ih =>
    obtain ⟨fuel, rfl⟩ : ∃ rest, fuel = rest + 1 := ⟨fuel - 1, by lia⟩
    rw [scanUp, if_pos ((element_lt positive).mpr (by lia)), call_layout (by lia) inside, bind_ok,
      Stdlib.scanUp]
    split
    · rw [up_next fits (by lia), ih (by lia) (by lia)]
    · rfl

theorem scanDown_layout (low : Memory) (compar : Element size → Element size → Int) (mem : Memory)
    (positive : 1 ≤ size) (fits : base + nmemb * size < 2 ^ 32) (inside : mid + n < nmemb)
    (enough : n < fuel) :
    scanDown (array base size nmemb) compar (layout base low mem) (base + mid * size) fuel
        (base + (mid + n) * size) = .ok (base + Stdlib.scanDown compar mem mid n * size) := by
  induction n generalizing fuel with
  | zero =>
    obtain ⟨fuel, rfl⟩ := Nat.exists_eq_add_of_lt enough
    rw [scanDown, if_neg (mt (element_lt positive).mp (by lia))]
    rfl
  | succ n ih =>
    obtain ⟨fuel, rfl⟩ : ∃ rest, fuel = rest + 1 := ⟨fuel - 1, by lia⟩
    rw [scanDown, if_pos ((element_lt positive).mpr (by lia)), call_layout (by lia) inside, bind_ok,
      Stdlib.scanDown]
    split
    · rw [← Nat.add_assoc mid n 1, down_element fits (by lia), ih (by lia) (by lia)]
    · rfl

structure Within (nmemb : Nat) (c : Cursors) : Prop where
  botMid : c.bot ≤ c.mid
  midTop : c.mid ≤ c.top
  high : c.top < nmemb

theorem partitionTurn_layout (low : Memory) (compar : Element size → Element size → Int)
    (positive : 1 ≤ size) (fits : base + nmemb * size < 2 ^ 32) (within : Within nmemb c)
    (enough : nmemb ≤ turns) :
    partitionTurn (array base size nmemb) compar turns (pointers base size low c) =
        .ok ((Stdlib.partitionTurn compar c).map (pointers base size low)) ∧
      ∀ c', Stdlib.partitionTurn compar c = some c' → Within nmemb c' := by
  obtain ⟨botMid, midTop, high⟩ := within
  have first := scanUp_layout low compar c.mem positive fits (Nat.add_sub_cancel' botMid) (by lia)
    (by lia : c.mid - c.bot < turns)
  have second := scanDown_layout low compar c.mem positive fits
    (by lia : c.mid + (c.top - c.mid) < nmemb) (by lia : c.top - c.mid < turns)
  rw [Nat.add_sub_cancel' midTop] at second
  obtain ⟨least, most, -, -⟩ := scanUp_spec compar c.mem (Nat.add_sub_cancel' botMid)
  obtain ⟨least', most', -, -⟩ := scanDown_spec compar c.mem c.mid (c.top - c.mid)
  unfold partitionTurn Stdlib.partitionTurn pointers
  dsimp only
  rw [first, bind_ok, second, bind_ok]
  generalize Stdlib.scanUp compar c.mem c.mid (c.mid - c.bot) c.bot = i at *
  generalize Stdlib.scanDown compar c.mem c.mid (c.top - c.mid) = j at *
  simp only [element_lt positive, element_inj positive]
  split
  · rename_i goes
    rw [SWAP_layout fits (by lia) (by lia), bind_ok, up_next fits (by lia)]
    split
    · refine ⟨rfl, fun c' eq => ?_⟩
      cases eq
      exact ⟨by dsimp only; lia, Nat.le_refl _, by dsimp only; lia⟩
    · obtain ⟨k, rfl⟩ : ∃ k, j = k + 1 := ⟨j - 1, by lia⟩
      rw [down_element fits (by lia)]
      refine ⟨rfl, fun c' eq => ?_⟩
      cases eq
      exact ⟨by dsimp only; lia, by dsimp only; lia, by dsimp only; lia⟩
  · split
    · exact ⟨rfl, fun c' eq => by cases eq⟩
    · rename_i stopped apart
      obtain ⟨k, rfl⟩ : ∃ k, j = k + 1 := ⟨j - 1, by lia⟩
      rw [SWAP_layout fits (by lia) (by lia), bind_ok, down_element fits (by lia)]
      refine ⟨rfl, fun c' eq => ?_⟩
      cases eq
      exact ⟨Nat.le_refl _, by dsimp only; lia, by dsimp only; lia⟩

theorem partition_layout (low : Memory) (positive : 1 ≤ size) (fits : base + nmemb * size < 2 ^ 32)
    (within : Within nmemb c) (enough : nmemb ≤ turns) {c' : Cursors}
    (run : Stdlib.partition compar n c = some c') (fuelled : n ≤ fuel) :
    partition (array base size nmemb) compar turns fuel (pointers base size low c) =
      .ok (pointers base size low c') := by
  induction n generalizing c fuel with
  | zero => cases run
  | succ n ih =>
    obtain ⟨fuel, rfl⟩ : ∃ rest, fuel = rest + 1 := ⟨fuel - 1, by lia⟩
    obtain ⟨turn, stays⟩ := partitionTurn_layout low compar positive fits within enough
    rw [Stdlib.partition] at run
    rw [partition, turn, bind_ok]
    cases next : Stdlib.partitionTurn compar c with
    | none =>
      rw [next] at run
      cases run
      rfl
    | some d =>
      rw [next] at run
      exact ih (stays d next) run (by lia)

theorem median_layout (low : Memory) (compar : Element size → Element size → Int) (mem : Memory)
    (n : Nat) (positive : 1 ≤ size) (fits : base + nmemb * size < 2 ^ 32) (first : bot < nmemb)
    (second : mid < nmemb) (third : top < nmemb) :
    median (array base size nmemb) compar (layout base low mem) (base + bot * size)
      (base + mid * size)
      (base + top * size) n = .ok (layout base low (Stdlib.median compar mem bot mid top n)) := by
  have swap {t1 : Nat} (inside : t1 < nmemb) :
      (if base + t1 * size ≠ base + mid * size then
        swapBytes (array base size nmemb) size (layout base low mem) (base + t1 * size)
          (base + mid * size)
      else .ok (layout base low mem)) =
        .ok (layout base low (if t1 ≠ mid then SWAP size mem t1 mid else mem)) := by
    simp only [ne_eq, element_inj positive]
    split
    · exact SWAP_layout fits inside second
    · rfl
  unfold median Stdlib.median
  split
  · rw [call_layout first second, bind_ok, call_layout second third, bind_ok,
      call_layout first third]
    dsimp only
    split
    · rw [bind_ok]
      split
      · exact swap third
      · exact swap first
    · split
      · rw [bind_ok]
        split
        · exact swap third
        · exact swap first
      · exact swap second
  · rfl

end Partition

section Insertion

variable {size base nmemb : Nat} {low mem : Memory} {compar : Element size → Element size → Int}
variable {bot t1 t2 s1 n cnt left fuel turns : Nat}

theorem place_layout (low : Memory) (compar : Element size → Element size → Int) (mem : Memory)
    (positive : 1 ≤ size) (fits : base + nmemb * size < 2 ^ 32) (room : size ≤ base)
    (inside : bot + n < nmemb) (first : t1 < nmemb) (enough : n < fuel) :
    ∃ t2, place (array base size nmemb) compar (layout base low mem) (base + bot * size)
      (base + t1 * size) fuel
        (base + (bot + n) * size) = .ok t2 ∧
      up t2 size = base + (bot + Stdlib.place compar mem bot t1 n) * size := by
  induction n generalizing fuel with
  | zero =>
    obtain ⟨fuel, rfl⟩ := Nat.exists_eq_add_of_lt enough
    have below : bot * size ≤ nmemb * size := Nat.mul_le_mul_right size (by lia)
    rw [Nat.add_zero, place, down_eq (by lia) (by lia)]
    rw [if_neg (by lia)]
    refine ⟨_, rfl, ?_⟩
    unfold up
    rw [Nat.mod_eq_of_lt (by lia), Stdlib.place, Nat.add_zero]
    lia
  | succ n ih =>
    obtain ⟨fuel, rfl⟩ : ∃ rest, fuel = rest + 1 := ⟨fuel - 1, by lia⟩
    have low' : bot * size ≤ (bot + n) * size := Nat.mul_le_mul_right size (Nat.le_add_right bot n)
    rw [← Nat.add_assoc, place, down_element fits (by lia)]
    rw [if_pos (by lia), call_layout first (by lia), bind_ok, Stdlib.place]
    split
    · exact ih (by lia) (by lia)
    · exact ⟨_, rfl, up_next fits (by lia)⟩

theorem bubble_layout (low mem : Memory) (fits : base + nmemb * size < 2 ^ 32) (room : size ≤ base)
    (inside : s1 < nmemb * size) (ends : s1 < t2 + (n + 1) * size) (enough : n < fuel) :
    bubble (array base size nmemb) size (base + t2) fuel (layout base low mem) (base + s1) =
        .ok (layout base low (Stdlib.bubble size t2 n mem s1).1,
          base + (Stdlib.bubble size t2 n mem s1).2) ∧
      (Stdlib.bubble size t2 n mem s1).2 ≤ s1 := by
  induction n generalizing mem s1 fuel with
  | zero =>
    obtain ⟨fuel, rfl⟩ := Nat.exists_eq_add_of_lt enough
    rw [bubble, down_eq (by lia) (by lia)]
    rw [if_neg (by lia)]
    exact ⟨rfl, Nat.le_refl s1⟩
  | succ n ih =>
    obtain ⟨fuel, rfl⟩ : ∃ rest, fuel = rest + 1 := ⟨fuel - 1, by lia⟩
    rw [Nat.succ_mul] at ends
    rw [bubble, Stdlib.bubble, down_eq (by lia) (by lia)]
    by_cases goes : t2 + size ≤ s1
    · obtain ⟨run, less⟩ := @ih (s1 - size) fuel (write mem s1 (mem (s1 - size))) (by lia)
        (by lia) (by lia)
      rw [if_pos (by lia), if_pos goes, Nat.add_sub_assoc (by lia), load_layout (by lia), bind_ok,
        store_layout inside, bind_ok]
      exact ⟨run, by lia⟩
    · rw [if_neg (by lia), if_neg goes]
      exact ⟨rfl, Nat.le_refl s1⟩

theorem insertBytes_layout (fits : base + nmemb * size < 2 ^ 32) (room : size ≤ base)
    (inside : t1 + cnt ≤ nmemb * size) (ends : t1 + cnt ≤ t2 + (n + 1) * size) (enough : n < fuel) :
    insertBytes (array base size nmemb) size (base + t2) fuel cnt (layout base low mem)
      (base + t1) =
      .ok (layout base low (Stdlib.insertBytes size t2 n cnt mem t1), base + (t1 + cnt)) := by
  induction cnt generalizing mem t1 with
  | zero => rfl
  | succ cnt ih =>
    obtain ⟨run, less⟩ := bubble_layout low mem fits room (by lia : t1 < nmemb * size)
      (by lia : t1 < t2 + (n + 1) * size) enough
    have next : up (base + t1) 1 = base + (t1 + 1) := by
      unfold up
      rw [Nat.mod_eq_of_lt (by lia), Nat.add_assoc]
    rw [insertBytes, load_layout (by lia), bind_ok, run, bind_ok]
    dsimp only
    rw [store_layout (by lia), bind_ok, next, ih (by lia) (by lia), Stdlib.insertBytes,
      Nat.add_assoc t1, Nat.add_comm 1]

theorem insertFrom_layout (low : Memory) (compar : Element size → Element size → Int) (mem : Memory)
    (positive : 1 ≤ size) (fits : base + nmemb * size < 2 ^ 32) (room : size ≤ base)
    (start : bot ≤ t1) (ends : t1 + left ≤ nmemb) (many : nmemb ≤ turns) (enough : left < fuel) :
    insertFrom (array base size nmemb) compar turns (base + bot * size) (base + (t1 + left) * size)
      fuel
        (layout base low mem) (base + t1 * size) =
      .ok (layout base low (Stdlib.insertFrom compar bot left mem t1)) := by
  induction left generalizing mem t1 fuel with
  | zero =>
    obtain ⟨fuel, rfl⟩ := Nat.exists_eq_add_of_lt enough
    rw [insertFrom, if_neg (mt (element_lt positive).mp (by lia))]
    rfl
  | succ left ih =>
    obtain ⟨fuel, rfl⟩ : ∃ rest, fuel = rest + 1 := ⟨fuel - 1, by lia⟩
    obtain ⟨t2, search, found⟩ := place_layout low compar mem positive fits room
      (by lia : bot + (t1 - bot) < nmemb) (by lia : t1 < nmemb) (by lia : t1 - bot < turns)
    obtain ⟨short, -, -⟩ := place_spec compar mem bot t1 (t1 - bot)
    rw [Nat.add_sub_cancel' start] at search
    have rest (mem : Memory) := @ih (t1 + 1) fuel mem (by lia) (by lia) (by lia)
    rw [Nat.add_assoc, Nat.add_comm 1 left] at rest
    rw [insertFrom, if_pos ((element_lt positive).mpr (by lia)), search, bind_ok, found,
      Stdlib.insertFrom]
    simp only [ne_eq, element_inj positive]
    split
    · have last : (t1 + 1) * size ≤ nmemb * size := Nat.mul_le_mul_right size (by lia)
      have far : (bot + Stdlib.place compar mem bot t1 (t1 - bot)) * size + (t1 + 1) * size ≥
          (t1 + 1) * size :=
        Nat.le_add_left _ _
      rw [Nat.succ_mul] at last far
      rw [insertBytes_layout (n := t1) fits room last (by rw [Nat.succ_mul]; exact far) (by lia),
        bind_ok]
      dsimp only
      rw [← Nat.succ_mul]
      exact rest _
    · rw [up_next fits (by lia)]
      exact rest mem

theorem insertionSort_layout (low : Memory) (compar : Element size → Element size → Int)
    (mem : Memory) (positive : 1 ≤ size) (fits : base + nmemb * size < 2 ^ 32) (room : size ≤ base)
    (some : 1 ≤ n) (inside : bot + n ≤ nmemb) (many : nmemb ≤ turns) :
    insertionSort (array base size nmemb) compar turns (layout base low mem) (base + bot * size) n =
      .ok (layout base low (Stdlib.insertionSort compar mem bot n)) := by
  have sorted := insertFrom_layout low compar mem positive fits room (Nat.le_add_right bot 1)
    (by lia : bot + 1 + (n - 1) ≤ nmemb) many (by lia : n - 1 < turns)
  rw [Nat.add_assoc, Nat.add_sub_cancel' some] at sorted
  unfold insertionSort
  rw [up_element fits inside, up_next fits (by lia)]
  exact sorted

theorem SORT_layout (low : Memory) (compar : Element size → Element size → Int) (mem : Memory)
    (positive : 1 ≤ size) (fits : base + nmemb * size < 2 ^ 32) (room : size ≤ base)
    (inside : bot + n ≤ nmemb) (many : nmemb ≤ turns) :
    SORT (array base size nmemb) compar turns (layout base low mem) (base + bot * size) n =
      .ok (layout base low (Stdlib.SORT compar mem bot n)) := by
  unfold SORT Stdlib.SORT
  by_cases one : 1 < n
  · rw [if_pos (by lia), if_pos one]
    by_cases two : n = 2
    · rw [if_pos (by lia), if_pos two, up_next fits (by lia), call_layout (by lia) (by lia),
        bind_ok]
      split
      · exact SWAP_layout fits (by lia) (by lia)
      · rfl
    · rw [if_neg (by lia), if_neg two, Int.toNat_natCast]
      exact insertionSort_layout _ _ _ positive fits room (by lia) inside many
  · rw [if_neg (by lia), if_neg one]

end Insertion

section Sorting

variable {size base nmemb : Nat} {low mem mem' : Memory}
    {compar : Element size → Element size → Int}
variable {bot mid n fuel turns : Nat}

/-- `nlower` and `nupper` are the numbers of elements before and after the middle one. -/
theorem nlower_eq (positive : 1 ≤ size) (order : bot ≤ mid) (short : (mid - bot) * size < 2 ^ 31) :
    (Int.bmod (((base + mid * size : Nat) : Int) - (base + bot * size : Nat)) (2 ^ 32)).tdiv size =
      (mid - bot : Nat) := by
  have bytes : ((base + mid * size : Nat) : Int) - (base + bot * size : Nat) =
      ((mid - bot) * size : Nat) := by
    obtain ⟨k, rfl⟩ := Nat.exists_eq_add_of_le order
    rw [Nat.add_sub_cancel_left]
    push_cast
    ring
  rw [bytes, Int.bmod_eq_of_le_mul_two (by lia) (by lia), Int.natCast_mul,
    Int.mul_tdiv_cancel _ (by lia)]

theorem nupper_eq {k : Nat} (less : k < n) (few : n < 2 ^ 31) :
    Int.bmod ((n : Int) - k - 1) (2 ^ 32) = (n - k - 1 : Nat) := by
  rw [Int.bmod_eq_of_le_mul_two (by lia) (by lia)]
  lia

/-- The partition of a part of the array ends with the middle pointer in it. -/
theorem partition_ends (bot : Nat) (order : TotalPreorder compar) (some : 1 ≤ n) (enough : n ≤ fuel)
    (mem : Memory) :
    ∃ c, Stdlib.partition compar fuel ⟨mem, bot, bot + n / 2, bot + (n - 1), false⟩ = .some c ∧
      bot ≤ c.mid ∧ c.mid < bot + n := by
  have parted : Parted compar bot (bot + n) mem bot (bot + n / 2) (bot + (n - 1)) := by
    refine ⟨Nat.le_refl _,
      Nat.le_add_right _ _, by lia, by lia, fun i first last => ?_, fun i first last => ?_⟩
    · exact absurd last (Nat.not_lt.mpr first)
    · lia
  obtain ⟨c, run, -, low, high, -⟩ := partition_spec
    (c := ⟨mem, bot, bot + n / 2, bot + (n - 1), false⟩) order parted
    (by lia : bot + (n - 1) - bot < fuel)
  exact ⟨c, run, low, high⟩

theorem quickSort_layout (low mem : Memory) (order : TotalPreorder compar) (positive : 1 ≤ size)
    (fits : base + nmemb * size < 2 ^ 32) (room : size ≤ base) (short : (nmemb - 1) * size < 2 ^ 31)
    (few : nmemb < 2 ^ 31) (some : 1 ≤ n) (inside : bot + n ≤ nmemb) (enough : n ≤ fuel)
    (many : nmemb ≤ turns) (outer : fuel ≤ turns) :
    ∃ mem', Stdlib.quickSort compar fuel mem bot n = .some mem' ∧
      quickSort (array base size nmemb) compar turns fuel (layout base low mem) (base + bot * size)
        n =
        .ok (layout base low mem') := by
  induction fuel generalizing mem bot n with
  | zero => exact absurd enough (by lia)
  | succ fuel ih =>
    have chosen := median_layout low compar mem n positive fits (by lia : bot < nmemb)
      (by lia : bot + n / 2 < nmemb) (by lia : bot + (n - 1) < nmemb)
    rw [quickSort, Stdlib.quickSort, Nat.mul_comm size, up_element fits (by lia),
      up_element fits (by lia)]
    dsimp only
    rw [chosen, bind_ok]
    generalize Stdlib.median compar mem bot (bot + n / 2) (bot + (n - 1)) n = start
    obtain ⟨c, run, least, most⟩ := partition_ends bot order some enough start
    have moved := partition_layout low (c := ⟨start, bot, bot + n / 2, bot + (n - 1), false⟩)
      positive fits
      ⟨Nat.le_add_right _ _, by dsimp only; lia, by dsimp only; lia⟩ many run outer
    have few' : c.mid - bot < n := by lia
    have bytes : (c.mid - bot) * size < 2 ^ 31 :=
      Nat.lt_of_le_of_lt (Nat.mul_le_mul_right size (by lia)) short
    change partition _ compar turns turns ⟨layout base low start, _, _, _, false⟩ = _ at moved
    rw [moved, bind_ok, run]
    unfold pointers
    dsimp only
    rw [nlower_eq positive least bytes, nupper_eq few' (by lia), up_next fits (by lia),
      Int.toNat_natCast, Int.toNat_natCast]
    split
    · refine ⟨_, rfl, ?_⟩
      exact insertionSort_layout _ _ _ positive fits room some inside many
    have lowerSort (mem : Memory) := SORT_layout low compar mem positive fits room
      (by lia : bot + (c.mid - bot) ≤ nmemb) many
    have upperSort (mem : Memory) := SORT_layout low compar mem positive fits room
      (by lia : c.mid + 1 + (n - (c.mid - bot) - 1) ≤ nmemb) many
    by_cases larger : n - (c.mid - bot) - 1 < c.mid - bot
    · rw [if_pos larger, if_pos (Int.ofNat_lt.mpr larger)]
      by_cases many' : THRESH ≤ n - (c.mid - bot) - 1
      · rw [if_pos many', if_pos (Int.ofNat_le.mpr many')]
        unfold THRESH at many'
        obtain ⟨mem2, eq2, run2⟩ := @ih (c.mid + 1) (n - (c.mid - bot) - 1) c.mem (by lia) (by lia)
          (by lia) (by lia)
        obtain ⟨mem3, eq3, run3⟩ := @ih bot (c.mid - bot) mem2 (by lia) (by lia) (by lia)
          (by lia)
        refine ⟨mem3, ?_, ?_⟩
        · rw [eq2, Option.bind_some, eq3]
        · rw [run2, bind_ok, run3]
      · rw [if_neg many', if_neg (mt Int.ofNat_le.mp many'), upperSort, bind_ok]
        by_cases small : c.mid - bot < THRESH
        · rw [if_pos small, if_pos (Int.ofNat_lt.mpr small)]
          exact ⟨_, rfl, lowerSort _⟩
        · rw [if_neg small, if_neg (mt Int.ofNat_lt.mp small)]
          unfold THRESH at small
          exact ih _ (by lia) (by lia) (by lia) (by lia)
    · rw [if_neg larger, if_neg (mt Int.ofNat_lt.mp larger)]
      by_cases many' : THRESH ≤ c.mid - bot
      · rw [if_pos many', if_pos (Int.ofNat_le.mpr many')]
        unfold THRESH at many'
        obtain ⟨mem2, eq2, run2⟩ := @ih bot (c.mid - bot) c.mem (by lia) (by lia) (by lia)
          (by lia)
        obtain ⟨mem3, eq3, run3⟩ := @ih (c.mid + 1) (n - (c.mid - bot) - 1) mem2 (by lia) (by lia)
          (by lia) (by lia)
        refine ⟨mem3, ?_, ?_⟩
        · rw [eq2, Option.bind_some, eq3]
        · rw [run2, bind_ok, run3]
      · rw [if_neg many', if_neg (mt Int.ofNat_le.mp many'), lowerSort, bind_ok]
        by_cases small : n - (c.mid - bot) - 1 < THRESH
        · rw [if_pos small, if_pos (Int.ofNat_lt.mpr small)]
          exact ⟨_, rfl, upperSort _⟩
        · rw [if_neg small, if_neg (mt Int.ofNat_lt.mp small)]
          unfold THRESH at small
          exact ih _ (by lia) (by lia) (by lia) (by lia)

theorem qsort_layout (low mem : Memory) (order : TotalPreorder compar) (positive : 1 ≤ size)
    (few : nmemb < 2 ^ 31) (fits : base + nmemb * size < 2 ^ 32)
    (condition : nmemb ≤ 1 ∨ size ≤ base ∧ (nmemb < 4 ∨ (nmemb - 1) * size < 2 ^ 31))
    (enough : nmemb ≤ fuel) :
    ∃ mem', Stdlib.qsort compar fuel mem nmemb = some mem' ∧
      qsort (array base size nmemb) compar fuel (layout base low mem) base nmemb =
        .ok (layout base low mem') := by
  have start : base + 0 * size = base := by rw [Nat.zero_mul, Nat.add_zero]
  unfold qsort Stdlib.qsort THRESH
  by_cases one : nmemb ≤ 1
  · rw [if_pos one, if_pos one]
    exact ⟨mem, rfl, rfl⟩
  obtain one' | ⟨room, short⟩ := condition
  · exact absurd one' one
  rw [if_neg one, if_neg one]
  by_cases many : 4 ≤ nmemb
  · rw [if_pos many, if_pos many]
    have sorted := quickSort_layout low mem order positive fits room (by lia) few (by lia)
      (by lia : 0 + nmemb ≤ nmemb) enough enough (Nat.le_refl fuel)
    rwa [start] at sorted
  · rw [if_neg many, if_neg many]
    have sorted := insertionSort_layout low compar mem positive fits room (by lia)
      (by lia : 0 + nmemb ≤ nmemb) enough
    rw [start] at sorted
    exact ⟨_, rfl, sorted⟩

end Sorting

section Marks

variable {size base nmemb i j : Nat} {low : Memory} {P : Nat → Prop} [DecidablePred P]

def marks (size : Nat) (P : Nat → Prop) [DecidablePred P] : Memory :=
  fun q => if P (q / size) then 1 else 0

def byFirst (positive : 0 < size) (a b : Element size) : Int :=
  (a ⟨0, positive⟩).toNat - (b ⟨0, positive⟩).toNat

theorem byFirst_order (positive : 0 < size) : TotalPreorder (byFirst positive) := by
  unfold byFirst
  exact ⟨fun a b => by lia, fun a b c first second => by lia⟩

theorem byFirst_marks (positive : 0 < size) :
    byFirst positive (elements size (marks size P) i) (elements size (marks size P) j) =
      (if P i then 1 else 0) - (if P j then 1 else 0) := by
  have mark (i : Nat) : (elements size (marks size P) i ⟨0, positive⟩).toNat =
      if P i then 1 else 0 := by
    unfold elements marks
    dsimp only
    rw [Nat.add_zero, Nat.mul_div_cancel i positive]
    split <;> rfl
  unfold byFirst
  rw [mark, mark]
  push_cast
  rfl

end Marks

section Wild

variable {size base nmemb n fuel turns : Nat} {low mem : Memory}
    {compar : Element size → Element size → Int}

theorem Object.Holds.below {o : Object} {p cnt : Nat} (holds : o.Holds p cnt) (some : 1 ≤ cnt) :
    p < o.limit := by
  unfold Object.Holds at holds
  lia

/-- An element that goes before the first one takes `t2` below the array; where there is no room for
an element it wraps, and `compar` is called with it. -/
theorem insertionSort_wild (low : Memory) (turns : Nat) (positive : 1 ≤ size)
    (fits : base + nmemb * size < 2 ^ 32) (room : base < size) (two : 2 ≤ nmemb)
    (less : compar (elements size mem 1) (elements size mem 0) < 0) :
    insertionSort (array base size nmemb) compar (turns + 2) (layout base low mem) base nmemb =
      .error .wild := by
  have start : base + 0 * size = base := by rw [Nat.zero_mul, Nat.add_zero]
  have limit : up base (nmemb * size) = base + nmemb * size := by
    unfold up
    exact Nat.mod_eq_of_lt fits
  have second : up base size = base + 1 * size := by
    have next := up_next (i := 0) fits (by lia)
    rwa [start] at next
  have wrapped : down base size = base + (2 ^ 32 - size) := by
    unfold down
    exact Nat.mod_eq_of_lt (by lia)
  have back : down (base + 1 * size) size = base := by
    have back := down_element (i := 0) fits (by lia)
    rwa [start] at back
  have first : call (array base size nmemb) compar (layout base low mem) (base + 1 * size) base =
      .ok (compar (elements size mem 1) (elements size mem 0)) := by
    have first := @call_layout size base nmemb low mem compar 1 0 two (by lia)
    rwa [start] at first
  have short : size ≤ nmemb * size := Nat.le_mul_of_pos_left size (by lia)
  have wild : call (array base size nmemb) compar (layout base low mem) (base + 1 * size)
      (base + (2 ^ 32 - size)) = .error .wild := by
    refine if_neg fun holds => ?_
    have ends : base + (2 ^ 32 - size) + size ≤ base + nmemb * size := holds.2.2
    lia
  unfold insertionSort
  rw [limit, second, insertFrom, if_pos ((element_lt positive).mpr two), place, back,
    if_pos (Nat.le_refl base), first, bind_ok, if_pos less, place, wrapped,
    if_pos (Nat.le_add_right _ _), wild]
  rfl

/-- A turn of the partition loop that begins behind the array uses its pointer. -/
theorem partitionTurn_wild {o : Object} {c : Cursors} (compar : Element size → Element size → Int)
    (turns : Nat) (positive : 1 ≤ size) (above : c.mid < c.bot)
    (outside : o.limit ≤ c.bot) :
    ∃ stop, partitionTurn o compar (turns + 1) c = .error stop := by
  obtain ⟨cnt, rfl⟩ : ∃ cnt, size = cnt + 1 := ⟨size - 1, by lia⟩
  have swapped (b : Nat) : swapBytes o (cnt + 1) c.mem c.bot b = .error .wild := by
    have wild : load o c.mem c.bot = .error .wild :=
      if_neg fun holds => absurd (holds.below (Nat.le_refl 1)) (Nat.not_lt.mpr outside)
    rw [swapBytes, wild]
    rfl
  unfold partitionTurn
  rw [scanUp, if_neg (by lia), bind_ok]
  cases scanned : scanDown o compar c.mem c.mid (turns + 1) c.top with
  | error stop => exact ⟨stop, rfl⟩
  | ok top =>
    rw [bind_ok]
    split
    · exact ⟨.wild, by rw [swapped]; rfl⟩
    · rw [if_neg (by lia)]
      exact ⟨.wild, by rw [swapped]; rfl⟩

/-- So does a partition of five elements or more that begins there and goes round. -/
theorem quickSort_wild (compar : Element size → Element size → Int) (turns fuel : Nat)
    (mem : Memory) (positive : 1 ≤ size) (fits : base + nmemb * size < 2 ^ 32) (many : 5 ≤ n)
    (round : n = 5 → 2 ^ 32 ≤ base + nmemb * size + 2 * size) (short : 2 * size < 2 ^ 32) :
    ∃ stop, quickSort (array base size nmemb) compar (turns + 1) (fuel + 1) mem
      (base + nmemb * size) n =
      .error stop := by
  rw [quickSort]
  by_cases six : 6 ≤ n
  · refine ⟨.wild, ?_⟩
    have wild : call (array base size nmemb) compar mem (base + nmemb * size)
        (up (base + nmemb * size) (size * (n / 2))) = .error .wild :=
      if_neg fun holds => absurd (holds.1.below positive) (Nat.lt_irrefl _)
    unfold median MTHRESH
    dsimp only
    rw [if_pos six, wild]
    rfl
  · obtain rfl : n = 5 := by lia
    have round := round rfl
    have chosen : median (array base size nmemb) compar mem (base + nmemb * size)
        (up (base + nmemb * size) (size * (5 / 2))) (up (base + nmemb * size) ((5 - 1) * size)) 5 =
          .ok mem :=
      if_neg (by decide)
    have mid : up (base + nmemb * size) (size * (5 / 2)) =
        base + nmemb * size + 2 * size - 2 ^ 32 := by
      unfold up
      rw [Nat.mul_comm size, Nat.mod_eq_sub_mod round]
      exact Nat.mod_eq_of_lt (by lia)
    obtain ⟨stop, turn⟩ := partitionTurn_wild (o := array base size nmemb) compar turns
      (c := ⟨mem, base + nmemb * size, up (base + nmemb * size) (size * (5 / 2)),
        up (base + nmemb * size) ((5 - 1) * size), false⟩) positive (by dsimp only; lia)
        (Nat.le_refl _)
    refine ⟨stop, ?_⟩
    dsimp only
    rw [chosen, bind_ok, partition, turn]
    rfl

end Wild

section Condition

variable {size base nmemb fuel turns : Nat} {low : Memory} {P : Nat → Prop} [DecidablePred P]

theorem median_marks {mid top n : Nat} (positive : 0 < size) (first : P 0) (middle : P mid) :
    Stdlib.median (byFirst positive) (marks size P) 0 mid top n = marks size P := by
  have same : byFirst positive (elements size (marks size P) 0) (elements size (marks size P) mid) =
      0 := by
    rw [byFirst_marks, if_pos first, if_pos middle]
    rfl
  unfold Stdlib.median
  rw [same]
  simp only [Int.lt_irrefl, false_and, if_false, ne_eq, not_true_eq_false, ite_self]

/-- The search from below goes past everything where the middle element is as large as any. -/
theorem scanUp_marks {mid bot n : Nat} (positive : 0 < size) (ends : bot + n = mid)
    (middle : P mid) :
    Stdlib.scanUp (byFirst positive) (marks size P) mid n bot = mid := by
  obtain ⟨-, most, -, stops⟩ := scanUp_spec (byFirst positive) (marks size P) ends
  by_contra other
  refine stops (by lia) ?_
  unfold le
  rw [byFirst_marks, if_pos middle]
  split <;> decide

/-- All but the element 1 are alike, and nothing is swapped before the insertion sort. -/
theorem partition_alike {top n : Nat} (positive : 0 < size) (mid : Nat) (past : 1 < mid) :
    Stdlib.partition (byFirst positive) (n + 1) ⟨marks size (· ≠ 1), 0, mid, top, false⟩ =
      some ⟨marks size (· ≠ 1), 0, mid, top, false⟩ := by
  have up := scanUp_marks (P := (· ≠ 1)) positive (by lia : 0 + (mid - 0) = mid) (by lia : mid ≠ 1)
  have down : Stdlib.scanDown (byFirst positive) (marks size (· ≠ 1)) mid (top - mid) = mid := by
    obtain ⟨least, most, -, stops⟩ := scanDown_spec (byFirst positive) (marks size (· ≠ 1)) mid
      (top - mid)
    by_contra other
    refine stops (by lia) ?_
    unfold le
    rw [byFirst_marks (P := (· ≠ 1)), if_pos (by lia), if_pos (by lia)]
    decide
  have breaks : Stdlib.partitionTurn (byFirst positive) ⟨marks size (· ≠ 1), 0, mid, top, false⟩ =
      none := by
    unfold Stdlib.partitionTurn
    dsimp only
    rw [up, down, if_neg (Nat.lt_irrefl mid), if_pos rfl]
  rw [Stdlib.partition, breaks]

/-- The first partition goes by the element in the middle, where the first one is as large. -/
theorem first_partition {c : Cursors} {n : Nat} (low : Memory) (positive : 1 ≤ size)
    (fits : base + nmemb * size < 2 ^ 32) (many : 4 ≤ nmemb) (first : P 0) (middle : P (nmemb / 2))
    (run : Stdlib.partition (byFirst positive) n ⟨marks size P, 0, nmemb / 2, nmemb - 1, false⟩ =
      some c)
    (enough : n ≤ turns) (some : nmemb ≤ turns) :
    median (array base size nmemb) (byFirst positive) (layout base low (marks size P)) base
        (up base (size * (nmemb / 2))) (up base ((nmemb - 1) * size)) nmemb =
      .ok (layout base low (marks size P)) ∧
    partition (array base size nmemb) (byFirst positive) turns turns
      ⟨layout base low (marks size P), base, up base (size * (nmemb / 2)),
        up base ((nmemb - 1) * size), false⟩ = .ok (pointers base size low c) := by
  have start : base + 0 * size = base := by rw [Nat.zero_mul, Nat.add_zero]
  have mid : up base (size * (nmemb / 2)) = base + nmemb / 2 * size := by
    have mid := up_element (i := 0) (n := nmemb / 2) fits (by lia)
    rw [start, Nat.zero_add] at mid
    rwa [Nat.mul_comm size]
  have top : up base ((nmemb - 1) * size) = base + (nmemb - 1) * size := by
    have top := up_element (i := 0) (n := nmemb - 1) fits (by lia)
    rwa [start, Nat.zero_add] at top
  have chosen := median_layout low (byFirst positive) (marks size P) nmemb positive fits
    (by lia : 0 < nmemb) (by lia : nmemb / 2 < nmemb) (by lia : nmemb - 1 < nmemb)
  have parted := partition_layout low (c := ⟨marks size P, 0, nmemb / 2, nmemb - 1, false⟩) positive
    fits
    ⟨Nat.zero_le _, by dsimp only; lia, by dsimp only; lia⟩ some run enough
  rw [start, median_marks positive first middle] at chosen
  unfold pointers at parted
  dsimp only at parted
  rw [start] at parted
  rw [mid, top]
  exact ⟨chosen, parted⟩

/-- With no room for an element below the array there are elements that `qsort` does not sort. -/
theorem qsort_wild (positive : 1 ≤ size) (fits : base + nmemb * size < 2 ^ 32) (room : base < size)
    (two : 2 ≤ nmemb) (enough : nmemb + 2 ≤ fuel) :
    qsort (array base size nmemb) (byFirst positive) fuel (layout base low (marks size (· ≠ 1)))
      base nmemb =
      .error .wild := by
  obtain ⟨turns, rfl⟩ : ∃ turns, fuel = turns + 2 := ⟨fuel - 2, by lia⟩
  have less : byFirst positive (elements size (marks size (· ≠ 1)) 1)
      (elements size (marks size (· ≠ 1)) 0) < 0 := by
    rw [byFirst_marks]
    decide
  have wild := insertionSort_wild low turns positive fits room two less
  unfold qsort THRESH
  rw [if_neg (by lia)]
  by_cases many : 4 ≤ nmemb
  · obtain ⟨chosen, parted⟩ := first_partition (P := (· ≠ 1)) low positive fits many (by decide)
      (by lia)
      (partition_alike (n := 0) positive (nmemb / 2) (by lia)) (by lia) (by lia : nmemb ≤ turns + 2)
    rw [if_pos many, quickSort]
    dsimp only
    rw [chosen, bind_ok, parted, bind_ok]
    exact wild
  · rw [if_neg many]
    exact wild

theorem partition_last {mid top n : Nat} (positive : 0 < size) (before : mid < top) :
    Stdlib.partition (byFirst positive) (n + 2) ⟨marks size (fun i => i = 0 ∨ i = mid), 0, mid, top,
      false⟩ =
      some ⟨SWAP size (marks size fun i => i = 0 ∨ i = mid) mid top, mid + 1, top, top, true⟩ := by
  have large (i : Nat) : byFirst positive (elements size (marks size fun i => i = 0 ∨ i = mid) i)
      (elements size (marks size fun i => i = 0 ∨ i = mid) mid) ≤ 0 := by
    rw [byFirst_marks (P := fun i => i = 0 ∨ i = mid), if_pos (Or.inr rfl : mid = 0 ∨ mid = mid)]
    split <;> decide
  have up := scanUp_marks (P := fun i => i = 0 ∨ i = mid) positive (by lia : 0 + (mid - 0) = mid)
    (.inr rfl)
  have down : Stdlib.scanDown (byFirst positive) (marks size fun i => i = 0 ∨ i = mid) mid
      (top - mid) = top := by
    obtain ⟨k, rfl⟩ := Nat.exists_eq_add_of_lt before
    rw [Nat.add_assoc, Nat.add_sub_cancel_left, Stdlib.scanDown]
    refine if_neg ?_
    rw [byFirst_marks (P := fun i => i = 0 ∨ i = mid), if_pos (Or.inr rfl : mid = 0 ∨ mid = mid),
      if_neg (by lia : ¬ (mid + (k + 1) = 0 ∨ mid + (k + 1) = mid))]
    decide
  have first : Stdlib.partitionTurn (byFirst positive)
      ⟨marks size (fun i => i = 0 ∨ i = mid), 0, mid, top, false⟩ =
        some ⟨SWAP size (marks size fun i => i = 0 ∨ i = mid) mid top, mid + 1, top, top,
          true⟩ := by
    unfold Stdlib.partitionTurn
    dsimp only
    rw [up, down, if_pos before, if_pos rfl]
  have up' : Stdlib.scanUp (byFirst positive) (SWAP size (marks size fun i => i = 0 ∨ i = mid) mid
      top) top
      (top - (mid + 1)) (mid + 1) = top := by
    obtain ⟨least, most, -, stops⟩ := scanUp_spec (byFirst positive)
      (SWAP size (marks size fun i => i = 0 ∨ i = mid) mid top) (Nat.add_sub_cancel' before)
    by_contra other
    refine stops (by lia) ?_
    unfold le
    rw [elements_SWAP before.ne, exchange_right, exchange_other (by lia) other]
    exact large _
  have second : Stdlib.partitionTurn (byFirst positive)
      ⟨SWAP size (marks size fun i => i = 0 ∨ i = mid) mid top, mid + 1, top, top, true⟩ =
        none := by
    unfold Stdlib.partitionTurn
    dsimp only
    rw [up', Nat.sub_self, Stdlib.scanDown, if_neg (Nat.lt_irrefl top), if_pos rfl]
  rw [Stdlib.partition, first]
  dsimp only
  rw [Stdlib.partition, second]

theorem last_disorder {mid top : Nat} (positive : 0 < size) (past : 1 < mid) (before : mid < top)
    (two : 2 ≤ nmemb) :
    ¬ (cells (elements size (SWAP size (marks size fun i => i = 0 ∨ i = mid) mid top)) 0
      nmemb).Pairwise
      (le (byFirst positive)) := by
  intro sorted
  obtain ⟨n, rfl⟩ := Nat.exists_eq_add_of_le two
  rw [cells, Nat.add_comm 2 n, List.range_succ_eq_map, List.range_succ_eq_map, List.map_cons,
    List.map_map, List.map_cons, List.pairwise_cons] at sorted
  have order := sorted.1 _ List.mem_cons_self
  unfold le at order
  dsimp only [Function.comp_apply] at order
  rw [elements_SWAP before.ne, exchange_other (by lia) (by lia), exchange_other (by lia) (by lia),
    byFirst_marks (P := fun i => i = 0 ∨ i = mid), if_pos (.inl rfl), if_neg (by lia)] at order
  exact absurd order (by decide)

theorem nlower_wraps {top : Nat} (base : Nat) (long : 2 ^ 31 ≤ top * size)
    (fits : top * size < 2 ^ 32) :
    (Int.bmod (((base + top * size : Nat) : Int) - base) (2 ^ 32)).tdiv size =
      -(((2 ^ 32 - top * size) / size : Nat) : Int) := by
  have bytes : Int.bmod (((base + top * size : Nat) : Int) - base) (2 ^ 32) =
      -((2 ^ 32 - top * size : Nat) : Int) := by
    rw [(by push_cast; lia : ((base + top * size : Nat) : Int) - base = (top * size : Nat)),
      Int.bmod_eq_iff (by decide)]
    refine ⟨by lia, by lia, ?_⟩
    lia
  rw [bytes, Int.neg_tdiv, ← Int.ofNat_tdiv]

/-- Where the array is longer than an `int`, the elements before the largest one are left as they
are, or what is sorted in their place is behind the array. -/
theorem qsort_long (low : Memory) (positive : 1 ≤ size) (few : nmemb < 2 ^ 31)
    (fits : base + nmemb * size < 2 ^ 32) (room : size ≤ base) (many : 4 ≤ nmemb)
    (long : 2 ^ 31 ≤ (nmemb - 1) * size) (enough : nmemb + 2 ≤ fuel) :
    (∃ stop, qsort (array base size nmemb) (byFirst positive) fuel
        (layout base low (marks size fun i => i = 0 ∨ i = nmemb / 2)) base nmemb = .error stop) ∨
      qsort (array base size nmemb) (byFirst positive) fuel
          (layout base low (marks size fun i => i = 0 ∨ i = nmemb / 2)) base nmemb =
        .ok (layout base low
          (SWAP size (marks size fun i => i = 0 ∨ i = nmemb / 2) (nmemb / 2) (nmemb - 1))) := by
  obtain ⟨turns, rfl⟩ : ∃ turns, fuel = turns + 2 := ⟨fuel - 2, by lia⟩
  obtain ⟨chosen, parted⟩ := first_partition (P := fun i => i = 0 ∨ i = nmemb / 2) low positive fits
    many
    (.inl rfl) (.inr rfl) (partition_last (n := 0) positive (by lia)) (by lia)
      (by lia : nmemb ≤ turns + 2)
  have whole : nmemb * size = (nmemb - 1) * size + size := by
    rw [← Nat.succ_mul]
    exact congrArg (· * size) (by lia)
  have behind : up (base + (nmemb - 1) * size) size = base + nmemb * size := by
    unfold up
    rw [Nat.mod_eq_of_lt (by lia)]
    lia
  have nlower := nlower_wraps base long (by lia)
  -- two elements would fit behind the last one, in front of the array and its room
  have some : 2 ≤ (2 ^ 32 - (nmemb - 1) * size) / size :=
    (Nat.le_div_iff_mul_le positive).mpr (by lia)
  have most := Nat.div_mul_le_self (2 ^ 32 - (nmemb - 1) * size) size
  have less := Nat.lt_mul_div_succ (2 ^ 32 - (nmemb - 1) * size) positive
  unfold qsort THRESH
  rw [if_neg (by lia), if_pos many, quickSort]
  dsimp only
  rw [chosen, bind_ok, parted, bind_ok]
  unfold pointers
  dsimp only
  rw [nlower, behind]
  generalize (2 ^ 32 - (nmemb - 1) * size) / size = q at *
  have nothing : SORT (array base size nmemb) (byFirst positive) (turns + 2)
      (layout base low (SWAP size (marks size fun i => i = 0 ∨ i = nmemb / 2) (nmemb / 2)
        (nmemb - 1))) base (-(q : Int)) =
        .ok (layout base low (SWAP size (marks size fun i => i = 0 ∨ i = nmemb / 2) (nmemb / 2)
          (nmemb - 1))) :=
    if_neg (by lia)
  have total : (nmemb - 1 + q) * size ≤ 2 ^ 32 := by
    rw [Nat.add_mul]
    lia
  have size2 : 2 ≤ size := by
    by_contra one
    obtain rfl : size = 1 := by lia
    lia
  have bound : nmemb - 1 + q ≤ 2 ^ 31 := by
    have least : (nmemb - 1 + q) * 2 ≤ (nmemb - 1 + q) * size := Nat.mul_le_mul_left _ size2
    lia
  rw [if_neg (by decide)]
  by_cases wraps : nmemb - 1 + q = 2 ^ 31
  · right
    have nupper : Int.bmod ((nmemb : Int) - -(q : Int) - 1) (2 ^ 32) = -(2 ^ 31 : Nat) := by
      rw [Int.bmod_eq_iff (by decide)]
      exact ⟨by lia, by lia, by lia⟩
    have none : SORT (array base size nmemb) (byFirst positive) (turns + 2)
        (layout base low (SWAP size (marks size fun i => i = 0 ∨ i = nmemb / 2) (nmemb / 2)
          (nmemb - 1)))
        (base + nmemb * size) (-(2 ^ 31 : Nat)) =
          .ok (layout base low (SWAP size (marks size fun i => i = 0 ∨ i = nmemb / 2) (nmemb / 2)
            (nmemb - 1))) :=
      if_neg (by lia)
    rw [nupper, if_pos (by lia), if_neg (by decide), none, bind_ok, if_pos (by unfold THRESH; lia),
      nothing]
  · left
    have nupper : Int.bmod ((nmemb : Int) - -(q : Int) - 1) (2 ^ 32) = (nmemb - 1 + q : Nat) := by
      rw [Int.bmod_eq_of_le_mul_two (by lia) (by lia)]
      lia
    have round : nmemb - 1 + q = 5 → 2 ^ 32 ≤ base + nmemb * size + 2 * size := by
      intro five
      obtain rfl : q = 2 := by lia
      lia
    obtain ⟨stop, wild⟩ := quickSort_wild (byFirst positive) (turns + 1) turns
      (layout base low (SWAP size (marks size fun i => i = 0 ∨ i = nmemb / 2) (nmemb / 2)
        (nmemb - 1)))
      (n := nmemb - 1 + q) positive fits (by lia) round (by lia)
    refine ⟨stop, ?_⟩
    rw [nupper, if_neg (by lia), if_neg (by unfold THRESH; lia), nothing, bind_ok,
      if_neg (by unfold THRESH; lia), Int.toNat_natCast]
    exact wild

/-- Whatever the elements and their order are, `qsort` ends with them sorted and nothing else
changed. -/
def AlwaysSorts (base size nmemb : Nat) : Prop :=
  ∀ compar : Element size → Element size → Int, TotalPreorder compar → ∀ mem : Memory,
    ∃ enough, ∀ fuel, enough ≤ fuel → ∃ mem',
      qsort (array base size nmemb) compar fuel mem base nmemb = .ok mem' ∧
        (cells (elements size fun q => mem' (base + q)) 0 nmemb).Perm
          (cells (elements size fun q => mem (base + q)) 0 nmemb) ∧
        (cells (elements size fun q => mem' (base + q)) 0 nmemb).Pairwise (le compar) ∧
        ∀ p, ¬ (base ≤ p ∧ p < base + nmemb * size) → mem' p = mem p

/-- `qsort` sorts an array where there is room for an element below it, and where, with four
elements or more, the distance from the first to the last one is an `int`. -/
theorem qsort_sorts_iff (positive : 1 ≤ size) (few : nmemb < 2 ^ 31)
    (fits : base + nmemb * size < 2 ^ 32) :
    AlwaysSorts base size nmemb ↔
      nmemb ≤ 1 ∨ size ≤ base ∧ (nmemb < 4 ∨ (nmemb - 1) * size < 2 ^ 31) := by
  constructor
  · intro sorts
    by_contra other
    have two : 2 ≤ nmemb := by lia
    by_cases room : size ≤ base
    · -- the array is long, and the largest of its elements is in the middle
      obtain ⟨enough, runs⟩ := sorts (byFirst positive) (byFirst_order positive)
        (layout base (fun _ => 0) (marks size fun i => i = 0 ∨ i = nmemb / 2))
      obtain ⟨mem', run, -, sorted, -⟩ := runs (enough + nmemb + 2) (by lia)
      rcases qsort_long (fun _ => 0) positive few fits room (by lia) (by lia)
        (by lia : nmemb + 2 ≤ enough + nmemb + 2) with ⟨stop, wild⟩ | ended
      · rw [wild] at run
        cases run
      · rw [ended] at run
        cases run
        simp only [layout_apply] at sorted
        exact last_disorder positive (by lia) (by lia) two sorted
    · obtain ⟨enough, runs⟩ := sorts (byFirst positive) (byFirst_order positive)
        (layout base (fun _ => 0) (marks size (· ≠ 1)))
      obtain ⟨mem', run, -⟩ := runs (enough + nmemb + 2) (by lia)
      rw [qsort_wild positive fits (by lia) two (by lia)] at run
      cases run
  · intro condition compar order mem
    obtain ⟨enough, runs⟩ := qsort_sorts compar positive order (fun q => mem (base + q)) nmemb
    refine ⟨enough + nmemb, fun fuel last => ?_⟩
    obtain ⟨inner, found, perm, sorted, behind⟩ := runs fuel (by lia)
    obtain ⟨inner', found', run⟩ := qsort_layout mem (fun q => mem (base + q)) order positive few
      fits
      condition (by lia : nmemb ≤ fuel)
    obtain rfl := Option.some.inj (found.symm.trans found')
    rw [layout_self] at run
    refine ⟨layout base mem inner, run, ?_⟩
    simp only [layout_apply]
    refine ⟨perm, sorted, fun p outside => ?_⟩
    unfold layout
    split
    · rfl
    · rw [behind _ (by lia)]
      exact congrArg mem (by lia)

theorem qsort_sorts_words : AlwaysSorts 0x1000 4 1000 ∧ ¬ AlwaysSorts 0x1000 0x2000 5 := by
  refine ⟨(qsort_sorts_iff (by decide) (by decide) (by decide)).mpr ?_,
    mt (qsort_sorts_iff (by decide) (by decide) (by decide)).mp ?_⟩
  · decide
  · decide

/-- Two elements of 65536 bytes at the address `0x5000`, the second one to go first. -/
theorem qsort_leaves_array :
    (∀ fuel, qsort (array 0x5000 0x10000 2) (byFirst (Nat.succ_pos 0xffff)) (fuel + 4)
      (layout 0x5000 (fun _ => 0) (marks 0x10000 (· ≠ 1))) 0x5000 2 = .error .wild) ∧
    ¬ AlwaysSorts 0x5000 0x10000 2 := by
  have wild {fuel : Nat} (enough : 4 ≤ fuel) :
      qsort (array 0x5000 0x10000 2) (byFirst (Nat.succ_pos 0xffff)) fuel
        (layout 0x5000 (fun _ => 0) (marks 0x10000 (· ≠ 1))) 0x5000 2 = .error .wild :=
    qsort_wild (by decide) (by decide) (by decide) (Nat.le_refl 2) enough
  refine ⟨fun fuel => wild (by lia), fun sorts => ?_⟩
  obtain ⟨enough, runs⟩ :=
    sorts (byFirst (Nat.succ_pos 0xffff)) (byFirst_order (Nat.succ_pos 0xffff))
    (layout 0x5000 (fun _ => 0) (marks 0x10000 (· ≠ 1)))
  obtain ⟨mem', run, -⟩ := runs (enough + 4) (by lia)
  rw [wild (by lia)] at run
  cases run

end Condition

end FreeBsd.Stdlib.Pointers
