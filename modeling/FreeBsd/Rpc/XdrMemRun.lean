import FreeBsd.Rpc.XdrMem

/-! Decoding from memory stays in the buffer and in the blocks it allocates, as long as no
subtraction from `x_handy` overflows and no product of a count and a size wraps. -/
namespace FreeBsd.Rpc.Xdrmem

open FreeBsd.Lib

/-- The position is in the buffer, with what is left, and so is all that was read; what was stored
is in its block. -/
structure XDR.Inside (size : Nat) (s : XDR) : Prop where
  position : s.x_private ≤ size
  rest : s.x_private + s.x_handy ≤ size
  low : - 2 ^ 31 ≤ s.x_handy
  read : ∀ r ∈ s.reads, r.1 + r.2 ≤ size
  stored : ∀ w ∈ s.stores, w.2.1 + w.2.2 ≤ w.1

def Target.Room (t : Target) (n : Nat) : Prop := ∀ size, t.block = some size → t.offset + n ≤ size

def XDR.Holds (s : XDR) (len : Nat) : Prop := len ≤ s.x_handy + 2 ^ 31

instance (s : XDR) (len : Nat) : Decidable (s.Holds len) := inferInstanceAs (Decidable (_ ≤ _))

/-- Each element that the loop of `xdr_array` comes to. -/
def Each (elproc : XDR → Target → XDR × Bool) (P : XDR → Target → Prop) (elsize : Nat) :
    Nat → XDR → Target → Prop
  | 0, _, _ => True
  | c + 1, s, target => P s target ∧
    ((elproc s target).2 → Each elproc P elsize c (elproc s target).1 (target.add elsize))

/-- No subtraction from `x_handy` that the filter comes to overflows, and no size that it allocates
wraps. -/
def Filter.Steady : Filter → XDR → Target → Prop
  | getlong, s, _ => s.Holds 4
  | inline _, _, _ => True
  | fixed cnt, s, _ => s.Holds cnt.toNat
  | bytes null maxsize, s, t => s.Holds 4 ∧
    ∀ u nodesize v sp, s.xdrmem_getlong t = (u, some nodesize) →
      nodesize ≤ maxsize.toNat → nodesize ≠ 0 → u.mem_alloc null (t.add 4) nodesize = (v, some sp) →
        v.Holds nodesize
  | array null maxsize elsize elproc, s, t => s.Holds 4 ∧
    ∀ u c v target, s.xdrmem_getlong t = (u, some c) →
      c ≤ maxsize.toNat → ¬ (null ∧ c = 0) →
      u.mem_alloc null (t.add 4) (c * elsize.toNat % 2 ^ 32) = (v, some target) →
      (null → c * elsize.toNat < 2 ^ 32) ∧ Each elproc.decode elproc.Steady elsize.toNat c
        (if null then v.store target (c * elsize.toNat % 2 ^ 32) else v) target
  | both offset first second, s, t => first.Steady s t ∧
      ((first.decode s t).2 → second.Steady (first.decode s t).1 (t.add offset))

def SteadyStep (s : XDR) (filter : Filter) (t : XDR) :
    Prop := Step s filter t ∧ filter.Steady s ⟨none, 0⟩

variable {size n len c elsize nodesize : Nat} {s u : XDR} {t target sp : Target} {null : Bool}
  {elproc : XDR → Target → XDR × Bool} {P : XDR → Target → Prop} {filter : Filter}
  {filters : List Filter}

theorem Target.Room.none {offset : Nat} : (⟨none, offset⟩ : Target).Room n := nofun

theorem Target.Room.mono (room : t.Room n) (less : len ≤ n) : t.Room len :=
  fun size block => (Nat.add_le_add_left less _).trans (room size block)

theorem Target.Room.add (room : t.Room (len + n)) : (t.add len).Room n := fun size block => by
  have := room size block
  unfold Target.add
  dsimp only
  lia

namespace XDR

theorem less_eq (below : size < 2 ^ 31) (ok : s.Inside size) (holds : s.Holds len) :
    (s.less len).x_handy = s.x_handy - len := by
  have := ok.rest
  unfold Holds at holds
  exact wrap32_eq (by lia) (by lia)

theorem Inside.store (ok : s.Inside size) (room : t.Room len) : (s.store t len).Inside size := by
  unfold XDR.store
  split
  · exact ok
  · rename_i block
    exact { ok with stored := List.forall_mem_cons.mpr ⟨room _ block, ok.stored⟩ }

theorem Inside.less (below : size < 2 ^ 31) (ok : s.Inside size) (holds : s.Holds len) :
    (s.less len).Inside size := by
  have eq := less_eq below ok holds
  have rest := ok.rest
  unfold Holds at holds
  exact { ok with rest := by rw [eq]; exact (by lia : (s.x_private : Int) + (s.x_handy - len) ≤ size),
                  low := by rw [eq]; lia }

theorem Inside.advance (ok : s.Inside size) (holds : (s.x_private : Int) + s.x_handy + len ≤ size)
    (positive : 0 ≤ s.x_handy) :
    (s.advance len).Inside size := by
  have room : s.x_private + len ≤ size := by lia
  refine ⟨room, ?_, ok.low, List.forall_mem_cons.mpr ⟨room, ok.read⟩, ok.stored⟩
  unfold XDR.advance
  dsimp only
  push_cast
  lia

theorem Inside.taken (below : size < 2 ^ 31) (ok : s.Inside size) (holds : s.Holds len)
    (positive : ¬ (s.less len).x_handy < 0) :
    ((s.less len).advance len).Inside size := by
  refine (ok.less below holds).advance ?_ (not_lt.mp positive)
  rw [less_eq below ok holds]
  have := ok.rest
  exact (by lia : (s.x_private : Int) + (s.x_handy - len) + len ≤ size)

theorem Inside.getlong (below : size < 2 ^ 31) (ok : s.Inside size) (holds : s.Holds 4)
    (room : t.Room 4) :
    (s.xdrmem_getlong t).1.Inside size := by
  unfold xdrmem_getlong
  split
  · exact ok.less below holds
  · rename_i positive
    exact (ok.taken below holds positive).store room

theorem Inside.getbytes (below : size < 2 ^ 31) (ok : s.Inside size) (holds : s.Holds len)
    (room : t.Room len) :
    (s.xdrmem_getbytes t len).1.Inside size := by
  unfold xdrmem_getbytes
  split
  · exact ok.less below holds
  · rename_i positive
    exact (ok.taken below holds positive).store room

theorem Inside.inline (ok : s.Inside size) : (s.xdrmem_inline len).1.Inside size := by
  have rest := ok.rest
  unfold xdrmem_inline
  split
  · refine Inside.advance ⟨ok.position, ?_, ?_, ok.read, ok.stored⟩ ?_ ?_
    all_goals dsimp only; lia
  · exact ok

/-- The bytes that fill up the last unit come after at least as many as are left. -/
theorem Inside.opaque' (below : size < 2 ^ 31) (ok : s.Inside size) (holds : s.Holds len)
    (room : t.Room len) :
    (XDR.xdr_opaque s t len).1.Inside size := by
  unfold xdr_opaque
  split
  · exact ok
  · have ok' := ok.getbytes below holds room
    have few :
        (if len % BYTES_PER_XDR_UNIT > 0 then BYTES_PER_XDR_UNIT - len % BYTES_PER_XDR_UNIT
         else 0) ≤ 4 := by
      unfold BYTES_PER_XDR_UNIT
      split <;> lia
    dsimp only
    generalize
      (if len % BYTES_PER_XDR_UNIT > 0 then BYTES_PER_XDR_UNIT - len % BYTES_PER_XDR_UNIT
       else 0) = rndup at *
    split
    · rename_i u failed
      rwa [failed] at ok'
    · rename_i u read
      have positive : 0 ≤ u.x_handy := by
        unfold xdrmem_getbytes at read
        split at read
        · cases read
        · rename_i positive
          cases read
          unfold XDR.store
          split
          · exact not_lt.mp positive
          · exact not_lt.mp positive
      rw [read] at ok'
      split
      · exact ok'
      · refine ok'.getbytes below ?_ .none
        unfold Holds
        lia

theorem Inside.mem_alloc (ok : s.Inside size) (room : t.Room 4) :
    (s.mem_alloc null t n).1.Inside size := by
  unfold XDR.mem_alloc
  split
  · exact Inside.store { ok with } room
  · exact ok

theorem mem_alloc_room (gives : s.mem_alloc null t n = (u, some target)) : target.Room n := by
  unfold XDR.mem_alloc at gives
  split at gives
  · obtain ⟨-, gives⟩ := Prod.mk.inj gives
    split at gives
    · cases gives
      intro size block
      cases block
      exact (Nat.zero_add n).le
    · cases gives
  · cases gives
    exact .none

theorem Inside.xdr_bytes (below : size < 2 ^ 31) (ok : s.Inside size) (holds : s.Holds 4)
    (enough : ∀ u nodesize v sp, s.xdrmem_getlong t = (u, some nodesize) → nodesize ≤ n →
      nodesize ≠ 0 →
      u.mem_alloc null (t.add 4) nodesize = (v, some sp) → v.Holds nodesize) (room : t.Room 8) :
    (s.xdr_bytes t null n).1.Inside size := by
  have ok' := ok.getlong below holds (room.mono (by decide))
  unfold XDR.xdr_bytes
  split
  · rename_i u none
    rwa [none] at ok'
  · rename_i u nodesize long
    rw [long] at ok'
    dsimp only at ok'
    split
    · exact ok'
    · split
      · exact ok'
      · rename_i within some
        have ok'' : (u.mem_alloc null (t.add 4) nodesize).1.Inside size := ok'.mem_alloc room.add
        split
        · rename_i v none
          rwa [none] at ok''
        · rename_i v sp gives
          rw [gives] at ok''
          exact ok''.opaque' below (enough u nodesize v sp long (not_lt.mp within) some gives)
            (mem_alloc_room gives)

theorem Inside.elements (each : ∀ s t, s.Inside size → P s t → t.Room len →
    (elproc s t).1.Inside size) (sized : len ≤ elsize) (ok : s.Inside size)
    (steady : Each elproc P elsize c s target) (room : target.Room (c * elsize)) :
    (elements elproc elsize c s target).1.Inside size := by
  induction c generalizing s target with
  | zero => exact ok
  | succ c ih =>
    obtain ⟨first, later⟩ := steady
    rw [add_one_mul, Nat.add_comm] at room
    have ok' := each s target ok first (room.mono (sized.trans (Nat.le_add_right _ _)))
    rw [XDR.elements]
    split
    · rename_i u failed
      rwa [failed] at ok'
    · rename_i u more
      rw [more] at ok' later
      exact ih ok' (later rfl) room.add

theorem Inside.xdr_array (below : size < 2 ^ 31)
    (each : ∀ s t, s.Inside size → P s t → t.Room len → (elproc s t).1.Inside size)
    (sized : len ≤ elsize) (ok : s.Inside size) (holds : s.Holds 4)
    (enough : ∀ u c v target, s.xdrmem_getlong t = (u, some c) → c ≤ n → ¬ (null ∧ c = 0) →
      u.mem_alloc null (t.add 4) (c * elsize % 2 ^ 32) = (v, some target) →
        (null → c * elsize < 2 ^ 32) ∧
        Each elproc P elsize c (if null then v.store target (c * elsize % 2 ^ 32) else v) target)
        (room : t.Room 8) :
    (s.xdr_array t null n elsize elproc).1.Inside size := by
  have ok' := ok.getlong below holds (room.mono (by decide))
  unfold XDR.xdr_array
  split
  · rename_i u none
    rwa [none] at ok'
  · rename_i u c long
    rw [long] at ok'
    dsimp only at ok' ⊢
    split
    · exact ok'
    · split
      · exact ok'
      · rename_i within some
        have ok'' : (u.mem_alloc null (t.add 4) (c * elsize % 2 ^ 32)).1.Inside size :=
          ok'.mem_alloc room.add
        split
        · rename_i v none
          rwa [none] at ok''
        · rename_i v target gives
          rw [gives] at ok''
          obtain ⟨small, steady⟩ := enough u c v target long (not_lt.mp within) some gives
          have room' := mem_alloc_room gives
          refine Inside.elements each sized ?_ steady ?_
          · split
            · exact ok''.store room'
            · exact ok''
          · cases null with
            | true => rwa [Nat.mod_eq_of_lt (small rfl)] at room'
            | false =>
              cases gives
              exact .none

end XDR

theorem Filter.inside (below : size < 2 ^ 31) (ok : s.Inside size) (sized : filter.Sized)
    (steady : filter.Steady s t) (room : t.Room filter.size) :
      (filter.decode s t).1.Inside size := by
  induction filter generalizing s t with
  | getlong => exact ok.getlong below steady room
  | inline len => exact ok.inline
  | fixed cnt => exact ok.opaque' below steady room
  | bytes null maxsize => exact ok.xdr_bytes below steady.1 steady.2 room
  | array null maxsize elsize elproc ih =>
    exact ok.xdr_array below (fun s t ok steady room => ih ok sized.2 steady room) sized.1 steady.1
      steady.2 room
  | both offset first second ih₁ ih₂ =>
    have ok' := ih₁ ok sized.1 steady.1 (room.mono (le_max_left _ _))
    rw [Filter.decode]
    split
    · rename_i u failed
      rwa [failed] at ok'
    · rename_i u more
      have later := steady.2
      rw [more] at ok' later
      exact ih₂ ok' sized.2 (later rfl) (Target.Room.add (room.mono (le_max_right _ _)))

theorem XDR.Inside.create (below : size < 2 ^ 31) (data : Nat → Byte) (memory : Nat → Bool) :
    (xdrmem_create data size memory).Inside size := by
  have eq : wrap32 size = size := wrap32_eq (by lia) (by lia)
  refine ⟨Nat.zero_le _, ?_, ?_, List.forall_mem_nil _, List.forall_mem_nil _⟩
  all_goals
    unfold xdrmem_create
    dsimp only
    rw [eq]
    lia

/-- Decoding never leaves the buffer and the blocks, whatever is in the buffer, if each step keeps
the two differences and products in range. -/
theorem decoding_inside {data : Nat → Byte} {memory : Nat → Bool} (below : size < 2 ^ 31)
    (run : Run SteadyStep (xdrmem_create data size memory) filters s) : s.Inside size := by
  have kept (s : XDR) (filter : Filter) (t : XDR) (_ : True) (ok : s.Inside size)
      (step : SteadyStep s filter t) : t.Inside size := by
    obtain ⟨⟨sized, rfl⟩, steady⟩ := step
    exact filter.inside below ok sized steady .none
  exact run.invariant kept (fun _ _ => trivial) (.create below data memory)

/-- A buffer whose first long is `x`, with zeros behind. -/
def counted (x : Nat) : Nat → Byte := fun i => (htonl x).getD i 0

theorem decoding_inside_counted :
    ((Filter.bytes false 100).decode (xdrmem_create (counted 5) 12 fun _ => true) ⟨none,
      0⟩).1.Inside 12 := by
  have steady : (Filter.bytes false 100).Steady (xdrmem_create (counted 5) 12 fun _ => true) ⟨none,
      0⟩ := by
    refine ⟨by decide, fun u n v sp long _ _ gives => ?_⟩
    cases gives
    cases long
    decide
  have sized : (Filter.bytes false 100).Sized := trivial
  exact decoding_inside (by decide) (.cons ⟨⟨sized, rfl⟩, steady⟩ (.nil _))

/-- A count of `2 ^ 31 + 9` bytes is read, and four bytes are allocated for `2 ^ 30 + 1` elements.
-/
theorem decoding_leaves :
    ¬ (∀ (data : Nat → Byte) (size : Nat) (memory : Nat → Bool) (filters : List Filter) (s : XDR),
      size < 2 ^ 31 →
      Run Step (xdrmem_create data size memory) filters s → ∀ r ∈ s.reads, r.1 + r.2 ≤ size) ∧
    ¬ (∀ (data : Nat → Byte) (size : Nat) (memory : Nat → Bool) (filters : List Filter) (s : XDR),
      size < 2 ^ 31 →
      Run Step (xdrmem_create data size memory) filters s →
        ∀ w ∈ s.stores, w.2.1 + w.2.2 ≤ w.1) := by
  constructor
  · intro inside
    have read := inside (counted (2 ^ 31 + 9)) 8 (fun _ => true) [.bytes false (2 ^ 32 - 1)] _
      (by decide)
      (.cons ⟨trivial, rfl⟩ (.nil _)) (4, 2 ^ 31 + 9) (by decide)
    exact absurd read (by decide)
  · intro inside
    have stored :=
      inside (counted (2 ^ 30 + 1)) 12 (fun _ => true) [.array true (2 ^ 32 - 1) 4 .getlong] _
        (by decide)
      (.cons ⟨⟨by decide, trivial⟩, rfl⟩ (.nil _)) (4, 4, 4) (by decide)
    exact absurd stored (by decide)

end FreeBsd.Rpc.Xdrmem
