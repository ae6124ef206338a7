import FreeBsd.Net.BpfFilter

/-! The validator `bpf_validate` and what it guarantees of a run on a buffer.
The validator looks at `BPF_ST` and `BPF_LD|BPF_MEM` but not at their index
register twins, and it compares the target of `BPF_JA` with the length only from
above and in signed 32-bit arithmetic. -/
namespace FreeBsd.Net

open FreeBsd.Lib
open Bpf (classOf opOf modeOf decode)

/-- The body of the validator's loop at index `i`; `false` is `return 0`. -/
def checkInsn (len i : Nat) (p : BpfInsn) : Bool :=
  (if classOf p.code = Bpf.JMP then
    if opOf p.code = Bpf.JA then !decide ((len : Int) ≤ (BitVec.ofNat 32 (i + 1) + p.k).toInt)
    else !(decide (len ≤ i + 1 + p.jt.toNat) || decide (len ≤ i + 1 + p.jf.toNat))
  else true) &&
  !((classOf p.code = Bpf.ST ||
      (classOf p.code = Bpf.LD && modeOf p.code = Bpf.MEM)) &&
    (decide ((Bpf.memWords : Int) ≤ p.k.toInt) || decide (p.k.toInt < 0))) &&
  !(p.code = (Bpf.ALU ||| Bpf.DIV ||| Bpf.K) && p.k = 0)

def checkFrom (len : Nat) : Nat → List BpfInsn → Bool
  | _, [] => true
  | i, p :: rest => checkInsn len i p && checkFrom len (i + 1) rest

def bpfValidate (f : List BpfInsn) : Bool :=
  checkFrom f.length 0 f &&
  match f.getLast? with
  | some last => classOf last.code = Bpf.RET
  | none => false

theorem checkFrom_get {len i : Nat} {f : List BpfInsn} (accepted : checkFrom len i f = true)
    {j : Nat} {p : BpfInsn} (at_j : f[j]? = some p) : checkInsn len (i + j) p = true := by
  induction f generalizing i j with
  | nil => simp at at_j
  | cons q rest ih =>
    simp only [checkFrom, Bool.and_eq_true] at accepted
    cases j with
    | zero =>
      cases Option.some.inj at_j
      exact accepted.1
    | succ j =>
      have h := ih accepted.2 (j := j) (by simpa using at_j)
      rwa [Nat.add_right_comm] at h

theorem fetch_eq_some {f : List BpfInsn} {pc : Int} {i : BpfInsn} (h : fetch f pc = some i) :
    0 ≤ pc ∧ pc < f.length ∧ f[pc.toNat]? = some i := by
  unfold fetch at h
  split at h
  · cases h
  · obtain ⟨below, _⟩ := List.getElem?_eq_some_iff.mp h
    exact ⟨by omega, by omega, h⟩

theorem fetch_in_range {f : List BpfInsn} {pc : Int} (low : 0 ≤ pc) (high : pc < f.length) :
    ∃ i, fetch f pc = some i := by
  have below : pc.toNat < f.length := by omega
  refine ⟨f[pc.toNat], ?_⟩
  simp only [fetch, if_neg (not_lt.mpr low), List.getElem?_eq_getElem below]

theorem validate_fetch {f : List BpfInsn} (accepted : bpfValidate f = true) {pc : Int}
    {i : BpfInsn} (at_pc : fetch f pc = some i) : checkInsn f.length pc.toNat i = true := by
  simp only [bpfValidate, Bool.and_eq_true] at accepted
  simpa using checkFrom_get accepted.1 (fetch_eq_some at_pc).2.2

theorem validate_last {f : List BpfInsn} (accepted : bpfValidate f = true) {pc : Int}
    {i : BpfInsn} (at_pc : fetch f pc = some i) (last : pc = f.length - 1) :
    classOf i.code = Bpf.RET := by
  obtain ⟨low, high, get⟩ := fetch_eq_some at_pc
  simp only [bpfValidate, Bool.and_eq_true] at accepted
  have index : pc.toNat = f.length - 1 := by lia
  have tail := accepted.2
  rw [List.getLast?_eq_getElem?, ← index, get] at tail
  simpa using tail

/-- The scratch-memory index of an instruction lies in `mem`. -/
def MemOk (k : Word) : Prop := 0 ≤ k.toInt ∧ k.toInt < Bpf.memWords

def width : Bpf.Size → Nat
  | .w => 4 | .h => 2 | .b => 1

/-- The accesses the case `op` makes from state `s` are in bounds: scratch words
lie in `mem`, a packet load that is not answered by `return 0` reads offsets in
`[0, buflen)`, and a constant divisor is not zero. -/
def OpSafe (bytes : List Byte) (op : Bpf.Op) (i : BpfInsn) (s : Filter) : Prop :=
  match op with
  | .ldMem | .ldxMem | .st | .stx => MemOk i.k
  | .load size mode =>
    loadPacket size mode (.buf bytes) (mode.offset i s) ≠ .reject →
      0 ≤ (mode.offset i s).toInt ∧ (mode.offset i s).toInt + width size ≤ bytes.length
  | .ldxMsh =>
    loadMsh (.buf bytes) i.k ≠ .reject → 0 ≤ i.k.toInt ∧ i.k.toInt + 1 ≤ bytes.length
  | .alu .div .x => s.X = 0 → exec op i (.buf bytes) 0 s = .halt (.ret 0)
  | .alu .div .k => i.k ≠ 0
  | _ => True

/-- The state is inside the program and its instruction makes no bad access. -/
def Safe (f : List BpfInsn) (bytes : List Byte) (s : Filter) : Prop :=
  0 ≤ s.pc ∧ s.pc < f.length ∧
    ∀ i op, fetch f s.pc = some i → decode i.code = some op → OpSafe bytes op i s

/-- The `buflen` test of a load, in unsigned 32-bit arithmetic. -/
def Passes (size : Bpf.Size) (k buflen : Word) : Prop :=
  match size with
  | .w => k + 4 ≤ buflen
  | .h => k + 2 ≤ buflen
  | .b => k < buflen

/-- The instruction about to run is not one of those the checks miss: an
index-register access to `mem` out of range, a `BPF_JA` backwards or past the
largest `int`, or a load whose negative offset wraps and passes the test. -/
def Guarded (f : List BpfInsn) (bytes : List Byte) (s : Filter) : Prop :=
  ∀ i op, fetch f s.pc = some i → decode i.code = some op →
    match op with
    | .ldxMem | .stx => MemOk i.k
    | .ja => 0 ≤ i.k.toInt ∧ s.pc + 1 + i.k.toInt < 2 ^ 31
    | .load size mode =>
      (mode.offset i s).toInt < 0 → ¬ Passes size (mode.offset i s) (Packet.buf bytes).buflen
    | .ldxMsh => i.k.toInt < 0 → ¬ Passes .b i.k (Packet.buf bytes).buflen
    | _ => True

theorem buflen_ne_zero {bytes : List Byte} (nonempty : bytes ≠ []) (fits : bytes.length < 2 ^ 32) :
    (Packet.buf bytes).buflen ≠ 0 := by
  intro zero
  have value := congrArg BitVec.toNat zero
  have positive := List.length_pos_iff.mpr nonempty
  have none : (0 : Word).toNat = 0 := rfl
  simp only [Packet.buflen, BitVec.toNat_ofNat, none] at value
  omega

theorem load_not_reject {size : Bpf.Size} {mode : Bpf.Mode} {bytes : List Byte} {k : Word}
    (nonempty : (Packet.buf bytes).buflen ≠ 0)
    (answered : loadPacket size mode (.buf bytes) k ≠ .reject) :
    Passes size k (Packet.buf bytes).buflen := by
  by_contra fails
  apply answered
  cases size with
  | w =>
    have guard : (Packet.buf bytes).buflen < k + 4 := BitVec.not_le.mp fails
    simp only [loadPacket, loadWord, if_pos guard, noChain, if_pos nonempty]
  | h =>
    have guard : (Packet.buf bytes).buflen < k + 2 := BitVec.not_le.mp fails
    simp only [loadPacket, loadHalf, if_pos guard, noChain, if_pos nonempty]
  | b =>
    have guard : (Packet.buf bytes).buflen ≤ k := BitVec.not_lt.mp fails
    cases mode <;> simp only [loadPacket, loadByte, if_pos guard, noChain, if_pos nonempty]

theorem msh_not_reject {bytes : List Byte} {k : Word}
    (nonempty : (Packet.buf bytes).buflen ≠ 0)
    (answered : loadMsh (.buf bytes) k ≠ .reject) : Passes .b k (Packet.buf bytes).buflen := by
  by_contra fails
  apply answered
  have guard : (Packet.buf bytes).buflen ≤ k := BitVec.not_lt.mp fails
  simp only [loadMsh, loadByte, if_pos guard, noChain, if_pos nonempty]

/-- With a non-negative offset the 32-bit test is the bound it is meant to be. -/
theorem passes_bound {size : Bpf.Size} {bytes : List Byte} {k : Word}
    (fits : bytes.length < 2 ^ 32) (positive : 0 ≤ k.toInt)
    (passes : Passes size k (Packet.buf bytes).buflen) :
    k.toInt + width size ≤ bytes.length := by
  obtain ⟨value, low⟩ := toInt_of_nonneg positive
  have len : (Packet.buf bytes).buflen.toNat = bytes.length := by
    simp only [Packet.buflen, BitVec.toNat_ofNat]
    lia
  cases size with
  | w =>
    have four : (4 : Word).toNat = 4 := rfl
    have h : (k + 4).toNat ≤ (Packet.buf bytes).buflen.toNat := BitVec.le_def.mp passes
    simp only [BitVec.toNat_add, len] at h
    simp only [width]
    lia
  | h =>
    have two : (2 : Word).toNat = 2 := rfl
    have h : (k + 2).toNat ≤ (Packet.buf bytes).buflen.toNat := BitVec.le_def.mp passes
    simp only [BitVec.toNat_add, len] at h
    simp only [width]
    lia
  | b =>
    have h : k.toNat < (Packet.buf bytes).buflen.toNat := BitVec.lt_def.mp passes
    rw [len] at h
    simp only [width]
    lia

/-- A validated instruction inside the program is safe when it is guarded. -/
theorem safe_of_guarded {f : List BpfInsn} (accepted : bpfValidate f = true)
    {bytes : List Byte} (nonempty : bytes ≠ []) (fits : bytes.length < 2 ^ 32) {s : Filter}
    (low : 0 ≤ s.pc) (high : s.pc < f.length) (guarded : Guarded f bytes s) :
    Safe f bytes s := by
  refine ⟨low, high, ?_⟩
  intro i op at_pc selected
  have check := validate_fetch accepted at_pc
  have guard := guarded i op at_pc selected
  have code := (Bpf.decode_eq_some_iff _ _).mp selected
  cases op with
  | ldMem =>
    simp [checkInsn, code, Bpf.Op.code, Bpf.LD, Bpf.MEM, Bpf.ST, Bpf.JMP, classOf, modeOf] at check
    exact ⟨check.1.2, check.1.1⟩
  | st =>
    simp [checkInsn, code, Bpf.Op.code, Bpf.ST, Bpf.JMP, classOf] at check
    exact ⟨check.1.2, check.1.1⟩
  | ldxMem => exact guard
  | stx => exact guard
  | load size mode =>
    intro answered
    have passes := load_not_reject (buflen_ne_zero nonempty fits) answered
    have positive : 0 ≤ (mode.offset i s).toInt := by
      by_contra negative
      exact guard (not_le.mp negative) passes
    exact ⟨positive, passes_bound fits positive passes⟩
  | ldxMsh =>
    intro answered
    have passes := msh_not_reject (buflen_ne_zero nonempty fits) answered
    have positive : 0 ≤ i.k.toInt := by
      by_contra negative
      exact guard (not_le.mp negative) passes
    exact ⟨positive, passes_bound fits positive passes⟩
  | alu o src =>
    cases o <;> cases src <;> try trivial
    · intro zero
      simp [checkInsn, code, Bpf.Op.code, Bpf.AluOp.code, Bpf.Src.code, zero] at check
    · intro zero
      simp only [exec, zero, if_true]
  | _ => trivial

theorem byteAt_in_range (bytes : List Byte) {i : Int} (low : 0 ≤ i) (high : i < bytes.length) :
    ∃ b, byteAt bytes i = some b := by
  have below : i.toNat < bytes.length := by omega
  refine ⟨bytes[i.toNat], ?_⟩
  simp only [byteAt, if_neg (not_lt.mpr low), List.getElem?_eq_getElem below]

/-- A load that reads only bytes of the buffer gives a value or `return 0`. -/
theorem load_no_fault {size : Bpf.Size} {mode : Bpf.Mode} {bytes : List Byte} {k : Word}
    (nonempty : (Packet.buf bytes).buflen ≠ 0)
    (bound : loadPacket size mode (.buf bytes) k ≠ .reject →
      0 ≤ k.toInt ∧ k.toInt + width size ≤ bytes.length) :
    loadPacket size mode (.buf bytes) k ≠ .fault := by
  intro faults
  obtain ⟨low, high⟩ := bound (by rw [faults]; exact Load.noConfusion)
  obtain ⟨a, ha⟩ := byteAt_in_range bytes low (show k.toInt < bytes.length by
    cases size <;> simp only [width] at high <;> lia)
  cases size with
  | w =>
    simp only [width] at high
    obtain ⟨b, hb⟩ := byteAt_in_range bytes (i := k.toInt + 1) (by lia) (by lia)
    obtain ⟨c, hc⟩ := byteAt_in_range bytes (i := k.toInt + 2) (by lia) (by lia)
    obtain ⟨d, hd⟩ := byteAt_in_range bytes (i := k.toInt + 3) (by lia) (by lia)
    simp only [loadPacket, loadWord, ha, hb, hc, hd, noChain, if_pos nonempty] at faults
    split at faults <;> cases faults
  | h =>
    simp only [width] at high
    obtain ⟨b, hb⟩ := byteAt_in_range bytes (i := k.toInt + 1) (by lia) (by lia)
    simp only [loadPacket, loadHalf, ha, hb, noChain, if_pos nonempty] at faults
    split at faults <;> cases faults
  | b =>
    cases mode <;> simp only [loadPacket, loadByte, ha, noChain, if_pos nonempty] at faults <;>
      split at faults <;> cases faults

theorem msh_no_fault {bytes : List Byte} {k : Word}
    (nonempty : (Packet.buf bytes).buflen ≠ 0)
    (bound : loadMsh (.buf bytes) k ≠ .reject →
      0 ≤ k.toInt ∧ k.toInt + 1 ≤ bytes.length) : loadMsh (.buf bytes) k ≠ .fault := by
  intro faults
  obtain ⟨low, high⟩ := bound (by rw [faults]; exact Load.noConfusion)
  obtain ⟨a, ha⟩ := byteAt_in_range bytes low (by omega)
  simp only [loadMsh, loadByte, ha, noChain, if_pos nonempty] at faults
  split at faults <;> cases faults

theorem memIndex_of_ok {k : Word} (ok : MemOk k) : ∃ j, memIndex k = some j :=
  ⟨⟨k.toInt.toNat, by unfold MemOk at ok; omega⟩, by
    unfold MemOk at ok
    simp only [memIndex, dif_pos ok]⟩

theorem atMem_no_halt {k : Word} (ok : MemOk k) (use : Fin Bpf.memWords → Filter) (r : Exit) :
    atMem k use ≠ .halt r := by
  obtain ⟨j, hj⟩ := memIndex_of_ok ok
  simp only [atMem, hj, Filter.go, ne_eq, reduceCtorEq, not_false_eq_true]

theorem afterLoad_halt {l : Load} {put : Word → Filter} {r : Exit} (clean : l ≠ .fault)
    (halts : afterLoad l put = .halt r) : r = .ret 0 := by
  cases l with
  | val v => simp only [afterLoad, Filter.go, reduceCtorEq] at halts
  | reject =>
    simp only [afterLoad, Outcome.halt.injEq] at halts
    exact halts.symm
  | fault => exact absurd rfl clean

theorem safe_returns {f : List BpfInsn} {bytes : List Byte} {wirelen : Word} {s : Filter}
    {r : Exit} (nonempty : (Packet.buf bytes).buflen ≠ 0) (safe : Safe f bytes s)
    (halts : filterStep f (.buf bytes) wirelen s = .halt r) : ∃ v, r = .ret v := by
  obtain ⟨low, high, ops⟩ := safe
  obtain ⟨i, at_pc⟩ := fetch_in_range low high
  simp only [filterStep, at_pc] at halts
  cases selected : decode i.code with
  | none =>
    simp only [selected, Outcome.halt.injEq] at halts
    exact ⟨0, halts.symm⟩
  | some op =>
    simp only [selected] at halts
    have ok := ops i op at_pc selected
    cases op with
    | retK =>
      simp only [exec, Outcome.halt.injEq] at halts
      exact ⟨_, halts.symm⟩
    | retA =>
      simp only [exec, Outcome.halt.injEq] at halts
      exact ⟨_, halts.symm⟩
    | load size mode => exact ⟨0, afterLoad_halt (load_no_fault nonempty ok) halts⟩
    | ldxMsh => exact ⟨0, afterLoad_halt (msh_no_fault nonempty ok) halts⟩
    | ldMem => exact absurd halts (atMem_no_halt ok _ r)
    | ldxMem => exact absurd halts (atMem_no_halt ok _ r)
    | st => exact absurd halts (atMem_no_halt ok _ r)
    | stx => exact absurd halts (atMem_no_halt ok _ r)
    | alu o src =>
      cases o <;> cases src <;>
        simp only [exec, Filter.go, reduceCtorEq] at halts
      · rw [if_neg ok] at halts
        cases halts
      · split at halts
        · simp only [Outcome.halt.injEq] at halts
          exact ⟨0, halts.symm⟩
        · cases halts
    | _ => simp only [exec, Filter.go, Filter.jump, reduceCtorEq] at halts

theorem go_pc {s t u : Filter} (moves : t.go = .next u) (same : t.pc = s.pc) :
    u.pc = s.pc + 1 := by
  simp only [Filter.go, Outcome.next.injEq] at moves
  rw [← moves, ← same]

theorem exec_pc {op : Bpf.Op} {i : BpfInsn} {p : Packet} {wirelen : Word} {s u : Filter}
    (moves : exec op i p wirelen s = .next u) :
    u.pc = s.pc + 1 ∧ op ≠ .retK ∧ op ≠ .retA ∨
    op = .ja ∧ u.pc = s.pc + i.k.toInt + 1 ∨
    ∃ c src, op = .jump c src ∧
      (u.pc = s.pc + i.jt.toNat + 1 ∨ u.pc = s.pc + i.jf.toNat + 1) := by
  cases op with
  | retK => simp only [exec, reduceCtorEq] at moves
  | retA => simp only [exec, reduceCtorEq] at moves
  | ja =>
    simp only [exec, Filter.jump, Outcome.next.injEq] at moves
    exact .inr (.inl ⟨rfl, by rw [← moves]⟩)
  | jump c src =>
    simp only [exec, Filter.jump, Outcome.next.injEq] at moves
    refine .inr (.inr ⟨c, src, rfl, ?_⟩)
    rw [← moves]
    by_cases taken : c.holds s.A (src.value i s) = true
    · exact .inl (by simp only [if_pos taken])
    · exact .inr (by simp only [if_neg taken])
  | load size mode =>
    simp only [exec] at moves
    cases h : loadPacket size mode p (mode.offset i s) with
    | val v =>
      rw [h] at moves
      exact .inl ⟨go_pc moves rfl, by simp⟩
    | reject => simp only [h, afterLoad, reduceCtorEq] at moves
    | fault => simp only [h, afterLoad, reduceCtorEq] at moves
  | ldxMsh =>
    simp only [exec] at moves
    cases h : loadMsh p i.k with
    | val v =>
      rw [h] at moves
      exact .inl ⟨go_pc moves rfl, by simp⟩
    | reject => simp only [h, afterLoad, reduceCtorEq] at moves
    | fault => simp only [h, afterLoad, reduceCtorEq] at moves
  | ldMem | ldxMem | st | stx =>
    simp only [exec, atMem] at moves
    split at moves
    · exact .inl ⟨go_pc moves rfl, by simp⟩
    · cases moves
  | alu o src =>
    refine .inl ⟨?_, by simp⟩
    cases o with
    | div =>
      cases src <;> simp only [exec] at moves <;> split at moves
      · cases moves
      · exact go_pc moves rfl
      · cases moves
      · exact go_pc moves rfl
    | _ => exact go_pc moves rfl
  | _ => exact .inl ⟨go_pc moves rfl, by simp⟩

theorem ret_class : ∀ op ∈ Bpf.Op.all, classOf op.code = Bpf.RET → op = .retK ∨ op = .retA := by
  decide

theorem jump_check {len i : Nat} {p : BpfInsn} {c : Bpf.Cond} {src : Bpf.Src}
    (code : p.code = (Bpf.Op.jump c src).code) (check : checkInsn len i p = true) :
    i + 1 + p.jt.toNat < len ∧ i + 1 + p.jf.toNat < len := by
  cases c <;> cases src <;>
    simp [checkInsn, code, Bpf.Op.code, Bpf.JMP, Bpf.Cond.code, Bpf.Src.code, classOf, opOf,
      Bpf.JA, Bpf.JEQ, Bpf.JGT, Bpf.JGE, Bpf.JSET, Bpf.K, Bpf.X, Bpf.ST, Bpf.LD] at check <;>
    lia

theorem target_exact {i : Nat} {k : Word} (low : 0 ≤ k.toInt)
    (high : (i : Int) + 1 + k.toInt < 2 ^ 31) :
    (BitVec.ofNat 32 (i + 1) + k).toInt = i + 1 + k.toInt := by
  obtain ⟨value, below⟩ := toInt_of_nonneg low
  rw [BitVec.toInt_eq_toNat_cond, BitVec.toNat_add, BitVec.toNat_ofNat]
  have small : ((i + 1) % 2 ^ 32 + k.toNat) % 2 ^ 32 = i + 1 + k.toNat := by lia
  rw [small, if_pos (by lia), value]
  lia

theorem ja_check {len i : Nat} {p : BpfInsn} (code : p.code = Bpf.Op.ja.code)
    (check : checkInsn len i p = true) (low : 0 ≤ p.k.toInt)
    (high : (i : Int) + 1 + p.k.toInt < 2 ^ 31) : (i : Int) + 1 + p.k.toInt < len := by
  simp only [checkInsn, target_exact low high] at check
  simp [code, Bpf.Op.code, Bpf.JMP, Bpf.JA, classOf, opOf, Bpf.ST, Bpf.LD] at check
  exact check.1

theorem step_forward {f : List BpfInsn} (accepted : bpfValidate f = true) {bytes : List Byte}
    {wirelen : Word} {s u : Filter} (low : 0 ≤ s.pc) (high : s.pc < f.length)
    (guarded : Guarded f bytes s) (moves : filterStep f (.buf bytes) wirelen s = .next u) :
    s.pc < u.pc ∧ u.pc < f.length := by
  obtain ⟨i, at_pc⟩ := fetch_in_range low high
  simp only [filterStep, at_pc] at moves
  cases selected : decode i.code with
  | none => simp only [selected, reduceCtorEq] at moves
  | some op =>
    simp only [selected] at moves
    have check := validate_fetch accepted at_pc
    have guard := guarded i op at_pc selected
    have code := (Bpf.decode_eq_some_iff _ _).mp selected
    rcases exec_pc moves with ⟨pc, notK, notA⟩ | ⟨rfl, pc⟩ | ⟨c, src, rfl, pc⟩
    · have inner : s.pc ≠ f.length - 1 := by
        intro last
        have ret := validate_last accepted at_pc last
        rw [code] at ret
        rcases ret_class op (Bpf.mem_all op) ret with h | h
        · exact notK h
        · exact notA h
      lia
    · have bound := ja_check code check guard.1 (by have := guard.2; lia)
      have := guard.1
      lia
    · have bound := jump_check code check
      lia

theorem reaches_in_range {f : List BpfInsn} (accepted : bpfValidate f = true)
    {bytes : List Byte} {wirelen : Word} {s t : Filter} (start : 0 ≤ s.pc ∧ s.pc < f.length)
    (guarded : ∀ t, Reaches (filterStep f (.buf bytes) wirelen) s t → Guarded f bytes t)
    (reached : Reaches (filterStep f (.buf bytes) wirelen) s t) : 0 ≤ t.pc ∧ t.pc < f.length := by
  refine Reaches.invariant (P := fun t => 0 ≤ t.pc ∧ t.pc < (f.length : Int)) start ?_ reached
  intro t u before inside moves
  have := step_forward accepted inside.1 inside.2 (guarded t before) moves
  omega

/-- In every run of an accepted program whose steps are all guarded, each state is
safe, and the run ends with a return value within one pass over the program. -/
theorem bpfFilter_accepted_safe (f : List BpfInsn) (accepted : bpfValidate f = true)
    (bytes : List Byte) (nonempty : bytes ≠ []) (fits : bytes.length < 2 ^ 32)
    (wirelen A X : Word)
    (mem : Fin Bpf.memWords → Word)
    (guarded : ∀ s, Reaches (filterStep f (.buf bytes) wirelen) ⟨0, A, X, mem⟩ s →
      Guarded f bytes s) :
    (∃ v, bpfFilter (some f) (.buf bytes) wirelen A X mem f.length = some (.ret v)) ∧
    ∀ s, Reaches (filterStep f (.buf bytes) wirelen) ⟨0, A, X, mem⟩ s → Safe f bytes s := by
  have positive : 0 < f.length := by
    cases f with
    | nil => simp [bpfValidate] at accepted
    | cons => simp
  have inside : ∀ s, Reaches (filterStep f (.buf bytes) wirelen) ⟨0, A, X, mem⟩ s →
      0 ≤ s.pc ∧ s.pc < f.length :=
    fun s reached => reaches_in_range accepted (by simpa using positive) guarded reached
  have safe : ∀ s, Reaches (filterStep f (.buf bytes) wirelen) ⟨0, A, X, mem⟩ s →
      Safe f bytes s :=
    fun s reached => safe_of_guarded accepted nonempty fits (inside s reached).1
      (inside s reached).2
      (guarded s reached)
  refine ⟨?_, safe⟩
  have halts := run_halts_of_measure (filterStep f (.buf bytes) wirelen)
    (fun s => (f.length - 1 - s.pc).toNat) ⟨0, A, X, mem⟩ (by
      intro t u reached moves
      have here := inside t reached
      have step := step_forward accepted here.1 here.2 (guarded t reached) moves
      omega)
  have fuel : ((f.length : Int) - 1 - 0).toNat + 1 = f.length := by omega
  simp only [fuel] at halts
  obtain ⟨r, hr⟩ := halts
  obtain ⟨t, reached, last⟩ := run_some hr
  obtain ⟨v, rfl⟩ := safe_returns (buflen_ne_zero nonempty fits) (safe t reached) last
  exact ⟨v, hr⟩

/-- A store of `X`, a jump, a load and a return, all within bounds. -/
def guardedProgram : List BpfInsn :=
  [⟨Bpf.LDX ||| Bpf.IMM, 0, 0, 3⟩, ⟨Bpf.STX, 0, 0, 2⟩, ⟨Bpf.JMP ||| Bpf.JA, 0, 0, 1⟩,
   ⟨Bpf.LD ||| Bpf.IMM, 0, 0, 9⟩, ⟨Bpf.LD ||| Bpf.W ||| Bpf.ABS, 0, 0, 0⟩,
   ⟨Bpf.RET ||| Bpf.A, 0, 0, 0⟩]

theorem guardedProgram_guarded (s : Filter) : Guarded guardedProgram [1, 2, 3, 4] s := by
  intro i op at_pc selected
  obtain ⟨low, high, get⟩ := fetch_eq_some at_pc
  have code := (Bpf.decode_eq_some_iff _ _).mp selected
  have member := List.mem_of_getElem? get
  simp only [guardedProgram, List.length_cons, List.length_nil] at high
  simp only [guardedProgram, List.mem_cons, List.not_mem_nil, or_false] at member
  cases op with
  | ldxMem => rcases member with rfl | rfl | rfl | rfl | rfl | rfl <;> exact absurd code (by decide)
  | stx =>
    rcases member with rfl | rfl | rfl | rfl | rfl | rfl
    case inr.inl => exact ⟨by decide, by decide⟩
    all_goals exact absurd code (by decide)
  | ja =>
    rcases member with rfl | rfl | rfl | rfl | rfl | rfl
    case inr.inr.inl =>
      have one : (1 : Word).toInt = 1 := rfl
      exact ⟨by decide, by simp only [one]; omega⟩
    all_goals exact absurd code (by decide)
  | load size mode =>
    intro negative
    cases size <;> cases mode <;>
      rcases member with rfl | rfl | rfl | rfl | rfl | rfl <;>
      first
        | exact absurd code (by decide)
        | exact absurd negative (by simp only [Bpf.Mode.offset]; decide)
  | ldxMsh => rcases member with rfl | rfl | rfl | rfl | rfl | rfl <;> exact absurd code (by decide)
  | _ => trivial

theorem guardedProgram_safe :
    bpfValidate guardedProgram = true ∧
    (∃ v, bpfFilter (some guardedProgram) (.buf [1, 2, 3, 4]) 4 0 0 (fun _ => 0) 6 =
      some (.ret v)) ∧
    ∀ s, Reaches (filterStep guardedProgram (.buf [1, 2, 3, 4]) 4) ⟨0, 0, 0, fun _ => 0⟩ s →
      Safe guardedProgram [1, 2, 3, 4] s :=
  ⟨by decide, bpfFilter_accepted_safe guardedProgram (by decide) [1, 2, 3,
    4] (by decide) (by decide) 4 0 0
      (fun _ => 0) (fun s _ => guardedProgram_guarded s)⟩

/-- Three accepted programs outside the guard: a store of `X` past the scratch
memory, a jump to itself, and a word load four bytes before the packet. -/
def stxPastMem : List BpfInsn := [⟨Bpf.STX, 0, 0, 16⟩, ⟨Bpf.RET ||| Bpf.K, 0, 0, 0⟩]
def jaToSelf : List BpfInsn := [⟨Bpf.JMP ||| Bpf.JA, 0, 0, -1⟩, ⟨Bpf.RET ||| Bpf.K, 0, 0, 0⟩]
def loadBefore : List BpfInsn :=
  [⟨Bpf.LD ||| Bpf.W ||| Bpf.ABS, 0, 0, -4⟩, ⟨Bpf.RET ||| Bpf.A, 0, 0, 0⟩]

theorem jaToSelf_step (p : Packet) (wirelen A X : Word) (mem : Fin Bpf.memWords → Word) :
    filterStep jaToSelf p wirelen ⟨0, A, X, mem⟩ = .next ⟨0, A, X, mem⟩ := rfl

theorem jaToSelf_loops (p : Packet) (wirelen A X : Word) (mem : Fin Bpf.memWords → Word)
    (fuel : Nat) : bpfFilter (some jaToSelf) p wirelen A X mem fuel = none := by
  simp only [bpfFilter]
  induction fuel with
  | zero => rfl
  | succ n ih => rw [run, jaToSelf_step]; exact ih

theorem bpfFilter_accepted_unsafe :
    (bpfValidate stxPastMem = true ∧
      bpfFilter (some stxPastMem) (.buf [0]) 1 0 0 (fun _ => 0) 1 = some (.fault .mem) ∧
      ¬ Safe stxPastMem [0] ⟨0, 0, 0, fun _ => 0⟩) ∧
    (bpfValidate jaToSelf = true ∧
      ∀ fuel, bpfFilter (some jaToSelf) (.buf [0]) 1 0 0 (fun _ => 0) fuel = none) ∧
    (bpfValidate loadBefore = true ∧
      bpfFilter (some loadBefore) (.buf [0]) 1 0 0 (fun _ => 0) 1 = some (.fault .load)) := by
  refine ⟨⟨by decide, by decide, ?_⟩, ⟨by decide, jaToSelf_loops _ _ _ _ _⟩, by decide, by decide⟩
  intro safe
  have bound : MemOk 16 := safe.2.2 ⟨Bpf.STX, 0, 0, 16⟩ .stx rfl (by decide)
  exact absurd bound.2 (by decide)

end FreeBsd.Net
