import FreeBsd.Lib.Circular
import FreeBsd.Lib.Trace
import Mathlib.Data.BitVec
import Mathlib.Logic.Function.Basic

/-! The ring buffers of the tty driver, and the queues of characters they stand for. -/
namespace FreeBsd.Kern

open FreeBsd.Lib

section Model

abbrev Char8 := BitVec 8

def RBSZ : Nat := 1024

/-- `struct ringb`; the pointers are offsets into `rb_buf`. -/
structure Ringb where
  hd : Nat
  tl : Nat
  buf : Nat → Char8
  hd_lt : hd < RBSZ
  tl_lt : tl < RBSZ

def rbSucc (p : Nat) : Nat := if p ≥ RBSZ - 1 then 0 else p + 1

def rbRollover (p : Nat) : Nat := if p > RBSZ - 1 then 0 else p

def rbPred (p : Nat) : Nat := if p ≤ 0 then RBSZ - 1 else p - 1

def rbLen (hd tl : Nat) : Nat := if hd ≤ tl then tl - hd else RBSZ - (hd - tl)

def rbContigput (hd tl : Nat) : Nat := if rbPred hd < tl then RBSZ - tl else rbPred hd - tl

def rbContigget (hd tl : Nat) : Nat := if hd ≤ tl then tl - hd else RBSZ - hd

theorem rbSucc_lt (p : Nat) : rbSucc p < RBSZ := by
  unfold rbSucc RBSZ
  split <;> omega

theorem rbRollover_lt (p : Nat) : rbRollover p < RBSZ := by
  unfold rbRollover RBSZ
  split <;> omega

theorem rbPred_lt {p : Nat} (below : p < RBSZ) : rbPred p < RBSZ := by
  unfold rbPred RBSZ at *
  split <;> omega

/-- `bcopy(data, buf + at, n)` for the `n` bytes of `data`. -/
def bcopy (data : List Char8) (first : Nat) (buf : Nat → Char8) : Nat → Char8 :=
  fun j => if first ≤ j then (data[j - first]?).getD (buf j) else buf j

def bytes (buf : Nat → Char8) (first n : Nat) :
    List Char8 := (List.range n).map fun i => buf (first + i)

def initrb (buf : Nat → Char8) : Ringb := ⟨0, 0, buf, by decide, by decide⟩

def putc (c : Int) (rbp : Ringb) : Int × Ringb :=
  let nxtp := rbSucc rbp.tl
  if nxtp = rbp.hd then (-1, rbp)
  else (0, { rbp with buf := bcopy [BitVec.ofInt 8 c] rbp.tl rbp.buf, tl := nxtp,
                      tl_lt := rbSucc_lt _ })

def getc (rbp : Ringb) : Int × Ringb :=
  if rbp.hd = rbp.tl then (-1, rbp)
  else ((rbp.buf rbp.hd).toNat, { rbp with hd := rbSucc rbp.hd, hd_lt := rbSucc_lt _ })

def ungetc (c : Int) (rbp : Ringb) : Int × Ringb :=
  let backp := rbPred rbp.hd
  if backp = rbp.tl then (-1, rbp)
  else (0, { rbp with hd := backp, buf := bcopy [BitVec.ofInt 8 c] backp rbp.buf,
                      hd_lt := rbPred_lt rbp.hd_lt })

def unputc (rbp : Ringb) : Int × Ringb :=
  if rbp.hd = rbp.tl then (-1, rbp)
  else
    let backp := rbPred rbp.tl
    ((rbp.buf backp).toNat, { rbp with tl := backp, tl_lt := rbPred_lt rbp.tl_lt })

theorem rbWrite_short {hd tl n : Nat} (hd_lt : hd < RBSZ) (short : n < rbContigput hd tl) :
    tl + n < RBSZ := by
  unfold rbContigput rbPred RBSZ at *
  split at short <;> split at short <;> lia

def rbWrite (buf : List Char8) (to' : Ringb) : Nat × Ringb :=
  let ntoright := rbContigput to'.hd to'.tl
  if short : buf.length < ntoright then
    (buf.length, { to' with buf := bcopy buf to'.tl to'.buf, tl := to'.tl + buf.length,
                            tl_lt := rbWrite_short to'.hd_lt short })
  else
    let right := bcopy (buf.take ntoright) to'.tl to'.buf
    -- fast RB_ROLLOVER and fast RB_CONTIGPUT
    let ntoleft := to'.hd
    let nfrom := min (buf.length - ntoright) ntoleft
    let left := bcopy ((buf.drop ntoright).take nfrom) 0 right
    (ntoright + nfrom, { to' with buf := left, tl := nfrom,
                                  tl_lt := lt_of_le_of_lt (min_le_right _ _) to'.hd_lt })

theorem catb_last {hd tl : Nat} :
    rbRollover (hd + rbContigget hd tl) + rbContigget (rbRollover (hd + rbContigget hd tl)) tl =
      tl := by
  unfold rbRollover rbContigget RBSZ at *
  split <;> split <;> split <;> lia

def catb (from' to' : Ringb) : Ringb × Ringb :=
  let nfromright := rbContigget from'.hd from'.tl
  let to' := (rbWrite (bytes from'.buf from'.hd nfromright) to').2
  let hd := rbRollover (from'.hd + nfromright)
  let nfromleft := rbContigget hd from'.tl
  let to' := (rbWrite (bytes from'.buf hd nfromleft) to').2
  ({ from' with hd := hd + nfromleft, hd_lt := lt_of_eq_of_lt catb_last from'.tl_lt }, to')

inductive RbCall where
  | putc (i : Nat) (c : Int)
  | getc (i : Nat)
  | ungetc (i : Nat) (c : Int)
  | unputc (i : Nat)
  | rbWrite (i : Nat) (buf : List Char8)
  | catb (i j : Nat)

def rbCall (rings : Nat → Ringb) : RbCall → Int × (Nat → Ringb)
  | .putc i c => ((putc c (rings i)).1, Function.update rings i (putc c (rings i)).2)
  | .getc i => ((getc (rings i)).1, Function.update rings i (getc (rings i)).2)
  | .ungetc i c => ((ungetc c (rings i)).1, Function.update rings i (ungetc c (rings i)).2)
  | .unputc i => ((unputc (rings i)).1, Function.update rings i (unputc (rings i)).2)
  | .rbWrite i buf => ((rbWrite buf (rings i)).1, Function.update rings i (rbWrite buf (rings i)).2)
  | .catb i j => (0, Function.update (Function.update rings j (catb (rings i) (rings j)).2) i
      (catb (rings i) (rings j)).1)

end Model

section Queue

def Ringb.contents (r : Ringb) : List Char8 := window r.buf RBSZ r.hd (rbLen r.hd r.tl)

/-- Queues with two ends, of at most `RBSZ - 1` characters. -/
def queueCall (queues : Nat → List Char8) : RbCall → Int × (Nat → List Char8)
  | .putc i c =>
    if (queues i).length < RBSZ - 1 then
      (0, Function.update queues i (queues i ++ [BitVec.ofInt 8 c]))
    else (-1, queues)
  | .getc i =>
    match queues i with
    | [] => (-1, queues)
    | c :: rest => (c.toNat, Function.update queues i rest)
  | .ungetc i c =>
    if (queues i).length < RBSZ - 1 then
      (0, Function.update queues i (BitVec.ofInt 8 c :: queues i))
    else (-1, queues)
  | .unputc i =>
    match (queues i).getLast? with
    | none => (-1, queues)
    | some c => (c.toNat, Function.update queues i (queues i).dropLast)
  | .rbWrite i buf =>
    let r := min buf.length (RBSZ - 1 - (queues i).length)
    (r, Function.update queues i (queues i ++ buf.take r))
  | .catb i j =>
    let moved := (queues i).take (RBSZ - 1 - (queues j).length)
    (0, Function.update (Function.update queues j (queues j ++ moved)) i [])

/-- What a call does to the rings is what it does to the queues they stand for. -/
def Refined (rings : Nat → Ringb) (call : RbCall) : Prop :=
  ((rbCall rings call).1, fun i => ((rbCall rings call).2 i).contents) =
    queueCall (fun i => (rings i).contents) call

/-- `rb_write` of `n` characters ends before it has to stop at the head: it does not fill what is
contiguous, or it goes on at the start of a buffer where the contents are not. -/
def Writable (hd tl n : Nat) : Prop :=
  n < rbContigput hd tl ∨ 0 < hd ∧ hd ≤ tl ∧ n ≤ RBSZ - 1 - rbLen hd tl ∨ n = 0 ∧ hd = 1 ∧ tl = 0

instance (hd tl n : Nat) : Decidable (Writable hd tl n) := inferInstanceAs (Decidable (_ ∨ _))

def Fits (rings : Nat → Ringb) : RbCall → Prop
  | .rbWrite i buf => Writable (rings i).hd (rings i).tl buf.length
  | .catb i j =>
    let n := rbLen (rings i).hd (rings i).tl
    let right := rbContigget (rings i).hd (rings i).tl
    Writable (rings j).hd (rings j).tl right ∧
      Writable (rings j).hd (wrap RBSZ ((rings j).tl + right)) (n - right)
  | _ => True

instance (rings : Nat → Ringb) (call : RbCall) : Decidable (Fits rings call) :=
  match call with
  | .rbWrite _ _ => inferInstanceAs (Decidable (Writable _ _ _))
  | .catb _ _ => inferInstanceAs (Decidable (_ ∧ _))
  | .putc _ _ | .getc _ | .ungetc _ _ | .unputc _ => inferInstanceAs (Decidable True)

end Queue

section Refine

variable {buf : List Char8}

theorem rbLen_lt {hd tl : Nat} (tl_lt : tl < RBSZ) : rbLen hd tl < RBSZ := by
  unfold rbLen RBSZ at *
  split <;> lia

theorem wrap_rbLen {hd tl : Nat} (hd_lt : hd < RBSZ) (tl_lt : tl < RBSZ) :
    wrap RBSZ (hd + rbLen hd tl) = tl := by
  unfold wrap rbLen RBSZ at *
  split <;> split <;> lia

theorem Ringb.length_contents (r : Ringb) : r.contents.length = rbLen r.hd r.tl := window_length

theorem bcopy_put {first : Nat} {data : List Char8} {mem : Nat → Char8}
    (fits : first + data.length ≤ RBSZ) (j : Nat) :
      bcopy data first mem j = put mem RBSZ first data j := by
  unfold bcopy put
  by_cases here : first ≤ j
  · have place : wrap RBSZ (j + RBSZ - first) = j - first := by
      unfold wrap
      split <;> lia
    rw [if_pos here, place]
  · have place : data.length ≤ wrap RBSZ (j + RBSZ - first) := by
      unfold wrap
      split <;> lia
    rw [if_neg here, List.getElem?_eq_none place, Option.getD_none]

/-- The buffer after `data` is put behind the contents, and the tail moved behind it. -/
theorem contents_append (r to' : Ringb) {data : List Char8}
    (room : rbLen r.hd r.tl + data.length ≤ RBSZ - 1) (hd : to'.hd = r.hd)
    (tl : to'.tl = wrap RBSZ (r.tl + data.length))
    (same : ∀ j < RBSZ, to'.buf j = put r.buf RBSZ r.tl data j) :
      to'.contents = r.contents ++ data := by
  have hd_lt := r.hd_lt
  have tl_lt := r.tl_lt
  have length : rbLen to'.hd to'.tl = rbLen r.hd r.tl + data.length := by
    rw [hd, tl]
    unfold rbLen wrap RBSZ at *
    split at room <;> split <;> split <;> lia
  have appended := @window_append _ r.buf RBSZ r.hd (rbLen r.hd r.tl) data hd_lt (by lia)
  rw [wrap_rbLen hd_lt tl_lt] at appended
  rw [Ringb.contents, Ringb.contents, length, hd, ← appended]
  apply window_congr
  intro i short
  apply same
  unfold wrap RBSZ at *
  split <;> lia

theorem putc_spec (c : Int) (rbp : Ringb) :
    (putc c rbp).1 = (if rbLen rbp.hd rbp.tl < RBSZ - 1 then 0 else -1) ∧
    (putc c rbp).2.contents =
      if rbLen rbp.hd rbp.tl < RBSZ - 1 then rbp.contents ++
        [BitVec.ofInt 8 c] else rbp.contents := by
  have hd_lt := rbp.hd_lt
  have tl_lt := rbp.tl_lt
  have full : rbSucc rbp.tl = rbp.hd ↔ ¬ rbLen rbp.hd rbp.tl < RBSZ - 1 := by
    unfold rbSucc rbLen RBSZ at *
    split <;> split <;> lia
  unfold putc
  dsimp only
  by_cases room : rbLen rbp.hd rbp.tl < RBSZ - 1
  · rw [if_neg (fun same => full.mp same room), if_pos room, if_pos room]
    refine ⟨rfl, ?_⟩
    apply contents_append rbp
    · exact room
    · rfl
    · change rbSucc rbp.tl = wrap RBSZ (rbp.tl + 1)
      unfold wrap rbSucc RBSZ at *
      split <;> split <;> lia
    · intro j _
      exact bcopy_put tl_lt j
  · rw [if_pos (full.mpr room), if_neg room, if_neg room]
    exact ⟨rfl, rfl⟩

theorem ungetc_spec (c : Int) (rbp : Ringb) :
    (ungetc c rbp).1 = (if rbLen rbp.hd rbp.tl < RBSZ - 1 then 0 else -1) ∧
    (ungetc c rbp).2.contents =
      if rbLen rbp.hd rbp.tl < RBSZ - 1 then BitVec.ofInt 8 c ::
        rbp.contents else rbp.contents := by
  have hd_lt := rbp.hd_lt
  have tl_lt := rbp.tl_lt
  have full : rbPred rbp.hd = rbp.tl ↔ ¬ rbLen rbp.hd rbp.tl < RBSZ - 1 := by
    unfold rbPred rbLen RBSZ at *
    split <;> split <;> lia
  unfold ungetc
  dsimp only
  by_cases room : rbLen rbp.hd rbp.tl < RBSZ - 1
  · rw [if_neg (fun same => full.mp same room), if_pos room, if_pos room]
    refine ⟨rfl, ?_⟩
    have back := rbPred_lt hd_lt
    have length : rbLen (rbPred rbp.hd) rbp.tl = rbLen rbp.hd rbp.tl + 1 := by
      unfold rbPred rbLen RBSZ at *
      split at room <;> split <;> split <;> lia
    have next : wrap RBSZ (rbPred rbp.hd + 1) = rbp.hd := by
      unfold wrap rbPred RBSZ at *
      split <;> split <;> lia
    rw [Ringb.contents, length, window_succ back (by lia), next]
    congr 1
    · simp [bcopy]
    · apply window_congr
      intro i short
      have other : wrap RBSZ (rbp.hd + i) ≠ rbPred rbp.hd := by
        unfold wrap rbPred RBSZ at *
        split <;> split <;> lia
      dsimp only [bcopy]
      split
      · rename_i above
        rw [List.getElem?_eq_none (by simp only [List.length_singleton]; lia), Option.getD_none]
      · rfl
  · rw [if_pos (full.mpr room), if_neg room, if_neg room]
    exact ⟨rfl, rfl⟩

theorem rbLen_eq_zero {hd tl : Nat} (hd_lt : hd < RBSZ) : rbLen hd tl = 0 ↔ hd = tl := by
  unfold rbLen RBSZ at *
  split <;> lia

theorem getc_spec (rbp : Ringb) : (rbp.contents = [] ∧ getc rbp = (-1, rbp)) ∨
    ∃ c, (getc rbp).1 = c.toNat ∧ rbp.contents = c :: (getc rbp).2.contents := by
  have hd_lt := rbp.hd_lt
  have tl_lt := rbp.tl_lt
  unfold getc
  split
  · rename_i same
    left
    have none := (rbLen_eq_zero hd_lt).mpr same
    exact ⟨by rw [Ringb.contents, none, window_zero], rfl⟩
  · rename_i other
    right
    have some := mt (rbLen_eq_zero hd_lt).mp other
    have short := @rbLen_lt rbp.hd _ tl_lt
    refine ⟨rbp.buf rbp.hd, rfl, ?_⟩
    have length : rbLen rbp.hd rbp.tl = rbLen (rbSucc rbp.hd) rbp.tl + 1 := by
      unfold rbSucc rbLen RBSZ at *
      split <;> split <;> split <;> lia
    have next : wrap RBSZ (rbp.hd + 1) = rbSucc rbp.hd := by
      unfold wrap rbSucc RBSZ at *
      split <;> split <;> lia
    rw [Ringb.contents, length, window_succ hd_lt (by lia), next]
    rfl

theorem unputc_spec (rbp : Ringb) : (rbp.contents = [] ∧ unputc rbp = (-1, rbp)) ∨
    ∃ c, (unputc rbp).1 = c.toNat ∧ rbp.contents = (unputc rbp).2.contents ++ [c] := by
  have hd_lt := rbp.hd_lt
  have tl_lt := rbp.tl_lt
  unfold unputc
  split
  · rename_i same
    left
    have none := (rbLen_eq_zero hd_lt).mpr same
    exact ⟨by rw [Ringb.contents, none, window_zero], rfl⟩
  · rename_i other
    right
    have some := mt (rbLen_eq_zero hd_lt).mp other
    have short := @rbLen_lt rbp.hd _ tl_lt
    refine ⟨rbp.buf (rbPred rbp.tl), rfl, ?_⟩
    have length : rbLen rbp.hd rbp.tl = rbLen rbp.hd (rbPred rbp.tl) + 1 := by
      unfold rbPred rbLen RBSZ at *
      split <;> split <;> split <;> lia
    rw [Ringb.contents, length, window_last hd_lt (by lia), wrap_rbLen hd_lt (rbPred_lt tl_lt)]
    rfl

theorem bcopy_two {tl : Nat} {mem : Nat → Char8} (below : tl < RBSZ)
    (short : buf.length ≤ RBSZ) {j : Nat} (within : j < RBSZ) :
    bcopy (buf.drop (RBSZ - tl)) 0 (bcopy (buf.take (RBSZ - tl)) tl mem) j =
      put mem RBSZ tl buf j := by
  unfold put
  rw [bcopy, if_pos (Nat.zero_le j), List.getElem?_drop, Nat.sub_zero]
  by_cases here : tl ≤ j
  · have place : wrap RBSZ (j + RBSZ - tl) = j - tl := by
      unfold wrap
      split <;> lia
    have none : buf.length ≤ RBSZ - tl + j := by lia
    rw [List.getElem?_eq_none none, Option.getD_none, bcopy, if_pos here, place,
      List.getElem?_take_of_lt (by lia)]
  · have place : wrap RBSZ (j + RBSZ - tl) = RBSZ - tl + j := by
      unfold wrap
      split <;> lia
    rw [bcopy, if_neg here, place]

theorem rbWrite_spec (to' : Ringb) (writable : Writable to'.hd to'.tl buf.length) :
    (rbWrite buf to').1 = buf.length ∧ (rbWrite buf to').2.hd = to'.hd ∧
      (rbWrite buf to').2.tl = wrap RBSZ (to'.tl + buf.length) ∧
      rbLen to'.hd to'.tl + buf.length ≤ RBSZ - 1 ∧
      (rbWrite buf to').2.contents = to'.contents ++ buf := by
  have hd_lt := to'.hd_lt
  have tl_lt := to'.tl_lt
  have room : rbLen to'.hd to'.tl + buf.length ≤ RBSZ - 1 := by
    unfold Writable rbContigput rbPred rbLen RBSZ at *
    split at writable <;> split at writable <;> split at writable <;> split <;> lia
  unfold rbWrite
  dsimp only
  split
  · rename_i short
    have within := rbWrite_short hd_lt short
    have tail : to'.tl + buf.length = wrap RBSZ (to'.tl + buf.length) := (if_pos within).symm
    refine ⟨rfl, rfl, tail, room, ?_⟩
    apply contents_append to'
    · exact room
    · rfl
    · exact tail
    · intro j _
      exact bcopy_put (by lia) j
  · rename_i long
    rcases writable with fits | ⟨positive, order, fits⟩ | ⟨none, one, zero⟩
    · exact absurd fits long
    · have right : rbContigput to'.hd to'.tl = RBSZ - to'.tl := by
        unfold rbContigput rbPred RBSZ at *
        split <;> split <;> lia
      rw [right] at long
      have left : min (buf.length - (RBSZ - to'.tl)) to'.hd = buf.length - (RBSZ - to'.tl) := by
        unfold rbLen RBSZ at *
        split at room <;> lia
      have whole : (buf.drop (RBSZ - to'.tl)).take (buf.length - (RBSZ - to'.tl)) =
          buf.drop (RBSZ - to'.tl) :=
        List.take_of_length_le (by rw [List.length_drop])
      have tail : min (buf.length - rbContigput to'.hd to'.tl) to'.hd =
          wrap RBSZ (to'.tl + buf.length) := by
        rw [right, left]
        unfold wrap
        split <;> lia
      refine ⟨?_, rfl, tail, room, ?_⟩
      · simp only [right, left]
        lia
      · apply contents_append to'
        · exact room
        · rfl
        · exact tail
        · intro j within
          simp only [right, left, whole]
          exact bcopy_two tl_lt (by lia) within
    · have empty : buf = [] := List.length_eq_zero_iff.mp none
      have right : rbContigput to'.hd to'.tl = 0 := by
        rw [one, zero]
        rfl
      subst empty
      have tail : min (([] : List Char8).length - rbContigput to'.hd to'.tl) to'.hd =
          wrap RBSZ (to'.tl + ([] : List Char8).length) := by
        rw [zero]
        simp [wrap, RBSZ]
      refine ⟨by simp [right], rfl, tail, room, ?_⟩
      apply contents_append to'
      · exact room
      · rfl
      · exact tail
      · intro j _
        simp [bcopy, put]

theorem rbLen_cases (hd tl : Nat) :
    hd ≤ tl ∧ rbLen hd tl = tl - hd ∨ tl < hd ∧ rbLen hd tl = RBSZ - (hd - tl) := by
  unfold rbLen
  split <;> lia

theorem rbContigput_cases {hd tl : Nat} (tl_lt : tl < RBSZ) :
    hd = 0 ∧ rbContigput hd tl = RBSZ - 1 - tl ∨ 0 < hd ∧ hd ≤ tl ∧ rbContigput hd tl = RBSZ - tl ∨
      tl < hd ∧ rbContigput hd tl = hd - 1 - tl := by
  unfold rbContigput rbPred RBSZ at *
  split <;> split <;> lia

/-- Where it is not, either the value returned or the length of the contents is wrong. -/
theorem rbWrite_unfit (to' : Ringb) (unfit : ¬ Writable to'.hd to'.tl buf.length) :
    ¬ ((rbWrite buf to').1 = min buf.length (RBSZ - 1 - rbLen to'.hd to'.tl) ∧
      (rbWrite buf to').2.contents.length =
        rbLen to'.hd to'.tl + min buf.length (RBSZ - 1 - rbLen to'.hd to'.tl)) := by
  have hd_lt := to'.hd_lt
  have tl_lt := to'.tl_lt
  rintro ⟨returned, length⟩
  rw [Ringb.length_contents] at length
  have long : ¬ buf.length < rbContigput to'.hd to'.tl := fun short => unfit (.inl short)
  simp only [rbWrite, dif_neg long] at returned length
  have before := rbLen_cases to'.hd to'.tl
  have after := rbLen_cases to'.hd (min (buf.length - rbContigput to'.hd to'.tl) to'.hd)
  have right := @rbContigput_cases to'.hd _ tl_lt
  unfold Writable RBSZ at *
  lia

theorem window_bytes {mem : Nat → Char8} {first n : Nat} (fits : first + n ≤ RBSZ) :
    window mem RBSZ first n = bytes mem first n := by
  unfold window bytes
  apply List.map_congr_left
  intro i member
  have short := List.mem_range.mp member
  rw [wrap, if_pos (by omega)]

theorem rbContigget_cases {hd tl : Nat} (tl_lt : tl < RBSZ) :
    hd ≤ tl ∧ rbContigget hd tl = tl - hd ∧ rbRollover (hd + rbContigget hd tl) = tl ∨
      tl < hd ∧ rbContigget hd tl = RBSZ - hd ∧ rbRollover (hd + rbContigget hd tl) = 0 := by
  unfold rbContigget rbRollover RBSZ at *
  split <;> split <;> lia

theorem contents_parts (r : Ringb) : r.contents = bytes r.buf r.hd (rbContigget r.hd r.tl) ++
    bytes r.buf (rbRollover (r.hd + rbContigget r.hd r.tl))
      (rbContigget (rbRollover (r.hd + rbContigget r.hd r.tl)) r.tl) ∧
    rbLen r.hd r.tl - rbContigget r.hd r.tl =
      rbContigget (rbRollover (r.hd + rbContigget r.hd r.tl)) r.tl := by
  have hd_lt := r.hd_lt
  have tl_lt := r.tl_lt
  have length := rbLen_cases r.hd r.tl
  have second : rbContigget (rbRollover (r.hd + rbContigget r.hd r.tl)) r.tl =
      rbLen r.hd r.tl - rbContigget r.hd r.tl := by
    have last := @catb_last r.hd r.tl
    rcases @rbContigget_cases r.hd _ tl_lt with ⟨order, get, roll⟩ | ⟨order, get, roll⟩
    · lia
    · lia
  have total :
      rbLen r.hd r.tl = rbContigget r.hd r.tl + (rbLen r.hd r.tl - rbContigget r.hd r.tl) := by
    rcases @rbContigget_cases r.hd _ tl_lt with ⟨order, get, roll⟩ | ⟨order, get, roll⟩
    · lia
    · lia
  have short := @rbLen_lt r.hd _ tl_lt
  refine ⟨?_, second.symm⟩
  rw [Ringb.contents, total, window_add hd_lt (by lia), second]
  congr 1
  · apply window_bytes
    rcases @rbContigget_cases r.hd _ tl_lt with ⟨order, get, roll⟩ | ⟨order, get, roll⟩
    · lia
    · lia
  · rcases @rbContigget_cases r.hd _ tl_lt with ⟨order, get, roll⟩ | ⟨order, get, roll⟩
    · have none : rbLen r.hd r.tl - rbContigget r.hd r.tl = 0 := by lia
      rw [none]
      rfl
    · have start : wrap RBSZ (r.hd + rbContigget r.hd r.tl) = 0 := by
        unfold wrap
        split <;> lia
      rw [start, roll]
      apply window_bytes
      lia

@[simp] theorem bytes_length (mem : Nat → Char8) (first n : Nat) :
    (bytes mem first n).length = n := by simp [bytes]

theorem catb_spec (from' to' : Ringb)
    (right : Writable to'.hd to'.tl (rbContigget from'.hd from'.tl))
    (left : Writable to'.hd (wrap RBSZ (to'.tl + rbContigget from'.hd from'.tl))
      (rbLen from'.hd from'.tl - rbContigget from'.hd from'.tl)) :
    rbLen to'.hd to'.tl + rbLen from'.hd from'.tl ≤ RBSZ - 1 ∧
      (catb from' to').2.contents = to'.contents ++ from'.contents ∧
        (catb from' to').1.contents = [] := by
  obtain ⟨parts, count⟩ := contents_parts from'
  have length := congrArg List.length parts
  rw [Ringb.length_contents, List.length_append, bytes_length, bytes_length] at length
  rw [← bytes_length from'.buf from'.hd (rbContigget from'.hd from'.tl)] at right
  obtain ⟨-, hd, tl, room, first⟩ := rbWrite_spec to' right
  rw [bytes_length] at tl
  rw [count, ← tl, ← hd, ← bytes_length from'.buf
    (rbRollover (from'.hd + rbContigget from'.hd from'.tl))
    (rbContigget (rbRollover (from'.hd + rbContigget from'.hd from'.tl)) from'.tl)] at left
  obtain ⟨-, -, -, room', second⟩ := rbWrite_spec _ left
  have grown := congrArg List.length first
  rw [List.length_append, Ringb.length_contents, Ringb.length_contents, bytes_length] at grown
  rw [bytes_length] at room'
  refine ⟨by omega, ?_, ?_⟩
  · rw [parts, ← List.append_assoc, ← first]
    exact second
  · have empty : rbLen (catb from' to').1.hd (catb from' to').1.tl = 0 :=
      (rbLen_eq_zero (catb from' to').1.hd_lt).mpr catb_last
    rw [Ringb.contents, empty, window_zero]

end Refine

section Runs

def Distinct : RbCall → Prop
  | .catb i j => i ≠ j
  | _ => True

instance (call : RbCall) : Decidable (Distinct call) :=
  match call with
  | .catb _ _ => inferInstanceAs (Decidable (_ ≠ _))
  | .putc _ _ | .getc _ | .ungetc _ _ | .unputc _ | .rbWrite _ _ => inferInstanceAs (Decidable True)

theorem contents_update (rings : Nat → Ringb) (i : Nat) (r : Ringb) :
    (fun k => (Function.update rings i r k).contents) =
      Function.update (fun k => (rings k).contents) i r.contents := by
  funext k
  by_cases here : k = i
  · rw [here, Function.update_self, Function.update_self]
  · rw [Function.update_of_ne here, Function.update_of_ne here]

theorem contents_update_self (rings : Nat → Ringb) (i : Nat) (r : Ringb)
    (same : r.contents = (rings i).contents) :
    (fun k => (Function.update rings i r k).contents) = fun k => (rings k).contents := by
  rw [contents_update, same]
  exact Function.update_eq_self i _

theorem refined_of_fits {rings : Nat → Ringb} {call : RbCall} (distinct : Distinct call)
    (fits : Fits rings call) :
    Refined rings call := by
  unfold Refined
  cases call with
  | putc i c =>
    obtain ⟨value, contents⟩ := putc_spec c (rings i)
    simp only [rbCall, queueCall, Ringb.length_contents, value]
    split
    · rename_i room
      rw [contents_update, contents, if_pos room]
    · rename_i full
      rw [contents_update_self rings i _ (by rw [contents, if_neg full])]
  | ungetc i c =>
    obtain ⟨value, contents⟩ := ungetc_spec c (rings i)
    simp only [rbCall, queueCall, Ringb.length_contents, value]
    split
    · rename_i room
      rw [contents_update, contents, if_pos room]
    · rename_i full
      rw [contents_update_self rings i _ (by rw [contents, if_neg full])]
  | getc i =>
    rcases getc_spec (rings i) with ⟨empty, none⟩ | ⟨c, value, contents⟩
    · simp only [rbCall, queueCall, empty, none, Function.update_eq_self]
    · simp only [rbCall, queueCall, contents, value, contents_update]
  | unputc i =>
    rcases unputc_spec (rings i) with ⟨empty, none⟩ | ⟨c, value, contents⟩
    · simp only [rbCall, queueCall, empty, none, Function.update_eq_self, List.getLast?_nil]
    · simp only [rbCall, queueCall, contents, value, contents_update, List.getLast?_append,
        List.getLast?_singleton, List.dropLast_concat, Option.some_or]
  | rbWrite i buf =>
    obtain ⟨value, -, -, room, contents⟩ := rbWrite_spec (rings i) fits
    have whole : min buf.length (RBSZ - 1 - rbLen (rings i).hd (rings i).tl) = buf.length := by lia
    simp only [rbCall, queueCall, Ringb.length_contents, value, contents_update, contents, whole,
      List.take_length]
  | catb i j =>
    obtain ⟨room, moved, empty⟩ := catb_spec (rings i) (rings j) fits.1 fits.2
    have all : (rings i).contents.take (RBSZ - 1 - (rings j).contents.length) =
        (rings i).contents := by
      apply List.take_of_length_le
      rw [Ringb.length_contents, Ringb.length_contents]
      lia
    simp only [rbCall, queueCall, contents_update, moved, empty, all]

theorem fits_of_refined {rings : Nat → Ringb} {call : RbCall} (single : ∀ i j, call ≠ .catb i j)
    (refined : Refined rings call) : Fits rings call := by
  cases call with
  | rbWrite i buf =>
    by_contra unfit
    apply rbWrite_unfit (rings i) unfit
    simp only [Refined, rbCall, queueCall, contents_update, Ringb.length_contents,
      Prod.mk.injEq] at refined
    obtain ⟨value, contents⟩ := refined
    have here := congrArg List.length (congrFun contents i)
    simp only [Function.update_self, List.length_append, Ringb.length_contents,
      List.length_take] at here
    rw [Ringb.length_contents, here]
    refine ⟨by exact_mod_cast value, ?_⟩
    lia
  | catb i j => exact absurd rfl (single i j)
  | putc | getc | ungetc | unputc => trivial

def RbStep (rings : Nat → Ringb) (call : RbCall) (rings' : Nat → Ringb) : Prop :=
  Distinct call ∧ Fits rings call ∧ rings' = (rbCall rings call).2

def queueCalls (queues : Nat → List Char8) (calls : List RbCall) : Nat → List Char8 :=
  calls.foldl (fun queues call => (queueCall queues call).2) queues

theorem run_refined {rings rings' : Nat → Ringb} {calls : List RbCall}
    (run : Run RbStep rings calls rings') :
    (fun i => (rings' i).contents) = queueCalls (fun i => (rings i).contents) calls := by
  induction run with
  | nil => rfl
  | cons step _ ih =>
    obtain ⟨distinct, fits, rfl⟩ := step
    rw [ih, queueCalls, queueCalls, List.foldl_cons, ← refined_of_fits distinct fits]

/-- Rings refine queues, over every run whose calls are done right, and a call that is not a
`catb` is done right only then. -/
theorem ring_refines {start rings : Nat → Ringb} {calls : List RbCall}
    (initial : ∀ i, ∃ mem, start i = initrb mem) (run : Run RbStep start calls rings) :
    (fun i => (rings i).contents) = queueCalls (fun _ => []) calls ∧
      ∀ call, Distinct call → (Fits rings call → Refined rings call) ∧
        ((∀ i j, call ≠ .catb i j) → Refined rings call → Fits rings call) := by
  have empty : (fun i => (start i).contents) = fun _ => [] := by
    funext i
    obtain ⟨mem, same⟩ := initial i
    rw [same]
    rfl
  refine ⟨(run_refined run).trans (by rw [empty]), fun call distinct => ⟨refined_of_fits distinct,
    fits_of_refined⟩⟩

/-- A write that fills an empty ring empties it. -/
theorem ring_unrefined : ¬ ∀ (start rings : Nat → Ringb) (calls : List RbCall),
    (∀ i, ∃ mem, start i = initrb mem) →
    Run (fun rings call rings' => Distinct call ∧ rings' = (rbCall rings call).2) start calls
      rings →
    ∀ call, Distinct call → Refined rings call := by
  intro claim
  have refined := claim (fun _ => initrb fun _ => 0) _ [] (fun _ => ⟨_, rfl⟩) (.nil _)
    (.rbWrite 0 (List.replicate 1023 0)) trivial
  have fits : Writable 0 0 (List.replicate 1023 (0 : Char8)).length :=
    fits_of_refined (fun _ _ other => by cases other) refined
  rw [List.length_replicate] at fits
  exact absurd fits (by decide)

theorem ring_refines_echo : ∃ rings, Run RbStep (fun _ => initrb fun _ => 0)
    [.putc 0 65, .rbWrite 0 [66, 67], .unputc 0, .catb 0 1] rings ∧
      (rings 1).contents = [65, 66] := by
  have run : Run RbStep (fun _ => initrb fun _ => 0) [.putc 0 65, .rbWrite 0 [66, 67], .unputc 0,
      .catb 0 1] _ :=
    .cons ⟨trivial, trivial, rfl⟩ (.cons ⟨trivial, by decide, rfl⟩ (.cons ⟨trivial, trivial, rfl⟩
      (.cons ⟨by decide, by decide, rfl⟩ (.nil _))))
  have same := (ring_refines (fun _ => ⟨_, rfl⟩) run).1
  exact ⟨_, run, congrFun same 1⟩

end Runs

end FreeBsd.Kern
