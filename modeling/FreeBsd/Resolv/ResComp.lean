import Mathlib.Tactic.Ring

/-! `dn_expand` of the resolver: compressed domain names out of a message of any bytes. -/
namespace FreeBsd.Resolv

abbrev Byte := BitVec 8

def INDIR_MASK : Byte := 0xc0

section Model

/-- Ways in which the code stops early: it returns -1, reads past the end of the message, writes
past the end of the buffer, or goes on for longer than the fuel lasts. -/
inductive Stop where
  | minus1
  | overread
  | overwrite
  | spins
  deriving DecidableEq, Repr

def dot : Byte := 46
def backslash : Byte := 92

def fetch (msg : List Byte) (cp : Nat) : Except Stop Byte :=
  match msg[cp]? with
  | some c => .ok c
  | none => .error .overread

/-- `*dn++ = c`, where `dn` holds what lies between `exp_dn` and the pointer of that name. -/
def put (length : Nat) (dn : List Byte) (c : Byte) : Except Stop (List Byte) :=
  if dn.length < length then .ok (dn ++ [c]) else .error .overwrite

/-- The loop over the `n` bytes of a label that are left, from `cp` on. -/
def label (msg : List Byte) (length : Nat) : (n cp : Nat) → (dn : List Byte) →
    Except Stop (Nat × List Byte)
  | 0, cp, dn => .ok (cp, dn)
  | n + 1, cp, dn => do
    let c ← fetch msg cp
    let dn ← if c = dot then
        if length ≤ dn.length + n + 2 then .error .minus1 else put length dn backslash
      else .ok dn
    let dn ← put length dn c
    if msg.length ≤ cp + 1 then .error .minus1 else label msg length n (cp + 1) dn

def indirect (n c : Byte) : Nat := ((n &&& 0x3f).toNat <<< 8) ||| c.toNat

def separate (length : Nat) (dn : List Byte) : Except Stop (List Byte) :=
  if dn = [] then .ok dn else if length ≤ dn.length then .error .minus1 else put length dn dot

/-- The outer loop of `dn_expand`: `len` is `none` for its start value of -1. -/
def expandLoop (msg : List Byte) (comp_dn length : Nat) :
    (fuel cp : Nat) → (dn : List Byte) → (len : Option Nat) → (checked : Nat) →
      Except Stop (Nat × List Byte)
  | 0, _, _, _, _ => .error .spins
  | fuel + 1, cp, dn, len, checked => do
    let n ← fetch msg cp
    if n = 0 then do
      let dn ← put length dn 0
      .ok (len.getD (cp + 1 - comp_dn), dn)
    else if n &&& INDIR_MASK = 0 then do
      let dn ← separate length dn
      if length ≤ dn.length + n.toNat then .error .minus1
      else do
        let (cp, dn) ← label msg length n.toNat (cp + 1) dn
        expandLoop msg comp_dn length fuel cp dn len (checked + (n.toNat + 1))
    else if n &&& INDIR_MASK = INDIR_MASK then do
      let c ← fetch msg (cp + 1)
      if msg.length ≤ indirect n c then .error .minus1
      else if msg.length ≤ checked + 2 then .error .minus1
      else
        expandLoop msg comp_dn length fuel (indirect n c) dn (some (len.getD (cp + 2 - comp_dn)))
          (checked + 2)
    else .error .minus1

/-- `dn_expand`: what it returns, and what it has written to `exp_dn`. -/
def dnExpand (msg : List Byte) (comp_dn length fuel : Nat) : Except Stop (Nat × List Byte) :=
  expandLoop msg comp_dn length fuel comp_dn [] none 0

/-- A call that keeps within the message and the buffer, and whose result, if there is one, has its
NUL. -/
def Fine (length : Nat) : Except Stop (Nat × List Byte) → Prop
  | .ok (_, dn) => dn.length ≤ length ∧ dn.getLast? = some 0
  | .error stop => stop = .minus1

def Safe (msg : List Byte) (comp_dn length : Nat) : Prop :=
  ∃ enough, ∀ fuel, enough ≤ fuel → Fine length (dnExpand msg comp_dn length fuel)

end Model

section Walk

def escaped (label : List Byte) : List Byte :=
  label.flatMap fun c => if c = dot then [backslash, c] else [c]

/-- The room that a printed label takes behind `used` bytes. -/
def after (used : Nat) (printed : Nat) : Nat := if used = 0 then printed else used + 1 + printed

def joined (dn printed : List Byte) : List Byte := if dn = [] then printed else dn ++ dot :: printed

def labelAt (msg : List Byte) (cp n : Nat) : List Byte := (msg.drop (cp + 1)).take n

/-- The length bytes and the pointers on the way of a compressed name: where each lies, the room
that the labels before it take, and the bytes counted by then. -/
inductive Comes (msg : List Byte) (comp_dn length : Nat) : (cp used checked : Nat) → Prop
  | start : Comes msg comp_dn length comp_dn 0 0
  | label {cp used checked : Nat} {n : Byte} (came : Comes msg comp_dn length cp used checked)
  (is : msg[cp]? = some n)
      (nonzero : n ≠ 0) (plain : n &&& INDIR_MASK = 0) (inside : cp + 1 + n.toNat < msg.length)
      (room : after used (escaped (labelAt msg cp n.toNat)).length < length) :
      Comes msg comp_dn length (cp + 1 + n.toNat)
        (after used (escaped (labelAt msg cp n.toNat)).length)
        (checked + (n.toNat + 1))
  | pointer {cp used checked : Nat} {n c : Byte} (came : Comes msg comp_dn length cp used checked)
      (is : msg[cp]? = some n) (points : n &&& INDIR_MASK = INDIR_MASK)
      (low : msg[cp + 1]? = some c) (inside : indirect n c < msg.length)
      (fresh : checked + 2 < msg.length) :
      Comes msg comp_dn length (indirect n c) used (checked + 2)

/-- The last byte of the message starts a pointer, or a label that the buffer has room for. -/
def Cut (msg : List Byte) (length cp used : Nat) : Prop :=
  cp + 1 = msg.length ∧ ∃ n, msg[cp]? = some n ∧
    (n &&& INDIR_MASK = INDIR_MASK ∨ (n ≠ 0 ∧ n &&& INDIR_MASK = 0 ∧ after used n.toNat < length))

end Walk

section Steps

variable {msg dn : List Byte} {comp_dn length fuel cp used checked n : Nat} {len : Option Nat}
    {c : Byte}

theorem fetch_at (is : msg[cp]? = some c) : fetch msg cp = .ok c := by
  simp only [fetch, is]

theorem fetch_past (past : msg.length ≤ cp) : fetch msg cp = .error .overread := by
  simp only [fetch, List.getElem?_eq_none past]

theorem put_room (room : dn.length < length) : put length dn c = .ok (dn ++ [c]) := if_pos room

theorem escaped_cons (c : Byte) (rest : List Byte) :
    escaped (c :: rest) = (if c = dot then [backslash, c] else [c]) ++ escaped rest := rfl

theorem escaped_long (label : List Byte) : label.length ≤ (escaped label).length := by
  induction label with
  | nil => exact Nat.le_refl 0
  | cons c rest ih =>
    rw [escaped_cons, List.length_append, List.length_cons]
    split
    · simp only [List.length_cons, List.length_nil]
      omega
    · simp only [List.length_cons, List.length_nil]
      omega

theorem drop_take_succ (is : msg[cp]? = some c) :
    (msg.drop cp).take (n + 1) = c :: (msg.drop (cp + 1)).take n := by
  obtain ⟨inside, rfl⟩ := List.getElem?_eq_some_iff.mp is
  rw [List.drop_eq_getElem_cons inside, List.take_succ_cons]

/-- A label ends inside the message and the buffer, or with -1: from a byte inside, neither is
passed. -/
theorem label_cases (dn : List Byte) (inside : cp < msg.length) (room : dn.length + n < length) :
    (cp + n < msg.length ∧ dn.length + (escaped ((msg.drop cp).take n)).length < length ∧
      label msg length n cp dn = .ok (cp + n, dn ++ escaped ((msg.drop cp).take n))) ∨
    (¬ (cp + n < msg.length ∧ dn.length + (escaped ((msg.drop cp).take n)).length < length) ∧
      label msg length n cp dn = .error .minus1) := by
  induction n generalizing cp dn with
  | zero =>
    left
    refine ⟨inside, room, ?_⟩
    rw [label, List.take_zero, Nat.add_zero]
    exact congrArg (fun l => Except.ok (cp, l)) (List.append_nil dn).symm
  | succ n ih =>
    obtain ⟨c, is⟩ : ∃ c, msg[cp]? = some c := ⟨_, List.getElem?_eq_getElem inside⟩
    rw [drop_take_succ is, escaped_cons]
    have long := escaped_long ((msg.drop (cp + 1)).take n)
    have size : ((msg.drop (cp + 1)).take n).length = min n (msg.length - (cp + 1)) := by
      rw [List.length_take, List.length_drop]
    by_cases last : msg.length ≤ cp + 1
    · right
      refine ⟨fun both => by lia, ?_⟩
      by_cases stop : c = dot
      · by_cases full : length ≤ dn.length + n + 2
        · simp only [label, fetch_at is, if_pos stop, if_pos full, bind, Except.bind]
        · have first : dn.length < length := by lia
          have second : (dn ++ [backslash]).length < length := by
            rw [List.length_append]
            exact (by lia : dn.length + 1 < length)
          simp only [label, fetch_at is, if_pos stop, if_neg full, put_room first, put_room second,
            if_pos last, bind, Except.bind]
      · have first : dn.length < length := by lia
        simp only [label, fetch_at is, if_neg stop, put_room first, if_pos last, bind, Except.bind]
    · have next : cp + 1 < msg.length := Nat.lt_of_not_ge last
      by_cases stop : c = dot
      · rw [if_pos stop, List.length_append]
        have two : [backslash, c].length = 2 := rfl
        by_cases full : length ≤ dn.length + n + 2
        · right
          refine ⟨fun both => by lia, ?_⟩
          simp only [label, fetch_at is, if_pos stop, if_pos full, bind, Except.bind]
        · have first : dn.length < length := by lia
          have one : (dn ++ [backslash]).length = dn.length + 1 := List.length_append
          have both : (dn ++ [backslash] ++ [c]).length = dn.length + 2 := by
            rw [List.length_append, one]
            rfl
          have run : label msg length (n + 1) cp dn =
              label msg length n (cp + 1) (dn ++ [backslash] ++ [c]) := by
            have second : (dn ++ [backslash]).length < length := by lia
            simp only [label, fetch_at is, if_pos stop, if_neg full, put_room first,
              put_room second, if_neg last, bind, Except.bind]
          rw [run, show cp + (n + 1) = cp + 1 + n by lia]
          rcases ih (dn ++ [backslash] ++ [c]) next (by lia) with ⟨ends, fits, eq⟩ | ⟨fails, eq⟩
          · left
            refine ⟨ends, by lia, ?_⟩
            rw [eq, List.append_assoc dn, List.append_assoc dn]
            rfl
          · right
            refine ⟨fun all => fails ⟨all.1, by lia⟩, eq⟩
      · rw [if_neg stop, List.length_append]
        have single : [c].length = 1 := rfl
        have first : dn.length < length := by lia
        have one : (dn ++ [c]).length = dn.length + 1 := List.length_append
        have run : label msg length (n + 1) cp dn = label msg length n (cp + 1) (dn ++ [c]) := by
          simp only [label, fetch_at is, if_neg stop, put_room first, if_neg last, bind,
            Except.bind]
        rw [run, show cp + (n + 1) = cp + 1 + n by lia]
        rcases ih (dn ++ [c]) next (by lia) with ⟨ends, fits, eq⟩ | ⟨fails, eq⟩
        · left
          refine ⟨ends, by lia, ?_⟩
          rw [eq, List.append_assoc dn]
        · right
          refine ⟨fun all => fails ⟨all.1, by lia⟩, eq⟩

theorem joined_length (dn printed : List Byte) :
    (joined dn printed).length = after dn.length printed.length := by
  cases dn with
  | nil => rfl
  | cons c rest =>
    change (c :: rest ++ dot :: printed).length = (c :: rest).length + 1 + printed.length
    rw [List.length_append, List.length_cons (a := dot), Nat.add_assoc, Nat.add_comm 1]

theorem separate_spec (room : dn.length < length) :
    ∃ front, separate length dn = .ok front ∧ ∀ printed, front ++ printed = joined dn printed := by
  unfold separate joined
  by_cases first : dn = []
  · refine ⟨dn, if_pos first, fun printed => ?_⟩
    rw [if_pos first, first]
    rfl
  · refine ⟨dn ++ [dot], ?_, fun printed => ?_⟩
    · rw [if_neg first, if_neg (Nat.not_le_of_lt room), put_room room]
    · rw [if_neg first, List.append_assoc]
      rfl

theorem loop_end {n : Byte} (is : msg[cp]? = some n) (zero : n = 0) (room : dn.length < length) :
    expandLoop msg comp_dn length (fuel + 1) cp dn len checked =
      .ok (len.getD (cp + 1 - comp_dn), dn ++ [0]) := by
  simp only [expandLoop, fetch_at is, if_pos zero, put_room room, bind, Except.bind]

/-- A label whose bytes begin inside the message: it is printed, or -1 is returned. -/
theorem loop_label {n : Byte} (comp_dn : Nat) (len : Option Nat) (checked : Nat)
    (is : msg[cp]? = some n) (nonzero : n ≠ 0) (plain : n &&& INDIR_MASK = 0)
    (inside : cp + 1 < msg.length) (room : dn.length < length) :
    (cp + 1 + n.toNat < msg.length ∧
      (joined dn (escaped (labelAt msg cp n.toNat))).length < length ∧
      ∀ fuel, expandLoop msg comp_dn length (fuel + 1) cp dn len checked =
        expandLoop msg comp_dn length fuel (cp + 1 + n.toNat)
          (joined dn (escaped (labelAt msg cp n.toNat))) len
          (checked + (n.toNat + 1))) ∨
    (¬ (cp + 1 + n.toNat < msg.length ∧
      (joined dn (escaped (labelAt msg cp n.toNat))).length < length) ∧
      ∀ fuel, expandLoop msg comp_dn length (fuel + 1) cp dn len checked = .error .minus1) := by
  obtain ⟨front, sep, front_eq⟩ := separate_spec room
  have long := escaped_long (labelAt msg cp n.toNat)
  have bytes : (labelAt msg cp n.toNat).length = min n.toNat (msg.length - (cp + 1)) := by
    rw [labelAt, List.length_take, List.length_drop]
  rw [← front_eq, List.length_append]
  by_cases full : length ≤ front.length + n.toNat
  · right
    refine ⟨fun both => by lia, fun fuel => ?_⟩
    simp only [expandLoop, fetch_at is, if_neg nonzero, if_pos plain, sep, if_pos full,
      bind, Except.bind]
  · rcases label_cases _ (n := n.toNat) inside (Nat.lt_of_not_ge full) with ⟨ends, fits, eq⟩ |
      ⟨fails, eq⟩
    · left
      refine ⟨ends, fits, fun fuel => ?_⟩
      simp only [expandLoop, fetch_at is, if_neg nonzero, if_pos plain, sep, if_neg full, eq,
        bind, Except.bind]
      rfl
    · right
      refine ⟨fails, fun fuel => ?_⟩
      simp only [expandLoop, fetch_at is, if_neg nonzero, if_pos plain, sep, if_neg full, eq,
        bind, Except.bind]

/-- Nothing is read of a label whose bytes begin past the end, where the buffer has no room for it.
-/
theorem loop_last {n : Byte} (is : msg[cp]? = some n) (nonzero : n ≠ 0)
    (plain : n &&& INDIR_MASK = 0) (last : cp + 1 = msg.length) (room : dn.length < length) :
    expandLoop msg comp_dn length (fuel + 1) cp dn len checked =
      if length ≤ after dn.length n.toNat then .error .minus1 else .error .overread := by
  obtain ⟨front, sep, front_eq⟩ := separate_spec room
  have size : after dn.length n.toNat = front.length + n.toNat := by
    have both := joined_length dn (List.replicate n.toNat 0)
    rw [← front_eq, List.length_append, List.length_replicate] at both
    exact both.symm
  rw [size]
  by_cases full : length ≤ front.length + n.toNat
  · simp only [expandLoop, fetch_at is, if_neg nonzero, if_pos plain, sep, if_pos full,
      bind, Except.bind]
  · obtain ⟨k, succ⟩ : ∃ k, n.toNat = k + 1 :=
      Nat.exists_eq_succ_of_ne_zero fun zero => nonzero (BitVec.eq_of_toNat_eq zero)
    have first : label msg length n.toNat (cp + 1) front = .error .overread := by
      rw [succ]
      simp only [label, fetch_past last.ge, bind, Except.bind]
    simp only [expandLoop, fetch_at is, if_neg nonzero, if_pos plain, sep, if_neg full, first, bind,
      Except.bind]

theorem points_some {n : Byte} (points : n &&& INDIR_MASK = INDIR_MASK) :
    n ≠ 0 ∧ n &&& INDIR_MASK ≠ 0 := by
  have other : INDIR_MASK ≠ 0 := by decide
  constructor
  · rintro rfl
    exact other (points.symm.trans BitVec.zero_and)
  · exact fun zero => other (points.symm.trans zero)

theorem loop_pointer {n : Byte} (is : msg[cp]? = some n) (points : n &&& INDIR_MASK = INDIR_MASK)
    (low : msg[cp + 1]? = some c) :
    expandLoop msg comp_dn length (fuel + 1) cp dn len checked =
      if msg.length ≤ indirect n c then .error .minus1
      else if msg.length ≤ checked + 2 then .error .minus1
      else
        expandLoop msg comp_dn length fuel (indirect n c) dn (some (len.getD (cp + 2 - comp_dn)))
          (checked + 2) := by
  obtain ⟨nonzero, notPlain⟩ := points_some points
  simp only [expandLoop, fetch_at is, if_neg nonzero, if_neg notPlain, if_pos points, fetch_at low,
    bind, Except.bind]

theorem loop_other {n : Byte} (is : msg[cp]? = some n) (nonzero : n ≠ 0)
    (notPlain : n &&& INDIR_MASK ≠ 0) (other : n &&& INDIR_MASK ≠ INDIR_MASK) :
    expandLoop msg comp_dn length (fuel + 1) cp dn len checked = .error .minus1 := by
  simp only [expandLoop, fetch_at is, if_neg nonzero, if_neg notPlain, if_neg other,
    bind, Except.bind]

theorem loop_cut (cut : Cut msg length cp dn.length) (room : dn.length < length) :
    expandLoop msg comp_dn length (fuel + 1) cp dn len checked = .error .overread := by
  obtain ⟨last, n, is, points | ⟨nonzero, plain, fits⟩⟩ := cut
  · obtain ⟨nonzero, notPlain⟩ := points_some points
    simp only [expandLoop, fetch_at is, if_neg nonzero, if_neg notPlain, if_pos points,
      fetch_past last.ge, bind, Except.bind]
  · rw [loop_last is nonzero plain last room, if_neg (Nat.not_le_of_lt fits)]

/-- The loop that stands at a byte of the message, with room for the NUL, ends in good order where
no last byte is cut: each label takes bytes of the message or of the count, and each pointer two of
the count. -/
theorem loop_fine (uncut : ∀ cp used checked, Comes msg comp_dn length cp used checked →
    ¬ Cut msg length cp used)
    (came : Comes msg comp_dn length cp dn.length checked) (inside : cp < msg.length)
    (room : dn.length < length)
    (enough : (msg.length - checked) * (msg.length + 1) + (msg.length - cp) < fuel) :
    Fine length (expandLoop msg comp_dn length fuel cp dn len checked) := by
  induction fuel generalizing cp dn len checked with
  | zero => exact absurd enough (Nat.not_lt_zero _)
  | succ fuel ih =>
    obtain ⟨n, is⟩ : ∃ n, msg[cp]? = some n := ⟨_, List.getElem?_eq_getElem inside⟩
    by_cases zero : n = 0
    · rw [loop_end is zero room]
      refine ⟨?_, List.getLast?_concat⟩
      rw [List.length_append]
      exact room
    have notCut := uncut cp dn.length checked came
    by_cases plain : n &&& INDIR_MASK = 0
    · by_cases next : cp + 1 < msg.length
      · rcases loop_label _ _ _ is zero plain next room with ⟨ends, fits, run⟩ | ⟨-, run⟩
        · rw [run fuel]
          have further := Comes.label came is zero plain ends (joined_length dn _ ▸ fits)
          rw [← joined_length] at further
          refine ih further ends fits ?_
          have less : (msg.length - (checked + (n.toNat + 1))) * (msg.length + 1) ≤
              (msg.length - checked) * (msg.length + 1) := Nat.mul_le_mul_right _ (by lia)
          lia
        · rw [run fuel]
          exact rfl
      · have full : length ≤ after dn.length n.toNat := by
          by_contra fits
          exact notCut ⟨by lia, n, is, .inr ⟨zero, plain, by lia⟩⟩
        rw [loop_last is zero plain (by lia) room, if_pos full]
        exact rfl
    · by_cases points : n &&& INDIR_MASK = INDIR_MASK
      · by_cases next : cp + 1 < msg.length
        · obtain ⟨c, low⟩ : ∃ c, msg[cp + 1]? = some c := ⟨_, List.getElem?_eq_getElem next⟩
          rw [loop_pointer is points low]
          by_cases out : msg.length ≤ indirect n c
          · rw [if_pos out]
            exact rfl
          by_cases all : msg.length ≤ checked + 2
          · rw [if_neg out, if_pos all]
            exact rfl
          rw [if_neg out, if_neg all]
          have further :=
            Comes.pointer came is points low (Nat.lt_of_not_ge out) (Nat.lt_of_not_ge all)
          refine ih further (Nat.lt_of_not_ge out) room ?_
          obtain ⟨rest, left⟩ : ∃ rest, msg.length - checked = rest + 1 :=
            ⟨msg.length - checked - 1, by lia⟩
          have less : (msg.length - (checked + 2)) * (msg.length + 1) ≤ rest * (msg.length + 1) :=
            Nat.mul_le_mul_right _ (by lia)
          rw [left, Nat.succ_mul] at enough
          lia
        · exact absurd ⟨by lia, n, is, .inl points⟩ notCut
      · rw [loop_other is zero plain points]
        exact rfl

theorem comes_run (comp_inside : comp_dn < msg.length) (some_room : 1 ≤ length)
    (came : Comes msg comp_dn length cp used checked) :
    cp < msg.length ∧ used < length ∧ ∃ dn len k, dn.length = used ∧
      ∀ fuel, dnExpand msg comp_dn length (fuel + k) =
        expandLoop msg comp_dn length fuel cp dn len checked := by
  induction came with
  | start => exact ⟨comp_inside, some_room, [], none, 0, rfl, fun fuel => rfl⟩
  | @label cp used checked n came is nonzero plain inside room ih =>
    obtain ⟨_, fits, dn, len, k, size, run⟩ := ih
    rw [← size] at fits room ⊢
    rw [← joined_length] at room ⊢
    rcases loop_label comp_dn len checked is nonzero plain (by lia) fits with
      ⟨_, _, step⟩ | ⟨fails, _⟩
    · refine ⟨inside, room, _, len, k + 1, rfl, fun fuel => ?_⟩
      rw [← step fuel, ← run (fuel + 1), show fuel + 1 + k = fuel + (k + 1) by lia]
    · exact absurd ⟨inside, room⟩ fails
  | @pointer cp used checked n c came is points low inside fresh ih =>
    obtain ⟨_, fits, dn, len, k, size, run⟩ := ih
    refine ⟨inside, fits, dn, some (len.getD (cp + 2 - comp_dn)), k + 1, size, fun fuel => ?_⟩
    rw [show fuel + (k + 1) = fuel + 1 + k by lia, run (fuel + 1), loop_pointer is points low,
      if_neg (Nat.not_le_of_lt inside), if_neg (Nat.not_le_of_lt fresh)]

end Steps

/-- `dn_expand` is safe exactly where its way never comes to a last byte of the message that needs
another one. -/
theorem dnExpand_safe_iff (msg : List Byte) (comp_dn length : Nat) (inside : comp_dn < msg.length)
    (room : 1 ≤ length) :
    Safe msg comp_dn length ↔ ∀ cp used checked, Comes msg comp_dn length cp used checked →
      ¬ Cut msg length cp used := by
  constructor
  · rintro ⟨enough, fine⟩ cp used checked came cut
    obtain ⟨-, fits, dn, len, k, size, run⟩ := comes_run inside room came
    subst size
    have last := fine (enough + 1 + k) (by omega)
    rw [run, loop_cut cut fits] at last
    cases (last : Stop.overread = .minus1)
  · intro uncut
    refine ⟨(msg.length - 0) * (msg.length + 1) + (msg.length - comp_dn) + 1, fun fuel enough => ?_⟩
    exact loop_fine uncut .start inside room enough

/-- A name and a pointer to it. -/
theorem dnExpand_safe_iff_name : Safe [1, 97, 0, 0xc0, 0] 3 8 := by
  refine (dnExpand_safe_iff _ 3 8 (by decide) (by decide)).mpr fun cp used checked came => ?_
  have near : cp = 3 ∨ cp = 0 ∨ cp = 2 := by
    induction came with
    | start => exact .inl rfl
    | label _ is nonzero plain inside room ih =>
      rcases ih with rfl | rfl | rfl
      · cases is
        exact absurd plain (by decide)
      · cases is
        exact .inr (.inr rfl)
      · cases is
        exact absurd rfl nonzero
    | pointer _ is points low inside fresh ih =>
      rcases ih with rfl | rfl | rfl
      · cases is
        cases low
        exact .inr (.inl rfl)
      · cases is
        exact absurd points (by decide)
      · cases is
        exact absurd points (by decide)
  rintro ⟨last, -⟩
  rcases near with rfl | rfl | rfl <;> exact absurd last (by decide)

/-- A pointer that the end of the message cuts. -/
theorem dnExpand_cut : ¬ Safe [0xc0] 0 8 := by
  rintro ⟨enough, fine⟩
  have last := fine (enough + 1) (Nat.le_succ enough)
  rw [dnExpand, loop_cut ⟨rfl, _, rfl, .inl rfl⟩ (by decide)] at last
  cases (last : Stop.overread = .minus1)

end FreeBsd.Resolv
