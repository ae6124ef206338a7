import FreeBsd.Lib.Machine
import FreeBsd.Netinet.Tcp

/-! `tcp_dooptions` of `netinet/tcp_input.c`. The option mbuf is a memory from its first byte on, of
which `m_len` bytes are options; every access to it is recorded, and every call of `tcp_mss`. -/
namespace FreeBsd.Netinet.Tcp.Options

open FreeBsd.Lib

section Model

def TCPOPT_EOL : Byte := 0
def TCPOPT_NOP : Byte := 1
def TCPOPT_MAXSEG : Byte := 2

/-- The registers of the loop, the bytes that it has read and the values that `tcp_mss` has been
called with. -/
structure Walk where
  cp : Nat
  cnt : Int
  reads : List Nat
  offers : List (BitVec 16)
  deriving DecidableEq, Repr

def Walk.next (w : Walk) (optlen : Nat) :
    Walk := { w with cnt := w.cnt - optlen, cp := w.cp + optlen }

def ntohs (mem : Nat → Byte) (off : Nat) : BitVec 16 := mem off ++ mem (off + 1)

def dooptionsPass (mem : Nat → Byte) (syn : Bool) (w : Walk) : Outcome Walk Walk :=
  if w.cnt > 0 then
    let opt := mem w.cp
    let w := { w with reads := w.reads ++ [w.cp] }
    if opt = TCPOPT_EOL then .halt w
    else if opt = TCPOPT_NOP then .next (w.next 1)
    else
      let optlen := (mem (w.cp + 1)).toNat
      let w := { w with reads := w.reads ++ [w.cp + 1] }
      if optlen = 0 then .halt w
      else if opt = TCPOPT_MAXSEG ∧ optlen = 4 ∧ syn then
        .next ({ w with reads := w.reads ++ [w.cp + 2, w.cp + 3],
                        offers := w.offers ++ [ntohs mem (w.cp + 2)] }.next optlen)
      else .next (w.next optlen)
  else .halt w

/-- `tcp_dooptions(tp, om, ti)` with `om->m_len` and whether `ti_flags` has `TH_SYN`; each pass goes
on by a byte at least. -/
def tcpDooptions (mem : Nat → Byte) (syn : Bool) (len : Nat) : Option Walk :=
  run (dooptionsPass mem syn) (len + 1) ⟨0, len, [], []⟩

end Model

section Area

variable (mem : Nat → Byte) (syn : Bool) (len : Nat)

def following (p : Nat) : Option Nat :=
  if mem p = TCPOPT_EOL then none
  else if mem p = TCPOPT_NOP then some (p + 1)
  else if (mem (p + 1)).toNat = 0 then none
  else some (p + (mem (p + 1)).toNat)

def optionsFrom : Nat → Nat → List Nat
  | 0, _ => []
  | fuel + 1, p => if p < len then p :: ((following mem p).map (optionsFrom fuel)).getD [] else []

def options : List Nat := optionsFrom mem len (len + 1) 0

def IsMss (p : Nat) : Prop := mem p = TCPOPT_MAXSEG ∧ (mem (p + 1)).toNat = 4

instance (p : Nat) : Decidable (IsMss mem p) := inferInstanceAs (Decidable (_ ∧ _))

def mssOptions : List (BitVec 16) :=
  ((options mem len).filter fun p => IsMss mem p ∧ p + 4 ≤ len ∧ syn).map fun p => ntohs mem (p + 2)

/-- What is read of the option at `p` lies in the area. -/
def Whole (p : Nat) : Prop :=
  mem p = TCPOPT_EOL ∨ mem p = TCPOPT_NOP ∨ (p + 2 ≤ len ∧ (IsMss mem p → syn → p + 4 ≤ len))

instance (p : Nat) : Decidable (Whole mem syn len p) :=
  inferInstanceAs (Decidable (_ ∨ _ ∨ (_ ∧ (_ → _))))

def readsAt (p : Nat) : List Nat :=
  if mem p = TCPOPT_EOL ∨ mem p = TCPOPT_NOP then [p]
  else if IsMss mem p ∧ syn then [p, p + 1, p + 2, p + 3] else [p, p + 1]

end Area

section Loop

variable {mem : Nat → Byte} {syn : Bool} {len p : Nat} {reads : List Nat}
    {offers : List (BitVec 16)}

/-- A pass reads what is to be read of one option, and goes on to the next. -/
theorem dooptionsPass_eq (inside : p < len) :
    dooptionsPass mem syn ⟨p, (len : Int) - p, reads, offers⟩ =
      match following mem p with
      | none => .halt ⟨p, (len : Int) - p, reads ++ readsAt mem syn p, offers⟩
      | some q => .next ⟨q, (len : Int) - q, reads ++ readsAt mem syn p,
          offers ++ if IsMss mem p ∧ syn then [ntohs mem (p + 2)] else []⟩ := by
  have more : (len : Int) - p > 0 := by omega
  have left (n : Nat) : (len : Int) - p - n = len - (p + n : Nat) := by omega
  unfold dooptionsPass following
  rw [if_pos more]
  dsimp only [Walk.next]
  by_cases eol : mem p = TCPOPT_EOL
  · rw [if_pos eol, if_pos eol, readsAt, if_pos (.inl eol)]
  rw [if_neg eol, if_neg eol]
  by_cases nop : mem p = TCPOPT_NOP
  · have other : ¬ (IsMss mem p ∧ syn) := fun mss => absurd (nop.symm.trans mss.1.1) (by decide)
    rw [if_pos nop, if_pos nop, readsAt, if_pos (.inr nop), if_neg other, left, List.append_nil]
  have long : ¬ (mem p = TCPOPT_EOL ∨ mem p = TCPOPT_NOP) := not_or.mpr ⟨eol, nop⟩
  rw [if_neg nop, if_neg nop, readsAt, if_neg long]
  by_cases stuck : (mem (p + 1)).toNat = 0
  · have other : ¬ (IsMss mem p ∧ syn) := fun mss => absurd (stuck.symm.trans mss.1.2) (by decide)
    rw [if_pos stuck, if_pos stuck, if_neg other, List.append_assoc]
    rfl
  rw [if_neg stuck, if_neg stuck]
  by_cases mss : IsMss mem p ∧ syn
  · rw [if_pos ⟨mss.1.1, mss.1.2, mss.2⟩, if_pos mss, if_pos mss, left, List.append_assoc,
      List.append_assoc]
    rfl
  · have other : ¬ (mem p = TCPOPT_MAXSEG ∧ (mem (p + 1)).toNat = 4 ∧ syn) :=
      fun h => mss ⟨⟨h.1, h.2.1⟩, h.2.2⟩
    rw [if_neg other, if_neg mss, if_neg mss, left, List.append_nil, List.append_assoc]
    rfl

theorem following_gt {q : Nat} (next : following mem p = some q) : p < q := by
  unfold following at next
  split at next
  · cases next
  · split at next
    · cases next
      exact Nat.lt_succ_self p
    · split at next
      · cases next
      · cases next
        omega

theorem run_options {fuel : Nat} (enough : len < p + fuel) (begun : 0 < fuel) :
    ∃ w, run (dooptionsPass mem syn) fuel ⟨p, (len : Int) - p, reads, offers⟩ = some w ∧
      w.reads = reads ++ (optionsFrom mem len fuel p).flatMap (readsAt mem syn) ∧
      w.offers = offers ++ ((optionsFrom mem len fuel p).filter fun p => IsMss mem p ∧ syn).map
        fun p => ntohs mem (p + 2) := by
  induction fuel generalizing p reads offers with
  | zero => cases begun
  | succ fuel ih =>
    rw [run, optionsFrom]
    by_cases inside : p < len
    · rw [dooptionsPass_eq inside, if_pos inside, List.flatMap_cons, ← List.append_assoc]
      cases next : following mem p with
      | none =>
        refine ⟨_, rfl, (List.append_nil _).symm, ?_⟩
        have other : ¬ (IsMss mem p ∧ syn) := by
          rintro ⟨⟨kind, length⟩, -⟩
          simp [following, kind, length, TCPOPT_MAXSEG, TCPOPT_EOL, TCPOPT_NOP] at next
        simp [other]
      | some q =>
        have later := following_gt next
        obtain ⟨w, result, read, offered⟩ := @ih q (reads ++ readsAt mem syn p)
          (offers ++ if IsMss mem p ∧ syn then [ntohs mem (p + 2)] else []) (by lia) (by lia)
        refine ⟨w, result, read, offered.trans ?_⟩
        rw [List.append_assoc]
        congr 1
        by_cases mss : IsMss mem p ∧ syn
        · simp [mss]
        · simp [mss]
    · have past : ¬ (len : Int) - p > 0 := by lia
      rw [if_neg inside]
      exact ⟨⟨p, (len : Int) - p, reads,
        offers⟩, by rw [dooptionsPass,
        if_neg past], (List.append_nil _).symm, (List.append_nil _).symm⟩

theorem optionsFrom_lt {fuel : Nat} {q : Nat} (member : q ∈ optionsFrom mem len fuel p) :
    q < len := by
  induction fuel generalizing p with
  | zero => cases member
  | succ fuel ih =>
    rw [optionsFrom] at member
    split at member
    · rename_i inside
      cases next : following mem p with
      | none =>
        rw [next] at member
        obtain rfl : q = p := List.mem_singleton.mp member
        exact inside
      | some r =>
        rw [next] at member
        rcases List.mem_cons.mp member with rfl | later
        · exact inside
        · exact ih later
    · cases member

theorem readsAt_within (inside : p < len) : (∀ q ∈ readsAt mem syn p, q < len) ↔
    Whole mem syn len p := by
  unfold readsAt Whole
  by_cases eol : mem p = TCPOPT_EOL
  · simp [eol, inside]
  by_cases nop : mem p = TCPOPT_NOP
  · simp [nop, inside]
  by_cases mss : IsMss mem p ∧ syn
  · simp only [eol, nop, mss, or_self, if_false, and_self, if_true, List.mem_cons, List.not_mem_nil,
      or_false, false_or, forall_eq_or_imp, forall_eq, forall_const]
    lia
  · have plain : IsMss mem p → syn = true → p + 4 ≤ len := fun h h' => absurd ⟨h, h'⟩ mss
    simp only [eol, nop, mss, or_self, if_false, List.mem_cons, List.not_mem_nil, or_false,
      false_or, forall_eq_or_imp, forall_eq]
    constructor
    · exact fun both => ⟨both.2, plain⟩
    · exact fun both => ⟨inside, both.1⟩

/-- `tcp_dooptions` terminates, and it reads nothing outside the options and offers just the MSS
options in them, if and only if what is read of each option lies among them. -/
theorem tcp_dooptions_within_iff (mem : Nat → Byte) (syn : Bool) (len : Nat) :
    (∃ w, tcpDooptions mem syn len = some w ∧ (∀ p ∈ w.reads, p < len) ∧
      w.offers = mssOptions mem syn len) ↔
      ∀ p ∈ options mem len, Whole mem syn len p := by
  obtain ⟨w, result, read, offered⟩ :=
    @run_options mem syn len 0 [] [] (len + 1) (by omega) (Nat.succ_pos _)
  have start : tcpDooptions mem syn len = some w := result
  constructor
  · rintro ⟨v, same, within, -⟩ p member
    obtain rfl : w = v := Option.some.inj (start.symm.trans same)
    refine (readsAt_within (optionsFrom_lt member)).mp fun q here => within q ?_
    rw [read]
    exact List.mem_flatMap.mpr ⟨p, member, here⟩
  · intro whole
    refine ⟨w, start, fun q member => ?_, ?_⟩
    · rw [read] at member
      obtain ⟨p, option, here⟩ := List.mem_flatMap.mp member
      exact (readsAt_within (optionsFrom_lt option)).mpr (whole p option) q here
    · rw [offered, List.nil_append]
      refine congrArg (List.map _) (List.filter_congr fun p option =>
        decide_eq_decide.mpr ⟨fun mss => ?_, fun mss => ⟨mss.1, mss.2.2⟩⟩)
      rcases whole p option with eol | nop | ⟨-, fits⟩
      · exact absurd (eol.symm.trans mss.1.1) (by decide)
      · exact absurd (nop.symm.trans mss.1.1) (by decide)
      · exact ⟨mss.1, fits mss.1 mss.2, mss.2⟩

/-- Two bytes of an MSS option at the end of the options of a SYN: its value is read behind them. -/
theorem tcp_dooptions_short_mss : ¬ ∀ (mem : Nat → Byte) (syn : Bool) (len : Nat), 1 ≤ len →
    len ≤ 40 →
    ∃ w, tcpDooptions mem syn len = some w ∧ (∀ p ∈ w.reads, p < len) ∧
      w.offers = mssOptions mem syn len := by
  intro all
  obtain ⟨w, result, within, -⟩ := all (fun p => if p = 2 then 2 else if p = 3 then 4 else 1) true 4
    (by decide) (by decide)
  have behind : 4 ∈ w.reads := by
    obtain rfl := Option.some.inj result
    decide
  exact absurd (within 4 behind) (by decide)

end Loop

end FreeBsd.Netinet.Tcp.Options
