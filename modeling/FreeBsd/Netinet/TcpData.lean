import FreeBsd.Netinet.TcpMoves

/-! The data of the segments that a call of `tcp_output` sends, and where it stands in the send
buffer. -/
namespace FreeBsd.Netinet.Tcp

open FreeBsd.Lib

section Segments

/-- What `m_copydata` or `m_copy` puts after the header. -/
def Plan.copy (env : Env) (a : Attempt) (p : Plan) : List Byte :=
  (p.tp.soSnd.drop p.off.toNat).take (copied env.maxLinkhdr a.copy p.len (p.options env.route).2)

/-- A segment with its data, and the connection it was made for at `again`. -/
structure Sent where
  start : Tcb
  attempt : Attempt
  out : Out
  data : List Byte

def segments (env : Env) : Nat → Nat → Bool → Tcb → List Sent
  | 0, _, _, _ => []
  | fuel + 1, k, idle, tp =>
    match pass env k idle tp with
    | .error _ => []
    | .ok r =>
      (r.out.toList.map fun out => ⟨tp, env.attempt k, out,
        (plan env.mbroom tp).copy env (env.attempt k)⟩) ++
        if r.again then segments env fuel (k + 1) idle r.tp else []

def tcpSegments (env : Env) (fuel : Nat) (tp : Tcb) : List Sent :=
  segments env fuel 0 (tp.sndMax = tp.sndUna) (restart tp)

theorem segments_passes {env : Env} {fuel k : Nat} {idle : Bool} {tp tp' : Tcb} {outs : List Out}
    (done : passes env fuel k idle tp = .ok (tp', outs)) :
      (segments env fuel k idle tp).map Sent.out = outs := by
  induction fuel generalizing k tp outs with
  | zero => cases done
  | succ fuel ih =>
    unfold passes at done
    unfold segments
    cases result : pass env k idle tp with
    | error e =>
      rw [result] at done
      cases done
    | ok r =>
      rw [result] at done
      dsimp only at done ⊢
      have here : (r.out.toList.map (Sent.out ∘ fun out =>
          ⟨tp, env.attempt k, out, (plan env.mbroom tp).copy env (env.attempt k)⟩)) =
            r.out.toList := List.map_id _
      rw [List.map_append, List.map_map, here]
      by_cases again : r.again = true
      · rw [if_pos again] at done ⊢
        cases rest : passes env fuel (k + 1) idle r.tp with
        | error e =>
          rw [rest] at done
          cases done
        | ok result =>
          rw [rest] at done
          cases done
          rw [ih rest]
      · rw [if_neg again] at done ⊢
        cases done
        exact List.append_nil _

theorem tcpSegments_output {env : Env} {fuel : Nat} {tp tp' : Tcb} {outs : List Out}
    (done : tcpOutput env fuel tp = .ok (tp', outs)) : (tcpSegments env fuel tp).map Sent.out =
      outs :=
  segments_passes done

end Segments

section Consistency

variable {env : Env} {tp : Tcb} {a : Attempt} {s : Sent}

def reach (tp : Tcb) : Nat := max (min tp.sndWnd tp.sndCwnd) 1

/-- A segment has the bytes of the send buffer that its number stands for, and a FIN only at their
end. -/
structure Consistent (tp : Tcb) (out : Out) (data : List Byte) : Prop where
  full : data.length = out.len
  bytes : data = (tp.soSnd.drop (out.seq - tp.sndUna).toNat).take out.len
  short : out.len ≤ tp.maxseg
  within : out.len ≠ 0 → (out.seq - tp.sndUna).toNat + out.len ≤ min tp.soSnd.length (reach tp)
  fin : out.flags.fin = true →
    out.seq + BitVec.ofNat 32 out.len = tp.sndUna + BitVec.ofNat 32 tp.soSnd.length

/-- `snd_una <= snd_nxt <= snd_max`, the SYN has been acknowledged, and the buffer is no longer than
half the sequence numbers. -/
structure Settled (tp : Tcb) : Prop where
  nxt : SEQ_GEQ tp.sndNxt tp.sndUna
  max : SEQ_GEQ tp.sndMax tp.sndNxt
  syn : (tcpOutflags tp.state).syn = false
  fits : tp.soSnd.length < 2 ^ 31

def Tcb.off (tp : Tcb) : Nat := (tp.sndNxt - tp.sndUna).toInt.toNat

def Tcb.refins (tp : Tcb) : Prop := tp.sentfin = true ∧ tp.sndNxt = tp.sndMax

instance (tp : Tcb) : Decidable tp.refins := inferInstanceAs (Decidable (_ ∧ _))

/-- Where the state asks for a FIN: one that goes with the last data is new, and `m_copy` copies
this; and one that goes without has its own number, or the next. -/
def Fits (env : Env) (a : Attempt) (tp : Tcb) : Prop :=
  (tcpOutflags tp.state).fin = true →
    (tp.off < tp.soSnd.length → tp.soSnd.length ≤ (sendWindow tp).2 →
      tp.soSnd.length - tp.off ≤ tp.maxseg →
      ¬ tp.refins ∧ (tp.soSnd.length - tp.off + 40 + env.maxLinkhdr ≤ 100 ∨ a.copy = true)) ∧
    (tp.soSnd.length ≤ tp.off → (sendWindow tp).2 ≠ 0 ∨ tp.off = 0 →
      tp.off = tp.soSnd.length + if tp.refins then 1 else 0)

theorem Settled.off (settled : Settled tp) : (tp.sndNxt - tp.sndUna).toInt = tp.off ∧
    tp.off < 2 ^ 31 := by
  have order := settled.nxt
  have high := @BitVec.toInt_lt 32 (tp.sndNxt - tp.sndUna)
  unfold Tcb.off
  lia

theorem Settled.nxt_eq (settled : Settled tp) : tp.sndNxt = tp.sndUna + BitVec.ofNat 32 tp.off := by
  have difference : BitVec.ofInt 32 (tp.sndNxt - tp.sndUna).toInt = tp.sndNxt - tp.sndUna :=
    BitVec.ofInt_toInt
  rw [settled.off.1, BitVec.ofInt_natCast] at difference
  rw [difference]
  exact (add_sub_cancel _ _).symm

def Tcb.shuts (tp : Tcb) : Prop := 0 < tp.off ∧ (sendWindow tp).2 = 0

instance (tp : Tcb) : Decidable tp.shuts := inferInstanceAs (Decidable (_ ∧ _))

/-- Where `snd_nxt` is after the window has been looked at. -/
def Tcb.place (tp : Tcb) : Nat := if tp.shuts then 0 else tp.off

def Tcb.due (tp : Tcb) : Nat := min (min tp.soSnd.length (sendWindow tp).2 - tp.off) tp.maxseg

theorem sendWindow_numbers (tp : Tcb) : (sendWindow tp).1.sndMax = tp.sndMax ∧
    (sendWindow tp).1.state = tp.state ∧
    (sendWindow tp).1.maxseg = tp.maxseg ∧ (sendWindow tp).1.sentfin = tp.sentfin := by
  simp only [sendWindow]
  split
  · split
    · exact ⟨rfl, rfl, rfl, rfl⟩
    · exact ⟨rfl, rfl, rfl, rfl⟩
  · exact ⟨rfl, rfl, rfl, rfl⟩

theorem sendWindow_reach (tp : Tcb) : (sendWindow tp).2 ≤ reach tp := by
  unfold reach
  simp only [sendWindow]
  split
  · split
    · exact Nat.le_max_right _ _
    · exact Nat.le_max_left _ _
  · exact Nat.le_max_left _ _

theorem shrink_frame (len : Int) (win : Nat) (tp : Tcb) : (shrink len win tp).sndUna = tp.sndUna ∧
    (shrink len win tp).soSnd = tp.soSnd ∧ (shrink len win tp).sndMax = tp.sndMax ∧
      (shrink len win tp).state = tp.state ∧
    (shrink len win tp).maxseg = tp.maxseg ∧ (shrink len win tp).sentfin = tp.sentfin := by
  unfold shrink
  split
  · exact ⟨rfl, rfl, rfl, rfl, rfl, rfl⟩
  · exact ⟨rfl, rfl, rfl, rfl, rfl, rfl⟩

theorem plan_spec (settled : Settled tp) (mbroom : Int) : (plan mbroom tp).tp.sndUna = tp.sndUna ∧
    (plan mbroom tp).tp.soSnd = tp.soSnd ∧ (plan mbroom tp).tp.sndMax = tp.sndMax ∧
      (plan mbroom tp).tp.state = tp.state ∧
    (plan mbroom tp).tp.maxseg = tp.maxseg ∧ (plan mbroom tp).tp.sentfin = tp.sentfin ∧
    (plan mbroom tp).off = tp.off ∧ (plan mbroom tp).len = tp.due ∧
    (plan mbroom tp).tp.sndNxt = tp.sndUna + BitVec.ofNat 32 tp.place := by
  obtain ⟨off, -⟩ := settled.off
  obtain ⟨nxt, una, snd⟩ := sendWindow_fst tp
  obtain ⟨max, state, maxseg, sentfin⟩ := sendWindow_numbers tp
  simp only [plan]
  obtain ⟨una', snd', max', state', maxseg', sentfin'⟩ := shrink_frame
    ((min (sendWindow tp).1.soSnd.length (sendWindow tp).2 : Nat) - (tp.sndNxt - tp.sndUna).toInt)
      (sendWindow tp).2
    (sendWindow tp).1
  refine ⟨una'.trans una, snd'.trans snd, max'.trans max, state'.trans state, maxseg'.trans maxseg,
    sentfin'.trans sentfin, off, ?_, ?_⟩
  · rw [maxseg', maxseg, snd, off]
    unfold Tcb.due
    lia
  · rw [off, snd]
    unfold shrink Tcb.place
    by_cases shut : tp.shuts
    · have shut' := shut
      unfold Tcb.shuts at shut'
      rw [if_pos (by lia), if_pos shut]
      simpa using una
    · have shut' := shut
      unfold Tcb.shuts at shut'
      rw [if_neg (by lia), if_neg shut, nxt]
      exact settled.nxt_eq

theorem place_near (settled : Settled tp) : tp.place < 2 ^ 31 ∧ tp.place + tp.due < 2 ^ 31 := by
  have near := settled.off.2
  have fits := settled.fits
  unfold Tcb.place Tcb.due
  split
  · lia
  · lia

theorem ahead_una {x : Nat} (near : x < 2 ^ 31) :
    ahead tp.sndUna (tp.sndUna + BitVec.ofNat 32 x) = x := by
  have start := ahead_self tp.sndUna
  rw [ahead_add_ofNat (by lia) (by lia), start]
  exact Int.zero_add _

theorem plan_fin (settled : Settled tp) (mbroom : Int) : (plan mbroom tp).flags.fin = true ↔
    (tcpOutflags tp.state).fin = true ∧ tp.soSnd.length ≤ tp.place + tp.due := by
  obtain ⟨una, snd, -, state, -, -, -, len, nxt⟩ := plan_spec settled mbroom
  obtain ⟨-, near⟩ := place_near settled
  have fits := settled.fits
  have same : (plan mbroom tp).flags = sendFlags (plan mbroom tp).tp (plan mbroom tp).len := rfl
  rw [same, len]
  unfold sendFlags
  dsimp only
  rw [state, una, snd, nxt, Bool.and_eq_true_iff, decide_eq_true_iff, add_assoc, ← BitVec.ofNat_add]
  have left := @ahead_una tp (tp.place + tp.due) near
  have right := @ahead_una tp tp.soSnd.length fits
  have difference := @toInt_sub_of_ahead _ (tp.sndUna + BitVec.ofNat 32 (tp.place + tp.due))
    (tp.sndUna + BitVec.ofNat 32 tp.soSnd.length) tp.sndUna (by lia) (by lia)
  unfold SEQ_LT
  rw [difference, left, right]
  constructor
  · exact fun both => ⟨both.1, by lia⟩
  · exact fun both => ⟨both.1, by lia⟩

theorem place_max (settled : Settled tp) : tp.sndUna + BitVec.ofNat 32 tp.place = tp.sndMax ↔
    ¬ tp.shuts ∧ tp.sndNxt = tp.sndMax := by
  unfold Tcb.place
  split
  · rename_i shut
    constructor
    · intro same
      obtain ⟨off, near⟩ := settled.off
      have order := settled.max
      rw [← same, show tp.sndUna + BitVec.ofNat 32 0 = tp.sndUna from add_zero _] at order
      have start := ahead_self tp.sndUna
      have there : ahead tp.sndUna tp.sndNxt = tp.off := off
      have back := @toInt_sub_of_ahead _ tp.sndUna tp.sndNxt tp.sndUna (by lia) (by lia)
      have some := shut.1
      lia
    · exact fun both => absurd shut both.1
  · rename_i free
    rw [← settled.nxt_eq]
    exact ⟨fun same => ⟨free, same⟩, fun both => both.2⟩

def got (env : Env) (a : Attempt) (len : Nat) : Nat :=
  if len + 40 + env.maxLinkhdr ≤ 100 ∨ a.copy = true then len else 0

structure Emits (env : Env) (tp : Tcb) (s : Sent) : Prop where
  start : s.start = tp
  len : s.out.len = got env s.attempt tp.due
  data : s.data = (tp.soSnd.drop tp.off).take (got env s.attempt tp.due)
  fin : s.out.flags.fin = true ↔ (tcpOutflags tp.state).fin = true ∧
    tp.soSnd.length ≤ tp.place + tp.due
  seq : ahead tp.sndUna s.out.seq = tp.place -
    if s.out.flags.fin = true ∧ ¬ tp.shuts ∧ tp.refins then 1 else 0

theorem options_none (settled : Settled tp) (mbroom : Int) (route : Option Route) :
    (plan mbroom tp).options route = ((plan mbroom tp).tp, none) := by
  have syn : (plan mbroom tp).flags.syn = false := by
    obtain ⟨-, -, -, state, -⟩ := plan_spec settled mbroom
    change (tcpOutflags (plan mbroom tp).tp.state).syn = false
    rw [state]
    exact settled.syn
  unfold Plan.options
  rw [if_neg]
  rintro ⟨wrong, -⟩
  rw [syn] at wrong
  cases wrong

theorem refin_seq (settled : Settled tp) (mbroom : Int) (flags : Flags) :
    ahead tp.sndUna (refin flags (plan mbroom tp).tp).sndNxt =
      tp.place - if flags.fin = true ∧ ¬ tp.shuts ∧ tp.refins then 1 else 0 := by
  obtain ⟨una, snd, max, state, maxseg, sentfin, off, len, nxt⟩ := plan_spec settled mbroom
  obtain ⟨near, -⟩ := place_near settled
  have place := @ahead_una tp tp.place near
  have same : (flags.fin = true ∧ (plan mbroom tp).tp.sentfin = true ∧
      (plan mbroom tp).tp.sndNxt = (plan mbroom tp).tp.sndMax) ↔
      (flags.fin = true ∧ ¬ tp.shuts ∧ tp.refins) := by
    rw [sentfin, nxt, max, place_max settled]
    unfold Tcb.refins
    tauto
  unfold refin
  by_cases again : flags.fin = true ∧ ¬ tp.shuts ∧ tp.refins
  · rw [if_pos (same.mpr again), if_pos again]
    dsimp only
    rw [nxt]
    have back : (tp.sndUna + BitVec.ofNat 32 tp.place - 1 : Seq) =
        tp.sndUna + BitVec.ofNat 32 tp.place + BitVec.ofInt 32 (-1) := by
      rw [sub_eq_add_neg]
      rfl
    rw [back, ahead_add (by lia) (by lia), place]
    rfl
  · rw [if_neg fun wrong => again (same.mp wrong), if_neg again, nxt, place]
    lia

theorem pass_sends {k : Nat} {idle : Bool} {r : Pass} {out : Out} (settled : Settled tp)
    (done : pass env k idle tp = .ok r) (sent : r.out = some out) :
    Emits env tp ⟨tp, env.attempt k, out, (plan env.mbroom tp).copy env (env.attempt k)⟩ := by
  have options := options_none settled env.mbroom env.route
  obtain ⟨una, snd, max, state, maxseg, sentfin, off, len, nxt⟩ := plan_spec settled env.mbroom
  have fin := plan_fin settled env.mbroom
  unfold pass at done
  dsimp only at done
  split at done
  · unfold transmit at done
    rw [options] at done
    dsimp only at done
    split at done
    · cases done
      cases sent
    split at done
    · cases done
    split at done
    · cases done
    obtain rfl := Except.ok.inj done
    rw [emit, (sent_eq _ _ _ _ _).2] at sent
    obtain rfl := Option.some.inj sent
    refine ⟨rfl, ?_, ?_, fin, refin_seq settled env.mbroom _⟩
    · change copied _ _ (plan env.mbroom tp).len none = _
      rw [len]
      rfl
    · change (plan env.mbroom tp).copy env (env.attempt k) = _
      unfold Plan.copy
      rw [options, snd, off, len]
      rfl
  · split at done
    · obtain rfl := Except.ok.inj done
      cases sent
    · cases done

theorem got_or (env : Env) (a : Attempt) (len : Nat) : got env a len = len ∨ got env a len = 0 :=
  ite_eq_or_eq _ _ _

theorem Emits.consistent_iff (emits : Emits env tp s) (settled : Settled tp) :
    Consistent tp s.out s.data ↔
    (s.out.flags.fin = true → ahead tp.sndUna s.out.seq + s.out.len = tp.soSnd.length) := by
  obtain ⟨near, near'⟩ := place_near settled
  have fits := settled.fits
  have seq := emits.seq
  have len := emits.len
  have short : s.out.len ≤ tp.due := by
    rcases got_or env s.attempt tp.due with same | none <;> lia
  have low : -1 ≤ ahead tp.sndUna s.out.seq ∧ ahead tp.sndUna s.out.seq ≤ tp.place := by
    rw [seq]
    split <;> lia
  have finish : ahead tp.sndUna (s.out.seq + BitVec.ofNat 32 s.out.len) =
      ahead tp.sndUna s.out.seq + s.out.len :=
    ahead_add_ofNat (by lia) (by lia)
  have ends := @ahead_una tp tp.soSnd.length fits
  constructor
  · intro consistent fin
    rw [← finish, consistent.fin fin, ends]
  · intro last
    have due : tp.due ≤ tp.maxseg ∧ tp.due ≤ min tp.soSnd.length (sendWindow tp).2 - tp.off :=
      ⟨Nat.min_le_right _ _, Nat.min_le_left _ _⟩
    -- a segment with data starts where it was planned to, since a FIN that went again would be one
    -- too early
    have starts : s.out.len ≠ 0 → ahead tp.sndUna s.out.seq = tp.off := by
      intro some
      have unshut : ¬ tp.shuts := by
        intro shut
        have closed := shut.2
        lia
      have place : tp.place = tp.off := if_neg unshut
      rw [seq, place]
      split
      · rename_i again
        have last := last again.1
        rw [seq, if_pos again, place] at last
        lia
      · exact Int.sub_zero _
    have number : s.out.len ≠ 0 → (s.out.seq - tp.sndUna).toNat = tp.off := by
      intro some
      have start := starts some
      unfold ahead at start
      have signed := BitVec.toInt_eq_toNat_cond (s.out.seq - tp.sndUna)
      have small := (s.out.seq - tp.sndUna).isLt
      split at signed <;> lia
    constructor
    · rw [emits.data, ← len, List.length_take, List.length_drop]
      lia
    · rw [emits.data, ← len]
      by_cases some : s.out.len = 0
      · rw [some, List.take_zero, List.take_zero]
      · rw [number some]
    · lia
    · intro some
      have window := sendWindow_reach tp
      rw [number some]
      lia
    · intro fin
      exact eq_of_ahead (finish.trans ((last fin).trans ends.symm))

theorem Emits.seq_of_fin (emits : Emits env tp s) (fin : s.out.flags.fin = true) :
    ahead tp.sndUna s.out.seq = tp.place - if ¬ tp.shuts ∧ tp.refins then 1 else 0 := by
  rw [emits.seq]
  simp only [fin, true_and]

theorem Emits.fits_iff (emits : Emits env tp s) :
    (s.out.flags.fin = true → ahead tp.sndUna s.out.seq + s.out.len = tp.soSnd.length) ↔
      Fits env s.attempt tp := by
  have len := emits.len
  have due : tp.due = min (min tp.soSnd.length (sendWindow tp).2 - tp.off) tp.maxseg := rfl
  constructor
  · intro last asked
    refine ⟨fun before covers short => ?_, fun past window => ?_⟩
    · have unshut : ¬ tp.shuts := fun shut => by
        have closed := shut.2
        lia
      have place : tp.place = tp.off := if_neg unshut
      have rest : tp.due = tp.soSnd.length - tp.off := by lia
      have fin : s.out.flags.fin = true := emits.fin.mpr ⟨asked, by lia⟩
      have last := last fin
      rw [emits.seq_of_fin fin, len, place, rest] at last
      have some := got_or env s.attempt (tp.soSnd.length - tp.off)
      by_cases again : tp.refins
      · rw [if_pos ⟨unshut, again⟩] at last
        lia
      · rw [if_neg fun wrong => again wrong.2] at last
        refine ⟨again, ?_⟩
        by_contra failed
        rw [got, if_neg failed] at last
        lia
    · have unshut : ¬ tp.shuts := fun shut => by
        have closed := shut.2
        have some := shut.1
        lia
      have place : tp.place = tp.off := if_neg unshut
      have none : tp.due = 0 := by lia
      have fin : s.out.flags.fin = true := emits.fin.mpr ⟨asked, by lia⟩
      have last := last fin
      have nothing : got env s.attempt 0 = 0 := ite_self 0
      rw [emits.seq_of_fin fin, len, place, none, nothing] at last
      by_cases again : tp.refins
      · rw [if_pos ⟨unshut, again⟩] at last
        rw [if_pos again]
        lia
      · rw [if_neg fun wrong => again wrong.2] at last
        rw [if_neg again]
        lia
  · intro fits fin
    obtain ⟨asked, ends⟩ := emits.fin.mp fin
    obtain ⟨new, old⟩ := fits asked
    have nothing : got env s.attempt 0 = 0 := ite_self 0
    rw [emits.seq_of_fin fin, len]
    by_cases shut : tp.shuts
    · have closed := shut.2
      have place : tp.place = 0 := if_pos shut
      have none : tp.due = 0 := by lia
      rw [if_neg fun wrong => wrong.1 shut, place, none, nothing]
      lia
    · have place : tp.place = tp.off := if_neg shut
      by_cases before : tp.off < tp.soSnd.length
      · have rest : tp.due = tp.soSnd.length - tp.off := by lia
        obtain ⟨first, copies⟩ := new before (by lia) (by lia)
        rw [if_neg fun wrong => first wrong.2, rest, got, if_pos copies, place]
        lia
      · have none : tp.due = 0 := by lia
        have exact := old (by lia) (by unfold Tcb.shuts at shut; lia)
        rw [none, nothing, place, exact]
        by_cases again : tp.refins
        · rw [if_pos again, if_pos ⟨shut, again⟩]
          lia
        · rw [if_neg again, if_neg fun wrong => again wrong.2]
          lia

end Consistency

section Passes

variable {env : Env} {tp : Tcb} {s : Sent} {flags : Flags} {len : Nat}

def Tcb.side (tp : Tcb) : Seq × List Byte × Nat × Nat × Nat × TcpState :=
  (tp.sndUna, tp.soSnd, tp.maxseg, tp.sndWnd, tp.sndCwnd, tp.state)

theorem sendWindow_side (tp : Tcb) : (sendWindow tp).1.side = tp.side := by
  simp only [sendWindow]
  split
  · split
    · rfl
    · rfl
  · rfl

theorem plan_side (mbroom : Int) (tp : Tcb) : (plan mbroom tp).tp.side = tp.side :=
  (apply_ite Tcb.side _ _ _).trans ((ite_self _).trans (sendWindow_side tp))

theorem pullUrgent_side (tp : Tcb) : (pullUrgent tp).side = tp.side :=
  (apply_ite Tcb.side _ _ _).trans (ite_self _)

theorem pullUrgent_numbers (tp : Tcb) : (pullUrgent tp).sndNxt = tp.sndNxt ∧
    (pullUrgent tp).sndMax = tp.sndMax := by
  unfold pullUrgent
  split
  · exact ⟨rfl, rfl⟩
  · exact ⟨rfl, rfl⟩

theorem setRexmt_side (tp : Tcb) : (setRexmt tp).side = tp.side ∧ (setRexmt tp).sndNxt = tp.sndNxt ∧
    (setRexmt tp).sndMax = tp.sndMax := by
  simp only [setRexmt]
  split
  · split
    · exact ⟨rfl, rfl, rfl⟩
    · exact ⟨rfl, rfl, rfl⟩
  · exact ⟨rfl, rfl, rfl⟩

theorem raiseMax_side (startseq : Seq) (tp : Tcb) : (raiseMax startseq tp).side = tp.side ∧
    (raiseMax startseq tp).sndNxt = tp.sndNxt ∧
    (raiseMax startseq tp).sndMax =
      if SEQ_GT tp.sndNxt tp.sndMax then tp.sndNxt else tp.sndMax := by
  simp only [raiseMax]
  split
  · split
    · exact ⟨rfl, rfl, rfl⟩
    · exact ⟨rfl, rfl, rfl⟩
  · exact ⟨rfl, rfl, rfl⟩

theorem greater_geq {n m x : Seq} (max : SEQ_GEQ m n) (next : SEQ_GEQ x n) :
    SEQ_GEQ (if SEQ_GT x m then x else m) x ∧ SEQ_GEQ (if SEQ_GT x m then x else m) n := by
  split
  · refine ⟨?_, next⟩
    change (x - x).toInt ≥ 0
    rw [sub_self]
    exact Int.le_refl _
  · rename_i less
    refine ⟨?_, max⟩
    have high := @BitVec.toInt_lt 32 (m - n)
    have high' := @BitVec.toInt_lt 32 (x - n)
    have left : ahead n m = (m - n).toInt := rfl
    have right : ahead n x = (x - n).toInt := rfl
    have forth := @toInt_sub_of_ahead _ m x n (by lia) (by lia)
    have back := @toInt_sub_of_ahead _ x m n (by lia) (by lia)
    lia

/-- A segment without SYN and FIN takes as many numbers as it has bytes, or none. -/
theorem advance_order (none : flags.syn = false ∧ flags.fin = false)
    (max : SEQ_GEQ tp.sndMax tp.sndNxt)
    (next : SEQ_GEQ (tp.sndNxt + BitVec.ofNat 32 len) tp.sndNxt) :
    (advance tp len flags).side = tp.side ∧
    ((advance tp len flags).sndNxt = tp.sndNxt ∨
      (advance tp len flags).sndNxt = tp.sndNxt + BitVec.ofNat 32 len) ∧
    SEQ_GEQ (advance tp len flags).sndMax (advance tp len flags).sndNxt := by
  have taken :
    takeNumbers tp len flags = { tp with sndNxt := tp.sndNxt + BitVec.ofNat 32 len } := by
    rw [takeNumbers, none.1, none.2]
    rfl
  have order := greater_geq max next
  unfold advance
  split
  · rw [taken]
    obtain ⟨side, nxt, max⟩ :=
      setRexmt_side (raiseMax tp.sndNxt { tp with sndNxt := tp.sndNxt + BitVec.ofNat 32 len })
    obtain ⟨side', nxt', max'⟩ :=
      raiseMax_side tp.sndNxt { tp with sndNxt := tp.sndNxt + BitVec.ofNat 32 len }
    refine ⟨side.trans side', .inr (nxt.trans nxt'), ?_⟩
    rw [max, max', nxt, nxt']
    exact order.1
  · refine ⟨?_, .inl ?_, ?_⟩
    · split
      · rfl
      · rfl
    · split
      · rfl
      · rfl
    · have second := order.2
      split
      · rename_i new
        rw [if_pos new] at second
        exact second
      · exact max

theorem plan_more (settled : Settled tp) (mbroom : Int) (more : (plan mbroom tp).sendalot = true) :
    ¬ tp.shuts ∧ tp.off + tp.due < tp.soSnd.length := by
  obtain ⟨off, -⟩ := settled.off
  have long := of_decide_eq_true more
  obtain ⟨-, -, snd⟩ := sendWindow_fst tp
  obtain ⟨-, -, maxseg, -⟩ := sendWindow_numbers tp
  obtain ⟨-, -, -, -, maxseg', -⟩ := shrink_frame
    ((min (sendWindow tp).1.soSnd.length (sendWindow tp).2 : Nat) - (tp.sndNxt - tp.sndUna).toInt)
      (sendWindow tp).2
    (sendWindow tp).1
  rw [maxseg', maxseg, snd, off] at long
  have due : tp.due = min (min tp.soSnd.length (sendWindow tp).2 - tp.off) tp.maxseg := rfl
  refine ⟨fun shut => ?_, by lia⟩
  have closed := shut.2
  lia

theorem sent_side {error : Option Errno} {sendalot : Bool} {win : Int} {out : Out} {tp : Tcb}
    (again : (sent error sendalot win out tp).again = true) :
      (sent error sendalot win out tp).tp.side = tp.side ∧
      (sent error sendalot win out tp).tp.sndNxt = tp.sndNxt ∧
        (sent error sendalot win out tp).tp.sndMax = tp.sndMax := by
  unfold sent at *
  cases error with
  | none =>
    dsimp only
    split
    · exact ⟨rfl, rfl, rfl⟩
    · exact ⟨rfl, rfl, rfl⟩
  | some e =>
    cases e with
    | enobufs => cases again
    | ehostunreach | enetdown | other =>
      dsimp only at again
      split at again
      · cases again
      · cases again

theorem Settled.side {t : Tcb} (settled : Settled tp) (side : t.side = tp.side)
    (nxt : SEQ_GEQ t.sndNxt tp.sndUna) (max : SEQ_GEQ t.sndMax t.sndNxt) : Settled t := by
  simp only [Tcb.side, Prod.mk.injEq] at side
  obtain ⟨una, snd, -, -, -, state⟩ := side
  refine ⟨?_, max, ?_, ?_⟩
  · rw [una]
    exact nxt
  · rw [state]
    exact settled.syn
  · rw [snd]
    exact settled.fits

theorem emit_again {error : Option Errno} {p : Plan} {mss : Option Nat} (none : flags.fin = false)
    (syn : flags.syn = false) (max : SEQ_GEQ tp.sndMax tp.sndNxt)
    (next : SEQ_GEQ (tp.sndNxt + BitVec.ofNat 32 len) tp.sndNxt)
    (again : (emit error p len flags mss tp).again = true) :
    (emit error p len flags mss tp).tp.side = tp.side ∧
    ((emit error p len flags mss tp).tp.sndNxt = tp.sndNxt ∨
      (emit error p len flags mss tp).tp.sndNxt = tp.sndNxt + BitVec.ofNat 32 len) ∧
    SEQ_GEQ (emit error p len flags mss tp).tp.sndMax
      (emit error p len flags mss tp).tp.sndNxt := by
  have refined : refin flags tp = tp := if_neg fun wrong => by
    rw [none] at wrong
    cases wrong.1
  unfold emit at *
  dsimp only at *
  obtain ⟨side, nxt, max'⟩ := sent_side again
  rw [refined] at side nxt max' ⊢
  obtain ⟨nxt', max''⟩ := pullUrgent_numbers tp
  rw [← nxt', ← max''] at max
  rw [← nxt'] at next
  obtain ⟨side', taken, order⟩ := advance_order ⟨syn, none⟩ max next
  rw [nxt'] at taken
  rw [side, nxt, max']
  exact ⟨side'.trans (pullUrgent_side tp), taken, order⟩

theorem pass_again {k : Nat} {idle : Bool} {r : Pass} (settled : Settled tp)
    (done : pass env k idle tp = .ok r) (again : r.again = true) :
      Settled r.tp ∧ r.tp.side = tp.side := by
  have options := options_none settled env.mbroom env.route
  obtain ⟨una, snd, max, state, maxseg, sentfin, off, len, nxt⟩ := plan_spec settled env.mbroom
  have fin := plan_fin settled env.mbroom
  have more := plan_more settled env.mbroom
  have side := plan_side env.mbroom tp
  have syn : (plan env.mbroom tp).flags.syn = false := by
    change (tcpOutflags (plan env.mbroom tp).tp.state).syn = false
    rw [state]
    exact settled.syn
  obtain ⟨off', near⟩ := settled.off
  have fits := settled.fits
  unfold pass at done
  dsimp only at done
  split at done
  · unfold transmit at done
    rw [options] at done
    dsimp only at done
    split at done
    · cases done
      cases again
    split at done
    · cases done
    split at done
    · cases done
    obtain rfl := Except.ok.inj done
    obtain ⟨unshut, before⟩ := more (sent_again _ _ _ _ _ again)
    have place : tp.place = tp.off := if_neg unshut
    have nofin : (plan env.mbroom tp).flags.fin = false := Bool.eq_false_iff.mpr fun wrong => by
      have ends := (fin.mp wrong).2
      lia
    rw [place, ← settled.nxt_eq] at nxt
    have here : ahead tp.sndUna tp.sndNxt = tp.off := off'
    have further (l : Nat) (short : l ≤ tp.due) : ahead tp.sndUna (tp.sndNxt + BitVec.ofNat 32 l) =
        tp.off + l := by
      rw [ahead_add_ofNat (by lia) (by lia), here]
    have next (l : Nat) (short : l ≤ tp.due) :
      SEQ_GEQ (tp.sndNxt + BitVec.ofNat 32 l) tp.sndNxt := by
      have later := further l short
      have difference := @toInt_sub_of_ahead _ (tp.sndNxt + BitVec.ofNat 32 l) tp.sndNxt tp.sndUna
        (by lia) (by lia)
      lia
    have copies : copied env.maxLinkhdr (env.attempt k).copy (plan env.mbroom tp).len none ≤
        tp.due := by
      rcases copied_or env.maxLinkhdr (env.attempt k).copy (plan env.mbroom tp).len none with same |
        none <;> lia
    have order := settled.max
    rw [← max, ← nxt] at order
    have next' := next _ copies
    rw [← nxt] at next'
    obtain ⟨side', taken, order'⟩ := emit_again (by exact nofin) (by exact syn) order next' again
    have same := side'.trans side
    refine ⟨settled.side same ?_ order', same⟩
    rcases taken with still | moved
    · rw [still, nxt]
      exact settled.nxt
    · rw [moved, nxt]
      have later := further _ copies
      unfold ahead at later
      lia
  · split at done
    · obtain rfl := Except.ok.inj done
      cases again
    · cases done

/-- Each segment is one that a pass of the call sends, for the same buffer and windows. -/
theorem segments_emit {fuel k : Nat} {idle : Bool} (settled : Settled tp)
    (sent : s ∈ segments env fuel k idle tp) :
    Emits env s.start s ∧ Settled s.start ∧ s.start.side = tp.side := by
  induction fuel generalizing k tp with
  | zero => cases sent
  | succ fuel ih =>
    unfold segments at sent
    split at sent
    · cases sent
    rename_i r done
    rcases List.mem_append.mp sent with here | later
    · obtain ⟨out, emitted, rfl⟩ := List.mem_map.mp here
      exact ⟨pass_sends settled done (Option.mem_toList.mp emitted), settled, rfl⟩
    · split at later
      · rename_i again
        obtain ⟨settled', side⟩ := pass_again settled done again
        obtain ⟨emits, start, same⟩ := ih settled' later
        exact ⟨emits, start, same.trans side⟩
      · cases later

theorem Consistent.of_side {t : Tcb} {out : Out} {data : List Byte} (side : t.side = tp.side) :
    Consistent t out data ↔ Consistent tp out data := by
  simp only [Tcb.side, Prod.mk.injEq] at side
  obtain ⟨una, snd, maxseg, wnd, cwnd, -⟩ := side
  have window : reach t = reach tp := by
    unfold reach
    rw [wnd, cwnd]
  constructor
  · rintro ⟨full, bytes, short, within, fin⟩
    rw [una, snd] at *
    rw [maxseg] at short
    rw [window] at within
    exact ⟨full, bytes, short, within, fin⟩
  · rintro ⟨full, bytes, short, within, fin⟩
    rw [← una, ← snd] at *
    rw [← maxseg] at short
    rw [← window] at within
    exact ⟨full, bytes, short, within, fin⟩

theorem restart_settled (settled : Settled tp) : Settled (restart tp) := by
  unfold restart
  split
  · exact ⟨settled.nxt, settled.max, settled.syn, settled.fits⟩
  · exact settled

/-- The segments of a call agree with the send buffer just where a FIN is put to its end. -/
theorem tcp_output_consistent_iff {fuel : Nat} (settled : Settled tp) :
    (∀ s ∈ tcpSegments env fuel tp, Consistent (restart tp) s.out s.data) ↔
      ∀ s ∈ tcpSegments env fuel tp, Fits env s.attempt s.start := by
  have each (s : Sent) (sent : s ∈ tcpSegments env fuel tp) :
      Consistent (restart tp) s.out s.data ↔ Fits env s.attempt s.start := by
    obtain ⟨emits, start, side⟩ := segments_emit (restart_settled settled) sent
    rw [← Consistent.of_side side, emits.consistent_iff start, emits.fits_iff]
  constructor
  · exact fun all s sent => (each s sent).mp (all s sent)
  · exact fun all s sent => (each s sent).mpr (all s sent)

instance (env : Env) (a : Attempt) (tp : Tcb) : Decidable (Fits env a tp) :=
  inferInstanceAs (Decidable (_ → _))

def shutting : Tcb :=
  { tcpNewtcpcb 8192 8192 with
    state := .finWait1, template := true, iss := 1000, sndUna := 1001, sndNxt := 1001, sndMax :=
      1001, sndUp := 1001,
    sndWnd := 8192, soSnd := List.replicate 200 7 }

theorem tcp_output_consistent_shutting : Settled shutting ∧
    ∀ s ∈ tcpSegments ⟨8192, 16, none, fun _ => ⟨true, true, none⟩⟩ 2 shutting,
      Consistent (restart shutting) s.out s.data := by
  have settled : Settled shutting := ⟨by decide, by decide, rfl, by decide +kernel⟩
  exact ⟨settled, (tcp_output_consistent_iff settled).mpr (by decide +kernel)⟩

/-- Where there is no memory for the data, its FIN is sent all the same. -/
theorem tcp_output_early_fin : ¬ ∀ (env : Env) (fuel : Nat) (tp : Tcb), Settled tp →
    ∀ s ∈ tcpSegments env fuel tp, Consistent (restart tp) s.out s.data := by
  intro all
  have settled : Settled shutting := ⟨by decide, by decide, rfl, by decide +kernel⟩
  have consistent := all ⟨8192, 16, none, fun _ => ⟨true, false, none⟩⟩ 2 shutting settled
  have found : (tcpSegments ⟨8192, 16, none, fun _ => ⟨true, false, none⟩⟩ 2 shutting).any (fun s =>
      s.out.flags.fin &&
        decide (s.out.seq + BitVec.ofNat 32 s.out.len ≠ 1001 + BitVec.ofNat 32 200)) =
        true := by decide +kernel
  obtain ⟨s, sent, wrong⟩ := List.any_eq_true.mp found
  obtain ⟨fin, early⟩ := Bool.and_eq_true_iff.mp wrong
  exact of_decide_eq_true early ((consistent s sent).fin fin)

end Passes

end FreeBsd.Netinet.Tcp
