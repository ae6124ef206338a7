import FreeBsd.Lib.Segments
import FreeBsd.Lib.Trace
import FreeBsd.Netinet.Tcp

/-! `TCP_REASS` and `tcp_reass`: segments of a stream, in any order, become the stream. -/
namespace FreeBsd.Netinet.Tcp

open FreeBsd.Lib

section Model

def Segment.cut (i : Int) (q : Segment) : Segment :=
  { q with seq := q.seq + BitVec.ofInt 32 i, len := q.len - i.toNat, data := q.data.drop i.toNat }

/-- The preceding segment may provide some of our data already, or all of it. -/
def trimFront (prev : Option Segment) (ti : Segment) : Option Segment :=
  match prev with
  | none => some ti
  | some q =>
    let i := (q.seq + BitVec.ofNat 32 q.len - ti.seq).toInt
    if i > 0 then
      if i ≥ ti.len then none else some (ti.cut i)
    else some ti

def trimBack (ti : Segment) : List Segment → List Segment
  | [] => []
  | q :: rest =>
    let i := (ti.seq + BitVec.ofNat 32 ti.len - q.seq).toInt
    if i ≤ 0 then q :: rest
    else if i < q.len then q.cut i :: rest
    else trimBack ti rest

/-- The queue with the new segment in its place; `none` if it is dropped. -/
def enqueue (ti : Segment) (segs : List Segment) : Option (List Segment) :=
  let front := (segs.span fun q => ¬ SEQ_GT q.seq ti.seq).1
  let back := (segs.span fun q => ¬ SEQ_GT q.seq ti.seq).2
  (trimFront front.getLast? ti).map fun ti => front ++ ti :: trimBack ti back

/-- The loop that presents data: `rcv_nxt`, the data, `TH_FIN` of the last segment taken,
and what is left of the queue. -/
def drain (rcvNxt : Seq) (fin : Bool) : List Segment → Seq × List Byte × Bool × List Segment
  | [] => (rcvNxt, [], fin, [])
  | ti :: rest =>
    if ti.seq = rcvNxt then
      let r := drain (rcvNxt + BitVec.ofNat 32 ti.len) ti.fin rest
      (r.1, ti.data ++ r.2.1, r.2.2)
    else (rcvNxt, [], fin, ti :: rest)

def present (tp : Tcb) : Tcb × Bool :=
  if tp.state.haveRcvdSyn then
    match tp.segs with
    | [] => (tp, false)
    | ti :: _ =>
      if tp.state = .synReceived ∧ ti.len ≠ 0 then (tp, false)
      else
        let r := drain tp.rcvNxt false tp.segs
        ({ tp with rcvNxt := r.1, segs := r.2.2.2,
                   soRcv := if tp.cantrcvmore then tp.soRcv else tp.soRcv ++ r.2.1 }, r.2.2.1)
  else (tp, false)

/-- `tcp_reass`: the connection, and whether it now includes a segment with FIN. -/
def tcpReass (tp : Tcb) (ti : Option Segment) : Tcb × Bool :=
  match ti with
  | none => present tp
  | some ti =>
    match enqueue ti tp.segs with
    | none => (tp, false)
    | some segs => present { tp with segs := segs }

def TCP_REASS (tp : Tcb) (ti : Segment) : Tcb × Bool :=
  if ti.seq = tp.rcvNxt ∧ tp.segs = [] ∧ tp.state = .established then
    ({ tp with delack := true, rcvNxt := tp.rcvNxt + BitVec.ofNat 32 ti.len,
               soRcv := tp.soRcv ++ ti.data }, ti.fin)
  else
    let r := tcpReass tp (some ti)
    ({ r.1 with acknow := true }, r.2)

end Model

section Stream

def slice (S : Nat → Byte) (i n : Nat) : List Byte := (List.range' i n).map S

theorem slice_append (S : Nat → Byte) (i m n : Nat) :
    slice S i m ++ slice S (i + m) n = slice S i (m + n) := by
  rw [slice, slice, slice, ← List.map_append, List.range'_append_1]

theorem drop_slice (S : Nat → Byte) (i n k : Nat) :
    (slice S i n).drop k = slice S (i + k) (n - k) := by
  rw [slice, slice, ← List.map_drop, List.drop_range', Nat.mul_one]

/-- A segment of `S` in the window behind byte `N`, which has the number `nxt`. -/
structure Holds (S : Nat → Byte) (nxt : Seq) (N : Nat) (q : Segment) : Prop where
  low : 0 ≤ ahead nxt q.seq
  high : ahead nxt q.seq + q.len < 2 ^ 31
  data : q.data = slice S (N + (ahead nxt q.seq).toNat) q.len

variable {S : Nat → Byte} {nxt : Seq} {N : Nat}

def place (nxt : Seq) (q : Segment) : Int := ahead nxt q.seq

def size (q : Segment) : Int := q.len

theorem seq_sub {a b : Segment} (low : Holds S nxt N a) (high : Holds S nxt N b) :
    (a.seq - b.seq).toInt = place nxt a - place nxt b := by
  have := low.low
  have := low.high
  have := high.low
  have := high.high
  exact toInt_sub_of_ahead nxt (by lia) (by lia)

theorem end_sub {a b : Segment} (left : Holds S nxt N a) (right : Holds S nxt N b) :
    (a.seq + BitVec.ofNat 32 a.len - b.seq).toInt = place nxt a + size a - place nxt b := by
  have := left.low
  have := left.high
  have := right.low
  have := right.high
  have same : BitVec.ofNat 32 a.len = BitVec.ofInt 32 a.len := (BitVec.ofInt_natCast ..).symm
  have ends : ahead nxt (a.seq + BitVec.ofInt 32 a.len) = place nxt a + size a :=
    ahead_add (by lia) (by lia)
  have difference : (a.seq + BitVec.ofInt 32 a.len - b.seq).toInt =
      ahead nxt (a.seq + BitVec.ofInt 32 a.len) - ahead nxt b.seq := by
    apply toInt_sub_of_ahead nxt <;> rw [ends] <;> unfold place size <;> lia
  rw [same, difference, ends]
  rfl

theorem Holds.cut {q : Segment} (held : Holds S nxt N q) {i : Int} (positive : 0 < i)
    (less : i < size q) :
    Holds S nxt N (q.cut i) ∧ place nxt (q.cut i) = place nxt q + i ∧
      size (q.cut i) = size q - i := by
  obtain ⟨low, high, data⟩ := held
  unfold size at less
  have moved : ahead nxt (q.seq + BitVec.ofInt 32 i) = ahead nxt q.seq + i :=
    ahead_add (by lia) (by lia)
  have short : ((q.len - i.toNat : Nat) : Int) = q.len - i := by lia
  refine ⟨⟨?_, ?_, ?_⟩, moved, short⟩
  · change 0 ≤ ahead nxt (q.seq + BitVec.ofInt 32 i)
    lia
  · change ahead nxt (q.seq + BitVec.ofInt 32 i) + ((q.len - i.toNat : Nat) : Int) < 2 ^ 31
    lia
  · change q.data.drop i.toNat = slice S (N + (ahead nxt (q.seq + BitVec.ofInt 32 i)).toNat) _
    rw [data, drop_slice, moved]
    congr 1
    lia

section Enqueue

variable {ti : Segment} {segs : List Segment}

theorem trimBack_eq (held : Holds S nxt N ti) (all : ∀ q ∈ segs, Holds S nxt N q) :
    trimBack ti segs = Segments.trimBack (place nxt) size Segment.cut ti segs := by
  induction segs with
  | nil => rfl
  | cons q rest ih =>
    have here := end_sub held (all q List.mem_cons_self)
    rw [trimBack, Segments.trimBack, ih fun q member => all q (List.mem_cons_of_mem _ member), here]
    by_cases overlap : place nxt ti + size ti > place nxt q
    · rw [if_neg (by omega), if_pos overlap]
      rfl
    · rw [if_pos (by omega), if_neg overlap]

theorem trimFront_eq {prev : Option Segment} (held : Holds S nxt N ti)
    (before : ∀ q, prev = some q → Holds S nxt N q) :
    trimFront prev ti = Segments.trimFront (place nxt) size Segment.cut prev ti := by
  cases prev with
  | none => rfl
  | some q =>
    have here := end_sub (before q rfl) held
    simp only [trimFront, Segments.trimFront, here]
    rfl

theorem trimFront_holds {prev : Option Segment} {x : Segment} (held : Holds S nxt N ti)
    (trimmed : Segments.trimFront (place nxt) size Segment.cut prev ti = some x) :
      Holds S nxt N x := by
  cases prev with
  | none =>
    cases trimmed
    exact held
  | some q =>
    simp only [Segments.trimFront] at trimmed
    by_cases overlap : place nxt q + size q - place nxt ti > 0
    · rw [if_pos overlap, Option.ite_none_left_eq_some] at trimmed
      obtain ⟨partly, same⟩ := trimmed
      cases same
      exact (held.cut overlap (by omega)).1
    · rw [if_neg overlap] at trimmed
      cases trimmed
      exact held

theorem enqueue_eq (held : Holds S nxt N ti) (all : ∀ q ∈ segs, Holds S nxt N q) :
    enqueue ti segs = Segments.insert (place nxt) size Segment.cut ti segs := by
  have found : segs.span (fun q => decide ¬ SEQ_GT q.seq ti.seq) =
      segs.span fun q => decide ¬ place nxt q > place nxt ti := by
    apply Segments.span_congr
    intro q member
    have difference := seq_sub (all q member) held
    apply decide_eq_decide.mpr
    unfold SEQ_GT
    omega
  have parts : ∀ q, q ∈ (segs.span fun q => decide ¬ place nxt q > place nxt ti).1 ∨
      q ∈ (segs.span fun q => decide ¬ place nxt q > place nxt ti).2 → Holds S nxt N q := by
    intro q member
    apply all
    rw [List.span_eq_takeWhile_dropWhile] at member
    rw [← List.takeWhile_append_dropWhile (l := segs)
      (p := fun q => decide ¬ place nxt q > place nxt ti)]
    exact List.mem_append.mpr member
  simp only [enqueue, Segments.insert, found]
  rw [trimFront_eq held fun q last => parts q (.inl (List.mem_of_getLast? last))]
  apply Option.map_congr
  intro x trimmed
  rw [trimBack_eq (trimFront_holds held trimmed) fun q member => parts q (.inr member)]

theorem enqueue_holds {segs' : List Segment} (held : Holds S nxt N ti)
    (all : ∀ q ∈ segs, Holds S nxt N q) (ordered : Segments.Ordered (place nxt) size segs)
    (done : enqueue ti segs = some segs') :
    Segments.Ordered (place nxt) size segs' ∧ ∀ q ∈ segs', Holds S nxt N q := by
  have every : ∀ q ∈ ti :: segs, Holds S nxt N q := by
    intro q member
    rcases List.mem_cons.mp member with rfl | member
    · exact held
    · exact all q member
  have exact : Segments.Exact (place nxt) size Segment.cut (ti :: segs) := by
    intro a here b there before overlap partly
    obtain ⟨_, moved, short⟩ := (every a here).cut (i := place nxt b + size b - place nxt a)
      (by lia) (by lia)
    exact ⟨by lia, by lia⟩
  rw [enqueue_eq held all] at done
  obtain ⟨order, parts⟩ := Segments.insert_ordered ordered (fun q _ => Int.natCast_nonneg q.len)
    exact done
  refine ⟨order, fun q member => ?_⟩
  obtain ⟨a, origin, rfl | ⟨i, positive, less, rfl, _, _⟩⟩ := parts q member
  · exact every q origin
  · exact ((every a origin).cut positive less).1

end Enqueue

section Present

theorem Holds.rebase {q : Segment} (held : Holds S nxt N q) {k : Nat} (behind : k ≤ place nxt q) :
    place (nxt + BitVec.ofNat 32 k) q = place nxt q - k ∧
      Holds S (nxt + BitVec.ofNat 32 k) (N + k) q := by
  obtain ⟨low, high, data⟩ := held
  unfold place at behind ⊢
  have same : BitVec.ofNat 32 k = BitVec.ofInt 32 k := (BitVec.ofInt_natCast ..).symm
  have base := ahead_self nxt
  have moved : ahead nxt (nxt + BitVec.ofInt 32 k) = k := by
    rw [ahead_add (by lia) (by lia)]
    lia
  have shifted : ahead (nxt + BitVec.ofNat 32 k) q.seq = ahead nxt q.seq - k := by
    have difference : (q.seq - (nxt + BitVec.ofInt 32 k)).toInt =
        ahead nxt q.seq - ahead nxt (nxt + BitVec.ofInt 32 k) := by
      apply toInt_sub_of_ahead nxt <;> rw [moved] <;> lia
    rw [same, ahead, difference, moved]
  refine ⟨shifted, by lia, by lia, ?_⟩
  rw [data, shifted]
  congr 1
  lia

/-- The queue behind byte `N`: in order, of the stream, and beyond `rcv_nxt`. -/
structure Queued (S : Nat → Byte) (nxt : Seq) (N : Nat) (segs : List Segment) : Prop where
  ordered : Segments.Ordered (place nxt) size segs
  held : ∀ q ∈ segs, Holds S nxt N q
  beyond : ∀ q ∈ segs, 0 < place nxt q

/-- The loop takes bytes of the stream off the queue, up to the first one missing. -/
theorem drain_queued {segs : List Segment} {fin : Bool}
    (ordered : Segments.Ordered (place nxt) size segs) (held : ∀ q ∈ segs, Holds S nxt N q)
    {bound : Int} (nonneg : 0 ≤ bound) (ends : ∀ q ∈ segs, place nxt q + size q ≤ bound) :
    ∃ k : Nat, k ≤ bound ∧ (drain nxt fin segs).1 = nxt + BitVec.ofNat 32 k ∧
      (drain nxt fin segs).2.1 = slice S N k ∧
      Queued S (nxt + BitVec.ofNat 32 k) (N + k) (drain nxt fin segs).2.2.2 := by
  induction segs generalizing nxt N fin bound with
  | nil => exact ⟨0, nonneg, by simp [drain], rfl, ⟨.nil, (by rintro _ ⟨⟩), (by rintro _ ⟨⟩)⟩⟩
  | cons ti rest ih =>
    obtain ⟨first, later⟩ := List.pairwise_cons.mp ordered
    have here := held ti List.mem_cons_self
    rw [drain]
    by_cases next : ti.seq = nxt
    · have zero : place nxt ti = 0 := ahead_eq_zero.mpr next
      have behind : ∀ q ∈ rest, (ti.len : Int) ≤ place nxt q := by
        intro q member
        have := first q member
        unfold size at this
        lia
      have rebased : ∀ q ∈ rest, _ := fun q member =>
        (held q (List.mem_cons_of_mem _ member)).rebase (behind q member)
      have full := ends ti List.mem_cons_self
      unfold size at full
      obtain ⟨k, short, stop, data, queued⟩ :=
        @ih (nxt + BitVec.ofNat 32 ti.len) (N + ti.len) ti.fin
          (later.imp_of_mem fun {a b} left right apart => by
            have := (rebased a left).1
            have := (rebased b right).1
            lia)
        (fun q member => (rebased q member).2) (bound - ti.len) (by lia) (fun q member => by
          have := (rebased q member).1
          have := ends q (List.mem_cons_of_mem _ member)
          lia)
      have sum : nxt + BitVec.ofNat 32 ti.len + BitVec.ofNat 32 k =
          nxt + BitVec.ofNat 32 (ti.len + k) := by
        rw [add_assoc, ← BitVec.ofNat_add]
      refine ⟨ti.len + k, by lia, ?_, ?_, ?_⟩
      · rw [if_pos next, stop, sum]
      · simp only [if_pos next]
        rw [data, here.data, ← slice_append]
        have start : ahead nxt ti.seq = 0 := zero
        rw [start]
        rfl
      · simp only [if_pos next]
        rw [← sum, ← Nat.add_assoc]
        exact queued
    · have positive : 0 < place nxt ti := by
        have low := here.low
        have apart : ahead nxt ti.seq ≠ 0 := fun zero => next (ahead_eq_zero.mp zero)
        unfold place
        lia
      refine ⟨0, nonneg, by simp [next], by simp [next, slice], ?_⟩
      simp only [if_neg next, BitVec.add_zero, Nat.add_zero]
      refine ⟨ordered, held, fun q member => ?_⟩
      rcases List.mem_cons.mp member with rfl | member
      · exact positive
      · have := first q member
        have : 0 ≤ size ti := Int.natCast_nonneg _
        lia

end Present

section Runs

/-- What happens to the receiver: a segment, through the macro or given to `tcp_reass`
directly, or the end of reading, which sets `SS_CANTRCVMORE`. -/
inductive Arrival where
  | segment (direct : Bool) (ti : Segment)
  | socantrcvmore
  deriving DecidableEq, Repr

def receive (tp : Tcb) : Arrival → Tcb
  | .segment direct ti => if direct then (tcpReass tp (some ti)).1 else (TCP_REASS tp ti).1
  | .socantrcvmore => { tp with cantrcvmore := true }

/-- `N` bytes of `S` have been accepted; the next segment carries bytes of `S`, starts at
`rcv_nxt` or later and lies within less than 2^31 bytes of it. -/
def Takes (S : Nat → Byte) (s : Tcb × Nat) (arrival : Arrival) (t : Tcb × Nat) : Prop :=
  (∀ direct ti, arrival = .segment direct ti → Holds S s.1.rcvNxt s.2 ti) ∧
    t = (receive s.1 arrival, s.2 + ((receive s.1 arrival).rcvNxt - s.1.rcvNxt).toNat)

/-- The state of the receiver after `N` bytes of `S`, the first of which is number `first`. -/
structure Receives (S : Nat → Byte) (first : Seq) (tp : Tcb) (N : Nat) : Prop where
  established : tp.state = .established
  next : tp.rcvNxt = first + BitVec.ofNat 32 N
  buffer : tp.cantrcvmore = false → tp.soRcv = slice S 0 N
  queue : Queued S tp.rcvNxt N tp.segs

variable {first : Seq} {tp : Tcb}

theorem Receives.advance (receives : Receives S first tp N) {tp' : Tcb} {k : Nat}
    (small : k < 2 ^ 32) (state : tp'.state = tp.state)
    (next : tp'.rcvNxt = tp.rcvNxt + BitVec.ofNat 32 k) (same : tp'.cantrcvmore = tp.cantrcvmore)
    (buffer : tp.cantrcvmore = false → tp'.soRcv = tp.soRcv ++ slice S N k)
    (queue : Queued S (tp.rcvNxt + BitVec.ofNat 32 k) (N + k) tp'.segs) :
    Receives S first tp' (N + (tp'.rcvNxt - tp.rcvNxt).toNat) := by
  have count : (tp'.rcvNxt - tp.rcvNxt).toNat = k := by
    rw [next, add_sub_cancel_left, BitVec.toNat_ofNat, Nat.mod_eq_of_lt small]
  rw [count]
  refine ⟨state.trans receives.established, ?_, fun open_ => ?_, next ▸ queue⟩
  · rw [next, receives.next, add_assoc, ← BitVec.ofNat_add]
  · rw [same] at open_
    rw [buffer open_, receives.buffer open_]
    have appended := slice_append S 0 N k
    rw [Nat.zero_add] at appended
    exact appended

theorem present_receives {segs : List Segment} (receives : Receives S first tp N)
    (ordered : Segments.Ordered (place tp.rcvNxt) size segs)
    (held : ∀ q ∈ segs, Holds S tp.rcvNxt N q) :
    Receives S first (present { tp with segs := segs }).1
      (N + ((present { tp with segs := segs }).1.rcvNxt - tp.rcvNxt).toNat) := by
  have syn : tp.state.haveRcvdSyn := by rw [receives.established]; decide
  have state : tp.state ≠ .synReceived := by rw [receives.established]; decide
  obtain ⟨k, short, stop, data, queued⟩ := @drain_queued S tp.rcvNxt N segs false ordered held
    (2 ^ 31) (by decide) fun q member => by
      have := (held q member).high
      unfold place size
      omega
  cases segs with
  | nil =>
    have stays : present { tp with segs := [] } = ({ tp with segs := [] }, false) := by
      simp only [present, if_pos syn]
    rw [stays]
    exact receives.advance (k := 0) (by decide) rfl (by simp) rfl (fun _ => by simp [slice])
      ⟨.nil, (by rintro _ ⟨⟩), (by rintro _ ⟨⟩)⟩
  | cons ti rest =>
    have taken : present { tp with segs := ti :: rest } =
        ({ tp with rcvNxt := (drain tp.rcvNxt false (ti :: rest)).1,
                   segs := (drain tp.rcvNxt false (ti :: rest)).2.2.2,
                   soRcv := if tp.cantrcvmore then tp.soRcv
                     else tp.soRcv ++ (drain tp.rcvNxt false (ti :: rest)).2.1 },
          (drain tp.rcvNxt false (ti :: rest)).2.2.1) := by
      simp only [present, if_pos syn, state, false_and, if_false]
    rw [taken]
    refine receives.advance (k := k) (by omega) ?_ ?_ ?_ ?_ ?_
    · rfl
    · exact stop
    · rfl
    · intro open_
      rw [← data]
      simp [open_]
    · exact queued

theorem tcpReass_receives {ti : Segment} (receives : Receives S first tp N)
    (held : Holds S tp.rcvNxt N ti) :
    Receives S first (tcpReass tp (some ti)).1
      (N + ((tcpReass tp (some ti)).1.rcvNxt - tp.rcvNxt).toNat) := by
  simp only [tcpReass]
  cases done : enqueue ti tp.segs with
  | none =>
    simp only [sub_self]
    exact receives
  | some segs =>
    obtain ⟨ordered, all⟩ := enqueue_holds held receives.queue.held receives.queue.ordered done
    exact present_receives receives ordered all

theorem Receives.takes (receives : Receives S first tp N) {arrival : Arrival} {s : Tcb × Nat}
    (step : Takes S (tp, N) arrival s) : Receives S first s.1 s.2 := by
  obtain ⟨carries, rfl⟩ := step
  cases arrival with
  | socantrcvmore =>
    refine ⟨receives.established, ?_, (by rintro ⟨⟩), ?_⟩
    · simp [receive, receives.next]
    · simpa [receive] using receives.queue
  | segment direct ti =>
    have held := carries direct ti rfl
    cases direct with
    | true => exact tcpReass_receives receives held
    | false =>
      by_cases inline : ti.seq = tp.rcvNxt ∧ tp.segs = [] ∧ tp.state = .established
      · have start : ahead tp.rcvNxt ti.seq = 0 := ahead_eq_zero.mpr inline.1
        have size := held.high
        have data := held.data
        rw [start] at data size
        simp only [receive, TCP_REASS, if_pos inline, Bool.false_eq_true, if_false]
        refine receives.advance (k := ti.len) (by omega) ?_ ?_ ?_ ?_ ?_
        · rfl
        · rfl
        · rfl
        · intro _
          rw [data]
          rfl
        · rw [inline.2.1]
          exact ⟨.nil, (by rintro _ ⟨⟩), (by rintro _ ⟨⟩)⟩
      · simp only [receive, TCP_REASS, if_neg inline, Bool.false_eq_true, if_false]
        obtain ⟨established, next, buffer, queue⟩ := tcpReass_receives receives held
        exact ⟨established, next, buffer, queue⟩

/-- Whatever the order and the overlaps of the segments, what has been accepted is the stream
up to `rcv_nxt`, and all of it is in the receive buffer unless reading has ended; the queue is
sorted, without overlaps, beyond `rcv_nxt`, and holds bytes of the stream. -/
theorem stream_reassembled (S : Nat → Byte) (tp : Tcb) (established : tp.state = .established)
    (next : tp.rcvNxt = tp.irs + 1) (fresh : tp.segs = [] ∧ tp.soRcv = []) {arrivals : List Arrival}
    {tp' : Tcb} {N : Nat} (run : Run (Takes S) (tp, 0) arrivals (tp', N)) :
    tp'.rcvNxt = tp.irs + 1 + BitVec.ofNat 32 N ∧
    (tp'.cantrcvmore = false → tp'.soRcv = slice S 0 N) ∧
    (tp'.segs.Pairwise fun a b => SEQ_LEQ a.seq b.seq ∧
      (a.seq - tp'.rcvNxt).toInt + a.len ≤ (b.seq - tp'.rcvNxt).toInt) ∧
    ∀ q ∈ tp'.segs, SEQ_GT q.seq tp'.rcvNxt ∧
      q.data = slice S (N + (q.seq - tp'.rcvNxt).toInt.toNat) q.len := by
  have initial : Receives S (tp.irs + 1) tp 0 := by
    refine ⟨established, by rw [next]; simp, fun _ => by rw [fresh.2]; rfl, ?_⟩
    rw [fresh.1]
    exact ⟨.nil, (by rintro _ ⟨⟩), (by rintro _ ⟨⟩)⟩
  have preserved : ∀ (s : Tcb × Nat) (arrival : Arrival) (t : Tcb × Nat), True →
      Receives S (tp.irs + 1) s.1 s.2 → Takes S s arrival t → Receives S (tp.irs + 1) t.1 t.2 :=
    fun _ _ _ _ receives step => receives.takes step
  obtain ⟨_, reached, buffer, queue⟩ := run.invariant preserved (fun _ _ => trivial) initial
  refine ⟨reached, buffer, ?_, fun q member => ⟨queue.beyond q member, (queue.held q member).data⟩⟩
  apply queue.ordered.imp_of_mem
  intro a b left right apart
  have difference := seq_sub (queue.held a left) (queue.held b right)
  have length : 0 ≤ size a := Int.natCast_nonneg _
  refine ⟨?_, apart⟩
  unfold SEQ_LEQ
  omega

def reader :
    Tcb := { tcpNewtcpcb 16384 16384 with state := .established, rcvNxt := 1, rcvAdv := 16385 }

def counting (n : Nat) : Byte := BitVec.ofNat 8 n

def swapped : List Arrival :=
  [.segment false ⟨3, 2, false, [2, 3]⟩, .segment false ⟨1, 3, false, [0, 1, 2]⟩]

theorem stream_reassembled_swapped : ∃ tp', Run (Takes counting) (reader, 0) swapped (tp', 4) ∧
    tp'.soRcv = slice counting 0 4 := by
  have run : Run (Takes counting) (reader, 0) swapped (swapped.foldl receive reader, 4) := by
    refine .cons ⟨?_, rfl⟩ (.cons ⟨?_, rfl⟩ (.nil _))
    · intro direct ti same
      cases same
      exact ⟨by decide, by decide, by decide⟩
    · intro direct ti same
      cases same
      exact ⟨by decide, by decide, by decide⟩
  exact ⟨_, run, (stream_reassembled _ reader rfl rfl ⟨rfl, rfl⟩ run).2.1 rfl⟩

/-- After the end of reading, bytes that come out of order are accepted and discarded. -/
theorem stream_discarded :
    ∃ tp' N, Run (Takes counting) (reader, 0) (.socantrcvmore :: swapped) (tp', N) ∧
    tp'.soRcv ≠ slice counting 0 N := by
  refine ⟨(.socantrcvmore :: swapped).foldl receive reader, 4, ?_, by decide⟩
  refine .cons ⟨(by rintro _ _ ⟨⟩), rfl⟩ (.cons ⟨?_, rfl⟩ (.cons ⟨?_, rfl⟩ (.nil _)))
  · intro direct ti same
    cases same
    exact ⟨by decide, by decide, by decide⟩
  · intro direct ti same
    cases same
    exact ⟨by decide, by decide, by decide⟩

end Runs

end Stream

end FreeBsd.Netinet.Tcp
