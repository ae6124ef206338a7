import FreeBsd.Lib.Queues
import FreeBsd.Lib.Stuffing
import FreeBsd.Kern.TtyRing
import FreeBsd.Kern.UipcMbuf

/-! Serial line IP. Packets leave through the output ring of a tty with the frame characters
escaped, and the other side finds them again in what the line delivers. -/
namespace FreeBsd.Net

open FreeBsd.Lib FreeBsd.Kern
open FreeBsd.Kern.UipcMbuf (MHLEN MCLBYTES)

section Constants

def SLMTU : Nat := 296
def SLIP_HIWAT : Nat := 52
def SLIP_HDRLEN : Nat := 16
def FRAME_END : Char8 := 0xc0
def FRAME_ESCAPE : Char8 := 0xdb
def TRANS_FRAME_END : Char8 := 0xdc
def TRANS_FRAME_ESCAPE : Char8 := 0xdd
def TTY_ERRORMASK : BitVec 32 := 0xff000000
def IPVERSION : Char8 := 4
def TYPE_UNCOMPRESSED_TCP : Char8 := 0x70
def TYPE_COMPRESSED_TCP : Char8 := 0x80

def BUFOFFSET (NBPFILTER : Nat) : Nat := if NBPFILTER > 0 then 128 + 4 + SLIP_HDRLEN else 128 + 4

def SLMAX (NBPFILTER : Nat) : Nat := MCLBYTES - BUFOFFSET NBPFILTER

end Constants

section Output

abbrev SlPacket := List (List Char8)

/-- The line in its output half. `line` is what the driver has taken from the ring and `sent` the
packets taken from the queues; `short` records that some character found the ring full. -/
structure SlTty where
  tOut : Ringb
  scFastq : List SlPacket
  ifSnd : List SlPacket
  line : List Char8
  sent : List SlPacket
  short : Bool

def slPutc (c : Char8) (tp : SlTty) : Int × SlTty :=
  let (full, out) := putc c.toNat tp.tOut
  (full, { tp with tOut := out, short := tp.short || full ≠ 0 })

def slUnputc (tp : SlTty) : SlTty := { tp with tOut := (unputc tp.tOut).2 }

/-- The characters from `bp` to `cp`, when there are any. -/
def slWrite (run : List Char8) (tp : SlTty) : SlTty :=
  if run = [] then tp
  else
    let (n, out) := rbWrite run tp.tOut
    { tp with tOut := out, short := tp.short || n < run.length }

/-- The characters of one mbuf; `run` holds those between `bp` and `cp`. -/
def slMbuf : List Char8 → List Char8 → SlTty → SlTty
  | [], run, tp => slWrite run tp
  | c :: rest, run, tp =>
    if c = FRAME_ESCAPE ∨ c = FRAME_END then
      let (full, tp) := slPutc FRAME_ESCAPE (slWrite run tp)
      if full ≠ 0 then tp
      else
        let (full, tp) := slPutc (if c = FRAME_ESCAPE then TRANS_FRAME_ESCAPE else TRANS_FRAME_END)
          tp
        if full ≠ 0 then slUnputc tp
        else slMbuf rest [] tp
    else slMbuf rest (run ++ [c]) tp

/-- What `slstart` does with the packet it has taken. -/
def slPacket (m : SlPacket) (tp : SlTty) : SlTty :=
  let tp := if rbLen tp.tOut.hd tp.tOut.tl = 0 then (slPutc FRAME_END tp).2 else tp
  let tp := m.foldl (fun tp data => slMbuf data [] tp) tp
  let (full, tp) := slPutc FRAME_END tp
  if full ≠ 0 then (slPutc FRAME_END (slUnputc tp)).2 else tp

def slDequeue (tp : SlTty) : Option (SlPacket × SlTty) :=
  match tp.scFastq, tp.ifSnd with
  | m :: rest, _ => some (m, { tp with scFastq := rest, sent := tp.sent ++ [m] })
  | [], m :: rest => some (m, { tp with ifSnd := rest, sent := tp.sent ++ [m] })
  | [], [] => none

def slDrain : Nat → SlTty → SlTty
  | 0, tp => tp
  | n + 1, tp =>
    let (c, out) := getc tp.tOut
    if c < 0 then tp
    else slDrain n { tp with tOut := out, line := tp.line ++ [BitVec.ofInt 8 c] }

/-- `slstart`, for a line whose driver takes `oproc i` characters at its `i`th call; `fuel` bounds
the packets there are. -/
def slstartLoop : Nat → (Nat → Nat) → SlTty → SlTty
  | 0, _, tp => tp
  | fuel + 1, oproc, tp =>
    let tp := slDrain (oproc 0) tp
    let len := rbLen tp.tOut.hd tp.tOut.tl
    if len > SLIP_HIWAT then tp
    else if (min RBSZ (4 * SLMTU + 4) : Int) - len < 2 * SLMTU + 2 then tp
    else
      match slDequeue tp with
      | none => tp
      | some (m, tp) => slstartLoop fuel (fun i => oproc (i + 1)) (slPacket m tp)

def slstart (oproc : Nat → Nat) (tp : SlTty) : SlTty :=
  slstartLoop (tp.scFastq.length + tp.ifSnd.length + 1) oproc tp

/-- What can happen to the output half: `sloutput` queues a packet, the driver takes characters, or
`slstart` runs. -/
inductive SlEvent where
  | output (fast : Bool) (m : SlPacket)
  | drain (n : Nat)
  | start (oproc : Nat → Nat)

def slEvent (tp : SlTty) : SlEvent → SlTty
  | .output true m => { tp with scFastq := tp.scFastq ++ [m] }
  | .output false m => { tp with ifSnd := tp.ifSnd ++ [m] }
  | .drain n => slDrain n tp
  | .start oproc => slstart oproc tp

def SlEvent.queued : SlEvent → Option (Bool × SlPacket)
  | .output fast m => some (fast, m)
  | .drain _ | .start _ => none

def SlTty.queues (tp : SlTty) : Queues SlPacket := ⟨tp.scFastq, tp.ifSnd, tp.sent⟩

def slOpened (ring : Ringb) : SlTty := ⟨ring, [], [], [], [], false⟩

end Output

section Input

variable {Comp : Type}

/-- The state `slinput` keeps; `scBuf` is what lies between `sc_buf` and `sc_mp`. -/
structure SlSoftc (Comp : Type) where
  scBuf : List Char8
  scEscape : Bool
  scError : Bool
  scCompress : Bool
  scAutocomp : Bool
  scComp : Comp
  ipintrq : List (List Char8)

structure SlLine where
  carrOn : Bool
  clocal : Bool
  mbufs : Bool
  clusters : Bool
  qfull : Bool

def slNewpack (sc : SlSoftc Comp) : SlSoftc Comp := { sc with scBuf := [], scEscape := false }

def slBtom (line : SlLine) (data : List Char8) : Option (List Char8) :=
  if line.mbufs = false then none
  else if data.length ≥ MHLEN ∧ line.clusters = false then none
  else some data

/-- The packet that the characters of a frame are, and the decompressor after it. `uncompress` is
`sl_uncompress_tcp`, with no data for a return value of 0 or less. -/
def slPacketIn (uncompress : List Char8 → Char8 → Comp → List Char8 × Comp) (sc : SlSoftc Comp) :
    Option (List Char8) × SlSoftc Comp :=
  let c := sc.scBuf.headD 0 &&& 0xf0
  if c ≠ IPVERSION <<< 4 then
    let kind := if c &&& 0x80 ≠ 0 then TYPE_COMPRESSED_TCP else c
    let buf := if kind = TYPE_UNCOMPRESSED_TCP then sc.scBuf.modifyHead (· &&& 0x4f) else sc.scBuf
    if sc.scCompress then
      let (data, comp) := uncompress buf kind sc.scComp
      (if data = [] then none else some data, { sc with scComp := comp })
    else if sc.scAutocomp ∧ kind = TYPE_UNCOMPRESSED_TCP ∧ buf.length ≥ 40 then
      let (data, comp) := uncompress buf kind sc.scComp
      if data = [] then (none, { sc with scComp := comp })
      else (some data, { sc with scComp := comp, scCompress := true })
    else (none, sc)
  else (some sc.scBuf, sc)

def slFrameEnd (uncompress : List Char8 → Char8 → Comp → List Char8 × Comp) (line : SlLine)
    (sc : SlSoftc Comp) : SlSoftc Comp :=
  if sc.scError then slNewpack { sc with scError := false }
  else if sc.scBuf.length < 3 then slNewpack sc
  else
    match slPacketIn uncompress sc with
    | (none, sc) => slNewpack sc
    | (some data, sc) =>
      match slBtom line data with
      | none => slNewpack sc
      | some m => slNewpack (if line.qfull then sc else { sc with ipintrq := sc.ipintrq ++ [m] })

def slinput (NBPFILTER : Nat) (uncompress : List Char8 → Char8 → Comp → List Char8 × Comp)
    (line : SlLine) (c : BitVec 32) (sc : SlSoftc Comp) : SlSoftc Comp :=
  if c &&& TTY_ERRORMASK ≠ 0 ∨ line.carrOn = false ∧ line.clocal = false then
    { sc with scError := true }
  else if c = FRAME_ESCAPE.setWidth 32 then { sc with scEscape := true }
  else if c = FRAME_END.setWidth 32 then slFrameEnd uncompress line sc
  else
    let c :=
      if c = TRANS_FRAME_ESCAPE.setWidth 32 ∧ sc.scEscape then FRAME_ESCAPE.setWidth 32
      else if c = TRANS_FRAME_END.setWidth 32 ∧ sc.scEscape then FRAME_END.setWidth 32
      else c
    if sc.scBuf.length < SLMAX NBPFILTER then { sc with scBuf := sc.scBuf ++ [c.setWidth 8],
                                                        scEscape := false }
    else slNewpack { sc with scError := true }

def slReceive (NBPFILTER : Nat) (uncompress : List Char8 → Char8 → Comp → List Char8 × Comp)
    (arrivals : List (SlLine × BitVec 32)) (sc : SlSoftc Comp) : SlSoftc Comp :=
  arrivals.foldl (fun sc arrival => slinput NBPFILTER uncompress arrival.1 arrival.2 sc) sc

end Input

section Sender

def slStuff (l : List Char8) : List Char8 :=
  stuff (fun c => c = FRAME_ESCAPE ∨ c = FRAME_END) FRAME_ESCAPE
    (fun c => if c = FRAME_ESCAPE then TRANS_FRAME_ESCAPE else TRANS_FRAME_END) l

def SlValid (m : SlPacket) : Prop :=
  3 ≤ m.flatten.length ∧ m.flatten.length ≤ SLMTU ∧ m.flatten.headD 0 &&& 0xf0 = IPVERSION <<< 4

instance (m : SlPacket) : Decidable (SlValid m) := inferInstanceAs (Decidable (_ ∧ _))

/-- The characters of some packets on the line, each with its `FRAME_END` and maybe one in front. -/
inductive Framed : List SlPacket → List Char8 → Prop where
  | nil : Framed [] []
  | cons {ms : List SlPacket} {out : List Char8} (m : SlPacket) (lead : List Char8)
      (extra : lead = [] ∨ lead = [FRAME_END]) (rest : Framed ms out) :
      Framed (m :: ms) (lead ++ slStuff m.flatten ++ [FRAME_END] ++ out)

theorem Framed.append {ms ks : List SlPacket} {out tail : List Char8} (first : Framed ms out)
    (second : Framed ks tail) : Framed (ms ++ ks) (out ++ tail) := by
  induction first with
  | nil => exact second
  | cons m lead extra rest ih =>
    rw [List.append_assoc]
    exact .cons m lead extra ih

/-- `tp'` is `tp` with `l` put into the ring, all of it. -/
structure Emits (tp tp' : SlTty) (l : List Char8) : Prop where
  contents : tp'.tOut.contents = tp.tOut.contents ++ l
  short : tp'.short = tp.short
  fastq : tp'.scFastq = tp.scFastq
  snd : tp'.ifSnd = tp.ifSnd
  line : tp'.line = tp.line
  sent : tp'.sent = tp.sent

variable {tp : SlTty} {l k run : List Char8}

theorem Emits.refl (tp : SlTty) : Emits tp tp [] :=
  ⟨(List.append_nil _).symm, rfl, rfl, rfl, rfl, rfl⟩

theorem Emits.trans {u v : SlTty} (first : Emits tp u l) (second : Emits u v k) :
    Emits tp v (l ++ k) where
  contents := by rw [second.contents, first.contents, List.append_assoc]
  short := second.short.trans first.short
  fastq := second.fastq.trans first.fastq
  snd := second.snd.trans first.snd
  line := second.line.trans first.line
  sent := second.sent.trans first.sent

theorem Emits.length {u : SlTty} (emits : Emits tp u l) :
    u.tOut.contents.length = tp.tOut.contents.length + l.length := by
  rw [emits.contents, List.length_append]

theorem slPutc_room (c : Char8) (room : tp.tOut.contents.length < RBSZ - 1) :
    (slPutc c tp).1 = 0 ∧ Emits tp (slPutc c tp).2 [c] := by
  obtain ⟨value, contents⟩ := putc_spec c.toNat tp.tOut
  rw [Ringb.length_contents] at room
  rw [if_pos room] at value contents
  rw [show BitVec.ofInt 8 c.toNat = c by simp] at contents
  exact ⟨value, contents, by simp [slPutc, value], rfl, rfl, rfl, rfl⟩

theorem slWrite_room (room : tp.tOut.contents.length + run.length < RBSZ - 1) :
    Emits tp (slWrite run tp) run := by
  unfold slWrite
  split
  · rename_i empty
    rw [empty]
    exact .refl tp
  · have writable : Writable tp.tOut.hd tp.tOut.tl run.length := by
      have length := rbLen_cases tp.tOut.hd tp.tOut.tl
      have right := @rbContigput_cases tp.tOut.hd _ tp.tOut.tl_lt
      rw [Ringb.length_contents] at room
      unfold Writable RBSZ at *
      lia
    obtain ⟨count, -, -, -, contents⟩ := rbWrite_spec tp.tOut writable
    exact ⟨contents, by simp [count], rfl, rfl, rfl, rfl⟩

/-- A mbuf goes out with its characters stuffed, as long as one place stays free after it. -/
theorem slMbuf_room (data : List Char8)
    (room : tp.tOut.contents.length + (run ++ slStuff data).length < RBSZ - 1) :
    Emits tp (slMbuf data run tp) (run ++ slStuff data) := by
  induction data generalizing run tp with
  | nil =>
    rw [slStuff, stuff, List.flatMap_nil, List.append_nil] at room ⊢
    exact slWrite_room room
  | cons c rest ih =>
    rw [slStuff, stuff_cons, List.length_append] at room
    rw [slMbuf, slStuff, stuff_cons]
    by_cases special : c = FRAME_ESCAPE ∨ c = FRAME_END
    · rw [if_pos (decide_eq_true special), List.length_append, List.length_cons,
        List.length_singleton] at room
      rw [if_pos special, if_pos (decide_eq_true special)]
      have flushed : Emits tp (slWrite run tp) run := slWrite_room (by lia)
      have length := flushed.length
      obtain ⟨free, escape⟩ := @slPutc_room (slWrite run tp) FRAME_ESCAPE (by lia)
      have length' := escape.length
      rw [List.length_singleton] at length'
      obtain ⟨free', transposed⟩ := @slPutc_room (slPutc FRAME_ESCAPE (slWrite run tp)).2
        (if c = FRAME_ESCAPE then TRANS_FRAME_ESCAPE else TRANS_FRAME_END) (by lia)
      have length'' := transposed.length
      rw [List.length_singleton] at length''
      simp only [free, free', ne_eq, not_true, if_false]
      have others := @ih (slPutc (if c = FRAME_ESCAPE then TRANS_FRAME_ESCAPE else TRANS_FRAME_END)
        (slPutc FRAME_ESCAPE (slWrite run tp)).2).2 [] (by
          rw [List.nil_append]
          change _ + (stuff _ _ _ rest).length < _
          lia)
      have all := (flushed.trans escape).trans transposed |>.trans others
      simpa [slStuff] using all
    · rw [if_neg (by simpa using special), List.length_append, List.length_singleton] at room
      rw [if_neg special, if_neg (by simpa using special), ← List.append_assoc]
      apply ih
      rw [List.length_append, List.length_append, List.length_singleton, slStuff]
      lia

theorem slStuff_append (l k : List Char8) : slStuff (l ++ k) = slStuff l ++ slStuff k :=
  stuff_append l k

theorem length_slStuff (l : List Char8) : (slStuff l).length ≤ 2 * l.length := length_stuff l

theorem slMbufs_room (m : SlPacket)
    (room : tp.tOut.contents.length + (slStuff m.flatten).length < RBSZ - 1) :
    Emits tp (m.foldl (fun tp data => slMbuf data [] tp) tp) (slStuff m.flatten) := by
  induction m generalizing tp with
  | nil => exact .refl tp
  | cons data m ih =>
    rw [List.flatten_cons, slStuff_append] at room ⊢
    rw [List.length_append] at room
    have first : Emits tp (slMbuf data [] tp) (slStuff data) :=
      slMbuf_room data (by rw [List.nil_append]; lia)
    have length := first.length
    exact first.trans (ih (by lia))

/-- Where `slstart` takes a packet the ring has room for all its characters escaped, the final
`FRAME_END`, and the place that stays empty. -/
theorem slPacket_room {m : SlPacket} (valid : SlValid m)
    (room : tp.tOut.contents.length ≤ RBSZ - (2 * SLMTU + 2)) :
    ∃ lead, (lead = [] ∨ lead = [FRAME_END]) ∧
      Emits tp (slPacket m tp) (lead ++ slStuff m.flatten ++ [FRAME_END]) := by
  obtain ⟨-, short, -⟩ := valid
  have stuffed := length_slStuff m.flatten
  obtain ⟨lead, extra, begun⟩ :
      ∃ lead, (lead = [] ∨ lead = [FRAME_END] ∧ tp.tOut.contents.length = 0) ∧
      Emits tp (if rbLen tp.tOut.hd tp.tOut.tl = 0 then (slPutc FRAME_END tp).2 else tp) lead := by
    split
    · rename_i idle
      rw [← Ringb.length_contents] at idle
      exact ⟨_, .inr ⟨rfl, idle⟩, (slPutc_room FRAME_END (by rw [idle]; decide)).2⟩
    · exact ⟨[], .inl rfl, .refl tp⟩
  refine ⟨lead, extra.imp_right And.left, ?_⟩
  have length := begun.length
  have first : tp.tOut.contents.length + lead.length ≤ RBSZ - (2 * SLMTU + 2) := by
    rcases extra with none | ⟨one, idle⟩
    · rw [none]
      exact room
    · rw [one, idle]
      decide
  unfold RBSZ SLMTU at *
  have body := begun.trans (slMbufs_room m (by unfold RBSZ; lia))
  have length' := body.length
  rw [List.length_append] at length'
  obtain ⟨value, ended⟩ := @slPutc_room (m.foldl (fun tp data => slMbuf data [] tp)
    (if rbLen tp.tOut.hd tp.tOut.tl = 0 then (slPutc FRAME_END tp).2 else tp)) FRAME_END
      (by unfold RBSZ; lia)
  simp only [slPacket, value, ne_eq, not_true, if_false]
  exact body.trans ended

/-- `tp'` is `tp` after some of the queued packets have gone out in frames and the driver has taken
what it has. -/
structure Advances (tp tp' : SlTty) : Prop where
  short : tp'.short = tp.short
  frames : ∃ ms out, tp'.sent = tp.sent ++ ms ∧ Framed ms out ∧
    tp'.line ++ tp'.tOut.contents = tp.line ++ tp.tOut.contents ++ out
  served : Queues.Served tp.queues tp'.queues

theorem Advances.quiet {u : SlTty} (short : u.short = tp.short) (queues : u.queues = tp.queues)
    (line : u.line ++ u.tOut.contents = tp.line ++ tp.tOut.contents) : Advances tp u where
  short := short
  frames := by
    have sent : u.sent = tp.sent := congrArg Queues.taken queues
    exact ⟨[], [], by rw [sent, List.append_nil], .nil, by rw [line, List.append_nil]⟩
  served := by
    rw [queues]
    exact .refl _

theorem Advances.trans {u v : SlTty} (first : Advances tp u) (second : Advances u v) :
    Advances tp v where
  short := second.short.trans first.short
  frames := by
    obtain ⟨ms, out, sent, framed, line⟩ := first.frames
    obtain ⟨ks, tail, sent', framed', line'⟩ := second.frames
    refine ⟨ms ++ ks, out ++ tail, ?_, framed.append framed', ?_⟩
    · rw [sent', sent, List.append_assoc]
    · rw [line', line, List.append_assoc]
  served := first.served.trans second.served

theorem slDrain_advances (n : Nat) (tp : SlTty) :
    Advances tp (slDrain n tp) ∧ (slDrain n tp).queues = tp.queues := by
  induction n generalizing tp with
  | zero => exact ⟨.quiet rfl rfl rfl, rfl⟩
  | succ n ih =>
    rw [slDrain]
    rcases getc_spec tp.tOut with ⟨-, none⟩ | ⟨c, value, contents⟩
    · simp only [none]
      exact ⟨.quiet rfl rfl rfl, rfl⟩
    · simp only [value]
      rw [if_neg (by omega)]
      obtain ⟨later, queues⟩ :=
        ih { tp with tOut := (getc tp.tOut).2, line := tp.line ++ [BitVec.ofInt 8 c.toNat] }
      have first : Advances tp
          { tp with tOut := (getc tp.tOut).2, line := tp.line ++ [BitVec.ofInt 8 c.toNat] } :=
        .quiet rfl rfl (by rw [contents]; simp)
      exact ⟨first.trans later, queues⟩

theorem slDequeue_cases (tp : SlTty) :
    (slDequeue tp = none ∧ tp.scFastq = [] ∧ tp.ifSnd = []) ∨
    ∃ m u, slDequeue tp = some (m, u) ∧ m ∈ tp.queues.all ∧ u.sent = tp.sent ++ [m] ∧
      u.short = tp.short ∧
      u.line = tp.line ∧ u.tOut = tp.tOut ∧ Queues.Served tp.queues u.queues ∧
      u.scFastq.length + u.ifSnd.length + 1 = tp.scFastq.length + tp.ifSnd.length := by
  unfold slDequeue
  cases tp with
  | mk tOut fast snd line sent short =>
    cases fast with
    | cons m rest =>
      refine .inr ⟨m, _, rfl, by simp [SlTty.queues, Queues.all], rfl, rfl, rfl, rfl, .fast rfl, ?_⟩
      simp only [List.length_cons]
      omega
    | nil =>
      cases snd with
      | cons m rest =>
        refine .inr ⟨m, _,
          rfl, by simp [SlTty.queues, Queues.all], rfl, rfl, rfl, rfl, .slow rfl rfl, ?_⟩
        simp only [List.length_cons, List.length_nil]
        omega
      | nil => exact .inl ⟨rfl, rfl, rfl⟩

def SlTty.Served (tp : SlTty) : Prop :=
  tp.scFastq = [] ∧ tp.ifSnd = [] ∨ SLIP_HIWAT < tp.tOut.contents.length

theorem Emits.queues {u : SlTty} (emits : Emits tp u l) : u.queues = tp.queues := by
  unfold SlTty.queues
  rw [emits.fastq, emits.snd, emits.sent]

theorem slPacket_advances {u : SlTty} {m : SlPacket} (valid : SlValid m)
    (room : tp.tOut.contents.length ≤ RBSZ - (2 * SLMTU + 2)) (sent : u.sent = tp.sent ++ [m])
    (short : u.short = tp.short) (line : u.line = tp.line) (out : u.tOut = tp.tOut)
    (served : Queues.Served tp.queues u.queues) :
    Advances tp (slPacket m u) ∧ (slPacket m u).queues = u.queues := by
  rw [← out] at room
  obtain ⟨lead, extra, emits⟩ := slPacket_room valid room
  refine ⟨⟨emits.short.trans short, ⟨[m], _, emits.sent.trans sent, .cons m lead extra .nil, ?_⟩,
    ?_⟩, emits.queues⟩
  · simp only [emits.line, line, emits.contents, out, List.append_nil, List.append_assoc]
  · rw [emits.queues]
    exact served

/-- `slstart` takes packets in their order, writes each in full, and stops only where it should. -/
theorem slstartLoop_spec (fuel : Nat) (oproc : Nat → Nat) (valid : ∀ m ∈ tp.queues.all, SlValid m) :
    Advances tp (slstartLoop fuel oproc tp) ∧
      (tp.scFastq.length + tp.ifSnd.length < fuel → (slstartLoop fuel oproc tp).Served) := by
  induction fuel generalizing tp oproc with
  | zero => exact ⟨(slDrain_advances 0 tp).1, fun none => absurd none (Nat.not_lt_zero _)⟩
  | succ fuel ih =>
    rw [slstartLoop]
    obtain ⟨drained, queues⟩ := slDrain_advances (oproc 0) tp
    rw [← Ringb.length_contents]
    generalize slDrain (oproc 0) tp = u at drained queues
    have fast : u.scFastq = tp.scFastq := congrArg Queues.fast queues
    have slow : u.ifSnd = tp.ifSnd := congrArg Queues.slow queues
    split
    · exact ⟨drained, fun _ => .inr ‹_›⟩
    split
    · rename_i full
      refine ⟨drained, fun _ => .inr ?_⟩
      unfold RBSZ SLMTU SLIP_HIWAT at *
      lia
    rename_i low admitted
    rcases slDequeue_cases u with ⟨none, left⟩ | ⟨m, v, some, member, sent, short, line, out,
      served, fewer⟩
    · rw [none]
      exact ⟨drained, fun _ => .inl left⟩
    · rw [some]
      rw [queues] at member
      obtain ⟨packet, same⟩ := slPacket_advances (valid m member)
        (by unfold RBSZ SLMTU at *; lia) sent short line out served
      have fast' : (slPacket m v).scFastq = v.scFastq := congrArg Queues.fast same
      have slow' : (slPacket m v).ifSnd = v.ifSnd := congrArg Queues.slow same
      obtain ⟨later, stops⟩ := @ih (slPacket m v) (fun i => oproc (i + 1)) fun k member' =>
        valid k ((drained.trans packet).served.perm.mem_iff.mp member')
      refine ⟨(drained.trans packet).trans later, fun enough => stops ?_⟩
      rw [fast', slow']
      lia

structure SlSound (ring : Ringb) (tp : SlTty) : Prop where
  short : tp.short = false
  frames : ∃ out, Framed tp.sent out ∧ tp.line ++ tp.tOut.contents = ring.contents ++ out
  valid : ∀ m ∈ tp.queues.all, SlValid m

theorem slOpened_sound (ring : Ringb) : SlSound ring (slOpened ring) :=
  ⟨rfl, ⟨[], .nil, (List.append_nil _).symm⟩, fun _ member => absurd member List.not_mem_nil⟩

theorem Advances.sound {ring : Ringb} {u : SlTty} (sound : SlSound ring tp)
    (advances : Advances tp u) :
    SlSound ring u where
  short := advances.short.trans sound.short
  frames := by
    obtain ⟨out, framed, line⟩ := sound.frames
    obtain ⟨ms, tail, sent, framed', line'⟩ := advances.frames
    refine ⟨out ++ tail, ?_, ?_⟩
    · rw [sent]
      exact framed.append framed'
    · rw [line', line, List.append_assoc]
  valid m member := sound.valid m (advances.served.perm.mem_iff.mp member)

theorem slEvent_sound {ring : Ringb} (event : SlEvent)
    (valid : ∀ fast m, event = .output fast m → SlValid m) (sound : SlSound ring tp) :
    SlSound ring (slEvent tp event) ∧
      Queues.Step tp.queues event.queued (slEvent tp event).queues := by
  cases event with
  | output fast m =>
    have perm := Queues.put_perm tp.queues (some (fast, m))
    have queues : (slEvent tp (.output fast m)).queues = tp.queues.put (some (fast, m)) := by
      cases fast with
      | true => rfl
      | false => rfl
    have rest : (slEvent tp (.output fast m)).short = tp.short ∧
        (slEvent tp (.output fast m)).sent = tp.sent ∧
        (slEvent tp (.output fast m)).line = tp.line ∧
          (slEvent tp (.output fast m)).tOut = tp.tOut := by
      cases fast with
      | true => exact ⟨rfl, rfl, rfl, rfl⟩
      | false => exact ⟨rfl, rfl, rfl, rfl⟩
    obtain ⟨short, sent, line, out⟩ := rest
    refine ⟨⟨short.trans sound.short, ?_, fun k member => ?_⟩, ?_⟩
    · rw [sent, line, out]
      exact sound.frames
    · rw [queues, perm.mem_iff, List.mem_append] at member
      rcases member with before | new
      · exact sound.valid k before
      · rw [List.mem_singleton.mp new]
        exact valid fast m rfl
    · rw [queues]
      exact .refl _
  | drain n =>
    obtain ⟨advances, -⟩ := slDrain_advances n tp
    exact ⟨advances.sound sound, advances.served⟩
  | start oproc =>
    obtain ⟨advances, -⟩ := slstartLoop_spec _ oproc sound.valid
    exact ⟨advances.sound sound, advances.served⟩

theorem slEvents_sound {ring : Ringb} (events : List SlEvent)
    (valid : ∀ fast m, .output fast m ∈ events → SlValid m) (sound : SlSound ring tp) :
    SlSound ring (events.foldl slEvent tp) ∧
      Run Queues.Step tp.queues (events.map SlEvent.queued) (events.foldl slEvent tp).queues := by
  induction events generalizing tp with
  | nil => exact ⟨sound, .nil _⟩
  | cons event events ih =>
    obtain ⟨first, step⟩ := slEvent_sound event
      (fun fast m same => valid fast m (same ▸ List.mem_cons_self)) sound
    obtain ⟨last, steps⟩ := ih (fun fast m member => valid fast m (List.mem_cons_of_mem _ member))
      first
    exact ⟨last, .cons step steps⟩

end Sender

section Receiver

variable {Comp : Type} {NBPFILTER : Nat}
    {uncompress : List Char8 → Char8 → Comp → List Char8 × Comp}
  {sc : SlSoftc Comp}

def SlLine.Clear (line : SlLine) : Prop :=
  (line.carrOn = true ∨ line.clocal = true) ∧ line.mbufs = true ∧ line.clusters = true ∧
    line.qfull = false

instance (line : SlLine) : Decidable line.Clear := inferInstanceAs (Decidable (_ ∧ _))

def slClear : SlLine := ⟨true, true, true, true, false⟩

theorem slinput_clear {line : SlLine} (clear : line.Clear) (c : BitVec 32) (sc : SlSoftc Comp) :
    slinput NBPFILTER uncompress line c sc = slinput NBPFILTER uncompress slClear c sc := by
  obtain ⟨carrOn, clocal, mbufs, clusters, qfull⟩ := line
  obtain ⟨carrier, rfl, rfl, rfl⟩ := clear
  have there : ¬ (carrOn = false ∧ clocal = false) := by
    rintro ⟨rfl, rfl⟩
    rcases carrier with on | on <;> cases on
  have also : ¬ (slClear.carrOn = false ∧ slClear.clocal = false) := by decide
  simp only [slinput, there, also]
  rfl

/-- A `FRAME_END` without a line error leaves nothing of what came before it. -/
theorem slinput_frameEnd {line : SlLine} (carrier : line.carrOn = true ∨ line.clocal = true) :
    let after := slinput NBPFILTER uncompress line (FRAME_END.setWidth 32) sc
    after.scBuf = [] ∧ after.scEscape = false ∧ after.scError = false := by
  have line_error :
      ¬ (FRAME_END.setWidth 32 &&& TTY_ERRORMASK ≠ 0 ∨ line.carrOn = false ∧
      line.clocal = false) := by
    rcases carrier with on | on <;> simp [on] <;> decide
  have code : FRAME_END.setWidth 32 ≠ FRAME_ESCAPE.setWidth 32 := by decide
  dsimp only
  rw [slinput, if_neg line_error, if_neg code, if_pos rfl]
  unfold slFrameEnd
  split
  · exact ⟨rfl, rfl, rfl⟩
  · rename_i noError
    have unmarked : sc.scError = false := by simpa using noError
    have same : (slPacketIn uncompress sc).2.scError = false := by
      unfold slPacketIn
      dsimp only
      split_ifs <;> exact unmarked
    split
    · exact ⟨rfl, rfl, unmarked⟩
    · split
      · rename_i rest packet
        rw [packet] at same
        exact ⟨rfl, rfl, same⟩
      · rename_i data rest packet
        rw [packet] at same
        split
        · exact ⟨rfl, rfl, same⟩
        · refine ⟨rfl, rfl, ?_⟩
          simp only [slNewpack]
          split <;> exact same

variable (NBPFILTER uncompress) in
/-- `slinput` on a character that arrives without trouble. -/
def slRecv (sc : SlSoftc Comp) (c : Char8) : SlSoftc Comp :=
  slinput NBPFILTER uncompress slClear (c.setWidth 32) sc

def slTake (sc : SlSoftc Comp) (c : Char8) :
    SlSoftc Comp := { sc with scBuf := sc.scBuf ++ [c], scEscape := false }

theorem setWidth_inj {c d : Char8} : c.setWidth 32 = d.setWidth 32 ↔ c = d := by
  constructor
  · intro same
    have back := congrArg (BitVec.setWidth 8) same
    simpa using back
  · exact congrArg _

theorem no_error (c : Char8) : c.setWidth 32 &&& TTY_ERRORMASK = 0 := by
  revert c
  decide +kernel

theorem slRecv_plain (c : Char8) (plain : ¬ (c = FRAME_ESCAPE ∨ c = FRAME_END))
    (unescaped : sc.scEscape = false) (room : sc.scBuf.length < SLMAX NBPFILTER) :
      slRecv NBPFILTER uncompress sc c = slTake sc c := by
  rw [not_or] at plain
  simp only [slRecv, slinput, no_error, setWidth_inj, plain.1, plain.2, unescaped, slTake]
  simp [slClear, room]

theorem slRecv_escaped (c : Char8) (special : c = FRAME_ESCAPE ∨ c = FRAME_END)
    (room : sc.scBuf.length < SLMAX NBPFILTER) :
    slRecv NBPFILTER uncompress (slRecv NBPFILTER uncompress sc FRAME_ESCAPE)
      (if c = FRAME_ESCAPE then TRANS_FRAME_ESCAPE else TRANS_FRAME_END) = slTake sc c := by
  have escape : slRecv NBPFILTER uncompress sc FRAME_ESCAPE = { sc with scEscape := true } := by
    simp [slRecv, slinput, no_error, slClear]
  rw [escape]
  rcases special with rfl | rfl
  · rw [if_pos rfl]
    simp only [slRecv, slinput, no_error, setWidth_inj]
    simp [slClear, room, slTake, TRANS_FRAME_ESCAPE, FRAME_ESCAPE, FRAME_END]
  · rw [if_neg (by decide)]
    simp only [slRecv, slinput, no_error, setWidth_inj]
    simp [slClear, room, slTake, TRANS_FRAME_ESCAPE, TRANS_FRAME_END, FRAME_ESCAPE, FRAME_END]

theorem foldl_slTake (l : List Char8) (unescaped : sc.scEscape = false) :
    l.foldl slTake sc = { sc with scBuf := sc.scBuf ++ l } := by
  induction l generalizing sc with
  | nil => simp
  | cons c l ih =>
    rw [List.foldl_cons, ih rfl]
    simp [slTake, unescaped]

theorem foldl_slStuff (l : List Char8) (unescaped : sc.scEscape = false)
    (room : sc.scBuf.length + l.length ≤ SLMAX NBPFILTER) :
    (slStuff l).foldl (slRecv NBPFILTER uncompress) sc = { sc with scBuf := sc.scBuf ++ l } := by
  rw [← foldl_slTake l unescaped]
  apply foldl_stuff (P := fun l s => s.scEscape = false ∧
    s.scBuf.length + l.length ≤ SLMAX NBPFILTER)
  · rintro s c l ⟨unescaped, room⟩ plain
    rw [List.length_cons] at room
    exact slRecv_plain c (of_decide_eq_false plain) unescaped (by lia)
  · rintro s c l ⟨-, room⟩ special
    rw [List.length_cons] at room
    exact slRecv_escaped c (of_decide_eq_true special) (by lia)
  · rintro s c l ⟨-, room⟩
    rw [List.length_cons] at room
    refine ⟨rfl, ?_⟩
    simp only [slTake, List.length_append, List.length_singleton]
    lia
  · exact ⟨unescaped, room⟩

def SlSoftc.Fresh (sc : SlSoftc Comp) : Prop :=
  sc.scBuf = [] ∧ sc.scEscape = false ∧ sc.scError = false

theorem slRecv_lead {lead : List Char8} (extra : lead = [] ∨ lead = [FRAME_END])
    (fresh : sc.Fresh) :
    lead.foldl (slRecv NBPFILTER uncompress) sc = sc := by
  obtain ⟨buf, escape, error⟩ := fresh
  rcases extra with rfl | rfl
  · rfl
  · simp only [List.foldl_cons, List.foldl_nil, slRecv, slinput, no_error, setWidth_inj, slFrameEnd,
      error]
    obtain ⟨_, _, _, _, _, _, _⟩ := sc
    cases buf
    cases escape
    rfl

theorem slFrameEnd_packet (long : 3 ≤ sc.scBuf.length)
    (version : sc.scBuf.headD 0 &&& 0xf0 = IPVERSION <<< 4) (error : sc.scError = false) :
      slFrameEnd uncompress slClear sc =
      slNewpack { sc with ipintrq := sc.ipintrq ++ [sc.scBuf] } := by
  have ip : slPacketIn uncompress sc = (some sc.scBuf, sc) := if_neg (not_not.mpr version)
  rw [slFrameEnd, if_neg (by simp [error]), if_neg (not_lt.mpr long), ip]
  simp [slBtom, slClear]

theorem slRecv_packet {m : SlPacket} (valid : SlValid m) (fresh : sc.Fresh) :
    (slStuff m.flatten ++ [FRAME_END]).foldl (slRecv NBPFILTER uncompress) sc =
      { sc with ipintrq := sc.ipintrq ++ [m.flatten] } := by
  obtain ⟨long, short, version⟩ := valid
  obtain ⟨buf, escape, error⟩ := fresh
  have limit : SLMTU ≤ SLMAX NBPFILTER := by
    unfold SLMTU SLMAX BUFOFFSET MCLBYTES SLIP_HDRLEN
    split <;> omega
  rw [List.foldl_append, foldl_slStuff _ escape (by rw [buf, List.length_nil]; omega), buf,
    List.nil_append, List.foldl_cons, List.foldl_nil, slRecv, slinput,
    if_neg (by simp [no_error, slClear]), if_neg (by decide), if_pos rfl]
  refine (@slFrameEnd_packet _ _ { sc with scBuf := m.flatten } long version error).trans ?_
  simp only [slNewpack]
  obtain ⟨_, _, _, _, _, _, _⟩ := sc
  cases buf
  cases escape
  rfl

theorem slRecv_framed {ms : List SlPacket} {out : List Char8} (framed : Framed ms out)
    (valid : ∀ m ∈ ms, SlValid m) (fresh : sc.Fresh) :
    out.foldl (slRecv NBPFILTER uncompress) sc =
      { sc with ipintrq := sc.ipintrq ++ ms.map List.flatten } := by
  induction framed generalizing sc with
  | nil => simp
  | cons m lead extra rest ih =>
    obtain ⟨first, others⟩ := List.forall_mem_cons.mp valid
    rw [List.append_assoc lead, List.foldl_append, List.foldl_append, slRecv_lead extra fresh,
      slRecv_packet first fresh, @ih { sc with ipintrq := sc.ipintrq ++ [m.flatten] } others fresh]
    simp

theorem slReceive_clear {arrivals : List (SlLine × BitVec 32)} {out : List Char8}
    (clear : ∀ arrival ∈ arrivals, arrival.1.Clear)
    (same : arrivals.map Prod.snd = out.map (BitVec.setWidth 32)) (sc : SlSoftc Comp) :
    slReceive NBPFILTER uncompress arrivals sc = out.foldl (slRecv NBPFILTER uncompress) sc := by
  induction out generalizing arrivals sc with
  | nil =>
    rw [List.map_nil, List.map_eq_nil_iff] at same
    rw [same]
    rfl
  | cons c out ih =>
    cases arrivals with
    | nil => cases same
    | cons arrival arrivals =>
      rw [List.map_cons, List.map_cons, List.cons.injEq] at same
      obtain ⟨first, others⟩ := List.forall_mem_cons.mp clear
      rw [slReceive, List.foldl_cons, slinput_clear first, same.1]
      exact ih others same.2 _

/-- Whatever the ring held when the line was opened, `slstart` takes the packets in the order in
which they were queued, the fast queue first, until none is left or there is enough in the ring. It
writes each in full, and a receiver that has seen a `FRAME_END` after any garbage delivers them and
no more. -/
theorem slip_round_trip (NBPFILTER : Nat)
    (uncompress : List Char8 → Char8 → Comp → List Char8 × Comp) (ring : Ringb)
    (events : List SlEvent) (valid : ∀ fast m, .output fast m ∈ events → SlValid m)
    (sc : SlSoftc Comp) (garbage : List (SlLine × BitVec 32)) (line : SlLine)
    (carrier : line.carrOn = true ∨ line.clocal = true) :
    let tp := events.foldl slEvent (slOpened ring)
    let ended := slReceive NBPFILTER uncompress (garbage ++ [(line, FRAME_END.setWidth 32)]) sc
    tp.short = false ∧ Run Queues.Step .empty (events.map SlEvent.queued) tp.queues ∧
      (∀ oproc, (slstart oproc tp).Served) ∧
      ∃ out, tp.line ++ tp.tOut.contents = ring.contents ++ out ∧
        ∀ arrivals : List (SlLine × BitVec 32), (∀ arrival ∈ arrivals, arrival.1.Clear) →
          arrivals.map Prod.snd = out.map (BitVec.setWidth 32) →
          slReceive NBPFILTER uncompress arrivals ended =
            { ended with ipintrq := ended.ipintrq ++ tp.sent.map List.flatten } := by
  intro tp ended
  obtain ⟨⟨short, ⟨out, framed, written⟩, queued⟩, steps⟩ :=
    slEvents_sound events valid (slOpened_sound ring)
  refine ⟨short, steps, fun oproc => (slstartLoop_spec _ oproc queued).2 (Nat.lt_succ_self _), out,
    written, fun arrivals clear same => ?_⟩
  have fresh : ended.Fresh := by
    simp only [ended, slReceive, List.foldl_append, List.foldl_cons, List.foldl_nil]
    exact slinput_frameEnd carrier
  rw [slReceive_clear clear same]
  refine slRecv_framed framed (fun m member => queued m ?_) fresh
  exact List.mem_append_left _ (List.mem_append_left _ member)

/-- A packet of the fast queue goes before one with the two frame characters, which was there first;
the receiver comes from a broken character and a stray escape. -/
theorem slip_round_trip_frame : ∃ out,
    let tp := [SlEvent.output false [[0x45, 0xc0], [], [0xdb]], .output true [[0x45, 1, 2]],
      .start fun _ => 0].foldl slEvent (slOpened (initrb fun _ => 0))
    let ended := slReceive 0 (fun data _ (comp : Unit) => (data, comp))
      ([(slClear, 0x01000045), (slClear, 0xdb)] ++ [(slClear, FRAME_END.setWidth 32)])
      ⟨[], false, false, false, false, (), []⟩
    tp.sent = [[[0x45, 1, 2]], [[0x45, 0xc0], [], [0xdb]]] ∧
      tp.line ++ tp.tOut.contents = (initrb fun _ => 0).contents ++ out ∧
      slReceive 0 (fun data _ (comp : Unit) => (data, comp)) (out.map fun c => (slClear,
        c.setWidth 32)) ended =
        { ended with ipintrq := ended.ipintrq ++ [[0x45, 1, 2], [0x45, 0xc0, 0xdb]] } := by
  obtain ⟨-, -, -, out, written, received⟩ :=
    slip_round_trip 0 (fun data _ (comp : Unit) => (data, comp))
      (initrb fun _ => 0) [.output false [[0x45, 0xc0], [], [0xdb]], .output true [[0x45, 1, 2]],
        .start fun _ => 0]
    (fun fast m member => by
      simp only [List.mem_cons, SlEvent.output.injEq, reduceCtorEq, List.not_mem_nil,
        or_false] at member
      rcases member with ⟨-, rfl⟩ | ⟨-, rfl⟩
      · decide
      · decide)
    ⟨[], false, false, false, false, (), []⟩ [(slClear, 0x01000045), (slClear, 0xdb)] slClear
      (.inl rfl)
  refine ⟨out, by decide, written, received _ (fun arrival member => ?_) ?_⟩
  · obtain ⟨c, -, rfl⟩ := List.mem_map.mp member
    exact of_decide_eq_true rfl
  · rw [List.map_map]
    rfl

end Receiver

end FreeBsd.Net
