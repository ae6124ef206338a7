import FreeBsd.Lib.Queues
import FreeBsd.Lib.Stuffing
import FreeBsd.Kern.TtyRing

/-! The output side of a PPP line. `pppstart` writes as much of a packet as the output ring of the
tty takes, and goes on from there when it is called again. -/
namespace FreeBsd.Net

open FreeBsd.Lib FreeBsd.Kern

section Constants

def PPP_HEADER_LEN : Nat := 4
def PPP_FCS_LEN : Nat := 2
def PPP_ALLSTATIONS : Char8 := 0xff
def PPP_UI : Char8 := 0x03
def PPP_FLAG : Char8 := 0x7e
def PPP_ESCAPE : Char8 := 0x7d
def PPP_TRANS : Char8 := 0x20
def PPP_IP : BitVec 16 := 0x21
def PPP_VJC_COMP : BitVec 16 := 0x2d
def PPP_VJC_UNCOMP : BitVec 16 := 0x2f
def PPP_LCP : BitVec 16 := 0xc021
def PPP_INITFCS : BitVec 16 := 0xffff
def PPP_GOODFCS : BitVec 16 := 0xf0b8
def PPP_MRU : Nat := 1500
def PPP_MAXMRU : Nat := 65000
def PPP_HIWAT : Nat := 400

def fcstab : List (BitVec 16) := [
  0x0000, 0x1189, 0x2312, 0x329b, 0x4624, 0x57ad, 0x6536, 0x74bf, 0x8c48, 0x9dc1, 0xaf5a, 0xbed3,
  0xca6c, 0xdbe5, 0xe97e, 0xf8f7, 0x1081, 0x0108, 0x3393, 0x221a, 0x56a5, 0x472c, 0x75b7, 0x643e,
  0x9cc9, 0x8d40, 0xbfdb, 0xae52, 0xdaed, 0xcb64, 0xf9ff, 0xe876, 0x2102, 0x308b, 0x0210, 0x1399,
  0x6726, 0x76af, 0x4434, 0x55bd, 0xad4a, 0xbcc3, 0x8e58, 0x9fd1, 0xeb6e, 0xfae7, 0xc87c, 0xd9f5,
  0x3183, 0x200a, 0x1291, 0x0318, 0x77a7, 0x662e, 0x54b5, 0x453c, 0xbdcb, 0xac42, 0x9ed9, 0x8f50,
  0xfbef, 0xea66, 0xd8fd, 0xc974, 0x4204, 0x538d, 0x6116, 0x709f, 0x0420, 0x15a9, 0x2732, 0x36bb,
  0xce4c, 0xdfc5, 0xed5e, 0xfcd7, 0x8868, 0x99e1, 0xab7a, 0xbaf3, 0x5285, 0x430c, 0x7197, 0x601e,
  0x14a1, 0x0528, 0x37b3, 0x263a, 0xdecd, 0xcf44, 0xfddf, 0xec56, 0x98e9, 0x8960, 0xbbfb, 0xaa72,
  0x6306, 0x728f, 0x4014, 0x519d, 0x2522, 0x34ab, 0x0630, 0x17b9, 0xef4e, 0xfec7, 0xcc5c, 0xddd5,
  0xa96a, 0xb8e3, 0x8a78, 0x9bf1, 0x7387, 0x620e, 0x5095, 0x411c, 0x35a3, 0x242a, 0x16b1, 0x0738,
  0xffcf, 0xee46, 0xdcdd, 0xcd54, 0xb9eb, 0xa862, 0x9af9, 0x8b70, 0x8408, 0x9581, 0xa71a, 0xb693,
  0xc22c, 0xd3a5, 0xe13e, 0xf0b7, 0x0840, 0x19c9, 0x2b52, 0x3adb, 0x4e64, 0x5fed, 0x6d76, 0x7cff,
  0x9489, 0x8500, 0xb79b, 0xa612, 0xd2ad, 0xc324, 0xf1bf, 0xe036, 0x18c1, 0x0948, 0x3bd3, 0x2a5a,
  0x5ee5, 0x4f6c, 0x7df7, 0x6c7e, 0xa50a, 0xb483, 0x8618, 0x9791, 0xe32e, 0xf2a7, 0xc03c, 0xd1b5,
  0x2942, 0x38cb, 0x0a50, 0x1bd9, 0x6f66, 0x7eef, 0x4c74, 0x5dfd, 0xb58b, 0xa402, 0x9699, 0x8710,
  0xf3af, 0xe226, 0xd0bd, 0xc134, 0x39c3, 0x284a, 0x1ad1, 0x0b58, 0x7fe7, 0x6e6e, 0x5cf5, 0x4d7c,
  0xc60c, 0xd785, 0xe51e, 0xf497, 0x8028, 0x91a1, 0xa33a, 0xb2b3, 0x4a44, 0x5bcd, 0x6956, 0x78df,
  0x0c60, 0x1de9, 0x2f72, 0x3efb, 0xd68d, 0xc704, 0xf59f, 0xe416, 0x90a9, 0x8120, 0xb3bb, 0xa232,
  0x5ac5, 0x4b4c, 0x79d7, 0x685e, 0x1ce1, 0x0d68, 0x3ff3, 0x2e7a, 0xe70e, 0xf687, 0xc41c, 0xd595,
  0xa12a, 0xb0a3, 0x8238, 0x93b1, 0x6b46, 0x7acf, 0x4854, 0x59dd, 0x2d62, 0x3ceb, 0x0e70, 0x1ff9,
  0xf78f, 0xe606, 0xd49d, 0xc514, 0xb1ab, 0xa022, 0x92b9, 0x8330, 0x7bc7, 0x6a4e, 0x58d5, 0x495c,
  0x3de3, 0x2c6a, 0x1ef1, 0x0f78]

end Constants

section Frame

def PPP_FCS (fcs : BitVec 16) (c : Char8) : BitVec 16 :=
  fcs >>> 8 ^^^ fcstab.getD ((fcs ^^^ c.setWidth 16) &&& 0xff).toNat 0

def pppfcs (fcs : BitVec 16) (cp : List Char8) : BitVec 16 := cp.foldl PPP_FCS fcs

/-- What the sender is set to: `sc_asyncmap`, `SC_COMP_AC` and `SC_COMP_PROT`. -/
structure PppMode where
  scAsyncmap : BitVec 32
  compAc : Bool
  compProt : Bool

variable (mode : PppMode)

def escapeP (c : Char8) : Bool :=
  c = PPP_FLAG || c = PPP_ESCAPE || c.toNat < 0x20 && mode.scAsyncmap.getLsbD c.toNat

/-- A packet on a queue, as the bytes of each of its mbufs; the first starts with the header. -/
abbrev PppPacket := List (List Char8)

def pppCompress : PppPacket → List Char8 × List (List Char8)
  | (address :: control :: hi :: lo :: data) :: rest =>
    let protocol : BitVec 16 := hi ++ lo
    let compac := mode.compAc ∧ address = PPP_ALLSTATIONS ∧ control = PPP_UI ∧
      protocol ≠ PPP_ALLSTATIONS.setWidth 16 ∧ protocol ≠ PPP_LCP
    let compprot := mode.compProt ∧ protocol < 0x100
    ((if compac then [] else [address, control]) ++ (if compprot then [lo] else [hi, lo]) ++ data,
      rest)
  | m => (m.headD [], m.tail)

def pppEscape (c : Char8) :
    List Char8 := if escapeP mode c then [PPP_ESCAPE, c ^^^ PPP_TRANS] else [c]

def pppEndseq (outfcs : BitVec 16) : List Char8 :=
  pppEscape mode ((~~~outfcs).setWidth 8) ++ pppEscape mode ((~~~outfcs >>> 8).setWidth 8) ++
    [PPP_FLAG]

end Frame

section Output

/-- The line in its output half. `scOutm` is the mbuf that is partly sent and those after it; `line`
is what the driver has taken from the ring and `taken` the packets taken from the queues. -/
structure PppTty where
  tOut : Ringb
  scFastq : List PppPacket
  ifSnd : List PppPacket
  scOutm : Option (List Char8 × List (List Char8))
  scOutfcs : BitVec 16
  line : List Char8
  taken : List PppPacket

variable (mode : PppMode)

/-- The loop with `RB_CONTIGPUT`: what is left of the data, and the ring. -/
def pppCopy : Nat → List Char8 → Ringb → List Char8 × Ringb
  | 0, data, out => (data, out)
  | fuel + 1, data, out =>
    if data = [] then (data, out)
    else
      let cc := rbContigput out.hd out.tl
      if cc = 0 then (data, out)
      else
        let cc := min cc data.length
        pppCopy fuel (data.drop cc)
          { out with buf := bcopy (data.take cc) out.tl out.buf, tl := rbRollover (out.tl + cc),
                     tl_lt := rbRollover_lt _ }

/-- The characters of one mbuf; `run` holds those between `start` and `cp`. What is left of the mbuf
when the ring is full, and the ring. -/
def pppMbuf : List Char8 → List Char8 → Ringb → List Char8 × Ringb
  | [], run, out => pppCopy run.length run out
  | c :: rest, run, out =>
    if escapeP mode c then
      let (left, out) := pppCopy run.length run out
      if left ≠ [] then (left ++ c :: rest, out)
      else
        let (full, out) := putc PPP_ESCAPE.toNat out
        if full ≠ 0 then (c :: rest, out)
        else
          let (full, out) := putc (c ^^^ PPP_TRANS).toNat out
          if full ≠ 0 then (c :: rest, (unputc out).2)
          else pppMbuf rest [] out
    else pppMbuf rest (run ++ [c]) out

def pppUnput : Nat → Ringb → Ringb
  | 0, out => out
  | n + 1, out => pppUnput n (unputc out).2

/-- The characters of `endseq`, of which `n` are in the ring, or none of them. -/
def pppTrailer : List Char8 → Nat → Ringb → Bool × Ringb
  | [], _, out => (true, out)
  | q :: rest, n, out =>
    let (full, out) := putc q.toNat out
    if full ≠ 0 then (false, pppUnput n out) else pppTrailer rest (n + 1) out

/-- The mbufs of a packet from `m` on: `sc_outm` and `sc_outfcs` afterwards, and the ring. -/
def pppChain : List (List Char8) → List Char8 → BitVec 16 → Ringb →
    Option (List Char8 × List (List Char8)) × BitVec 16 × Ringb
  | [], m, outfcs, out =>
    let (left, out) := pppMbuf mode m [] out
    if left ≠ [] then (some (left, []), outfcs, out)
    else
      let (done, out) := pppTrailer (pppEndseq mode outfcs) 0 out
      (if done then none else some ([], []), outfcs, out)
  | m2 :: rest, m, outfcs, out =>
    let (left, out) := pppMbuf mode m [] out
    if left ≠ [] then (some (left, m2 :: rest), outfcs, out)
    else pppChain rest m2 (pppfcs outfcs m2) out

def pppDrain : Nat → PppTty → PppTty
  | 0, tp => tp
  | n + 1, tp =>
    let (c, out) := getc tp.tOut
    if c < 0 then tp
    else pppDrain n { tp with tOut := out, line := tp.line ++ [BitVec.ofInt 8 c] }

def pppDequeue (tp : PppTty) : Option (PppPacket × PppTty) :=
  match tp.scFastq, tp.ifSnd with
  | m :: rest, _ => some (m, { tp with scFastq := rest, taken := tp.taken ++ [m] })
  | [], m :: rest => some (m, { tp with ifSnd := rest, taken := tp.taken ++ [m] })
  | [], [] => none

/-- A packet becomes the one that is sent, with a flag in front when the line may have been idle. -/
def pppBegin (m : PppPacket) (tp : PppTty) : PppTty :=
  let (first, rest) := pppCompress mode m
  { tp with
    tOut := if rbLen tp.tOut.hd tp.tOut.tl = 0 then (putc PPP_FLAG.toNat tp.tOut).2 else tp.tOut
    scOutm := some (first, rest)
    scOutfcs := pppfcs PPP_INITFCS first }

def pppSend (tp : PppTty) : PppTty :=
  match tp.scOutm with
  | none => tp
  | some (m, rest) =>
    let (outm, outfcs, out) := pppChain mode rest m tp.scOutfcs tp.tOut
    { tp with tOut := out, scOutm := outm, scOutfcs := outfcs }

/-- `pppstart`, for a line whose driver takes `oproc i` characters at its `i`th call; `fuel` bounds
the packets there are. -/
def pppstartLoop : Nat → (Nat → Nat) → PppTty → PppTty
  | 0, _, tp => tp
  | fuel + 1, oproc, tp =>
    let tp := if rbLen tp.tOut.hd tp.tOut.tl ≠ 0 then pppDrain (oproc 0) tp else tp
    if rbLen tp.tOut.hd tp.tOut.tl > PPP_HIWAT then tp
    else
      let begun := if tp.scOutm.isSome then some tp else (pppDequeue tp).map fun (m, tp) =>
        pppBegin mode m tp
      match begun with
      | none => tp
      | some tp =>
        let tp := pppSend mode tp
        if tp.scOutm.isSome then pppDrain (oproc 1) tp
        else pppstartLoop fuel (fun i => oproc (i + 2)) tp

def pppstart (oproc : Nat → Nat) (tp : PppTty) : PppTty :=
  pppstartLoop mode (tp.scFastq.length + tp.ifSnd.length + 2) oproc tp

/-- The packet that `pppoutput` makes; `leading` is whether the first mbuf has room for the header.
-/
def pppHeader (leading : Bool) (address control : Char8) (protocol : BitVec 16)
    (m0 : List (List Char8)) : PppPacket :=
  let header := [address, control, (protocol >>> 8).setWidth 8, protocol.setWidth 8]
  if leading then (header ++ m0.headD []) :: m0.tail else header :: m0

/-- What can happen to the output half: `pppoutput` queues a packet and starts output, the driver
takes characters, or it asks for more. -/
inductive PppEvent where
  | output (fast : Bool) (m : PppPacket) (oproc : Nat → Nat)
  | drain (n : Nat)
  | start (oproc : Nat → Nat)

def pppEvent (tp : PppTty) : PppEvent → PppTty
  | .output true m oproc => pppstart mode oproc { tp with scFastq := tp.scFastq ++ [m] }
  | .output false m oproc => pppstart mode oproc { tp with ifSnd := tp.ifSnd ++ [m] }
  | .drain n => pppDrain n tp
  | .start oproc => pppstart mode oproc tp

def PppEvent.put : PppEvent → Option (Bool × PppPacket)
  | .output fast m _ => some (fast, m)
  | .drain _ | .start _ => none

def PppEvent.queued (event : PppEvent) : List PppPacket := (event.put.map Prod.snd).toList

def PppTty.queues (tp : PppTty) : Queues PppPacket := ⟨tp.scFastq, tp.ifSnd, tp.taken⟩

def PppTty.Done (tp : PppTty) : Prop := tp.scOutm = none ∧ tp.scFastq = [] ∧ tp.ifSnd = []

instance (tp : PppTty) : Decidable tp.Done := inferInstanceAs (Decidable (_ ∧ _))

def pppIdle (ring : Ringb) : PppTty := ⟨ring, [], [], none, 0, [], []⟩

def PppTty.sent (tp : PppTty) : List PppPacket :=
  if tp.scOutm.isSome then tp.taken.dropLast else tp.taken

end Output

section Frames

variable (mode : PppMode)

def pppStuff (l : List Char8) :
    List Char8 := stuff (escapeP mode) PPP_ESCAPE (fun c => c ^^^ PPP_TRANS) l

theorem pppStuff_append (l k : List Char8) :
    pppStuff mode (l ++ k) = pppStuff mode l ++ pppStuff mode k :=
  stuff_append l k

def pppPending (outfcs : BitVec 16) : Option (List Char8 × List (List Char8)) → List Char8
  | none => []
  | some (m, rest) => pppStuff mode (m ++ rest.flatten) ++ pppEndseq mode
    (pppfcs outfcs rest.flatten)

def pppOctets (m : PppPacket) :
    List Char8 := (pppCompress mode m).1 ++ (pppCompress mode m).2.flatten

def pppWire (m : PppPacket) : List Char8 :=
  pppStuff mode (pppOctets mode m) ++ pppEndseq mode (pppfcs PPP_INITFCS (pppOctets mode m))

/-- The characters of some packets on the line, each with maybe a flag in front. -/
inductive PppFramed : List PppPacket → List Char8 → Prop where
  | nil : PppFramed [] []
  | cons {ms : List PppPacket} {out : List Char8} (m : PppPacket) (lead : List Char8)
      (extra : lead = [] ∨ lead = [PPP_FLAG]) (rest : PppFramed ms out) :
      PppFramed (m :: ms) (lead ++ pppWire mode m ++ out)

variable {mode}

theorem PppFramed.append {ms ks : List PppPacket} {out tail : List Char8}
    (first : PppFramed mode ms out) (second : PppFramed mode ks tail) :
      PppFramed mode (ms ++ ks) (out ++ tail) := by
  induction first with
  | nil => exact second
  | cons m lead extra rest ih =>
    rw [List.append_assoc]
    exact .cons m lead extra ih

end Frames

section Ring

variable {mode : PppMode} {data run : List Char8} {out : Ringb}

theorem putc_char (c : Char8) (out : Ringb) :
    (putc c.toNat out).1 = 0 ∧ (putc c.toNat out).2.contents = out.contents ++ [c] ∨
      (putc c.toNat out).1 ≠ 0 ∧ (putc c.toNat out).2.contents = out.contents := by
  obtain ⟨value, contents⟩ := putc_spec c.toNat out
  rw [show BitVec.ofInt 8 c.toNat = c by simp] at contents
  split at contents
  · rename_i room
    rw [if_pos room] at value
    exact .inl ⟨value, contents⟩
  · rename_i full
    rw [if_neg full] at value
    exact .inr ⟨by rw [value]; decide, contents⟩

theorem unputc_contents {l : List Char8} {c : Char8} (last : out.contents = l ++ [c]) :
    (unputc out).2.contents = l := by
  rcases unputc_spec out with ⟨empty, -⟩ | ⟨d, -, contents⟩
  · rw [empty] at last
    exact absurd last.symm (List.append_ne_nil_of_right_ne_nil _ (List.cons_ne_nil _ _))
  · rw [last] at contents
    exact (List.append_inj_left' contents rfl).symm

theorem pppCopy_spec (fuel : Nat) (data : List Char8) (out : Ringb) :
    ∃ done, data = done ++ (pppCopy fuel data out).1 ∧
      (pppCopy fuel data out).2.contents = out.contents ++ done := by
  induction fuel generalizing data out with
  | zero => exact ⟨[], rfl, (List.append_nil _).symm⟩
  | succ fuel ih =>
    rw [pppCopy]
    split
    · exact ⟨[], rfl, (List.append_nil _).symm⟩
    dsimp only
    split
    · exact ⟨[], rfl, (List.append_nil _).symm⟩
    have hd_lt := out.hd_lt
    have tl_lt := out.tl_lt
    have place := @rbContigput_cases out.hd _ tl_lt
    have length := rbLen_cases out.hd out.tl
    have room :
        rbLen out.hd out.tl + (data.take (min (rbContigput out.hd out.tl) data.length)).length ≤
        RBSZ - 1 := by
      rw [List.length_take]
      unfold RBSZ at *
      lia
    have tail : rbRollover (out.tl + min (rbContigput out.hd out.tl) data.length) =
        wrap RBSZ (out.tl + (data.take (min (rbContigput out.hd out.tl) data.length)).length) := by
      rw [List.length_take]
      unfold rbRollover wrap RBSZ at *
      split <;> split <;> lia
    obtain ⟨done, parts, contents⟩ := ih (data.drop (min (rbContigput out.hd out.tl) data.length))
      { out with
        buf := bcopy (data.take (min (rbContigput out.hd out.tl) data.length)) out.tl out.buf
        tl := rbRollover (out.tl + min (rbContigput out.hd out.tl) data.length)
        tl_lt := rbRollover_lt _ }
    refine ⟨data.take (min (rbContigput out.hd out.tl) data.length) ++ done, ?_, ?_⟩
    · rw [List.append_assoc, ← parts, List.take_append_drop]
    · rw [contents, ← List.append_assoc]
      congr 1
      refine contents_append out _ room rfl tail fun j _ => bcopy_put ?_ j
      rw [List.length_take]
      unfold RBSZ at *
      lia

/-- What went into the ring, with what is left of the mbuf, is the mbuf with its characters escaped.
-/
theorem pppMbuf_spec (data : List Char8) (out : Ringb) (plain : ∀ c ∈ run, escapeP mode c = false) :
    ∃ done, (pppMbuf mode data run out).2.contents = out.contents ++ done ∧
      done ++ pppStuff mode (pppMbuf mode data run out).1 = run ++ pppStuff mode data := by
  induction data generalizing run out with
  | nil =>
    obtain ⟨done, parts, contents⟩ := pppCopy_spec run.length run out
    refine ⟨done, contents, ?_⟩
    have left : ∀ c ∈ (pppCopy run.length run out).1, escapeP mode c = false := by
      intro c member
      exact plain c (by rw [parts]; exact List.mem_append_right _ member)
    rw [pppMbuf, pppStuff, stuff_plain left, ← parts]
    exact (List.append_nil run).symm
  | cons c rest ih =>
    rw [pppMbuf]
    split
    · rename_i special
      have split_c : pppStuff mode (c :: rest) = [PPP_ESCAPE, c ^^^ PPP_TRANS] ++
          pppStuff mode rest := by
        rw [pppStuff, stuff_cons, if_pos special]
        rfl
      obtain ⟨done, parts, contents⟩ := pppCopy_spec run.length run out
      dsimp only
      split
      · refine ⟨done, contents, ?_⟩
        have left : ∀ c ∈ (pppCopy run.length run out).1, escapeP mode c = false := by
          intro c member
          exact plain c (by rw [parts]; exact List.mem_append_right _ member)
        rw [pppStuff_append, ← List.append_assoc]
        conv_rhs => rw [parts]
        rw [show pppStuff mode (pppCopy run.length run out).1 = _ from stuff_plain left]
      · rename_i whole
        rw [not_not.mp whole, List.append_nil] at parts
        rw [← parts] at contents
        rcases putc_char PPP_ESCAPE (pppCopy run.length run out).2 with ⟨free, escape⟩ |
          ⟨full, same⟩
        · rw [if_neg (not_not.mpr free)]
          rcases putc_char (c ^^^ PPP_TRANS)
            (putc PPP_ESCAPE.toNat (pppCopy run.length run out).2).2 with
            ⟨free', second⟩ | ⟨full', same'⟩
          · rw [if_neg (not_not.mpr free')]
            obtain ⟨later, contents', parts'⟩ := @ih [] (putc (c ^^^ PPP_TRANS).toNat
              (putc PPP_ESCAPE.toNat (pppCopy run.length run out).2).2).2 (by simp)
            refine ⟨run ++ [PPP_ESCAPE, c ^^^ PPP_TRANS] ++ later, ?_, ?_⟩
            · rw [contents', second, escape, contents]
              simp
            · rw [List.append_assoc, parts', split_c, List.nil_append, List.append_assoc]
          · rw [if_pos full']
            refine ⟨run, ?_, rfl⟩
            rw [← contents]
            exact unputc_contents (same'.trans escape)
        · rw [if_pos full]
          exact ⟨run, same.trans contents, rfl⟩
    · rename_i usual
      have usual : escapeP mode c = false := by simpa using usual
      obtain ⟨done, contents, parts⟩ := @ih (run ++ [c]) out (by
        intro d member
        rcases List.mem_append.mp member with there | here
        · exact plain d there
        · rw [List.mem_singleton.mp here]
          exact usual)
      refine ⟨done, contents, ?_⟩
      rw [parts, pppStuff, pppStuff, stuff_cons, usual, List.append_assoc]
      rfl

theorem pppUnput_contents {l k : List Char8} (n : Nat) (out : Ringb) (length : k.length = n)
    (last : out.contents = l ++ k) : (pppUnput n out).contents = l := by
  induction n generalizing k out with
  | zero =>
    rw [List.length_eq_zero_iff.mp length, List.append_nil] at last
    exact last
  | succ n ih =>
    have nonempty : k ≠ [] := by
      rintro rfl
      cases length
    rw [← List.dropLast_append_getLast nonempty, ← List.append_assoc] at last
    exact ih (unputc out).2 (by rw [List.length_dropLast, length]; rfl) (unputc_contents last)

theorem pppTrailer_spec {l k : List Char8} (endseq : List Char8) (out : Ringb)
    (begun : out.contents = l ++ k) :
    (pppTrailer endseq k.length out).1 = true ∧
        (pppTrailer endseq k.length out).2.contents = l ++ (k ++ endseq) ∨
      (pppTrailer endseq k.length out).1 = false ∧
        (pppTrailer endseq k.length out).2.contents = l := by
  induction endseq generalizing k out with
  | nil =>
    rw [pppTrailer, List.append_nil]
    exact .inl ⟨rfl, begun⟩
  | cons q rest ih =>
    rw [pppTrailer]
    dsimp only
    rcases putc_char q out with ⟨free, contents⟩ | ⟨full, same⟩
    · rw [if_neg (not_not.mpr free)]
      rw [begun, List.append_assoc] at contents
      have later := ih _ contents
      rw [List.length_append, List.length_singleton, List.append_assoc] at later
      exact later
    · rw [if_pos full]
      exact .inr ⟨rfl, pppUnput_contents _ _ rfl (same.trans begun)⟩

/-- What `pppstart` writes of a packet, with what it still has to write, is what it had to write. -/
theorem pppChain_spec (rest : List (List Char8)) (m : List Char8) (outfcs : BitVec 16)
    (out : Ringb) :
    ∃ done, (pppChain mode rest m outfcs out).2.2.contents = out.contents ++ done ∧
      done ++ pppPending mode (pppChain mode rest m outfcs out).2.1
        (pppChain mode rest m outfcs out).1 =
        pppPending mode outfcs (some (m, rest)) := by
  induction rest generalizing m outfcs out with
  | nil =>
    obtain ⟨done, contents, parts⟩ := @pppMbuf_spec mode [] m out (by simp)
    rw [List.nil_append] at parts
    rw [pppChain]
    dsimp only
    split
    · refine ⟨done, contents, ?_⟩
      simp only [pppPending, List.flatten_nil, List.append_nil]
      rw [← List.append_assoc, parts]
    · rename_i whole
      rw [not_not.mp whole, show pppStuff mode [] = [] from rfl, List.append_nil] at parts
      have pending : pppPending mode outfcs (some (m, [])) = done ++ pppEndseq mode outfcs := by
        simp only [pppPending, List.flatten_nil, List.append_nil, parts]
        rfl
      rw [pending]
      have begun : (pppMbuf mode m [] out).2.contents = out.contents ++ done ++ [] := by
        rw [List.append_nil]
        exact contents
      rcases pppTrailer_spec (pppEndseq mode outfcs) _ begun with
        ⟨put, contents'⟩ | ⟨short, contents'⟩
      · refine ⟨done ++ pppEndseq mode outfcs, ?_, ?_⟩
        · rw [← List.append_assoc]
          exact contents'
        · rw [List.length_nil] at put
          rw [put]
          exact List.append_nil _
      · refine ⟨done, contents', ?_⟩
        rw [List.length_nil] at short
        rw [short]
        rfl
  | cons m2 rest ih =>
    obtain ⟨done, contents, parts⟩ := @pppMbuf_spec mode [] m out (by simp)
    rw [List.nil_append] at parts
    rw [pppChain]
    dsimp only
    split
    · refine ⟨done, contents, ?_⟩
      simp only [pppPending]
      rw [pppStuff_append, pppStuff_append, ← parts]
      simp only [List.append_assoc]
    · rename_i whole
      rw [not_not.mp whole, show pppStuff mode [] = [] from rfl, List.append_nil] at parts
      obtain ⟨later, contents', parts'⟩ := ih m2 (pppfcs outfcs m2) (pppMbuf mode m [] out).2
      refine ⟨done ++ later, ?_, ?_⟩
      · rw [contents', contents, List.append_assoc]
      · rw [List.append_assoc, parts']
        simp only [pppPending, List.flatten_cons]
        rw [pppStuff_append _ m, parts, pppfcs, pppfcs, pppfcs, List.foldl_append]
        simp only [List.append_assoc]

theorem rbContigput_zero {hd tl : Nat} (hd_lt : hd < RBSZ) (tl_lt : tl < RBSZ)
    (full : rbContigput hd tl = 0) :
    rbLen hd tl = RBSZ - 1 := by
  have place := @rbContigput_cases hd _ tl_lt
  have length := rbLen_cases hd tl
  lia

theorem pppCopy_full {fuel : Nat} (enough : data.length ≤ fuel)
    (left : (pppCopy fuel data out).1 ≠ []) :
    (pppCopy fuel data out).2.contents.length = RBSZ - 1 := by
  induction fuel generalizing data out with
  | zero => exact absurd (List.length_eq_zero_iff.mp (Nat.le_zero.mp enough)) left
  | succ fuel ih =>
    rw [pppCopy] at left ⊢
    split at left
    · rename_i none
      exact absurd none left
    · rename_i some
      rw [if_neg some]
      dsimp only at left ⊢
      split at left
      · rename_i full
        rw [if_pos full, Ringb.length_contents]
        exact rbContigput_zero out.hd_lt out.tl_lt full
      · rename_i room
        rw [if_neg room]
        apply ih _ left
        have length : 0 < data.length := List.length_pos_iff.mpr some
        rw [List.length_drop]
        lia

theorem putc_full (c : Char8) (full : (putc c.toNat out).1 ≠ 0) :
    (putc c.toNat out).2.contents.length = RBSZ - 1 := by
  obtain ⟨value, contents⟩ := putc_spec c.toNat out
  have below := @rbLen_lt out.hd _ out.tl_lt
  split at value
  · exact absurd value full
  · rename_i none
    rw [if_neg none] at contents
    rw [contents, Ringb.length_contents]
    lia

theorem pppMbuf_full (left : (pppMbuf mode data run out).1 ≠ []) :
    RBSZ - 2 ≤ (pppMbuf mode data run out).2.contents.length := by
  induction data generalizing run out with
  | nil =>
    rw [pppMbuf] at left ⊢
    rw [pppCopy_full (Nat.le_refl _) left]
    decide
  | cons c rest ih =>
    rw [pppMbuf] at left ⊢
    split at left
    · rename_i special
      rw [if_pos special]
      dsimp only at left ⊢
      split at left
      · rename_i more
        rw [if_pos more, pppCopy_full (Nat.le_refl _) more]
        decide
      · rename_i whole
        rw [if_neg whole]
        split at left
        · rename_i full
          rw [if_pos full, putc_full _ full]
          decide
        · rename_i free
          rw [if_neg free]
          split at left
          · rename_i full
            rw [if_pos full]
            have length := putc_full _ full
            rcases unputc_spec (putc (c ^^^ PPP_TRANS).toNat (putc PPP_ESCAPE.toNat
              (pppCopy run.length run out).2).2).2 with ⟨empty, -⟩ | ⟨d, -, last⟩
            · rw [empty] at length
              cases length
            · have more := congrArg List.length last
              rw [List.length_append, List.length_singleton, length] at more
              lia
          · rename_i free'
            rw [if_neg free']
            exact ih left
    · rename_i usual
      rw [if_neg usual]
      exact ih left

theorem length_pppEndseq (outfcs : BitVec 16) : (pppEndseq mode outfcs).length ≤ 5 := by
  have most (c : Char8) : (pppEscape mode c).length ≤ 2 := by
    unfold pppEscape
    split
    · exact Nat.le_refl 2
    · exact Nat.le_succ 1
  have first := most ((~~~outfcs).setWidth 8)
  have second := most ((~~~outfcs >>> 8).setWidth 8)
  unfold pppEndseq
  rw [List.length_append, List.length_append, List.length_singleton]
  lia

theorem pppTrailer_full {endseq : List Char8} {n : Nat}
    (short : (pppTrailer endseq n out).1 = false) :
    RBSZ ≤ out.contents.length + endseq.length := by
  induction endseq generalizing n out with
  | nil => cases short
  | cons q rest ih =>
    rw [pppTrailer] at short
    dsimp only at short
    rcases putc_char q out with ⟨free, contents⟩ | ⟨full, same⟩
    · rw [if_neg (not_not.mpr free)] at short
      have later := ih short
      rw [contents, List.length_append, List.length_singleton] at later
      rw [List.length_cons]
      lia
    · have length := putc_full _ full
      rw [same] at length
      rw [List.length_cons]
      unfold RBSZ at *
      lia

theorem pppChain_full {rest : List (List Char8)} {m : List Char8} {outfcs : BitVec 16}
    (left : (pppChain mode rest m outfcs out).1 ≠ none) :
    PPP_HIWAT < (pppChain mode rest m outfcs out).2.2.contents.length := by
  induction rest generalizing m outfcs out with
  | nil =>
    rw [pppChain] at left ⊢
    dsimp only at left ⊢
    split at left
    · rename_i more
      rw [if_pos more]
      have full := pppMbuf_full more
      unfold RBSZ PPP_HIWAT at *
      lia
    · rename_i whole
      rw [if_neg whole]
      dsimp only at left ⊢
      have begun : (pppMbuf mode m [] out).2.contents = (pppMbuf mode m [] out).2.contents ++ [] :=
        (List.append_nil _).symm
      rcases pppTrailer_spec (pppEndseq mode outfcs) _ begun with ⟨put, -⟩ | ⟨short, contents⟩
      · rw [List.length_nil] at put
        rw [if_pos put] at left
        exact absurd rfl left
      · rw [List.length_nil] at short contents
        have full := pppTrailer_full short
        have size := @length_pppEndseq mode outfcs
        rw [contents]
        unfold RBSZ PPP_HIWAT at *
        lia
  | cons m2 rest ih =>
    rw [pppChain] at left ⊢
    dsimp only at left ⊢
    split at left
    · rename_i more
      rw [if_pos more]
      have full := pppMbuf_full more
      unfold RBSZ PPP_HIWAT at *
      lia
    · rename_i whole
      rw [if_neg whole]
      exact ih left

end Ring

section Sender

variable {mode : PppMode} {ring : Ringb} {queued : Queues PppPacket} {tp : PppTty}

/-- `tail` is what is out of the packet that is partly sent. -/
def PppPart (mode : PppMode) (tp : PppTty) (tail : List Char8) : Prop :=
  if tp.scOutm = none then tail = []
  else ∃ m lead part, tp.taken = tp.sent ++ [m] ∧ (lead = [] ∨ lead = [PPP_FLAG]) ∧
    part ++ pppPending mode tp.scOutfcs tp.scOutm = pppWire mode m ∧ tail = lead ++ part

/-- What is true of a line that has served the queues `queued`: after what the ring held there are
the frames of the packets sent, and then the one that is being sent as far as it is out. -/
structure PppSound (mode : PppMode) (ring : Ringb) (queued : Queues PppPacket) (tp : PppTty) :
    Prop where
  frames : ∃ out tail, PppFramed mode tp.sent out ∧ PppPart mode tp tail ∧
    tp.line ++ tp.tOut.contents = ring.contents ++ out ++ tail
  served : Queues.Served queued tp.queues

theorem pppIdle_sound (ring : Ringb) : PppSound mode ring .empty (pppIdle ring) where
  frames := ⟨[], [], .nil, rfl, by simp [pppIdle]⟩
  served := .refl _

theorem PppSound.moved {out : Ringb} {line : List Char8} (sound : PppSound mode ring queued tp)
    (same : line ++ out.contents = tp.line ++ tp.tOut.contents) :
    PppSound mode ring queued { tp with tOut := out, line := line } where
  frames := by
    obtain ⟨out, tail, framed, part, written⟩ := sound.frames
    exact ⟨out, tail, framed, part, same.trans written⟩
  served := sound.served

theorem pppDrain_sound (n : Nat) (sound : PppSound mode ring queued tp) :
    PppSound mode ring queued (pppDrain n tp) := by
  induction n generalizing tp with
  | zero => exact sound
  | succ n ih =>
    rw [pppDrain]
    rcases getc_spec tp.tOut with ⟨-, none⟩ | ⟨c, value, contents⟩
    · simp only [none]
      exact sound
    · simp only [value]
      rw [if_neg (by omega)]
      apply ih
      apply sound.moved
      rw [contents]
      simp

theorem rbSucc_iterate_lt (n : Nat) {p : Nat} (lt : p < RBSZ) : rbSucc^[n] p < RBSZ := by
  induction n generalizing p with
  | zero => exact lt
  | succ n ih => exact ih (rbSucc_lt p)

def rbSkip (n : Nat) (rbp : Ringb) : Ringb :=
  { rbp with hd := rbSucc^[n] rbp.hd, hd_lt := rbSucc_iterate_lt n rbp.hd_lt }

theorem pppDrain_eq (n : Nat) (tp : PppTty) : pppDrain n tp =
    { tp with tOut := rbSkip (min n tp.tOut.contents.length) tp.tOut
              line := tp.line ++ tp.tOut.contents.take n } := by
  induction n generalizing tp with
  | zero =>
    rw [Nat.zero_min, List.take_zero, List.append_nil]
    rfl
  | succ n ih =>
    rw [pppDrain]
    rcases getc_spec tp.tOut with ⟨empty, none⟩ | ⟨c, value, contents⟩
    · rw [none, empty, List.take_nil, List.append_nil]
      rfl
    · have moved : (getc tp.tOut).2 = rbSkip 1 tp.tOut := by
        unfold getc at contents ⊢
        split
        · rw [if_pos ‹_›] at contents
          exact absurd contents.symm (List.cons_ne_self _ _)
        · rfl
      rw [moved] at contents
      dsimp only
      rw [value, moved, if_neg (Int.not_lt.mpr (Int.natCast_nonneg _)), ih, contents]
      dsimp only
      rw [List.take_succ_cons, List.append_assoc, List.singleton_append, List.length_cons,
        Nat.add_min_add_right, BitVec.ofInt_natCast, BitVec.ofNat_toNat, BitVec.setWidth_eq]
      rfl

theorem pppDrain_queues (n : Nat) (tp : PppTty) :
    (pppDrain n tp).queues = tp.queues ∧ (pppDrain n tp).scOutm = tp.scOutm := by
  rw [pppDrain_eq]
  exact ⟨rfl, rfl⟩

theorem pppDequeue_cases (tp : PppTty) : (pppDequeue tp = none ∧ tp.scFastq = [] ∧ tp.ifSnd = []) ∨
    ∃ m u, pppDequeue tp = some (m, u) ∧ u.taken = tp.taken ++ [m] ∧ u.line = tp.line ∧
      u.tOut = tp.tOut ∧
      Queues.Served tp.queues u.queues ∧
      u.scFastq.length + u.ifSnd.length + 1 = tp.scFastq.length + tp.ifSnd.length := by
  unfold pppDequeue
  cases tp with
  | mk tOut fast snd outm outfcs line taken =>
    cases fast with
    | cons m rest =>
      refine .inr ⟨m, _, rfl, rfl, rfl, rfl, .fast rfl, ?_⟩
      simp only [List.length_cons]
      omega
    | nil =>
      cases snd with
      | cons m rest =>
        refine .inr ⟨m, _, rfl, rfl, rfl, rfl, .slow rfl rfl, ?_⟩
        simp only [List.length_cons, List.length_nil]
        omega
      | nil => exact .inl ⟨rfl, rfl, rfl⟩

theorem sent_of_none (idle : tp.scOutm = none) : tp.sent = tp.taken := by
  rw [PppTty.sent, idle]
  rfl

theorem sent_of_some {outm : List Char8 × List (List Char8)} (busy : tp.scOutm = some outm) :
    tp.sent = tp.taken.dropLast := by
  rw [PppTty.sent, busy]
  rfl

theorem pppBegin_sound {u : PppTty} {m : PppPacket} (idle : tp.scOutm = none)
    (sound : PppSound mode ring queued tp) (taken : u.taken = tp.taken ++ [m])
    (line : u.line = tp.line) (same : u.tOut = tp.tOut)
    (served : Queues.Served tp.queues u.queues) :
    PppSound mode ring queued (pppBegin mode m u) := by
  obtain ⟨out, tail, framed, part, written⟩ := sound.frames
  rw [PppPart, if_pos idle] at part
  rw [part, List.append_nil] at written
  rw [sent_of_none idle] at framed
  have busy : (pppBegin mode m u).scOutm = some (pppCompress mode m) := rfl
  have sent : (pppBegin mode m u).sent = tp.taken := by
    rw [sent_of_some busy, show (pppBegin mode m u).taken = _ from taken, List.dropLast_concat]
  obtain ⟨lead, extra, contents⟩ : ∃ lead, (lead = [] ∨ lead = [PPP_FLAG]) ∧
      (pppBegin mode m u).tOut.contents = tp.tOut.contents ++ lead := by
    unfold pppBegin
    dsimp only
    rw [same]
    split
    · rcases putc_char PPP_FLAG tp.tOut with ⟨-, put⟩ | ⟨-, none⟩
      · exact ⟨_, .inr rfl, put⟩
      · exact ⟨_, .inl rfl, by rw [none, List.append_nil]⟩
    · exact ⟨_, .inl rfl, (List.append_nil _).symm⟩
  refine ⟨⟨out, lead, sent ▸ framed, ?_, ?_⟩, sound.served.trans served⟩
  · rw [PppPart, if_neg (by rw [busy]; exact Option.some_ne_none _)]
    refine ⟨m, lead, [], ?_, extra, ?_, (List.append_nil _).symm⟩
    · rw [sent]
      exact taken
    · rw [busy, List.nil_append, show (pppBegin mode m u).scOutfcs =
        pppfcs PPP_INITFCS (pppCompress mode m).1 from rfl]
      simp only [pppPending, pppWire, pppOctets, pppfcs, List.foldl_append]
  · rw [contents, show (pppBegin mode m u).line = _ from line, ← List.append_assoc, written]

theorem pppSend_sound (sound : PppSound mode ring queued tp) :
    PppSound mode ring queued (pppSend mode tp) := by
  unfold pppSend
  split
  · exact sound
  rename_i m rest busy
  obtain ⟨out, tail, framed, part, written⟩ := sound.frames
  rw [PppPart, if_neg (by rw [busy]; exact Option.some_ne_none _), busy] at part
  obtain ⟨pkt, lead, part, taken, extra, wire, rfl⟩ := part
  obtain ⟨done, contents, pending⟩ := @pppChain_spec mode rest m tp.scOutfcs tp.tOut
  rw [← pending] at wire
  dsimp only
  cases outm : (pppChain mode rest m tp.scOutfcs tp.tOut).1 with
  | none =>
    rw [outm, pppPending, List.append_nil] at wire
    refine ⟨⟨out ++ (lead ++ pppWire mode pkt ++ []), [], ?_, rfl, ?_⟩, sound.served⟩
    · rw [sent_of_none rfl]
      change PppFramed mode tp.taken _
      rw [taken]
      exact framed.append (.cons pkt lead extra .nil)
    · change tp.line ++ _ = _
      rw [contents, ← List.append_assoc, written, ← wire]
      simp only [List.append_assoc, List.append_nil]
  | some left =>
    rw [outm] at wire
    refine ⟨⟨out, lead ++ (part ++ done), ?_, ?_, ?_⟩, sound.served⟩
    · rw [sent_of_some rfl]
      rw [sent_of_some busy] at framed
      exact framed
    · rw [PppPart, if_neg (Option.some_ne_none _)]
      refine ⟨pkt, lead, part ++ done, ?_, extra, ?_, rfl⟩
      · rw [sent_of_some rfl]
        rw [sent_of_some busy] at taken
        exact taken
      · rw [List.append_assoc]
        exact wire
    · change tp.line ++ _ = _
      rw [contents, ← List.append_assoc, written]
      simp only [List.append_assoc]

theorem pppstartLoop_sound (fuel : Nat) (oproc : Nat → Nat) (sound : PppSound mode ring queued tp) :
    PppSound mode ring queued (pppstartLoop mode fuel oproc tp) := by
  induction fuel generalizing tp oproc with
  | zero => exact sound
  | succ fuel ih =>
    rw [pppstartLoop]
    have drained : PppSound mode ring queued
        (if rbLen tp.tOut.hd tp.tOut.tl ≠ 0 then pppDrain (oproc 0) tp else tp) := by
      split
      · exact pppDrain_sound _ sound
      · exact sound
    generalize (if rbLen tp.tOut.hd tp.tOut.tl ≠ 0 then pppDrain (oproc 0) tp else tp) =
      u at drained
    dsimp only
    split
    · exact drained
    have finish (v : PppTty) (begun : PppSound mode ring queued v) : PppSound mode ring queued
        (if (pppSend mode v).scOutm.isSome then pppDrain (oproc 1) (pppSend mode v)
          else pppstartLoop mode fuel (fun i => oproc (i + 2)) (pppSend mode v)) := by
      split
      · exact pppDrain_sound _ (pppSend_sound begun)
      · exact ih _ (pppSend_sound begun)
    cases busy : u.scOutm with
    | some left => exact finish u drained
    | none =>
      rcases pppDequeue_cases u with ⟨none, -⟩ | ⟨m, v, some, taken, line, same, served, -⟩
      · rw [none]
        exact drained
      · rw [some]
        exact finish _ (pppBegin_sound busy drained taken line same served)

theorem pppEvent_sound (event : PppEvent) (sound : PppSound mode ring queued tp) :
    PppSound mode ring (tp.queues.put event.put) (pppEvent mode tp event) := by
  have start : PppSound mode ring tp.queues tp := ⟨sound.frames, .refl _⟩
  cases event with
  | output fast m oproc =>
    cases fast with
    | true => exact pppstartLoop_sound _ _ ⟨sound.frames, .refl _⟩
    | false => exact pppstartLoop_sound _ _ ⟨sound.frames, .refl _⟩
  | drain n => exact pppDrain_sound _ start
  | start oproc => exact pppstartLoop_sound _ _ start

theorem pppEvents_sound (events : List PppEvent) (sound : PppSound mode ring queued tp) :
    (∃ queued, PppSound mode ring queued (events.foldl (pppEvent mode) tp)) ∧
      Run Queues.Step tp.queues (events.map PppEvent.put)
        (events.foldl (pppEvent mode) tp).queues := by
  induction events generalizing tp queued with
  | nil => exact ⟨⟨queued, sound⟩, .nil _⟩
  | cons event events ih =>
    have first := pppEvent_sound event sound
    obtain ⟨last, steps⟩ := ih first
    exact ⟨last, .cons first.served steps⟩

end Sender

section Progress

variable {mode : PppMode} {tp : PppTty}

theorem pppSend_queues (mode : PppMode) (tp : PppTty) : (pppSend mode tp).queues = tp.queues := by
  unfold pppSend
  split
  · rfl
  · rfl

theorem pppSend_full (left : (pppSend mode tp).scOutm.isSome = true)
    (begun : tp.scOutm.isSome = true) :
    PPP_HIWAT < (pppSend mode tp).tOut.contents.length := by
  obtain ⟨⟨m, rest⟩, busy⟩ := Option.isSome_iff_exists.mp begun
  unfold pppSend at left ⊢
  rw [busy] at left ⊢
  exact pppChain_full (Option.isSome_iff_ne_none.mp left)

/-- `pppstart` ends, but for a last call of the driver, with nothing left to send or enough in the
ring. -/
def Stops (oproc : Nat → Nat) (tp' : PppTty) : Prop :=
  ∃ u n, tp' = pppDrain n u ∧ (n = 0 ∨ ∃ i, n = oproc i) ∧
    (u.Done ∨ PPP_HIWAT < u.tOut.contents.length)

theorem Stops.here {oproc : Nat → Nat} (stops : tp.Done ∨ PPP_HIWAT < tp.tOut.contents.length) :
    Stops oproc tp := ⟨tp, 0, rfl, .inl rfl, stops⟩

theorem pppstartLoop_stops (fuel : Nat) (oproc : Nat → Nat)
    (enough : tp.scFastq.length + tp.ifSnd.length + (if tp.scOutm.isSome then 1 else 0) < fuel) :
    Stops oproc (pppstartLoop mode fuel oproc tp) := by
  induction fuel generalizing tp oproc with
  | zero => exact absurd enough (Nat.not_lt_zero _)
  | succ fuel ih =>
    rw [pppstartLoop]
    have drained : (if rbLen tp.tOut.hd tp.tOut.tl ≠ 0 then pppDrain (oproc 0) tp else tp).queues =
        tp.queues ∧
        (if rbLen tp.tOut.hd tp.tOut.tl ≠ 0 then pppDrain (oproc 0) tp else tp).scOutm =
          tp.scOutm := by
      split
      · exact pppDrain_queues _ _
      · exact ⟨rfl, rfl⟩
    generalize (if rbLen tp.tOut.hd tp.tOut.tl ≠ 0 then pppDrain (oproc 0) tp else tp) =
      u at drained
    obtain ⟨queues, outm⟩ := drained
    have fast : u.scFastq = tp.scFastq := congrArg Queues.fast queues
    have slow : u.ifSnd = tp.ifSnd := congrArg Queues.slow queues
    rw [← fast, ← slow, ← outm] at enough
    dsimp only
    rw [← Ringb.length_contents]
    split
    · exact .here (.inr ‹_›)
    -- the packet `v` is sent to its end, and the loop goes on, or the ring is full
    have finish (v : PppTty) (begun : v.scOutm.isSome = true)
        (fewer : v.scFastq.length + v.ifSnd.length < fuel) :
        Stops oproc (if (pppSend mode v).scOutm.isSome then pppDrain (oproc 1) (pppSend mode v)
          else pppstartLoop mode fuel (fun i => oproc (i + 2)) (pppSend mode v)) := by
      have same := pppSend_queues mode v
      split
      · exact ⟨_, _, rfl, .inr ⟨1, rfl⟩, .inr (pppSend_full ‹_› begun)⟩
      · rename_i sent
        have fast : (pppSend mode v).scFastq = v.scFastq := congrArg Queues.fast same
        have slow : (pppSend mode v).ifSnd = v.ifSnd := congrArg Queues.slow same
        rw [← fast, ← slow] at fewer
        obtain ⟨w, n, ended, calls, stops⟩ := @ih (pppSend mode v) (fun i => oproc (i + 2))
          (by rwa [if_neg sent])
        refine ⟨w, n, ended, ?_, stops⟩
        rcases calls with none | ⟨i, call⟩
        · exact .inl none
        · exact .inr ⟨i + 2, call⟩
    cases busy : u.scOutm with
    | some left =>
      rw [busy] at enough
      exact finish u (by rw [busy]; rfl) (by simpa using enough)
    | none =>
      rw [busy] at enough
      rcases pppDequeue_cases u with ⟨none, left⟩ | ⟨m, v, some, taken, line, same, served, fewer⟩
      · rw [none]
        exact .here (.inl ⟨busy, left⟩)
      · rw [some]
        refine finish (pppBegin mode m v) rfl ?_
        change v.scFastq.length + v.ifSnd.length < fuel
        simp only [Option.isSome_none, Bool.false_eq_true, if_false] at enough
        lia

theorem pppstart_stops (mode : PppMode) (oproc : Nat → Nat) (tp : PppTty) :
    Stops oproc (pppstart mode oproc tp) := by
  apply pppstartLoop_stops
  split
  · exact Nat.lt_succ_self _
  · lia

end Progress

end FreeBsd.Net
