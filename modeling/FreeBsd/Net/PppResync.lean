import FreeBsd.Lib.Distinct
import FreeBsd.Net.PppFrames
import Mathlib.Data.List.GetD

/-! A packet after any input: at a flag `pppinput` starts afresh, but for an escape that waits for
its octet. -/
namespace FreeBsd.Net

open FreeBsd.Lib FreeBsd.Kern
open FreeBsd.Kern.UipcMbuf (MLEN MHLEN MCLBYTES)

section Check

theorem fcstab_length : fcstab.length = 256 := by decide +kernel

theorem fcstab_nodup : (fcstab.map fun x : BitVec 16 => x >>> 8).Nodup := by
  have new : unseen ((fcstab.map fun x : BitVec 16 => x >>> 8).map BitVec.toNat) 0 =
    true := by decide +kernel
  exact (nodup_of_unseen new).1.of_map _

theorem fcs_inj {f g : BitVec 16} {c d : Char8} (same : PPP_FCS f c = PPP_FCS g d) :
    f >>> 8 = g >>> 8 ∧ (f ^^^ c.setWidth 16) &&& 0xff = (g ^^^ d.setWidth 16) &&& 0xff := by
  have low (x : BitVec 16) : (x &&& 0xff).toNat < fcstab.length := by
    have : (x &&& 0xff).toNat ≤ 0xff := by
      rw [BitVec.toNat_and]
      exact Nat.and_le_right
    rw [fcstab_length]
    exact Nat.lt_succ_of_le this
  have high (f : BitVec 16) (t : BitVec 16) : (f >>> 8 ^^^ t) >>> 8 = t >>> 8 := by
    ext i below
    simp only [BitVec.getElem_ushiftRight, BitVec.getLsbD_xor, BitVec.getLsbD_ushiftRight]
    rw [BitVec.getLsbD_of_ge f _ (by lia), Bool.false_xor]
  unfold PPP_FCS at same
  have index : ((f ^^^ c.setWidth 16) &&& 0xff).toNat = ((g ^^^ d.setWidth 16) &&& 0xff).toNat := by
    have shifted := congrArg (fun x : BitVec 16 => x >>> 8) same
    simp only [high] at shifted
    rw [List.getD_eq_getElem _ _ (low _), List.getD_eq_getElem _ _ (low _)] at shifted
    have mapped (x : BitVec 16) :
        (x &&& 0xff).toNat < (fcstab.map fun x : BitVec 16 => x >>> 8).length := by
      rw [List.length_map]
      exact low x
    refine (@List.Nodup.getElem_inj_iff _ _ fcstab_nodup _ (mapped _) _ (mapped _)).mp ?_
    simpa only [List.getElem_map] using shifted
  refine ⟨?_, BitVec.eq_of_toNat_eq index⟩
  rw [index] at same
  exact (BitVec.xor_left_inj _).mp same

theorem fcs_state {f g : BitVec 16} {c : Char8} (same : PPP_FCS f c = PPP_FCS g c) : f = g := by
  obtain ⟨high, low⟩ := fcs_inj same
  ext i below
  rcases Nat.lt_or_ge i 8 with small | large
  · have bit := congrArg (fun x => x.getLsbD i) low
    simp only [BitVec.getLsbD_and, BitVec.getLsbD_xor] at bit
    have one : (0xff : BitVec 16).getLsbD i = true := by
      interval_cases i <;> rfl
    simp only [one, Bool.and_true, Bool.xor_left_inj] at bit
    simpa [BitVec.getLsbD_eq_getElem below] using bit
  · have bit := congrArg (fun x => x.getLsbD (i - 8)) high
    simp only [BitVec.getLsbD_ushiftRight, show 8 + (i - 8) = i by lia] at bit
    simpa [BitVec.getLsbD_eq_getElem below] using bit

theorem fcs_octet {f : BitVec 16} {c d : Char8} (same : PPP_FCS f c = PPP_FCS f d) : c = d := by
  obtain ⟨-, low⟩ := fcs_inj same
  ext i below
  have bit := congrArg (fun x => x.getLsbD i) low
  simp only [BitVec.getLsbD_and, BitVec.getLsbD_xor, BitVec.getLsbD_setWidth] at bit
  have one : (0xff : BitVec 16).getLsbD i = true := by
    interval_cases i <;> rfl
  simp only [one, Bool.and_true, Bool.xor_right_inj,
    show i < 16 by lia, decide_true, Bool.true_and] at bit
  simpa [BitVec.getLsbD_eq_getElem below] using bit

theorem pppfcs_state {f g : BitVec 16} {l : List Char8} (same : pppfcs f l = pppfcs g l) :
    f = g := by
  induction l generalizing f g with
  | nil => exact same
  | cons c l ih => exact fcs_state (ih same)

theorem pppfcs_first {f : BitVec 16} {c d : Char8} {l : List Char8}
    (same : pppfcs f (c :: l) = pppfcs f (d :: l)) : c = d :=
  fcs_octet (pppfcs_state same)

end Check

section Settings

variable {Comp : Type} {sc sc' u : PppSoftc Comp} {c : Char8}

structure Settled (sc sc' : PppSoftc Comp) : Prop where
  up : sc'.up = sc.up
  mru : sc'.scMru = sc.scMru
  map : sc'.scRasyncmap = sc.scRasyncmap
  accept : sc'.rejCompAc = sc.rejCompAc
  roomy : Roomy sc.scMru sc.scM → Roomy sc.scMru sc'.scM

theorem Settled.refl (sc : PppSoftc Comp) : Settled sc sc := ⟨rfl, rfl, rfl, rfl, id⟩

theorem Settled.trans (first : Settled sc u) (second : Settled u sc') : Settled sc sc' where
  up := second.up.trans first.up
  mru := second.mru.trans first.mru
  map := second.map.trans first.map
  accept := second.accept.trans first.accept
  roomy roomy := by
    have later := second.roomy
    rw [first.mru] at later
    exact later (first.roomy roomy)

theorem Roomy.sized {mru : BitVec 16} {scM scM' : List PppMbuf} (roomy : Roomy mru scM)
    (same : scM'.map PppMbuf.size = scM.map PppMbuf.size) : Roomy mru scM' where
  some := by
    rintro rfl
    exact roomy.some (List.map_eq_nil_iff.mp same.symm)
  sizes m member := by
    have size : m.size ∈ scM.map PppMbuf.size := same ▸ List.mem_map_of_mem member
    obtain ⟨n, old, eq⟩ := List.mem_map.mp size
    rw [← eq]
    exact roomy.sizes n old
  room := by
    have length := congrArg List.length same
    rw [List.length_map, List.length_map] at length
    rw [length]
    exact roomy.room

theorem map_size_modify (scM : List PppMbuf) (i : Nat) (f : PppMbuf → PppMbuf)
    (same : ∀ m, (f m).size = m.size) :
    (scM.modify i f).map PppMbuf.size = scM.map PppMbuf.size := by
  apply List.ext_getElem
  · simp
  · intro j _ _
    simp only [List.getElem_map, List.getElem_modify]
    split
    · exact same _
    · rfl

theorem pppMp_settled (c : Char8) (sc : PppSoftc Comp) : Settled sc (pppMp c sc) :=
  ⟨rfl, rfl, rfl, rfl, fun roomy => roomy.sized (map_size_modify _ _ _ fun _ => rfl)⟩

theorem pppDrop_settled (sc : PppSoftc Comp) : Settled sc (pppDrop sc) :=
  ⟨rfl, rfl, rfl, rfl, fun roomy => roomy.sized (map_size_modify _ _ _ fun _ => rfl)⟩

theorem pppTrim_settled (sc : PppSoftc Comp) : Settled sc (pppTrim sc) := by
  unfold pppTrim
  dsimp only
  refine (pppDrop_settled sc).trans (Settled.trans ?_ (pppDrop_settled _))
  split
  · exact ⟨rfl, rfl, rfl, rfl, id⟩
  · exact .refl _

/-- Where the octet is stored, the check sequence has it, and otherwise the packet is flushed. -/
structure Stored (sc sc' : PppSoftc Comp) (c : Char8) : Prop extends Settled sc sc' where
  escaped : sc'.escaped = sc.escaped
  inq : sc'.scInq = sc.scInq
  ip : sc'.ipintrq = sc.ipintrq
  octet : sc'.flush = true ∨ sc'.flush = sc.flush ∧ sc'.scFcs = PPP_FCS sc.scFcs c ∧
    (sc'.scIlen = sc.scIlen + 1 ∨ sc.scIlen = 2 ∧ sc'.scIlen = sc.scIlen + 1 + 1)

theorem pppStore_stored (c : Char8) (sc : PppSoftc Comp) : Stored sc (pppStore c sc) c := by
  unfold pppStore
  dsimp only
  split
  · exact ⟨⟨rfl, rfl, rfl, rfl, id⟩, rfl, rfl, rfl, .inl rfl⟩
  · split
    · split
      · exact ⟨⟨rfl, rfl, rfl, rfl, id⟩, rfl, rfl, rfl, .inl rfl⟩
      · refine ⟨⟨rfl, rfl, rfl, rfl, fun roomy => ?_⟩, rfl, rfl, rfl, .inr ⟨rfl, rfl, .inl rfl⟩⟩
        refine Roomy.sized (Roomy.sized roomy ?_) (map_size_modify _ _ _ fun _ => rfl)
        exact map_size_modify _ _ _ fun _ => rfl
    · exact ⟨⟨rfl, rfl, rfl, rfl, (pppMp_settled c _).roomy⟩, rfl, rfl, rfl,
        .inr ⟨rfl, rfl, .inl rfl⟩⟩

theorem pppHeaderOctet_stored (c : Char8) (sc : PppSoftc Comp) :
    Stored sc (pppHeaderOctet c sc) c := by
  unfold pppHeaderOctet
  split
  · exact ⟨⟨rfl, rfl, rfl, rfl, id⟩, rfl, rfl, rfl, .inl rfl⟩
  · by_cases left : sc.scIlen = 2 ∧ c &&& 1 = 1
    · rw [if_pos left]
      dsimp only
      have put : Settled sc { pppMp 0 sc with scIlen := sc.scIlen + 1 } :=
        ⟨rfl, rfl, rfl, rfl, (pppMp_settled 0 sc).roomy⟩
      split
      · exact ⟨put.trans ⟨rfl, rfl, rfl, rfl, id⟩, rfl, rfl, rfl, .inl rfl⟩
      · obtain ⟨settled, escaped, inq, ip, octet⟩ :=
          pppStore_stored c { pppMp 0 sc with scIlen := sc.scIlen + 1 }
        refine ⟨put.trans settled, escaped, inq, ip, ?_⟩
        rcases octet with flush | ⟨flush, fcs, ilen⟩
        · exact .inl flush
        · rcases ilen with one | ⟨two, -⟩
          · exact .inr ⟨flush, fcs, .inr ⟨left.1, one⟩⟩
          · rw [left.1] at two
            have wrong : (2 + 1 : BitVec 16) = 2 := two
            exact absurd wrong (by decide)
    · rw [if_neg left]
      dsimp only
      split
      · exact ⟨⟨rfl, rfl, rfl, rfl, id⟩, rfl, rfl, rfl, .inl rfl⟩
      · exact pppStore_stored c sc

theorem pppOctet_settled (c : Char8) (some : sc.scM ≠ []) : ∃ sc', pppOctet c sc = Option.some sc' ∧
    Settled sc sc' := by
  obtain ⟨m, rest, chain⟩ := List.exists_cons_of_ne_nil some
  unfold pppOctet
  split
  · rw [chain]
    dsimp only
    have start : Settled sc { sc with scM := { m with off := HDROFF, data := [] } :: rest,
                                      scMc := 0, scFcs := PPP_INITFCS } := by
      refine ⟨rfl, rfl, rfl, rfl, fun roomy => roomy.sized ?_⟩
      rw [chain]
      rfl
    split
    · split
      · exact ⟨_, rfl, start.trans ⟨rfl, rfl, rfl, rfl, id⟩⟩
      · refine ⟨_, rfl, start.trans (Settled.trans ?_ (pppHeaderOctet_stored c _).toSettled)⟩
        exact ⟨rfl, rfl, rfl, rfl,
          ((pppMp_settled PPP_ALLSTATIONS _).trans (pppMp_settled PPP_UI _)).roomy⟩
    · exact ⟨_, rfl, start.trans (pppHeaderOctet_stored c _).toSettled⟩
  · exact ⟨_, rfl, (pppHeaderOctet_stored c sc).toSettled⟩

structure Passed (sc sc' : PppSoftc Comp) : Prop extends Settled sc sc' where
  ilen : sc'.scIlen = sc.scIlen
  flush : sc'.flush = sc.flush
  escaped : sc'.escaped = sc.escaped

theorem Passed.trans (first : Passed sc u) (second : Passed u sc') : Passed sc sc' :=
  ⟨first.toSettled.trans second.toSettled, second.ilen.trans first.ilen,
    second.flush.trans first.flush, second.escaped.trans first.escaped⟩

theorem pppinit_some {mbufs : Bool} {mru : BitVec 16} {scM chain : List PppMbuf}
    (sizes : ∀ m ∈ scM, m.size = MCLBYTES) (grown : pppinit mbufs true scM mru = some chain) :
      Roomy mru chain := by
  cases mbufs with
  | true =>
    obtain ⟨chain', grown', roomy⟩ := @pppinit_roomy mru scM sizes
    rw [grown] at grown'
    cases grown'
    exact roomy
  | false =>
    unfold pppinit at grown
    split at grown
    · rename_i enough
      cases grown
      obtain ⟨some, room⟩ := pppHave_none sizes enough
      exact ⟨some, sizes, room⟩
    · cases grown

variable {line : PppLine} {vj : PppVj Comp}

def PppLine.Memory (line : PppLine) : Prop := line.again = true ∧ line.clusters = true

theorem pppBtom_passed (memory : line.Memory) : Passed sc (pppBtom line sc).2 := by
  obtain ⟨again, clusters⟩ := memory
  unfold pppBtom
  dsimp only
  split
  · exact ⟨.refl sc, rfl, rfl, rfl⟩
  · rw [clusters]
    generalize kept :
      (if (decide (((sc.scM[sc.scMc]?.map fun m => m.data.length).getD 0) > MHLEN)) = true then
         sc.scM.drop (sc.scMc + 1)
       else sc.scM.drop sc.scMc) = scM
    have sizes (roomy : Roomy sc.scMru sc.scM) : ∀ m ∈ scM, m.size = MCLBYTES := by
      intro m member
      rw [← kept] at member
      split at member
      · exact roomy.sizes m (List.mem_of_mem_drop member)
      · exact roomy.sizes m (List.mem_of_mem_drop member)
    split
    · rename_i chain grown
      exact ⟨⟨rfl, rfl, rfl, rfl, fun roomy => pppinit_some (sizes roomy) grown⟩, rfl, rfl, rfl⟩
    · obtain ⟨chain, grown, roomy'⟩ := @pppinit_roomy sc.scMru [] (List.forall_mem_nil _)
      rw [again, grown]
      exact ⟨⟨rfl, rfl, rfl, rfl, fun _ => roomy'⟩, rfl, rfl, rfl⟩

theorem pppQueue_passed (memory : line.Memory) (proto : BitVec 16) (ilen : Int) :
    Passed sc (pppQueue line proto ilen sc) := by
  have taken : Passed sc (pppBtom line sc).2 := pppBtom_passed memory
  unfold pppQueue
  split
  · rename_i u none
    rwa [none] at taken
  · rename_i top u handed
    rw [handed] at taken
    refine taken.trans ?_
    split_ifs
    all_goals exact ⟨⟨rfl, rfl, rfl, rfl, id⟩, rfl, rfl, rfl⟩

theorem pppPacket_passed (memory : line.Memory) (ilen : Int) :
    Passed sc (pppPacket vj line ilen sc) := by
  unfold pppPacket
  dsimp only
  split
  · split
    · exact ⟨.refl sc, rfl, rfl, rfl⟩
    · split
      · exact ⟨⟨rfl, rfl, rfl, rfl, id⟩, rfl, rfl, rfl⟩
      · refine Passed.trans ?_ (pppQueue_passed memory _ _)
        refine ⟨⟨rfl, rfl, rfl, rfl, fun roomy => roomy.sized ?_⟩, rfl, rfl, rfl⟩
        dsimp only
        cases sc.scM <;> rfl
  · exact pppQueue_passed memory _ _

/-- At a flag nothing is left of a packet and nothing is flushed any more, but an escape still
waits. -/
theorem pppFlag_passed (memory : line.Memory) : Settled sc (pppFlag vj line sc) ∧
    (pppFlag vj line sc).scIlen = 0 ∧
    (pppFlag vj line sc).flush = false ∧ (pppFlag vj line sc).escaped = sc.escaped := by
  unfold pppFlag
  dsimp only
  split
  · exact ⟨⟨rfl, rfl, rfl, rfl, id⟩, rfl, rfl, rfl⟩
  · rename_i usual
    have flush : sc.flush = false := by
      by_contra set
      exact usual (.inl (by simpa using set))
    split
    · exact ⟨⟨rfl, rfl, rfl, rfl, id⟩, rfl, flush, rfl⟩
    · obtain ⟨scM, scMc, trimmed⟩ := pppTrim_frame sc
      have settled := pppTrim_settled sc
      have passed :
        Passed (pppTrim { sc with scIlen := 0 })
          (pppPacket vj line (sc.scIlen.toInt - 2) (pppTrim { sc with scIlen := 0 })) :=
        pppPacket_passed memory _
      rw [pppTrim_ilen, trimmed] at passed ⊢
      rw [trimmed] at settled
      have first : Settled sc { sc with scM := scM, scMc := scMc, scIlen := 0 } :=
        ⟨rfl, rfl, rfl, rfl, settled.roomy⟩
      exact ⟨first.trans passed.toSettled, passed.ilen, passed.flush.trans flush, passed.escaped⟩

theorem pppinput_settled (memory : line.Memory) (roomy : Roomy sc.scMru sc.scM) (c : BitVec 32) :
    ∃ sc', pppinput vj line c sc = some sc' ∧ Settled sc sc' := by
  unfold pppinput
  split
  · exact ⟨_, rfl, rfl, rfl, rfl, rfl, id⟩
  · dsimp only
    split
    · exact ⟨_, rfl, (pppFlag_passed memory).1⟩
    split
    · exact ⟨_, rfl, .refl sc⟩
    split
    · exact ⟨_, rfl, rfl, rfl, rfl, rfl, id⟩
    split
    · exact ⟨_, rfl, .refl sc⟩
    split
    · obtain ⟨sc', stored, settled⟩ := @pppOctet_settled _ { sc with escaped := false }
        (c.setWidth 8 ^^^ PPP_TRANS) roomy.some
      exact ⟨sc', stored, settled.up, settled.mru, settled.map, settled.accept, settled.roomy⟩
    · exact pppOctet_settled _ roomy.some

theorem pppReceive_settled {arrivals : List (PppLine × BitVec 32)}
    (memory : ∀ arrival ∈ arrivals, arrival.1.Memory) (roomy : Roomy sc.scMru sc.scM) :
      ∃ sc', pppReceive vj arrivals sc = some sc' ∧ Settled sc sc' := by
  induction arrivals generalizing sc with
  | nil => exact ⟨sc, rfl, .refl sc⟩
  | cons arrival arrivals ih =>
    obtain ⟨first, others⟩ := List.forall_mem_cons.mp memory
    obtain ⟨u, step, settled⟩ := @pppinput_settled _ sc _ vj first roomy arrival.2
    obtain ⟨sc', rest, settled'⟩ := ih others (by
      rw [settled.mru]
      exact settled.roomy roomy)
    refine ⟨sc', ?_, settled.trans settled'⟩
    rw [pppReceive, List.foldl_cons, Option.bind_some, step]
    exact rest

end Settings

section Escape

variable {Comp : Type} {vj : PppVj Comp} {mode : PppMode} {sc sc' u : PppSoftc Comp}
    {done : List Char8} {c : Char8}

/-- The receiver in a packet whose octets it took for `done`, if it does not flush it; nothing has
been queued since `u`. -/
structure Taking (u sc : PppSoftc Comp) (done : List Char8) : Prop where
  map : sc.scRasyncmap = u.scRasyncmap
  escaped : sc.escaped = false
  inq : sc.scInq = u.scInq
  ip : sc.ipintrq = u.ipintrq
  octets : sc.flush = true ∨ sc.flush = false ∧ sc.scFcs = pppfcs PPP_INITFCS done ∧
    ∃ n, 0 < n ∧ n ≤ done.length + 3 ∧ sc.scIlen = BitVec.ofNat 16 n

/-- `pppinput` on an octet that is neither a flag nor an escape, when none waits. -/
def pppTake (c : Char8) (sc : PppSoftc Comp) : Option (PppSoftc Comp) :=
  if sc.flush then some sc else pppOctet c sc

theorem Taking.octet (taking : Taking u sc done) (short : done.length + 5 < 2 ^ 16) :
    ∃ sc', pppTake c sc = some sc' ∧ Taking u sc' (done ++ [c]) := by
  obtain ⟨map, escaped, inq, ip, octets⟩ := taking
  unfold pppTake
  rcases octets with flush | ⟨flush, fcs, n, positive, few, ilen⟩
  · rw [if_pos flush]
    exact ⟨sc, rfl, map, escaped, inq, ip, .inl flush⟩
  · have begun : sc.scIlen ≠ 0 := by
      rw [ilen]
      intro zero
      have := (@ofNat_eq_iff n 0 (by lia) (by decide)).mp zero
      lia
    obtain ⟨settled, escaped', inq', ip', octet⟩ := pppHeaderOctet_stored c sc
    rw [if_neg (by rw [flush]; exact Bool.false_ne_true), pppOctet, if_neg begun]
    refine ⟨_, rfl, settled.map.trans map, escaped'.trans escaped, inq'.trans inq, ip'.trans ip, ?_⟩
    rcases octet with flushed | ⟨flush', fcs', more⟩
    · exact .inl flushed
    · refine .inr ⟨flush'.trans flush, ?_, ?_⟩
      · rw [fcs', fcs, pppfcs, pppfcs, List.foldl_append]
        rfl
      · rw [List.length_append, List.length_singleton]
        rcases more with one | ⟨two, three⟩
        · exact ⟨n + 1, by lia, by lia, by rw [one, ilen, BitVec.ofNat_add]; rfl⟩
        · exact ⟨4, by decide, by lia, by rw [three, two]; rfl⟩

theorem Taking.first (ilen : sc.scIlen = 0) (escaped : sc.escaped = false)
    (flush : sc.flush = false) (some : sc.scM ≠ []) :
    ∃ sc', pppOctet c sc = Option.some sc' ∧ Taking sc sc' [c] := by
  obtain ⟨m, rest, chain⟩ := List.exists_cons_of_ne_nil some
  unfold pppOctet
  rw [if_pos ilen, chain]
  dsimp only
  split
  · split
    · exact ⟨_, rfl, rfl, escaped, rfl, rfl, .inl rfl⟩
    · obtain ⟨settled, escaped', inq, ip, octet⟩ :=
        pppHeaderOctet_stored c { pppMp PPP_UI (pppMp PPP_ALLSTATIONS
          { sc with scM := { m with off := HDROFF, data := [] } :: rest, scMc := 0,
                    scFcs := PPP_INITFCS }) with scIlen := 2 }
      refine ⟨_, rfl, settled.map, escaped'.trans escaped, inq, ip, ?_⟩
      rcases octet with flushed | ⟨flush', fcs, one | ⟨-, two⟩⟩
      · exact .inl flushed
      · exact .inr ⟨flush'.trans flush, fcs, 3, by decide, by simp, one⟩
      · exact .inr ⟨flush'.trans flush, fcs, 4, by decide, by simp, two⟩
  · obtain ⟨settled, escaped', inq, ip, octet⟩ := pppHeaderOctet_stored c
        { sc with scM := { m with off := HDROFF, data := [] } :: rest, scMc := 0,
                  scFcs := PPP_INITFCS }
    refine ⟨_, rfl, settled.map, escaped'.trans escaped, inq, ip, ?_⟩
    rcases octet with flushed | ⟨flush', fcs, one | ⟨wrong, -⟩⟩
    · exact .inl flushed
    · exact .inr ⟨flush'.trans flush, fcs, 1, by decide, by simp, one.trans (congrArg (· + 1) ilen)⟩
    · exact absurd (ilen.symm.trans wrong) (by decide)

theorem pppTake_plain (covers : Covers mode sc.scRasyncmap) (escaped : sc.escaped = false)
    (plain : escapeP mode c = false) :
    pppRecv vj (some sc) c = pppTake c sc := by
  obtain ⟨flag, escape, passes⟩ := escapeP_plain covers plain
  rw [pppRecv_some, pppTake]
  simp only [flag, escape, passes, escaped, Bool.false_eq_true, ↓reduceIte]

theorem pppTake_escaped (escaped : sc.escaped = false) (special : escapeP mode c = true) :
    pppRecv vj (pppRecv vj (some sc) PPP_ESCAPE) (c ^^^ PPP_TRANS) = pppTake c sc := by
  rcases Bool.eq_false_or_eq_true sc.flush with flush | usual
  · obtain ⟨flag, -, -, -⟩ := escaped_code (escapeP_special special)
    have first : pppRecv vj (some sc) PPP_ESCAPE = some sc := by
      rw [pppRecv_some, if_neg (by decide), if_pos flush]
    rw [first, pppRecv_some, if_neg flag, if_pos flush, pppTake, if_pos flush]
  · rw [pppRecv_escaped usual escaped special, pppTake,
      if_neg (by rw [usual]; exact Bool.false_ne_true)]

variable (vj) in
theorem Taking.stuffed (covers : Covers mode u.scRasyncmap) (octets : List Char8)
    (taking : Taking u sc done) (short : done.length + octets.length + 5 < 2 ^ 16) :
    ∃ sc', (pppStuff mode octets).foldl (pppRecv vj) (some sc) = some sc' ∧
      Taking u sc' (done ++ octets) := by
  have octet : octets.foldl (fun s c => s.bind (pppTake c)) (some sc) =
      (pppStuff mode octets).foldl (pppRecv vj) (some sc) := by
    symm
    apply foldl_stuff (P := fun octets s => ∃ sc done, s = some sc ∧ Taking u sc done ∧
      done.length + octets.length + 5 < 2 ^ 16)
    · rintro s c l ⟨sc, done, rfl, taking, -⟩ plain
      exact pppTake_plain (by rw [taking.map]; exact covers) taking.escaped plain
    · rintro s c l ⟨sc, done, rfl, taking, -⟩ special
      exact pppTake_escaped taking.escaped special
    · rintro s c l ⟨sc, done, rfl, taking, short⟩
      rw [List.length_cons] at short
      obtain ⟨sc', taken, taking'⟩ := @Taking.octet _ _ _ _ c taking (by lia)
      exact ⟨sc', _, taken, taking', by rw [List.length_append, List.length_singleton]; lia⟩
    · exact ⟨sc, done, rfl, taking, short⟩
  rw [← octet]
  clear octet
  induction octets generalizing sc done with
  | nil =>
    rw [List.append_nil]
    exact ⟨sc, rfl, taking⟩
  | cons c octets ih =>
    rw [List.length_cons] at short
    obtain ⟨sc', taken, taking'⟩ := @Taking.octet _ _ _ _ c taking (by lia)
    obtain ⟨last, all, takingLast⟩ :=
      ih taking' (by rw [List.length_append, List.length_singleton]; lia)
    refine ⟨last, ?_, ?_⟩
    · rw [List.foldl_cons, Option.bind_some, taken]
      exact all
    · rw [List.append_assoc] at takingLast
      exact takingLast

theorem Taking.flag (taking : Taking u sc done) (bad : pppfcs PPP_INITFCS done ≠ PPP_GOODFCS)
    (line : PppLine) :
    (pppFlag vj line sc).scInq = u.scInq ∧ (pppFlag vj line sc).ipintrq = u.ipintrq := by
  obtain ⟨-, -, inq, ip, octets⟩ := taking
  unfold pppFlag
  dsimp only
  split
  · exact ⟨inq, ip⟩
  · rename_i usual
    rcases octets with flush | ⟨-, fcs, -⟩
    · exact absurd (.inl flush) usual
    · have none : ¬ sc.scIlen.toInt > 0 := fun some => usual (.inr ⟨some, by rw [fcs]; exact bad⟩)
      have short : sc.scIlen.toInt < (PPP_HEADER_LEN + PPP_FCS_LEN : Nat) :=
        Int.lt_of_le_of_lt (not_lt.mp none) (by decide)
      rw [if_pos short]
      exact ⟨inq, ip⟩

end Escape

section Resync

variable {Comp : Type} {vj : PppVj Comp} {mode : PppMode} {sc sc' u : PppSoftc Comp} {m : PppPacket}
    {mru : Nat}

theorem Grown.delivered (grown : Grown u sc' (pppIp m.flatten) (pppOther m.flatten)) :
    Delivered u sc' [m] := by
  obtain ⟨_, _, _, _, rfl⟩ := grown
  exact ⟨by rw [List.flatMap_singleton], by rw [List.flatMap_singleton]⟩

theorem foldl_pppStored_length (l pre : List Char8) :
    pre.length + l.length ≤ (l.foldl pppStored pre).length := by
  induction l generalizing pre with
  | nil => exact Nat.le_refl _
  | cons c l ih =>
    have later := ih (pppStored pre c)
    have one : pre.length + 1 ≤ (pppStored pre c).length := by
      unfold pppStored pppProto pppAddress
      split_ifs <;> simp_all
    rw [List.foldl_cons, List.length_cons]
    lia

theorem pppChecked_length (valid : PppValid mru m) (counted : Counted m) :
    (pppChecked mode m).length < 2 ^ 15 := by
  obtain ⟨-, stored⟩ := @legal_packet mode false (mru + PPP_HEADER_LEN + PPP_FCS_LEN : Nat) mru m
    valid (fun _ => rfl) (Int.le_refl _)
  have length := foldl_pppStored_length (pppChecked mode m) []
  rw [stored, List.length_append, show (pppCheck mode m).length = PPP_FCS_LEN from rfl,
    List.length_nil] at length
  unfold Counted at counted
  lia

theorem pppChecked_ne_nil (mode : PppMode) (m : PppPacket) : pppChecked mode m ≠ [] := by
  simp [pppChecked, pppCheck]

theorem xor_trans_ne (c : Char8) : c ^^^ PPP_TRANS ≠ c := by
  revert c
  decide +kernel

theorem pppRecv_lost {c : Char8} {rest : List Char8} (valid : PppValid mru m) (counted : Counted m)
    (matched : Matched mode mru u) (ready : Ready { u with escaped := false })
    (escaped : u.escaped = true) (first : pppChecked mode m = c :: rest)
    (plain : escapeP mode c = false) :
    ∃ sc', (pppWire mode m).foldl (pppRecv vj) (some u) = some sc' ∧ sc'.scInq = u.scInq ∧
      sc'.ipintrq = u.ipintrq := by
  obtain ⟨flush, -, ilen, roomy⟩ := ready
  obtain ⟨flag, escape, passes⟩ := escapeP_plain matched.covers plain
  have wire : pppWire mode m = c :: (pppStuff mode rest ++ [PPP_FLAG]) := by
    rw [pppWire_eq, first, pppStuff, stuff_cons, if_neg (by rw [plain]; exact Bool.false_ne_true)]
    rfl
  obtain ⟨sc₁, taken, taking⟩ := @Taking.first _ { u with escaped := false }
    (c ^^^ PPP_TRANS) ilen rfl flush roomy.some
  have begun : pppRecv vj (some u) c = some sc₁ := by
    rw [pppRecv_some, if_neg flag,
      if_neg (by rw [show u.flush = false from flush]; exact Bool.false_ne_true), if_neg escape,
      if_neg passes, if_pos escaped]
    exact taken
  have short := @pppChecked_length mode m mru valid counted
  rw [first, List.length_cons] at short
  have few : [c ^^^ PPP_TRANS].length + rest.length + 5 < 2 ^ 16 := by
    rw [List.length_singleton]
    lia
  obtain ⟨sc₂, all, taking'⟩ := @Taking.stuffed _ vj mode _ { u with escaped := false }
    _ matched.covers rest taking few
  have bad : pppfcs PPP_INITFCS ([c ^^^ PPP_TRANS] ++ rest) ≠ PPP_GOODFCS := by
    rw [← pppfcs_checked mode m, first]
    exact fun same => xor_trans_ne c (pppfcs_first same)
  obtain ⟨inq, ip⟩ := @Taking.flag _ vj _ _ _ taking' bad pppClear
  refine ⟨_, ?_, inq, ip⟩
  rw [wire, List.foldl_cons, begun, List.foldl_append, all, List.foldl_cons, List.foldl_nil,
    pppRecv_some, if_pos rfl]

/-- Whatever has arrived before, after a flag a packet is delivered as it was sent just if no escape
has been waiting for its octet, or the packet starts with one of its own. -/
theorem ppp_resync (vj : PppVj Comp) (valid : PppValid mru m) (below : mru < 2 ^ 15)
    (counted : Counted m) (matched : Matched mode mru sc) (roomy : Roomy sc.scMru sc.scM)
    (arrivals : List (PppLine × BitVec 32)) (memory : ∀ arrival ∈ arrivals, arrival.1.Memory) :
    ∃ s u sc', pppReceive vj arrivals sc = some s ∧
      pppinput vj pppClear (PPP_FLAG.setWidth 32) s = some u ∧
      pppReceive vj ((pppWire mode m).map fun c => (pppClear, c.setWidth 32)) u = some sc' ∧
      (Delivered u sc' [m] ↔ s.escaped = false ∨ (pppWire mode m).head? = some PPP_ESCAPE) := by
  obtain ⟨s, received, settled⟩ := @pppReceive_settled _ sc vj arrivals memory roomy
  obtain ⟨settled', ilen, flush, escaped⟩ := @pppFlag_passed _ s pppClear vj ⟨rfl, rfl⟩
  have closed : pppinput vj pppClear (PPP_FLAG.setWidth 32) s = some (pppFlag vj pppClear s) := by
    have flag : pppRecv vj (some s) PPP_FLAG =
      some (pppFlag vj pppClear s) := by rw [pppRecv_some, if_pos rfl]
    rwa [pppRecv, Option.bind_some] at flag
  have both := settled.trans settled'
  generalize pppFlag vj pppClear s = u at *
  have matched' : Matched mode mru u :=
    ⟨both.up.trans matched.up, by rw [both.map]; exact matched.covers,
      fun comp => both.accept.trans (matched.accept comp), both.mru.trans matched.mru⟩
  have roomy' : Roomy u.scMru u.scM := by
    rw [both.mru]
    exact both.roomy roomy
  have ready : Ready { u with escaped := false } := ⟨flush, rfl, ilen, roomy'⟩
  obtain ⟨c, rest, first⟩ := List.exists_cons_of_ne_nil (pppChecked_ne_nil mode m)
  -- with no escape waiting the packet is delivered
  obtain ⟨sc', wire, -, grown⟩ := @pppRecv_wire _ vj mode { u with escaped := false }
    mru m valid below
    ⟨matched'.up, matched'.covers, matched'.accept, matched'.mru⟩ ready
  rw [if_pos counted] at grown
  have delivered : Delivered u sc' [m] := grown.delivered
  rcases Bool.eq_false_or_eq_true s.escaped with waits | none
  · have waits' : u.escaped = true := escaped.trans waits
    cases sort : escapeP mode c with
    | true =>
      have stuffed :
          pppWire mode m =
          PPP_ESCAPE :: ((c ^^^ PPP_TRANS) :: (pppStuff mode rest ++ [PPP_FLAG])) := by
        rw [pppWire_eq, first, pppStuff, stuff_cons, if_pos sort]
        rfl
      have same : pppRecv vj (some u) PPP_ESCAPE =
        pppRecv vj (some { u with escaped := false }) PPP_ESCAPE := by
        have inside : PPP_ESCAPE ≠ PPP_FLAG := by decide
        rw [pppRecv_some, pppRecv_some, if_neg inside, if_neg inside]
        simp only [flush, Bool.false_eq_true, ↓reduceIte]
      refine ⟨s, u, sc', received, closed, ?_, iff_of_true delivered (.inr (by rw [stuffed]; rfl))⟩
      rw [stuffed, List.foldl_cons, ← same] at wire
      rw [pppReceive_eq, stuffed, List.foldl_cons]
      exact wire
    | false =>
      obtain ⟨sc', lost, inq, ip⟩ :=
        @pppRecv_lost _ vj mode u m mru c rest valid counted matched' ready waits' first sort
      have stuffed : (pppWire mode m).head? = some c := by
        rw [pppWire_eq, first, pppStuff, stuff_cons,
          if_neg (by rw [sort]; exact Bool.false_ne_true)]
        rfl
      refine ⟨s, u, sc', received, closed, (pppReceive_eq _).trans lost,
        iff_of_false (fun delivered => ?_) ?_⟩
      · have none : Delivered u sc' [] := ⟨by rw [ip]; simp, by rw [inq]; simp⟩
        exact absurd (delivered.length none) (Nat.succ_ne_zero 0)
      · rw [waits, stuffed, not_or]
        exact ⟨Bool.noConfusion, fun escape => (escapeP_plain matched'.covers sort).2.1
          (Option.some.inj escape)⟩
  · have alike : { u with escaped := false } = u := by rw [← none, ← escaped]
    rw [alike] at wire
    exact ⟨s, u, sc', received, closed, (pppReceive_eq _).trans wire,
      iff_of_true delivered (.inl none)⟩

/-- An octet of a frame, after an escape that has its octet. -/
theorem ppp_resync_byte :
    ∃ u sc', Delivered u sc' [pppHeader false PPP_ALLSTATIONS PPP_UI PPP_IP [[0x7e]]] ∧
      pppReceive noVj
        ((pppWire ⟨0, true, true⟩ (pppHeader false PPP_ALLSTATIONS PPP_UI PPP_IP [[0x7e]])).map
        fun c => (pppClear, c.setWidth 32)) u = some sc' := by
  have matched : Matched ⟨0, true, true⟩ 1500 pppOpened := ⟨rfl, by decide, fun _ => rfl, rfl⟩
  have roomy : Roomy pppOpened.scMru pppOpened.scM :=
    ⟨List.cons_ne_nil _ _, by simp [pppOpened], by decide⟩
  have valid : PppValid 1500 (pppHeader false PPP_ALLSTATIONS PPP_UI PPP_IP [[0x7e]]) := by decide
  obtain ⟨s, u, sc', received, flag, packet, iff⟩ :=
    ppp_resync noVj valid (by decide) (by decide) matched roomy
      [(pppClear, PPP_ESCAPE.setWidth 32), (pppClear, 0x45)] (by simp [PppLine.Memory, pppClear])
  cases received
  exact ⟨u, sc', iff.mpr (.inl (by decide)), packet⟩

/-- The garbage ends in an escape, and the packet after the flag is lost. -/
theorem ppp_not_resync :
    ¬ ∀ (m : PppPacket) (arrivals : List (PppLine × BitVec 32)) (s u sc' : PppSoftc Unit),
      PppValid 1500 m → Counted m → (∀ arrival ∈ arrivals, arrival.1.Memory) →
      pppReceive noVj arrivals pppOpened = some s →
      pppinput noVj pppClear (PPP_FLAG.setWidth 32) s = some u →
        pppReceive noVj ((pppWire ⟨0, true, true⟩ m).map fun c => (pppClear, c.setWidth 32)) u =
          some sc' →
          Delivered u sc' [m] := by
  intro delivers
  have valid : PppValid 1500 (pppHeader false PPP_ALLSTATIONS PPP_UI PPP_IP [[0x7e]]) := by decide
  have counted : Counted (pppHeader false PPP_ALLSTATIONS PPP_UI PPP_IP [[0x7e]]) := by decide
  have lost := delivers _ [(pppClear, PPP_ESCAPE.setWidth 32)] _ _ _ valid counted
    (by simp [PppLine.Memory, pppClear]) rfl rfl rfl
  exact absurd lost (by decide)

end Resync

end FreeBsd.Net
