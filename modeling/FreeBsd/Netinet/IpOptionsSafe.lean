import FreeBsd.Netinet.IpOptions

/-! Where `ip_dooptions` reads and writes: the options that it processes inside their extents,
and the ones that take it elsewhere. -/
namespace FreeBsd.Netinet

open FreeBsd.Lib

section Accesses

variable {limit cp optlen off n o : Nat} {h : Header} {b : Byte} {a : InAddr}

def Inside (cp optlen off : Nat) : Prop :=
  cp ≤ off ∧ off < cp + optlen ∨ ipDst ≤ off ∧ off < ipDst + 4

def Access.Within (limit : Nat) : Access → Prop
  | .read off => off < limit
  | .write off cp optlen => Inside cp optlen off
  | .null => False

namespace Header

/-- Every access so far reads a byte of the header or writes one of its own option. -/
def Good (limit : Nat) (h : Header) : Prop := ∀ access ∈ h.trace, access.Within limit

@[simp] theorem mem_read : (h.read off n).mem = h.mem := rfl

@[simp] theorem mem_put : (h.put cp optlen off b).mem o = if o = off then b else h.mem o := rfl

theorem mem_putAddr_of_notMem (away : ¬ (off ≤ o ∧ o < off + 4)) :
    (h.putAddr cp optlen off a).mem o = h.mem o :=
  dif_neg away

theorem good_read : (h.read off n).Good limit ↔ h.Good limit ∧ (n = 0 ∨ off + n ≤ limit) := by
  simp only [Good, read, List.mem_append, List.mem_map, List.mem_range]
  constructor
  · intro good
    refine ⟨fun access member => good access (.inl member), ?_⟩
    by_contra outside
    have last : off + (n - 1) < limit := good _ (.inr ⟨n - 1, by lia, rfl⟩)
    lia
  · rintro ⟨good, within⟩ access (member | ⟨i, below, rfl⟩)
    · exact good access member
    · change off + i < limit
      lia

theorem good_put : (h.put cp optlen off b).Good limit ↔ h.Good limit ∧ Inside cp optlen off := by
  simp only [Good, put, List.mem_append, List.mem_singleton]
  constructor
  · exact fun good => ⟨fun access member => good access (.inl member), good _ (.inr rfl)⟩
  · rintro ⟨good, inside⟩ access (member | rfl)
    · exact good access member
    · exact inside

theorem good_putAddr : (h.putAddr cp optlen off a).Good limit ↔
    h.Good limit ∧ ∀ i < 4, Inside cp optlen (off + i) := by
  simp only [Good, putAddr, List.mem_append, List.mem_map, List.mem_range]
  constructor
  · exact fun good => ⟨fun access member => good access (.inl member),
      fun i below => good _ (.inr ⟨i, below, rfl⟩)⟩
  · rintro ⟨good, inside⟩ access (member | ⟨i, below, rfl⟩)
    · exact good access member
    · exact inside i below

end Header

def Kept (limit cp optlen : Nat) (h h' : Header) : Prop :=
  h'.Good limit ∧ ∀ o, cp + optlen ≤ o → h'.mem o = h.mem o

theorem Kept.refl (good : h.Good limit) : Kept limit cp optlen h h := ⟨good, fun _ _ => rfl⟩

variable {h' : Header}

theorem Kept.read (kept : Kept limit cp optlen h h') (within : off + n ≤ limit) :
    Kept limit cp optlen h (h'.read off n) :=
  ⟨Header.good_read.mpr ⟨kept.1, .inr within⟩, kept.2⟩

theorem Kept.put (kept : Kept limit cp optlen h h') (low : ipDst + 4 ≤ cp)
    (inside : Inside cp optlen off) :
    Kept limit cp optlen h (h'.put cp optlen off b) := by
  refine ⟨Header.good_put.mpr ⟨kept.1, inside⟩, fun o behind => ?_⟩
  unfold Inside at inside
  rw [Header.mem_put, if_neg (by omega)]
  exact kept.2 o behind

theorem Kept.putAddr (kept : Kept limit cp optlen h h') (low : ipDst + 4 ≤ cp)
    (inside : ∀ i < 4, Inside cp optlen (off + i)) :
      Kept limit cp optlen h (h'.putAddr cp optlen off a) := by
  refine ⟨Header.good_putAddr.mpr ⟨kept.1, inside⟩, fun o behind => ?_⟩
  have first := inside 0 (by lia)
  have last := inside 3 (by lia)
  unfold Inside at first last
  rw [Header.mem_putAddr_of_notMem (by lia)]
  exact kept.2 o behind

end Accesses

section Kinds

variable {limit cp optlen : Nat} {h : Header} {forward addressed : Bool} {env : Lookups}

@[simp] theorem mem_readRcvif : (readRcvif env h cp).mem = h.mem := by
  unfold readRcvif
  split
  · rfl
  · rfl

theorem readRcvif_some (there : (env.rcvif cp).isSome = true) : readRcvif env h cp = h :=
  if_pos there

theorem good_readRcvif : (readRcvif env h cp).Good limit ↔ h.Good limit ∧
    (env.rcvif cp).isSome = true := by
  unfold readRcvif
  split
  · rename_i there
    exact ⟨fun good => ⟨good, there⟩, fun good => good.1⟩
  · rename_i missing
    refine ⟨fun good => ?_, fun good => absurd good.2 missing⟩
    exact (good .null (List.mem_append_right _ (List.mem_singleton_self _))).elim

theorem usub_four {n : Nat} (enough : 4 ≤ n) (small : n < 256) : usub n 4 = n - 4 := by
  unfold usub
  lia

theorem usub_wrapped {n off : Nat} (few : n < 4) (small : off < 256) : ¬ off > usub n 4 := by
  unfold usub
  lia

theorem saveRte_kept {h' : Header} (kept : Kept limit cp optlen h h') (low : ipDst + 4 ≤ cp)
    (length : (h'.mem (cp + IPOPT_OLEN)).toNat = optlen) (short : 2 ≤ optlen)
    (within : cp + optlen ≤ limit) :
    Kept limit cp optlen h (saveRte h' cp) := by
  have start : Kept limit cp optlen h ((h'.read ipSrc 4).read (cp + IPOPT_OLEN) 1) := by
    unfold ipDst at low
    unfold ipSrc IPOPT_OLEN
    exact (kept.read (by lia)).read (by lia)
  unfold saveRte
  dsimp only
  rw [length]
  split
  · exact start
  · exact start.read within

theorem sourceRoute_kept (good : h.Good limit) (low : ipDst + 4 ≤ cp) (within : cp + optlen ≤ limit)
    (length : (h.mem (cp + IPOPT_OLEN)).toNat = optlen) (header : cp + 2 < limit)
    (room : IPOPT_MINOFF ≤ (h.mem (cp + IPOPT_OFFSET)).toNat → 4 ≤ optlen) (opt : Byte) :
    Kept limit cp optlen h (sourceRoute env h cp optlen opt forward).1 := by
  have first : Kept limit cp optlen h (h.read (cp + IPOPT_OFFSET) 1) :=
    (Kept.refl good).read (by unfold IPOPT_OFFSET; lia)
  have second : Kept limit cp optlen h ((h.read (cp + IPOPT_OFFSET) 1).read ipDst 4) :=
    first.read (by lia)
  have size : optlen < 256 := by rw [← length]; exact (h.mem _).isLt
  unfold sourceRoute
  dsimp only
  split
  · exact first
  · rename_i above
    have enough := room (by lia)
    split
    · split
      · exact second
      · exact second
    · rw [usub_four enough size]
      unfold IPOPT_MINOFF at above
      split
      · exact saveRte_kept second low length (by lia) within
      · have third := @Kept.read _ _ _ (cp + ((h.mem (cp + IPOPT_OFFSET)).toNat - 1)) 4 _ _ second
          (by lia)
        split
        · exact third
        · refine (((third.putAddr low ?_).putAddr low ?_).read ?_).put low ?_
          · exact fun i below => .inr (by lia)
          · exact fun i below => .inl (by lia)
          · unfold IPOPT_OFFSET
            lia
          · exact .inl (by unfold IPOPT_OFFSET; lia)

theorem recordRoute_kept (good : h.Good limit) (low : ipDst + 4 ≤ cp) (size : optlen < 256)
    (header : cp + 2 < limit)
    (room : IPOPT_MINOFF ≤ (h.mem (cp + IPOPT_OFFSET)).toNat → 4 ≤ optlen) :
    Kept limit cp optlen h (recordRoute env h cp optlen forward).1 := by
  have first : Kept limit cp optlen h (h.read (cp + IPOPT_OFFSET) 1) :=
    (Kept.refl good).read (by unfold IPOPT_OFFSET; lia)
  unfold recordRoute
  dsimp only
  split
  · exact first
  · rename_i above
    have enough := room (by lia)
    rw [usub_four enough size]
    unfold IPOPT_MINOFF at above
    split
    · exact first
    · have second := @Kept.read _ _ _ ipDst 4 _ _ first (by lia)
      split
      · exact second
      · refine ((second.putAddr low ?_).read ?_).put low ?_
        · exact fun i below => .inl (by lia)
        · unfold IPOPT_OFFSET
          lia
        · exact .inl (by unfold IPOPT_OFFSET; lia)

theorem advancePtr_kept {h' : Header} (kept : Kept limit cp optlen h h') (low : ipDst + 4 ≤ cp)
    (long : 5 ≤ optlen) (within : cp + optlen ≤ limit) :
      Kept limit cp optlen h (advancePtr h' cp optlen) :=
  (kept.read (by lia)).put low (.inl (by lia))

theorem mem_advancePtr (h : Header) (cp optlen : Nat) :
    (advancePtr h cp optlen).mem (cp + 2) = h.mem (cp + 2) + 4 :=
  if_pos rfl

theorem toNat_add_four {b : Byte} (small : b.toNat + 8 < 256) : (b + 4).toNat = b.toNat + 4 := by
  rw [BitVec.toNat_add]
  exact Nat.mod_eq_of_lt (by change b.toNat + 4 < 256; omega)

theorem storeTime_kept {h' : Header} (kept : Kept limit cp optlen h h') (low : ipDst + 4 ≤ cp)
    (long : 5 ≤ optlen) (within : cp + optlen ≤ limit)
    (inside : ∀ i < 4, Inside cp optlen (cp + (h'.mem (cp + 2)).toNat - 1 + i)) :
    Kept limit cp optlen h (storeTime env h' cp optlen) :=
  advancePtr_kept ((kept.read (by omega)).putAddr low inside) low long within

theorem timestamp_kept (good : h.Good limit) (low : ipDst + 4 ≤ cp) (within : cp + optlen ≤ limit)
    (header : cp + 1 < limit) (length : (h.mem (cp + 1)).toNat = optlen)
    (only : 5 ≤ optlen → (h.mem (cp + 2)).toNat ≤ optlen - 4 →
      (h.mem (cp + 3) &&& 0xf).toNat = IPOPT_TS_TSONLY →
      0 < (h.mem (cp + 2)).toNat ∨ cp = ipDst + 4)
    (pair : 5 ≤ optlen → (h.mem (cp + 3) &&& 0xf).toNat = IPOPT_TS_TSANDADDR →
      (h.mem (cp + 2)).toNat + 8 ≤ optlen → addressed = true ∧ 4 ≤ (h.mem (cp + 2)).toNat)
    (known : (env.rcvif cp).isSome = addressed) :
    Kept limit cp optlen h (timestamp env h cp optlen forward).1 := by
  have size : optlen < 256 := by rw [← length]; exact (h.mem _).isLt
  have first : Kept limit cp optlen h (h.read (cp + 1) 1) := (Kept.refl good).read (by lia)
  unfold timestamp
  dsimp only
  rw [length]
  split
  · exact first
  · rename_i long
    have second : Kept limit cp optlen h (((h.read (cp + 1) 1).read (cp + 2) 1).read (cp + 3) 1) :=
      (first.read (by lia)).read (by lia)
    rw [usub_four (by lia) size]
    split
    · have counted :
          Kept limit cp optlen h ((((h.read (cp + 1) 1).read (cp + 2) 1).read (cp + 3) 1).put cp
          optlen (cp + 3)
          (h.mem (cp + 3) + 0x10)) := second.put low (.inl (by lia))
      split
      · exact counted
      · exact counted
    · rename_i fits
      split
      · rename_i flg
        have some := only (by lia) (by lia) flg
        refine storeTime_kept second low (by lia) within fun i below => ?_
        change Inside cp optlen (cp + (h.mem (cp + 2)).toNat - 1 + i)
        unfold Inside ipDst at *
        lia
      · split
        · rename_i flg
          split
          · exact second
          · obtain ⟨address, above⟩ := pair (by lia) flg (by lia)
            rw [readRcvif_some (known.trans address)]
            have stored : Kept limit cp optlen h (advancePtr
                ((((h.read (cp + 1) 1).read (cp + 2) 1).read (cp + 3) 1).putAddr cp optlen
                  (cp + (h.mem (cp + 2)).toNat - 1) ((env.rcvif cp).getD (env.low cp))) cp
                    optlen) :=
              advancePtr_kept (second.putAddr low fun i below => .inl (by lia)) low (by lia) within
            refine storeTime_kept stored low (by lia) within fun i below => ?_
            rw [mem_advancePtr, Header.mem_putAddr_of_notMem (by lia)]
            change Inside cp optlen (cp + (h.mem (cp + 2) + 4).toNat - 1 + i)
            rw [toNat_add_four (by lia)]
            exact .inl (by lia)
        · split
          · split
            · exact second
            · have third :
                  Kept limit cp optlen h
                  ((((h.read (cp + 1) 1).read (cp + 2) 1).read (cp + 3) 1).read
                  (cp + (h.mem (cp + 2)).toNat - 1) 4) := second.read (by unfold ipDst at low; lia)
              split
              · exact third
              · refine storeTime_kept (advancePtr_kept third low (by lia) within) low
                  (by lia) within fun i below => ?_
                rw [mem_advancePtr]
                change Inside cp optlen (cp + (h.mem (cp + 2) + 4).toNat - 1 + i)
                rw [toNat_add_four (by lia)]
                exact .inl (by lia)
          · exact second

end Kinds

section Conditions

variable {mem : Nat → Byte} {limit cp cnt optlen : Nat} {h : Header} {forward addressed : Bool}
  {env : Lookups} {opt : Byte}

def IsRoute (opt : Byte) : Prop := (opt = IPOPT_LSRR ∨ opt = IPOPT_SSRR) ∨ opt = IPOPT_RR

/-- The option is processed inside its extent, whatever the lookups return: a route has its pointer
in the header, and room for an address if the pointer is taken; a timestamp is not stored below its
start, and the address of the receiving interface only if it has one, and not over the pointer. -/
structure Fits (addressed : Bool) (mem : Nat → Byte) (cp cnt optlen : Nat) : Prop where
  header : IsRoute (mem cp) → 2 < cnt
  room : IsRoute (mem cp) → IPOPT_MINOFF ≤ (mem (cp + IPOPT_OFFSET)).toNat → 4 ≤ optlen
  only : mem cp = IPOPT_TS → 5 ≤ optlen → (mem (cp + 2)).toNat ≤ optlen - 4 →
    (mem (cp + 3) &&& 0xf).toNat = IPOPT_TS_TSONLY → 0 < (mem (cp + 2)).toNat ∨ cp = ipDst + 4
  pair : mem cp = IPOPT_TS → 5 ≤ optlen → (mem (cp + 3) &&& 0xf).toNat = IPOPT_TS_TSANDADDR →
    (mem (cp + 2)).toNat + 8 ≤ optlen → addressed = true ∧ 4 ≤ (mem (cp + 2)).toNat

def Rejected (mem : Nat → Byte) (cp optlen : Nat) : Prop :=
  IsRoute (mem cp) ∧ (mem (cp + IPOPT_OFFSET)).toNat < IPOPT_MINOFF ∨
    mem cp = IPOPT_TS ∧ (optlen < 5 ∨
      (mem (cp + 2)).toNat > optlen - 4 ∧ (mem (cp + 3) + 0x10) &&& 0xf0 = 0 ∨
      (mem (cp + 2)).toNat ≤ optlen - 4 ∧ (mem (cp + 3) &&& 0xf).toNat ≠ IPOPT_TS_TSONLY ∧
        ((mem (cp + 3) &&& 0xf).toNat ≠ IPOPT_TS_TSANDADDR ∧
          (mem (cp + 3) &&& 0xf).toNat ≠ IPOPT_TS_PRESPEC ∨
          (mem (cp + 2)).toNat + 8 > optlen))

/-- Every lookup finds an interface, of the address 100.100.100.100; the receiving one may have
none. -/
def Lookups.found (addressed : Bool) : Lookups where
  ifwithaddr _ _ := some fun _ => 100
  ifwithdstaddr _ _ := some fun _ => 100
  iaonnetof _ _ := some fun _ => 100
  rtaddr _ _ := some fun _ => 100
  rcvif _ := if addressed then some fun _ => 100 else none
  low _ := fun _ => 100
  iptime _ := fun _ => 0

theorem found_rcvif (addressed : Bool) (cp : Nat) :
    ((Lookups.found addressed).rcvif cp).isSome = addressed := by
  cases addressed with
  | false => rfl
  | true => rfl

theorem doOption_kept (good : h.Good limit) (low : ipDst + 4 ≤ cp) (size : cp + cnt = limit)
    (within : optlen ≤ cnt) (more : 1 < cnt) (opt_eq : opt = h.mem cp)
    (length : (h.mem (cp + IPOPT_OLEN)).toNat = optlen) (fits : Fits addressed h.mem cp cnt optlen)
    (known : (env.rcvif cp).isSome = addressed) :
      Kept limit cp optlen h (doOption env h cp optlen opt forward).1 := by
  subst opt_eq
  unfold doOption
  split
  · rename_i source
    have header := fits.header (.inl source)
    exact sourceRoute_kept good low (by lia) length (by lia) (fits.room (.inl source)) _
  · split
    · rename_i record
      have header := fits.header (.inr record)
      have small : optlen < 256 := by rw [← length]; exact (h.mem _).isLt
      exact recordRoute_kept good low small (by lia) (fits.room (.inr record))
    · split
      · rename_i stamp
        exact timestamp_kept good low (by lia) (by lia) length (fits.only stamp) (fits.pair stamp)
          known
      · exact Kept.refl good

theorem doOption_rejected (opt_eq : opt = h.mem cp)
    (length : (h.mem (cp + IPOPT_OLEN)).toNat = optlen) (rejected : Rejected h.mem cp optlen) :
      ∃ bad, (doOption env h cp optlen opt forward).2.2 = some bad := by
  subst opt_eq
  have size : optlen < 256 := by rw [← length]; exact (h.mem _).isLt
  rcases rejected with ⟨route, few⟩ | ⟨stamp, kind⟩
  · unfold doOption
    rcases route with source | record
    · rw [if_pos source]
      exact ⟨_, by rw [sourceRoute, if_pos few]⟩
    · have other : ¬ (h.mem cp = IPOPT_LSRR ∨ h.mem cp = IPOPT_SSRR) := by rw [record]; decide
      rw [if_neg other, if_pos record]
      exact ⟨_, by rw [recordRoute, if_pos few]⟩
  · have other : ¬ (h.mem cp = IPOPT_LSRR ∨ h.mem cp = IPOPT_SSRR) ∧ h.mem cp ≠ IPOPT_RR := by
      rw [stamp]
      decide
    unfold doOption
    rw [if_neg other.1, if_neg other.2, if_pos stamp]
    have length : (h.mem (cp + 1)).toNat = optlen := length
    unfold timestamp
    dsimp only
    rw [length]
    by_cases short : optlen < 5
    · exact ⟨_, by rw [if_pos short]⟩
    · rw [if_neg short, usub_four (by lia) size]
      rcases kind with wrong | ⟨full, wrapped⟩ | ⟨fits, notOnly, wrong⟩
      · exact absurd wrong short
      · exact ⟨_, by rw [if_pos full, if_pos wrapped]⟩
      · rw [if_neg (by lia), if_neg notOnly]
        rcases wrong with ⟨notPair, notSpec⟩ | long
        · exact ⟨_, by rw [if_neg notPair, if_neg notSpec]⟩
        · split
          · exact ⟨_, rfl⟩
          · split
            · exact ⟨_, rfl⟩
            · exact ⟨_, rfl⟩

theorem doOption_found (opt_eq : opt = h.mem cp) (length : (h.mem (cp + IPOPT_OLEN)).toNat = optlen)
    (accepted : ¬ Rejected h.mem cp optlen) :
      (doOption (.found addressed) h cp optlen opt forward).2.2 = none := by
  subst opt_eq
  have size : optlen < 256 := by rw [← length]; exact (h.mem _).isLt
  unfold doOption
  split
  · rename_i source
    have some : ¬ (h.mem (cp + IPOPT_OFFSET)).toNat < IPOPT_MINOFF :=
      fun few => accepted (.inl ⟨.inl source, few⟩)
    unfold sourceRoute
    dsimp only [Lookups.found]
    rw [if_neg some]
    split
    · rfl
    · by_cases strict : h.mem cp = IPOPT_SSRR
      · rw [if_pos strict]
        rfl
      · rw [if_neg strict]
  · split
    · rename_i record
      have some : ¬ (h.mem (cp + IPOPT_OFFSET)).toNat < IPOPT_MINOFF :=
        fun few => accepted (.inl ⟨.inr record, few⟩)
      unfold recordRoute
      dsimp only [Lookups.found]
      rw [if_neg some]
      split
      · rfl
      · rfl
    · split
      · rename_i stamp
        have length : (h.mem (cp + 1)).toNat = optlen := length
        unfold timestamp
        dsimp only [Lookups.found]
        rw [length]
        split
        · exact absurd (.inr ⟨stamp, .inl ‹_›⟩) accepted
        · rename_i long
          rw [usub_four (by omega) size]
          split
          · rename_i full
            split
            · exact absurd (.inr ⟨stamp, .inr (.inl ⟨full, ‹_›⟩)⟩) accepted
            · rfl
          · have refuse :=
              fun wrong => accepted (.inr ⟨stamp, .inr (.inr ⟨Nat.le_of_not_lt ‹_›, wrong⟩)⟩)
            split
            · rfl
            · rename_i notOnly
              split
              · split
                · exact absurd ⟨notOnly, .inr (by omega)⟩ refuse
                · rfl
              · split
                · split
                  · exact absurd ⟨notOnly, .inr (by omega)⟩ refuse
                  · rfl
                · exact absurd ⟨notOnly, .inl ⟨‹_›, ‹_›⟩⟩ refuse
      · rfl

theorem Header.Good.of_put {off : Nat} {b : Byte} (good : (h.put cp optlen off b).Good limit) :
    h.Good limit :=
  (Header.good_put.mp good).1

theorem Header.Good.of_read {off n : Nat} (good : (h.read off n).Good limit) : h.Good limit :=
  (Header.good_read.mp good).1

theorem Header.Good.of_putAddr {off : Nat} {a : InAddr}
    (good : (h.putAddr cp optlen off a).Good limit) : h.Good limit :=
  (Header.good_putAddr.mp good).1

theorem Header.Good.of_advancePtr (good : (advancePtr h cp optlen).Good limit) : h.Good limit :=
  good.of_put.of_read

theorem Header.Good.of_storeTime (good : (storeTime env h cp optlen).Good limit) :
    h.Good limit ∧ ∀ i < 4, Inside cp optlen (cp + (h.mem (cp + 2)).toNat - 1 + i) := by
  obtain ⟨before, inside⟩ := Header.good_putAddr.mp good.of_advancePtr
  exact ⟨before.of_read, inside⟩

/-- An address that is stored from inside a route's option of less than four bytes on leaves it. -/
theorem not_inside_short {off : Nat} (low : ipDst + 4 ≤ cp) (few : optlen < 4)
    (some : IPOPT_MINOFF ≤ off) :
    ¬ ∀ i < 4, Inside cp optlen (cp + (off - 1) + i) := by
  intro inside
  have first := inside 0 (by lia)
  unfold Inside at first
  unfold IPOPT_MINOFF at some
  lia

theorem sourceRoute_fits (low : ipDst + 4 ≤ cp) (within : cp + optlen ≤ limit)
    (good : (sourceRoute (.found addressed) h cp optlen opt forward).1.Good limit) :
    cp + 2 < limit ∧ (IPOPT_MINOFF ≤ (h.mem (cp + IPOPT_OFFSET)).toNat → 4 ≤ optlen) := by
  have small : (h.mem (cp + IPOPT_OFFSET)).toNat < 256 := (h.mem _).isLt
  unfold sourceRoute at good
  dsimp only [Lookups.found] at good
  split at good
  · have read := (Header.good_read.mp good).2
    unfold IPOPT_OFFSET at *
    exact ⟨by lia, by lia⟩
  · rename_i some
    by_cases few : optlen < 4
    · have taken := @usub_wrapped optlen ((h.mem (cp + IPOPT_OFFSET)).toNat - 1) few (by lia)
      rw [if_neg taken] at good
      by_cases strict : opt = IPOPT_SSRR
      · rw [if_pos strict] at good
        obtain ⟨-, inside⟩ := Header.good_putAddr.mp good.of_put.of_read
        exact absurd inside (not_inside_short low few (by lia))
      · rw [if_neg strict] at good
        obtain ⟨-, inside⟩ := Header.good_putAddr.mp good.of_put.of_read
        exact absurd inside (not_inside_short low few (by lia))
    · exact ⟨by lia, fun _ => by lia⟩

theorem recordRoute_fits (low : ipDst + 4 ≤ cp) (within : cp + optlen ≤ limit)
    (good : (recordRoute (.found addressed) h cp optlen forward).1.Good limit) :
    cp + 2 < limit ∧ (IPOPT_MINOFF ≤ (h.mem (cp + IPOPT_OFFSET)).toNat → 4 ≤ optlen) := by
  have small : (h.mem (cp + IPOPT_OFFSET)).toNat < 256 := (h.mem _).isLt
  unfold recordRoute at good
  dsimp only [Lookups.found] at good
  split at good
  · have read := (Header.good_read.mp good).2
    unfold IPOPT_OFFSET at *
    exact ⟨by lia, by lia⟩
  · by_cases few : optlen < 4
    · have taken := @usub_wrapped optlen ((h.mem (cp + IPOPT_OFFSET)).toNat - 1) few (by lia)
      rw [if_neg taken] at good
      obtain ⟨-, inside⟩ := Header.good_putAddr.mp good.of_put.of_read
      exact absurd inside (not_inside_short low few (by lia))
    · exact ⟨by lia, fun _ => by lia⟩

theorem timestamp_fits (low : ipDst + 4 ≤ cp) (small : optlen ≤ 40)
    (length : (h.mem (cp + 1)).toNat = optlen)
    (good : (timestamp (.found addressed) h cp optlen forward).1.Good limit) (long : 5 ≤ optlen)
    (room : (h.mem (cp + 2)).toNat ≤ optlen - 4) :
    ((h.mem (cp + 3) &&& 0xf).toNat = IPOPT_TS_TSONLY → 0 < (h.mem (cp + 2)).toNat ∨
      cp = ipDst + 4) ∧
      ((h.mem (cp + 3) &&& 0xf).toNat = IPOPT_TS_TSANDADDR → (h.mem (cp + 2)).toNat + 8 ≤ optlen →
        addressed = true ∧ 4 ≤ (h.mem (cp + 2)).toNat) := by
  unfold timestamp at good
  dsimp only at good
  rw [length, if_neg (by lia), usub_four (by lia) (by lia), if_neg (by lia)] at good
  constructor
  · intro flg
    rw [if_pos flg] at good
    have first := good.of_storeTime.2 0 (by lia)
    change Inside cp optlen (cp + (h.mem (cp + 2)).toNat - 1 + 0) at first
    unfold Inside ipDst at *
    lia
  · intro flg fits
    have other : ¬ (h.mem (cp + 3) &&& 0xf).toNat = IPOPT_TS_TSONLY := by
      rw [flg]
      decide
    rw [if_neg other, if_pos flg, if_neg (by lia)] at good
    have address : ((Lookups.found addressed).rcvif cp).isSome = true :=
      (good_readRcvif.mp good.of_storeTime.1.of_advancePtr.of_putAddr).2
    refine ⟨(found_rcvif addressed cp).symm.trans address, ?_⟩
    rw [found_rcvif] at address
    subst address
    rw [readRcvif_some (found_rcvif true cp)] at good
    by_contra below
    -- the address has been stored over the pointer
    have first := good.of_storeTime.2 0 (by lia)
    rw [mem_advancePtr] at first
    have stored : ((((h.read (cp + 1) 1).read (cp + 2) 1).read (cp + 3) 1).putAddr cp optlen
        (cp + (h.mem (cp + 2)).toNat - 1)
        (((Lookups.found true).rcvif cp).getD ((Lookups.found true).low cp))).mem (cp + 2) = 100 :=
      dif_pos (by unfold ipDst at low; lia)
    rw [stored] at first
    change Inside cp optlen (cp + 104 - 1 + 0) at first
    unfold Inside ipDst at first
    unfold ipDst at low
    lia

theorem doOption_fits (opt_eq : opt = h.mem cp) (low : ipDst + 4 ≤ cp) (size : cp + cnt = limit)
    (within : optlen ≤ cnt) (small : cnt ≤ 40) (length : (h.mem (cp + IPOPT_OLEN)).toNat = optlen)
    (good : (doOption (.found addressed) h cp optlen opt forward).1.Good limit) :
    Fits addressed h.mem cp cnt optlen := by
  subst opt_eq
  have route (is : IsRoute (h.mem cp)) :
      cp + 2 < limit ∧ (IPOPT_MINOFF ≤ (h.mem (cp + IPOPT_OFFSET)).toNat → 4 ≤ optlen) := by
    unfold doOption at good
    rcases is with source | record
    · rw [if_pos source] at good
      exact sourceRoute_fits low (by lia) good
    · have other : ¬ (h.mem cp = IPOPT_LSRR ∨ h.mem cp = IPOPT_SSRR) := by rw [record]; decide
      rw [if_neg other, if_pos record] at good
      exact recordRoute_fits low (by lia) good
  have stamp (is : h.mem cp = IPOPT_TS) :
      (timestamp (.found addressed) h cp optlen forward).1.Good limit := by
    have other : ¬ (h.mem cp = IPOPT_LSRR ∨ h.mem cp = IPOPT_SSRR) ∧ h.mem cp ≠ IPOPT_RR := by
      rw [is]
      decide
    unfold doOption at good
    rw [if_neg other.1, if_neg other.2, if_pos is] at good
    exact good
  constructor
  case header =>
    intro is
    have header := (route is).1
    lia
  case room => exact fun is => (route is).2
  case only => exact fun is long room => (timestamp_fits low (by lia) length (stamp is) long room).1
  case pair => exact fun is long flg fits =>
    (timestamp_fits low (by lia) length (stamp is) long (by lia)).2 flg fits

end Conditions

section Loop

variable {mem : Nat → Byte} {limit cp cnt : Nat} {addressed : Bool} {env : Lookups} {s : Cursor}

/-- The options of the `cnt` bytes from `cp` on, as far as they are processed, have their length in
the header and are processed inside their extents. -/
inductive Careful (addressed : Bool) (mem : Nat → Byte) : (cp cnt : Nat) → Prop
  | done (cp : Nat) : Careful addressed mem cp 0
  | eol {cp cnt : Nat} (more : 0 < cnt) (opt : mem cp = IPOPT_EOL) : Careful addressed mem cp cnt
  | nop {cp cnt : Nat} (opt : mem cp = IPOPT_NOP) (rest : Careful addressed mem (cp + 1) cnt) :
      Careful addressed mem cp (cnt + 1)
  | badLength {cp cnt : Nat} (opt : mem cp ≠ IPOPT_EOL ∧ mem cp ≠ IPOPT_NOP) (more : 1 < cnt)
      (wrong : (mem (cp + IPOPT_OLEN)).toNat = 0 ∨ (mem (cp + IPOPT_OLEN)).toNat > cnt) :
      Careful addressed mem cp cnt
  | rejected {cp cnt : Nat} (opt : mem cp ≠ IPOPT_EOL ∧ mem cp ≠ IPOPT_NOP) (more : 1 < cnt)
      (fits : Fits addressed mem cp cnt (mem (cp + IPOPT_OLEN)).toNat)
      (bad : Rejected mem cp (mem (cp + IPOPT_OLEN)).toNat) : Careful addressed mem cp cnt
  | option {cp cnt : Nat} (opt : mem cp ≠ IPOPT_EOL ∧ mem cp ≠ IPOPT_NOP) (more : 1 < cnt)
      (length : 0 < (mem (cp + IPOPT_OLEN)).toNat) (within : (mem (cp + IPOPT_OLEN)).toNat ≤ cnt)
      (fits : Fits addressed mem cp cnt (mem (cp + IPOPT_OLEN)).toNat)
      (rest : Careful addressed mem (cp + (mem (cp + IPOPT_OLEN)).toNat)
        (cnt - (mem (cp + IPOPT_OLEN)).toNat)) : Careful addressed mem cp cnt

/-- The cursor is in the options of a header of `limit` bytes, whose rest is as it came. -/
structure Ahead (mem : Nat → Byte) (limit : Nat) (s : Cursor) : Prop where
  low : ipDst + 4 ≤ s.cp
  size : s.cp + s.cnt = limit
  good : s.header.Good limit
  agree : ∀ o, s.cp ≤ o → s.header.mem o = mem o

theorem Fits.congr {mem' : Nat → Byte} {optlen : Nat} (fits : Fits addressed mem cp cnt optlen)
    (agree : ∀ o, cp ≤ o → mem' o = mem o) : Fits addressed mem' cp cnt optlen := by
  have same (i : Nat) : mem' (cp + i) = mem (cp + i) := agree _ (Nat.le_add_right _ _)
  have here : mem' cp = mem cp := agree _ (Nat.le_refl _)
  constructor
  · rw [here]
    exact fits.header
  · rw [here, same]
    exact fits.room
  · rw [here, same, same]
    exact fits.only
  · rw [here, same, same]
    exact fits.pair

theorem Rejected.congr {mem' : Nat → Byte} {optlen : Nat} (rejected : Rejected mem cp optlen)
    (agree : ∀ o, cp ≤ o → mem' o = mem o) : Rejected mem' cp optlen := by
  have same (i : Nat) : mem' (cp + i) = mem (cp + i) := agree _ (Nat.le_add_right _ _)
  unfold Rejected at *
  rw [agree cp (Nat.le_refl _), same, same, same]
  exact rejected

theorem optionStep_option (more : s.cnt ≠ 0)
    (opt : s.header.mem s.cp ≠ IPOPT_EOL ∧ s.header.mem s.cp ≠ IPOPT_NOP) :
    optionStep env s =
      if (s.header.mem (s.cp + IPOPT_OLEN)).toNat = 0 ∨
        (s.header.mem (s.cp + IPOPT_OLEN)).toNat > s.cnt then
        .halt ((s.header.read s.cp 1).read (s.cp + IPOPT_OLEN) 1, s.forward,
          some ⟨ICMP_PARAMPROB, s.cp + IPOPT_OLEN⟩)
      else
        match doOption env ((s.header.read s.cp 1).read (s.cp + IPOPT_OLEN) 1) s.cp
          (s.header.mem (s.cp + IPOPT_OLEN)).toNat (s.header.mem s.cp) s.forward with
        | (h, forward, some bad) => .halt (h, forward, some bad)
        | (h, forward, none) => .next ⟨s.cp + (s.header.mem (s.cp + IPOPT_OLEN)).toNat,
            s.cnt - (s.header.mem (s.cp + IPOPT_OLEN)).toNat, h, forward⟩ := by
  exact (if_neg more).trans ((if_neg opt.1).trans (if_neg opt.2))

theorem run_halt {fuel : Nat} {r : OptResult} (enough : 0 < fuel)
    (halt : optionStep env s = .halt r) :
    run (optionStep env) fuel s = some r := by
  obtain ⟨fuel, rfl⟩ := Nat.exists_eq_succ_of_ne_zero (Nat.ne_of_gt enough)
  rw [run, halt]

theorem run_next {fuel : Nat} {t : Cursor} (next : optionStep env s = .next t) :
    run (optionStep env) (fuel + 1) s = run (optionStep env) fuel t := by
  rw [run, next]

theorem Ahead.header_good (ahead : Ahead mem limit s) (more : 1 < s.cnt) :
    ((s.header.read s.cp 1).read (s.cp + IPOPT_OLEN) 1).Good limit := by
  have size := ahead.size
  refine Header.good_read.mpr ⟨Header.good_read.mpr ⟨ahead.good, .inr (by lia)⟩, .inr ?_⟩
  unfold IPOPT_OLEN
  lia

theorem Ahead.option (ahead : Ahead mem limit s) (more : 1 < s.cnt)
    (within : (mem (s.cp + IPOPT_OLEN)).toNat ≤ s.cnt)
    (fits : Fits addressed mem s.cp s.cnt (mem (s.cp + IPOPT_OLEN)).toNat)
    (known : (env.rcvif s.cp).isSome = addressed) :
      Kept limit s.cp (mem (s.cp + IPOPT_OLEN)).toNat
        ((s.header.read s.cp 1).read (s.cp + IPOPT_OLEN) 1)
      (doOption env ((s.header.read s.cp 1).read (s.cp + IPOPT_OLEN) 1) s.cp
        (mem (s.cp + IPOPT_OLEN)).toNat (mem s.cp)
        s.forward).1 := by
  have here := ahead.agree s.cp (Nat.le_refl _)
  have length := ahead.agree (s.cp + IPOPT_OLEN) (Nat.le_add_right _ _)
  exact doOption_kept (ahead.header_good more) ahead.low ahead.size within more here.symm
    (congrArg BitVec.toNat length)
    (fits.congr ahead.agree) known

/-- Options that are careful are processed inside the header and their extents, whatever is looked
up. -/
theorem Careful.good (careful : Careful addressed mem cp cnt)
    (known : ∀ cp, (env.rcvif cp).isSome = addressed) (here : s.cp = cp) (count : s.cnt = cnt)
    (ahead : Ahead mem limit s) {fuel : Nat} (enough : cnt < fuel) :
      ∃ r, run (optionStep env) fuel s = some r ∧ r.1.Good limit := by
  induction careful generalizing s fuel with
  | done cp =>
    exact ⟨_, run_halt enough (if_pos count), ahead.good⟩
  | @eol cp cnt more opt =>
    subst here count
    have opt : s.header.mem s.cp = IPOPT_EOL := (ahead.agree _ (Nat.le_refl _)).trans opt
    have size := ahead.size
    have halt : optionStep env s = .halt (s.header.read s.cp 1, s.forward, none) := by
      unfold optionStep
      rw [if_neg (by lia), if_pos opt]
    exact ⟨_, run_halt (by lia) halt, Header.good_read.mpr ⟨ahead.good, .inr (by lia)⟩⟩
  | @nop cp cnt opt rest ih =>
    subst here
    have opt : s.header.mem s.cp = IPOPT_NOP := (ahead.agree _ (Nat.le_refl _)).trans opt
    have size := ahead.size
    have next :
      optionStep env s = .next ⟨s.cp + 1, s.cnt - 1, s.header.read s.cp 1, s.forward⟩ := by
      unfold optionStep
      rw [if_neg (by lia), if_neg (by rw [opt]; decide), if_pos opt]
    obtain ⟨fuel, rfl⟩ :=
      Nat.exists_eq_succ_of_ne_zero (Nat.ne_of_gt (Nat.lt_of_le_of_lt (Nat.zero_le _) enough))
    rw [run_next next]
    refine ih rfl (by simp [count]) ⟨?_, ?_, ?_, ?_⟩ (by lia)
    · exact Nat.le_succ_of_le ahead.low
    · dsimp only
      lia
    · exact Header.good_read.mpr ⟨ahead.good, .inr (by lia)⟩
    · exact fun o above => ahead.agree o (by dsimp only at above; lia)
  | @badLength cp cnt opt more wrong =>
    subst here count
    rw [← ahead.agree s.cp (Nat.le_refl _)] at opt
    rw [← ahead.agree _ (Nat.le_add_right _ _)] at wrong
    have step := @optionStep_option env s (by lia) opt
    rw [if_pos wrong] at step
    exact ⟨_, run_halt (by lia) step, ahead.header_good more⟩
  | @rejected cp cnt opt more fits bad =>
    subst here count
    have length := ahead.agree (s.cp + IPOPT_OLEN) (Nat.le_add_right _ _)
    have same := ahead.agree s.cp (Nat.le_refl _)
    have step := @optionStep_option env s (by lia) (same ▸ opt)
    rw [length, same] at step
    by_cases wrong : (mem (s.cp + IPOPT_OLEN)).toNat = 0 ∨ (mem (s.cp + IPOPT_OLEN)).toNat > s.cnt
    · rw [if_pos wrong] at step
      exact ⟨_, run_halt (by lia) step, ahead.header_good more⟩
    · rw [if_neg wrong] at step
      obtain ⟨why, refused⟩ := @doOption_rejected s.cp (mem (s.cp + IPOPT_OLEN)).toNat
        ((s.header.read s.cp 1).read (s.cp + IPOPT_OLEN) 1) s.forward env (mem s.cp) same.symm
          (congrArg BitVec.toNat length) (bad.congr ahead.agree)
      have kept := @Ahead.option mem limit addressed env s ahead more (by lia) fits (known _)
      revert step kept refused
      generalize doOption env _ _ _ _ _ = result
      intro step refused kept
      obtain ⟨h, forward, verdict⟩ := result
      cases refused
      exact ⟨_, run_halt (by lia) step, kept.1⟩
  | @option cp cnt opt more positive within fits rest ih =>
    subst here count
    have length := ahead.agree (s.cp + IPOPT_OLEN) (Nat.le_add_right _ _)
    have same := ahead.agree s.cp (Nat.le_refl _)
    have step := @optionStep_option env s (by lia) (same ▸ opt)
    rw [length, same, if_neg (by lia)] at step
    have kept := @Ahead.option mem limit addressed env s ahead more within fits (known _)
    revert step kept
    generalize doOption env _ _ _ _ _ = result
    intro step kept
    obtain ⟨h, forward, verdict⟩ := result
    cases verdict with
    | some bad => exact ⟨_, run_halt (by lia) step, kept.1⟩
    | none =>
      obtain ⟨fuel, rfl⟩ :=
        Nat.exists_eq_succ_of_ne_zero (Nat.ne_of_gt (Nat.lt_of_le_of_lt (Nat.zero_le _) enough))
      have low := ahead.low
      have size := ahead.size
      rw [run_next step]
      refine ih rfl rfl ⟨?_, ?_, kept.1, fun o above => ?_⟩ (by lia)
      · dsimp only
        lia
      · dsimp only
        lia
      · exact (kept.2 o above).trans (ahead.agree o (Nat.le_trans (Nat.le_add_right _ _) above))

theorem Header.Good.of_option {h : Header} {optlen : Nat} {opt : Byte} {forward : Bool}
    (good : (doOption env h cp optlen opt forward).1.Good limit) : h.Good limit := by
  unfold doOption at good
  split at good
  · unfold sourceRoute saveRte at good
    dsimp only at good
    split at good
    · exact good.of_read
    · split at good
      · split at good
        · exact good.of_read.of_read
        · exact good.of_read.of_read
      · split at good
        · split at good
          · exact good.of_read.of_read.of_read.of_read
          · exact good.of_read.of_read.of_read.of_read.of_read
        · split at good
          · exact good.of_read.of_read.of_read
          · exact good.of_put.of_read.of_putAddr.of_putAddr.of_read.of_read.of_read
  · split at good
    · unfold recordRoute at good
      dsimp only at good
      split at good
      · exact good.of_read
      · split at good
        · exact good.of_read
        · split at good
          · exact good.of_read.of_read
          · exact good.of_put.of_read.of_putAddr.of_read.of_read
    · split at good
      · unfold timestamp at good
        dsimp only at good
        split at good
        · exact good.of_read
        · split at good
          · split at good
            · exact good.of_put.of_read.of_read.of_read
            · exact good.of_put.of_read.of_read.of_read
          · split at good
            · exact good.of_storeTime.1.of_read.of_read.of_read
            · split at good
              · split at good
                · exact good.of_read.of_read.of_read
                · exact (good_readRcvif.mp
                    good.of_storeTime.1.of_advancePtr.of_putAddr).1.of_read.of_read.of_read
              · split at good
                · split at good
                  · exact good.of_read.of_read.of_read
                  · split at good
                    · exact good.of_read.of_read.of_read.of_read
                    · exact good.of_storeTime.1.of_advancePtr.of_read.of_read.of_read.of_read
                · exact good.of_read.of_read.of_read
      · exact good

theorem optionStep_good_of_next {t : Cursor} (next : optionStep env s = .next t)
    (good : t.header.Good limit) :
    s.header.Good limit := by
  unfold optionStep at next
  dsimp only at next
  split at next
  · cases next
  · split at next
    · cases next
    · split at next
      · cases next
        exact good.of_read
      · split at next
        · cases next
        · split at next
          · cases next
          · rename_i result
            cases next
            have kept := congrArg Prod.fst result
            dsimp only at good kept
            rw [← kept] at good
            exact good.of_option.of_read.of_read

theorem optionStep_good_of_halt {r : OptResult} (halt : optionStep env s = .halt r)
    (good : r.1.Good limit) :
    s.header.Good limit := by
  unfold optionStep at halt
  dsimp only at halt
  split at halt
  · cases halt
    exact good
  · split at halt
    · cases halt
      exact good.of_read
    · split at halt
      · cases halt
      · split at halt
        · cases halt
          exact good.of_read.of_read
        · split at halt
          · rename_i result
            cases halt
            have kept := congrArg Prod.fst result
            dsimp only at good kept
            rw [← kept] at good
            exact good.of_option.of_read.of_read
          · cases halt

theorem run_good {fuel : Nat} {r : OptResult} (halts : run (optionStep env) fuel s = some r)
    (good : r.1.Good limit) :
    s.header.Good limit := by
  induction fuel generalizing s with
  | zero => cases halts
  | succ fuel ih =>
    rw [run] at halts
    cases step : optionStep env s with
    | next t =>
      rw [step] at halts
      exact optionStep_good_of_next step (ih halts)
    | halt q =>
      rw [step] at halts
      obtain rfl := Option.some.inj halts
      exact optionStep_good_of_halt step good

/-- Where every lookup finds an interface the accesses are good only for careful options. -/
theorem careful_of_good {fuel : Nat} {r : OptResult} (ahead : Ahead mem limit s)
    (small : s.cnt ≤ 40) (halts : run (optionStep (.found addressed)) fuel s = some r)
    (good : r.1.Good limit) :
    Careful addressed mem s.cp s.cnt := by
  induction fuel generalizing s with
  | zero => cases halts
  | succ fuel ih =>
    have size := ahead.size
    have low := ahead.low
    have same := ahead.agree s.cp (Nat.le_refl _)
    have length := ahead.agree (s.cp + IPOPT_OLEN) (Nat.le_add_right _ _)
    by_cases none : s.cnt = 0
    · rw [none]
      exact .done s.cp
    by_cases eol : s.header.mem s.cp = IPOPT_EOL
    · exact .eol (by lia) (same.symm.trans eol)
    by_cases nop : s.header.mem s.cp = IPOPT_NOP
    · have next : optionStep (.found addressed) s =
          .next ⟨s.cp + 1, s.cnt - 1, s.header.read s.cp 1, s.forward⟩ := by
        unfold optionStep
        rw [if_neg none, if_neg eol, if_pos nop]
      rw [run_next next] at halts
      have later : Ahead mem limit ⟨s.cp + 1, s.cnt - 1, s.header.read s.cp 1, s.forward⟩ := by
        refine ⟨Nat.le_succ_of_le
          low, by dsimp only; lia, Header.good_read.mpr ⟨ahead.good, .inr (by lia)⟩, ?_⟩
        exact fun o above => ahead.agree o (by dsimp only at above; lia)
      have rest := Careful.nop (same.symm.trans nop) (ih later (by dsimp only; lia) halts)
      have count : s.cnt - 1 + 1 = s.cnt := by lia
      rw [count] at rest
      exact rest
    have opt : mem s.cp ≠ IPOPT_EOL ∧ mem s.cp ≠ IPOPT_NOP := ⟨same ▸ eol, same ▸ nop⟩
    have step := @optionStep_option (.found addressed) s none ⟨eol, nop⟩
    rw [length, same] at step
    have second {h : Header} (read : (h.read (s.cp + IPOPT_OLEN) 1).Good limit) : 1 < s.cnt := by
      have within := (Header.good_read.mp read).2
      unfold IPOPT_OLEN at within
      lia
    by_cases wrong : (mem (s.cp + IPOPT_OLEN)).toNat = 0 ∨ (mem (s.cp + IPOPT_OLEN)).toNat > s.cnt
    · rw [if_pos wrong] at step
      rw [run, step] at halts
      cases halts
      exact .badLength opt (second good) wrong
    rw [if_neg wrong] at step
    have fits (result :
        (doOption (.found addressed) ((s.header.read s.cp 1).read (s.cp + IPOPT_OLEN) 1) s.cp
        (mem (s.cp + IPOPT_OLEN)).toNat (mem s.cp) s.forward).1.Good limit) :
        1 < s.cnt ∧ Fits addressed mem s.cp s.cnt (mem (s.cp + IPOPT_OLEN)).toNat := by
      refine ⟨second result.of_option, ?_⟩
      have fits := doOption_fits (h := (s.header.read s.cp 1).read (s.cp + IPOPT_OLEN) 1) same.symm
        low size (by lia)
        small (congrArg BitVec.toNat length) result
      exact fits.congr fun o above => (ahead.agree o above).symm
    have kept := fun more within fits =>
      @Ahead.option mem limit addressed (.found addressed) s ahead more within fits
        (found_rcvif addressed s.cp)
    by_cases bad : Rejected mem s.cp (mem (s.cp + IPOPT_OLEN)).toNat
    · obtain ⟨why, refused⟩ := @doOption_rejected s.cp (mem (s.cp + IPOPT_OLEN)).toNat
        ((s.header.read s.cp 1).read (s.cp + IPOPT_OLEN) 1) s.forward (.found addressed) (mem s.cp)
        same.symm (congrArg BitVec.toNat length) (bad.congr ahead.agree)
      revert step refused fits
      generalize doOption _ _ _ _ _ _ = result
      intro step fits refused
      obtain ⟨h, forward, verdict⟩ := result
      cases refused
      rw [run, step] at halts
      cases halts
      obtain ⟨more, inside⟩ := fits good
      exact .rejected opt more inside bad
    · have goes := @doOption_found s.cp (mem (s.cp + IPOPT_OLEN)).toNat
        ((s.header.read s.cp 1).read (s.cp + IPOPT_OLEN) 1) s.forward addressed (mem s.cp) same.symm
          (congrArg BitVec.toNat length) (fun refused => bad (refused.congr fun o above =>
          (ahead.agree o above).symm))
      revert step goes fits kept
      generalize doOption _ _ _ _ _ _ = result
      intro step fits kept goes
      obtain ⟨h, forward, verdict⟩ := result
      cases goes
      rw [run_next step] at halts
      obtain ⟨more, inside⟩ := fits (run_good halts good)
      obtain ⟨still, rest⟩ := kept more (by lia) inside
      have later :
          Ahead mem limit ⟨s.cp + (mem (s.cp + IPOPT_OLEN)).toNat,
          s.cnt - (mem (s.cp + IPOPT_OLEN)).toNat, h, forward⟩ := by
        refine ⟨by dsimp only; lia, by dsimp only; lia, still, fun o above => ?_⟩
        exact (rest o above).trans (ahead.agree o (Nat.le_trans (Nat.le_add_right _ _) above))
      exact .option opt more (by lia) (by lia) inside (ih later (by dsimp only; lia) halts)

/-- `ip_dooptions` terminates, and stays in the header and in the options it processes, whatever the
other interfaces and routes are, just on the headers whose options are careful with an interface
that has an address, or has none. -/
theorem dooptions_within_iff (addressed : Bool) (mem : Nat → Byte) {hl : Nat} (low : 6 ≤ hl)
    (high : hl ≤ 15) :
    (∀ env, (∀ cp, (env.rcvif cp).isSome = addressed) →
      ∃ r, ipDooptions env mem hl = some r ∧ ∀ access ∈ r.1.trace, access.Within (4 * hl)) ↔
    Careful addressed mem sizeofIp (4 * hl - sizeofIp) := by
  have start : Ahead mem (4 * hl) ⟨sizeofIp, 4 * hl - sizeofIp, ⟨mem, []⟩, false⟩ := by
    refine ⟨Nat.le_refl _, ?_, fun access wrong => absurd wrong List.not_mem_nil, fun _ _ => rfl⟩
    change 20 + (4 * hl - 20) = 4 * hl
    omega
  constructor
  · intro all
    obtain ⟨r, halts, good⟩ := all (.found addressed) (found_rcvif addressed)
    exact careful_of_good start (by change 4 * hl - 20 ≤ 40; omega) halts good
  · intro careful env known
    exact careful.good known rfl rfl start (Nat.lt_succ_self _)

/-- A record route with room for one address, a no-operation, and a timestamp with room for the
address of the interface and a time. -/
def routeAndStamp (o : Nat) : Byte :=
  ([7, 7, 4, 0, 0, 0, 0, 1, 68, 12, 5, 1] : List Byte).getD (o - 20) 0

theorem routeAndStamp_careful : Careful true routeAndStamp sizeofIp 20 := by
  have route : Fits true routeAndStamp 20 20 7 := by
    constructor
    · exact fun _ => by decide
    · exact fun _ _ => by decide
    · decide
    · decide
  have stamp : Fits true routeAndStamp 28 12 12 := by
    constructor
    · exact fun _ => by decide
    · exact fun _ _ => by decide
    · decide
    · decide
  exact .option (by decide) (by decide) (by decide) (by decide) route <| .nop rfl <|
    .option (by decide) (by decide) (by decide) (by decide) stamp <| .done _

theorem dooptions_within_stamp : ∃ r, ipDooptions (.found true) routeAndStamp 10 = some r ∧
    ∀ access ∈ r.1.trace, access.Within 40 := by
  have within : ∀ env, (∀ cp, (env.rcvif cp).isSome = true) →
      ∃ r, ipDooptions env routeAndStamp 10 = some r ∧ ∀ access ∈ r.1.trace, access.Within 40 :=
    (dooptions_within_iff true routeAndStamp (by decide) (by decide)).mpr routeAndStamp_careful
  exact within (.found true) fun _ => rfl

/-- A record route option of three bytes: the address goes behind it. -/
theorem dooptions_short_record_route : ¬ ∀ env mem, ∃ r, ipDooptions env mem 6 = some r ∧
    ∀ access ∈ r.1.trace, access.Within 24 := by
  intro all
  obtain ⟨r, halts, within⟩ := all (.found true) fun o => if o = 20 then 7 else
    if o = 21 then 3 else if o = 22 then 4 else 0
  have written : .write 23 20 3 ∈ r.1.trace := by
    obtain rfl := Option.some.inj halts
    decide
  have inside := within _ written
  change 20 ≤ 23 ∧ 23 < 20 + 3 ∨ 16 ≤ 23 ∧ 23 < 16 + 4 at inside
  omega

end Loop

end FreeBsd.Netinet
