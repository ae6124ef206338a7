import FreeBsd.Lib.Pool
import FreeBsd.Lib.Trace
import FreeBsd.Pcfs.PcfsFat
import Mathlib.Data.Finset.Card
import Mathlib.Order.Interval.Finset.Nat

/-! The free space of an MS-DOS volume: a bitmap, a counter and a place to start
the search, kept beside the file allocation table. -/
namespace FreeBsd.Pcfs

open FreeBsd.Lib

section Model

def E2BIG : Nat := 7
def ENOSPC : Nat := 28

def pcfseof (cn : Nat) : Bool := cn &&& 0xfff8 = 0xfff8

/-- The device of a volume, and what `struct pcfsmount` says of its free space. -/
structure Volume where
  devvp : Disk
  inusemap : Nat → Byte
  freeclustercount : Nat
  lookhere : Nat

/-- The value a `u_long` holds after `x` is stored in it. -/
def ulong (x : Int) : Nat := (x % 2 ^ 32).toNat

def usemapAlloc (s : Volume) (cn : Nat) : Volume :=
  { s with
    inusemap := Function.update s.inusemap (cn / 8) (s.inusemap (cn / 8) ||| 1#8 <<< (cn % 8))
    freeclustercount := ulong (s.freeclustercount - 1)
    -- this assumes that the lowest available cluster was allocated
    lookhere := cn + 1 }

def usemapFree (s : Volume) (cn : Nat) : Volume :=
  { s with
    freeclustercount := ulong (s.freeclustercount + 1)
    inusemap := Function.update s.inusemap (cn / 8) (s.inusemap (cn / 8) &&& ~~~ (1#8 <<< (cn % 8)))
    lookhere := if s.lookhere > cn then cn else s.lookhere }

structure Returns where
  error : Nat
  value : Option Nat
  deriving DecidableEq, Repr

def clusterfree (pmp : Pcfsmount) (s : Volume) (cluster : Nat) : Option (Returns × Volume) :=
  match fatentry .getAndSet pmp s.devvp cluster CLUST_FREE with
  | none => none
  | some a =>
    if a.error = 0 then some (⟨0, a.oldcontents⟩, usemapFree { s with devvp := a.devvp } cluster)
    else some (⟨a.error, none⟩, s)

def clearBit (map : Byte) : Option Nat := (List.range 8).find? fun bit => map &&& 1#8 <<< bit = 0#8

/-- The search of `clusteralloc`, through `count` bytes of the map from `idx` on. -/
def findCluster (inusemap : Nat → Byte) : (count idx : Nat) → Option Nat
  | 0, _ => none
  | count + 1, idx =>
    match if inusemap idx ≠ 0xff then clearBit (inusemap idx) else none with
    | some bit => some (idx * 8 + bit)
    | none => findCluster inusemap count (idx + 1)

def clusteralloc (pmp : Pcfsmount) (s : Volume) (fillwith : Nat) : Option (Returns × Volume) :=
  match findCluster s.inusemap (pmp.maxcluster / 8 + 1 - s.lookhere / 8) (s.lookhere / 8) with
  | none => some (⟨ENOSPC, none⟩, s)
  | some cn =>
    match fatentry .set pmp s.devvp cn fillwith with
    | none => none
    | some a =>
      if a.error = 0 then some (⟨0, some cn⟩, usemapAlloc { s with devvp := a.devvp } cn)
      else some (⟨a.error, none⟩, s)

/-- The loop of `freeclusterchain`; none where it has not ended after `fuel` clusters. -/
def freeChain (pmp : Pcfsmount) (fuel : Nat) (s : Volume) (startcluster error : Nat) :
    Option (Returns × Volume) :=
  if CLUST_FIRST ≤ startcluster ∧ startcluster ≤ pmp.maxcluster then
    match fuel with
    | 0 => none
    | fuel + 1 =>
      match clusterfree pmp s startcluster with
      | some (⟨0, some nextcluster⟩, s) => freeChain pmp fuel s nextcluster 0
      | some (⟨error, _⟩, s) => some (⟨error, none⟩, s)
      | none => none
  else some (⟨error, none⟩, s)

def freeclusterchain (pmp : Pcfsmount) (s : Volume) (startcluster : Nat) :
    Option (Returns × Volume) :=
  freeChain pmp pmp.maxcluster s startcluster 0

/-- The scan of `fillinusemap`, with `count` clusters to go; `bp` is the block of the FAT at hand.
-/
def fillScan (pmp : Pcfsmount) : (count cn : Nat) → (bp : Option Buf) → Volume → Option Volume
  | 0, _, bp, s => bp.map fun _ => s
  | count + 1, cn, bp, s =>
    let byteoffset := fatofs pmp cn
    let bo := byteoffset % pmp.fatblocksize
    let blk := fatblock pmp byteoffset
    -- read new FAT block
    let bp := if bo = 0 then bread s.devvp blk.bn blk.size
      else bp.getD (bread s.devvp blk.bn blk.size)
    if bp.bcount < bo + 2 then none
    else
      let readcn := getushort bp bo
      let readcn := if pmp.Fat12 then (if cn % 2 = 1 then readcn >>> 4 else readcn) &&&
        0x0fff else readcn
      fillScan pmp count (cn + 1) (some bp) (if readcn = 0 then usemapFree s cn else s)

def fillinusemap (pmp : Pcfsmount) (s : Volume) : Option Volume :=
  fillScan pmp (pmp.maxcluster - 1) CLUST_FIRST none
    { s with
      inusemap := fun i => if i < pmp.maxcluster >>> 3 + 1 then 0xff else s.inusemap i
      freeclustercount := 0
      lookhere := pmp.maxcluster + 1 }

def FCE_EMPTY : Nat := 0xffff

structure Fatcache where
  frcn : Nat
  fsrcn : Nat
  deriving DecidableEq, Repr

def ushort (x : Nat) : Nat := x % 2 ^ 16

/-- `struct denode`, the part that the clusters of a file are found by. -/
structure Denode where
  vroot : Bool
  startCluster : Nat
  lastmap : Fatcache
  lastfc : Fatcache
  deriving DecidableEq, Repr

/-- The cluster numbers of a denode that a walk may start from are each a `u_short`. -/
def Denode.Short (dep : Denode) : Prop :=
  dep.startCluster < 0x10000 ∧ dep.lastmap.fsrcn < 0x10000 ∧ dep.lastfc.fsrcn < 0x10000

/-- `fc_lookup`: where to start from, if the cache says so. -/
def fcLookup (dep : Denode) (findcn : Nat) : Option Fatcache :=
  let usable (fc : Fatcache) : Bool := fc.frcn ≠ FCE_EMPTY ∧ fc.frcn ≤ findcn
  if usable dep.lastmap then
    if usable dep.lastfc ∧ dep.lastfc.frcn > dep.lastmap.frcn then some dep.lastfc else some
      dep.lastmap
  else if usable dep.lastfc then some dep.lastfc else none

/-- The loop of `pcbmap` with `count` clusters to go: 0 and the last cluster, or `E2BIG`
and the cluster before the end. -/
def pcbmapScan (pmp : Pcfsmount) (devvp : Disk) (count i cn : Nat) (prevcn : Option Nat) :
    Option (Nat × Fatcache) :=
  if pcfseof cn then prevcn.map fun prevcn => (E2BIG, ⟨ushort (i - 1), ushort prevcn⟩)
  else
    match count with
    | 0 => some (0, ⟨ushort i, ushort cn⟩)
    | count + 1 =>
      let blk := fatblock pmp (fatofs pmp cn)
      let bp := bread devvp blk.bn blk.size
      if bp.bcount < blk.bo + 2 then none
      else pcbmapScan pmp devvp count (i + 1) (readEntry pmp cn (getushort bp blk.bo)) (some cn)

/-- `pcbmap`, for a file that is not empty and has no use for a block number. -/
def pcbmap (pmp : Pcfsmount) (devvp : Disk) (dep : Denode) (findcn : Nat) : Option (Nat × Denode) :=
  let start := (fcLookup dep findcn).getD ⟨0, dep.startCluster⟩
  match pcbmapScan pmp devvp (findcn - start.frcn) start.frcn start.fsrcn none with
  | none => none
  | some (0, fc) => some (0, { dep with lastmap := fc })
  | some (error, fc) => some (error, { dep with lastfc := fc })

/-- The rest of `extendfile`, with the last cluster of the file in the cache. -/
def chainOn (pmp : Pcfsmount) (s : Volume) (dep : Denode) : Option (Returns × Denode × Volume) :=
  match clusteralloc pmp s CLUST_EOFE with
  | some (⟨0, some cn⟩, s) =>
    if dep.startCluster = 0 then
      some (⟨0, some cn⟩, { dep with startCluster := ushort cn, lastfc := ⟨0, ushort cn⟩ }, s)
    else
      match fatentry .set pmp s.devvp dep.lastfc.fsrcn cn with
      | none => none
      | some a =>
        if a.error = 0 then
          some (⟨0, some cn⟩, { dep with lastfc := ⟨ushort (dep.lastfc.frcn + 1), ushort cn⟩ },
            { s with devvp := a.devvp })
        else (clusterfree pmp s cn).map fun freed => (⟨a.error, none⟩, dep, freed.2)
  | some (r, s) => some (r, dep, s)
  | none => none

/-- `extendfile`, without the buffer it gets for the new block. -/
def extendfile (pmp : Pcfsmount) (s : Volume) (dep : Denode) : Option (Returns × Denode × Volume) :=
  if dep.vroot then some (⟨ENOSPC, none⟩, dep, s)
  else if dep.lastfc.frcn = FCE_EMPTY ∧ dep.startCluster ≠ 0 then
    match pcbmap pmp s.devvp dep 0xffff with
    | none => none
    | some (error, dep) =>
      -- we expect it to return E2BIG
      if error ≠ E2BIG then some (⟨error, none⟩, dep, s) else chainOn pmp s dep
  else chainOn pmp s dep

end Model

section Bitmap

def usedBit (map : Nat → Byte) (n : Nat) : Bool := (map (n / 8)).getLsbD (n % 8)

theorem usedBit_update (map : Nat → Byte) (cn : Nat) {b : Byte} {value : Bool}
    (here : b.getLsbD (cn % 8) = value)
    (others : ∀ k < 8, k ≠ cn % 8 → b.getLsbD k = (map (cn / 8)).getLsbD k) :
    usedBit (Function.update map (cn / 8) b) = Function.update (usedBit map) cn value := by
  funext n
  by_cases byte : n / 8 = cn / 8
  · by_cases same : n = cn
    · simp [usedBit, same, here]
    · simp [usedBit, byte, same, others (n % 8) (Nat.mod_lt _ (by decide)) (by lia)]
  · have same : n ≠ cn := fun same => byte (congrArg (· / 8) same)
    simp [usedBit, byte, same]

theorem usedBit_set (map : Nat → Byte) (cn : Nat) :
    usedBit (Function.update map (cn / 8) (map (cn / 8) ||| 1#8 <<< (cn % 8))) =
      Function.update (usedBit map) cn true := by
  refine usedBit_update map cn (by simp [Nat.mod_lt]) fun k low other => ?_
  simp [low]
  lia

theorem usedBit_clear (map : Nat → Byte) (cn : Nat) :
    usedBit (Function.update map (cn / 8) (map (cn / 8) &&& ~~~ (1#8 <<< (cn % 8)))) =
      Function.update (usedBit map) cn false := by
  refine usedBit_update map cn (by simp [Nat.mod_lt]) fun k low other => ?_
  simp [low]
  lia

theorem and_bit_eq_zero (map : Byte) {bit : Nat} (below : bit < 8) :
    map &&& 1#8 <<< bit = 0#8 ↔ map.getLsbD bit = false := by
  constructor
  · intro zero
    have at_bit := congrArg (fun x => x.getLsbD bit) zero
    simpa [below] using at_bit
  · intro clear
    apply BitVec.eq_of_getLsbD_eq
    intro i small
    by_cases same : i = bit
    · simp [same, clear]
    · simp [small]
      omega

theorem clearBit_some {map : Byte} {bit : Nat} (found : clearBit map = some bit) :
    bit < 8 ∧ map.getLsbD bit = false ∧ ∀ b < bit, map.getLsbD b = true := by
  rw [clearBit, List.find?_range_eq_some] at found
  obtain ⟨clear, member, before⟩ := found
  have below := List.mem_range.mp member
  refine ⟨below, (and_bit_eq_zero map below).mp (by simpa using clear), fun b small => ?_⟩
  have set := before b small
  simp only [Bool.not_eq_eq_eq_not, Bool.not_true, decide_eq_false_iff_not] at set
  rw [and_bit_eq_zero map (by omega)] at set
  simpa using set

theorem clearBit_none {map : Byte} (none : clearBit map = none) {b : Nat} (below : b < 8) :
    map.getLsbD b = true := by
  rw [clearBit, List.find?_eq_none] at none
  have set := none b (List.mem_range.mpr below)
  simp only [decide_eq_true_eq] at set
  rw [and_bit_eq_zero map below] at set
  simpa using set

theorem skipped {map : Byte} (none : (if map ≠ 0xff then clearBit map else none) = none) {b : Nat}
    (below : b < 8) :
    map.getLsbD b = true := by
  split at none
  · exact clearBit_none none below
  · rename_i full
    rw [not_not.mp full]
    exact (by decide : ∀ b < 8, (0xff : Byte).getLsbD b = true) b below

theorem findCluster_some {map : Nat → Byte} {count idx cn : Nat}
    (found : findCluster map count idx = some cn) :
    cn < (idx + count) * 8 ∧ usedBit map cn = false ∧ ∀ m, idx * 8 ≤ m → m < cn → usedBit map m =
      true := by
  induction count generalizing idx with
  | zero => cases found
  | succ count ih =>
    rw [findCluster] at found
    split at found
    · rename_i bit here
      have hit : clearBit (map idx) = some bit := by
        split at here
        · exact here
        · cases here
      obtain ⟨below, clear, before⟩ := clearBit_some hit
      cases found
      refine ⟨by lia, ?_, fun m low high => ?_⟩
      · rw [usedBit, show (idx * 8 + bit) / 8 = idx by lia, show (idx * 8 + bit) % 8 = bit by lia]
        exact clear
      · rw [usedBit, show m / 8 = idx by lia]
        exact before _ (by lia)
    · rename_i skip
      obtain ⟨below, clear, before⟩ := ih found
      refine ⟨by lia, clear, fun m low high => ?_⟩
      by_cases here : m < (idx + 1) * 8
      · rw [usedBit, show m / 8 = idx by lia]
        exact skipped skip (by lia)
      · exact before m (by lia) high

theorem findCluster_none {map : Nat → Byte} {count idx : Nat}
    (missing : findCluster map count idx = none) {m : Nat} (low : idx * 8 ≤ m)
    (high : m < (idx + count) * 8) : usedBit map m = true := by
  induction count generalizing idx with
  | zero => lia
  | succ count ih =>
    rw [findCluster] at missing
    split at missing
    · cases missing
    · rename_i skip
      by_cases here : m < (idx + 1) * 8
      · rw [usedBit, show m / 8 = idx by lia]
        exact skipped skip (by lia)
      · exact ih missing (by lia) (by lia)

end Bitmap

section Free

variable {pmp : Pcfsmount} {devvp devvp' : Disk} {cn v : Nat}

def freeClusters (pmp : Pcfsmount) (devvp : Disk) : Finset Nat :=
  (Finset.Icc CLUST_FIRST pmp.maxcluster).filter fun cn => contents pmp devvp cn =
    some (0, some CLUST_FREE)

/-- The bits of the map that `pm_inusemap` has room for. -/
def mapSize (pmp : Pcfsmount) : Nat := (pmp.maxcluster / 8 + 1) * 8

/-- The bitmap, the counter and the start of the search agree with the FAT. -/
def Accounts (pmp : Pcfsmount) (s : Volume) : Prop :=
  Pool (mapSize pmp) (freeClusters pmp s.devvp) (usedBit s.inusemap) s.freeclustercount s.lookhere

/-- Each set through `fatentry` is read back and changes no other entry. -/
def Pcfsmount.Independent (pmp : Pcfsmount) : Prop :=
  ∀ devvp cn v, CLUST_FIRST ≤ cn → cn ≤ pmp.maxcluster → pmp.Writes v →
    ∃ devvp', fatentry .set pmp devvp cn v = some ⟨0, none, devvp'⟩ ∧
      contents pmp devvp' cn = some (0, some (pmp.mark v)) ∧
      ∀ m, m ≠ cn → contents pmp devvp' m = contents pmp devvp m

theorem mem_freeClusters : cn ∈ freeClusters pmp devvp ↔
    (CLUST_FIRST ≤ cn ∧ cn ≤ pmp.maxcluster) ∧ contents pmp devvp cn =
      some (0, some CLUST_FREE) := by
  rw [freeClusters, Finset.mem_filter, Finset.mem_Icc]

theorem mark_eq_free : pmp.mark v = CLUST_FREE ↔ v = CLUST_FREE := by
  unfold Pcfsmount.mark CLUST_FREE
  split
  · rename_i marked
    have high : (v ||| 0xf000) / 2 ^ 12 % 2 ^ 4 = 15 := by
      rw [Nat.or_div_two_pow, Nat.or_mod_two_pow]
      exact (or_fifteen _ (Nat.mod_lt _ (by decide)) 0 (by decide)).2.2
    constructor
    · intro zero
      rw [zero] at high
      cases high
    · rintro rfl
      simp at marked
  · rfl

theorem Pcfsmount.Independent.maxcluster_lt (independent : pmp.Independent)
    (mounted : pmp.Mounted) :
    pmp.maxcluster < 0x10000 := by
  by_cases small : pmp.maxcluster < CLUST_FIRST
  · exact lt_of_lt_of_le small (by decide)
  · have writes : pmp.Writes pmp.maxcluster := .inr (.inl ⟨by omega, le_refl _⟩)
    obtain ⟨disk, set, replaced⟩ := @fatentry_set pmp (fun _ => 0) mounted .set (by decide)
      _ pmp.maxcluster (by omega) (le_refl _)
    obtain ⟨devvp', isSet, reads, _⟩ := independent (fun _ => 0) _ _ (by omega) (le_refl _) writes
    obtain rfl : disk = devvp' := congrArg FatAnswer.devvp (Option.some.inj (set.symm.trans isSet))
    exact Replaced.fits replaced mounted (by omega) (le_refl _) writes reads

theorem Pcfsmount.Writes.lt (writes : pmp.Writes v) (small : pmp.maxcluster < 0x10000) :
    v < 0x10000 := by
  simp only [Pcfsmount.Writes, CLUST_FREE, CLUST_RSRVS, CLUST_EOFE] at writes
  omega

theorem independent_fat16 (mounted : pmp.Mounted) (fat16 : ¬ pmp.Fat12)
    (small : pmp.maxcluster < 0x10000) : pmp.Independent :=
  fun _ _ _ first last writes =>
    fatentry_spares mounted first last writes ⟨writes.lt small, fun fat12 => absurd fat12 fat16⟩

theorem freeClusters_set (first : CLUST_FIRST ≤ cn) (last : cn ≤ pmp.maxcluster)
    (reads : contents pmp devvp' cn = some (0, some (pmp.mark v)))
    (others : ∀ m, m ≠ cn → contents pmp devvp' m = contents pmp devvp m) :
    freeClusters pmp devvp' =
      if v = CLUST_FREE then insert cn (freeClusters pmp devvp) else (freeClusters pmp devvp).erase
        cn := by
  ext m
  by_cases same : m = cn
  · subst same
    have free : m ∈ freeClusters pmp devvp' ↔ v = CLUST_FREE := by
      rw [mem_freeClusters, reads]
      simp [first, last, mark_eq_free]
    rw [free]
    split <;> simp [*]
  · rw [mem_freeClusters, others m same, ← mem_freeClusters]
    split <;> simp [same]

theorem fatentry_getAndSet (mounted : pmp.Mounted) (first : CLUST_FIRST ≤ cn)
    (last : cn ≤ pmp.maxcluster) (set : fatentry .set pmp devvp cn v = some ⟨0, none, devvp'⟩) :
    fatentry .getAndSet pmp devvp cn v = some ⟨0, some (pmp.mark (fatbits pmp devvp cn)),
      devvp'⟩ := by
  have room := fatblock_room mounted last
  have illegal : ¬ (cn < CLUST_FIRST ∨ cn > pmp.maxcluster) := by omega
  have enough :
      ¬ (bread devvp (fatblock pmp (fatofs pmp cn)).bn (fatblock pmp (fatofs pmp cn)).size).bcount <
      (fatblock pmp (fatofs pmp cn)).bo + 2 := by simpa [bread] using room
  rw [fatentry, if_neg illegal] at set ⊢
  simp only [if_neg enough, FatFunction.sets, FatFunction.gets, getushort_fatblock mounted,
    readEntry_fatshort] at set ⊢
  simp at set ⊢
  exact set

end Free

section Calls

variable {pmp : Pcfsmount} {s t : Volume} {cn v : Nat}

theorem ulong_eq {n : Nat} (small : n < 2 ^ 32) : ulong n = n := by
  unfold ulong
  lia

variable (pmp s) in
theorem freeClusters_card : (freeClusters pmp s.devvp).card ≤ pmp.maxcluster := by
  have := Finset.card_filter_le (Finset.Icc CLUST_FIRST pmp.maxcluster)
    fun cn => contents pmp s.devvp cn = some (0, some CLUST_FREE)
  rw [Nat.card_Icc] at this
  simp only [freeClusters, CLUST_FIRST] at *
  omega

theorem mapSize_gt (last : cn ≤ pmp.maxcluster) : cn < mapSize pmp := by
  unfold mapSize
  omega

theorem accounts_free (accounts : Accounts pmp s) (small : pmp.maxcluster < 0x10000) {devvp' : Disk}
    (last : cn ≤ pmp.maxcluster) (inuse : cn ∉ freeClusters pmp s.devvp)
    (free : freeClusters pmp devvp' = insert cn (freeClusters pmp s.devvp)) :
    Accounts pmp (usemapFree { s with devvp := devvp' } cn) := by
  have card := freeClusters_card pmp s
  have released := accounts.release inuse (mapSize_gt last)
  have count : ulong ((s.freeclustercount : Int) + 1) = s.freeclustercount + 1 := by
    have := accounts.count_eq
    exact ulong_eq (n := s.freeclustercount + 1) (by lia)
  have start : (if s.lookhere > cn then cn else s.lookhere) = min s.lookhere cn := by
    split <;> lia
  rw [← free, ← usedBit_clear, ← count, ← start] at released
  exact released

theorem accounts_alloc (accounts : Accounts pmp s) (small : pmp.maxcluster < 0x10000)
    {devvp' : Disk} (available : cn ∈ freeClusters pmp s.devvp)
    (lowest : ∀ m ∈ freeClusters pmp s.devvp, cn ≤ m)
    (free : freeClusters pmp devvp' = (freeClusters pmp s.devvp).erase cn) :
    Accounts pmp (usemapAlloc { s with devvp := devvp' } cn) := by
  have card := freeClusters_card pmp s
  have claimed := Pool.claim accounts available lowest
  have count : ulong ((s.freeclustercount : Int) - 1) = s.freeclustercount - 1 := by
    have := accounts.count_eq
    have := Finset.card_pos.mpr ⟨cn, available⟩
    rw [← ulong_eq (n := s.freeclustercount - 1) (by lia)]
    congr 1
    lia
  rw [← free, ← usedBit_set, ← count] at claimed
  exact claimed

theorem clusterfree_legal (mounted : pmp.Mounted) (independent : pmp.Independent)
    (accounts : Accounts pmp s) (first : CLUST_FIRST ≤ cn) (last : cn ≤ pmp.maxcluster)
    (inuse : cn ∉ freeClusters pmp s.devvp) :
    ∃ t, clusterfree pmp s cn = some (⟨0, some (pmp.mark (fatbits pmp s.devvp cn))⟩, t) ∧
      Accounts pmp t ∧
      freeClusters pmp t.devvp = insert cn (freeClusters pmp s.devvp) ∧
      ∀ m, m ≠ cn → contents pmp t.devvp m = contents pmp s.devvp m := by
  obtain ⟨devvp', set, reads, others⟩ := independent s.devvp cn CLUST_FREE first last (.inl rfl)
  have free := freeClusters_set first last reads others
  rw [if_pos rfl] at free
  refine ⟨usemapFree { s with devvp := devvp' } cn, ?_,
    accounts_free accounts (independent.maxcluster_lt mounted) last inuse free, free, others⟩
  rw [clusterfree, fatentry_getAndSet mounted first last set]
  exact if_pos rfl

theorem clusterfree_illegal (illegal : ¬ (CLUST_FIRST ≤ cn ∧ cn ≤ pmp.maxcluster)) :
    clusterfree pmp s cn = some (⟨EINVAL, none⟩, s) := by
  rw [clusterfree, fatentry_illegal illegal]
  rfl

theorem findCluster_lt {map : Nat → Byte} {limit idx cn : Nat}
    (found : findCluster map (limit - idx) idx = some cn) :
    cn < limit * 8 := by
  have below := (findCluster_some found).1
  by_cases late : limit ≤ idx
  · rw [Nat.sub_eq_zero_of_le late] at found
    cases found
  · rwa [Nat.add_sub_of_le (by omega)] at below

theorem findCluster_spec (accounts : Accounts pmp s) :
    (freeClusters pmp s.devvp = ∅ ∧
      findCluster s.inusemap (pmp.maxcluster / 8 + 1 - s.lookhere / 8) (s.lookhere / 8) = none) ∨
    ∃ cn, cn ∈ freeClusters pmp s.devvp ∧ (∀ m ∈ freeClusters pmp s.devvp, cn ≤ m) ∧
      findCluster s.inusemap (pmp.maxcluster / 8 + 1 - s.lookhere / 8) (s.lookhere / 8) =
        some cn := by
  have early : s.lookhere / 8 * 8 ≤ s.lookhere := Nat.div_mul_le_self _ _
  cases search : findCluster s.inusemap (pmp.maxcluster / 8 + 1 - s.lookhere / 8)
      (s.lookhere / 8) with
  | none =>
    refine .inl ⟨Pool.none_free accounts early fun m low high => ?_, rfl⟩
    apply findCluster_none search low
    unfold mapSize at high
    lia
  | some cn =>
    obtain ⟨_, clear, passed⟩ := findCluster_some search
    obtain ⟨available, lowest⟩ :=
      Pool.lowest accounts early (findCluster_lt search) clear passed
    exact .inr ⟨cn, available, lowest, rfl⟩

/-- `clusteralloc` fails on a full volume, and else takes the lowest free cluster. -/
theorem clusteralloc_spec (mounted : pmp.Mounted) (independent : pmp.Independent)
    (accounts : Accounts pmp s) (writes : pmp.Writes v) (filled : v ≠ CLUST_FREE) :
    (freeClusters pmp s.devvp = ∅ ∧ clusteralloc pmp s v = some (⟨ENOSPC, none⟩, s)) ∨
    ∃ cn t, cn ∈ freeClusters pmp s.devvp ∧ (∀ m ∈ freeClusters pmp s.devvp, cn ≤ m) ∧
      clusteralloc pmp s v = some (⟨0, some cn⟩, t) ∧ Accounts pmp t ∧
      freeClusters pmp t.devvp = (freeClusters pmp s.devvp).erase cn := by
  rcases findCluster_spec accounts with ⟨full, search⟩ | ⟨cn, available, lowest, search⟩
  · exact .inl ⟨full, by rw [clusteralloc, search]⟩
  · obtain ⟨⟨first, last⟩, _⟩ := mem_freeClusters.mp available
    obtain ⟨devvp', set, reads, others⟩ := independent s.devvp cn v first last writes
    have free := freeClusters_set first last reads others
    rw [if_neg filled] at free
    refine .inr ⟨cn, usemapAlloc { s with devvp := devvp' } cn, available, lowest, ?_,
      accounts_alloc accounts (independent.maxcluster_lt mounted) available lowest free, free⟩
    rw [clusteralloc, search]
    simp only [set, if_true]

end Calls

section Chains

variable {pmp : Pcfsmount} {devvp devvp' : Disk} {s t : Volume}

/-- A well formed chain of clusters: each is in use and names the next, and the last holds an end
mark. -/
def Chain (pmp : Pcfsmount) (devvp : Disk) : Nat → List Nat → Prop
  | startcluster, [] => pcfseof startcluster = true ∧ pmp.maxcluster < startcluster
  | startcluster, c :: rest =>
    startcluster = c ∧ CLUST_FIRST ≤ c ∧ c ≤ pmp.maxcluster ∧ pcfseof c = false ∧ c ∉ rest ∧
      ∃ next, contents pmp devvp c = some (0, some next) ∧ Chain pmp devvp next rest

theorem Chain.congr {cs : List Nat} {start : Nat} (chain : Chain pmp devvp start cs)
    (same : ∀ c ∈ cs, contents pmp devvp' c = contents pmp devvp c) :
      Chain pmp devvp' start cs := by
  induction cs generalizing start with
  | nil => exact chain
  | cons c rest ih =>
    obtain ⟨here, first, last, mark, once, next, reads, tail⟩ := chain
    refine ⟨here, first, last, mark, once,
      next, by rw [same c List.mem_cons_self, reads], ih tail ?_⟩
    exact fun d member => same d (List.mem_cons_of_mem _ member)

theorem pcfseof_ne_free {cn : Nat} (mark : pcfseof cn = true) : cn ≠ CLUST_FREE := by
  rintro rfl
  cases mark

theorem Chain.start_ne_free {cs : List Nat} {start : Nat} (chain : Chain pmp devvp start cs) :
    start ≠ CLUST_FREE := by
  cases cs with
  | nil => exact pcfseof_ne_free chain.1
  | cons c rest =>
    obtain ⟨rfl, first, _⟩ := chain
    exact Nat.ne_of_gt (lt_of_lt_of_le (by decide) first)

theorem Chain.inuse {cs : List Nat} {start c : Nat} (chain : Chain pmp devvp start cs)
    (member : c ∈ cs) :
    CLUST_FIRST ≤ c ∧ c ≤ pmp.maxcluster ∧ c ∉ freeClusters pmp devvp := by
  induction cs generalizing start with
  | nil => cases member
  | cons d rest ih =>
    obtain ⟨_, first, last, _, _, next, reads, tail⟩ := chain
    rcases List.mem_cons.mp member with rfl | later
    · refine ⟨first, last, fun free => tail.start_ne_free ?_⟩
      have zero := (mem_freeClusters.mp free).2
      rw [reads] at zero
      simpa using zero
    · exact ih tail later

theorem Chain.nodup {cs : List Nat} {start : Nat} (chain : Chain pmp devvp start cs) :
    cs.Nodup := by
  induction cs generalizing start with
  | nil => exact List.nodup_nil
  | cons c rest ih =>
    obtain ⟨_, _, _, _, once, next, _, tail⟩ := chain
    exact List.nodup_cons.mpr ⟨once, ih tail⟩

theorem Chain.length_lt {cs : List Nat} {start : Nat} (chain : Chain pmp devvp start cs) :
    cs.length ≤ pmp.maxcluster := by
  have sub : cs.toFinset ⊆ Finset.Icc CLUST_FIRST pmp.maxcluster := by
    intro c member
    have used := chain.inuse (List.mem_toFinset.mp member)
    exact Finset.mem_Icc.mpr ⟨used.1, used.2.1⟩
  have card := Finset.card_le_card sub
  rw [List.toFinset_card_of_nodup chain.nodup, Nat.card_Icc, CLUST_FIRST] at card
  omega

theorem freeChain_spec (mounted : pmp.Mounted) (independent : pmp.Independent)
    {fuel start error : Nat} {cs : List Nat} (accounts : Accounts pmp s)
    (chain : Chain pmp s.devvp start cs) (enough : cs.length ≤ fuel) :
    ∃ r t, freeChain pmp fuel s start error = some (r, t) ∧ Accounts pmp t := by
  induction cs generalizing fuel start error s with
  | nil =>
    refine ⟨⟨error, none⟩, s, ?_, accounts⟩
    have beyond := chain.2
    rw [freeChain.eq_def, if_neg (by omega)]
  | cons c rest ih =>
    have inuse := (chain.inuse List.mem_cons_self).2.2
    obtain ⟨rfl, first, last, _, once, next, reads, tail⟩ := chain
    obtain ⟨t, freed, kept, _, others⟩ := clusterfree_legal mounted independent accounts first last
      inuse
    rw [contents_legal mounted first last] at reads
    simp only [Option.some.injEq, Prod.mk.injEq, true_and] at reads
    cases fuel with
    | zero => cases enough
    | succ fuel =>
      rw [freeChain, if_pos ⟨first, last⟩]
      simp only [freed, reads]
      apply ih kept (tail.congr fun d member => others d ?_) (Nat.le_of_succ_le_succ enough)
      exact fun same => once (same ▸ member)

theorem pcbmapScan_spec (mounted : pmp.Mounted) {count i cn : Nat} {prevcn : Option Nat}
    {cs : List Nat} (chain : Chain pmp devvp cn cs) (enough : cs.length ≤ count) :
    pcbmapScan pmp devvp count i cn prevcn =
      (cs.getLast?.or prevcn).map fun last =>
        (E2BIG, ⟨ushort (i + cs.length - 1), ushort last⟩) := by
  induction cs generalizing count i cn prevcn with
  | nil =>
    rw [pcbmapScan.eq_def, if_pos chain.1]
    simp
  | cons c rest ih =>
    obtain ⟨rfl, first, last, mark, _, next, reads, tail⟩ := chain
    rw [contents_legal mounted first last] at reads
    simp only [Option.some.injEq, Prod.mk.injEq, true_and] at reads
    have room := fatblock_room mounted last
    cases count with
    | zero => cases enough
    | succ count =>
      rw [pcbmapScan.eq_def, mark, if_neg (by decide)]
      simp only [getushort_fatblock mounted, readEntry_fatshort, reads]
      rw [if_neg (by simpa [bread] using room), ih tail (Nat.le_of_succ_le_succ enough),
        List.length_cons, List.getLast?_cons, show i + 1 + rest.length - 1 =
        i + (rest.length + 1) - 1 by lia]
      cases rest.getLast? <;> rfl

def Cached (cs : List Nat) (fc : Fatcache) : Prop := fc.frcn ≠ FCE_EMPTY → cs[fc.frcn]? =
    some fc.fsrcn

/-- A file whose clusters form a chain and whose cache is right about it. -/
structure WellFormed (pmp : Pcfsmount) (devvp : Disk) (dep : Denode) (cs : List Nat) : Prop where
  chain : Chain pmp devvp dep.startCluster cs
  nonempty : cs ≠ []
  lastmap : Cached cs dep.lastmap
  lastfc : Cached cs dep.lastfc
  atEnd : dep.lastfc.frcn ≠ FCE_EMPTY → dep.lastfc.frcn + 1 = cs.length

theorem Chain.drop {cs : List Nat} {start i c : Nat} (chain : Chain pmp devvp start cs)
    (here : cs[i]? = some c) :
    Chain pmp devvp c (cs.drop i) := by
  induction cs generalizing start i with
  | nil => simp at here
  | cons d rest ih =>
    cases i with
    | zero =>
      obtain ⟨rfl, _⟩ := id chain
      simp only [List.getElem?_cons_zero, Option.some.injEq] at here
      exact here ▸ chain
    | succ i =>
      obtain ⟨_, _, _, _, _, next, _, tail⟩ := chain
      exact ih tail (by simpa using here)

theorem WellFormed.lookup {dep : Denode} {cs : List Nat} (file : WellFormed pmp devvp dep cs)
    (findcn : Nat) {fc : Fatcache} (found : fc = (fcLookup dep findcn).getD ⟨0, dep.startCluster⟩) :
    cs[fc.frcn]? = some fc.fsrcn := by
  have usable {fc : Fatcache} (cached : Cached cs fc)
      (hit : decide (fc.frcn ≠ FCE_EMPTY ∧ fc.frcn ≤ findcn) = true) : cs[fc.frcn]? =
        some fc.fsrcn :=
    cached (of_decide_eq_true hit).1
  rw [fcLookup] at found
  split at found
  · split at found
    · rename_i _ both
      exact found ▸ usable file.lastfc both.1
    · rename_i hit _
      exact found ▸ usable file.lastmap hit
  · split at found
    · rename_i _ hit
      exact found ▸ usable file.lastfc hit
    · have chain := file.chain
      have nonempty := file.nonempty
      rw [found]
      cases cs with
      | nil => exact absurd rfl nonempty
      | cons c rest => exact congrArg some chain.1.symm

theorem pcbmap_spec (mounted : pmp.Mounted) (small : pmp.maxcluster < 0x10000) {dep : Denode}
    {cs : List Nat} (file : WellFormed pmp devvp dep cs) :
    ∃ frcn last, last ∈ cs ∧
      pcbmap pmp devvp dep 0xffff = some (E2BIG, { dep with lastfc := ⟨frcn, last⟩ }) := by
  obtain ⟨fc, found⟩ : ∃ fc, fc = (fcLookup dep 0xffff).getD ⟨0, dep.startCluster⟩ := ⟨_, rfl⟩
  have here := file.lookup 0xffff found
  have inside : fc.frcn < cs.length := (List.getElem?_eq_some_iff.mp here).1
  have length := file.chain.length_lt
  have enough : (cs.drop fc.frcn).length ≤ 0xffff - fc.frcn := by
    rw [List.length_drop]
    lia
  have scan := @pcbmapScan_spec pmp _ mounted _ fc.frcn _ none _ (file.chain.drop here) enough
  cases atEnd : (cs.drop fc.frcn).getLast? with
  | none =>
    rw [List.getLast?_eq_none_iff, List.drop_eq_nil_iff] at atEnd
    lia
  | some last =>
    have member : last ∈ cs := List.mem_of_mem_drop (List.mem_of_getLast? atEnd)
    have legal := (file.chain.inuse member).2.1
    refine ⟨ushort (fc.frcn + (cs.drop fc.frcn).length - 1), last, member, ?_⟩
    rw [pcbmap]
    simp only [← found]
    rw [scan, atEnd]
    simp only [Option.or_none, Option.map_some, E2BIG]
    rw [show ushort last = last from Nat.mod_eq_of_lt (by lia)]

theorem chainOn_linked (independent : pmp.Independent) {dep : Denode} {cn : Nat}
    (alloc : clusteralloc pmp s CLUST_EOFE = some (⟨0, some cn⟩, t)) (kept : Accounts pmp t)
    (legal : CLUST_FIRST ≤ cn ∧ cn ≤ pmp.maxcluster) (nonempty : dep.startCluster ≠ 0)
    (first : CLUST_FIRST ≤ dep.lastfc.fsrcn) (last : dep.lastfc.fsrcn ≤ pmp.maxcluster)
    (used : dep.lastfc.fsrcn ∉ freeClusters pmp t.devvp) :
    ∃ dep' u, chainOn pmp s dep = some (⟨0, some cn⟩, dep', u) ∧ Accounts pmp u ∧
      freeClusters pmp u.devvp = freeClusters pmp t.devvp := by
  obtain ⟨devvp', set, reads, frame⟩ :=
    independent t.devvp dep.lastfc.fsrcn cn first last (.inr (.inl legal))
  have free := freeClusters_set first last reads frame
  have filled : cn ≠ CLUST_FREE := Nat.ne_of_gt (lt_of_lt_of_le (by decide) legal.1)
  rw [if_neg filled, Finset.erase_eq_of_notMem used] at free
  have result : chainOn pmp s dep = some (⟨0, some cn⟩,
      { dep with lastfc := ⟨ushort (dep.lastfc.frcn + 1), ushort cn⟩ },
      { t with devvp := devvp' }) := by
    rw [chainOn, alloc]
    simp only [if_neg nonempty, set, if_true]
  refine ⟨_, _, result, ?_, free⟩
  rw [Accounts] at kept ⊢
  rw [free]
  exact kept

/-- Where the last cluster is none of the volume's, the new one is given back. -/
theorem chainOn_spec (mounted : pmp.Mounted) (independent : pmp.Independent)
    (accounts : Accounts pmp s) {dep : Denode}
    (inuse : dep.startCluster ≠ 0 → dep.lastfc.fsrcn ∉ freeClusters pmp s.devvp) :
    ∃ r dep' t, chainOn pmp s dep = some (r, dep', t) ∧ Accounts pmp t := by
  have writes : pmp.Writes CLUST_EOFE := .inr (.inr (by decide))
  rcases clusteralloc_spec mounted independent accounts writes (by decide) with
    ⟨_, alloc⟩ | ⟨cn, t, available, _, alloc, kept, erased⟩
  · exact ⟨_, _, s, by rw [chainOn, alloc]; rfl, accounts⟩
  · by_cases empty : dep.startCluster = 0
    · exact ⟨_, _, t, by rw [chainOn, alloc]; exact if_pos empty, kept⟩
    · have used := inuse empty
      obtain ⟨legal, _⟩ := mem_freeClusters.mp available
      by_cases inside : CLUST_FIRST ≤ dep.lastfc.fsrcn ∧ dep.lastfc.fsrcn ≤ pmp.maxcluster
      · have still : dep.lastfc.fsrcn ∉ freeClusters pmp t.devvp :=
          erased ▸ fun free => used (Finset.mem_of_mem_erase free)
        obtain ⟨_, u, chained, after, _⟩ :=
          chainOn_linked independent alloc kept legal empty inside.1 inside.2 still
        exact ⟨_, _, u, chained, after⟩
      · -- `fatentry` refuses it, and the new cluster is freed again
        have taken : cn ∉ freeClusters pmp t.devvp := erased ▸ Finset.notMem_erase _ _
        obtain ⟨u, freed, back, _⟩ :=
          clusterfree_legal mounted independent kept legal.1 legal.2 taken
        refine ⟨⟨EINVAL, none⟩, dep, u, ?_, back⟩
        rw [chainOn, alloc]
        simp only [if_neg empty, fatentry_illegal inside, freed]
        rfl

theorem readEntry_lt {cn readcn : Nat} (short : readcn < 0x10000) :
    readEntry pmp cn readcn < 0x10000 := by
  have small : (if cn % 2 = 1 then readcn >>> 4 else readcn) &&& 0x0fff < 2 ^ 16 :=
    lt_of_le_of_lt Nat.and_le_right (by decide)
  rw [readEntry]
  split
  · dsimp only
    generalize (if cn % 2 = 1 then readcn >>> 4 else readcn) &&& 0x0fff = entry at *
    split
    · exact Nat.or_lt_two_pow small (by decide)
    · exact small
  · exact short

theorem getushort_lt (bp : Buf) (bo : Nat) : getushort bp bo < 0x10000 := by
  have first := (bp.addr bo).isLt
  have second := (bp.addr (bo + 1)).isLt
  unfold getushort
  lia

/-- The cluster before the end of a chain is in use, wherever the walk has started. -/
theorem pcbmapScan_inuse (mounted : pmp.Mounted) {count i cn : Nat} {prevcn : Option Nat}
    {fc : Fatcache} (short : cn < 0x10000)
    (before : ∀ p, prevcn = some p → pcfseof cn = true → ushort p ∉ freeClusters pmp devvp)
    (scanned : pcbmapScan pmp devvp count i cn prevcn = some (E2BIG, fc)) :
    fc.fsrcn ∉ freeClusters pmp devvp := by
  induction count generalizing i cn prevcn with
  | zero =>
    rw [pcbmapScan.eq_def] at scanned
    split at scanned
    · rename_i mark
      obtain ⟨p, here, same⟩ := Option.map_eq_some_iff.mp scanned
      cases same
      exact before p here mark
    · cases scanned
  | succ count ih =>
    rw [pcbmapScan.eq_def] at scanned
    split at scanned
    · rename_i mark
      obtain ⟨p, here, same⟩ := Option.map_eq_some_iff.mp scanned
      cases same
      exact before p here mark
    · simp only at scanned
      split at scanned
      · cases scanned
      · refine ih (readEntry_lt (getushort_lt _ _)) (fun p here mark free => ?_) scanned
        obtain rfl := Option.some.inj here
        rw [show ushort cn = cn from Nat.mod_eq_of_lt short] at free
        obtain ⟨⟨first, last⟩, zero⟩ := mem_freeClusters.mp free
        rw [contents_legal mounted first last] at zero
        simp only [Option.some.injEq, Prod.mk.injEq, true_and] at zero
        rw [getushort_fatblock mounted, readEntry_fatshort, zero] at mark
        exact pcfseof_ne_free mark rfl

/-- So the last cluster of a file is in use where `pcbmap` has looked for it. -/
theorem pcbmap_inuse (mounted : pmp.Mounted) {dep dep' : Denode} {findcn : Nat} (short : dep.Short)
    (mapped : pcbmap pmp devvp dep findcn = some (E2BIG, dep')) :
    dep'.lastfc.fsrcn ∉ freeClusters pmp devvp := by
  rw [pcbmap] at mapped
  have start : ((fcLookup dep findcn).getD ⟨0, dep.startCluster⟩).fsrcn < 0x10000 := by
    rw [fcLookup]
    split
    · split
      · exact short.2.2
      · exact short.2.1
    · split
      · exact short.2.2
      · exact short.1
  split at mapped
  · cases mapped
  · cases mapped
  · rename_i error fc _ scanned
    obtain ⟨rfl, rfl⟩ := Prod.mk.inj (Option.some.inj mapped)
    exact pcbmapScan_inuse mounted start (fun _ none => by cases none) scanned

theorem extendfile_accounts (mounted : pmp.Mounted) (independent : pmp.Independent)
    (accounts : Accounts pmp s) {dep dep' : Denode} {r : Returns} (short : dep.Short)
    (inuse : dep.startCluster ≠ 0 → dep.lastfc.frcn ≠ FCE_EMPTY →
      dep.lastfc.fsrcn ∉ freeClusters pmp s.devvp)
    (extended : extendfile pmp s dep = some (r, dep', t)) : Accounts pmp t := by
  rw [extendfile] at extended
  split at extended
  · cases extended
    exact accounts
  · split at extended
    · rename_i ask
      split at extended
      · cases extended
      · rename_i error dep₁ mapped
        split at extended
        · cases extended
          exact accounts
        · rename_i expected
          obtain rfl := not_not.mp expected
          obtain ⟨_, _, _, same, kept⟩ := chainOn_spec mounted independent accounts
            fun _ => pcbmap_inuse mounted short mapped
          rw [extended] at same
          cases same
          exact kept
    · rename_i known
      obtain ⟨_, _, _, same, kept⟩ := @chainOn_spec _ _ mounted independent accounts dep
        fun nonempty => inuse nonempty fun empty => known ⟨empty, nonempty⟩
      rw [extended] at same
      cases same
      exact kept

theorem extendfile_returns (mounted : pmp.Mounted) (independent : pmp.Independent)
    (accounts : Accounts pmp s) {dep : Denode}
    (file : dep.vroot = false → dep.startCluster ≠ 0 → ∃ cs, WellFormed pmp s.devvp dep cs) :
    ∃ answer, extendfile pmp s dep = some answer := by
  rw [extendfile]
  cases root : dep.vroot with
  | true => exact ⟨_, rfl⟩
  | false =>
    rw [if_neg (by decide)]
    by_cases ask : dep.lastfc.frcn = FCE_EMPTY ∧ dep.startCluster ≠ 0
    · obtain ⟨cs, formed⟩ := file root ask.2
      obtain ⟨frcn, last, member, mapped⟩ :=
        pcbmap_spec mounted (independent.maxcluster_lt mounted) formed
      rw [if_pos ask, mapped]
      obtain ⟨_, _, _, chained, _⟩ := @chainOn_spec _ _ mounted independent accounts
        { dep with lastfc := ⟨frcn, last⟩ } fun _ => (formed.chain.inuse member).2.2
      exact ⟨_, chained⟩
    · rw [if_neg ask]
      obtain ⟨_, _, _, chained, _⟩ := @chainOn_spec _ _ mounted independent accounts dep
        fun nonempty => by
          obtain ⟨cs, formed⟩ := file root nonempty
          have cached := formed.lastfc fun empty => ask ⟨empty, nonempty⟩
          exact (formed.chain.inuse (List.mem_of_getElem? cached)).2.2
      exact ⟨_, chained⟩

end Chains

section Fill

variable {pmp : Pcfsmount} {s t : Volume}

/-- An entry that does not begin a block lies in the block of the entry before it. -/
theorem same_block (mounted : pmp.Mounted) {cn : Nat}
    (inside : fatofs pmp (cn + 1) % pmp.fatblocksize ≠ 0) :
    fatofs pmp cn / pmp.fatblocksize = fatofs pmp (cn + 1) / pmp.fatblocksize := by
  have near : fatofs pmp (cn + 1) - fatofs pmp cn ≤ fatofs pmp (cn + 1) % pmp.fatblocksize := by
    rw [mounted.blocksize] at inside ⊢
    by_cases fat12 : pmp.Fat12
    · simp only [fatofs, if_pos fat12] at inside ⊢
      obtain ⟨r, part⟩ : ∃ r, r = (cn + 1) * 3 / 2 % (3 * pmp.bytesPerSec) := ⟨_, rfl⟩
      have third : r % 3 = (cn + 1) * 3 / 2 % 3 := by rw [part, Nat.mod_mul_right_mod]
      rw [← part] at inside ⊢
      obtain ⟨k, even | odd⟩ : ∃ k, cn = 2 * k ∨ cn = 2 * k + 1 := ⟨cn / 2, by lia⟩
      · lia
      · rw [odd, show (2 * k + 1 + 1) * 3 / 2 = 3 * (k + 1) by lia] at third ⊢
        lia
    · simp only [fatofs, if_neg fat12, MAXBSIZE] at inside ⊢
      lia
  have order := @fatofs_le pmp _ _ (Nat.le_add_right cn 1)
  have parts := Nat.div_add_mod (fatofs pmp (cn + 1)) pmp.fatblocksize
  apply Nat.div_eq_of_lt_le
  · rw [Nat.mul_comm]
    lia
  · have positive : 0 < pmp.fatblocksize := Nat.pos_of_ne_zero fun zero => by
      have := mounted.unsplit 0
      lia
    have below := Nat.lt_div_mul_add positive (a := fatofs pmp (cn + 1))
    rw [Nat.add_mul, Nat.one_mul]
    lia

def blockOf (pmp : Pcfsmount) (devvp : Disk) (cn : Nat) : Buf :=
  bread devvp (fatblock pmp (fatofs pmp cn)).bn (fatblock pmp (fatofs pmp cn)).size

theorem blockOf_succ (mounted : pmp.Mounted) (devvp : Disk) {cn : Nat}
    (inside : fatofs pmp (cn + 1) % pmp.fatblocksize ≠ 0) : blockOf pmp devvp cn =
      blockOf pmp devvp (cn + 1) := by
  simp only [blockOf, fatblock, same_block mounted inside]

theorem free_iff (mounted : pmp.Mounted) {devvp : Disk} {cn : Nat} (first : CLUST_FIRST ≤ cn)
    (last : cn ≤ pmp.maxcluster) : cn ∈ freeClusters pmp devvp ↔ fatbits pmp devvp cn = 0 := by
  rw [mem_freeClusters, contents_legal mounted first last]
  simp only [first, last, Option.some.injEq, Prod.mk.injEq, true_and]
  exact mark_eq_free

theorem fillScan_block (mounted : pmp.Mounted) {devvp : Disk} {cn : Nat} {bp : Option Buf}
    (first : CLUST_FIRST ≤ cn) (atHand : ∀ b, bp = some b → b = blockOf pmp devvp (cn - 1)) :
    (if fatofs pmp cn % pmp.fatblocksize = 0 then
        bread devvp (fatblock pmp (fatofs pmp cn)).bn (fatblock pmp (fatofs pmp cn)).size
      else bp.getD
        (bread devvp (fatblock pmp (fatofs pmp cn)).bn (fatblock pmp (fatofs pmp cn)).size)) =
      blockOf pmp devvp cn := by
  split
  · rfl
  · rename_i inside
    cases bp with
    | none => rfl
    | some b =>
      obtain ⟨before, rfl⟩ : ∃ before, cn = before + 1 :=
        ⟨cn - 1, by have : 2 ≤ cn := first; lia⟩
      exact (atHand b rfl).trans (blockOf_succ mounted devvp inside)

theorem fillScan_returns (mounted : pmp.Mounted) {count cn : Nat} {bp : Option Buf}
    (size : cn + count = pmp.maxcluster + 1) (first : CLUST_FIRST ≤ cn)
    (started : count = 0 → ∃ b, bp = some b)
    (atHand : ∀ b, bp = some b → b = blockOf pmp s.devvp (cn - 1)) :
    ∃ t, fillScan pmp count cn bp s = some t ∧ t.devvp = s.devvp := by
  induction count generalizing cn bp s with
  | zero =>
    obtain ⟨b, rfl⟩ := started rfl
    exact ⟨s, rfl, rfl⟩
  | succ count ih =>
    have room : ¬ (blockOf pmp s.devvp cn).bcount < fatofs pmp cn % pmp.fatblocksize + 2 :=
      not_lt.mpr (fatblock_room mounted (by lia))
    have next (u : Volume) (same : u.devvp = s.devvp) :
        ∃ t, fillScan pmp count (cn + 1) (some (blockOf pmp s.devvp cn)) u = some t ∧
          t.devvp = s.devvp := by
      rw [← same]
      exact ih (by lia) (by lia) (fun _ => ⟨_, rfl⟩) fun b here => (Option.some.inj here).symm
    simp only [fillScan, fillScan_block mounted first atHand, if_neg room]
    apply next
    generalize (if pmp.Fat12 then _ else _) = readcn
    split <;> rfl

theorem fillScan_spec (mounted : pmp.Mounted) (small : pmp.maxcluster < 0x10000) {count cn : Nat}
    {bp : Option Buf} (size : cn + count = pmp.maxcluster + 1) (first : CLUST_FIRST ≤ cn)
    (atHand : ∀ b, bp = some b → b = blockOf pmp s.devvp (cn - 1))
    (pool : Pool (mapSize pmp) ((freeClusters pmp s.devvp).filter (· < cn)) (usedBit s.inusemap)
      s.freeclustercount s.lookhere)
    (filled : fillScan pmp count cn bp s = some t) : Accounts pmp t := by
  induction count generalizing cn bp s with
  | zero =>
    obtain ⟨_, _, rfl⟩ := Option.map_eq_some_iff.mp filled
    rw [Finset.filter_true_of_mem] at pool
    · exact pool
    · intro m member
      have := (mem_freeClusters.mp member).1.2
      lia
  | succ count ih =>
    have last : cn ≤ pmp.maxcluster := by lia
    have entry : (if pmp.Fat12 then
          (if cn % 2 = 1 then fatshort pmp s.devvp cn >>> 4 else fatshort pmp s.devvp cn) &&& 0x0fff
        else fatshort pmp s.devvp cn) = fatbits pmp s.devvp cn := by
      simp only [fatbits, Nat.and_two_pow_sub_one_eq_mod _ 12, Nat.shiftRight_eq_div_pow]
    have short : getushort (blockOf pmp s.devvp cn) (fatofs pmp cn % pmp.fatblocksize) =
        fatshort pmp s.devvp cn :=
      getushort_fatblock mounted cn
    simp only [fillScan, fillScan_block mounted first atHand] at filled
    rw [short, entry] at filled
    split at filled
    · cases filled
    have step (m : Nat) : m < cn + 1 ↔ m = cn ∨ m < cn := by lia
    by_cases free : fatbits pmp s.devvp cn = 0
    · rw [if_pos free] at filled
      refine @ih (usemapFree s cn) (cn + 1) _ (by lia) (by lia)
        (fun b here => (Option.some.inj here).symm) ?_ filled
      have member := (free_iff mounted first last).mpr free
      have card := freeClusters_card pmp s
      have part := Finset.card_filter_le (freeClusters pmp s.devvp) (· < cn)
      have released := pool.release (n := cn) (by simp) (mapSize_gt last)
      have set : insert cn ((freeClusters pmp s.devvp).filter (· < cn)) =
          (freeClusters pmp s.devvp).filter (· < cn + 1) := by
        ext m
        rw [Finset.mem_insert, Finset.mem_filter, Finset.mem_filter, step]
        constructor
        · rintro (rfl | old)
          · exact ⟨member, .inl rfl⟩
          · exact ⟨old.1, .inr old.2⟩
        · rintro ⟨here, rfl | old⟩
          · exact .inl rfl
          · exact .inr ⟨here, old⟩
      have count : ulong ((s.freeclustercount : Int) + 1) = s.freeclustercount + 1 := by
        have := pool.count_eq
        exact ulong_eq (n := s.freeclustercount + 1) (by lia)
      have start : (if s.lookhere > cn then cn else s.lookhere) = min s.lookhere cn := by
        split <;> lia
      rw [set, ← usedBit_clear, ← count, ← start] at released
      exact released
    · rw [if_neg free] at filled
      refine @ih s (cn + 1) _ (by lia) (by lia) (fun b here => (Option.some.inj here).symm) ?_
        filled
      have set : (freeClusters pmp s.devvp).filter (· < cn + 1) = (freeClusters pmp s.devvp).filter
          (· < cn) := by
        apply Finset.filter_congr
        intro m member
        have apart : m ≠ cn := by
          rintro rfl
          exact free ((free_iff mounted first last).mp member)
        lia
      rw [set]
      exact pool

theorem fillinusemap_spec (mounted : pmp.Mounted) (small : pmp.maxcluster < 0x10000)
    (filled : fillinusemap pmp s = some t) : Accounts pmp t := by
  rw [fillinusemap] at filled
  by_cases some : pmp.maxcluster < 1
  · rw [show pmp.maxcluster - 1 = 0 by lia] at filled
    cases filled
  · refine fillScan_spec mounted small (by unfold CLUST_FIRST; lia) (le_refl _)
      (fun b none => by cases none) ?_ filled
    have none : (freeClusters pmp s.devvp).filter (· < CLUST_FIRST) = ∅ := by
      apply Finset.filter_eq_empty_iff.mpr
      intro m member
      have := (mem_freeClusters.mp member).1.1
      lia
    rw [none]
    apply Pool.empty
    intro n below
    have byte : n / 8 < pmp.maxcluster >>> 3 + 1 := by
      rw [Nat.shiftRight_eq_div_pow]
      unfold mapSize at below
      lia
    simp only [usedBit, if_pos byte]
    exact (by decide : ∀ b < 8, (0xff : Byte).getLsbD b = true) _ (Nat.mod_lt _ (by decide))

theorem fillinusemap_returns (mounted : pmp.Mounted) (clusters : CLUST_FIRST ≤ pmp.maxcluster)
    (s : Volume) : ∃ t, fillinusemap pmp s = some t ∧ t.devvp = s.devvp :=
  fillScan_returns mounted (by unfold CLUST_FIRST at *; lia) (le_refl _)
    (fun none => by unfold CLUST_FIRST at clusters; lia) (fun b none => by cases none)

end Fill

section Runs

variable {pmp : Pcfsmount} {s t : Volume}

inductive FatCall where
  | clusteralloc (fillwith : Nat)
  | clusterfree (cluster : Nat)
  | freeclusterchain (startcluster : Nat)
  | extendfile (dep : Denode)

def fatCall (pmp : Pcfsmount) (s : Volume) : FatCall → Option (Returns × Volume)
  | .clusteralloc fillwith => clusteralloc pmp s fillwith
  | .clusterfree cluster => clusterfree pmp s cluster
  | .freeclusterchain startcluster => freeclusterchain pmp s startcluster
  | .extendfile dep => (extendfile pmp s dep).map fun answer => (answer.1, answer.2.2)

/-- What the callers see to: a cluster is allocated with a mark or a link in its entry, freed
only while it is in use, and linked to a last cluster that is in use; a chain that is freed is
well formed. -/
def Permitted (pmp : Pcfsmount) (s : Volume) : FatCall → Prop
  | .clusteralloc fillwith => pmp.Writes fillwith ∧ fillwith ≠ CLUST_FREE
  | .clusterfree cluster => cluster ∉ freeClusters pmp s.devvp
  | .freeclusterchain startcluster =>
    CLUST_FIRST ≤ startcluster ∧ startcluster ≤ pmp.maxcluster → ∃ cs, Chain pmp s.devvp
      startcluster cs
  | .extendfile dep => dep.Short ∧ (dep.startCluster ≠ 0 → dep.lastfc.frcn ≠ FCE_EMPTY →
      dep.lastfc.fsrcn ∉ freeClusters pmp s.devvp)

def Walkable (pmp : Pcfsmount) (s : Volume) : FatCall → Prop
  | .extendfile dep =>
    dep.vroot = false → dep.startCluster ≠ 0 → ∃ cs, WellFormed pmp s.devvp dep cs
  | _ => True

def FatStep (pmp : Pcfsmount) (s : Volume) (call : FatCall) (t : Volume) : Prop :=
  Permitted pmp s call ∧ ∃ r, fatCall pmp s call = some (r, t)

theorem fatCall_accounts (mounted : pmp.Mounted) (independent : pmp.Independent)
    (accounts : Accounts pmp s) {call : FatCall} (permitted : Permitted pmp s call) {r : Returns}
    (called : fatCall pmp s call = some (r, t)) : Accounts pmp t := by
  cases call with
  | clusteralloc fillwith =>
    rcases clusteralloc_spec mounted independent accounts permitted.1 permitted.2 with
      ⟨_, full⟩ | ⟨_, u, _, _, alloc, kept, _⟩
    · cases called.symm.trans full
      exact accounts
    · cases called.symm.trans alloc
      exact kept
  | clusterfree cluster =>
    by_cases legal : CLUST_FIRST ≤ cluster ∧ cluster ≤ pmp.maxcluster
    · obtain ⟨u, freed, kept, _⟩ :=
        clusterfree_legal mounted independent accounts legal.1 legal.2 permitted
      cases called.symm.trans freed
      exact kept
    · cases called.symm.trans (clusterfree_illegal legal)
      exact accounts
  | freeclusterchain startcluster =>
    by_cases legal : CLUST_FIRST ≤ startcluster ∧ startcluster ≤ pmp.maxcluster
    · obtain ⟨cs, chain⟩ := permitted legal
      obtain ⟨_, u, freed, kept⟩ :=
        @freeChain_spec _ _ mounted independent _ _ 0 _ accounts chain chain.length_lt
      cases called.symm.trans freed
      exact kept
    · rw [fatCall, freeclusterchain, freeChain.eq_def, if_neg legal] at called
      cases called
      exact accounts
  | extendfile dep =>
    obtain ⟨⟨_, dep', u⟩, extended, same⟩ := Option.map_eq_some_iff.mp called
    cases same
    exact extendfile_accounts mounted independent accounts permitted.1 permitted.2 extended

theorem fatCall_returns (mounted : pmp.Mounted) (independent : pmp.Independent)
    (accounts : Accounts pmp s) {call : FatCall} (permitted : Permitted pmp s call)
    (walkable : Walkable pmp s call) : ∃ r t, fatCall pmp s call = some (r, t) := by
  cases call with
  | clusteralloc fillwith =>
    rcases clusteralloc_spec mounted independent accounts permitted.1 permitted.2 with
      ⟨_, full⟩ | ⟨_, t, _, _, alloc, _⟩
    · exact ⟨_, s, full⟩
    · exact ⟨_, t, alloc⟩
  | clusterfree cluster =>
    by_cases legal : CLUST_FIRST ≤ cluster ∧ cluster ≤ pmp.maxcluster
    · obtain ⟨t, freed, _⟩ :=
        clusterfree_legal mounted independent accounts legal.1 legal.2 permitted
      exact ⟨_, t, freed⟩
    · exact ⟨_, s, clusterfree_illegal legal⟩
  | freeclusterchain startcluster =>
    by_cases legal : CLUST_FIRST ≤ startcluster ∧ startcluster ≤ pmp.maxcluster
    · obtain ⟨cs, chain⟩ := permitted legal
      obtain ⟨r, t, freed, _⟩ :=
        @freeChain_spec _ _ mounted independent _ _ 0 _ accounts chain chain.length_lt
      exact ⟨r, t, freed⟩
    · exact ⟨_, s, by rw [fatCall, freeclusterchain, freeChain.eq_def, if_neg legal]⟩
  | extendfile dep =>
    obtain ⟨⟨r, dep', t⟩, extended⟩ := extendfile_returns mounted independent accounts walkable
    exact ⟨r, t, by rw [fatCall, extended]; rfl⟩

theorem run_accounts (mounted : pmp.Mounted) (independent : pmp.Independent) {calls : List FatCall}
    (run : Run (FatStep pmp) s calls t) (accounts : Accounts pmp s) : Accounts pmp t := by
  refine @Run.invariant _ _ _ _ (fun _ => True) ?_ _ _ _ run (fun _ _ => trivial) accounts
  rintro s call t _ before ⟨permitted, r, called⟩
  exact fatCall_accounts mounted independent before permitted called

/-- In every run from `fillinusemap` on, the bitmap, the counter and the start of the search
follow the FAT, and `clusteralloc` takes the lowest free cluster, if there is one. -/
theorem fat_accounts (mounted : pmp.Mounted) (independent : pmp.Independent) {s₀ : Volume}
    {calls : List FatCall} (filled : fillinusemap pmp s = some s₀)
    (run : Run (FatStep pmp) s₀ calls t) :
    (∀ cn, CLUST_FIRST ≤ cn → cn ≤ pmp.maxcluster →
      (usedBit t.inusemap cn = false ↔ contents pmp t.devvp cn = some (0, some CLUST_FREE))) ∧
    t.freeclustercount = (freeClusters pmp t.devvp).card ∧
    (∀ cn, CLUST_FIRST ≤ cn → cn ≤ pmp.maxcluster → cn < t.lookhere →
      contents pmp t.devvp cn ≠ some (0, some CLUST_FREE)) ∧
    (∀ fillwith, pmp.Writes fillwith → fillwith ≠ CLUST_FREE →
      (freeClusters pmp t.devvp = ∅ ∧ clusteralloc pmp t fillwith = some (⟨ENOSPC, none⟩, t)) ∨
      ∃ cn u, cn ∈ freeClusters pmp t.devvp ∧ (∀ m ∈ freeClusters pmp t.devvp, cn ≤ m) ∧
        clusteralloc pmp t fillwith = some (⟨0, some cn⟩, u)) ∧
    ∀ call, Permitted pmp t call → Walkable pmp t call →
      ∃ r u, fatCall pmp t call = some (r, u) := by
  have small := independent.maxcluster_lt mounted
  have accounts := run_accounts mounted independent run (fillinusemap_spec mounted small filled)
  refine ⟨fun cn first last => ?_, accounts.count_eq, fun cn first last below free => ?_,
    fun fillwith writes filled => ?_, fun call permitted walkable =>
      fatCall_returns mounted independent accounts permitted walkable⟩
  · rw [accounts.used_iff cn (mapSize_gt last), mem_freeClusters]
    exact ⟨And.right, And.intro ⟨first, last⟩⟩
  · have above := accounts.start_le cn (mem_freeClusters.mpr ⟨⟨first, last⟩, free⟩)
    omega
  · rcases clusteralloc_spec mounted independent accounts writes filled with
      full | ⟨cn, u, available, lowest, alloc, _⟩
    · exact .inl full
    · exact .inr ⟨cn, u, available, lowest, alloc⟩

def hardDisk : Pcfsmount := ⟨512, 2, 16, 1, 4087, 8192, 16⟩

def blank : Volume := ⟨fun _ => 0, fun _ => 0, 0, 0⟩

theorem hardDisk_mounted : hardDisk.Mounted := ⟨rfl, rfl, rfl, by decide⟩

theorem hardDisk_independent : hardDisk.Independent :=
  independent_fat16 hardDisk_mounted (by decide) (by decide)

theorem blank_free : freeClusters hardDisk blank.devvp = Finset.Icc 2 4087 := by
  ext cn
  rw [mem_freeClusters, Finset.mem_Icc]
  refine ⟨And.left, fun legal => ⟨legal, ?_⟩⟩
  rw [contents_legal hardDisk_mounted legal.1 legal.2]
  rfl

theorem hardDisk_filled : ∃ s, fillinusemap hardDisk blank = some s ∧ Accounts hardDisk s ∧
    freeClusters hardDisk s.devvp = Finset.Icc 2 4087 := by
  obtain ⟨s, filled, same⟩ := fillinusemap_returns hardDisk_mounted (by decide) blank
  refine ⟨s, filled, fillinusemap_spec hardDisk_mounted (by decide) filled, ?_⟩
  rw [same, blank_free]

theorem hardDisk_alloc {v c : Nat} (accounts : Accounts hardDisk s)
    (writes : hardDisk.Writes v) (filled : v ≠ CLUST_FREE)
    (available : c ∈ freeClusters hardDisk s.devvp)
    (lowest : ∀ m ∈ freeClusters hardDisk s.devvp, c ≤ m) :
    ∃ t, clusteralloc hardDisk s v = some (⟨0, some c⟩, t) ∧ Accounts hardDisk t ∧
      freeClusters hardDisk t.devvp = (freeClusters hardDisk s.devvp).erase c := by
  rcases clusteralloc_spec hardDisk_mounted hardDisk_independent accounts writes filled with
    ⟨none, _⟩ | ⟨cn, t, here, least, alloc, kept, erased⟩
  · rw [none] at available
    exact absurd available (Finset.notMem_empty _)
  · obtain rfl := le_antisymm (least c available) (lowest cn here)
    exact ⟨t, alloc, kept, erased⟩

/-- Clusters 2 and 3 are allocated, a file that begins at 2 is extended by 4, and 3 is freed:
then 3 is the next that `clusteralloc` takes. -/
theorem fat_accounts_hardDisk : ∃ s₀ t u, fillinusemap hardDisk blank = some s₀ ∧
    Run (FatStep hardDisk) s₀ [.clusteralloc CLUST_EOFE, .clusteralloc CLUST_EOFE,
      .extendfile ⟨false, 2, ⟨FCE_EMPTY, 0⟩, ⟨0, 2⟩⟩, .clusterfree 3] t ∧
    t.freeclustercount = 4084 ∧ usedBit t.inusemap 4 = true ∧
    clusteralloc hardDisk t CLUST_EOFE = some (⟨0, some 3⟩, u) := by
  have writes : hardDisk.Writes CLUST_EOFE := .inr (.inr (by decide))
  have filledIn : CLUST_EOFE ≠ CLUST_FREE := by decide
  obtain ⟨s₀, filled, accounts₀, free₀⟩ := hardDisk_filled
  obtain ⟨s₁, alloc₁, accounts₁, free₁⟩ := hardDisk_alloc (c := 2) accounts₀ writes filledIn
    (by simp [free₀]) (by simp [free₀]; lia)
  obtain ⟨s₂, alloc₂, accounts₂, free₂⟩ := hardDisk_alloc (c := 3) accounts₁ writes filledIn
    (by simp [free₁, free₀]) (by simp [free₁, free₀]; lia)
  obtain ⟨s₃, alloc₃, accounts₃, free₃⟩ := hardDisk_alloc (c := 4) accounts₂ writes filledIn
    (by simp [free₂, free₁, free₀]) (by simp [free₂, free₁, free₀]; lia)
  obtain ⟨dep, s₄, chained, accounts₄, free₄⟩ :=
    @chainOn_linked _ _ _ hardDisk_independent ⟨false, 2, ⟨FCE_EMPTY, 0⟩, ⟨0, 2⟩⟩ _
      alloc₃ accounts₃ (by decide) (by decide) (by decide) (by decide)
      (by simp [free₃, free₂, free₁])
  have inuse : 3 ∉ freeClusters hardDisk s₄.devvp := by simp [free₄, free₃, free₂]
  obtain ⟨t, freed, accounts₅, free₅, _⟩ := clusterfree_legal hardDisk_mounted
    hardDisk_independent accounts₄ (by decide) (by decide) inuse
  have extended : FatStep hardDisk s₂ (.extendfile ⟨false, 2, ⟨FCE_EMPTY, 0⟩, ⟨0, 2⟩⟩) s₄ := by
    refine ⟨⟨by unfold Denode.Short; decide, fun _ _ => ?_⟩, ⟨0, some 4⟩, ?_⟩
    · simp [free₂, free₁]
    · rw [fatCall, extendfile, if_neg (by decide), if_neg (by decide), chained]
      rfl
  have run : Run (FatStep hardDisk) s₀ [.clusteralloc CLUST_EOFE, .clusteralloc CLUST_EOFE,
      .extendfile ⟨false, 2, ⟨FCE_EMPTY, 0⟩, ⟨0, 2⟩⟩, .clusterfree 3] t :=
    .cons ⟨⟨writes, filledIn⟩, _, alloc₁⟩ (.cons ⟨⟨writes, filledIn⟩, _, alloc₂⟩
      (.cons extended (.cons ⟨inuse, _, freed⟩ (.nil t))))
  obtain ⟨bits, count, _, alloc, _⟩ :=
    fat_accounts hardDisk_mounted hardDisk_independent filled run
  have last : freeClusters hardDisk t.devvp = ((Finset.Icc 2 4087).erase 2).erase 4 := by
    ext m
    simp only [free₅, free₄, free₃, free₂, free₁, free₀, Finset.mem_insert, Finset.mem_erase,
      Finset.mem_Icc]
    lia
  obtain ⟨full, _⟩ | ⟨cn, u, available, lowest, taken⟩ := alloc CLUST_EOFE writes filledIn
  · have member : 3 ∈ freeClusters hardDisk t.devvp := by simp [last]
    rw [full] at member
    exact absurd member (Finset.notMem_empty _)
  · have three : cn = 3 := by
      have least := lowest 3 (by simp [last])
      simp only [last, Finset.mem_erase, Finset.mem_Icc] at available
      lia
    refine ⟨s₀, t, u, filled, run, ?_, ?_, three ▸ taken⟩
    · rw [count, last, Finset.card_erase_of_mem (by simp), Finset.card_erase_of_mem (by simp),
        Nat.card_Icc]
    · rw [← Bool.not_eq_false, bits 4 (by decide) (by decide)]
      intro free
      have member := mem_freeClusters.mpr ⟨by decide, free⟩
      simp [last] at member

/-- On a disk with nothing on it: a free cluster that is freed is counted twice, one that is
allocated with `CLUST_FREE` in its entry is marked as in use, and one that a new cluster is
linked to is still marked as free. -/
theorem fat_accounts_lost : hardDisk.Mounted ∧ hardDisk.Independent ∧
    ∃ s, fillinusemap hardDisk blank = some s ∧
      (∃ r t, clusterfree hardDisk s 2 = some (r, t) ∧ t.freeclustercount = 4087 ∧
        (freeClusters hardDisk t.devvp).card = 4086) ∧
      (∃ r t, clusteralloc hardDisk s CLUST_FREE = some (r, t) ∧
        usedBit t.inusemap 2 = true ∧
        contents hardDisk t.devvp 2 = some (0, some CLUST_FREE)) ∧
      ∃ r dep t, extendfile hardDisk s ⟨false, 3, ⟨FCE_EMPTY, 0⟩, ⟨0, 3⟩⟩ = some (r, dep, t) ∧
        usedBit t.inusemap 3 = false ∧
        contents hardDisk t.devvp 3 = some (0, some 2) := by
  obtain ⟨s, filled, accounts, free⟩ := hardDisk_filled
  refine ⟨hardDisk_mounted, hardDisk_independent, s, filled, ?_, ?_, ?_⟩
  · obtain ⟨devvp', set, reads, others⟩ :=
      hardDisk_independent s.devvp 2 CLUST_FREE (by decide) (by decide) (.inl rfl)
    have after := freeClusters_set (by decide) (by decide) reads others
    rw [if_pos rfl, free, Finset.insert_eq_of_mem (by decide)] at after
    refine ⟨⟨0, some (hardDisk.mark (fatbits hardDisk s.devvp 2))⟩,
      usemapFree { s with devvp := devvp' } 2, ?_, ?_, ?_⟩
    · rw [clusterfree, fatentry_getAndSet hardDisk_mounted (by decide) (by decide) set]
      exact if_pos rfl
    · change ulong ((s.freeclustercount : Int) + 1) = 4087
      rw [accounts.count_eq, free, Nat.card_Icc]
      rfl
    · change (freeClusters hardDisk devvp').card = 4086
      rw [after, Nat.card_Icc]
  · obtain ⟨devvp', set, reads, _⟩ :=
      hardDisk_independent s.devvp 2 CLUST_FREE (by decide) (by decide) (.inl rfl)
    have search : findCluster s.inusemap (hardDisk.maxcluster / 8 + 1 - s.lookhere / 8)
        (s.lookhere / 8) = some 2 := by
      rcases findCluster_spec accounts with ⟨none, _⟩ | ⟨cn, available, lowest, search⟩
      · rw [free] at none
        exact absurd none (by decide)
      · have least := lowest 2 (by simp [free])
        simp only [free, Finset.mem_Icc] at available
        rw [search, le_antisymm least available.1]
    refine ⟨⟨0, some 2⟩, usemapAlloc { s with devvp := devvp' } 2, ?_, ?_, reads⟩
    · rw [clusteralloc, search]
      simp only [set, if_true]
    · change usedBit (Function.update _ _ _) 2 = true
      rw [usedBit_set]
      rfl
  · obtain ⟨t, alloc, kept, erased⟩ := hardDisk_alloc (c := 2) accounts
      (.inr (.inr (by decide)) : hardDisk.Writes CLUST_EOFE) (by decide)
      (by simp [free]) (by simp [free]; lia)
    obtain ⟨devvp', set, reads, _⟩ := hardDisk_independent t.devvp 3 2 (by decide) (by decide)
      (.inr (.inl (by decide)))
    refine ⟨⟨0, some 2⟩, ⟨false, 3, ⟨FCE_EMPTY, 0⟩, ⟨1, 2⟩⟩, { t with devvp := devvp' },
      ?_, ?_, reads⟩
    · rw [extendfile, if_neg (by decide), if_neg (by decide), chainOn, alloc]
      simp only [set]
      rfl
    · change usedBit t.inusemap 3 = false
      rw [kept.used_iff 3 (by decide), erased, free]
      simp

end Runs

end FreeBsd.Pcfs
