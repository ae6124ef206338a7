import Mathlib.Data.Nat.Bitwise
import Mathlib.Tactic.Common
import Mathlib.Tactic.Ring

/-! The file allocation table of an MS-DOS volume, and how `fatentry` reads and
writes one entry of it. -/
namespace FreeBsd.Pcfs

section Model

abbrev Byte := BitVec 8

abbrev Disk := Nat → Byte

def CLUST_FREE : Nat := 0
def CLUST_FIRST : Nat := 2
def CLUST_RSRVS : Nat := 0xfff0
def CLUST_EOFE : Nat := 0xffff

def EINVAL : Nat := 22

def MAXBSIZE : Nat := 8192

/-- The bytes that a block number stands for, whatever the sectors of the volume are. -/
def DEV_BSIZE : Nat := 512

/-- `struct pcfsmount`, the part that a mount sets once and for all. -/
structure Pcfsmount where
  bytesPerSec : Nat
  fats : Nat
  fatSecs : Nat
  fatblk : Nat
  maxcluster : Nat
  fatblocksize : Nat
  fatblocksec : Nat
  deriving DecidableEq, Repr

def Pcfsmount.Fat12 (pmp : Pcfsmount) : Prop := pmp.maxcluster ≤ 4086

instance (pmp : Pcfsmount) : Decidable pmp.Fat12 := inferInstanceAs (Decidable (_ ≤ _))

def fatofs (pmp : Pcfsmount) (cn : Nat) : Nat := if pmp.Fat12 then cn * 3 / 2 else cn * 2

structure Fatblock where
  bn : Nat
  size : Nat
  bo : Nat

def fatblock (pmp : Pcfsmount) (ofs : Nat) : Fatblock :=
  let bn := ofs / pmp.fatblocksize * pmp.fatblocksec
  { bn := bn + pmp.fatblk
    size := min pmp.fatblocksec (pmp.fatSecs - bn) * pmp.bytesPerSec
    bo := ofs % pmp.fatblocksize }

/-- A buffer of the buffer cache, with `b_bcount` bytes that start at block `b_blkno`. -/
structure Buf where
  blkno : Nat
  bcount : Nat
  addr : Nat → Byte

def bread (devvp : Disk) (bn size : Nat) : Buf := ⟨bn, size, fun o => devvp (bn * DEV_BSIZE + o)⟩

/-- What a `bwrite`, or a `bdwrite` in the end, does to the device. -/
def bwrite (devvp : Disk) (bp : Buf) : Disk := fun a =>
  if bp.blkno * DEV_BSIZE ≤ a ∧ a < bp.blkno * DEV_BSIZE + bp.bcount then
    bp.addr (a - bp.blkno * DEV_BSIZE)
  else devvp a

def getushort (bp : Buf) (bo : Nat) : Nat := (bp.addr bo).toNat + 256 * (bp.addr (bo + 1)).toNat

def putushort (bp : Buf) (bo v : Nat) : Buf :=
  { bp with addr := fun o =>
      if o = bo then BitVec.ofNat 8 v else
        if o = bo + 1 then BitVec.ofNat 8 (v / 256) else bp.addr o }

/-- The loop of `updateotherfats`, with `count` copies of the FAT to go. -/
def updateotherfats (pmp : Pcfsmount) (bp : Buf) : (count fatbn : Nat) → Disk → Disk
  | 0, _, devvp => devvp
  | count + 1, fatbn, devvp =>
    updateotherfats pmp bp count (fatbn + pmp.fatSecs)
      (bwrite devvp { bp with blkno := fatbn + pmp.fatSecs })

def readEntry (pmp : Pcfsmount) (cn readcn : Nat) : Nat :=
  if pmp.Fat12 then
    let readcn := if cn % 2 = 1 then readcn >>> 4 else readcn
    let readcn := readcn &&& 0x0fff
    -- map certain 12 bit fat entries to 16 bit
    if readcn &&& 0x0ff0 = 0x0ff0 then readcn ||| 0xf000 else readcn
  else readcn

def writeEntry (pmp : Pcfsmount) (cn readcn newcontents : Nat) : Nat :=
  if pmp.Fat12 then
    if cn % 2 = 1 then readcn &&& 0x000f ||| newcontents <<< 4
    else readcn &&& 0xf000 ||| newcontents
  else newcontents

inductive FatFunction where
  | get
  | set
  | getAndSet
  deriving DecidableEq

def FatFunction.gets (f : FatFunction) : Bool := f ≠ .set
def FatFunction.sets (f : FatFunction) : Bool := f ≠ .get

/-- What `fatentry` returns and leaves: its value, `*oldcontents`, the device. -/
structure FatAnswer where
  error : Nat
  oldcontents : Option Nat
  devvp : Disk

/-- `fatentry`; none where it would reach beyond the end of its buffer. -/
def fatentry (function : FatFunction) (pmp : Pcfsmount) (devvp : Disk) (cn newcontents : Nat) :
    Option FatAnswer :=
  if cn < CLUST_FIRST ∨ cn > pmp.maxcluster then some ⟨EINVAL, none, devvp⟩
  else
    let blk := fatblock pmp (fatofs pmp cn)
    let bp := bread devvp blk.bn blk.size
    if bp.bcount < blk.bo + 2 then none
    else
      let readcn := getushort bp blk.bo
      let old := if function.gets then some (readEntry pmp cn readcn) else none
      if function.sets then
        let bp := putushort bp blk.bo (writeEntry pmp cn readcn newcontents)
        let devvp := updateotherfats pmp bp (pmp.fats - 1) blk.bn devvp
        -- the first fat is written out last
        some ⟨0, old, bwrite devvp bp⟩
      else some ⟨0, old, devvp⟩

/-- What `mountpcfs` computes of a volume whose FAT has room for its clusters; "512 byte blocks
only (so far)". -/
structure Pcfsmount.Mounted (pmp : Pcfsmount) : Prop where
  sector : pmp.bytesPerSec = DEV_BSIZE
  blocksize : pmp.fatblocksize = if pmp.Fat12 then 3 * pmp.bytesPerSec else MAXBSIZE
  blocksec : pmp.fatblocksec = pmp.fatblocksize / pmp.bytesPerSec
  room : fatofs pmp pmp.maxcluster + 2 ≤ pmp.fatSecs * pmp.bytesPerSec

/-- The values pcfs writes: a cluster, `CLUST_FREE`, or a mark. -/
def Pcfsmount.Writes (pmp : Pcfsmount) (v : Nat) : Prop :=
  v = CLUST_FREE ∨ (CLUST_FIRST ≤ v ∧ v ≤ pmp.maxcluster) ∨ (CLUST_RSRVS ≤ v ∧ v ≤ CLUST_EOFE)

/-- The 12 bit entries from 0xff0 on stand for the 16 bit marks. -/
def Pcfsmount.mark (pmp : Pcfsmount) (v : Nat) : Nat :=
  if pmp.Fat12 ∧ v &&& 0x0ff0 = 0x0ff0 then v ||| 0xf000 else v

end Model

section Block

variable {pmp : Pcfsmount}

theorem fatofs_le {c cn : Nat} (below : c ≤ cn) : fatofs pmp c ≤ fatofs pmp cn := by
  unfold fatofs
  split <;> lia

theorem Pcfsmount.Mounted.fits (mounted : pmp.Mounted) {cn : Nat} (legal : cn ≤ pmp.maxcluster) :
    fatofs pmp cn + 2 ≤ pmp.fatSecs * DEV_BSIZE :=
  le_trans (Nat.add_le_add_right (fatofs_le legal) 2) (mounted.sector ▸ mounted.room)

theorem Pcfsmount.Mounted.blocksec_mul (mounted : pmp.Mounted) :
    pmp.fatblocksec * DEV_BSIZE = pmp.fatblocksize := by
  rw [mounted.blocksec, mounted.sector]
  apply Nat.div_mul_cancel
  rw [mounted.blocksize, mounted.sector]
  split
  · exact Nat.dvd_mul_left _ _
  · decide

theorem Pcfsmount.Mounted.unsplit (mounted : pmp.Mounted) (cn : Nat) :
    fatofs pmp cn % pmp.fatblocksize + 2 ≤ pmp.fatblocksize := by
  rw [mounted.blocksize, mounted.sector, fatofs]
  split
  · obtain ⟨r, part⟩ : ∃ r, r = cn * 3 / 2 % (3 * DEV_BSIZE) := ⟨_, rfl⟩
    have below : r < 3 * DEV_BSIZE := part ▸ Nat.mod_lt _ (by decide)
    have third : r % 3 = cn * 3 / 2 % 3 := by rw [part, Nat.mod_mul_right_mod]
    lia
  · unfold MAXBSIZE
    lia

theorem fatblock_addr (mounted : pmp.Mounted) (ofs : Nat) :
    (fatblock pmp ofs).bn * DEV_BSIZE + (fatblock pmp ofs).bo =
      pmp.fatblk * DEV_BSIZE + ofs := by
  have parts := Nat.div_add_mod ofs pmp.fatblocksize
  calc (ofs / pmp.fatblocksize * pmp.fatblocksec + pmp.fatblk) * DEV_BSIZE + ofs % pmp.fatblocksize
      = pmp.fatblk * DEV_BSIZE + (ofs / pmp.fatblocksize * (pmp.fatblocksec * DEV_BSIZE)
          + ofs % pmp.fatblocksize) := by ring
    _ = pmp.fatblk * DEV_BSIZE + ofs := by
        rw [mounted.blocksec_mul, Nat.mul_comm (_ / _), parts]

theorem fatblock_size (mounted : pmp.Mounted) (ofs : Nat) :
    (fatblock pmp ofs).size = min pmp.fatblocksize
      (pmp.fatSecs * DEV_BSIZE - ofs / pmp.fatblocksize * pmp.fatblocksize) := by
  simp only [fatblock, mounted.sector]
  rw [← Nat.mul_min_mul_right, mounted.blocksec_mul, Nat.sub_mul, Nat.mul_assoc,
    mounted.blocksec_mul]

theorem fatblock_room (mounted : pmp.Mounted) {cn : Nat} (legal : cn ≤ pmp.maxcluster) :
    (fatblock pmp (fatofs pmp cn)).bo + 2 ≤ (fatblock pmp (fatofs pmp cn)).size := by
  have fits := mounted.fits legal
  have parts := Nat.div_add_mod (fatofs pmp cn) pmp.fatblocksize
  rw [fatblock_size mounted, Nat.mul_comm (_ / _)]
  apply le_min (mounted.unsplit cn)
  change fatofs pmp cn % pmp.fatblocksize + 2 ≤ _
  lia

end Block

section Entry

variable {pmp : Pcfsmount} {devvp : Disk}

def fatbyte (pmp : Pcfsmount) (devvp : Disk) (ofs : Nat) : Nat :=
  (devvp (pmp.fatblk * DEV_BSIZE + ofs)).toNat

theorem fatbyte_lt (pmp : Pcfsmount) (devvp : Disk) (ofs : Nat) : fatbyte pmp devvp ofs < 256 :=
  (devvp _).isLt

def fatshort (pmp : Pcfsmount) (devvp : Disk) (cn : Nat) : Nat :=
  fatbyte pmp devvp (fatofs pmp cn) + 256 * fatbyte pmp devvp (fatofs pmp cn + 1)

theorem getushort_fatblock (mounted : pmp.Mounted) (cn : Nat) :
    getushort (bread devvp (fatblock pmp (fatofs pmp cn)).bn (fatblock pmp (fatofs pmp cn)).size)
      (fatblock pmp (fatofs pmp cn)).bo = fatshort pmp devvp cn := by
  simp only [getushort, bread, fatshort, fatbyte, ← Nat.add_assoc, fatblock_addr mounted]

theorem fatentry_illegal {function : FatFunction} {cn v : Nat}
    (illegal : ¬ (CLUST_FIRST ≤ cn ∧ cn ≤ pmp.maxcluster)) :
    fatentry function pmp devvp cn v = some ⟨EINVAL, none, devvp⟩ := by
  rw [fatentry, if_pos (by omega)]

theorem fatentry_get (mounted : pmp.Mounted) {cn v : Nat} (first : CLUST_FIRST ≤ cn)
    (last : cn ≤ pmp.maxcluster) :
    fatentry .get pmp devvp cn v = some ⟨0, some (readEntry pmp cn (fatshort pmp devvp cn)),
      devvp⟩ := by
  have room := fatblock_room mounted last
  rw [fatentry, if_neg (by omega)]
  simp only [getushort_fatblock mounted]
  rw [if_neg (by simpa [bread] using room)]
  rfl

theorem updateotherfats_low (bp : Buf) (count fatbn : Nat) {a : Nat}
    (low : a < (fatbn + pmp.fatSecs) * DEV_BSIZE) :
    updateotherfats pmp bp count fatbn devvp a = devvp a := by
  induction count generalizing fatbn devvp with
  | zero => rfl
  | succ count ih =>
    rw [updateotherfats, ih _ (lt_of_lt_of_le low (Nat.mul_le_mul_right _ (Nat.le_add_right _ _)))]
    exact if_neg fun inside => absurd inside.1 (not_le.mpr low)

/-- The first FAT after a block of it has been written with one entry changed. -/
theorem fatbyte_bwrite (mounted : pmp.Mounted) {cn : Nat} (last : cn ≤ pmp.maxcluster)
    (w count ofs : Nat) (below : ofs < pmp.fatSecs * DEV_BSIZE) (bp : Buf)
    (isPut : bp = putushort (bread devvp (fatblock pmp (fatofs pmp cn)).bn
      (fatblock pmp (fatofs pmp cn)).size) (fatblock pmp (fatofs pmp cn)).bo w) :
    fatbyte pmp (bwrite (updateotherfats pmp bp count (fatblock pmp (fatofs pmp cn)).bn devvp) bp)
      ofs =
      if ofs = fatofs pmp cn then w % 256 else if ofs = fatofs pmp cn + 1 then w / 256 % 256
      else fatbyte pmp devvp ofs := by
  have room := fatblock_room mounted last
  have addr := fatblock_addr mounted (fatofs pmp cn)
  have start : pmp.fatblk ≤ (fatblock pmp (fatofs pmp cn)).bn := Nat.le_add_left _ _
  generalize fatblock pmp (fatofs pmp cn) = blk at room addr start isPut
  have base := Nat.mul_le_mul_right DEV_BSIZE start
  have low : pmp.fatblk * DEV_BSIZE + ofs < (blk.bn + pmp.fatSecs) * DEV_BSIZE := by
    rw [Nat.add_mul]
    lia
  rw [isPut]
  simp only [fatbyte, bwrite]
  split
  · rename_i inside
    change blk.bn * _ ≤ _ ∧ _ < blk.bn * _ + blk.size at inside
    have back : blk.bn * DEV_BSIZE + (pmp.fatblk * DEV_BSIZE + ofs - blk.bn * DEV_BSIZE) =
        pmp.fatblk * DEV_BSIZE + ofs := Nat.add_sub_of_le inside.1
    have at_bo : pmp.fatblk * DEV_BSIZE + ofs - blk.bn * DEV_BSIZE = blk.bo ↔
        ofs = fatofs pmp cn := by lia
    have at_next : pmp.fatblk * DEV_BSIZE + ofs - blk.bn * DEV_BSIZE = blk.bo + 1 ↔
        ofs = fatofs pmp cn + 1 := by lia
    simp only [putushort, bread, back, at_bo, at_next]
    split
    · exact BitVec.toNat_ofNat _ _
    · split
      · exact BitVec.toNat_ofNat _ _
      · rfl
  · rename_i outside
    change ¬ (blk.bn * _ ≤ _ ∧ _ < blk.bn * _ + blk.size) at outside
    rw [updateotherfats_low _ _ _ low, if_neg (by lia), if_neg (by lia)]

theorem fatentry_set (mounted : pmp.Mounted) {function : FatFunction} (sets : function ≠ .get)
    {cn : Nat} (v : Nat) (first : CLUST_FIRST ≤ cn) (last : cn ≤ pmp.maxcluster) :
    ∃ devvp', fatentry function pmp devvp cn v = some ⟨0, if function.gets then
        some (readEntry pmp cn (fatshort pmp devvp cn)) else none, devvp'⟩ ∧
      ∀ ofs < pmp.fatSecs * DEV_BSIZE, fatbyte pmp devvp' ofs =
        if ofs = fatofs pmp cn then writeEntry pmp cn (fatshort pmp devvp cn) v % 256
        else if ofs = fatofs pmp cn + 1 then writeEntry pmp cn (fatshort pmp devvp cn) v / 256 % 256
        else fatbyte pmp devvp ofs := by
  have room := fatblock_room mounted last
  rw [fatentry, if_neg (by omega)]
  simp only [getushort_fatblock mounted]
  rw [if_neg (by simpa [bread] using room), if_pos (by simpa [FatFunction.sets] using sets)]
  exact ⟨_, rfl, fun ofs below => fatbyte_bwrite mounted last _ _ _ below _ rfl⟩

/-- The entry of a cluster, from the two bytes it lies in: 12 or 16 bits of them. -/
def fatbits (pmp : Pcfsmount) (devvp : Disk) (cn : Nat) : Nat :=
  if pmp.Fat12 then (if cn % 2 = 1 then fatshort pmp devvp cn / 16 else fatshort pmp devvp
    cn) % 4096
  else fatshort pmp devvp cn

theorem readEntry_fatshort (cn : Nat) :
    readEntry pmp cn (fatshort pmp devvp cn) = pmp.mark (fatbits pmp devvp cn) := by
  unfold readEntry fatbits Pcfsmount.mark
  split
  · rename_i fat12
    simp only [fat12, true_and, Nat.and_two_pow_sub_one_eq_mod _ 12, Nat.shiftRight_eq_div_pow]
  · simp [*]

theorem or_low (x v : Nat) : (x &&& 0xf000 ||| v) % 4096 = v % 4096 := by
  rw [show 4096 = 2 ^ 12 from rfl, Nat.or_mod_two_pow, Nat.and_mod_two_pow]
  simp

theorem or_high (x v : Nat) : (x &&& 0xf000 ||| v) / 4096 % 16 =
    x / 4096 % 16 ||| v / 4096 % 16 := by
  rw [show 4096 = 2 ^ 12 from rfl, Nat.or_div_two_pow, Nat.and_div_two_pow, show 16 =
    2 ^ 4 from rfl, Nat.or_mod_two_pow, show 0xf000 / 2 ^ 12 =
      2 ^ 4 - 1 from rfl, Nat.and_two_pow_sub_one_eq_mod, Nat.mod_mod]

theorem shifted (x v : Nat) : x &&& 0x000f ||| v <<< 4 = v * 16 + x % 16 := by
  rw [Nat.or_comm, show 0x000f = 2 ^ 4 - 1 from rfl, Nat.and_two_pow_sub_one_eq_mod,
    Nat.shiftLeft_eq, Nat.mul_comm v, ← Nat.two_pow_add_eq_or_of_lt (Nat.mod_lt _ (by decide))]

def Replaced (pmp : Pcfsmount) (devvp devvp' : Disk) (cn w : Nat) : Prop :=
  ∀ ofs < pmp.fatSecs * DEV_BSIZE, fatbyte pmp devvp' ofs =
    if ofs = fatofs pmp cn then w % 256 else if ofs = fatofs pmp cn + 1 then w / 256 % 256
    else fatbyte pmp devvp ofs

variable {devvp' : Disk} {cn v w x : Nat}

theorem Replaced.fatshort_self (replaced : Replaced pmp devvp devvp' cn w) (mounted : pmp.Mounted)
    (last : cn ≤ pmp.maxcluster) : fatshort pmp devvp' cn = w % 65536 := by
  have fits := mounted.fits last
  rw [fatshort, replaced _ (by lia), replaced _ (by lia), if_pos rfl, if_neg (by lia), if_pos rfl]
  lia

theorem Replaced.fatbits_self (replaced : Replaced pmp devvp devvp' cn (writeEntry pmp cn x v))
    (mounted : pmp.Mounted) (last : cn ≤ pmp.maxcluster) :
    fatbits pmp devvp' cn = v % (if pmp.Fat12 then 4096 else 65536) := by
  rw [fatbits, replaced.fatshort_self mounted last, writeEntry]
  split
  · split
    · rw [shifted]
      lia
    · have low := or_low x v
      lia
  · rfl

theorem fatbits_after (fat12 : pmp.Fat12) (even : cn % 2 = 0) : fatbits pmp devvp (cn + 1) =
    fatbyte pmp devvp (fatofs pmp cn + 1) / 16 + 16 * fatbyte pmp devvp
      (fatofs pmp cn + 1 + 1) := by
  have first := fatbyte_lt pmp devvp (fatofs pmp cn + 1)
  have second := fatbyte_lt pmp devvp (fatofs pmp cn + 1 + 1)
  have next : fatofs pmp (cn + 1) = fatofs pmp cn + 1 := by
    simp only [fatofs, if_pos fat12]
    lia
  rw [fatbits, if_pos fat12, if_pos (by lia), fatshort, next]
  generalize fatbyte pmp devvp (fatofs pmp cn + 1) = low at *
  generalize fatbyte pmp devvp (fatofs pmp cn + 1 + 1) = high at *
  lia

theorem high_nibble {low high : Nat} (first : low < 256) (second : high < 256) (x : Nat) :
    (x / 256 % 256 + 256 * high) / 16 % 4096 = (low / 16 + 16 * high) / 16 * 16 +
      x / 4096 % 16 := by
  have nibble : x / 256 % 256 / 16 = x / 4096 % 16 := by
    rw [show 256 = 16 * 16 from rfl, Nat.mod_mul_right_div_self, Nat.div_div_eq_div_mul]
  have byte : x / 256 % 256 < 256 := Nat.mod_lt _ (by decide)
  rw [← nibble]
  generalize x / 256 % 256 = y at byte
  have left : (y + 256 * high) / 16 % 4096 = y / 16 + 16 * high := by
    rw [show 256 * high =
      16 * (16 * high) by lia, Nat.add_mul_div_left _ _ (by decide), Nat.mod_eq_of_lt (by lia)]
  have right : (low / 16 + 16 * high) / 16 = high := by
    rw [Nat.add_mul_div_left _ _ (by decide), Nat.div_eq_of_lt (by lia), Nat.zero_add]
  rw [left, right]
  lia

/-- The entry after that of an even cluster may take the high bits of the new contents. -/
theorem Replaced.fatbits_next
    (replaced : Replaced pmp devvp devvp' cn (writeEntry pmp cn (fatshort pmp devvp cn) v))
    (mounted : pmp.Mounted) (fat12 : pmp.Fat12) (even : cn % 2 = 0)
    (last : cn + 1 ≤ pmp.maxcluster) :
    fatbits pmp devvp' (cn + 1) = fatbits pmp devvp (cn + 1) / 16 * 16 +
      (fatbits pmp devvp (cn + 1) % 16 ||| v / 4096 % 16) := by
  have fits := mounted.fits last
  have next : fatofs pmp (cn + 1) = fatofs pmp cn + 1 := by
    simp only [fatofs, if_pos fat12]
    lia
  have second := fatbyte_lt pmp devvp (fatofs pmp cn + 1)
  have third := fatbyte_lt pmp devvp (fatofs pmp cn + 1 + 1)
  have before := @fatbits_after pmp devvp cn fat12 even
  have high := or_high (fatshort pmp devvp cn) v
  rw [show fatshort pmp devvp cn / 4096 % 16 = fatbits pmp devvp (cn + 1) % 16 by
    rw [before, fatshort, Nat.add_mul_mod_self_left, show 4096 =
      256 * 16 from rfl, ← Nat.div_div_eq_div_mul, Nat.add_mul_div_left _ _ (by decide),
        Nat.div_eq_of_lt (fatbyte_lt pmp devvp (fatofs pmp cn)), Nat.zero_add]] at high
  rw [← high, fatbits, if_pos fat12, if_pos (by lia), fatshort, next, replaced _ (by lia),
    if_neg (by lia), if_pos rfl, replaced _ (by lia), if_neg (by lia), if_neg (by lia), writeEntry,
    if_pos fat12, if_neg (by lia), before]
  exact high_nibble second third _

theorem Replaced.fatbits_other
    (replaced : Replaced pmp devvp devvp' cn (writeEntry pmp cn (fatshort pmp devvp cn) v))
    (mounted : pmp.Mounted) {m : Nat} (last : m ≤ pmp.maxcluster) (other : m ≠ cn)
    (notNext : pmp.Fat12 → cn % 2 = 0 → m ≠ cn + 1) : fatbits pmp devvp' m =
    fatbits pmp devvp m := by
  have fits := mounted.fits last
  rw [fatbits, fatbits]
  by_cases fat12 : pmp.Fat12
  · simp only [if_pos fat12, fatshort]
    have apart : fatofs pmp m ≠ fatofs pmp cn ∧ fatofs pmp m ≠ fatofs pmp cn + 1 := by
      have := notNext fat12
      simp only [fatofs, if_pos fat12]
      lia
    rw [replaced _ (by lia), if_neg apart.1, if_neg apart.2, replaced _ (by lia),
      if_neg (show fatofs pmp m + 1 ≠ fatofs pmp cn + 1 by lia)]
    by_cases meet : fatofs pmp m + 1 = fatofs pmp cn
    · -- an odd cluster is set, and the even one before it shares its first byte
      have pair : m % 2 = 0 ∧ cn % 2 = 1 := by
        simp only [fatofs, if_pos fat12] at meet
        lia
      have first := fatbyte_lt pmp devvp (fatofs pmp cn)
      rw [if_pos meet, writeEntry, if_pos fat12, if_pos pair.2, shifted, if_neg (by lia),
        if_neg (by lia), fatshort, meet]
      lia
    · rw [if_neg meet]
  · have apart : fatofs pmp m + 1 < fatofs pmp cn ∨ fatofs pmp cn + 1 < fatofs pmp m := by
      simp only [fatofs, if_neg fat12]
      lia
    simp only [if_neg fat12, fatshort]
    rw [replaced _ (by lia), if_neg (by lia), if_neg (by lia), replaced _ (by lia), if_neg (by lia),
      if_neg (by lia)]

/-- What pcfs writes, and what of it fits into an entry, stand for the same mark. -/
theorem mark_written (writes : pmp.Writes v) (fits : v < 0x10000) :
    pmp.mark (v % (if pmp.Fat12 then 4096 else 65536)) = pmp.mark v := by
  by_cases fat12 : pmp.Fat12
  · rw [if_pos fat12]
    by_cases small : v < 4096
    · rw [Nat.mod_eq_of_lt small]
    · have marks : ∀ j < 16, ((0xfff0 + j) % 4096 &&& 0x0ff0 = 0x0ff0 ∧ (0xfff0 + j) &&& 0x0ff0 =
          0x0ff0) ∧
          (0xfff0 + j) % 4096 ||| 0xf000 = (0xfff0 + j) ||| 0xf000 := by decide
      have high : 0xfff0 ≤ v := by
        simp only [Pcfsmount.Fat12, Pcfsmount.Writes, CLUST_FREE, CLUST_FIRST, CLUST_RSRVS] at *
        lia
      obtain ⟨⟨low, full⟩, same⟩ := marks (v - 0xfff0) (by lia)
      rw [Nat.add_sub_of_le high] at low full same
      rw [Pcfsmount.mark, if_pos ⟨fat12, low⟩, Pcfsmount.mark, if_pos ⟨fat12, full⟩, same]
  · rw [if_neg fat12, Nat.mod_eq_of_lt fits]

/-- A value that fits its entry and does not reach into the entry after it. -/
def Spares (pmp : Pcfsmount) (devvp : Disk) (cn v : Nat) : Prop :=
  v < 0x10000 ∧ (pmp.Fat12 → cn % 2 = 0 → cn < pmp.maxcluster →
    v < 0x1000 ∨ fatbyte pmp devvp (fatofs pmp cn + 1) / 16 = 15)

end Entry

section Independent

variable {pmp : Pcfsmount} {devvp : Disk} {cn v : Nat}

def contents (pmp : Pcfsmount) (devvp : Disk) (cn : Nat) : Option (Nat × Option Nat) :=
  (fatentry .get pmp devvp cn 0).map fun a => (a.error, a.oldcontents)

theorem contents_legal (mounted : pmp.Mounted) (first : CLUST_FIRST ≤ cn)
    (last : cn ≤ pmp.maxcluster) :
    contents pmp devvp cn = some (0, some (pmp.mark (fatbits pmp devvp cn))) := by
  rw [contents, fatentry_get mounted first last, readEntry_fatshort]
  rfl

theorem contents_congr (mounted : pmp.Mounted) {devvp' : Disk} {m : Nat}
    (same : m ≤ pmp.maxcluster → fatbits pmp devvp' m = fatbits pmp devvp m) :
    contents pmp devvp' m = contents pmp devvp m := by
  by_cases legal : CLUST_FIRST ≤ m ∧ m ≤ pmp.maxcluster
  · rw [contents_legal mounted legal.1 legal.2, contents_legal mounted legal.1 legal.2,
      same legal.2]
  · rw [contents, contents, fatentry_illegal legal, fatentry_illegal legal]
    rfl

theorem fatbits_next_low (fat12 : pmp.Fat12) (even : cn % 2 = 0) :
    fatbits pmp devvp (cn + 1) % 16 = fatbyte pmp devvp (fatofs pmp cn + 1) / 16 := by
  have byte := fatbyte_lt pmp devvp (fatofs pmp cn + 1)
  rw [fatbits_after fat12 even, Nat.add_mul_mod_self_left, Nat.mod_eq_of_lt (by lia)]

theorem or_fifteen : ∀ n < 16, ∀ k < 16, (n ||| 0 = n) ∧ (15 ||| k = 15) ∧
    (n ||| 15 = 15) := by decide

theorem Pcfsmount.Writes.fat12 (writes : pmp.Writes v) (fat12 : pmp.Fat12) :
    v < 0x1000 ∨ (v / 4096 = 15 ∧ v < 0x10000) := by
  simp only [Pcfsmount.Writes, Pcfsmount.Fat12, CLUST_FREE, CLUST_FIRST, CLUST_RSRVS,
    CLUST_EOFE] at *
  lia

theorem Replaced.contents_other {devvp' : Disk} {m : Nat}
    (replaced : Replaced pmp devvp devvp' cn (writeEntry pmp cn (fatshort pmp devvp cn) v))
    (mounted : pmp.Mounted) (writes : pmp.Writes v) (spares : Spares pmp devvp cn v)
    (other : m ≠ cn) :
    contents pmp devvp' m = contents pmp devvp m := by
  apply contents_congr mounted
  intro last
  by_cases next : pmp.Fat12 ∧ cn % 2 = 0 ∧ m = cn + 1
  · obtain ⟨fat12, even, rfl⟩ := next
    have low := @fatbits_next_low pmp devvp cn fat12 even
    rw [replaced.fatbits_next mounted fat12 even last]
    rcases writes.fat12 fat12 with small | marks
    · rw [show v / 4096 % 16 = 0 by lia, Nat.or_zero]
      lia
    · have full : fatbits pmp devvp (cn + 1) % 16 = 15 := by
        have := spares.2 fat12 even last
        lia
      rw [full, (or_fifteen 0 (by decide) _ (Nat.mod_lt _ (by decide))).2.1]
      lia
  · exact replaced.fatbits_other mounted last other fun fat12 even same => next ⟨fat12, even, same⟩

theorem Replaced.fits {devvp' : Disk} {x : Nat}
    (replaced : Replaced pmp devvp devvp' cn (writeEntry pmp cn x v)) (mounted : pmp.Mounted)
    (first : CLUST_FIRST ≤ cn) (last : cn ≤ pmp.maxcluster) (writes : pmp.Writes v)
    (reads : contents pmp devvp' cn = some (0, some (pmp.mark v))) : v < 0x10000 := by
  rw [contents_legal mounted first last, replaced.fatbits_self mounted last] at reads
  simp only [Option.some.injEq, Prod.mk.injEq, true_and] at reads
  by_cases fat12 : pmp.Fat12
  · rcases writes.fat12 fat12 with small | marks <;> lia
  · simp only [Pcfsmount.mark, fat12, false_and, if_false] at reads
    lia

theorem fatentry_spares (mounted : pmp.Mounted) (first : CLUST_FIRST ≤ cn)
    (last : cn ≤ pmp.maxcluster) (writes : pmp.Writes v) (spares : Spares pmp devvp cn v) :
    ∃ devvp', fatentry .set pmp devvp cn v = some ⟨0, none, devvp'⟩ ∧
      contents pmp devvp' cn = some (0, some (pmp.mark v)) ∧
      ∀ m, m ≠ cn → contents pmp devvp' m = contents pmp devvp m := by
  obtain ⟨disk, set, replaced⟩ := @fatentry_set pmp devvp mounted .set (by decide) cn v first last
  change Replaced pmp devvp disk cn _ at replaced
  refine ⟨disk, set, ?_, fun m other => replaced.contents_other mounted writes spares other⟩
  rw [contents_legal mounted first last, replaced.fatbits_self mounted last,
    mark_written writes spares.1]

end Independent

end FreeBsd.Pcfs
