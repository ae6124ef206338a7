import FreeBsd.Pcfs.PcfsAlloc

/-! The cache of a file's clusters beside its chain in the FAT, while the file is read, extended and
truncated. -/
namespace FreeBsd.Pcfs

open FreeBsd.Lib

section Model

/-- What the loop of `pcbmap` comes to: cluster `i` of the file, or its end after `i` clusters and
the last of them. -/
inductive Walked where
  | found (i cn : Nat)
  | hiteof (i prevcn : Nat)
  deriving DecidableEq

def walk (pmp : Pcfsmount) (devvp : Disk) (count i cn : Nat) (prevcn : Option Nat) :
    Option Walked :=
  if pcfseof cn then prevcn.map (.hiteof i)
  else
    match count with
    | 0 => some (.found i cn)
    | count + 1 =>
      let blk := fatblock pmp (fatofs pmp cn)
      let bp := bread devvp blk.bn blk.size
      if bp.bcount < blk.bo + 2 then none
      else walk pmp devvp count (i + 1) (readEntry pmp cn (getushort bp blk.bo)) (some cn)

/-- What `pcbmap` returns, `*cnp`, and the denode it leaves. -/
structure Pcbmapped where
  error : Nat
  cnp : Nat
  dep : Denode
  deriving DecidableEq

/-- `pcbmap` of a file, with a place for the cluster number. -/
def pcbmapCnp (pmp : Pcfsmount) (devvp : Disk) (dep : Denode) (findcn : Nat) : Option Pcbmapped :=
  -- just an empty file
  if dep.startCluster = 0 then some ⟨E2BIG, 0, dep⟩
  else
    let start := (fcLookup dep findcn).getD ⟨0, dep.startCluster⟩
    (walk pmp devvp (findcn - start.frcn) start.frcn start.fsrcn none).map fun
      | .found i cn => ⟨0, cn, { dep with lastmap := ⟨ushort i, ushort cn⟩ }⟩
      | .hiteof i prevcn => ⟨E2BIG, i, { dep with lastfc := ⟨ushort (i - 1), ushort prevcn⟩ }⟩

def fcPurge (dep : Denode) (frcn : Nat) : Denode :=
  let purge (fc : Fatcache) : Fatcache :=
    if fc.frcn ≠ FCE_EMPTY ∧ frcn ≤ fc.frcn then { fc with frcn := FCE_EMPTY } else fc
  { dep with lastmap := purge dep.lastmap, lastfc := purge dep.lastfc }

/-- `struct pcfsmount`, what it says of the clusters themselves. -/
structure Clusters where
  cnshift : Nat
  sectPerClust : Nat
  firstcluster : Nat
  deriving DecidableEq, Repr

def Clusters.crbomask (clu : Clusters) : Nat := 2 ^ clu.cnshift - 1

def cntobn (clu : Clusters) (cn : Nat) : Nat :=
  (cn - CLUST_FIRST) * clu.sectPerClust + clu.firstcluster

/-- A buffer of a file, with the number of its block in the file and on the volume: the second
is the first until it is mapped. -/
structure FileBuf where
  lblkno : Nat
  blkno : Nat
  deriving DecidableEq, Repr

/-- A volume and one regular file on it. The buffers of the file are in two lists, those with
a delayed write in the first. -/
structure Sys where
  vol : Volume
  dep : Denode
  fileSize : Nat
  dirtyblkhd : List FileBuf
  cleanblkhd : List FileBuf

/-- `pcfs_strategy`; none where it fails to map the block, since the I/O then never ends. -/
def pcfsStrategy (pmp : Pcfsmount) (clu : Clusters) (devvp : Disk) (dep : Denode) (bp : FileBuf) :
    Option (FileBuf × Denode) :=
  if bp.blkno = bp.lblkno then
    match pcbmapCnp pmp devvp dep bp.lblkno with
    | some ⟨0, cn, dep⟩ => some ({ bp with blkno := cntobn clu cn }, dep)
    | _ => none
  else some (bp, dep)

def flush (pmp : Pcfsmount) (clu : Clusters) (devvp : Disk) :
    List FileBuf → Denode → Option Denode
  | [], dep => some dep
  | bp :: dirtyblkhd, dep =>
    match pcfsStrategy pmp clu devvp dep bp with
    | some (_, dep) => flush pmp clu devvp dirtyblkhd dep
    | none => none

def vinvalbuf (pmp : Pcfsmount) (clu : Clusters) (σ : Sys) (save : Bool) : Option Sys :=
  (if save then flush pmp clu σ.vol.devvp σ.dirtyblkhd σ.dep else some σ.dep).map fun dep =>
    { σ with dep := dep, dirtyblkhd := [], cleanblkhd := [] }

/-- `bread` of a block of the file: its buffer is found, or is new and has to be mapped. -/
def breadFile (pmp : Pcfsmount) (clu : Clusters) (σ : Sys) (bn : Nat) :
    Option (FileBuf × Denode) :=
  match (σ.dirtyblkhd ++ σ.cleanblkhd).find? fun bp => bp.lblkno = bn with
  | some bp => some (bp, σ.dep)
  | none => pcfsStrategy pmp clu σ.vol.devvp σ.dep ⟨bn, bn⟩

def otherBufs (bn : Nat) (bufs : List FileBuf) : List FileBuf :=
  bufs.filter fun bp => bp.lblkno ≠ bn

/-- The block that the new end lies in is read, zeroed behind the end, and written. -/
def zeroTail (pmp : Pcfsmount) (clu : Clusters) (σ : Sys) (bn : Nat) (sync : Bool) :
    Option Sys :=
  match breadFile pmp clu σ bn with
  | none => none
  | some (bp, dep) =>
    let dirtyblkhd := otherBufs bn σ.dirtyblkhd
    let cleanblkhd := otherBufs bn σ.cleanblkhd
    if sync then
      (pcfsStrategy pmp clu σ.vol.devvp dep bp).map fun (bp, dep) =>
        { σ with dep := dep, dirtyblkhd := dirtyblkhd, cleanblkhd := bp :: cleanblkhd }
    else some { σ with dep := dep, dirtyblkhd := bp :: dirtyblkhd, cleanblkhd := cleanblkhd }

/-- What `detrunc` does to the buffers and the size, before it touches the chain. -/
def settle (pmp : Pcfsmount) (clu : Clusters) (σ : Sys) (length : Nat) (sync : Bool) :
    Option Sys :=
  let zeroed := if length &&& clu.crbomask ≠ 0 then
      zeroTail pmp clu σ ((length - 1) >>> clu.cnshift) sync
    else some σ
  zeroed.bind fun σ => vinvalbuf pmp clu { σ with fileSize := length } (0 < length)

/-- The end of `detrunc`: the clusters behind the new end are freed. -/
def freeRest (pmp : Pcfsmount) (σ : Sys) (chaintofree : Nat) : Option (Nat × Sys) :=
  if chaintofree ≠ 0 ∧ ¬ pcfseof chaintofree then
    (freeclusterchain pmp σ.vol chaintofree).map fun answer => (0, { σ with vol := answer.2 })
  else some (0, σ)

/-- `detrunc` of a regular file; what it does to the data of the file is left out. -/
def detrunc (pmp : Pcfsmount) (clu : Clusters) (σ : Sys) (length : Nat) (sync : Bool) :
    Option (Nat × Sys) :=
  let purge (dep : Denode) : Denode :=
    fcPurge dep (((length + clu.crbomask) % 2 ^ 32) >>> clu.cnshift)
  if σ.dep.vroot then some (EINVAL, σ)
  else if σ.fileSize ≤ length then some (0, σ)
  else if length = 0 then
    match settle pmp clu { σ with dep := purge { σ.dep with startCluster := 0 } } length sync with
    | none => none
    | some τ => freeRest pmp τ σ.dep.startCluster
  else
    match pcbmapCnp pmp σ.vol.devvp σ.dep ((length - 1) >>> clu.cnshift) with
    | none => none
    | some ⟨error, eofentry, dep⟩ =>
      if error ≠ 0 then some (error, { σ with dep := dep })
      else
        match settle pmp clu { σ with dep := purge dep } length sync with
        | none => none
        | some τ =>
          match fatentry .getAndSet pmp τ.vol.devvp eofentry CLUST_EOFE with
          | none => none
          | some a =>
            if a.error ≠ 0 then some (a.error, τ)
            else
              freeRest pmp
                { τ with
                  vol := { τ.vol with devvp := a.devvp }
                  dep := { τ.dep with
                    lastfc := ⟨ushort ((length - 1) >>> clu.cnshift), ushort eofentry⟩ } }
                (a.oldcontents.getD 0)

/-- The calls about a file; its size and its buffers are left to those who read and write it. -/
inductive FileCall where
  | pcbmap (findcn : Nat)
  | extendfile
  | detrunc (length : Nat) (sync : Bool)
  | transfer (fileSize : Nat) (dirtyblkhd cleanblkhd : List FileBuf)

def fileCall (pmp : Pcfsmount) (clu : Clusters) (σ : Sys) : FileCall → Option Sys
  | .pcbmap findcn =>
    (pcbmapCnp pmp σ.vol.devvp σ.dep findcn).map fun answer => { σ with dep := answer.dep }
  | .extendfile =>
    (FreeBsd.Pcfs.extendfile pmp σ.vol σ.dep).map fun answer =>
      { σ with dep := answer.2.1, vol := answer.2.2 }
  | .detrunc length sync => (FreeBsd.Pcfs.detrunc pmp clu σ length sync).map Prod.snd
  | .transfer fileSize dirtyblkhd cleanblkhd =>
    some { σ with fileSize := fileSize, dirtyblkhd := dirtyblkhd, cleanblkhd := cleanblkhd }

end Model

section File

def FileChain (pmp : Pcfsmount) (devvp : Disk) (startCluster : Nat) (cs : List Nat) : Prop :=
  (cs = [] ∧ startCluster = 0) ∨ (cs ≠ [] ∧ Chain pmp devvp startCluster cs)

/-- A file with its clusters, in the FAT, in the map of the clusters in use, and in the cache. -/
structure IsFile (pmp : Pcfsmount) (σ : Sys) (cs : List Nat) : Prop where
  plain : σ.dep.vroot = false
  chain : FileChain pmp σ.vol.devvp σ.dep.startCluster cs
  used : ∀ c ∈ cs, usedBit σ.vol.inusemap c = true
  lastmap : Cached cs σ.dep.lastmap
  lastfc : Cached cs σ.dep.lastfc
  atEnd : σ.dep.lastfc.frcn ≠ FCE_EMPTY → σ.dep.lastfc.frcn + 1 = cs.length

/-- A file as `deget` leaves it: nothing is in its cache. -/
structure Opened (pmp : Pcfsmount) (σ : Sys) (cs : List Nat) : Prop where
  plain : σ.dep.vroot = false
  chain : FileChain pmp σ.vol.devvp σ.dep.startCluster cs
  used : ∀ c ∈ cs, usedBit σ.vol.inusemap c = true
  lastmap : σ.dep.lastmap.frcn = FCE_EMPTY
  lastfc : σ.dep.lastfc.frcn = FCE_EMPTY

/-- The end mark of a cluster does not reach into the entry of another cluster of the file. -/
def EndFits (pmp : Pcfsmount) (σ : Sys) (cn : Nat) : Prop :=
  ∀ cs, FileChain pmp σ.vol.devvp σ.dep.startCluster cs → pmp.Fat12 → cn % 2 = 0 → cn + 1 ∈ cs →
    fatbits pmp σ.vol.devvp (cn + 1) % 16 = 15

def unmapped (bufs : List FileBuf) : List FileBuf := bufs.filter fun bp => bp.blkno = bp.lblkno

/-- The delayed writes that `detrunc` sends out before it cuts the chain are of blocks of the
file, and the last one of them that is mapped on its way is of a block that the file keeps. -/
def Flushes (pmp : Pcfsmount) (clu : Clusters) (σ : Sys) (length : Nat) : Prop :=
  ∀ cs, FileChain pmp σ.vol.devvp σ.dep.startCluster cs →
    (∀ bp ∈ unmapped σ.dirtyblkhd, bp.lblkno < cs.length) ∧
    ∀ bp, (unmapped (if length &&& clu.crbomask ≠ 0 then
        otherBufs ((length - 1) >>> clu.cnshift) σ.dirtyblkhd else σ.dirtyblkhd)).getLast? =
          some bp →
      bp.lblkno ≤ (length - 1) >>> clu.cnshift

/-- What the calls need: the end mark they write reaches into no other entry of the file, the
number of a cluster that is allocated is read back as itself, and no delayed write puts a
cluster that is cut off back into the cache. -/
def Meets (pmp : Pcfsmount) (clu : Clusters) (σ : Sys) : FileCall → Prop
  | .pcbmap _ => True
  | .extendfile =>
    ∀ cn, findCluster σ.vol.inusemap (pmp.maxcluster / 8 + 1 - σ.vol.lookhere / 8)
        (σ.vol.lookhere / 8) = some cn →
      pmp.mark cn = cn ∧ EndFits pmp σ cn
  | .detrunc length _ =>
    (∀ cs cn, FileChain pmp σ.vol.devvp σ.dep.startCluster cs →
      cs[(length - 1) >>> clu.cnshift]? = some cn → EndFits pmp σ cn) ∧
    (0 < length → length < σ.fileSize → Flushes pmp clu σ length)
  | .transfer _ _ _ => True

def FileStep (pmp : Pcfsmount) (clu : Clusters) (σ : Sys) (call : FileCall) (τ : Sys) : Prop :=
  Meets pmp clu σ call ∧ fileCall pmp clu σ call = some τ

end File

section Walk

variable {pmp : Pcfsmount} {devvp devvp' : Disk} {dep : Denode} {count i cn start next k : Nat}
    {prevcn : Option Nat}
  {cs front rest rest' : List Nat} {σ τ : Sys} {c : Nat}

theorem walk_spec (mounted : pmp.Mounted) (chain : Chain pmp devvp start cs) :
    walk pmp devvp count i start prevcn =
      match cs[count]? with
      | some c => some (.found (i + count) c)
      | none => (cs.getLast?.or prevcn).map fun last => .hiteof (i + cs.length) last := by
  induction cs generalizing count i start prevcn with
  | nil =>
    rw [walk.eq_def, if_pos chain.1]
    rfl
  | cons c rest ih =>
    obtain ⟨rfl, first, last, mark, _, next, reads, tail⟩ := chain
    rw [contents_legal mounted first last] at reads
    simp only [Option.some.injEq, Prod.mk.injEq, true_and] at reads
    have room := fatblock_room mounted last
    rw [walk.eq_def, mark, if_neg (by decide)]
    cases count with
    | zero => rfl
    | succ count =>
      simp only [getushort_fatblock mounted, readEntry_fatshort, reads]
      rw [if_neg (by simpa [bread] using room), ih tail, List.getElem?_cons_succ,
        List.getLast?_cons, List.length_cons, show i + 1 + count =
        i + (count + 1) by lia, show i + 1 + rest.length = i + (rest.length + 1) by lia]
      cases rest[count]? with
      | some c => rfl
      | none => cases rest.getLast? <;> rfl

theorem fcLookup_le {findcn : Nat} {fc : Fatcache} (found : fcLookup dep findcn = some fc) :
    fc.frcn ≤ findcn := by
  rw [fcLookup] at found
  split at found
  · rename_i first
    split at found
    · rename_i second
      cases found
      exact (of_decide_eq_true second.1).2
    · cases found
      exact (of_decide_eq_true first).2
  · split at found
    · rename_i second
      cases found
      exact (of_decide_eq_true second).2
    · cases found

theorem FileChain.inuse (chain : FileChain pmp devvp start cs) (member : c ∈ cs) :
    CLUST_FIRST ≤ c ∧ c ≤ pmp.maxcluster := by
  rcases chain with ⟨rfl, -⟩ | ⟨-, chain⟩
  · cases member
  · exact ⟨(chain.inuse member).1, (chain.inuse member).2.1⟩

theorem FileChain.length_le (chain : FileChain pmp devvp start cs) :
    cs.length ≤ pmp.maxcluster := by
  rcases chain with ⟨rfl, -⟩ | ⟨-, chain⟩
  · exact Nat.zero_le _
  · exact chain.length_lt

theorem FileChain.start_eq_zero (chain : FileChain pmp devvp start cs) : start = 0 ↔ cs = [] := by
  rcases chain with ⟨none, zero⟩ | ⟨some, chain⟩
  · exact ⟨fun _ => none, fun _ => zero⟩
  · exact ⟨fun zero => absurd zero chain.start_ne_free, fun none => absurd none some⟩

theorem Chain.unique {cs' : List Nat} (chain : Chain pmp devvp start cs)
    (other : Chain pmp devvp start cs') : cs = cs' := by
  induction cs generalizing start cs' with
  | nil =>
    cases cs' with
    | nil => rfl
    | cons d rest' =>
      obtain ⟨rfl, -, -, mark, -⟩ := other
      exact absurd (chain.1.symm.trans mark) (by decide)
  | cons c rest ih =>
    obtain ⟨rfl, -, -, mark, -, next, reads, tail⟩ := chain
    cases cs' with
    | nil => exact absurd (other.1.symm.trans mark) (by decide)
    | cons d rest' =>
      obtain ⟨rfl, -, -, -, -, next', reads', tail'⟩ := other
      rw [reads] at reads'
      obtain rfl : next = next' := by simpa using reads'
      exact congrArg _ (ih tail tail')

theorem FileChain.unique {cs' : List Nat} (chain : FileChain pmp devvp start cs)
    (other : FileChain pmp devvp start cs') : cs = cs' := by
  rcases chain with ⟨none, zero⟩ | ⟨some, chain⟩
  · exact none.trans (other.start_eq_zero.mp zero).symm
  · rcases other with ⟨-, zero⟩ | ⟨-, other⟩
    · exact absurd zero chain.start_ne_free
    · exact chain.unique other

theorem IsFile.wellFormed (file : IsFile pmp σ cs) (some : cs ≠ []) :
    WellFormed pmp σ.vol.devvp σ.dep cs := by
  rcases file.chain with ⟨none, -⟩ | ⟨-, chain⟩
  · exact absurd none some
  · exact ⟨chain, some, file.lastmap, file.lastfc, file.atEnd⟩

/-- `pcbmap` of a file: the cluster, or the number of clusters, and what it leaves in the cache. -/
theorem pcbmapCnp_spec (mounted : pmp.Mounted) (small : pmp.maxcluster < 0x10000)
    (file : IsFile pmp σ cs) (k : Nat) :
    pcbmapCnp pmp σ.vol.devvp σ.dep k =
      some (match cs[k]?, cs.getLast? with
        | some c, _ => ⟨0, c, { σ.dep with lastmap := ⟨k, c⟩ }⟩
        | none, some last => ⟨E2BIG, cs.length, { σ.dep with lastfc := ⟨cs.length - 1, last⟩ }⟩
        | none, none => ⟨E2BIG, 0, σ.dep⟩) := by
  have length := file.chain.length_le
  have short {c : Nat} (member : c ∈ cs) : ushort c = c := by
    have legal := (file.chain.inuse member).2
    exact Nat.mod_eq_of_lt (by lia)
  rw [pcbmapCnp]
  by_cases empty : cs = []
  · subst empty
    rw [if_pos (file.chain.start_eq_zero.mpr rfl)]
    rfl
  · rw [if_neg fun zero => empty (file.chain.start_eq_zero.mp zero)]
    have formed := file.wellFormed empty
    obtain ⟨fc, eq⟩ : ∃ fc, fc = (fcLookup σ.dep k).getD ⟨0, σ.dep.startCluster⟩ := ⟨_, rfl⟩
    have here := formed.lookup k eq
    have before : fc.frcn ≤ k := by
      rw [eq]
      cases found : fcLookup σ.dep k with
      | none => exact Nat.zero_le k
      | some fc => exact fcLookup_le found
    have inside := (List.getElem?_eq_some_iff.mp here).1
    dsimp only
    rw [← eq, walk_spec mounted (formed.chain.drop here), List.getElem?_drop,
      Nat.add_sub_cancel' before]
    cases reached : cs[k]? with
    | some c =>
      have bound := (List.getElem?_eq_some_iff.mp reached).1
      have member := List.mem_of_getElem? reached
      simp only [Option.map_some, short member]
      rw [show ushort k = k from Nat.mod_eq_of_lt (by lia)]
    | none =>
      have last : (cs.drop fc.frcn).getLast? = cs.getLast? := by
        rw [List.getLast?_drop, if_neg (by lia)]
      rw [last, List.length_drop, Nat.add_sub_cancel' inside.le]
      cases ends : cs.getLast? with
      | none => exact absurd (List.getLast?_eq_none_iff.mp ends) empty
      | some last =>
        have member := List.mem_of_getLast? ends
        simp only [Option.or_none, Option.map_some, short member]
        rw [show ushort (cs.length - 1) = cs.length - 1 from Nat.mod_eq_of_lt (by lia)]

end Walk

section Buffers

variable {pmp : Pcfsmount} {clu : Clusters} {σ : Sys} {cs : List Nat} {bp : FileBuf}
  {bufs : List FileBuf} {fc : Fatcache} {n length : Nat} {sync : Bool}

/-- The entry of the cache after a block has been mapped, if it had to be. -/
def remember (cs : List Nat) (fc : Fatcache) (bp : FileBuf) : Fatcache :=
  if bp.blkno = bp.lblkno then ⟨bp.lblkno, cs.getD bp.lblkno 0⟩ else fc

theorem remember_cached (cached : Cached (cs.take n) fc)
    (inside : bp.blkno = bp.lblkno → bp.lblkno < cs.length ∧ bp.lblkno < n) :
    Cached (cs.take n) (remember cs fc bp) := by
  unfold remember
  split
  · rename_i mapped
    obtain ⟨short, kept⟩ := inside mapped
    intro _
    change (cs.take n)[bp.lblkno]? = some (cs.getD bp.lblkno 0)
    rw [List.getElem?_take_of_lt kept, List.getD_eq_getElem?_getD, List.getElem?_eq_getElem short]
    rfl
  · exact cached

theorem IsFile.congr {τ : Sys} (file : IsFile pmp σ cs) (vol : τ.vol = σ.vol)
    (dep : τ.dep = σ.dep) : IsFile pmp τ cs := by
  obtain ⟨plain, chain, used, lastmap, lastfc, atEnd⟩ := file
  rw [← dep] at plain chain lastmap lastfc atEnd
  rw [← vol] at chain used
  exact ⟨plain, chain, used, lastmap, lastfc, atEnd⟩

theorem IsFile.remapped (file : IsFile pmp σ cs) (cached : Cached cs fc) :
    IsFile pmp { σ with dep := { σ.dep with lastmap := fc } } cs :=
  ⟨file.plain, file.chain, file.used, cached, file.lastfc, file.atEnd⟩

theorem pcfsStrategy_spec (clu : Clusters) (mounted : pmp.Mounted)
    (small : pmp.maxcluster < 0x10000) (file : IsFile pmp σ cs)
    (inside : bp.blkno = bp.lblkno → bp.lblkno < cs.length) :
    ∃ blkno, pcfsStrategy pmp clu σ.vol.devvp σ.dep bp =
      some (⟨bp.lblkno, blkno⟩, { σ.dep with lastmap := remember cs σ.dep.lastmap bp }) := by
  unfold pcfsStrategy remember
  split
  · rename_i mapped
    have short := inside mapped
    have here : cs[bp.lblkno]? = some (cs.getD bp.lblkno 0) := by
      rw [List.getD_eq_getElem?_getD, List.getElem?_eq_getElem short]
      rfl
    rw [pcbmapCnp_spec mounted small file, here]
    exact ⟨_, rfl⟩
  · exact ⟨bp.blkno, rfl⟩

theorem flush_spec (clu : Clusters) (mounted : pmp.Mounted) (small : pmp.maxcluster < 0x10000)
    (file : IsFile pmp σ cs) (inside : ∀ bp ∈ unmapped bufs, bp.lblkno < cs.length) :
    flush pmp clu σ.vol.devvp bufs σ.dep =
      some { σ.dep with lastmap := bufs.foldl (remember cs) σ.dep.lastmap } := by
  induction bufs generalizing σ with
  | nil => rfl
  | cons bp bufs ih =>
    have first (mapped : bp.blkno = bp.lblkno) : bp.lblkno < cs.length :=
      inside bp (List.mem_filter.mpr ⟨List.mem_cons_self, decide_eq_true mapped⟩)
    have rest (b : FileBuf) (member : b ∈ unmapped bufs) : b.lblkno < cs.length := by
      obtain ⟨later, mapped⟩ := List.mem_filter.mp member
      exact inside b (List.mem_filter.mpr ⟨List.mem_cons_of_mem _ later, mapped⟩)
    obtain ⟨blkno, done⟩ := pcfsStrategy_spec clu mounted small file first
    have cached : Cached cs (remember cs σ.dep.lastmap bp) := by
      have whole := @remember_cached cs bp σ.dep.lastmap cs.length
        (by rw [List.take_length]; exact file.lastmap) fun mapped => ⟨first mapped, first mapped⟩
      rwa [List.take_length] at whole
    simp only [flush, done]
    exact ih (file.remapped cached) rest

theorem foldl_remember (cached : Cached (cs.take n) fc)
    (inside : ∀ bp ∈ unmapped bufs, bp.lblkno < cs.length)
    (last : ∀ bp, (unmapped bufs).getLast? = some bp → bp.lblkno < n) :
    Cached (cs.take n) (bufs.foldl (remember cs) fc) := by
  induction bufs using List.reverseRecOn with
  | nil => exact cached
  | append_singleton bufs bp ih =>
    rw [List.foldl_append]
    by_cases mapped : bp.blkno = bp.lblkno
    · have ends : unmapped (bufs ++ [bp]) = unmapped bufs ++ [bp] := by
        simp [unmapped, List.filter_append, mapped]
      rw [ends] at inside last
      have kept := last bp List.getLast?_concat
      have short := inside bp (List.mem_append_right _ (List.mem_singleton_self bp))
      change Cached _ (remember cs _ bp)
      rw [remember, if_pos mapped]
      have here := @remember_cached cs bp ⟨FCE_EMPTY, 0⟩ n (fun some => absurd rfl some)
        fun _ => ⟨short, kept⟩
      rwa [remember, if_pos mapped] at here
    · have same : unmapped (bufs ++ [bp]) = unmapped bufs := by
        simp [unmapped, List.filter_append, mapped]
      rw [same] at inside last
      change Cached _ (remember cs _ bp)
      rw [remember, if_neg mapped]
      exact ih inside last

/-- A block that is kept is in the cache right, and so is what it was put in for. -/
theorem remember_kept (both : Cached (cs.take n) fc ∧ Cached cs fc) (short : bp.lblkno < cs.length)
    (kept : bp.lblkno < n) :
    Cached (cs.take n) (remember cs fc bp) ∧ Cached cs (remember cs fc bp) := by
  have whole := @remember_cached cs bp fc cs.length (by rw [List.take_length]; exact both.2)
    fun _ => ⟨short, short⟩
  rw [List.take_length] at whole
  exact ⟨remember_cached both.1 fun _ => ⟨short, kept⟩, whole⟩

theorem breadFile_spec (clu : Clusters) (mounted : pmp.Mounted) (small : pmp.maxcluster < 0x10000)
    (file : IsFile pmp σ cs) {bn : Nat} (short : bn < cs.length) (kept : bn < n)
    (cached : Cached (cs.take n) σ.dep.lastmap) :
    ∃ blkno fc, breadFile pmp clu σ bn = some (⟨bn, blkno⟩, { σ.dep with lastmap := fc }) ∧
      Cached (cs.take n) fc ∧ Cached cs fc := by
  unfold breadFile
  cases found : (σ.dirtyblkhd ++ σ.cleanblkhd).find? fun bp => bp.lblkno = bn with
  | none =>
    obtain ⟨blkno, done⟩ := @pcfsStrategy_spec pmp σ cs ⟨bn, bn⟩ clu mounted small file fun _ =>
      short
    exact ⟨blkno, _, done, @remember_kept cs ⟨bn, bn⟩ _ n ⟨cached, file.lastmap⟩ short kept⟩
  | some bp =>
    have here := List.find?_some found
    obtain rfl : bp.lblkno = bn := of_decide_eq_true here
    exact ⟨bp.blkno, σ.dep.lastmap, rfl, cached, file.lastmap⟩

theorem zeroTail_spec (clu : Clusters) (mounted : pmp.Mounted) (small : pmp.maxcluster < 0x10000)
    (file : IsFile pmp σ cs) {bn : Nat} (short : bn < cs.length) (kept : bn < n)
    (cached : Cached (cs.take n) σ.dep.lastmap) (sync : Bool) :
    ∃ fc dirtyblkhd cleanblkhd, zeroTail pmp clu σ bn sync =
        some { σ with
          dep := { σ.dep with lastmap := fc }
          dirtyblkhd := dirtyblkhd
          cleanblkhd := cleanblkhd } ∧
      (Cached (cs.take n) fc ∧ Cached cs fc) ∧
      (dirtyblkhd = otherBufs bn σ.dirtyblkhd ∨
        ∃ blkno, dirtyblkhd = ⟨bn, blkno⟩ :: otherBufs bn σ.dirtyblkhd) := by
  obtain ⟨blkno, fc, read, both⟩ := breadFile_spec clu mounted small file short kept cached
  unfold zeroTail
  rw [read]
  cases sync with
  | false => exact ⟨fc, _, _, rfl, both, .inr ⟨blkno, rfl⟩⟩
  | true =>
    obtain ⟨blkno', done⟩ := @pcfsStrategy_spec pmp _ cs ⟨bn, blkno⟩ clu mounted small
      (file.remapped both.2) fun _ => short
    refine ⟨remember cs fc ⟨bn, blkno⟩, otherBufs bn σ.dirtyblkhd,
      ⟨bn, blkno'⟩ :: otherBufs bn σ.cleanblkhd, ?_,
      @remember_kept cs ⟨bn, blkno⟩ fc n both short kept, .inl rfl⟩
    dsimp only at done ⊢
    rw [if_pos rfl, done]
    rfl

theorem mem_unmapped_other {bn : Nat} (member : bp ∈ unmapped (otherBufs bn bufs)) :
    bp ∈ unmapped bufs := by
  obtain ⟨others, mapped⟩ := List.mem_filter.mp member
  exact List.mem_filter.mpr ⟨(List.mem_filter.mp others).1, mapped⟩

theorem unmapped_cons {bn blkno : Nat} (member : bp ∈ unmapped (⟨bn, blkno⟩ :: bufs)) :
    bp.lblkno = bn ∨ bp ∈ unmapped bufs := by
  obtain ⟨here, mapped⟩ := List.mem_filter.mp member
  rcases List.mem_cons.mp here with rfl | later
  · exact .inl rfl
  · exact .inr (List.mem_filter.mpr ⟨later, mapped⟩)

theorem last_unmapped_cons {bn blkno : Nat}
    (last : ∀ bp, (unmapped bufs).getLast? = some bp → bp.lblkno ≤ bn)
    (ends : (unmapped (⟨bn, blkno⟩ :: bufs)).getLast? = some bp) : bp.lblkno ≤ bn := by
  rw [unmapped, List.filter_cons] at ends
  split at ends
  · rw [List.getLast?_cons] at ends
    cases behind : (bufs.filter fun bp => bp.blkno = bp.lblkno).getLast? with
    | none =>
      rw [behind] at ends
      exact (congrArg FileBuf.lblkno (Option.some.inj ends)).symm.le
    | some b =>
      rw [behind] at ends
      exact last bp (behind.trans ends)
  · exact last bp ends

/-- The buffers are gone when `detrunc` comes to the chain, and what is in the cache is of the
part of the file that stays. -/
theorem settle_spec (mounted : pmp.Mounted) (small : pmp.maxcluster < 0x10000)
    (file : IsFile pmp σ cs) (some : 0 < length) (short : (length - 1) >>> clu.cnshift < cs.length)
    (cached : Cached (cs.take ((length - 1) >>> clu.cnshift + 1)) σ.dep.lastmap)
    (inside : ∀ bp ∈ unmapped σ.dirtyblkhd, bp.lblkno < cs.length)
    (last : ∀ bp, (unmapped (if length &&& clu.crbomask ≠ 0 then
        otherBufs ((length - 1) >>> clu.cnshift) σ.dirtyblkhd else σ.dirtyblkhd)).getLast? =
          Option.some bp → bp.lblkno ≤ (length - 1) >>> clu.cnshift) (sync : Bool) :
    ∃ fc, settle pmp clu σ length sync = Option.some ⟨σ.vol, { σ.dep with lastmap := fc },
        length, [], []⟩ ∧
      Cached (cs.take ((length - 1) >>> clu.cnshift + 1)) fc := by
  unfold settle
  generalize (length - 1) >>> clu.cnshift = bn at *
  have written (σ : Sys) (file : IsFile pmp σ cs) (cached : Cached (cs.take (bn + 1)) σ.dep.lastmap)
      (inside : ∀ bp ∈ unmapped σ.dirtyblkhd, bp.lblkno < cs.length)
      (last : ∀ bp, (unmapped σ.dirtyblkhd).getLast? = Option.some bp → bp.lblkno ≤ bn) :
      ∃ fc, vinvalbuf pmp clu { σ with fileSize := length } (0 < length) =
          Option.some ⟨σ.vol, { σ.dep with lastmap := fc }, length, [], []⟩ ∧
        Cached (cs.take (bn + 1)) fc := by
    have sent := flush_spec clu mounted small file inside
    refine ⟨_, ?_, foldl_remember cached inside fun bp ends => Nat.lt_succ_of_le (last bp ends)⟩
    rw [vinvalbuf, decide_eq_true some]
    change (flush pmp clu σ.vol.devvp σ.dirtyblkhd σ.dep).map _ = _
    rw [sent]
    rfl
  split at last
  · rename_i partly
    rw [if_pos partly]
    obtain ⟨fc, dirtyblkhd, cleanblkhd, zeroed, both, which⟩ :=
      zeroTail_spec clu mounted small file short (Nat.lt_succ_self bn) cached sync
    rw [zeroed]
    have others (bp : FileBuf) (member : bp ∈ unmapped (otherBufs bn σ.dirtyblkhd)) :
        bp.lblkno < cs.length := inside bp (mem_unmapped_other member)
    refine written ⟨σ.vol, { σ.dep with lastmap := fc }, σ.fileSize, dirtyblkhd, cleanblkhd⟩
      ((file.remapped both.2).congr rfl rfl) both.1 (fun bp member => ?_) fun bp ends => ?_
    · rcases which with rfl | ⟨blkno, rfl⟩
      · exact others bp member
      · rcases unmapped_cons member with here | other
        · exact here ▸ short
        · exact others bp other
    · rcases which with rfl | ⟨blkno, rfl⟩
      · exact last bp ends
      · exact last_unmapped_cons last ends
  · rename_i whole
    rw [if_neg whole]
    exact written σ file cached inside last

end Buffers

section Entries

variable {pmp : Pcfsmount} {devvp devvp' : Disk} {s : Volume} {σ : Sys}
    {cn v start next fuel error c : Nat}
  {cs front rest rest' : List Nat}

theorem Chain.reend (chain : Chain pmp devvp start (front ++ c :: rest))
    (same : ∀ d ∈ front, contents pmp devvp' d = contents pmp devvp d)
    (reads : contents pmp devvp' c = some (0, some next)) (tail : Chain pmp devvp' next rest')
    (apart : ∀ d ∈ front ++ [c], d ∉ rest') : Chain pmp devvp' start (front ++ c :: rest') := by
  induction front generalizing start with
  | nil =>
    obtain ⟨here, first, last, mark, -, -⟩ := chain
    exact ⟨here, first, last, mark, apart c List.mem_cons_self, next, reads, tail⟩
  | cons d front ih =>
    obtain ⟨here, first, last, mark, once, next', reads', tail'⟩ := chain
    refine ⟨here, first, last, mark, fun member => ?_,
      next', by rw [same d List.mem_cons_self, reads'], ih tail' ?_ ?_⟩
    · rcases List.mem_append.mp member with early | late
      · exact once (List.mem_append_left _ early)
      · rcases List.mem_cons.mp late with rfl | new
        · exact once (List.mem_append_right _ List.mem_cons_self)
        · exact apart d List.mem_cons_self new
    · exact fun e member => same e (List.mem_cons_of_mem _ member)
    · exact fun e member => apart e (List.mem_cons_of_mem _ member)

theorem chain_eofe (small : pmp.maxcluster < 0xfff8) : Chain pmp devvp CLUST_EOFE [] :=
  ⟨by decide, Nat.lt_trans small (by decide)⟩

/-- A chain that is cut behind its entry `k`: what it keeps, and what it loses. -/
theorem Chain.cut {k : Nat} (small : pmp.maxcluster < 0xfff8) (chain : Chain pmp devvp start cs)
    (reached : cs[k]? = some cn) (reads : contents pmp devvp' cn = some (0, some CLUST_EOFE))
    (fits : ∀ m ∈ cs, m ≠ cn → contents pmp devvp' m = contents pmp devvp m) :
    Chain pmp devvp' start (cs.take (k + 1)) ∧
      (∃ next, contents pmp devvp cn = some (0, some next) ∧ Chain pmp devvp' next
        (cs.drop (k + 1))) ∧
      ∀ d ∈ cs.take (k + 1), d ∉ cs.drop (k + 1) := by
  obtain ⟨inside, here⟩ := List.getElem?_eq_some_iff.mp reached
  have parts : cs = cs.take k ++ cn :: cs.drop (k + 1) := by
    rw [← here, ← List.drop_eq_getElem_cons inside, List.take_append_drop]
  have upTo : cs.take (k + 1) = cs.take k ++ [cn] := by
    rw [List.take_add_one, reached]
    rfl
  have nodup := chain.nodup
  rw [parts] at nodup
  obtain ⟨-, -, apart⟩ := List.nodup_append.mp nodup
  obtain ⟨-, -, -, -, once, next, oldReads, tail⟩ : Chain pmp devvp cn (cn :: cs.drop (k + 1)) := by
    have from' := chain.drop reached
    rw [List.drop_eq_getElem_cons inside, here] at from'
    exact from'
  refine ⟨?_, ⟨next, oldReads, tail.congr fun d late => ?_⟩, fun d early late => ?_⟩
  · rw [upTo]
    rw [parts] at chain
    refine chain.reend (fun d early => ?_) reads (chain_eofe small) fun d _ none => by cases none
    exact fits d (List.mem_of_mem_take early) (apart d early cn List.mem_cons_self)
  · exact fits d (List.mem_of_mem_drop late) fun same => once (same ▸ late)
  · rw [upTo] at early
    rcases List.mem_append.mp early with before | new
    · exact apart d before d (List.mem_cons_of_mem _ late) rfl
    · rw [List.mem_singleton.mp new] at late
      exact once late

end Entries

section Calls

variable {pmp : Pcfsmount} {devvp devvp' : Disk} {σ τ : Sys} {cs front rest : List Nat}
    {c cn k length : Nat}
  {clu : Clusters} {sync : Bool} {fc : Fatcache}

end Calls

section Runs

variable {pmp : Pcfsmount} {σ τ : Sys} {cs : List Nat} {clu : Clusters}

end Runs

end FreeBsd.Pcfs
