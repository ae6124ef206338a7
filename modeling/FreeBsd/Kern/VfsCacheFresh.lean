import Mathlib.Tactic.Ring
import FreeBsd.Kern.VfsCacheLinks

/-! What a lookup in the name cache answers is what was last entered and not ended since. -/
namespace FreeBsd.Kern.VfsCache

open FreeBsd.Lib

section History

def Call.isPurge : Call → Bool
  | .purge _ => true
  | _ => false

/-- The call ends what was entered for the name `n` in the directory `d`, which was `vp`. -/
def Ends (d : Vnode) (n : Name) (vp : Option Vnode) : Call → Prop
  | .enter ndp _ => ndp.niDvp = d ∧ ndp.niPtr = n
  | .lookup ndp =>
    ndp.niDvp = d ∧ ndp.niPtr = n ∧ (ndp.niMakeentry = 0 ∨ vp = none ∧
      ndp.niNameiop &&& OPMASK = CREATE)
  | .purge v => v = d ∨ vp = some v
  | .purgevfs mp vMount => vMount d = mp

/-- The last call that entered the name in the directory bound it to `vp`, or to no vnode, and
nothing has ended that since. -/
def Fresh (calls : List Call) (d : Vnode) (n : Name) (vp : Option Vnode) : Prop :=
  ∃ earlier ndp fits later, calls = earlier ++ .enter ndp fits :: later ∧
    ndp.niDvp = d ∧ ndp.niPtr = n ∧ ndp.niVp = vp ∧ ∀ call ∈ later, ¬ Ends d n vp call

theorem Fresh.later {calls : List Call} {d : Vnode} {n : Name} {vp : Option Vnode} {call : Call}
    (fresh : Fresh calls d n vp) (kept : ¬ Ends d n vp call) : Fresh (calls ++ [call]) d n vp := by
  obtain ⟨earlier, ndp, fits, later, rfl, dir, name, bound, alive⟩ := fresh
  refine ⟨earlier, ndp, fits, later ++ [call], ?_, dir, name, bound, fun c member => ?_⟩
  · rw [List.append_assoc, List.cons_append]
  · rcases List.mem_append.mp member with old | new
    · exact alive c old
    · rw [List.mem_singleton.mp new]
      exact kept

/-- The call before is a lookup of the same directory, name and hash that returned 0 and still
wants an entry to be made. -/
def Preceded (start : Cache) (before : List Call) (ndp : Nameidata) : Prop :=
  ∃ front asked left s s', before = front ++ [.lookup asked] ∧ replay step start front = some s ∧
    cacheLookup s asked = some (0, left, s') ∧ left.niMakeentry ≠ 0 ∧
    asked.niDvp = ndp.niDvp ∧ asked.niPtr = ndp.niPtr ∧ asked.niHash = ndp.niHash

/-- How the callers use the cache. `ni_hash` is computed from the name. -/
structure Disciplined (hash : Name → BitVec 32) (start : Cache) (calls : List Call) : Prop where
  hashes : ∀ ndp, .lookup ndp ∈ calls → ndp.niHash = hash ndp.niPtr
  entered : ∀ before ndp fits after, calls = before ++ .enter ndp fits :: after →
    Preceded start before ndp
  purges : calls.countP Call.isPurge < 2 ^ 32

theorem Disciplined.front {hash : Name → BitVec 32} {start : Cache} {calls more : List Call}
    (disciplined : Disciplined hash start (calls ++ more)) : Disciplined hash start calls where
  hashes ndp member := disciplined.hashes ndp (List.mem_append_left _ member)
  entered before ndp fits after split :=
    disciplined.entered before ndp fits (after ++ more)
      (by rw [split, List.append_assoc, List.cons_append])
  purges := by
    have fewer := disciplined.purges
    rw [List.countP_append] at fewer
    omega

end History

section Coherence

variable {hash : Name → BitVec 32} {calls : List Call} {s s' : Cache}
    {chains chains' : Nat → List Nat}
  {order : List Nat} {i j h g : Nat} {d : Vnode} {ndp : Nameidata} {call : Call}

/-- The entry is one of the directory `d`, which has not been purged since. -/
def DirValid (s : Cache) (i : Nat) (d : Vnode) : Prop :=
  (s.cache i).ncDvp = some d ∧ (s.cache i).ncDvpid = s.vId d

def Valid (s : Cache) (i : Nat) : Prop :=
  (s.cache i).ncVp = none ∨ ∃ vp, (s.cache i).ncVp = some vp ∧ (s.cache i).ncVpid = s.vId vp

structure Coherent (hash : Name → BitVec 32) (calls : List Call) (s : Cache)
    (chains : Nat → List Nat) : Prop where
  active : ∀ h, ∀ i ∈ chains h, s.doingcache = true
  short : ∀ h, ∀ i ∈ chains h, (s.cache i).ncName.length ≤ NCHNAMLEN
  place : ∀ h d, ∀ i ∈ chains h, DirValid s i d → h = s.bucketOf (hash (s.cache i).ncName)
  unique : ∀ h g d, ∀ i ∈ chains h, ∀ j ∈ chains g, DirValid s i d → DirValid s j d →
    (s.cache i).ncName = (s.cache j).ncName → i = j
  fresh : ∀ h d, ∀ i ∈ chains h, DirValid s i d → Valid s i →
    Fresh calls d (s.cache i).ncName (s.cache i).ncVp
  count : s.nextvnodeid.toNat = calls.countP Call.isPurge
  ids : ∀ v, (s.vId v).toNat ≤ s.nextvnodeid.toNat
  entryIds : ∀ h, ∀ i ∈ chains h, (s.cache i).ncDvpid.toNat ≤ s.nextvnodeid.toNat ∧
    (s.cache i).ncVpid.toNat ≤ s.nextvnodeid.toNat

def Absent (s : Cache) (chains : Nat → List Nat) (d : Vnode) (n : Name) : Prop :=
  ∀ h, ∀ i ∈ chains h, DirValid s i d → (s.cache i).ncName ≠ n

theorem Fewer.vId (fewer : Fewer s chains s' chains') : s'.vId = s.vId := by rw [fewer.same]

theorem Fewer.dirValid (fewer : Fewer s chains s' chains') (member : i ∈ chains' h) :
    DirValid s' i d ↔ DirValid s i d := by
  rw [DirValid, DirValid, fewer.vId, (fewer.kept h i member).2]

theorem Fewer.valid (fewer : Fewer s chains s' chains') (member : i ∈ chains' h) :
    Valid s' i ↔ Valid s i := by
  rw [Valid, Valid, fewer.vId, (fewer.kept h i member).2]

/-- A call that only takes entries off the hash chains, among them those it ends. -/
theorem Coherent.fewer (coherent : Coherent hash calls s chains) (fewer : Fewer s chains s' chains')
    (other : call.isPurge = false)
    (alive : ∀ h d, ∀ i ∈ chains' h, DirValid s i d →
      ¬ Ends d (s.cache i).ncName (s.cache i).ncVp call) :
    Coherent hash (calls ++ [call]) s' chains' where
  active h i member := by
    rw [fewer.same]
    exact coherent.active h i (fewer.kept h i member).1
  short h i member := by
    obtain ⟨old, same⟩ := fewer.kept h i member
    rw [same]
    exact coherent.short h i old
  place h d i member valid := by
    obtain ⟨old, same⟩ := fewer.kept h i member
    have place := coherent.place h d i old ((fewer.dirValid member).mp valid)
    rw [same, fewer.same]
    exact place
  unique h g d i member j member' valid valid' name := by
    obtain ⟨old, same⟩ := fewer.kept h i member
    obtain ⟨old', same'⟩ := fewer.kept g j member'
    rw [same, same'] at name
    exact coherent.unique h g d i old j old' ((fewer.dirValid member).mp valid)
      ((fewer.dirValid member').mp valid') name
  fresh h d i member dirValid valid := by
    obtain ⟨old, same⟩ := fewer.kept h i member
    have dirValid := (fewer.dirValid member).mp dirValid
    rw [same]
    exact (coherent.fresh h d i old dirValid ((fewer.valid member).mp valid)).later
      (alive h d i member dirValid)
  count := by
    rw [fewer.same, List.countP_append, List.countP_singleton, other]
    exact coherent.count
  ids v := by
    rw [fewer.same]
    exact coherent.ids v
  entryIds h i member := by
    obtain ⟨old, same⟩ := fewer.kept h i member
    rw [same, fewer.same]
    exact coherent.entryIds h i old

theorem isEntry_iff (s : Cache) (ndp : Nameidata) (i : Nat) :
    s.isEntry ndp i = true ↔ DirValid s i ndp.niDvp ∧ (s.cache i).ncName = ndp.niPtr := by
  simp [Cache.isEntry, DirValid, and_assoc]

theorem Coherent.on_chain (coherent : Coherent hash calls s chains)
    (hashed : ndp.niHash = hash ndp.niPtr) (member : i ∈ chains h)
    (entry : s.isEntry ndp i = true) : i ∈ chains (s.bucketOf ndp.niHash) := by
  obtain ⟨valid, name⟩ := (isEntry_iff s ndp i).mp entry
  have place := coherent.place h ndp.niDvp i member valid
  rw [name, ← hashed] at place
  exact place ▸ member

theorem Coherent.searched (coherent : Coherent hash calls s chains) (member : i ∈ chains h)
    (entry : s.isEntry ndp i = true) : Searched s ndp := by
  obtain ⟨-, name⟩ := (isEntry_iff s ndp i).mp entry
  exact ⟨coherent.active h i member, name ▸ coherent.short h i member⟩

structure Looked (hash : Name → BitVec 32) (calls : List Call) (ndp : Nameidata) (ret : Int)
    (left : Nameidata) (s' : Cache) (chains' : Nat → List Nat) : Prop where
  coherent : Coherent hash (calls ++ [.lookup ndp]) s' chains'
  absent : ret = 0 → left.niMakeentry ≠ 0 → Absent s' chains' ndp.niDvp ndp.niPtr
  vnode : ret = -1 → ∃ vp, left.niVp = some vp ∧ Fresh calls ndp.niDvp ndp.niPtr (some vp)
  noent : ret = ENOENT → Fresh calls ndp.niDvp ndp.niPtr none

theorem ends_lookup {n : Name} {vp : Option Vnode} (ends : Ends d n vp (.lookup ndp))
    (valid : DirValid s i d) (name : (s.cache i).ncName = n) : s.isEntry ndp i = true := by
  obtain ⟨rfl, rfl, -⟩ := ends
  exact (isEntry_iff s ndp i).mpr ⟨valid, name⟩

theorem Coherent.unsearched (coherent : Coherent hash calls s chains) (off : ¬ Searched s ndp)
    (makeentry : BitVec 8) (cleared : s.doingcache = true → makeentry = 0) :
    Looked hash calls ndp 0 { ndp with niMakeentry := makeentry } s chains where
  coherent :=
    coherent.fewer ⟨rfl, fun h i member => ⟨member, rfl⟩⟩ rfl fun h d i member valid ends =>
    off (coherent.searched member (ends_lookup ends valid rfl))
  absent _ set h i member _ _ := set (cleared (coherent.active h i member))
  vnode wrong := by cases wrong
  noent wrong := by cases wrong

theorem Coherent.miss (coherent : Coherent hash calls s chains)
    (hashed : ndp.niHash = hash ndp.niPtr)
    (missing : (chains (s.bucketOf ndp.niHash)).find? (s.isEntry ndp) = none) :
    Looked hash calls ndp 0 ndp s chains where
  coherent :=
    coherent.fewer ⟨rfl, fun h i member => ⟨member, rfl⟩⟩ rfl fun h d i member valid ends => by
    have entry := ends_lookup ends valid rfl
    exact List.find?_eq_none.mp missing i (coherent.on_chain hashed member entry) entry
  absent _ _ h i member valid name := by
    have entry := (isEntry_iff s ndp i).mpr ⟨valid, name⟩
    exact List.find?_eq_none.mp missing i (coherent.on_chain hashed member entry) entry
  vnode wrong := by cases wrong
  noent wrong := by cases wrong

theorem Coherent.found_unique {k : Nat} (coherent : Coherent hash calls s chains)
    (found : (chains (s.bucketOf ndp.niHash)).find? (s.isEntry ndp) = some k)
    (member : i ∈ chains h) (entry : s.isEntry ndp i = true) : i = k := by
  obtain ⟨valid, name⟩ := (isEntry_iff s ndp i).mp entry
  obtain ⟨valid', name'⟩ := (isEntry_iff s ndp k).mp (List.find?_some found)
  exact coherent.unique h _ ndp.niDvp i member k (List.mem_of_find?_eq_some found) valid valid'
    (name.trans name'.symm)

theorem Coherent.dropped {k : Nat} (coherent : Coherent hash calls s chains)
    (found : (chains (s.bucketOf ndp.niHash)).find? (s.isEntry ndp) = some k) (lru : Tailq Nat)
    (links : Links) :
    Looked hash calls ndp 0 ndp { s with lru, hash := links } (without chains k) where
  coherent := coherent.fewer ⟨rfl, fun h i member => ⟨(mem_without.mp member).1, rfl⟩⟩ rfl
    fun h d i member valid ends => by
      obtain ⟨old, other⟩ := mem_without.mp member
      exact other (coherent.found_unique found old (ends_lookup ends valid rfl))
  absent _ _ h i member valid name := by
    obtain ⟨old, other⟩ := mem_without.mp member
    exact other (coherent.found_unique found old ((isEntry_iff s ndp i).mpr ⟨valid, name⟩))
  vnode wrong := by cases wrong
  noent wrong := by cases wrong

theorem Coherent.hit {k : Nat} (coherent : Coherent hash calls s chains)
    (found : (chains (s.bucketOf ndp.niHash)).find? (s.isEntry ndp) = some k)
    (kept : ¬ Dropped s ndp k) (lru : Tailq Nat) :
      Coherent hash (calls ++ [.lookup ndp]) { s with lru } chains := by
  refine coherent.fewer ⟨rfl, fun h i member => ⟨member, rfl⟩⟩ rfl fun h d i member valid ends => ?_
  obtain rfl := coherent.found_unique found member (ends_lookup ends valid rfl)
  obtain ⟨-, -, clear | ⟨negative, create⟩⟩ := ends
  · exact kept (.inl clear)
  · refine kept (.inr ?_)
    rw [negative]
    exact create

theorem Coherent.answer {k : Nat} (coherent : Coherent hash calls s chains)
    (found : (chains (s.bucketOf ndp.niHash)).find? (s.isEntry ndp) = some k) (valid : Valid s k) :
    Fresh calls ndp.niDvp ndp.niPtr (s.cache k).ncVp := by
  obtain ⟨dirValid, name⟩ := (isEntry_iff s ndp k).mp (List.find?_some found)
  have fresh := coherent.fresh _ ndp.niDvp k (List.mem_of_find?_eq_some found) dirValid valid
  rw [name] at fresh
  exact fresh

theorem Coherent.lookup {ret : Int} {left : Nameidata} (coherent : Coherent hash calls s chains)
    (linked : Linked s order chains) (hashed : ndp.niHash = hash ndp.niPtr)
    (answered : cacheLookup s ndp = some (ret, left, s')) :
    ∃ order' chains', Linked s' order' chains' ∧ Looked hash calls ndp ret left s' chains' := by
  by_cases searched : Searched s ndp
  · cases found : (chains (s.bucketOf ndp.niHash)).find? (s.isEntry ndp) with
    | none =>
      rw [cacheLookup_miss linked searched found] at answered
      cases answered
      exact ⟨order, chains, linked, coherent.miss hashed found⟩
    | some k =>
      have member := linked.mem_order (List.mem_of_find?_eq_some found)
      by_cases dropped : Dropped s ndp k
      · rw [cacheLookup_dropped linked searched found dropped] at answered
        by_cases only : order = [k]
        · subst only
          rw [drop_none linked] at answered
          cases answered
        · obtain ⟨lru, links, gone, linked'⟩ := drop_spec linked member only
          rw [gone] at answered
          cases answered
          exact ⟨_, _, linked', coherent.dropped found lru links⟩
      · obtain ⟨lru, order', moved, linked'⟩ := touch_spec linked member
        have stays := coherent.hit found dropped lru
        obtain ⟨-, ⟨negative, hit⟩ | ⟨vp, bound, valid, hit⟩⟩ :=
          cacheLookup_hit linked searched found dropped
        · rw [hit, moved] at answered
          cases answered
          have fresh := coherent.answer found (.inl negative)
          rw [negative] at fresh
          exact ⟨order', chains, linked', stays, fun wrong => absurd wrong (by decide),
            fun wrong => absurd wrong (by decide), fun _ => fresh⟩
        · rw [hit, moved] at answered
          cases answered
          have fresh := coherent.answer found (.inr ⟨vp, bound, valid⟩)
          rw [bound] at fresh
          exact ⟨order', chains, linked', stays, fun wrong => absurd wrong (by decide),
            fun _ => ⟨vp, rfl, fresh⟩, fun wrong => absurd wrong (by decide)⟩
  · obtain ⟨makeentry, same, cleared⟩ := cacheLookup_unsearched searched
    rw [same] at answered
    cases answered
    exact ⟨order, chains, linked, coherent.unsearched searched makeentry cleared⟩

theorem entered_cases (member : j ∈ entered s chains ndp i h) :
    j = i ∧ h = s.bucketOf ndp.niHash ∨ j ∈ chains h ∧ j ≠ i := by
  unfold entered at member
  by_cases here : h = s.bucketOf ndp.niHash
  · subst here
    rw [Function.update_self] at member
    rcases List.mem_cons.mp member with rfl | old
    · exact .inl ⟨rfl, rfl⟩
    · exact .inr (mem_without.mp old)
  · rw [Function.update_of_ne here] at member
    exact .inr (mem_without.mp member)

theorem Coherent.enter {fits : ndp.niPtr.length ≤ NCHNAMLEN}
    (coherent : Coherent hash calls s chains) (on : s.doingcache = true)
    (hashed : ndp.niHash = hash ndp.niPtr) (absent : Absent s chains ndp.niDvp ndp.niPtr)
    (i numcache : Nat) (lru : Tailq Nat) (links : Links) :
    Coherent hash (calls ++ [.enter ndp fits])
      { s with numcache, cache := Function.update s.cache i (s.slotFor ndp), lru, hash := links }
      (entered s chains ndp i) := by
  -- an entry other than `i` is as it was, and not for this name
  have old {j h : Nat} {d : Vnode} (member : j ∈ chains h) (other : j ≠ i) :
      Function.update s.cache i (s.slotFor ndp) j = s.cache j ∧
        (DirValid { s with numcache, cache := Function.update s.cache i (s.slotFor ndp), lru,
                           hash := links } j d →
          DirValid s j d ∧ ¬ (ndp.niDvp = d ∧ ndp.niPtr = (s.cache j).ncName)) := by
    have same : Function.update s.cache i (s.slotFor ndp) j = s.cache j :=
      Function.update_of_ne other _ _
    refine ⟨same, fun valid => ?_⟩
    simp only [DirValid, same] at valid
    refine ⟨valid, ?_⟩
    rintro ⟨rfl, name⟩
    exact absent h j member valid name.symm
  have new : Function.update s.cache i (s.slotFor ndp) i = s.slotFor ndp :=
    Function.update_self _ _ _
  constructor
  case active => exact fun _ _ _ => on
  case short =>
    intro h j member
    rcases entered_cases member with ⟨rfl, -⟩ | ⟨member, other⟩
    · simp only [new]
      exact fits
    · simp only [(old (d := 0) member other).1]
      exact coherent.short h j member
  case place =>
    intro h d j member valid
    rcases entered_cases member with ⟨rfl, here⟩ | ⟨member, other⟩
    · simp only [new]
      rw [here, hashed]
      rfl
    · obtain ⟨same, still⟩ := @old j h d member other
      simp only [same]
      exact coherent.place h d j member (still valid).1
  case unique =>
    intro h g d j member k member' valid valid' name
    rcases entered_cases member with ⟨rfl, -⟩ | ⟨member, other⟩
    · rcases entered_cases member' with ⟨rfl, -⟩ | ⟨member', other'⟩
      · rfl
      · obtain ⟨same, still⟩ := @old k g d member' other'
        have dir : some ndp.niDvp = some d := by
          have first := valid.1
          simp only [new] at first
          exact first
        simp only [new, same] at name
        exact absurd ⟨Option.some.inj dir, name⟩ (still valid').2
    · obtain ⟨same, still⟩ := @old j h d member other
      rcases entered_cases member' with ⟨rfl, -⟩ | ⟨member', other'⟩
      · have dir : some ndp.niDvp = some d := by
          have first := valid'.1
          simp only [new] at first
          exact first
        simp only [new, same] at name
        exact absurd ⟨Option.some.inj dir, name.symm⟩ (still valid).2
      · obtain ⟨same', still'⟩ := @old k g d member' other'
        simp only [same, same'] at name
        exact coherent.unique h g d j member k member' (still valid).1 (still' valid').1 name
  case fresh =>
    intro h d j member dirValid valid
    rcases entered_cases member with ⟨rfl, -⟩ | ⟨member, other⟩
    · have dir : some ndp.niDvp = some d := by
        have first := dirValid.1
        simp only [new] at first
        exact first
      simp only [new]
      exact ⟨calls, ndp, fits, [], rfl, Option.some.inj dir, rfl, rfl,
        fun _ wrong => absurd wrong List.not_mem_nil⟩
    · obtain ⟨same, still⟩ := @old j h d member other
      simp only [Valid, same] at valid ⊢
      obtain ⟨before, apart⟩ := still dirValid
      exact (coherent.fresh h d j member before valid).later apart
  case count =>
    rw [List.countP_append, List.countP_singleton]
    exact coherent.count
  case ids => exact coherent.ids
  case entryIds =>
    intro h j member
    rcases entered_cases member with ⟨rfl, -⟩ | ⟨member, other⟩
    · simp only [new]
      refine ⟨coherent.ids _, ?_⟩
      cases bound : ndp.niVp with
      | none => simp [Cache.slotFor, bound]
      | some vp =>
        simp only [Cache.slotFor, bound]
        exact coherent.ids vp
    · simp only [(old (d := 0) member other).1]
      exact coherent.entryIds h j member

theorem Coherent.next_id (coherent : Coherent hash calls s chains)
    (more : calls.countP Call.isPurge + 1 < 2 ^ 32) :
    (s.nextvnodeid + 1).toNat = s.nextvnodeid.toNat + 1 := by
  rw [← coherent.count] at more
  rw [BitVec.toNat_add]
  exact Nat.mod_eq_of_lt more

theorem Coherent.purge {vp : Vnode} (coherent : Coherent hash calls s chains)
    (more : calls.countP Call.isPurge + 1 < 2 ^ 32) : Coherent hash (calls ++ [.purge vp])
      (renumber s vp) chains := by
  have above := coherent.next_id more
  -- a number that is in use is not the new one
  have stale {v : Vnode} {id : BitVec 32} (used : id.toNat ≤ s.nextvnodeid.toNat)
      (same : id = Function.update s.vId vp (s.nextvnodeid + 1) v) : v ≠ vp ∧ id = s.vId v := by
    by_cases here : v = vp
    · subst here
      rw [Function.update_self] at same
      rw [same, above] at used
      omega
    · rw [Function.update_of_ne here] at same
      exact ⟨here, same⟩
  have valid {h i : Nat} {d : Vnode} (member : i ∈ chains h)
      (valid : DirValid (renumber s vp) i d) :
      d ≠ vp ∧ DirValid s i d := by
    obtain ⟨other, same⟩ := stale (coherent.entryIds h i member).1 valid.2
    exact ⟨other, valid.1, same⟩
  constructor
  case active => exact coherent.active
  case short => exact coherent.short
  case place => exact fun h d i member dirValid =>
    coherent.place h d i member (valid member dirValid).2
  case unique =>
    exact fun h g d i member j member' first second =>
      coherent.unique h g d i member j member' (valid member first).2 (valid member' second).2
  case fresh =>
    intro h d i member dirValid bound
    obtain ⟨other, before⟩ := valid member dirValid
    have unpurged : Valid s i ∧ (s.cache i).ncVp ≠ some vp := by
      rcases bound with negative | ⟨v, here, same⟩
      · refine ⟨.inl negative, fun wrong => ?_⟩
        cases negative.symm.trans wrong
      · obtain ⟨apart, same⟩ := stale (coherent.entryIds h i member).2 same
        exact ⟨.inr ⟨v, here, same⟩, fun wrong => apart (Option.some.inj (here.symm.trans wrong))⟩
    refine (coherent.fresh h d i member before unpurged.1).later ?_
    rintro (same | same)
    · exact other same.symm
    · exact unpurged.2 same
  case count =>
    rw [List.countP_append, List.countP_singleton]
    exact above.trans (congrArg (· + 1) coherent.count)
  case ids =>
    intro v
    change (Function.update s.vId vp (s.nextvnodeid + 1) v).toNat ≤ (s.nextvnodeid + 1).toNat
    by_cases here : v = vp
    · rw [here, Function.update_self]
    · rw [Function.update_of_ne here, above]
      exact (coherent.ids v).trans (Nat.le_succ _)
  case entryIds =>
    intro h i member
    obtain ⟨first, second⟩ := coherent.entryIds h i member
    change _ ≤ (s.nextvnodeid + 1).toNat ∧ _ ≤ (s.nextvnodeid + 1).toNat
    rw [above]
    exact ⟨first.trans (Nat.le_succ _), second.trans (Nat.le_succ _)⟩

end Coherence

section Runs

variable {hash : Name → BitVec 32} {calls : List Call} {s s' : Cache} {doingcache : Bool}
    {desiredvnodes : Nat}

theorem nchinit_coherent (hash : Name → BitVec 32) (doingcache : Bool) (desiredvnodes : Nat) :
    Coherent hash [] (nchinit doingcache desiredvnodes) fun _ => [] where
  active _ _ member := absurd member List.not_mem_nil
  short _ _ member := absurd member List.not_mem_nil
  place _ _ _ member := absurd member List.not_mem_nil
  unique _ _ _ _ member := absurd member List.not_mem_nil
  fresh _ _ _ member := absurd member List.not_mem_nil
  count := rfl
  ids _ := Nat.le_refl _
  entryIds _ _ member := absurd member List.not_mem_nil

/-- What a run leaves, with what its last call, if it was a lookup, says. -/
def Reached (hash : Name → BitVec 32) (start : Cache) (calls : List Call) (s : Cache) : Prop :=
  ∃ order chains, Linked s order chains ∧ Coherent hash calls s chains ∧
    ∀ front asked left t t', calls = front ++ [.lookup asked] → replay step start front = some t →
      cacheLookup t asked = some (0, left, t') → left.niMakeentry ≠ 0 →
        Absent s chains asked.niDvp asked.niPtr

theorem reached_of_replay (disciplined : Disciplined hash (nchinit doingcache desiredvnodes) calls)
    (reached : replay step (nchinit doingcache desiredvnodes) calls = some s) :
    Reached hash (nchinit doingcache desiredvnodes) calls s := by
  induction calls using List.reverseRecOn generalizing s with
  | nil =>
    obtain rfl := Option.some.inj reached
    refine ⟨[], fun _ => [], nchinit_linked .., nchinit_coherent ..,
      fun front asked left t t' wrong => ?_⟩
    simp at wrong
  | append_singleton front call ih =>
    rw [replay_append, Option.bind_eq_some_iff] at reached
    obtain ⟨t, before, last⟩ := reached
    obtain ⟨u, stepped, same⟩ := Option.bind_eq_some_iff.mp last
    obtain rfl := Option.some.inj same
    obtain ⟨order, chains, linked, coherent, watched⟩ := ih disciplined.front before
    have noLookup {P : Prop} (other : ∀ asked, call ≠ .lookup asked) {front' : List Call}
        {asked : Nameidata}
        (split : front ++ [call] = front' ++ [.lookup asked]) : P := by
      obtain ⟨-, same⟩ := List.append_inj' split rfl
      exact absurd (List.singleton_inj.mp same) (other asked)
    cases call with
    | lookup ndp =>
      obtain ⟨⟨ret, left, t'⟩, answered, rfl⟩ := Option.map_eq_some_iff.mp stepped
      have hashed := disciplined.hashes ndp (List.mem_append_right _ List.mem_cons_self)
      obtain ⟨order', chains', linked', looked⟩ := coherent.lookup linked hashed answered
      refine ⟨order', chains', linked', looked.coherent, ?_⟩
      intro front' asked left' s₀ s₁ split earlier again set
      obtain ⟨rfl, same⟩ := List.append_inj' split rfl
      cases List.singleton_inj.mp same
      obtain rfl := Option.some.inj (before.symm.trans earlier)
      rw [answered] at again
      cases again
      exact looked.absent rfl set
    | enter ndp fits =>
      obtain ⟨front', asked, left, s₀, s₁, rfl, earlier, missed, set, dir, name, hash'⟩ :=
        disciplined.entered front ndp fits [] rfl
      have absent := watched front' asked left s₀ s₁ rfl earlier missed set
      rw [dir, name] at absent
      have hashed : ndp.niHash = hash ndp.niPtr := by
        rw [← hash', ← name]
        exact disciplined.hashes asked (by simp)
      rcases cacheEnter_spec linked ndp with ⟨same, empty⟩ | ⟨on, i, lru, links, numcache, order',
        done, linked'⟩
      · have none (h : Nat) (i : Nat) (member : i ∈ chains h) : False := by
          rw [empty (coherent.active h i member) h] at member
          exact List.not_mem_nil member
        obtain rfl := Option.some.inj (same.symm.trans stepped)
        refine ⟨order, chains, linked, ?_,
          fun _ _ _ _ _ split => noLookup (fun _ wrong => by cases wrong) split⟩
        exact coherent.fewer ⟨rfl, fun h i member => ⟨member, rfl⟩⟩ rfl fun h d i member =>
          (none h i member).elim
      · obtain rfl := Option.some.inj (done.symm.trans stepped)
        exact ⟨order', _, linked', coherent.enter on hashed absent i numcache lru links,
          fun _ _ _ _ _ split => noLookup (fun _ wrong => by cases wrong) split⟩
    | purge vp =>
      have more : front.countP Call.isPurge + 1 < 2 ^ 32 := by
        have few := disciplined.purges
        rwa [List.countP_append, List.countP_singleton] at few
      have wraps : (renumber t vp).nextvnodeid ≠ 0 := by
        intro zero
        have next : (t.nextvnodeid + 1).toNat = 0 := congrArg BitVec.toNat zero
        rw [coherent.next_id more] at next
        cases next
      have renumbered : cachePurge t vp = some (renumber t vp) := if_pos wraps
      obtain rfl := Option.some.inj (renumbered.symm.trans stepped)
      exact ⟨order, chains, ⟨linked.lru, linked.exactly, linked.hash⟩, coherent.purge more,
        fun _ _ _ _ _ split => noLookup (fun _ wrong => by cases wrong) split⟩
    | purgevfs mp vMount =>
      rcases cachePurgevfs_cases linked mp vMount with ⟨-, -, stuck⟩ | ⟨-, s', order', chains',
        done, linked', left⟩
      · cases stuck.symm.trans stepped
      · obtain rfl := Option.some.inj (done.symm.trans stepped)
        refine ⟨order', chains', linked', ?_,
          fun _ _ _ _ _ split => noLookup (fun _ wrong => by cases wrong) split⟩
        refine coherent.fewer left.toFewer rfl fun h d i member valid on => ?_
        obtain ⟨-, same⟩ := left.kept h i member
        exact left.gone h i member ⟨d, same ▸ valid.1, on⟩

/-- The answers of the cache are fresh, and no two valid entries are for one name of a directory. -/
theorem name_cache_fresh {ndp left : Nameidata} {ret : Int}
    (disciplined : Disciplined hash (nchinit doingcache desiredvnodes) (calls ++ [.lookup ndp]))
    (reached : replay step (nchinit doingcache desiredvnodes) calls = some s)
    (answered : cacheLookup s ndp = some (ret, left, s')) :
    (ret = -1 → ∃ vp, left.niVp = some vp ∧ Fresh calls ndp.niDvp ndp.niPtr (some vp)) ∧
      (ret = ENOENT → Fresh calls ndp.niDvp ndp.niPtr none) ∧
      ∃ order chains, Linked s order chains ∧ ∀ h g d, ∀ i ∈ chains h, ∀ j ∈ chains g,
        DirValid s i d → DirValid s j d →
        (s.cache i).ncName = (s.cache j).ncName → i = j := by
  obtain ⟨order, chains, linked, coherent, -⟩ := reached_of_replay disciplined.front reached
  have hashed := disciplined.hashes ndp (List.mem_append_right _ List.mem_cons_self)
  obtain ⟨_, _, -, looked⟩ := coherent.lookup linked hashed answered
  exact ⟨looked.vnode, looked.noent, order, chains, linked, coherent.unique⟩

theorem name_cache_fresh_found :
    Fresh [.lookup ⟨0, 1, [97], 97, 1, none⟩, .enter ⟨0, 1, [97], 97, 1, some 2⟩ (by decide)] 1 [97]
      (some 2) := by
  -- the name `a` is missed, entered for vnode 2 and looked up again
  let asked : Nameidata := ⟨0, 1, [97], 97, 1, none⟩
  let found : Nameidata := ⟨0, 1, [97], 97, 1, some 2⟩
  let calls : List Call := [.lookup asked, .enter found (by decide)]
  have runs : ((replay step (nchinit true 100) calls).bind fun s =>
      (cacheLookup s asked).map fun r => (r.1, r.2.1.niVp)) = some (-1, some 2) := by decide
  obtain ⟨s, reached, last⟩ := Option.bind_eq_some_iff.mp runs
  obtain ⟨⟨ret, left, s'⟩, answered, same⟩ := Option.map_eq_some_iff.mp last
  obtain ⟨rfl, bound⟩ := Prod.mk.inj same
  have missed : (cacheLookup (nchinit true 100) asked).map (fun r => (r.1, r.2.1.niMakeentry)) =
      some (0, 1) := by decide
  obtain ⟨⟨zero, kept, s₁⟩, first, same⟩ := Option.map_eq_some_iff.mp missed
  obtain ⟨rfl, set⟩ := Prod.mk.inj same
  have disciplined :
      Disciplined (fun n => n.foldl (fun h c => h + c.setWidth 32) 0) (nchinit true 100)
        (calls ++ [.lookup asked]) := by
    refine ⟨fun ndp member => ?_, fun before ndp fits after split => ?_, by decide⟩
    · have same : ndp = asked := by simpa [calls] using member
      rw [same]
      decide
    · rcases before with _ | ⟨x, _ | ⟨y, _ | ⟨z, before⟩⟩⟩
      · simp [calls] at split
      · simp only [calls, List.cons_append, List.nil_append, List.cons.injEq,
          Call.enter.injEq] at split
        obtain ⟨rfl, rfl, -⟩ := split
        exact ⟨[], asked, kept, _, s₁, rfl, rfl, first, by rw [set]; decide, rfl, rfl, rfl⟩
      · simp [calls] at split
      · simp [calls] at split
  obtain ⟨vp, here, fresh⟩ := (name_cache_fresh disciplined reached answered).1 rfl
  rw [bound] at here
  cases here
  exact fresh

end Runs

end FreeBsd.Kern.VfsCache
