import FreeBsd.Nfs.SrvCache
import Mathlib.Tactic.Common

/-! Whole runs of nfsds: a request that is being done, or whose reply is saved, is not done again.
-/
namespace FreeBsd.Nfs

open FreeBsd.Lib

section Histories

variable {q q' : Request} {i j : Nat} {x : Ends} {h : List Ends}

/-- What ends the time for which an entry stands for a request. -/
def Closes (q : Request) (i : Nat) (x : Ends) : Prop :=
  x = .updated q false ∨ ∃ q', q' ≠ q ∧ x = .doit q' i

/-- A history, the newest first, in which a request has been taken and is not closed. -/
inductive Open (q : Request) (i : Nat) : List Ends → Prop where
  | now {h : List Ends} : Open q i (.doit q i :: h)
  | later {x : Ends} {h : List Ends} : ¬ Closes q i x → Open q i h → Open q i (x :: h)

inductive Exclusive : List Ends → Prop where
  | nil : Exclusive []
  | doit {q : Request} {i : Nat} {h : List Ends} : (∀ j, ¬ Open q j h) → Exclusive h →
    Exclusive (.doit q i :: h)
  | other {x : Ends} {h : List Ends} : (∀ q i, x ≠ .doit q i) → Exclusive h → Exclusive (x :: h)

end Histories

section Invariant

variable {s s' : SrvCache} {h h' : List Ends} {t i j : Nat} {c : Call} {e e' : Nfsrvcache}
    {d : Nfsd} {p : Phase}

def Nfsrvcache.used (e : Nfsrvcache) : Prop := e.state ≠ .unused

def Nfsrvcache.saved (e : Nfsrvcache) : Bool := e.repstatus || e.repmbuf

def Nfsrvcache.busy (e : Nfsrvcache) : Prop := e.state = .inprog ∨ e.saved = true ∨ e.locked = true

def Phase.copies : Phase → Option Nat
  | .replying _ rp | .saving _ rp _ => some rp
  | _ => none

structure Kept (s : SrvCache) (h : List Ends) : Prop where
  heads : s.rhead.length = NFSRCHSZ
  chained : ∀ k i, i ∈ s.chain k ↔ ∃ e, s.nfsrvcache[i]? = some e ∧ e.used ∧
    NFSRCHASH e.call.xid = k
  single : ∀ (i j : Nat) e e', s.nfsrvcache[i]? = some e → s.nfsrvcache[j]? = some e' → e.used →
    e'.used →
    s.asks e.call = s.asks e'.call → i = j
  lru : s.lru ≠ [] ∧ ∀ i ∈ s.lru, i < s.nfsrvcache.length
  copying : ∀ (t : Nat) d i, s.nfsds[t]? = some d → d.phase.copies = some i →
    ∃ e, s.nfsrvcache[i]? = some e ∧ e.locked = true ∧ e.used ∧
      (e.repmbuf = true ∨ ∃ c a, d.phase = .saving c i a)
  lone : ∀ (t u : Nat) d d' i, s.nfsds[t]? = some d → s.nfsds[u]? = some d' →
    d.phase.copies = some i → d'.phase.copies = some i → t = u
  opened : ∀ q i, Open q i h → ∃ e, s.nfsrvcache[i]? = some e ∧ e.used ∧ s.asks e.call = q ∧ e.busy
  calm : s.panicked = false

structure Changed (s s' : SrvCache) (t i : Nat) (e' : Nfsrvcache) (p : Phase) : Prop where
  mtod : s'.mtod = s.mtod
  entries : s'.nfsrvcache = s.nfsrvcache.set i e'
  lru : s'.lru ≠ [] ∧ ∀ j ∈ s'.lru, j ∈ s.lru ∨ j = i
  mine : ∀ d, s'.nfsds[t]? = some d → d.phase = p
  others : ∀ (u : Nat) d, u ≠ t → s'.nfsds[u]? = some d → ∃ b, s.nfsds[u]? = some b ∧
    b.phase = d.phase
  calm : s'.panicked = s.panicked

theorem set_cases {l : List Nfsrvcache} (found : (l.set i e')[j]? = some e) :
    (j = i ∧ e = e') ∨ (j ≠ i ∧ l[j]? = some e) := by
  rw [List.getElem?_set] at found
  split at found
  · rename_i here
    split at found
    · exact .inl ⟨here.symm, (Option.some.inj found).symm⟩
    · cases found
  · rename_i other
    exact .inr ⟨Ne.symm other, found⟩

theorem Kept.change (kept : Kept s h) (there : s.nfsrvcache[i]? = some e)
    (changed : Changed s s' t i e' p) (heads : s'.rhead.length = s.rhead.length)
    (chain : ∀ k j, j ∈ s'.chain k ↔ (j ≠ i ∧ j ∈ s.chain k) ∨
    (j = i ∧ e'.used ∧ NFSRCHASH e'.call.xid = k))
    (alone : e'.used → ∀ (j : Nat) b, j ≠ i → s.nfsrvcache[j]? = some b → b.used →
      s.asks b.call ≠ s.asks e'.call)
    (mine : ∀ j, p.copies = some j → j = i ∧ e'.locked = true ∧ e'.used ∧
      (e'.repmbuf = true ∨ ∃ c a, p = .saving c i a))
    (free : p.copies = none ∧ (e'.used ↔ e.used) ∧ e'.locked = e.locked ∧ e'.repmbuf = e.repmbuf ∨
      ∀ (u : Nat) d, u ≠ t → s.nfsds[u]? = some d → d.phase.copies ≠ some i)
    (opened : ∀ q j, Open q j h' → (j ≠ i ∧ Open q j h) ∨
    (j = i ∧ e'.used ∧ s.asks e'.call = q ∧ e'.busy)) : Kept s' h' := by
  have here : s'.nfsrvcache[i]? = some e' := by
    rw [changed.entries, List.getElem?_set, if_pos rfl,
      if_pos (List.getElem?_eq_some_iff.mp there).1]
  have apart (j : Nat) (other : j ≠ i) : s'.nfsrvcache[j]? = s.nfsrvcache[j]? := by
    rw [changed.entries, List.getElem?_set, if_neg other.symm]
  have asks : s'.asks = s.asks := by
    funext c
    unfold SrvCache.asks
    rw [changed.mtod]
  -- another nfsd copies the entry that has changed only where it is copied on
  have copied (u : Nat) (d : Nfsd) (j : Nat) (other : u ≠ t) (found : s'.nfsds[u]? = some d)
      (copies : d.phase.copies = some j) : ∃ b, s.nfsds[u]? = some b ∧ b.phase = d.phase ∧
        (j = i → (e'.used ↔ e.used) ∧ e'.locked = e.locked ∧ e'.repmbuf = e.repmbuf) := by
    obtain ⟨b, was, same⟩ := changed.others u d other found
    refine ⟨b, was, same, ?_⟩
    rintro rfl
    rcases free with kept | none
    · exact kept.2
    · exact absurd (same ▸ copies) (none u b other was)
  constructor
  · exact heads.trans kept.heads
  · intro k j
    rw [chain]
    by_cases other : j = i
    · subst other
      constructor
      · rintro (⟨wrong, -⟩ | ⟨-, used, hash⟩)
        · exact absurd rfl wrong
        · exact ⟨e', here, used, hash⟩
      · rintro ⟨b, found, used, hash⟩
        obtain rfl := Option.some.inj (here.symm.trans found)
        exact .inr ⟨rfl, used, hash⟩
    · rw [apart j other, ← kept.chained k j]
      simp [other]
  · intro j k b b' first second used used' same
    rw [asks] at same
    rw [changed.entries] at first second
    rcases set_cases first with ⟨rfl, rfl⟩ | ⟨left, old⟩
    · rcases set_cases second with ⟨rfl, rfl⟩ | ⟨right, old⟩
      · rfl
      · exact absurd same.symm (alone used k b' right old used')
    · rcases set_cases second with ⟨rfl, rfl⟩ | ⟨right, old'⟩
      · exact absurd same (alone used' j b left old used)
      · exact kept.single j k b b' old old' used used' same
  · refine ⟨changed.lru.1, fun j member => ?_⟩
    rw [changed.entries, List.length_set]
    rcases changed.lru.2 j member with old | rfl
    · exact kept.lru.2 j old
    · exact (List.getElem?_eq_some_iff.mp there).1
  · intro u d j found copies
    by_cases other : u = t
    · subst other
      rw [changed.mine d found] at copies ⊢
      obtain ⟨rfl, locked, used, how⟩ := mine j copies
      exact ⟨e', here, locked, used, how⟩
    · obtain ⟨b, was, same, still⟩ := copied u d j other found copies
      obtain ⟨a, entry, locked, used, how⟩ := kept.copying u b j was (same ▸ copies)
      rw [same] at how
      by_cases changes : j = i
      · subst changes
        obtain ⟨keeps, lock, mbuf⟩ := still rfl
        obtain rfl := Option.some.inj (there.symm.trans entry)
        exact ⟨e', here, lock.trans locked, keeps.mpr used, how.imp_left mbuf.trans⟩
      · exact ⟨a, (apart j changes).trans entry, locked, used, how⟩
  · intro u v d d' j first second copies copies'
    -- the nfsd that has changed copies an entry that nobody else does
    have once (u : Nat) (d : Nfsd) (found : s'.nfsds[u]? = some d) (copies : d.phase.copies =
        some j) (other : u ≠ t)
        (mark : p.copies = some j) : False := by
      obtain ⟨rfl, -⟩ := mine j mark
      obtain ⟨b, was, same⟩ := changed.others u d other found
      rcases free with ⟨none, -⟩ | none
      · rw [none] at mark
        cases mark
      · exact none u b other was (same ▸ copies)
    by_cases left : u = t
    · by_cases right : v = t
      · exact left.trans right.symm
      · refine (once v d' second copies' right ?_).elim
        rw [← changed.mine d (left ▸ first)]
        exact copies
    · by_cases right : v = t
      · refine (once u d first copies left ?_).elim
        rw [← changed.mine d' (right ▸ second)]
        exact copies'
      · obtain ⟨b, was, same⟩ := changed.others u d left first
        obtain ⟨b', was', same'⟩ := changed.others v d' right second
        exact kept.lone u v b b' j was was' (same ▸ copies) (same' ▸ copies')
  · intro q j ever
    rw [asks]
    rcases opened q j ever with ⟨other, before⟩ | ⟨rfl, used, same, busy⟩
    · obtain ⟨b, entry, rest⟩ := kept.opened q j before
      exact ⟨b, (apart j other).trans entry, rest⟩
    · exact ⟨e', here, used, same, busy⟩
  · exact changed.calm.trans kept.calm

theorem Kept.edit (kept : Kept s h) (there : s.nfsrvcache[i]? = some e)
    (changed : Changed s s' t i e' p) (rhead : s'.rhead = s.rhead) (call : e'.call = e.call)
    (used : e'.used ↔ e.used) (mine : ∀ j, p.copies = some j → j = i ∧ e'.locked = true ∧ e'.used ∧
      (e'.repmbuf = true ∨ ∃ c a, p = .saving c i a))
    (free : p.copies = none ∧ e'.locked = e.locked ∧ e'.repmbuf = e.repmbuf ∨
      ∀ (u : Nat) d, u ≠ t → s.nfsds[u]? = some d → d.phase.copies ≠ some i)
    (opened : ∀ q j, Open q j h' → Open q j h ∧ (j = i → e.busy → e'.busy) ∨
      (j = i ∧ e'.used ∧ s.asks e.call = q ∧ e'.busy)) : Kept s' h' := by
  refine kept.change there changed (congrArg List.length rhead) (fun k j => ?_)
    (fun busy j b other found used' same => ?_) mine ?_ fun q j ever => ?_
  · have same : s'.chain k = s.chain k := by
      unfold SrvCache.chain
      rw [rhead]
    rw [same]
    by_cases here : j = i
    · subst here
      rw [kept.chained, call]
      constructor
      · rintro ⟨b, found, in_use, hash⟩
        obtain rfl := Option.some.inj (there.symm.trans found)
        exact .inr ⟨rfl, used.mpr in_use, hash⟩
      · rintro (⟨wrong, -⟩ | ⟨-, in_use, hash⟩)
        · exact absurd rfl wrong
        · exact ⟨e, there, used.mp in_use, hash⟩
    · simp [here]
  · rw [call] at same
    exact other (kept.single j i b e found there used' (used.mp busy) same)
  · exact free.imp_left fun keeps => ⟨keeps.1, used, keeps.2⟩
  · rcases opened q j ever with ⟨before, keeps⟩ | ⟨here, in_use, same, busy⟩
    · by_cases here : j = i
      · subst here
        obtain ⟨b, found, in_use, same, busy⟩ := kept.opened q j before
        obtain rfl := Option.some.inj (there.symm.trans found)
        exact .inr ⟨rfl, used.mpr in_use, call ▸ same, keeps rfl busy⟩
      · exact .inl ⟨here, before⟩
    · exact .inr ⟨here, in_use, call ▸ same, busy⟩

theorem Kept.uncopied (kept : Kept s h) (there : s.nfsrvcache[i]? = some e)
    (open' : e.locked = false) (u : Nat) (b : Nfsd) (found : s.nfsds[u]? = some b) :
      b.phase.copies ≠ some i := by
  intro copies
  obtain ⟨a, entry, locked, -⟩ := kept.copying u b i found copies
  obtain rfl := Option.some.inj (there.symm.trans entry)
  rw [open'] at locked
  cases locked

theorem goto_others {l : List Nfsd} {b : Nfsd} (other : j ≠ t) (found : (l.set t b)[j]? = some d) :
    l[j]? = some d := by
  rw [List.getElem?_set, if_neg other.symm] at found
  exact found

theorem goto_mine {l : List Nfsd} {b : Nfsd} (found : (l.set t b)[t]? = some d) : d = b := by
  rw [List.getElem?_set, if_pos rfl] at found
  split at found
  · exact (Option.some.inj found).symm
  · cases found

theorem changed_tsleep (lru : s.lru ≠ []) :
    Changed s (s.tsleep t i e p) t i { e with wanted := true } p where
  mtod := rfl
  entries := rfl
  lru := ⟨lru, fun _ => .inl⟩
  mine := fun _ found => congrArg Nfsd.phase (goto_mine found)
  others := fun _ d other found => ⟨d, goto_others other found, rfl⟩
  calm := rfl

theorem changed_put (lru : s.lru ≠ []) : Changed s ((s.put i e').goto t p) t i e' p where
  mtod := rfl
  entries := rfl
  lru := ⟨lru, fun _ => .inl⟩
  mine := fun _ found => congrArg Nfsd.phase (goto_mine found)
  others := fun _ d other found => ⟨d, goto_others other found, rfl⟩
  calm := rfl

theorem changed_unlock (lru : s.lru ≠ []) :
    Changed s ((s.unlock i e').goto t p) t i { e' with locked := false, wanted := false } p where
  mtod := rfl
  entries := rfl
  lru := ⟨lru, fun _ => .inl⟩
  mine := fun _ found => congrArg Nfsd.phase (goto_mine found)
  others := fun j d other found => by
    have found : (s.unlock i e').nfsds[j]? = some d := goto_others other found
    unfold SrvCache.unlock at found
    dsimp only at found
    split at found
    · rw [List.getElem?_map] at found
      obtain ⟨b, was, rfl⟩ := Option.map_eq_some_iff.mp found
      refine ⟨b, was, ?_⟩
      split
      · rfl
      · rfl
    · exact ⟨d, found, rfl⟩
  calm := rfl

theorem Changed.at_head (changed : Changed (s.put_at_head i) s' t i e' p) :
    Changed s s' t i e' p where
  mtod := changed.mtod
  entries := changed.entries
  lru := by
    refine ⟨changed.lru.1, fun j member => ?_⟩
    rcases changed.lru.2 j member with old | here
    · rcases List.mem_cons.mp old with here | old
      · exact .inr here
      · exact .inl (List.mem_filter.mp old).1
    · exact .inr here
  mine := changed.mine
  others := changed.others
  calm := changed.calm

theorem Kept.sleep (kept : Kept s h) (there : s.nfsrvcache[i]? = some e) (none : p.copies = none) :
    Kept (s.tsleep t i e p) h := by
  refine kept.edit there (changed_tsleep kept.lru.1) rfl rfl Iff.rfl (fun j wrong => ?_)
    (.inl ⟨none, rfl, rfl⟩) ?_
  · rw [none] at wrong
    cases wrong
  · exact fun q j ever => .inl ⟨ever, fun _ busy => busy⟩

theorem answers_iff (inet : (s.mtod c.nam).sa_family = AF_INET) :
    e.answers s.mtod c = true ↔ s.asks e.call = s.asks c := by
  unfold Nfsrvcache.answers nfs_netaddr_match SrvCache.asks
  cases same : s.mtod e.call.nam
  cases mine : s.mtod c.nam
  rw [mine] at inet
  dsimp only at inet
  subst inet
  simp only [Bool.and_eq_true, beq_iff_eq, Request.mk.injEq, Sockaddr.mk.injEq]
  constructor
  · rintro ⟨⟨xid, proc⟩, addr⟩
    split at addr
    · cases addr
    · rename_i family
      rw [if_pos trivial, beq_iff_eq] at addr
      exact ⟨⟨(not_not.mp family).symm, addr.symm⟩, xid.symm, proc.symm⟩
  · rintro ⟨⟨family, addr⟩, xid, proc⟩
    rw [if_neg (not_not.mpr family.symm), if_pos trivial]
    exact ⟨⟨xid.symm, proc.symm⟩, beq_iff_eq.mpr addr.symm⟩

theorem inet_of_answers (answers : e.answers s.mtod c = true) :
    (s.mtod c.nam).sa_family = AF_INET := by
  unfold Nfsrvcache.answers nfs_netaddr_match at answers
  have addr := (Bool.and_eq_true_iff.mp answers).2
  split at addr
  · cases addr
  · split at addr
    · rename_i inet
      exact inet
    · cases addr

theorem Kept.lookup_some (kept : Kept s h) (found : s.lookup c = some i) :
    ∃ e, s.nfsrvcache[i]? = some e ∧ e.used ∧ s.asks e.call = s.asks c := by
  obtain ⟨e, there, used, -⟩ := (kept.chained _ i).mp (List.mem_of_find?_eq_some found)
  have answers := List.find?_some found
  rw [there] at answers
  exact ⟨e, there, used, (answers_iff (inet_of_answers answers)).mp answers⟩

theorem Kept.lookup_none (kept : Kept s h) (inet : (s.mtod c.nam).sa_family = AF_INET)
    (none : s.lookup c = none) (i : Nat) (e : Nfsrvcache) (there : s.nfsrvcache[i]? = some e)
    (used : e.used) : s.asks e.call ≠ s.asks c := by
  intro same
  have hash : NFSRCHASH e.call.xid = NFSRCHASH c.xid :=
    congrArg NFSRCHASH (congrArg Request.xid same)
  refine absurd ((answers_iff inet).mpr same) ?_
  have wrong := List.find?_eq_none.mp none i ((kept.chained _ i).mpr ⟨e, there, used, hash⟩)
  rw [there] at wrong
  exact wrong

end Invariant

section Calls

variable {s s' : SrvCache} {h : List Ends} {t i j rp : Nat} {c : Call} {e e' : Nfsrvcache}
    {p : Phase} {q : Request}
  {x : Ends} {now : Int} {waits : Bool} {r : CacheResult}

/-- A call keeps the invariant, and takes a request only where none of its entries is busy. -/
structure Good (s : SrvCache) (h : List Ends) (r : CacheResult) : Prop where
  kept : Kept r.1 (r.2.toList ++ h)
  doit : ∀ q rp, r.2 = some (.doit q rp) → ∀ (i : Nat) e, s.nfsrvcache[i]? = some e → e.used →
    s.asks e.call = q → ¬ e.busy

theorem Open.before (ever : Open q j (x :: h)) (other : ∀ q i, x ≠ .doit q i) :
    ¬ Closes q j x ∧ Open q j h := by
  cases ever with
  | now => exact absurd rfl (other q j)
  | later stays before => exact ⟨stays, before⟩

theorem Open.taken {q' : Request} (ever : Open q' j (.doit q i :: h)) :
    (j = i ∧ q' = q) ∨ (j ≠ i ∧ Open q' j h) := by
  cases ever with
  | now => exact .inl ⟨rfl, rfl⟩
  | later stays before =>
    by_cases here : j = i
    · subst here
      by_contra wrong
      exact stays (.inr ⟨q, fun same => wrong (.inl ⟨rfl, same.symm⟩), rfl⟩)
    · exact .inr ⟨here, before⟩

theorem mem_rhead {l : List (List Nat)} {k k' : Nat} (within : k' < l.length) :
    j ∈ ((l.map (·.filter (· ≠ i))).modify k' (i :: ·)).getD k [] ↔ (j ≠ i ∧ j ∈ l.getD k []) ∨
      (j = i ∧ k' = k) := by
  rw [List.getD_eq_getElem?_getD, List.getD_eq_getElem?_getD, List.getElem?_modify,
    List.getElem?_map]
  by_cases here : k' = k
  · subst here
    rw [List.getElem?_eq_getElem within]
    by_cases same : j = i <;> simp [same]
  · cases found : l[k]? with
    | none => simp [here]
    | some a => simp [here, and_comm]

theorem takeVictim_good (kept : Kept s h) (there : s.nfsrvcache[i]? = some e)
    (fresh : e.locked = false → ∀ (j : Nat) b, s.nfsrvcache[j]? = some b → b.used →
      s.asks b.call = s.asks c →
      j = i ∧ ¬ b.busy) : Good s h (takeVictim s t c i) := by
  unfold takeVictim
  rw [there]
  dsimp only
  cases locked : e.locked with
  | true => exact ⟨kept.sleep there rfl, (by rintro _ _ ⟨⟩)⟩
  | false =>
    have fresh := fresh locked
    rw [if_neg Bool.false_ne_true]
    refine ⟨?_, ?_⟩
    · refine kept.change (p := .serving c) (t := t) (i := i) there ⟨rfl, rfl, ⟨List.cons_ne_nil _ _,
        ?_⟩, ?_, ?_, rfl⟩ ?_ ?_ ?_ ?_ ?_ ?_
      · intro j member
        rcases List.mem_cons.mp member with here | old
        · exact .inr here
        · exact .inl (List.mem_filter.mp old).1
      · exact fun _ found => congrArg Nfsd.phase (goto_mine found)
      · exact fun _ d other found => ⟨d, goto_others other found, rfl⟩
      · simp [SrvCache.goto, SrvCache.insque, SrvCache.put, SrvCache.put_at_head, SrvCache.remque]
      · intro k j
        refine (mem_rhead ?_).trans ?_
        · rw [kept.heads]
          exact Nat.mod_lt _ (by decide)
        · simp [Nfsrvcache.used, SrvCache.chain]
      · intro _ j b other found used same
        exact other (fresh j b found used same).1
      · rintro _ ⟨⟩
      · exact .inr fun u d _ found => kept.uncopied there locked u d found
      · intro q' j ever
        rcases ever.taken with ⟨rfl, rfl⟩ | before
        · exact .inr ⟨rfl, (by rintro ⟨⟩), rfl, .inl rfl⟩
        · exact .inl before
    · rintro q rp taken j b found used rfl
      have same := (Ends.doit.inj (Option.some.inj taken)).1
      exact (fresh j b found used same.symm).2

theorem finishReply_good (kept : Kept s h) (there : s.nfsrvcache[i]? = some e)
    (changed : Changed s s' t i e' .idle) (rhead : s'.rhead = s.rhead)
    (same : e' = { e with timestamp := now, locked := false, wanted := false })
    (busy : e.locked = true → e.repmbuf = true)
      (lone : ∀ (u : Nat) d, u ≠ t → s.nfsds[u]? = some d → d.phase.copies ≠ some i)
    (other : (∀ q i, x ≠ .doit q i)) : Kept s' (x :: h) := by
  subst same
  refine kept.edit there changed rhead rfl Iff.rfl (by rintro _ ⟨⟩) (.inr lone) fun q j ever => ?_
  refine .inl ⟨(ever.before other).2, fun _ was => ?_⟩
  rcases was with inprog | saved | locked
  · exact .inl inprog
  · exact .inr (.inl saved)
  · exact .inr (.inl (Bool.or_eq_true_iff.mpr (.inr (busy locked))))

theorem finishUpdate_good (kept : Kept s h) (there : s.nfsrvcache[i]? = some e) (used : e.used)
    (call : e'.call = e.call) (state : e'.used)
    (lone : ∀ (u : Nat) d, u ≠ t → s.nfsds[u]? = some d → d.phase.copies ≠ some i)
    (own : e'.saved = true ∨ s.asks e.call = s.asks c) : Good s h (finishUpdate s t c i e') := by
  refine ⟨?_, (by rintro _ _ ⟨⟩)⟩
  refine kept.edit there (changed_unlock kept.lru.1) rfl call (iff_of_true state used)
    (by rintro _ ⟨⟩) (.inr lone) fun q j ever => ?_
  obtain ⟨stays, before⟩ := ever.before (by rintro _ _ ⟨⟩)
  refine .inl ⟨before, ?_⟩
  rintro rfl -
  obtain ⟨b, found, -, same, -⟩ := kept.opened q j before
  obtain rfl := Option.some.inj (there.symm.trans found)
  cases saved : e'.saved with
  | true => exact .inr (.inl saved)
  | false =>
    have own := own.resolve_left (by rw [saved]; rintro ⟨⟩)
    refine absurd (.inl ?_) stays
    rw [show (e'.repstatus || e'.repmbuf) = false from saved, ← own, same]

theorem getcache_good (kept : Kept s h) (inet : (s.mtod c.nam).sa_family = AF_INET) :
    Good s h (getcache s t c now waits) := by
  unfold getcache
  cases found : s.lookup c with
  | none =>
    have absent := kept.lookup_none inet found
    obtain ⟨i, last⟩ : ∃ i, s.lru.getLast? = some i := ⟨_, List.getLast?_eq_some_getLast kept.lru.1⟩
    have within := kept.lru.2 i (List.mem_of_getLast? last)
    rw [last]
    refine takeVictim_good kept (List.getElem?_eq_getElem within) fun _ j b entry used same => ?_
    exact absurd same (absent j b entry used)
  | some i =>
    obtain ⟨e, there, used, same⟩ := kept.lookup_some found
    dsimp only
    rw [there]
    dsimp only
    cases locked : e.locked with
    | true => exact ⟨kept.sleep there rfl, (by rintro _ _ ⟨⟩)⟩
    | false =>
      have lone (u : Nat) (d : Nfsd) (_ : u ≠ t) (entry : s.nfsds[u]? = some d) :=
        kept.uncopied there locked u d entry
      have head {e' : Nfsrvcache} {p : Phase} :=
        (@changed_unlock (s.put_at_head i) t i e' p (List.cons_ne_nil _ _)).at_head
      rw [if_neg Bool.false_ne_true, if_neg used]
      split
      · refine ⟨?_, (by rintro _ _ ⟨⟩)⟩
        refine kept.edit there head rfl rfl Iff.rfl (by rintro _ ⟨⟩) (.inr lone) fun q j ever =>
          .inl ⟨(ever.before (by rintro _ _ ⟨⟩)).2, fun _ busy => ?_⟩
        rcases busy with inprog | saved | wrong
        · exact .inl inprog
        · exact .inr (.inl saved)
        · rw [locked] at wrong
          cases wrong
      rename_i idle
      split
      · exact ⟨finishReply_good kept there head rfl rfl (by simp [locked]) lone nofun,
          (by rintro _ _ ⟨⟩)⟩
      rename_i nostatus
      split
      · rename_i mbuf
        split
        · refine ⟨?_, (by rintro _ _ ⟨⟩)⟩
          refine kept.edit there (changed_put (List.cons_ne_nil _ _)).at_head rfl rfl Iff.rfl ?_
            (.inr lone) ?_
          · rintro j copies
            obtain rfl := Option.some.inj copies
            exact ⟨rfl, rfl, used, .inl mbuf⟩
          · exact fun q j ever => .inl ⟨ever, fun _ _ => .inr (.inr rfl)⟩
        · exact ⟨finishReply_good kept there head rfl rfl (by simp [locked]) lone
            (by rintro _ _ ⟨⟩), (by rintro _ _ ⟨⟩)⟩
      · rename_i nombuf
        have quiet : ¬ e.busy := by
          rintro (inprog | saved | wrong)
          · exact idle (.inl inprog)
          · rcases Bool.or_eq_true_iff.mp saved with status | mbuf
            · exact nostatus status
            · exact nombuf mbuf
          · rw [locked] at wrong
            cases wrong
        refine ⟨?_, ?_⟩
        · refine kept.edit there head rfl rfl (iff_of_true (by rintro ⟨⟩ _) used) (by rintro _ ⟨⟩)
            (.inr lone) fun q j ever => ?_
          rcases ever.taken with ⟨rfl, rfl⟩ | ⟨other, before⟩
          · exact .inr ⟨rfl, (by rintro ⟨⟩), same, .inl rfl⟩
          · exact .inl ⟨before, fun here => absurd here other⟩
        · rintro q rp taken j b entry used' rfl
          have asked := (Ends.doit.inj (Option.some.inj taken)).1
          obtain rfl := kept.single j i b e entry there used' used (asked.symm.trans same.symm)
          obtain rfl := Option.some.inj (there.symm.trans entry)
          exact quiet

theorem Kept.leave (kept : Kept s h) (none : p.copies = none) : Kept (s.goto t p) h where
  heads := kept.heads
  chained := kept.chained
  single := kept.single
  lru := kept.lru
  copying := fun u d i found copies => by
    by_cases here : u = t
    · subst here
      obtain rfl := goto_mine found
      rw [none] at copies
      cases copies
    · exact kept.copying u d i (goto_others here found) copies
  lone := fun u v d d' i first second copies copies' => by
    by_cases left : u = t
    · subst left
      obtain rfl := goto_mine first
      rw [none] at copies
      cases copies
    · by_cases right : v = t
      · subst right
        obtain rfl := goto_mine second
        rw [none] at copies'
        cases copies'
      · exact kept.lone u v d d' i (goto_others left first) (goto_others right second) copies
          copies'
  opened := kept.opened
  calm := kept.calm

theorem updatecache_good {a : Update} (kept : Kept s h) :
    Good s h (updatecache s t c now waits a) := by
  unfold updatecache
  cases found : s.lookup c with
  | none => exact ⟨kept.leave rfl, (by rintro _ _ ⟨⟩)⟩
  | some i =>
    obtain ⟨e, there, used, same⟩ := kept.lookup_some found
    dsimp only
    rw [there]
    dsimp only
    cases locked : e.locked with
    | true => exact ⟨kept.sleep there rfl, (by rintro _ _ ⟨⟩)⟩
    | false =>
      have lone (u : Nat) (d : Nfsd) (_ : u ≠ t) (entry : s.nfsds[u]? = some d) :=
        kept.uncopied there locked u d entry
      rw [if_neg Bool.false_ne_true]
      split
      · split
        · split
          · exact finishUpdate_good kept there used rfl (by rintro ⟨⟩) lone (.inr same)
          · split
            · refine ⟨?_, (by rintro _ _ ⟨⟩)⟩
              refine kept.edit there (changed_put kept.lru.1) rfl rfl
                (iff_of_true (by rintro ⟨⟩) used) ?_ (.inr lone) ?_
              · rintro j copies
                obtain rfl := Option.some.inj copies
                exact ⟨rfl, rfl, (by rintro ⟨⟩), .inr ⟨c, a, rfl⟩⟩
              · exact fun q j ever => .inl ⟨ever, fun _ _ => .inr (.inr rfl)⟩
            · exact finishUpdate_good kept there used rfl (by rintro ⟨⟩) lone (.inr same)
        · exact finishUpdate_good kept there used rfl (by rintro ⟨⟩) lone (.inr same)
      · exact finishUpdate_good kept there used rfl (by rintro ⟨⟩) lone (.inr same)

/-- What an nfsd that goes on needs: an Internet address to search for, and no busy entry of the
request it takes its victim for, nor any other entry of it. -/
def CarefulPhase (s : SrvCache) : Phase → Prop
  | .search c => (s.mtod c.nam).sa_family = AF_INET
  | .victim c rp => ∀ e ∈ s.nfsrvcache[rp]?, e.locked = false →
      ∀ (j : Nat) b, s.nfsrvcache[j]? = some b → b.used → s.asks b.call = s.asks c → j = rp ∧
        ¬ b.busy
  | _ => True

theorem resume_good {d : Nfsd} (kept : Kept s h) (mine : s.nfsds[t]? = some d)
    (careful : CarefulPhase s d.phase) :
    Good s h (resume s t now waits d.phase) := by
  unfold resume
  cases phase : d.phase with
  | idle => exact ⟨kept, (by rintro _ _ ⟨⟩)⟩
  | serving c => exact ⟨kept, (by rintro _ _ ⟨⟩)⟩
  | search c =>
    rw [phase] at careful
    exact getcache_good kept careful
  | update c a => exact updatecache_good kept
  | victim c rp =>
    rw [phase] at careful
    dsimp only
    cases there : s.nfsrvcache[rp]? with
    | none =>
      unfold takeVictim
      rw [there]
      exact ⟨kept, (by rintro _ _ ⟨⟩)⟩
    | some e => exact takeVictim_good kept there (careful e there)
  | replying c rp =>
    have copies : d.phase.copies = some rp := by rw [phase]; rfl
    obtain ⟨e, there, locked, used, how⟩ := kept.copying t d rp mine copies
    have mbuf : e.repmbuf = true := by
      refine how.resolve_right ?_
      rw [phase]
      exact nofun
    dsimp only
    rw [there]
    refine ⟨finishReply_good kept there (changed_unlock kept.lru.1) rfl rfl (fun _ => mbuf)
      (fun u b other found copied => ?_) nofun, (by rintro _ _ ⟨⟩)⟩
    exact other (kept.lone u t b d rp found mine copied copies)
  | saving c rp a =>
    have copies : d.phase.copies = some rp := by rw [phase]; rfl
    obtain ⟨e, there, locked, used, -⟩ := kept.copying t d rp mine copies
    dsimp only
    rw [there]
    refine finishUpdate_good kept there used rfl used (fun u b other found copied => ?_) (.inl ?_)
    · exact other (kept.lone u t b d rp found mine copied copies)
    · exact Bool.or_true _

/-- An mbuf that the entries with its address do not need any more gets another one. -/
theorem Kept.write {m : Nat} {saddr : Sockaddr} (kept : Kept s h)
    (done : s.mtod m ≠ saddr → ∀ (i : Nat) e, s.nfsrvcache[i]? = some e → e.used → e.call.nam = m →
      ¬ e.busy ∧ ∀ (j : Nat) b, s.nfsrvcache[j]? = some b →
        b.used → b.call.nam ≠ m → s.asks b.call ≠ ⟨saddr, e.call.xid, e.call.proc⟩) :
    Kept { s with mtod := Function.update s.mtod m saddr } h := by
  by_cases same : s.mtod m = saddr
  · rw [← same, Function.update_eq_self]
    exact kept
  have done := done same
  have asks (c : Call) : SrvCache.asks { s with mtod := Function.update s.mtod m saddr } c =
      if c.nam = m then ⟨saddr, c.xid, c.proc⟩ else s.asks c := by
    unfold SrvCache.asks
    dsimp only
    rw [Function.update_apply]
    split
    · rfl
    · rfl
  refine { kept with single := ?_, opened := ?_, chained := kept.chained }
  · intro i j e e' first second used used' equal
    rw [asks, asks] at equal
    split at equal
    · rename_i here
      split at equal
      · rename_i here'
        obtain ⟨-, xid, proc⟩ := Request.mk.inj equal
        refine kept.single i j e e' first second used used' ?_
        unfold SrvCache.asks
        rw [here, here', xid, proc]
      · rename_i other
        exact absurd equal.symm ((done i e first used here).2 j e' second used' other)
    · rename_i other
      split at equal
      · rename_i here
        exact absurd equal ((done j e' second used' here).2 i e first used other)
      · exact kept.single i j e e' first second used used' equal
  · intro q i ever
    obtain ⟨e, there, used, same, busy⟩ := kept.opened q i ever
    refine ⟨e, there, used, ?_, busy⟩
    rw [asks, if_neg fun here => (done i e there used here).1 busy, same]

end Calls

section Runs

variable {s s' : SrvCache} {h : List Ends} {event : Event × Int × Bool}
    {events : List (Event × Int × Bool)} {n : Nat}
  {r : CacheResult} {mtod : Nat → Sockaddr}

def CarefulEvent (s : SrvCache) : Event × Int × Bool → Prop
  | (.getcache _ c, _) => (s.mtod c.nam).sa_family = AF_INET
  | (.updatecache _ _, _) => True
  | (.resume t, _) => ∀ d ∈ s.nfsds[t]?, CarefulPhase s d.phase
  | (.write m saddr, _) => s.mtod m ≠ saddr → ∀ (i : Nat) e, s.nfsrvcache[i]? = some e → e.used →
    e.call.nam = m →
      ¬ e.busy ∧ ∀ (j : Nat) b, s.nfsrvcache[j]? = some b → b.used → b.call.nam ≠ m →
        s.asks b.call ≠ ⟨saddr, e.call.xid, e.call.proc⟩

def CacheStep (before : SrvCache × List Ends) (event : Event × Int × Bool)
    (after : SrvCache × List Ends) : Prop :=
  ∃ ends, cacheStep before.1 event = some (after.1, ends) ∧ after.2 = ends.toList ++ before.2

def CarefulStep (before : SrvCache × List Ends) (event : Event × Int × Bool)
    (after : SrvCache × List Ends) : Prop :=
  CarefulEvent before.1 event ∧ CacheStep before event after

theorem start_kept : Kept (.start mtod n) [] := by
  have fresh (i : Nat) (e : Nfsrvcache) (found : (SrvCache.start mtod n).nfsrvcache[i]? = some e) :
      ¬ e.used := by
    rw [List.eq_of_mem_replicate (List.mem_of_getElem? found)]
    exact fun wrong => wrong rfl
  have idle (t : Nat) (d : Nfsd) (found : (SrvCache.start mtod n).nfsds[t]? = some d) :
      d = ⟨.idle, none⟩ :=
    List.eq_of_mem_replicate (List.mem_of_getElem? found)
  constructor
  · exact List.length_replicate
  · intro k i
    constructor
    · intro member
      unfold SrvCache.chain at member
      rw [List.getD_eq_getElem?_getD] at member
      cases found : (SrvCache.start mtod n).rhead[k]? with
      | none =>
        rw [found] at member
        cases member
      | some l =>
        rw [found, List.eq_of_mem_replicate (List.mem_of_getElem? found)] at member
        cases member
    · rintro ⟨e, found, used, -⟩
      exact absurd used (fresh i e found)
  · intro i j e e' first _ used
    exact absurd used (fresh i e first)
  · refine ⟨(by rintro ⟨⟩), fun i member => ?_⟩
    have within := List.mem_range.mp (List.mem_reverse.mp member)
    rw [SrvCache.start, List.length_replicate]
    exact within
  · intro t d i found copies
    rw [idle t d found] at copies
    cases copies
  · intro t u d d' i found _ copies
    rw [idle t d found] at copies
    cases copies
  · rintro _ _ ⟨⟩
  · rfl

theorem Kept.good (kept : Kept s h) (careful : CarefulEvent s event)
    (step : cacheStep s event = some r) : Good s h r := by
  obtain ⟨event, now, waits⟩ := event
  cases event with
  | getcache t c =>
    simp only [cacheStep] at step
    split at step
    · cases step
      exact getcache_good kept careful
    · cases step
  | updatecache t a =>
    simp only [cacheStep] at step
    split at step
    · cases step
      exact updatecache_good kept
    · cases step
  | resume t =>
    simp only [cacheStep] at step
    split at step
    · rename_i p found
      cases step
      exact resume_good kept found (careful ⟨p, none⟩ found)
    · cases step
  | write m saddr =>
    simp only [cacheStep] at step
    split at step
    · cases step
    · cases step
      exact ⟨kept.write careful, (by rintro _ _ ⟨⟩)⟩

theorem Good.exclusive (good : Good s h r) (kept : Kept s h) (before : Exclusive h) :
    Exclusive (r.2.toList ++ h) := by
  cases taken : r.2 with
  | none => exact before
  | some x =>
    cases x with
    | doit q i =>
      refine .doit (fun j ever => ?_) before
      obtain ⟨e, there, used, same, busy⟩ := kept.opened q j ever
      exact good.doit q i taken j e there used same busy
    | dropit q => exact .other (by rintro _ _ ⟨⟩) before
    | reply q => exact .other (by rintro _ _ ⟨⟩) before
    | updated q saved => exact .other (by rintro _ _ ⟨⟩) before

def Single (s : SrvCache) : Prop := ∀ (i j : Nat) e e', (∃ k, i ∈ s.chain k) →
    (∃ k, j ∈ s.chain k) →
  s.nfsrvcache[i]? = some e → s.nfsrvcache[j]? = some e' → s.asks e.call = s.asks e'.call → i = j

/-- A request whose reply is saved in an entry on the hash chains is not taken. -/
def Answers (s : SrvCache) (r : CacheResult) : Prop := ∀ q rp, r.2 = some (.doit q rp) →
  ∀ (i : Nat) e, (∃ k, i ∈ s.chain k) → s.nfsrvcache[i]? = some e → s.asks e.call = q →
    e.saved = false

theorem Kept.on_chain {i : Nat} {e : Nfsrvcache} (kept : Kept s h) (chained : ∃ k, i ∈ s.chain k)
    (there : s.nfsrvcache[i]? = some e) : e.used := by
  obtain ⟨k, member⟩ := chained
  obtain ⟨b, found, used, -⟩ := (kept.chained k i).mp member
  obtain rfl := Option.some.inj (there.symm.trans found)
  exact used

/-- No request is done twice at once in a careful run. -/
theorem nfsrv_cache_once (run : Run CarefulStep (.start mtod n, []) events (s, h)) :
    Single s ∧ Exclusive h ∧
    ∀ event r, CarefulEvent s event → cacheStep s event = some r → Answers s r := by
  have steps (a : SrvCache × List Ends) (event : Event × Int × Bool) (b : SrvCache × List Ends)
      (_ : True)
      (before : Kept a.1 a.2 ∧ Exclusive a.2) (step : CarefulStep a event b) :
        Kept b.1 b.2 ∧ Exclusive b.2 := by
    obtain ⟨careful, ends, step, same⟩ := step
    have good := before.1.good careful step
    rw [same]
    exact ⟨good.kept, good.exclusive before.1 before.2⟩
  obtain ⟨kept, exclusive⟩ := run.invariant steps (fun _ _ => trivial) ⟨start_kept, .nil⟩
  refine ⟨fun i j e e' first second there there' same => ?_, exclusive,
    fun event r careful step q rp taken i e chained there same => ?_⟩
  · exact kept.single i j e e' there there' (kept.on_chain first there)
      (kept.on_chain second there') same
  · have quiet := (kept.good careful step).doit q rp taken i e there (kept.on_chain chained there)
      same
    exact Bool.eq_false_iff.mpr fun saved => quiet (.inr (.inl saved))

theorem careful_run {ends : Option Ends} {last : SrvCache × List Ends}
    (careful : CarefulEvent s event) (step : cacheStep s event = some (s', ends))
    (rest : Run CarefulStep (s', ends.toList ++ h) events last) :
    Run CarefulStep (s, h) (event :: events) last :=
  .cons ⟨careful, ends, step, rfl⟩ rest

/-- A request, its retransmission while it is done, and one more when its reply is there. -/
theorem nfsrv_cache_once_retransmitted : ∃ s, Single s ∧ Exclusive [.reply ⟨⟨AF_INET, 1⟩, 7, 9⟩,
    .updated ⟨⟨AF_INET, 1⟩, 7, 9⟩ true, .dropit ⟨⟨AF_INET, 1⟩, 7, 9⟩, .doit ⟨⟨AF_INET, 1⟩, 7,
      9⟩ 0] := by
  have once := @nfsrv_cache_once _ _ [(.getcache 0 ⟨0, 7, 9⟩, 100, false), (.getcache 1 ⟨1, 7, 9⟩,
    100, false), (.updatecache 0 ⟨true, 0, []⟩, 101, false), (.getcache 1 ⟨2, 7, 9⟩, 110, false)] 2
      (fun _ => ⟨AF_INET, 1⟩)
    (careful_run rfl rfl (careful_run (by rfl) rfl (careful_run trivial rfl
      (careful_run (by rfl) rfl (.nil _)))))
  exact ⟨_, once.1, once.2.1⟩

def recordStep (before : SrvCache × List Ends) (event : Event × Int × Bool) :
    Option (SrvCache × List Ends) :=
  (cacheStep before.1 event).map fun r => (r.1, r.2.toList ++ before.2)

theorem recordStep_sound (a : SrvCache × List Ends) (event : Event × Int × Bool)
    (b : SrvCache × List Ends) (step : recordStep a event = some b) : CacheStep a event b := by
  obtain ⟨r, taken, rfl⟩ := Option.map_eq_some_iff.mp step
  exact ⟨r.2, taken, rfl⟩

/-- The first of 128 requests is done while two nfsds wait for its entry, to take it for one and the
same. -/
def lateTaken : List (Event × Int × Bool) :=
  (List.range 128).map (fun t => (.getcache t ⟨t, t, 9⟩, 100, false)) ++
    [(.updatecache 0 ⟨true, 0, []⟩, 101, true), (.getcache 128 ⟨128, 500, 9⟩, 102, true),
      (.getcache 129 ⟨129, 500, 9⟩, 102, true), (.resume 0, 102, true), (.resume 128, 102, true),
      (.resume 129, 102, true)]

theorem nfsrv_cache_twice : ¬ ∀ mtod n events s h, (∀ m, (mtod m).sa_family = AF_INET) →
    (∀ event ∈ events, ∀ m saddr, event.1 ≠ .write m saddr) →
      Run CacheStep (.start mtod n, []) events (s, h) →
      Exclusive h := by
  intro all
  have ran :
      ((replay recordStep (.start (fun _ => ⟨AF_INET, 1⟩) 130, []) lateTaken).map fun a =>
      a.2.take 2) =
      some [.doit ⟨⟨AF_INET, 1⟩, 500, 9⟩ 0, .doit ⟨⟨AF_INET, 1⟩, 500, 9⟩ 0] := by decide +kernel
  obtain ⟨⟨s, h⟩, replayed, taken⟩ := Option.map_eq_some_iff.mp ran
  have unwritten (event : Event × Int × Bool) (member : event ∈ lateTaken) (m : Nat)
      (saddr : Sockaddr) :
      event.1 ≠ .write m saddr := by
    rcases List.mem_append.mp member with first | last
    · obtain ⟨t, -, rfl⟩ := List.mem_map.mp first
      rintro ⟨⟩
    · simp only [List.mem_cons, List.not_mem_nil, or_false] at last
      rcases last with rfl | rfl | rfl | rfl | rfl | rfl <;> rintro ⟨⟩
  have exclusive :=
    all _ _ lateTaken s h (fun _ => rfl) unwritten (replay_run recordStep_sound replayed)
  match h, taken with
  | x :: y :: rest, taken =>
    obtain ⟨rfl, tail⟩ := List.cons.inj taken
    obtain ⟨rfl, -⟩ := List.cons.inj tail
    cases exclusive with
    | doit fresh _ => exact fresh 0 .now
    | other wrong _ => exact wrong _ _ rfl

end Runs

end FreeBsd.Nfs
