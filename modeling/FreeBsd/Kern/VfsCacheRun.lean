import FreeBsd.Kern.VfsCacheLinks

/-! Runs of calls on the name cache, and its structure in every state they reach. -/
namespace FreeBsd.Kern.VfsCache

open FreeBsd.Lib

section Runs

variable {s : Cache} {order : List Nat} {chains : Nat → List Nat} {doingcache : Bool}
    {desiredvnodes : Nat}

def Spared (s : Cache) : Call → Prop
  | .lookup ndp =>
    s.numcache = 1 → Searched s ndp → s.hash.forw (.bucket (s.bucketOf ndp.niHash)) = .entry 0 →
      s.isEntry ndp 0 = true → ¬ Dropped s ndp 0
  | .purgevfs mp vMount => s.numcache = 1 → ¬ OnMount s mp vMount 0
  | _ => True

def Gone (s : Cache) (chains : Nat → List Nat) : Call → Prop
  | .purgevfs mp vMount => ∀ h, ∀ i ∈ chains h, ¬ OnMount s mp vMount i
  | _ => True

def Leaves (s : Cache) (call : Call) : Prop :=
  ∃ s' order chains, step s call = some s' ∧ Linked s' order chains ∧ Gone s' chains call

theorem found_only {ndp : Nameidata} (linked : Linked s [0] chains)
    (entry : s.isEntry ndp 0 = true) :
    s.hash.forw (.bucket (s.bucketOf ndp.niHash)) = .entry 0 ↔
      (chains (s.bucketOf ndp.niHash)).find? (s.isEntry ndp) = some 0 := by
  rw [(linked.hash.chain _ (bucketOf_le s _)).next_head]
  cases here : chains (s.bucketOf ndp.niHash) with
  | nil => simp
  | cons i l =>
    have member : i ∈ chains (s.bucketOf ndp.niHash) := here ▸ List.mem_cons_self
    obtain rfl := List.mem_singleton.mp (linked.mem_order member)
    simp [entry]

theorem lookup_step (linked : Linked s order chains) (ndp : Nameidata) :
    Spared s (.lookup ndp) ∧ Leaves s (.lookup ndp) ∨ ¬ Spared s (.lookup ndp) ∧
      step s (.lookup ndp) = none := by
  by_cases searched : Searched s ndp
  · cases found : (chains (s.bucketOf ndp.niHash)).find? (s.isEntry ndp) with
    | none =>
      refine .inl ⟨fun one _ start entry => ?_, s, order, chains, ?_, linked, trivial⟩
      · obtain rfl := linked.order_of_one one
        have wrong := (found_only linked entry).mp start
        rw [found] at wrong
        cases wrong
      · rw [step, cacheLookup_miss linked searched found]
        rfl
    | some i =>
      have member := linked.mem_order (List.mem_of_find?_eq_some found)
      have entry := List.find?_some found
      by_cases dropped : Dropped s ndp i
      · by_cases only : order = [i]
        · subst only
          obtain ⟨one, rfl⟩ := linked.one_of_order
          have start := (found_only linked entry).mpr found
          refine .inr ⟨fun spared => spared one searched start entry dropped, ?_⟩
          rw [step, cacheLookup_dropped linked searched found dropped, drop_none linked]
          rfl
        · obtain ⟨lru, hash, gone, linked'⟩ := drop_spec linked member only
          refine .inl ⟨fun one => ?_, _, _, _, ?_, linked', trivial⟩
          · obtain rfl := linked.order_of_one one
            obtain rfl := List.mem_singleton.mp member
            exact absurd rfl only
          · rw [step, cacheLookup_dropped linked searched found dropped, gone]
            rfl
      · obtain ⟨lru, order', moved, linked'⟩ := touch_spec linked member
        refine .inl ⟨fun one => ?_, _, _, _, ?_, linked', trivial⟩
        · obtain rfl := linked.order_of_one one
          obtain rfl := List.mem_singleton.mp member
          exact fun _ _ _ => dropped
        · obtain ⟨-, ⟨-, hit⟩ | ⟨vp, -, -, hit⟩⟩ := cacheLookup_hit linked searched found dropped
          · rw [step, hit, moved]
            rfl
          · rw [step, hit, moved]
            rfl
  · obtain ⟨makeentry, same, -⟩ := cacheLookup_unsearched searched
    refine .inl ⟨fun _ wrong => absurd wrong searched, s, order, chains, ?_, linked, trivial⟩
    rw [step, same]
    rfl

theorem step_cases (linked : Linked s order chains) (call : Call) :
    Spared s call ∧ Leaves s call ∨ ¬ Spared s call ∧ step s call = none := by
  cases call with
  | enter ndp fits =>
    rcases cacheEnter_spec linked ndp with ⟨same, -⟩ | ⟨-, i, lru, hash, numcache, order', done,
      linked'⟩
    · exact .inl ⟨trivial, s, order, chains, same, linked, trivial⟩
    · exact .inl ⟨trivial, _, order', _, done, linked', trivial⟩
  | lookup ndp => exact lookup_step linked ndp
  | purge vp =>
    obtain ⟨s', done, linked'⟩ := cachePurge_spec linked vp
    exact .inl ⟨trivial, s', order, chains, done, linked', trivial⟩
  | purgevfs mp vMount =>
    rcases cachePurgevfs_cases linked mp vMount with ⟨one, on, stuck⟩ | ⟨spared, s', order',
      chains', done, linked', left⟩
    · exact .inr ⟨fun spared => spared one on, stuck⟩
    · exact .inl ⟨spared, s', order', chains', done, linked', left.gone⟩

theorem reached_linked {calls : List Call}
    (reached : replay step (nchinit doingcache desiredvnodes) calls = some s) :
    ∃ order chains, Linked s order chains := by
  induction calls using List.reverseRecOn generalizing s with
  | nil =>
    obtain rfl := Option.some.inj reached
    exact ⟨[], fun _ => [], nchinit_linked doingcache desiredvnodes⟩
  | append_singleton front call ih =>
    rw [replay_append, Option.bind_eq_some_iff] at reached
    obtain ⟨t, before, last⟩ := reached
    obtain ⟨u, stepped, same⟩ := Option.bind_eq_some_iff.mp last
    obtain rfl := Option.some.inj same
    obtain ⟨order, chains, linked⟩ := ih before
    rcases step_cases linked call with ⟨-, s', order', chains', done, linked', -⟩ | ⟨-, stuck⟩
    · rw [done] at stepped
      obtain rfl := Option.some.inj stepped
      exact ⟨order', chains', linked'⟩
    · rw [stuck] at stepped
      cases stepped

/-- The structure of the name cache in every state of every run, as long as no call takes the only
entry off its list; and every run with such a call follows a NULL pointer. -/
theorem name_cache_runs (doingcache : Bool) (desiredvnodes : Nat) (calls : List Call) :
    (∀ before call after s, calls = before ++ call :: after →
        replay step (nchinit doingcache desiredvnodes) before = some s → Spared s call) ↔
      ∃ s order chains, replay step (nchinit doingcache desiredvnodes) calls = some s ∧
        Linked s order chains ∧
        ∀ before call, calls = before ++ [call] → Gone s chains call := by
  constructor
  · intro spared
    induction calls using List.reverseRecOn with
    | nil =>
      refine ⟨_, [], fun _ => [], rfl, nchinit_linked doingcache desiredvnodes,
        fun before call wrong => ?_⟩
      simp at wrong
    | append_singleton front call ih =>
      have earlier : ∀ before call' after s, front = before ++ call' :: after →
          replay step (nchinit doingcache desiredvnodes) before = some s → Spared s call' := by
        intro before call' after s split
        refine spared before call' (after ++ [call]) s ?_
        rw [split, List.append_assoc, List.cons_append]
      obtain ⟨s, order, chains, reached, linked, -⟩ := ih earlier
      have here := spared front call [] s rfl reached
      rcases step_cases linked call with ⟨-, s', order', chains', done, linked', gone⟩ | ⟨wrong, -⟩
      · refine ⟨s', order', chains', ?_, linked', fun before last split => ?_⟩
        · rw [replay_append, reached, Option.bind_some, replay, done]
          rfl
        · obtain ⟨-, same⟩ := List.append_inj' split rfl
          obtain rfl := (List.singleton_inj.mp same)
          exact gone
      · exact absurd here wrong
  · rintro ⟨s, order, chains, reached, -, -⟩ before call after t rfl earlier
    rw [replay_append, earlier, Option.bind_some] at reached
    obtain ⟨u, stepped, -⟩ := Option.bind_eq_some_iff.mp reached
    obtain ⟨order', chains', linked⟩ := reached_linked earlier
    rcases step_cases linked call with ⟨spared, -⟩ | ⟨-, stuck⟩
    · exact spared
    · rw [stuck] at stepped
      cases stepped

/-- One entry, dropped by the lookup of a name that is to be removed. -/
theorem name_cache_follows_null :
    ¬ ∀ calls : List Call, (replay step (nchinit true 100) calls).isSome := by
  intro sound
  have stuck : (replay step (nchinit true 100)
      [.enter ⟨0, 1, [97], 97, 1, some 2⟩ (by decide), .lookup ⟨2, 1, [97], 97, 0, none⟩]).isSome =
        false := by decide
  rw [sound _] at stuck
  cases stuck

end Runs

end FreeBsd.Kern.VfsCache
