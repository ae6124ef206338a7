import FreeBsd.Kern.VfsCache
import FreeBsd.Lib.Chain
import Mathlib.Data.Finset.Basic

/-! The hash chains of the name cache, and what the queue operations do to them. -/
namespace FreeBsd.Kern.VfsCache

open FreeBsd.Lib

section HashChains

/-- The hash chains of the entries of `live`, each of which is on the chain of one bucket or on
one of its own. -/
structure Hashed (q : Links) (nchash : Nat) (live : Finset Nat) (chains : Nat → List Nat) :
    Prop where
  chain : ∀ h ≤ nchash, Chain q.forw q.back (.bucket h) ((chains h).map .entry)
  bounds : ∀ h, ∀ i ∈ chains h, h ≤ nchash ∧ i ∈ live
  apart : ∀ h g i, i ∈ chains h → i ∈ chains g → h = g
  loose : ∀ i ∈ live, (∀ h, i ∉ chains h) → q.forw (.entry i) = .entry i ∧
    q.back (.entry i) = .entry i

def without (chains : Nat → List Nat) (i : Nat) : Nat → List Nat :=
  fun h => (chains h).filter (· ≠ i)

variable {q : Links} {nchash h i j : Nat} {live : Finset Nat} {chains : Nat → List Nat}

@[simp] theorem mem_without : j ∈ without chains i h ↔ j ∈ chains h ∧ j ≠ i := by
  simp [without]

theorem without_of_notMem (fresh : i ∉ chains h) : without chains i h = chains h := by
  apply List.filter_eq_self.mpr
  intro j member
  exact decide_eq_true fun same => fresh (same ▸ member)

theorem without_append {l r : List Nat} (here : chains h = l ++ i :: r) (nodup : (chains h).Nodup) :
    without chains i h = l ++ r := by
  rw [here] at nodup
  obtain ⟨-, nodupR, apart⟩ := List.nodup_append.mp nodup
  obtain ⟨freshR, -⟩ := List.nodup_cons.mp nodupR
  have left : l.filter (· ≠ i) = l := List.filter_eq_self.mpr fun j member =>
    decide_eq_true (apart j member i List.mem_cons_self)
  have right : r.filter (· ≠ i) = r := List.filter_eq_self.mpr fun j member =>
    decide_eq_true (ne_of_mem_of_not_mem member freshR)
  rw [without, here, List.filter_append, List.filter_cons_of_neg (by simp), left, right]

theorem Hashed.nodup (hashed : Hashed q nchash live chains) (h : Nat) : (chains h).Nodup := by
  by_cases within : h ≤ nchash
  · have nodup := (hashed.chain h within).nodup
    exact (List.nodup_cons.mp nodup).2.of_map _
  · have empty : chains h = [] := by
      apply List.eq_nil_iff_forall_not_mem.mpr
      intro i member
      exact within (hashed.bounds h i member).1
    rw [empty]
    exact List.nodup_nil

def nodes (chains : Nat → List Nat) (h : Nat) : List Nch := .bucket h :: (chains h).map .entry

theorem entry_mem_nodes : Nch.entry i ∈ nodes chains h ↔ i ∈ chains h := by
  simp [nodes]

theorem Hashed.nodes_apart (hashed : Hashed q nchash live chains) {g : Nat} {x : Nch}
    (other : g ≠ h) (member : x ∈ nodes chains h) : x ∉ nodes chains g := by
  simp only [nodes, List.mem_cons, List.mem_map] at member ⊢
  rintro (rfl | ⟨j, inside, rfl⟩)
  · rcases member with same | ⟨j, -, same⟩
    · cases same
      exact other rfl
    · cases same
  · rcases member with same | ⟨k, there, same⟩
    · cases same
    · cases same
      exact other (hashed.apart _ _ _ inside there)

/-- Only links of nodes of one chain, or of an entry that is on no other, have changed. -/
theorem Hashed.replace {q' : Links} {chains' : Nat → List Nat} {live' : Finset Nat}
    (hashed : Hashed q nchash live chains) (within : h ≤ nchash)
    (same : ∀ x, x ∉ nodes chains h → x ≠ .entry i → q'.forw x = q.forw x ∧ q'.back x = q.back x)
    (chain : Chain q'.forw q'.back (.bucket h) ((chains' h).map .entry))
    (others : ∀ g ≠ h, chains' g = chains g) (notOther : ∀ g ≠ h, i ∉ chains g)
    (bounds : ∀ j ∈ chains' h, j ∈ live') (subset : ∀ j ∈ chains' h, j ∈ chains h ∨ j = i)
    (rest : ∀ j ∈ live, j ≠ i → j ∈ live') (back : ∀ j ∈ live', j ∈ live ∨ j = i)
    (kept : ∀ j ∈ chains h, j ∈ chains' h ∨ j = i)
    (self : i ∈ live' → i ∉ chains' h → q'.forw (.entry i) = .entry i ∧
      q'.back (.entry i) = .entry i) :
    Hashed q' nchash live' chains' where
  chain g inside := by
    by_cases here : g = h
    · rw [here]
      exact chain
    · rw [others g here]
      have away (x : Nch) (member : x ∈ nodes chains g) : q'.forw x = q.forw x ∧
          q'.back x = q.back x := by
        refine same x (hashed.nodes_apart (Ne.symm here) member) ?_
        rintro rfl
        exact notOther g here (entry_mem_nodes.mp member)
      exact (hashed.chain g inside).congr (fun x member => (away x member).1) fun x member =>
        (away x member).2
  bounds g j member := by
    by_cases here : g = h
    · subst here
      exact ⟨within, bounds j member⟩
    · rw [others g here] at member
      obtain ⟨inside, alive⟩ := hashed.bounds g j member
      exact ⟨inside, rest j alive fun same => notOther g here (same ▸ member)⟩
  apart g g' j member member' := by
    by_cases here : g = h <;> by_cases here' : g' = h
    · rw [here, here']
    · subst here
      rw [others g' here'] at member'
      rcases subset j member with old | rfl
      · exact hashed.apart _ _ _ old member'
      · exact absurd member' (notOther g' here')
    · subst here'
      rw [others g here] at member
      rcases subset j member' with old | rfl
      · exact hashed.apart _ _ _ member old
      · exact absurd member (notOther g here)
    · rw [others g here] at member
      rw [others g' here'] at member'
      exact hashed.apart _ _ _ member member'
  loose j alive free := by
    by_cases this : j = i
    · subst this
      exact self alive (free h)
    · have old : j ∈ live := (back j alive).resolve_right this
      have away (g : Nat) : j ∉ chains g := by
        intro member
        by_cases here : g = h
        · subst here
          exact free g ((kept j member).resolve_right this)
        · exact free g (others g here ▸ member)
      have still := same (.entry j) (fun member => away h (entry_mem_nodes.mp member))
        (by simp [this])
      rw [still.1, still.2]
      exact hashed.loose j old away

theorem without_eq (away : ∀ h, i ∉ chains h) : without chains i = chains :=
  funext fun h => without_of_notMem (away h)

theorem headD_mem_nodes {l r : List Nat} (here : chains h = l ++ r) :
    (r.map Nch.entry).headD (.bucket h) ∈ nodes chains h := by
  have member := headD_mem (r.map Nch.entry) (.bucket h)
  simp only [nodes, here, List.map_append, List.mem_cons, List.mem_append] at member ⊢
  tauto

theorem getLastD_mem_nodes {l r : List Nat} (here : chains h = l ++ r) :
    (l.map Nch.entry).getLastD (.bucket h) ∈ nodes chains h := by
  have member := getLastD_mem (Nch.bucket h) (l.map Nch.entry)
  simp only [nodes, here, List.map_append, List.mem_cons, List.mem_append] at member ⊢
  tauto

theorem ne_null_of_mem {x : Nch} (member : x ∈ nodes chains h) : x ≠ .null := by
  rintro rfl
  simp [nodes] at member

theorem remque_eq {x f b : Nch} (next : q.forw x = f) (prev : q.back x = b)
    (still : Function.update q.back f b x = b) (nextSome : f ≠ .null) (prevSome : b ≠ .null) :
      q.remque x =
      some ⟨Function.update q.forw b f, Function.update (Function.update q.back f b) x .null⟩ := by
  unfold Links.remque
  dsimp only
  rw [next, prev, if_neg nextSome, still, if_neg prevSome]

theorem Hashed.remque (hashed : Hashed q nchash live chains) (member : i ∈ live) :
    ∃ q', q.remque (.entry i) = some q' ∧ Hashed q' nchash (live.erase i) (without chains i) := by
  by_cases place : ∃ h, i ∈ chains h
  · obtain ⟨h, inside⟩ := place
    obtain ⟨within, -⟩ := hashed.bounds h i inside
    obtain ⟨l, r, here⟩ := List.append_of_mem inside
    have here' :
      chains h = (l ++ [i]) ++ r := by rw [here, List.append_assoc, List.singleton_append]
    have chain := hashed.chain h within
    rw [here, List.map_append, List.map_cons] at chain
    have nodup := hashed.nodup h
    rw [here, List.perm_middle.nodup_iff, List.nodup_cons] at nodup
    obtain ⟨fresh, -⟩ := nodup
    have next : q.forw (.entry i) = (r.map Nch.entry).headD (.bucket h) := chain.next_of
    have prev : q.back (.entry i) = (l.map Nch.entry).getLastD (.bucket h) := chain.prev_of
    have front := headD_mem_nodes here'
    have behind := getLastD_mem_nodes here
    have nextNot : (r.map Nch.entry).headD (.bucket h) ≠ .entry i := by
      intro same
      have member := headD_mem (r.map Nch.entry) (.bucket h)
      rw [same, List.mem_append, List.mem_map] at member
      rcases member with ⟨j, inside, same⟩ | member
      · cases same
        exact fresh (List.mem_append_right l inside)
      · simp at member
    have reduced := chain.remove
    have removed : without chains i h = l ++ r := without_append here (hashed.nodup h)
    have back :
        Function.update q.back ((r.map Nch.entry).headD (.bucket h))
          ((l.map Nch.entry).getLastD (.bucket h))
        (.entry i) = (l.map Nch.entry).getLastD (.bucket h) := by
      rw [Function.update_of_ne nextNot.symm, prev]
    refine ⟨_, remque_eq next prev back (ne_null_of_mem front) (ne_null_of_mem behind), ?_⟩
    refine hashed.replace (h := h) (i := i) within ?_ ?_ ?_ ?_ ?_ ?_ ?_ ?_ ?_ ?_
    · intro x away other
      refine ⟨Function.update_of_ne (ne_of_mem_of_not_mem behind away).symm _ _, ?_⟩
      refine (Function.update_of_ne other _ _).trans
        (Function.update_of_ne (ne_of_mem_of_not_mem front away).symm _ _)
    · rw [removed, List.map_append]
      refine reduced.congr (fun _ _ => rfl) fun x member => Function.update_of_ne ?_ _ _
      rintro rfl
      have member : i ∈ l ∨ i ∈ r := by simpa using member
      exact fresh (List.mem_append.mpr member)
    · exact fun g other => without_of_notMem fun there => other (hashed.apart _ _ _ there inside)
    · exact fun g other there => other (hashed.apart _ _ _ there inside)
    · intro j there
      obtain ⟨old, other⟩ := mem_without.mp there
      exact Finset.mem_erase.mpr ⟨other, (hashed.bounds h j old).2⟩
    · exact fun j there => .inl (mem_without.mp there).1
    · exact fun j alive other => Finset.mem_erase.mpr ⟨other, alive⟩
    · exact fun j alive => .inl (Finset.mem_of_mem_erase alive)
    · intro j there
      by_cases same : j = i
      · exact .inr same
      · exact .inl (mem_without.mpr ⟨there, same⟩)
    · exact fun alive => absurd rfl (Finset.ne_of_mem_erase alive)
  · have away (h : Nat) : i ∉ chains h := fun inside => place ⟨h, inside⟩
    obtain ⟨next, prev⟩ := hashed.loose i member away
    have back : Function.update q.back (.entry i) (.entry i) (.entry i) = .entry i :=
      Function.update_self _ _ _
    have notNode {x : Nch} {h : Nat} (member : x ∈ nodes chains h) : x ≠ .entry i := by
      rintro rfl
      exact away h (entry_mem_nodes.mp member)
    have same (x : Nch) (other : x ≠ .entry i) : Function.update q.forw (.entry i) (.entry i) x =
        q.forw x ∧
        Function.update (Function.update q.back (.entry i) (.entry i)) (.entry i) .null x =
          q.back x :=
      ⟨Function.update_of_ne other _ _,
        (Function.update_of_ne other _ _).trans (Function.update_of_ne other _ _)⟩
    rw [without_eq away]
    refine ⟨_, remque_eq next prev back (by simp) (by simp), ?_⟩
    refine hashed.replace (h := 0) (i := i) (Nat.zero_le nchash) (fun x _ other => same x other) ?_
      (fun _ _ => rfl) (fun g _ => away g) ?_ (fun j member => .inl member) ?_ ?_
        (fun j member => .inl member) ?_
    · exact (hashed.chain 0 (Nat.zero_le nchash)).congr
        (fun x member => (same x (notNode member)).1)
        fun x member => (same x (notNode member)).2
    · intro j there
      refine Finset.mem_erase.mpr ⟨?_, (hashed.bounds 0 j there).2⟩
      rintro rfl
      exact away 0 there
    · exact fun j alive other => Finset.mem_erase.mpr ⟨other, alive⟩
    · exact fun j alive => .inl (Finset.mem_of_mem_erase alive)
    · exact fun alive => absurd rfl (Finset.ne_of_mem_erase alive)

theorem Hashed.insque (hashed : Hashed q nchash live chains) (fresh : i ∉ live)
    (within : h ≤ nchash) :
    ∃ q', q.insque (.entry i) (.bucket h) = some q' ∧
      Hashed q' nchash (insert i live) (Function.update chains h (i :: chains h)) := by
  have away (g : Nat) : i ∉ chains g := fun member => fresh (hashed.bounds g i member).2
  have chain := hashed.chain h within
  have next : q.forw (.bucket h) = ((chains h).map Nch.entry).headD (.bucket h) := chain.next_head
  have front : ((chains h).map Nch.entry).headD (.bucket h) ∈ nodes chains h :=
    headD_mem_nodes (List.nil_append _).symm
  have outside : Nch.entry i ∉ nodes chains h := fun member => away h (entry_mem_nodes.mp member)
  have inserted := @Chain.insert _ _ _ _ (.entry i) [] _ _ chain outside
  have apart : Nch.bucket h ≠ .entry i := by simp
  have first : Function.update (Function.update q.forw (.entry i) (q.forw (.bucket h))) (.bucket h)
      (.entry i) (.entry i) =
      ((chains h).map Nch.entry).headD (.bucket h) := by
    rw [Function.update_of_ne apart.symm, Function.update_self, next]
  have done : q.insque (.entry i) (.bucket h) = some
      ⟨Function.update (Function.update q.forw (.entry i) (q.forw (.bucket h))) (.bucket h)
        (.entry i), Function.update (Function.update q.back (.entry i) (.bucket h))
          (((chains h).map Nch.entry).headD (.bucket h))
          (.entry i)⟩ := by
    unfold Links.insque
    dsimp only
    rw [first, if_neg (ne_null_of_mem front)]
  refine ⟨_, done, ?_⟩
  refine hashed.replace (h := h) (i := i) within ?_ ?_ ?_ (fun g _ => away g) ?_ ?_ ?_ ?_ ?_ ?_
  · intro x off other
    constructor
    · refine (Function.update_of_ne ?_ _ _).trans (Function.update_of_ne other _ _)
      exact (ne_of_mem_of_not_mem List.mem_cons_self off).symm
    · refine (Function.update_of_ne ?_ _ _).trans (Function.update_of_ne other _ _)
      exact (ne_of_mem_of_not_mem front off).symm
  · rw [Function.update_self, List.map_cons, next]
    exact inserted
  · exact fun g other => Function.update_of_ne other _ _
  · intro j member
    rw [Function.update_self] at member
    rcases List.mem_cons.mp member with rfl | old
    · exact Finset.mem_insert_self _ _
    · exact Finset.mem_insert_of_mem (hashed.bounds h j old).2
  · intro j member
    rw [Function.update_self] at member
    exact (List.mem_cons.mp member).symm
  · exact fun j member _ => Finset.mem_insert_of_mem member
  · exact fun j member => (Finset.mem_insert.mp member).symm
  · intro j member
    rw [Function.update_self]
    exact .inl (List.mem_cons_of_mem _ member)
  · intro _ missing
    rw [Function.update_self] at missing
    exact absurd List.mem_cons_self missing

theorem Hashed.dummy (hashed : Hashed q nchash live chains) (fresh : i ∉ live) :
    Hashed (q.dummy (.entry i)) nchash (insert i live) chains := by
  have away (h : Nat) : i ∉ chains h := fun member => fresh (hashed.bounds h i member).2
  have same (x : Nch) (other : x ≠ .entry i) :
      (q.dummy (.entry i)).forw x = q.forw x ∧ (q.dummy (.entry i)).back x = q.back x :=
    ⟨Function.update_of_ne other _ _, Function.update_of_ne other _ _⟩
  have notNode {x : Nch} {h : Nat} (member : x ∈ nodes chains h) : x ≠ .entry i := by
    rintro rfl
    exact away h (entry_mem_nodes.mp member)
  refine hashed.replace (Nat.zero_le nchash) (fun x _ other => same x other) ?_ (fun _ _ => rfl)
    (fun g _ => away g)
    ?_ (fun j member => .inl member) ?_ ?_ (fun j member => .inl member) ?_
  · exact (hashed.chain 0 (Nat.zero_le nchash)).congr (fun x member => (same x (notNode member)).1)
      fun x member => (same x (notNode member)).2
  · exact fun j member => Finset.mem_insert_of_mem (hashed.bounds 0 j member).2
  · exact fun j member _ => Finset.mem_insert_of_mem member
  · exact fun j member => (Finset.mem_insert.mp member).symm
  · exact fun _ _ => ⟨Function.update_self _ _ _, Function.update_self _ _ _⟩

end HashChains

end FreeBsd.Kern.VfsCache
