import FreeBsd.Db.HashGrow

/-! One call of `hash_access`: where it finds a key, and what it enters and deletes. -/
namespace FreeBsd.Db

open FreeBsd.Lib

variable {s t : Hashp} {f : Option Nat → Nodes} {b : Nat} {k : Option Nat} {l : List Pair}
    {c rest : Nodes}
  {key val : Bytes}

section Search

def keys (l : List Pair) : List Bytes := l.map Prod.fst

/-- The search along a chain: at the page of the pair, or at the last page. -/
theorem Linked.search {fuel : Nat} (linked : Linked s ((b, l) :: rest))
    (enough : rest.length < fuel) :
    (∃ c' b' front val back rest', (b, l) :: rest = c' ++ (b', front ++ (key, val) :: back) ::
      rest' ∧
      Hashp.search key fuel s b = .ok (s, b', some (2 * front.length + 1))) ∨
    (key ∉ keys (Nodes.pairs ((b, l) :: rest)) ∧ ∃ c' b' l', (b, l) :: rest = c' ++ [(b', l')] ∧
      Hashp.search key fuel s b = .ok (s, b', none)) := by
  induction rest generalizing b l fuel with
  | nil =>
    obtain ⟨fuel, rfl⟩ : ∃ m, fuel = m + 1 := ⟨fuel - 1, by lia⟩
    have count := linked.1.count
    rcases @HashPage.Holds.search _ s.bsize 1 _ key [] _ _ ((s.page b).bp 0 + 1) linked.1
      (by lia) rfl rfl with
      ⟨front, val, back, rfl, found⟩ | ⟨missing, ends⟩
    · refine .inl ⟨[], b, front, val, back, [], rfl, ?_⟩
      rw [Hashp.search, found]
      rfl
    · refine .inr ⟨?_, [], b, l, rfl, ?_⟩
      · simpa [keys, Nodes.pairs] using missing
      · rw [Hashp.search, ends]
        rfl
  | cons node rest ih =>
    obtain ⟨next, l'⟩ := node
    obtain ⟨fuel, rfl⟩ : ∃ m, fuel = m + 1 := ⟨fuel - 1, by lia⟩
    have count := linked.1.count
    have got := @Linked.getOvfl s b next l [] rest l' linked
    rw [List.length_cons] at enough
    have enough' : rest.length < fuel := by lia
    rcases @HashPage.Holds.search _ s.bsize 1 _ key [] _ _ ((s.page b).bp 0 + 1) linked.1
      (by lia) rfl rfl with
      ⟨front, val, back, rfl, found⟩ | ⟨missing, ends⟩
    · refine .inl ⟨[], b, front, val, back, (next, l') :: rest, rfl, ?_⟩
      rw [Hashp.search, found]
      rfl
    · have step : Hashp.search key (fuel + 1) s b = Hashp.search key fuel s next := by
        rw [Hashp.search, ends]
        change Hashp.search key fuel (s.getOvfl (s.bufs next).addr b).1
          (s.getOvfl (s.bufs next).addr b).2 = _
        rw [got]
      rw [step]
      rcases ih linked.tail enough' with
        ⟨c', b', front, val, back, rest', split, found⟩ | ⟨absent, c', b', l'', split, found⟩
      · exact .inl ⟨(b, l) :: c', b', front, val, back, rest', by rw [split]; rfl, found⟩
      · refine .inr ⟨?_, (b, l) :: c', b', l'', by rw [split]; rfl, found⟩
        rw [Nodes.pairs_cons, keys, List.map_append, List.mem_append, not_or]
        exact ⟨missing, absent⟩

/-- Where `__addel` puts a pair: on a page with a link where it can be squeezed in, or on the last
page. -/
theorem Linked.addelLoop {fuel : Nat} (linked : Linked s ((b, l) :: rest))
    (enough : rest.length < fuel) :
    (∃ c' b' l' node rest', (b, l) :: rest = c' ++ (b', l') :: node :: rest' ∧
      (s.page b').freespace > PAIRSIZE key val ∧
        Hashp.addelLoop key val fuel s b = .ok (s, b', true)) ∨
    (∃ c' b' l', (b, l) :: rest = c' ++ [(b', l')] ∧
      Hashp.addelLoop key val fuel s b = .ok (s, b', false)) := by
  induction rest generalizing b l fuel with
  | nil =>
    obtain ⟨fuel, rfl⟩ : ∃ m, fuel = m + 1 := ⟨fuel - 1, by lia⟩
    refine .inr ⟨[], b, l, rfl, ?_⟩
    rw [Hashp.addelLoop, if_neg]
    rintro ⟨nonempty, low⟩
    rcases linked.1.last_real with empty | real
    · exact nonempty empty
    · lia
  | cons node rest ih =>
    obtain ⟨next, l'⟩ := node
    obtain ⟨fuel, rfl⟩ : ∃ m, fuel = m + 1 := ⟨fuel - 1, by lia⟩
    have count : (s.page b).bp 0 = 2 * l.length + 2 := linked.1.count
    obtain ⟨first, second⟩ := linked.1.linked (s.bufs next).addr rfl
    have got := @Linked.getOvfl s b next l [] rest l' linked
    rw [List.length_cons] at enough
    have enough' : rest.length < fuel := by lia
    rw [Hashp.addelLoop, if_pos ⟨by lia, by rw [count, second]; decide⟩,
      if_neg (by rw [count]; exact fun big => big.2 second)]
    by_cases room : (s.page b).freespace > PAIRSIZE key val
    · rw [if_pos room]
      exact .inl ⟨[], b, l, (next, l'), rest, rfl, room, rfl⟩
    · rw [if_neg room, count, show 2 * l.length + 2 - 1 = 2 * l.length + 1 by lia, first, got]
      rcases ih linked.tail enough' with
        ⟨c', b', l'', node, rest', split, free, found⟩ | ⟨c', b', l'', split, found⟩
      · exact .inl ⟨(b, l) :: c', b', l'', node, rest', by rw [split]; rfl, free, found⟩
      · exact .inr ⟨(b, l) :: c', b', l'', by rw [split]; rfl, found⟩

end Search

section Enter

/-- The chain of a bucket holds one more pair, all other chains are as they were. -/
structure Entered (s t : Hashp) (f g : Option Nat → Nodes) (bucket : Nat) (pair : Pair) : Prop where
  arranged : t.Arranged g
  calm : s.Calm t
  pairs : (g (some bucket)).pairs.Perm (pair :: (f (some bucket)).pairs)
  others : ∀ k, k ≠ some bucket → g k = f k

theorem Hashp.Arranged.nkeys (arranged : s.Arranged f) (n : Int) :
    Hashp.Arranged { s with nkeys := n } f :=
  ⟨⟨arranged.sane.wide, arranged.sane.small, arranged.sane.ovfl, arranged.sane.apart,
    arranged.sane.table⟩, ⟨arranged.indexed.dir, arranged.indexed.nodup, arranged.indexed.apart,
    arranged.indexed.made, arranged.indexed.tails, arranged.indexed.loose⟩, fun k =>
    (arranged.linked k).congr rfl fun _ _ => rfl⟩

theorem Hashp.Arranged.enterAt {bucket : Nat} {p : HashPage} (arranged : s.Arranged f)
    (here : f (some bucket) = c ++ (b, l) :: rest)
    (holds : p.Holds s.bsize (l ++ [(key, val)]) (s.linkOf rest)) :
    Entered s (s.setPage b p) f (Function.update f (some bucket) (c ++ (b, l ++ [(key, val)]) ::
      rest)) bucket (key, val) := by
  refine ⟨arranged.setPage here holds, ⟨rfl, rfl, rfl, rfl, rfl, rfl, rfl, rfl⟩, ?_,
    fun k other => Function.update_of_ne other ..⟩
  rw [Function.update_self, here, Nodes.pairs_append, Nodes.pairs_append, Nodes.pairs_cons,
    Nodes.pairs_cons, List.append_assoc, List.singleton_append]
  exact (List.perm_middle.append_left _).trans List.perm_middle

theorem Entered.nkeys {g : Option Nat → Nodes} {bucket : Nat} {pair : Pair}
    (entered : Entered s t f g bucket pair) (n : Int) :
      Entered s { t with nkeys := n } f g bucket pair := by
  have calm := entered.calm
  exact ⟨entered.arranged.nkeys n, ⟨calm.hash, calm.bshift, calm.maxBucket, calm.highMask,
    calm.lowMask, calm.nsegs, calm.dsize, calm.dirEnd⟩, entered.pairs, entered.others⟩

theorem Hashp.Arranged.enter {bucket : Nat} (arranged : s.Arranged f)
    (here : f (some bucket) = c ++ (b, l) :: rest) (fits : Fits s.bsize key val) :
    Ends (fun r => ∃ g, Entered s r.1 f g bucket (key, val)) (· = .failure)
      (s.enter b key val) := by
  have sane := arranged.sane
  have linked := arranged.linked (some bucket)
  have length := arranged.indexed.length_le (some bucket)
  simp only [here, Nodes.ids, List.length_map, List.length_append, List.length_cons] at length
  have behind : Linked s ((b, l) :: rest) := by
    rw [here] at linked
    exact linked.at
  rw [Hashp.enter]
  rcases @Linked.addelLoop _ _ _ _ key val (s.made + 1) behind (by omega) with
    ⟨c', b', l', node, rest', split, free, found⟩ | ⟨c', b', l', split, found⟩
  · have here' : f (some bucket) = (c ++ c') ++ (b', l') :: node :: rest' := by
      rw [here, split, List.append_assoc]
    rw [here'] at linked
    simp only [found]
    exact ⟨_, arranged.enterAt here' (squeezeKey_holds linked.at.1 sane.small free)⟩
  · have here' : f (some bucket) = (c ++ c') ++ [(b', l')] := by
      rw [here, split, List.append_assoc]
    rw [here'] at linked
    obtain ⟨holds, -, -⟩ := linked.at
    simp only [found]
    change Ends _ _ (if (s.page b').pairfits key val then _ else _)
    by_cases room : (s.page b').pairfits key val
    · rw [if_pos room]
      exact ⟨_, (arranged.enterAt here' (putpair_holds holds sane.small room.2)).nkeys _⟩
    · rw [if_neg room]
      have filled : l' ≠ [] := by
        rintro rfl
        exact room ((holds.pairfits_iff sane.wide).mpr (holds.room_for fits))
      refine (arranged.addOvflpage here' filled).bind ?_
      rintro ⟨t, last⟩ ⟨grown, calm⟩
      obtain ⟨room', g, appended⟩ := grown.enterNew calm here' fits
      change Ends _ _ (if (t.page last).pairfits key val then _ else _)
      rw [if_pos room']
      have entered : Entered s (t.setPage last (putpair (t.page last) key val)) f g bucket (key,
          val) := by
        refine ⟨appended.arranged, appended.calm, ?_, appended.others⟩
        rw [appended.pairs]
        exact List.perm_append_singleton ..
      exact ⟨g, entered.nkeys _⟩

theorem Hashp.Arranged.delete {bucket : Nat} {front back : List Pair} (arranged : s.Arranged f)
    (here : f (some bucket) = c ++ (b, front ++ (key, val) :: back) :: rest) :
    ∃ g, (s.delete b (2 * front.length + 1)).Arranged g ∧
      s.Calm (s.delete b (2 * front.length + 1)) ∧
      g (some bucket) = c ++ (b, front ++ back) :: rest ∧ (∀ k, k ≠ some bucket → g k = f k) ∧
      (f (some bucket)).pairs.Perm ((key, val) :: (g (some bucket)).pairs) := by
  have linked := arranged.linked (some bucket)
  rw [here] at linked
  have deleted := arranged.setPage here (delpair_holds linked.at.1 arranged.sane.small rfl)
  refine ⟨_, deleted.nkeys _, ⟨rfl, rfl, rfl, rfl, rfl, rfl, rfl, rfl⟩, Function.update_self ..,
    fun k other => Function.update_of_ne other .., ?_⟩
  rw [Function.update_self, here, Nodes.pairs_append, Nodes.pairs_append, Nodes.pairs_cons,
    Nodes.pairs_cons, List.append_assoc, List.append_assoc, List.cons_append]
  exact (List.perm_middle.append_left _).trans List.perm_middle

end Enter

end FreeBsd.Db
