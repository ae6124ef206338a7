import FreeBsd.Db.HashChain

/-! The split of a bucket: each pair of its chain ends in the chain of the old bucket or of the new
one. -/
namespace FreeBsd.Db

open FreeBsd.Lib

variable {s t : Hashp} {f : Option Nat → Nodes} {b old new ob nb src n off : Nat} {k : Option Nat}
  {l front back : List Pair} {c rest : Nodes} {key val : Bytes} {stays : Bytes → Bool}

section Append

theorem Nodes.pairs_append (c c' : Nodes) : (c ++ c').pairs = c.pairs ++ c'.pairs :=
  List.flatMap_append

theorem Nodes.pairs_cons (b : Nat) (l : List Pair) (c : Nodes) :
    Nodes.pairs ((b, l) :: c) = l ++ c.pairs :=
  List.flatMap_cons

theorem Nodes.pairs_nil : Nodes.pairs [] = [] := rfl

def Fits (bsize : Nat) (key val : Bytes) : Prop := key.length + val.length + 14 ≤ bsize

theorem HashPage.Holds.fits {bsize : Nat} {p : HashPage} {link : Option Nat}
    (holds : p.Holds bsize (front ++ (key, val) :: back) link) : Fits bsize key val := by
  rcases holds.room with room | ⟨empty, -⟩
  · rw [fill_append, fill_cons, List.length_append, List.length_cons] at room
    rw [Fits]
    lia
  · simp at empty

theorem HashPage.Holds.room_for {bsize : Nat} {p : HashPage} (holds : p.Holds bsize [] none)
    (fits : Fits bsize key val) :
    PAIRSIZE key val + OVFLSIZE ≤ p.freespace := by
  have free := holds.free
  have count : p.bp 0 = 0 := holds.count
  rw [fill_nil] at free
  rw [Fits] at fits
  rw [PAIRSIZE, OVFLSIZE]
  lia

/-- What adding a pair to the end of chain `k` comes to: the other chains stay as they are. -/
structure Appended (s t : Hashp) (f g : Option Nat → Nodes) (k : Option Nat) (last : Nat)
    (added : List Pair) : Prop where
  arranged : t.Arranged g
  calm : s.Calm t
  ends : ∃ c l, g k = c ++ [(last, l)]
  pairs : (g k).pairs = (f k).pairs ++ added
  others : ∀ k', k' ≠ k → g k' = f k'
  first : (g k).ids.head? = (f k).ids.head?

theorem Hashp.Arranged.enterNew {last : Nat}
    (grown : t.Arranged (Function.update f k (c ++ [(b, l), (last, [])]))) (calm : s.Calm t)
    (here : f k = c ++ [(b, l)]) (fits : Fits s.bsize key val) :
    (t.page last).pairfits key val ∧
      ∃ g, Appended s (t.setPage last (putpair (t.page last) key val)) f g k last [(key, val)] := by
  have chain : Function.update f k (c ++ [(b, l), (last, [])]) k =
      (c ++ [(b, l)]) ++ [(last, [])] := by
    rw [Function.update_self, List.append_assoc]
    rfl
  have linked := grown.linked k
  rw [chain] at linked
  obtain ⟨empty, -, -⟩ := linked.at
  have room := @HashPage.Holds.room_for key val _ _ empty (by rwa [calm.bsize])
  have entered := grown.setPage chain (putpair_holds empty grown.sane.small room)
  rw [Function.update_idem] at entered
  refine ⟨(empty.pairfits_iff grown.sane.wide).mpr room, _, entered, calm.trans ⟨rfl, rfl, rfl, rfl,
    rfl, rfl, rfl, rfl⟩, ⟨_, _, Function.update_self ..⟩, ?_, fun k' other =>
    Function.update_of_ne other .., ?_⟩
  · rw [Function.update_self, here, Nodes.pairs_append, Nodes.pairs_cons, Nodes.pairs_nil,
      List.nil_append, List.append_nil]
  · rw [Function.update_self, here, Nodes.ids_append, List.head?_append_of_ne_nil]
    rw [Nodes.ids_append]
    simp [Nodes.ids]

theorem Hashp.Arranged.append (arranged : s.Arranged f) (here : f k = c ++ [(b, l)])
    (fits : Fits s.bsize key val) :
    Ends (fun r => ∃ g, Appended s r.1 f g k r.2 [(key, val)]) (· = .failure)
      (s.append b key val) := by
  have sane := arranged.sane
  have linked := arranged.linked k
  rw [here] at linked
  obtain ⟨holds, -, -⟩ := linked.at
  rw [Hashp.append]
  by_cases room : (s.page b).pairfits key val
  · rw [if_pos room]
    refine ⟨_, arranged.setPage here (putpair_holds holds sane.small room.2),
      ⟨rfl, rfl, rfl, rfl, rfl, rfl, rfl, rfl⟩, ⟨c, _, Function.update_self ..⟩, ?_, fun k' other =>
      Function.update_of_ne other .., ?_⟩
    · rw [Function.update_self, here, Nodes.pairs_append, Nodes.pairs_append, Nodes.pairs_cons,
        Nodes.pairs_cons, Nodes.pairs_nil, List.append_nil, List.append_nil, List.append_assoc]
    · rw [Function.update_self, here, Nodes.ids_append, Nodes.ids_append]
      rfl
  · rw [if_neg room]
    have filled : l ≠ [] := by
      rintro rfl
      exact room ((holds.pairfits_iff sane.wide).mpr (holds.room_for fits))
    refine (arranged.addOvflpage here filled).bind ?_
    rintro ⟨t, last⟩ ⟨grown, calm⟩
    exact (grown.enterNew calm here fits).2

end Append

section Spread

structure Spread (s t : Hashp) (f g : Option Nat → Nodes) (ob nb old new : Nat)
    (stay move : List Pair) : Prop where
  arranged : t.Arranged g
  calm : s.Calm t
  oldEnds : ∃ c l, g (some ob) = c ++ [(old, l)]
  newEnds : ∃ c l, g (some nb) = c ++ [(new, l)]
  stay : (g (some ob)).pairs = (f (some ob)).pairs ++ stay
  move : (g (some nb)).pairs = (f (some nb)).pairs ++ move
  others : ∀ k, k ≠ some ob → k ≠ some nb → g k = f k

theorem Spread.refl (arranged : s.Arranged f) (oldEnds : ∃ c l, f (some ob) = c ++ [(old, l)])
    (newEnds : ∃ c l, f (some nb) = c ++ [(new, l)]) : Spread s s f f ob nb old new [] [] :=
  ⟨arranged, .refl s, oldEnds, newEnds, (List.append_nil _).symm, (List.append_nil _).symm,
    fun _ _ _ => rfl⟩

theorem Spread.trans {u : Hashp} {g h : Option Nat → Nodes} {old' new' : Nat}
    {stay move stay' move' : List Pair} (first : Spread s t f g ob nb old new stay move)
    (second : Spread t u g h ob nb old' new' stay' move') :
    Spread s u f h ob nb old' new' (stay ++ stay') (move ++ move') := by
  refine ⟨second.arranged, first.calm.trans second.calm, second.oldEnds, second.newEnds, ?_, ?_, ?_⟩
  · rw [second.stay, first.stay, List.append_assoc]
  · rw [second.move, first.move, List.append_assoc]
  · intro k other other'
    rw [second.others k other other', first.others k other other']

theorem Appended.toOld {g : Option Nat → Nodes} {old' : Nat} {added : List Pair}
    (appended : Appended s t f g (some ob) old' added)
    (newEnds : ∃ c l, f (some nb) = c ++ [(new, l)]) (differ : ob ≠ nb) :
      Spread s t f g ob nb old' new added [] := by
  have kept : g (some nb) = f (some nb) := appended.others _ (by simpa using differ.symm)
  refine ⟨appended.arranged, appended.calm, appended.ends, ?_, appended.pairs, ?_,
    fun k other _ => appended.others k other⟩
  · rw [kept]
    exact newEnds
  · rw [kept, List.append_nil]

theorem Appended.toNew {g : Option Nat → Nodes} {new' : Nat} {added : List Pair}
    (appended : Appended s t f g (some nb) new' added)
    (oldEnds : ∃ c l, f (some ob) = c ++ [(old, l)]) (differ : ob ≠ nb) :
      Spread s t f g ob nb old new' [] added := by
  have kept : g (some ob) = f (some ob) := appended.others _ (by simpa using differ)
  refine ⟨appended.arranged, appended.calm, ?_, appended.ends, ?_, appended.pairs,
    fun k _ other => appended.others k other⟩
  · rw [kept]
    exact oldEnds
  · rw [kept, List.append_nil]

theorem Hashp.Arranged.movePairs {fuel : Nat} (arranged : s.Arranged f) (differ : ob ≠ nb)
    (source : f none = (src, front ++ back) :: rest)
    (oldEnds : ∃ c l, f (some ob) = c ++ [(old, l)])
    (newEnds : ∃ c l, f (some nb) = c ++ [(new, l)]) (at_ : 2 * front.length + 1 = n)
    (start : off + fill front = s.bsize) (enough : back.length < fuel) :
    Ends (fun r => r.2.1 = 2 * (front ++ back).length + 1 ∧
        ∃ g, Spread s r.1 f g ob nb r.2.2.1 r.2.2.2 (staying stays back) (moving stays back)) (· =
          .failure)
      (Hashp.movePairs stays src fuel s n off old new) := by
  induction back generalizing s f front n off old new fuel with
  | nil =>
    obtain ⟨fuel, rfl⟩ : ∃ m, fuel = m + 1 := ⟨fuel - 1, by lia⟩
    rw [List.append_nil] at source ⊢
    have linked := arranged.linked none
    rw [source] at linked
    obtain ⟨holds, -, -⟩ := linked
    have count := holds.count
    have ends : ¬ (n < (s.page src).bp 0 ∧ (s.page src).bp (n + 1) ≥ REAL_KEY) := by
      rintro ⟨inside, real⟩
      cases link : s.linkOf rest with
      | none =>
        rw [link] at count
        simp at count
        lia
      | some a =>
        obtain ⟨-, second⟩ := holds.linked a link
        rw [show 2 * front.length + 2 = n + 1 by lia] at second
        rw [second] at real
        exact absurd real (by decide)
    rw [Hashp.movePairs, if_neg ends]
    exact ⟨at_.symm, f, .refl arranged oldEnds newEnds⟩
  | cons pair back ih =>
    obtain ⟨fuel, rfl⟩ : ∃ m, fuel = m + 1 := ⟨fuel - 1, by lia⟩
    obtain ⟨key, val⟩ := pair
    have linked := arranged.linked none
    rw [source] at linked
    obtain ⟨holds, -, -⟩ := linked
    obtain ⟨first, second, same, same', -, above⟩ := holds.pair at_
    have count := holds.count
    rw [List.length_append, List.length_cons] at count
    have read : slice (s.page src).bytes ((s.page src).bp n) (off - (s.page src).bp n) = key := by
      rwa [show off - (s.page src).bp n = key.length by lia]
    have read' :
        slice (s.page src).bytes ((s.page src).bp (n + 1))
          ((s.page src).bp n - (s.page src).bp (n + 1)) = val := by
      rwa [show (s.page src).bp n - (s.page src).bp (n + 1) = val.length by lia]
    have fits := holds.fits
    have enough' : back.length < fuel := by
      rw [List.length_cons] at enough
      lia
    have length : (front ++ [(key, val)]).length = front.length + 1 := List.length_append
    have position : (s.page src).bp (n + 1) + fill (front ++ [(key, val)]) = s.bsize := by
      rw [fill_append, fill_singleton]
      lia
    rw [List.append_cons] at source ⊢
    rw [Hashp.movePairs, if_pos ⟨by lia, by rw [REAL_KEY]; lia⟩]
    simp only [read, read']
    -- The rest of the page is moved from the state that the pair leaves.
    have later : ∀ {t : Hashp} {g : Option Nat → Nodes} {old' new' : Nat} {stay move : List Pair},
        Spread s t f g ob nb old' new' stay move →
        Ends (fun r => r.2.1 = 2 * (front ++ [(key, val)] ++ back).length + 1 ∧
          ∃ h, Spread s r.1 f h ob nb r.2.2.1 r.2.2.2 (stay ++ staying stays back)
            (move ++ moving stays back))
          (· = .failure) (Hashp.movePairs stays src fuel t (n + 2) ((s.page src).bp (n + 1)) old'
            new') := by
      intro t g old' new' stay move spread
      have source' : g none = (src, front ++ [(key, val)] ++ back) :: rest := by
        rw [spread.others none (by simp) (by simp)]
        exact source
      refine (ih spread.arranged source' spread.oldEnds spread.newEnds (by lia)
        (by rw [spread.calm.bsize]; exact position)
        enough').mono ?_ fun _ => id
      rintro r ⟨place, h, more⟩
      exact ⟨place, h, spread.trans more⟩
    have stayed : staying stays ((key, val) :: back) =
        staying stays [(key, val)] ++ staying stays back :=
      staying_append [(key, val)] back
    have moved : moving stays ((key, val) :: back) =
        moving stays [(key, val)] ++ moving stays back :=
      moving_append [(key, val)] back
    rw [stayed, moved, staying_singleton, moving_singleton]
    cases here : stays key with
    | true =>
      obtain ⟨c, l, chain⟩ := oldEnds
      refine (arranged.append chain fits).bind ?_
      rintro ⟨t, old'⟩ ⟨g, appended⟩
      exact later (appended.toOld newEnds differ)
    | false =>
      obtain ⟨c, l, chain⟩ := newEnds
      refine (arranged.append chain fits).bind ?_
      rintro ⟨t, new'⟩ ⟨g, appended⟩
      exact later (appended.toNew oldEnds differ)

end Spread

section Ugly

/-- The loose chain is used up, its pairs are at the ends of the two buckets. -/
structure Emptied (s t : Hashp) (f g : Option Nat → Nodes) (ob nb : Nat) (stay move : List Pair) :
    Prop where
  arranged : t.Arranged g
  calm : s.Calm t
  loose : g none = []
  stay : (g (some ob)).pairs = (f (some ob)).pairs ++ stay
  move : (g (some nb)).pairs = (f (some nb)).pairs ++ move
  others : ∀ bucket, bucket ≠ ob → bucket ≠ nb → g (some bucket) = f (some bucket)

theorem HashPage.Holds.at_link {bsize a : Nat} {p : HashPage} (holds : p.Holds bsize l (some a))
    (at_ : 2 * l.length + 1 = n) :
    n < p.bp 0 ∧ ¬ (p.bp 2 < REAL_KEY ∧ p.bp 2 ≠ OVFLPAGE) ∧ p.bp (n + 1) = OVFLPAGE ∧
      p.bp n = a := by
  have count : p.bp 0 = 2 * l.length + 2 := holds.count
  obtain ⟨first, second⟩ := holds.linked a rfl
  rw [at_] at first
  rw [show 2 * l.length + 2 = n + 1 by lia] at second
  refine ⟨by lia, ?_, second, first⟩
  rintro ⟨low, other⟩
  cases l with
  | nil =>
    have : n = 1 := by simp at at_; lia
    rw [this] at second
    exact other second
  | cons pair l =>
    have := holds.real (List.cons_ne_nil pair l)
    lia

/-- The next page is found also after something else is written to the page before it. -/
theorem Linked.getOvfl_setPage {next : Nat} {l' : List Pair} {p : HashPage}
    (linked : Linked s (c ++ (b, l) :: (next, l') :: rest)) :
    (s.setPage b p).getOvfl (s.bufs next).addr b = (s.setPage b p, next) := by
  obtain ⟨-, pointed, -⟩ := linked.at
  have fields := s.setPage_fields b p
  rw [Hashp.getOvfl, (fields b).2.1, pointed (next, l') rfl, Option.filter_some, (fields next).1,
    if_pos (by simp)]

theorem Hashp.setPage_self (s : Hashp) (b : Nat) : s.setPage b (s.page b) = s := by
  simp only [Hashp.setPage, Hashp.setBuf, Hashp.page, Function.update_eq_self]

/-- The page in `next` is emptied, from a state where it is the first of the loose chain. -/
theorem Hashp.Arranged.empty_next {next : Nat} {l' : List Pair} (arranged : s.Arranged f)
    (differ : ob ≠ nb) (source : f none = (next, l') :: rest)
    (oldEnds : ∃ c l, f (some ob) = c ++ [(old, l)])
    (newEnds : ∃ c l, f (some nb) = c ++ [(new, l)]) :
    Ends (fun r => r.2.1 = 2 * l'.length + 1 ∧
        ∃ g, Spread s r.1 f g ob nb r.2.2.1 r.2.2.2 (staying stays l') (moving stays l')) (· =
          .failure)
      (Hashp.movePairs stays next ((s.page next).bp 0 + 1) s 1 (s.bsize % 2 ^ 16) old new) := by
  have linked := arranged.linked none
  rw [source] at linked
  have count := linked.1.count
  refine @Hashp.Arranged.movePairs _ _ _ _ _ _ _ _ _ [] _ _ _ _ arranged differ source oldEnds
    newEnds rfl ?_ (by omega)
  rw [Nat.mod_eq_of_lt arranged.sane.small, fill_nil, Nat.add_zero]

theorem Hashp.Arranged.uglyRest {fuel copyto moved : Nat} (arranged : s.Arranged f)
    (differ : ob ≠ nb) (source : f none = (src, l) :: rest)
    (oldEnds : ∃ c l, f (some ob) = c ++ [(old, l)])
    (newEnds : ∃ c l, f (some nb) = c ++ [(new, l)]) (at_ : 2 * l.length + 1 = n)
    (enough : rest.length < fuel) :
    Ends (fun t => ∃ g, Emptied s t f g ob nb (staying stays rest.pairs) (moving stays rest.pairs))
      (· = .failure)
      (Hashp.uglyLoop stays fuel s src n old new copyto moved (some src)) := by
  induction rest generalizing s f src l n old new fuel copyto moved with
  | nil =>
    obtain ⟨fuel, rfl⟩ : ∃ m, fuel = m + 1 := ⟨fuel - 1, by lia⟩
    have linked := arranged.linked none
    rw [source] at linked
    have count : (s.page src).bp 0 = 2 * l.length := linked.1.count
    rw [Hashp.uglyLoop, if_neg (by lia)]
    obtain ⟨freed, calm⟩ := arranged.free source (s.page src)
    rw [s.setPage_self] at freed calm
    refine ⟨_, freed, calm, Function.update_self .., ?_, ?_,
      fun bucket _ _ => Function.update_of_ne (by simp) ..⟩
    · rw [Function.update_of_ne (by simp)]
      exact (List.append_nil _).symm
    · rw [Function.update_of_ne (by simp)]
      exact (List.append_nil _).symm
  | cons node rest ih =>
    obtain ⟨next, l'⟩ := node
    obtain ⟨fuel, rfl⟩ : ∃ m, fuel = m + 1 := ⟨fuel - 1, by lia⟩
    have linked := arranged.linked none
    rw [source] at linked
    obtain ⟨inside, small, link, address⟩ := HashPage.Holds.at_link linked.1 at_
    have got :=
      @Linked.getOvfl_setPage s src l [] rest next l' ((s.page src).cleanUp (moved + 2) copyto)
      linked
    obtain ⟨freed, calm⟩ := arranged.free source ((s.page src).cleanUp (moved + 2) copyto)
    rw [Hashp.uglyLoop, if_pos inside, if_neg small, if_pos link]
    simp only [address, got]
    have keeps : ∀ bucket, Function.update f none ((next, l') :: rest) (some bucket) =
        f (some bucket) :=
      fun bucket => Function.update_of_ne (by simp) ..
    refine (freed.empty_next differ (Function.update_self ..) (by rw [keeps]; exact oldEnds)
      (by rw [keeps]; exact newEnds)).bind ?_
    rintro ⟨t, n', old', new'⟩ ⟨place, g, spread⟩
    have source' : g none = (next, l') :: rest := by
      rw [spread.others none (by simp) (by simp), Function.update_self]
    refine (ih spread.arranged source' spread.oldEnds spread.newEnds place.symm
      (by rw [List.length_cons] at enough; lia)).mono ?_ fun _ => id
    rintro u ⟨h, emptied⟩
    refine ⟨h, emptied.arranged, (calm.trans spread.calm).trans emptied.calm, emptied.loose, ?_, ?_,
      ?_⟩
    · rw [emptied.stay, spread.stay, keeps, List.append_assoc, ← staying_append, Nodes.pairs_cons]
    · rw [emptied.move, spread.move, keeps, List.append_assoc, ← moving_append, Nodes.pairs_cons]
    · intro bucket other other'
      rw [emptied.others bucket other other',
        spread.others _ (by simpa using other) (by simpa using other'), keeps]

end Ugly

section Split

theorem Hashp.setPage_twice (s : Hashp) {a : Nat} (p q p' : HashPage) (differ : a ≠ b) :
    ((s.setPage a p).setPage b q).setPage a p' = (s.setPage b q).setPage a p' := by
  simp only [Hashp.setPage, Hashp.setBuf, Function.update_of_ne differ,
    Function.update_of_ne differ.symm, Function.update_self]
  rw [Function.update_comm differ.symm, Function.update_idem, Function.update_comm differ]

/-- After the loop over the first page, from the state where both pages are written. -/
theorem Hashp.Arranged.splitFirst {v : SplitVars} (arranged : s.Arranged f) (differ : ob ≠ nb)
    (loose : f none = []) (oldChain : f (some ob) = (old, l) :: rest)
    (newChain : f (some nb) = [(new, [])]) (splits : v.Splits s.bsize stays l [] (s.linkOf rest))
    (apart : old ≠ new) :
    Ends (fun t => ∃ g, t.Arranged g ∧ s.Calm t ∧ g none = [] ∧
        (g (some ob)).pairs = staying stays (f (some ob)).pairs ∧
          (g (some nb)).pairs = moving stays (f (some ob)).pairs ∧
        ∀ bucket, bucket ≠ ob → bucket ≠ nb → g (some bucket) = f (some bucket)) (· = .failure)
      (let t := (s.setPage old v.old).setPage new v.new
        if (s.linkOf rest).isSome then
          Hashp.uglyLoop stays (t.made + 1) t old (v.old.bp 0 - 1) old new v.copyto v.moved none
        else .ok (t.setPage old (v.old.cleanUp v.moved v.copyto))) := by
  have small := arranged.sane.small
  have written := @Hashp.Arranged.setPage _ _ _ [] [] _ _ _ (moving stays l) arranged newChain
    splits.new
  have oldChain' : Function.update f (some nb) ([] ++ (new, moving stays l) :: []) (some ob) =
      (old, l) :: rest := by
    rw [Function.update_of_ne (by simpa using differ)]
    exact oldChain
  have kept :
      ∀ bucket, bucket ≠ nb →
      Function.update f (some nb) ([] ++ (new, moving stays l) :: []) (some bucket) =
      f (some bucket) := fun bucket other => Function.update_of_ne (by simpa using other) ..
  cases rest with
  | nil =>
    rw [if_neg (by simp [Hashp.linkOf]), Hashp.setPage_twice _ _ _ _ apart]
    have cleaned := @Hashp.Arranged.setPage _ _ _ [] [] _ _ _ (staying stays l) written oldChain'
      (splits.cleanUp small v.moved rfl)
    refine ⟨_, cleaned, ⟨rfl, rfl, rfl, rfl, rfl, rfl, rfl, rfl⟩, ?_, ?_, ?_, ?_⟩
    · rw [Function.update_of_ne (by simp), Function.update_of_ne (by simp), loose]
    · rw [Function.update_self, oldChain]
      simp [Nodes.pairs]
    · rw [Function.update_of_ne (by simpa using differ.symm), Function.update_self, oldChain]
      simp [Nodes.pairs]
    · intro bucket other other'
      rw [Function.update_of_ne (by simpa using other), kept bucket other']
  | cons node rest =>
    obtain ⟨next, l'⟩ := node
    have linked := arranged.linked (some ob)
    rw [oldChain] at linked
    have link : s.linkOf ((next, l') :: rest) = some (s.bufs next).addr := rfl
    rw [link] at splits
    have cut := written.cut oldChain' (splits.cleanUp small (v.moved + 2) rfl)
    have count := splits.count
    simp only [List.length_nil, Nat.add_zero, Option.toList_some, List.length_singleton] at count
    obtain ⟨first, second⟩ : v.old.bp (2 * l.length + 1) = (s.bufs next).addr ∧
        v.old.bp (2 * l.length + 1 + 1) = OVFLPAGE :=
      splits.linked _ rfl
    have page : ((s.setPage old v.old).setPage new v.new).page old = v.old := by
      rw [Hashp.page, Hashp.setPage_other _ _ apart]
      exact s.setPage_page old v.old
    have big : ¬ (v.old.bp 2 < REAL_KEY ∧ v.old.bp 2 ≠ OVFLPAGE) := by
      rintro ⟨low, other⟩
      by_cases empty : l = []
      · subst empty
        exact other second
      · have := splits.real (by simpa using empty)
        lia
    obtain ⟨g, chains⟩ : ∃ g, g = Function.update (Function.update (Function.update f (some nb)
        ([] ++ (new, moving stays l) :: [])) (some ob) [(old, staying stays l)]) none ((next, l') ::
          rest) := ⟨_, rfl⟩
    have source : g none = (next, l') :: rest := by rw [chains, Function.update_self]
    have stayed : g (some ob) = [] ++ [(old, staying stays l)] := by
      rw [chains, Function.update_of_ne (by simp), Function.update_self]
      rfl
    have moved : g (some nb) = [] ++ [(new, moving stays l)] := by
      rw [chains, Function.update_of_ne (by simp),
        Function.update_of_ne (by simpa using differ.symm), Function.update_self]
    have others : ∀ bucket, bucket ≠ ob → bucket ≠ nb → g (some bucket) = f (some bucket) := by
      intro bucket other other'
      rw [chains, Function.update_of_ne (by simp), Function.update_of_ne (by simpa using other),
        kept bucket other']
    rw [← chains] at cut
    have again := written.linked (some ob)
    rw [oldChain'] at again
    have got :=
      @Linked.getOvfl_setPage _ old l [] rest next l' (v.old.cleanUp (v.moved + 2) v.copyto) again
    rw [(s.setPage_fields new v.new next).1] at got
    have enough : rest.length + 2 ≤ s.made := by
      have := arranged.indexed.length_le (some ob)
      simpa only [oldChain, Nodes.ids, List.length_map, List.length_cons] using this
    simp only [link, Option.isSome_some, if_true]
    rw [Hashp.uglyLoop, page, show v.old.bp 0 - 1 = 2 * l.length + 1 by lia, if_pos (by lia),
      if_neg big, if_pos second, first, Hashp.setPage_twice _ _ _ _ apart]
    simp only [got]
    refine (cut.empty_next differ source ⟨_, _, stayed⟩ ⟨_, _, moved⟩).bind ?_
    rintro ⟨t, n', old', new'⟩ ⟨place, h, spread⟩
    have source' : h none = (next, l') :: rest := by
      rw [spread.others none (by simp) (by simp), source]
    refine (spread.arranged.uglyRest differ source' spread.oldEnds spread.newEnds place.symm
      (by change rest.length < s.made; lia)).mono ?_ fun _ => id
    rintro u ⟨h', emptied⟩
    have calm : s.Calm ((s.setPage new v.new).setPage old (v.old.cleanUp (v.moved + 2) v.copyto)) :=
      ⟨rfl, rfl, rfl, rfl, rfl, rfl, rfl, rfl⟩
    refine ⟨h', emptied.arranged, (calm.trans spread.calm).trans emptied.calm, emptied.loose, ?_,
      ?_, ?_⟩
    · rw [emptied.stay, spread.stay, stayed, oldChain, Nodes.pairs_cons, Nodes.pairs_cons,
        staying_append, staying_append]
      simp [Nodes.pairs]
    · rw [emptied.move, spread.move, moved, oldChain, Nodes.pairs_cons, Nodes.pairs_cons,
        moving_append, moving_append]
      simp [Nodes.pairs]
    · intro bucket other other'
      rw [emptied.others bucket other other',
        spread.others _ (by simpa using other) (by simpa using other'), others bucket other other']

theorem not_slips_nil : ¬ Slips stays [] := by
  rintro ⟨front, pair, back, none, -⟩
  simp at none

theorem Hashp.Arranged.splitPage (arranged : s.Arranged f) (differ : ob ≠ nb) (loose : f none = [])
    (newEmpty : f (some nb) = []) (unique : ((f (some ob)).pairs.map Prod.fst).Nodup)
    (careful : ∀ b l rest, f (some ob) = (b, l) :: rest →
      ¬ Slips (fun key => s.callHash key == ob) l) :
    Ends (fun t => ∃ g, t.Arranged g ∧ s.Calm t ∧ g none = [] ∧
        (g (some ob)).pairs = staying (fun key => s.callHash key == ob) (f (some ob)).pairs ∧
        (g (some nb)).pairs = moving (fun key => s.callHash key == ob) (f (some ob)).pairs ∧
        ∀ bucket, bucket ≠ ob → bucket ≠ nb → g (some bucket) = f (some bucket)) (· = .failure)
      (s.splitPage ob nb) := by
  obtain ⟨f₁, l, rest, arranged₁, calm₁, chain₁, others₁, known₁⟩ := arranged.getBucket ob
  obtain ⟨⟨s₁, old⟩, got₁⟩ : ∃ r, s.getBucket ob = r := ⟨_, rfl⟩
  simp only [got₁] at arranged₁ calm₁ chain₁
  obtain ⟨f₂, l', rest', arranged₂, calm₂, chain₂, others₂, known₂⟩ := arranged₁.getBucket nb
  obtain ⟨⟨s₂, new⟩, got₂⟩ : ∃ r, s₁.getBucket nb = r := ⟨_, rfl⟩
  simp only [got₂] at arranged₂ calm₂ chain₂
  have calm := calm₁.trans calm₂
  have oldChain : f₂ (some ob) = (old, l) :: rest := by
    rw [others₂ _ (by simpa using differ), chain₁]
  have newChain : f₂ (some nb) = [(new, [])] := by
    have none : f₁ (some nb) = [] := by rw [others₁ _ (by simpa using differ.symm), newEmpty]
    rcases known₂ with ⟨-, rfl, rfl⟩ | same
    · exact chain₂
    · rw [chain₂, none] at same
      cases same
  have apart : old ≠ new := by
    rintro rfl
    have := arranged₂.indexed.apart (some ob) (some nb) old (by simp [oldChain, Nodes.ids])
      (by simp [newChain, Nodes.ids])
    exact differ (by simpa using this)
  have pairs : Nodes.pairs ((old, l) :: rest) = (f (some ob)).pairs := by
    rcases known₁ with ⟨none, rfl, rfl⟩ | same
    · rw [none]
      rfl
    · rw [← same, chain₁]
  have quiet : ¬ Slips (fun key => s.callHash key == ob) l := by
    rcases known₁ with ⟨-, rfl, -⟩ | same
    · exact not_slips_nil
    · exact careful old l rest (by rw [← same, chain₁])
  have own : (l.map Prod.fst).Nodup := by
    rw [← pairs, Nodes.pairs_cons, List.map_append, List.nodup_append] at unique
    exact unique.1
  have stays : (fun key => s₂.callHash key == ob) = fun key => s.callHash key == ob := by
    funext key
    rw [calm.callHash]
  have linkedOld := arranged₂.linked (some ob)
  have linkedNew := arranged₂.linked (some nb)
  rw [oldChain] at linkedOld
  rw [newChain] at linkedNew
  have small := arranged₂.sane.small
  have count := linkedOld.1.count
  obtain ⟨v, looped, splits⟩ := @SplitVars.Splits.loop _ 1 (fun key => s.callHash key == ob) _ _ _ _
    ((s₂.page old).bp 0 + 1) (.start linkedOld.1 linkedNew.1) small rfl (by omega) own quiet
  rw [List.nil_append] at splits
  have done := arranged₂.splitFirst differ
    (by rw [others₂ none (by simp), others₁ none (by simp), loose]) oldChain newChain splits apart
  simp only [Hashp.splitPage, got₁, got₂, stays, Nat.mod_eq_of_lt small, looped]
  refine done.mono ?_ fun _ => id
  rintro t ⟨g, arranged', calm', loose', stay, move, others⟩
  refine ⟨g, arranged', calm.trans calm', loose', ?_, ?_, ?_⟩
  · rw [stay, oldChain, pairs]
  · rw [move, oldChain, pairs]
  · intro bucket other other'
    rw [others bucket other other', others₂ _ (by simpa using other'),
      others₁ _ (by simpa using other)]

end Split

end FreeBsd.Db
