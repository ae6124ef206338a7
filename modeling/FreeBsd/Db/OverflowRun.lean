import FreeBsd.Db.Overflow

/-! Overflow chains and the free list over any calls. -/
namespace FreeBsd.Db.Overflow

open FreeBsd.Lib

variable {t t' : Tree} {pg n plen : Nat} {data : Bytes} {ps out fl : List Nat}

section Stored

def Page.Starts (h : Page) (piece : Bytes) : Prop := ∀ i < piece.length, some (h.data i) = piece[i]?

/-- The pages have the data in pieces of `plen` bytes. -/
inductive Stored (plen : Nat) (pages : Nat → Page) : Nat → Bytes → List Nat → Prop where
  | last {pg : Nat} {data : Bytes} : data.length ≤ plen → (pages pg).pgno = pg →
    (pages pg).Starts data →
      Stored plen pages pg data [pg]
  | more {pg : Nat} {data : Bytes} {ps : List Nat} : plen < data.length → (pages pg).pgno = pg →
      (pages pg).Starts (data.take plen) → Stored plen pages (pages pg).nextpg (data.drop plen) ps →
      Stored plen pages pg data (pg :: ps)

structure Page.Like (h h' : Page) : Prop where
  pgno : h'.pgno = h.pgno
  nextpg : h'.nextpg = h.nextpg
  data : h'.data = h.data

theorem Stored.congr {pages pages' : Nat → Page} (stored : Stored plen pages pg data ps)
    (same : ∀ n ∈ ps, (pages n).Like (pages' n)) : Stored plen pages' pg data ps := by
  induction stored with
  | @last pg data short named starts =>
    have like := same pg (List.mem_singleton_self pg)
    refine .last short (like.pgno.trans named) ?_
    unfold Page.Starts
    rw [like.data]
    exact starts
  | @more pg data ps long named starts rest ih =>
    have like := same pg List.mem_cons_self
    refine .more long (like.pgno.trans named) ?_ ?_
    · unfold Page.Starts
      rw [like.data]
      exact starts
    · rw [like.nextpg]
      exact ih fun n member => same n (List.mem_cons_of_mem _ member)

theorem Stored.head {pages : Nat → Page} (stored : Stored plen pages pg data ps) : pg ∈ ps := by
  cases stored with
  | last => exact List.mem_singleton_self pg
  | more => exact List.mem_cons_self

theorem Stored.linked (stored : Stored t.plen t.pages pg data ps) (positive : 0 < t.plen) :
    t.pagesOf ⟨pg, data⟩ = ps := by
  unfold Tree.pagesOf
  induction stored with
  | @last pg data short named starts =>
    have one : (data.length - 1) / t.plen = 0 := Nat.div_eq_of_lt (by lia)
    rw [one]
    rfl
  | @more pg data ps long named starts rest ih =>
    dsimp only at ih ⊢
    rw [List.length_drop] at ih
    have count : (data.length - 1) / t.plen = (data.length - t.plen - 1) / t.plen + 1 := by
      have whole : data.length - 1 = data.length - t.plen - 1 + t.plen := by lia
      rw [whole, Nat.add_div_right _ positive]
    rw [count, Tree.linked, ih]

theorem starts_map {h : Page} {piece : Bytes} (starts : h.Starts piece) :
    (List.range piece.length).map h.data = piece := by
  refine List.ext_getElem (by simp) fun i inside inside' => ?_
  have here := starts i inside'
  rw [List.getElem?_eq_getElem inside'] at here
  rw [List.getElem_map, List.getElem_range]
  exact Option.some.inj here

theorem Stored.get {fuel : Nat} (stored : Stored t.plen t.pages pg data ps) (positive : 0 < t.plen)
    (made : ∀ n ∈ ps, n < t.npages) (enough : data.length < fuel) : t.getLoop fuel pg data.length =
      .ok data := by
  induction stored generalizing fuel with
  | @last pg data short named starts =>
    obtain ⟨fuel, rfl⟩ := Nat.exists_eq_succ_of_ne_zero (show fuel ≠ 0 by lia)
    have here := made pg (List.mem_singleton_self pg)
    rw [Tree.getLoop, Tree.mpoolGet, if_neg (by lia)]
    simp only [bind, Except.bind]
    rw [Nat.min_eq_left short, Nat.sub_self, if_pos rfl, starts_map starts]
  | @more pg data ps long named starts rest ih =>
    obtain ⟨fuel, rfl⟩ := Nat.exists_eq_succ_of_ne_zero (show fuel ≠ 0 by lia)
    have here := made pg List.mem_cons_self
    have later := @ih fuel (fun n member => made n (List.mem_cons_of_mem _ member))
      (by rw [List.length_drop]; lia)
    have piece := starts_map starts
    rw [List.length_drop] at later
    rw [List.length_take, Nat.min_eq_left (by lia)] at piece
    rw [Tree.getLoop, Tree.mpoolGet, if_neg (by lia)]
    simp only [bind, Except.bind]
    rw [Nat.min_eq_right (by lia), if_neg (by lia), later, piece]
    simp only [List.take_append_drop]

end Stored

section Pool

/-- The free list, and the pages that have been handed out and are not free. -/
structure Pool (t : Tree) (out fl : List Nat) : Prop where
  header : 0 < t.npages
  free : Threads (fun n => (t.pages n).nextpg) t.free fl
  apart : (out ++ fl).Nodup
  made : ∀ n ∈ out ++ fl, 0 < n ∧ n < t.npages
  handed : ∀ n, n ∈ t.handed ↔ n ∈ out ++ fl

theorem Pool.perm {out' : List Nat} (pool : Pool t out fl) (same : out.Perm out') :
    Pool t out' fl where
  header := pool.header
  free := pool.free
  apart := (same.append_right fl).nodup_iff.mp pool.apart
  made := fun n member => pool.made n ((same.append_right fl).mem_iff.mpr member)
  handed := fun n => (pool.handed n).trans (same.append_right fl).mem_iff

theorem Pool.setPage (pool : Pool t out fl) (member : n ∈ out) (h : Page) :
    Pool (t.setPage n h) out fl where
  header := pool.header
  free := by
    refine pool.free.congr fun m free => ?_
    have other :
      m ≠ n := fun same => (List.nodup_append.mp pool.apart).2.2 n member m free same.symm
    change (Function.update t.pages n h m).nextpg = _
    rw [Function.update_of_ne other]
  apart := pool.apart
  made := pool.made
  handed := pool.handed

theorem Pool.new (pool : Pool t out fl) :
    ∃ fl', Pool t.btNew.1 (t.btNew.2 :: out) fl' ∧ t.btNew.1.pages = t.pages ∧
      t.btNew.1.psize = t.psize := by
  unfold Tree.btNew
  by_cases free : t.free ≠ P_INVALID ∧ t.free < t.npages
  · rw [if_pos free]
    obtain ⟨rest, rfl, threads⟩ := pool.free.pop free.1
    have moved : (out ++ t.free :: rest).Perm (t.free :: out ++ rest) := List.perm_middle
    refine ⟨rest, ⟨pool.header, threads, moved.nodup_iff.mp pool.apart, ?_, ?_⟩, rfl, rfl⟩
    · exact fun n member => pool.made n (moved.mem_iff.mpr member)
    · intro n
      change n ∈ t.free :: t.handed ↔ _
      rw [List.mem_cons, pool.handed n, moved.mem_iff]
      exact or_iff_right_of_imp fun same => same ▸ List.mem_cons_self
  · rw [if_neg free]
    have none : fl = [] := by
      rcases fl with _ | ⟨a, rest⟩
      · rfl
      · have head := pool.free.head_eq
        have last := pool.made a (by simp)
        exact absurd ⟨by rw [head]; exact Nat.ne_of_gt last.1, by rw [head]; exact last.2⟩ free
    subst none
    have fresh : t.npages ∉ out ++ [] := fun member => Nat.lt_irrefl _ (pool.made _ member).2
    refine ⟨[], ⟨Nat.succ_pos _, pool.free, List.nodup_cons.mpr ⟨fresh, pool.apart⟩, ?_, ?_⟩, rfl,
      rfl⟩
    · intro n member
      rcases List.mem_cons.mp member with rfl | old
      · exact ⟨pool.header, Nat.lt_succ_self _⟩
      · exact ⟨(pool.made n old).1, Nat.lt_succ_of_lt (pool.made n old).2⟩
    · intro n
      change n ∈ t.npages :: t.handed ↔ n ∈ t.npages :: (out ++ [])
      rw [List.mem_cons, List.mem_cons, pool.handed n]

theorem Pool.btFree (pool : Pool t (n :: out) fl) (named : (t.pages n).pgno = n) :
    Pool (t.btFree n) out (n :: fl) := by
  have moved : (n :: out ++ fl).Perm (out ++ n :: fl) := List.perm_middle.symm
  have fresh :
    n ∉ fl := fun member => (List.nodup_append.mp pool.apart).2.2 n List.mem_cons_self n member rfl
  refine ⟨pool.header, ?_, moved.nodup_iff.mp pool.apart, ?_, ?_⟩
  · have threads := pool.free.push fresh (Nat.ne_of_gt (pool.made n (by simp)).1)
    unfold Tree.btFree
    rw [named]
    refine threads.congr fun m _ => ?_
    change (Function.update t.pages n _ m).nextpg =
      Function.update (fun n => (t.pages n).nextpg) n t.free m
    by_cases same : m = n
    · rw [same, Function.update_self, Function.update_self]
    · rw [Function.update_of_ne same, Function.update_of_ne same]
  · exact fun m member => pool.made m (moved.mem_iff.mpr member)
  · exact fun m => (pool.handed m).trans moved.mem_iff

end Pool

section Loops

variable {fuel : Nat} {p : Bytes} {last : Option Nat}

theorem btFree_other (t : Tree) {m : Nat} (other : m ≠ n) : (t.btFree n).pages m = t.pages m :=
  Function.update_of_ne other ..

theorem Stored.delete (stored : Stored t.plen t.pages pg data ps) (pool : Pool t (ps ++ out) fl)
    (positive : 0 < t.plen) (enough : data.length < fuel) :
    ∃ t', t.deleteLoop fuel pg data.length = .ok t' ∧ Pool t' out (ps.reverse ++ fl) ∧
      t'.psize = t.psize ∧
      ∀ n ∉ ps, t'.pages n = t.pages n := by
  induction fuel generalizing t pg data ps fl with
  | zero => lia
  | succ fuel ih =>
    cases stored with
    | last short named starts =>
      refine ⟨t.btFree pg, ?_, pool.btFree named, rfl, fun n other => ?_⟩
      · have size : (t.btFree pg).plen = t.plen := rfl
        rw [Tree.deleteLoop, size, if_pos short]
      · exact btFree_other t fun same => other (same ▸ List.mem_singleton_self pg)
    | @more _ _ ps long named starts rest =>
      have size : (t.btFree pg).plen = t.plen := rfl
      have freed : Pool (t.btFree pg) (ps ++ out) (pg :: fl) := Pool.btFree pool named
      have apart : pg ∉ ps := fun member =>
        (List.nodup_cons.mp pool.apart).1 (List.mem_append_left _ (List.mem_append_left _ member))
      have below := (freed.made _ (List.mem_append_left _ (List.mem_append_left _ rest.head))).2
      have kept :
          Stored (t.btFree pg).plen (t.btFree pg).pages (t.pages pg).nextpg (data.drop t.plen)
          ps := by
        rw [size]
        refine rest.congr fun n member => ?_
        rw [btFree_other t fun same : n = pg => apart (same ▸ member)]
        exact ⟨rfl, rfl, rfl⟩
      obtain ⟨t', run, pool', psize, same⟩ := ih kept freed positive (by rw [List.length_drop]; lia)
      rw [List.length_drop] at run
      refine ⟨t', ?_, ?_, psize, fun n other => ?_⟩
      · rw [Tree.deleteLoop]
        simp only [bind, Except.bind]
        rw [size, if_neg (by lia), Tree.mpoolGet, if_neg (by lia)]
        exact run
      · rw [List.reverse_cons, List.append_assoc]
        exact pool'
      · rw [List.mem_cons, not_or] at other
        rw [same n other.2, btFree_other t other.1]

/-- What `__ovfl_put` does from `t` on: it stores the data in pages that were not in use, and links
the last page to them. -/
structure Put (t t' : Tree) (out : List Nat) (last : Option Nat) (head : Nat) (p : Bytes)
    (ps fl : List Nat) : Prop where
  stored : Stored t.plen t'.pages head p ps
  pool : Pool t' (ps ++ out) fl
  psize : t'.psize = t.psize
  linked : ∀ l, last = some l → t'.pages l = { t.pages l with nextpg := head }
  kept : ∀ n, n ∉ ps → last ≠ some n → t'.pages n = t.pages n

theorem Pool.link (pool : Pool t out fl) (member : ∀ l, last = some l → l ∈ out) (n : Nat) :
    Pool (t.link last n) out fl := by
  cases last with
  | none => exact pool
  | some l => exact pool.setPage (member l rfl) _

theorem link_other {m : Nat} (other : last ≠ some m) : (t.link last n).pages m = t.pages m := by
  cases last with
  | none => rfl
  | some l => exact Function.update_of_ne (fun same => other (by rw [same])) ..

theorem link_plen (t : Tree) (last : Option Nat) (n : Nat) : (t.link last n).plen = t.plen ∧
    (t.link last n).psize = t.psize := by
  cases last <;> exact ⟨rfl, rfl⟩

theorem starts_memmove (h : Page) (old : Nat → UInt8) (p : Bytes) :
    ({ h with data := memmove old p } : Page).Starts p := by
  intro i inside
  change some (p[i]?.getD (old i)) = p[i]?
  rw [List.getElem?_eq_getElem inside]
  rfl

theorem putLoop_spec (pool : Pool t out fl) (member : ∀ l, last = some l → l ∈ out)
    (enough : p.length < fuel) (positive : 0 < t.plen) :
    ∃ t' head ps fl', t.putLoop fuel last p pg = .ok (t', if last.isSome then pg else head) ∧
      Put t t' out last head p ps fl' := by
  induction fuel generalizing t out fl last p pg with
  | zero => lia
  | succ fuel ih =>
    obtain ⟨fl1, pool1, pages1, size1⟩ := pool.new
    rw [Tree.putLoop]
    generalize t.btNew = made at pool1 pages1 size1 ⊢
    obtain ⟨t1, n⟩ := made
    dsimp only at pool1 pages1 size1 ⊢
    have fresh :
      n ∉ out := fun inside => (List.nodup_cons.mp pool1.apart).1 (List.mem_append_left _ inside)
    have plen1 : t1.plen = t.plen := by rw [Tree.plen, size1, Tree.plen]
    rw [plen1]
    generalize content : (Page.mk n P_INVALID P_INVALID P_OVERFLOW
      (memmove (t1.pages n).data (p.take (min p.length t.plen)))) = h
    have starts : h.Starts (p.take (min p.length t.plen)) := by
      rw [← content]
      exact starts_memmove ⟨n, P_INVALID, P_INVALID, P_OVERFLOW, (t1.pages n).data⟩ _ _
    have named : h.pgno = n := by rw [← content]
    have pool2 := (pool1.setPage List.mem_cons_self h).link
      (fun l is => List.mem_cons_of_mem n (member l is)) n
    have lastOther : last ≠ some n := fun is => fresh (member n is)
    have page : ((t1.setPage n h).link last n).pages n = h := by
      rw [link_other lastOther]
      exact Function.update_self ..
    have before : ∀ l, last = some l →
        ((t1.setPage n h).link last n).pages l = { t.pages l with nextpg := n } := by
      rintro l rfl
      have other : l ≠ n := fun same => lastOther (by rw [same])
      change Function.update _ l _ l = _
      rw [Function.update_self]
      change ({ Function.update t1.pages n h l with
        nextpg := (Function.update t1.pages n h n).pgno } : Page) = _
      rw [Function.update_of_ne other, Function.update_self, named, pages1]
    have others : ∀ m, m ≠ n → last ≠ some m →
      ((t1.setPage n h).link last n).pages m = t.pages m := by
      intro m other notLast
      rw [link_other notLast, ← pages1]
      exact Function.update_of_ne other ..
    obtain ⟨plen2, size2⟩ := link_plen (t1.setPage n h) last n
    change _ = t1.plen at plen2
    rw [plen1] at plen2
    generalize (t1.setPage n h).link last n = t2 at pool2 page before others plen2 size2 ⊢
    rw [page, named]
    by_cases done : p.length - min p.length t.plen = 0
    · rw [if_pos done]
      have short : p.length ≤ t.plen := by lia
      rw [Nat.min_eq_left short, List.take_length] at starts
      refine ⟨t2, n, [n], fl1, rfl, ⟨.last short (by rw [page, named]) (by rw [page]; exact starts),
        pool2, size2.trans size1, before, ?_⟩⟩
      exact fun m other notLast => others m (fun same => other (same ▸ List.mem_singleton_self n))
        notLast
    · rw [if_neg done]
      have long : t.plen < p.length := by lia
      rw [Nat.min_eq_right (Nat.le_of_lt long)] at starts
      obtain ⟨t', head, ps, fl', run, stored, pool', psize, linked, kept⟩ :=
        @ih t2 (if last.isSome then pg else n)
          (n :: out) fl1 (p.drop t.plen) (some n) pool2
          (fun l is => Option.some.inj is ▸ List.mem_cons_self)
        (by rw [List.length_drop]; lia) (by rw [plen2]; exact positive)
      have moved : (ps ++ n :: out).Perm (n :: ps ++ out) := List.perm_middle
      have apart := (List.nodup_append.mp (List.nodup_append.mp pool'.apart).1).2.2
      have here := linked n rfl
      rw [page] at here
      rw [plen2] at stored ⊢
      refine ⟨t', n, n :: ps, fl', run, ⟨.more long ?_ ?_ ?_, pool'.perm moved,
        psize.trans (size2.trans size1), ?_, ?_⟩⟩
      · rw [here, ← named]
      · rw [here]
        exact starts
      · rw [here]
        exact stored
      · intro l is
        have outside : l ∈ n :: out := List.mem_cons_of_mem n (member l is)
        have other : l ≠ n := fun same => lastOther (same ▸ is)
        rw [kept l (fun inside => apart l inside l outside rfl) fun same =>
          other (Option.some.inj same).symm, before l is]
      · intro m other notLast
        rw [List.mem_cons, not_or] at other
        rw [kept m other.2 fun same => other.1 (Option.some.inj same).symm,
          others m other.1 notLast]

end Loops

section Calls

variable {s s' : Sys} {c : Chain} {h : Page}

def Sys.chained (s : Sys) : List Nat := s.live.flatMap s.t.pagesOf

structure Sys.Good (s : Sys) (fl : List Nat) : Prop where
  size : 0 < s.t.plen
  pool : Pool s.t (s.chained ++ s.used) fl
  live : ∀ c ∈ s.live, Stored s.t.plen s.t.pages c.pg c.data (s.t.pagesOf c)
  named : ∀ n ∈ s.used, (s.t.pages n).pgno = n

theorem mem_chained (member : c ∈ s.live) {n : Nat} (inside : n ∈ s.t.pagesOf c) : n ∈ s.chained :=
  List.mem_flatMap.mpr ⟨c, member, inside⟩

theorem Sys.Good.other (good : s.Good fl) {m : Nat} (used : m ∈ s.used) :
    n ∈ s.chained → n ≠ m := by
  intro inside
  exact (List.nodup_append.mp (List.nodup_append.mp good.pool.apart).1).2.2 n inside m used

theorem kept_chain {t t' : Tree} (stored : Stored t.plen t.pages c.pg c.data (t.pagesOf c))
    (positive : 0 < t.plen) (plen : t'.plen = t.plen)
    (same : ∀ n ∈ t.pagesOf c, (t.pages n).Like (t'.pages n)) :
    Stored t'.plen t'.pages c.pg c.data (t'.pagesOf c) ∧ t'.pagesOf c = t.pagesOf c := by
  have kept := stored.congr same
  rw [← plen] at kept
  have pages := kept.linked (by rw [plen]; exact positive)
  exact ⟨by rw [pages]; exact kept, pages⟩

theorem kept_chains {t t' : Tree} {live : List Chain}
    (stored : ∀ c ∈ live, Stored t.plen t.pages c.pg c.data (t.pagesOf c)) (positive : 0 < t.plen)
    (plen : t'.plen = t.plen)
    (same : ∀ c ∈ live, ∀ n ∈ t.pagesOf c, (t.pages n).Like (t'.pages n)) :
    (∀ c ∈ live, Stored t'.plen t'.pages c.pg c.data (t'.pagesOf c)) ∧
      live.flatMap t'.pagesOf = live.flatMap t.pagesOf := by
  constructor
  · exact fun c member => (kept_chain (stored c member) positive plen (same c member)).1
  · rw [List.flatMap, List.flatMap,
      List.map_congr_left fun c member =>
      (kept_chain (stored c member) positive plen (same c member)).2]

theorem like_of_eq {h h' : Page} (same : h' = h) : h.Like h' := by
  rw [same]
  exact ⟨rfl, rfl, rfl⟩

theorem chain_mem (found : s.chain n = .ok c) : c ∈ s.live := by
  rw [Sys.chain] at found
  split at found
  · rename_i here
    cases found
    exact List.mem_of_find?_eq_some here
  · cases found

theorem Sys.Good.get (good : s.Good fl) (member : c ∈ s.live) :
    s.t.ovflGet c.pg c.data.length = .ok c.data := by
  refine (good.live c member).get good.size (fun n inside => ?_) (Nat.lt_succ_self _)
  exact (good.pool.made n (List.mem_append_left _ (List.mem_append_left _
    (mem_chained member inside)))).2

theorem Sys.Good.put {dbt : Bytes} (good : s.Good fl) (call : s.Calls (.put dbt) s') :
    ∃ fl', s'.Good fl' := by
  obtain ⟨t', head, ps, fl', run, stored, pool, psize, -, kept⟩ :=
    @putLoop_spec s.t P_INVALID (s.chained ++ s.used) fl
      (dbt.length + 1) dbt none good.pool (by rintro l ⟨⟩) (Nat.lt_succ_self _) good.size
  have plen : t'.plen = s.t.plen := by rw [Tree.plen, psize, Tree.plen]
  unfold Sys.Calls Sys.step Tree.ovflPut at call
  simp only [bind, Except.bind] at call
  rw [run] at call
  cases call
  have apart := (List.nodup_append.mp (List.nodup_append.mp pool.apart).1).2.2
  have untouched : ∀ n ∈ s.chained ++ s.used, t'.pages n = s.t.pages n := fun n outside =>
    kept n (fun inside => apart n inside n outside rfl) (by rintro ⟨⟩)
  obtain ⟨live, chains⟩ := kept_chains good.live good.size plen fun c member n inside =>
    like_of_eq (untouched n (List.mem_append_left _ (mem_chained member inside)))
  rw [← plen] at stored
  have first : t'.pagesOf ⟨head, dbt⟩ = ps := stored.linked (by rw [plen]; exact good.size)
  have all : Sys.chained ⟨t', ⟨head, dbt⟩ :: s.live, s.used⟩ = ps ++ s.chained := by
    change List.flatMap t'.pagesOf (_ :: s.live) = _
    rw [List.flatMap_cons, first, chains]
    rfl
  refine ⟨fl', by rw [plen]; exact good.size, ?_, ?_, ?_⟩
  · change Pool t' (Sys.chained ⟨t', ⟨head, dbt⟩ :: s.live, s.used⟩ ++ s.used) fl'
    rw [all, List.append_assoc]
    exact pool
  · intro c member
    rcases List.mem_cons.mp member with rfl | old
    · change Stored t'.plen t'.pages head dbt (t'.pagesOf ⟨head, dbt⟩)
      rw [first]
      exact stored
    · exact live c old
  · intro n used
    change (t'.pages n).pgno = n
    rw [untouched n (List.mem_append_right _ used)]
    exact good.named n used

theorem chained_erase (member : c ∈ s.live) :
    s.chained.Perm (s.t.pagesOf c ++ (s.live.erase c).flatMap s.t.pagesOf) := by
  rw [Sys.chained, ← List.flatMap_cons]
  exact (List.perm_cons_erase member).flatMap_right _

theorem Sys.Good.delete {pg : Nat} (good : s.Good fl) (call : s.Calls (.delete pg) s') :
    ∃ fl', s'.Good fl' := by
  unfold Sys.Calls Sys.step at call
  simp only [bind, Except.bind] at call
  split at call
  · cases call
  rename_i c found
  have member := chain_mem found
  have stored := good.live c member
  have below :=
    (good.pool.made _ (List.mem_append_left _ (List.mem_append_left _
    (mem_chained member stored.head)))).2
  rw [Tree.ovflDelete, Tree.mpoolGet, if_neg (by omega)] at call
  simp only [bind, Except.bind] at call
  by_cases preserved : s.t.preserved c.pg = true
  · rw [if_pos preserved, if_pos preserved] at call
    cases call
    exact ⟨fl, good⟩
  · rw [if_neg preserved, if_neg preserved] at call
    have order :
        (s.chained ++ s.used).Perm
        (s.t.pagesOf c ++ ((s.live.erase c).flatMap s.t.pagesOf ++ s.used)) := by
      rw [← List.append_assoc]
      exact (chained_erase member).append_right _
    obtain ⟨t', run, pool, psize, kept⟩ :=
      stored.delete (good.pool.perm order) good.size (Nat.lt_succ_self _)
    have plen : t'.plen = s.t.plen := by rw [Tree.plen, psize, Tree.plen]
    rw [run] at call
    cases call
    have apart := (List.nodup_append.mp (List.nodup_append.mp (good.pool.perm order).apart).1).2.2
    have untouched : ∀ n ∈ (s.live.erase c).flatMap s.t.pagesOf ++ s.used, t'.pages n =
        s.t.pages n := fun n outside =>
      kept n fun inside => apart n inside n outside rfl
    obtain ⟨live, chains⟩ :=
      @kept_chains s.t t' (s.live.erase c)
        (fun c' member' => good.live c' (List.mem_of_mem_erase member'))
      good.size plen fun c' member' n inside =>
        like_of_eq (untouched n (List.mem_append_left _ (List.mem_flatMap.mpr ⟨c', member',
          inside⟩)))
    refine ⟨(s.t.pagesOf c).reverse ++ fl, ⟨by rw [plen]; exact good.size, ?_, live, ?_⟩⟩
    · change Pool t' ((s.live.erase c).flatMap t'.pagesOf ++ s.used) ((s.t.pagesOf c).reverse ++ fl)
      rw [chains]
      exact pool
    · intro n used
      change (t'.pages n).pgno = n
      rw [untouched n (List.mem_append_right _ used)]
      exact good.named n used

theorem Sys.Good.preserve {pg : Nat} (good : s.Good fl) (call : s.Calls (.preserve pg) s') :
    ∃ fl', s'.Good fl' := by
  unfold Sys.Calls Sys.step at call
  simp only [bind, Except.bind] at call
  split at call
  · cases call
  rename_i c found
  cases call
  have member := chain_mem found
  have inside := mem_chained member (good.live c member).head
  have size :
    (s.t.setPage c.pg { s.t.pages c.pg with flags := (s.t.pages c.pg).flags ||| P_PRESERVE }).plen =
    s.t.plen := rfl
  have like : ∀ n, (s.t.pages n).Like ((s.t.setPage c.pg
      { s.t.pages c.pg with flags := (s.t.pages c.pg).flags ||| P_PRESERVE }).pages n) := by
    intro n
    by_cases same : n = c.pg
    · subst same
      change (s.t.pages c.pg).Like (Function.update s.t.pages c.pg _ c.pg)
      rw [Function.update_self]
      exact ⟨rfl, rfl, rfl⟩
    · exact like_of_eq (Function.update_of_ne same ..)
  have pool := good.pool.setPage (List.mem_append_left _ inside)
    { s.t.pages c.pg with flags := (s.t.pages c.pg).flags ||| P_PRESERVE }
  generalize s.t.setPage c.pg
    { s.t.pages c.pg with flags := (s.t.pages c.pg).flags ||| P_PRESERVE } = t' at like pool size ⊢
  obtain ⟨live, chains⟩ := @kept_chains s.t t' s.live good.live good.size size fun c' _ n _ =>
    like n
  refine ⟨fl,
    ⟨by rw [size]; exact good.size, ?_, live, fun n used => (like n).pgno.trans (good.named n used)⟩⟩
  change Pool t' (s.live.flatMap t'.pagesOf ++ s.used) fl
  rw [chains]
  exact pool

theorem Sys.Good.fill (good : s.Good fl) (used : n ∈ s.used) (h : Page) : (s.fill n h).Good fl := by
  have others : ∀ m, m ≠ n → (s.t.setPage n { h with pgno := n }).pages m = s.t.pages m :=
    fun m other =>
    Function.update_of_ne other ..
  obtain ⟨live, chains⟩ := @kept_chains s.t (s.t.setPage n { h with pgno := n }) s.live good.live
    good.size rfl
    fun c member m inside => like_of_eq (others m (good.other used (mem_chained member inside)))
  refine ⟨good.size, ?_, live, fun m member => ?_⟩
  · change Pool (s.fill n h).t (s.live.flatMap (s.t.setPage n { h with pgno := n }).pagesOf ++
      s.used) fl
    rw [chains]
    exact good.pool.setPage (List.mem_append_right _ used) _
  · change (Function.update s.t.pages n _ m).pgno = m
    by_cases same : m = n
    · rw [same, Function.update_self]
    · rw [Function.update_of_ne same]
      exact good.named m member

theorem Sys.Good.write (good : s.Good fl) (call : s.Calls (.write n h) s') :
    ∃ fl', s'.Good fl' := by
  unfold Sys.Calls Sys.step at call
  dsimp only at call
  split at call
  · rename_i used
    cases call
    exact ⟨fl, good.fill used h⟩
  · cases call

theorem Sys.Good.new (good : s.Good fl) (call : s.Calls (.new h) s') : ∃ fl', s'.Good fl' := by
  unfold Sys.Calls Sys.step at call
  dsimp only at call
  obtain ⟨fl', pool, pages, psize⟩ := good.pool.new
  generalize s.t.btNew = made at call pool pages psize
  obtain ⟨t', n⟩ := made
  dsimp only at call pool pages psize
  cases call
  have plen : t'.plen = s.t.plen := by rw [Tree.plen, psize, Tree.plen]
  have fresh : n ∉ s.chained ++ s.used := fun inside =>
    (List.nodup_cons.mp pool.apart).1 (List.mem_append_left _ inside)
  have moved : (n :: (s.chained ++ s.used)).Perm (s.chained ++ n :: s.used) := List.perm_middle.symm
  have untouched : ∀ m ∈ s.chained ++ s.used, (t'.setPage n { h with pgno := n }).pages m =
    s.t.pages m := by
    intro m inside
    have other : m ≠ n := fun same => fresh (same ▸ inside)
    rw [← pages]
    exact Function.update_of_ne other ..
  have pool' := (pool.setPage List.mem_cons_self { h with pgno := n }).perm moved
  have plen' : (t'.setPage n { h with pgno := n }).plen = s.t.plen := plen
  obtain ⟨live, chains⟩ := @kept_chains s.t (t'.setPage n { h with pgno := n }) s.live good.live
    good.size plen'
    fun c member m inside =>
      like_of_eq (untouched m (List.mem_append_left _ (mem_chained member inside)))
  have positive : 0 < (t'.setPage n { h with pgno := n }).plen := by
    rw [plen']
    exact good.size
  refine ⟨fl', ⟨positive, ?_, live, fun m member => ?_⟩⟩
  · change Pool (t'.setPage n { h with pgno := n })
      (s.live.flatMap (t'.setPage n { h with pgno := n }).pagesOf ++ n :: s.used) fl'
    rw [chains]
    exact pool'
  · change ((t'.setPage n { h with pgno := n }).pages m).pgno = m
    rcases List.mem_cons.mp member with rfl | used
    · change (Function.update t'.pages m _ m).pgno = m
      rw [Function.update_self]
    · rw [untouched m (List.mem_append_right _ used)]
      exact good.named m used

theorem Sys.Good.free (good : s.Good fl) (call : s.Calls (.free n) s') : ∃ fl', s'.Good fl' := by
  unfold Sys.Calls Sys.step at call
  dsimp only at call
  split at call
  case isFalse => cases call
  rename_i used
  cases call
  have order : (s.chained ++ s.used).Perm (n :: (s.chained ++ s.used.erase n)) :=
    ((List.perm_cons_erase used).append_left _).trans List.perm_middle
  have ordered := good.pool.perm order
  have fresh : n ∉ s.chained ++ s.used.erase n := fun inside =>
    (List.nodup_cons.mp ordered.apart).1 (List.mem_append_left _ inside)
  have untouched : ∀ m ∈ s.chained ++ s.used.erase n, (s.t.btFree n).pages m = s.t.pages m :=
    fun m inside =>
    btFree_other s.t fun same => fresh (same ▸ inside)
  have pool := ordered.btFree (good.named n used)
  obtain ⟨live, chains⟩ := @kept_chains s.t (s.t.btFree n) s.live good.live good.size rfl
    fun c member m inside =>
      like_of_eq (untouched m (List.mem_append_left _ (mem_chained member inside)))
  refine ⟨n :: fl, ⟨good.size, ?_, live, fun m member => ?_⟩⟩
  · change Pool (s.t.btFree n) (s.live.flatMap (s.t.btFree n).pagesOf ++ s.used.erase n) (n :: fl)
    rw [chains]
    exact pool
  · change ((s.t.btFree n).pages m).pgno = m
    rw [untouched m (List.mem_append_right _ member)]
    exact good.named m (List.mem_of_mem_erase member)

theorem get_stays {pg : Nat} (call : s.Calls (.get pg) s') : s' = s := by
  unfold Sys.Calls Sys.step at call
  simp only [bind, Except.bind] at call
  split at call
  case h_1 => cases call
  split at call
  case h_1 => cases call
  cases call
  rfl

theorem Sys.Good.step {action : Action} (good : s.Good fl) (call : s.Calls action s') :
    ∃ fl', s'.Good fl' := by
  cases action with
  | put dbt => exact good.put call
  | get pg =>
    cases get_stays call
    exact ⟨fl, good⟩
  | delete pg => exact good.delete call
  | preserve pg => exact good.preserve call
  | new h => exact good.new call
  | write n h => exact good.write call
  | free n => exact good.free call

theorem chain_live {pg : Nat} (live : ∃ c ∈ s.live, c.pg = pg) :
    ∃ c, s.chain pg = .ok c ∧ c ∈ s.live := by
  obtain ⟨c, member, first⟩ := live
  have found : (s.live.find? (·.pg = pg)).isSome :=
    List.find?_isSome.mpr ⟨c, member, by simpa using first⟩
  obtain ⟨c', here⟩ := Option.isSome_iff_exists.mp found
  exact ⟨c', by rw [Sys.chain, here], List.mem_of_find?_eq_some here⟩

theorem Sys.Good.deletes (good : s.Good fl) (member : c ∈ s.live) :
    ∃ t', s.t.ovflDelete c.pg c.data.length = .ok t' := by
  have stored := good.live c member
  have below :=
    (good.pool.made _ (List.mem_append_left _ (List.mem_append_left _
    (mem_chained member stored.head)))).2
  rw [Tree.ovflDelete, Tree.mpoolGet, if_neg (by omega)]
  simp only [bind, Except.bind]
  by_cases preserved : s.t.preserved c.pg = true
  · exact ⟨s.t, if_pos preserved⟩
  · have order :
        (s.chained ++ s.used).Perm
        (s.t.pagesOf c ++ ((s.live.erase c).flatMap s.t.pagesOf ++ s.used)) := by
      rw [← List.append_assoc]
      exact (chained_erase member).append_right _
    obtain ⟨t', run, -⟩ := stored.delete (good.pool.perm order) good.size (Nat.lt_succ_self _)
    exact ⟨t', (if_neg preserved).trans run⟩

theorem Sys.Good.legal {action : Action} (good : s.Good fl) (legal : s.Legal action) :
    ∃ s', s.Calls action s' := by
  unfold Sys.Calls
  cases action with
  | put dbt =>
    obtain ⟨t', head, ps, fl', run, -⟩ :=
      @putLoop_spec s.t P_INVALID (s.chained ++ s.used) fl (dbt.length + 1) dbt none
      good.pool (by rintro l ⟨⟩) (Nat.lt_succ_self _) good.size
    unfold Sys.step Tree.ovflPut
    dsimp only
    rw [run]
    exact ⟨_, rfl⟩
  | get pg =>
    obtain ⟨c, found, member⟩ := chain_live legal
    unfold Sys.step
    dsimp only
    rw [found]
    simp only [bind, Except.bind]
    rw [good.get member]
    exact ⟨_, rfl⟩
  | delete pg =>
    obtain ⟨c, found, member⟩ := chain_live legal
    obtain ⟨t', deleted⟩ := good.deletes member
    unfold Sys.step
    dsimp only
    rw [found]
    simp only [bind, Except.bind]
    rw [deleted]
    exact ⟨_, rfl⟩
  | preserve pg =>
    obtain ⟨c, found, -⟩ := chain_live legal
    unfold Sys.step
    dsimp only
    rw [found]
    exact ⟨_, rfl⟩
  | new h => exact ⟨_, rfl⟩
  | write n h => exact ⟨_, if_pos legal⟩
  | free n => exact ⟨_, if_pos legal⟩

theorem start_good {psize npages : Nat} (pages : Nat → Page) (size : BTDATAOFF < psize)
    (header : 0 < npages) :
    (start psize npages pages).Good [] where
  size := Nat.sub_pos_of_lt size
  pool :=
    { header
      free := .nil
      apart := List.nodup_nil
      made := fun _ member => absurd member List.not_mem_nil
      handed := fun _ => Iff.rfl }
  live := fun _ member => absurd member List.not_mem_nil
  named := fun _ member => absurd member List.not_mem_nil

theorem Sys.Good.sound (good : s.Good fl) : s.Sound fl where
  read := fun _ member => good.get member
  threads := good.pool.free
  apart := good.pool.apart
  handed := good.pool.handed

/-- After any calls, chains and the free list share no page, and no page is lost. -/
theorem start_sound {psize npages : Nat} {pages : Nat → Page} {actions : List Action}
    (size : BTDATAOFF < psize) (header : 0 < npages)
    (run : Run Sys.Calls (start psize npages pages) actions s') :
    (∃ fl, s'.Sound fl) ∧ ∀ action, s'.Legal action → ∃ s'', s'.Calls action s'' := by
  have good : ∃ fl, s'.Good fl := by
    have every : ∀ action ∈ actions, True := fun _ _ => trivial
    refine run.invariant (P := fun s => ∃ fl, s.Good fl) ?_ every
      ⟨[], start_good pages size header⟩
    rintro s action s' - ⟨fl, good⟩ call
    exact good.step call
  obtain ⟨fl, good⟩ := good
  exact ⟨⟨fl, good.sound⟩, fun action legal => good.legal legal⟩

def blank (n : Nat) :
    Page := { pgno := n, prevpg := P_INVALID, nextpg := P_INVALID, flags := 0, data := fun _ => 0 }

theorem of_toOption {α : Type} {x : Except Fault α} {a : α} (is : x.toOption = some a) :
    x = .ok a := by
  cases x with
  | error fault => cases is
  | ok b =>
    cases is
    rfl

theorem start_sound_pieces : ∃ s', Run Sys.Calls (start 22 1 blank)
    [.put [1, 2, 3, 4, 5], .new (blank 0), .preserve 1, .delete 1, .put [6, 7], .delete 5,
      .put [8, 9, 10]] s' ∧
    (s'.live, s'.t.npages) = ([⟨5, [8, 9, 10]⟩, ⟨1, [1, 2, 3, 4, 5]⟩], 7) ∧
    (∃ fl, s'.Sound fl) ∧ ∀ action, s'.Legal action → ∃ s'', s'.Calls action s'' := by
  have replayed : (replay (fun s action => (s.step action).toOption) (start 22 1 blank)
      [.put [1, 2, 3, 4, 5], .new (blank 0), .preserve 1, .delete 1, .put [6, 7], .delete 5,
        .put [8, 9, 10]]).map
      (fun s => (s.live, s.t.npages)) = some ([⟨5, [8, 9, 10]⟩, ⟨1, [1, 2, 3, 4, 5]⟩], 7) := by
    decide +kernel
  obtain ⟨s', done, result⟩ := Option.map_eq_some_iff.mp replayed
  have sound (s : Sys) (action : Action) (t : Sys) (step : (s.step action).toOption = some t) :
      s.Calls action t :=
    of_toOption step
  have run := replay_run sound done
  exact ⟨s', run, result, start_sound (by decide) (by decide) run⟩

end Calls

end FreeBsd.Db.Overflow
