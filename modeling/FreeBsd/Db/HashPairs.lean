import Mathlib.Data.List.Induction
import FreeBsd.Db.HashTable

/-! The pairs of one page: what each operation on a page does to them. -/
namespace FreeBsd.Db

open FreeBsd.Lib

abbrev Pair := Bytes × Bytes

variable {bsize a b n i : Nat} {p : HashPage} {key val : Bytes} {l front back : List Pair}
    {link : Option Nat}

section Holds

def flat (l : List Pair) : List Bytes := l.flatMap fun pair => [pair.1, pair.2]

def fill (l : List Pair) : Nat := sizeOfAll (flat l)

theorem flat_cons (pair : Pair) (l : List Pair) : flat (pair :: l) = pair.1 :: pair.2 :: flat l :=
  rfl

theorem flat_append (front back : List Pair) : flat (front ++ back) = flat front ++ flat back :=
  List.flatMap_append

theorem length_flat (l : List Pair) : (flat l).length = 2 * l.length := by
  induction l with
  | nil => rfl
  | cons pair l ih =>
    rw [flat_cons, List.length_cons, List.length_cons, List.length_cons, ih]
    omega

theorem fill_nil : fill [] = 0 := rfl

theorem fill_cons (key val : Bytes) (l : List Pair) :
    fill ((key, val) :: l) = key.length + val.length + fill l := by
  rw [fill, flat_cons, sizeOfAll_cons, sizeOfAll_cons, Nat.add_assoc]
  rfl

theorem fill_append (front back : List Pair) : fill (front ++ back) = fill front + fill back := by
  rw [fill, flat_append, sizeOfAll_append]
  rfl

theorem fill_singleton (key val : Bytes) : fill [(key, val)] = key.length + val.length := by
  rw [fill_cons, fill_nil, Nat.add_zero]

/-- The page holds the pairs, and behind them a link to the next page of the chain, or none. -/
structure HashPage.Holds (bsize : Nat) (p : HashPage) (l : List Pair) (link : Option Nat) :
    Prop where
  packed : Packed p.bp p.bytes 1 bsize (flat l)
  count : p.bp 0 = 2 * l.length + 2 * link.toList.length
  linked : ∀ a, link = some a → p.bp (2 * l.length + 1) = a ∧ p.bp (2 * l.length + 2) = OVFLPAGE
  offset : p.offset + fill l = bsize
  free : p.freespace + 2 * (p.bp 0 + 3) + fill l = bsize
  room : 4 * l.length + 10 + fill l ≤ bsize ∨ l = [] ∧ link = none

theorem minus_eq (order : b ≤ a) (short : b < 2 ^ 16) (small : a - b < 2 ^ 16) :
    minus a b = a - b := by
  rw [minus, Nat.mod_eq_of_lt short, Nat.sub_add_comm order, Nat.add_mod_right,
    Nat.mod_eq_of_lt small]

theorem minus_of_le (order : b ≤ a) (small : a < 2 ^ 16) : minus a b = a - b :=
  minus_eq order (by lia) (by lia)

theorem minus_minus {c : Nat} (order : b + c ≤ a) (small : a < 2 ^ 16) :
    minus (minus a b) c = a - (b + c) := by
  rw [minus_of_le (show b ≤ a by lia) small, minus_of_le (by lia) (by lia)]
  lia

theorem plus_of_lt (small : a + b < 2 ^ 16) : plus a b = a + b := Nat.mod_eq_of_lt small

theorem HashPage.set_bp (p : HashPage) (i v j : Nat) :
    (p.set i v).bp j = if j = i then v else p.bp j := by
  simp only [HashPage.set, Function.update_apply]

theorem HashPage.set_bytes (p : HashPage) (i v : Nat) : (p.set i v).bytes = p.bytes := rfl

theorem HashPage.memmove_bp (p : HashPage) (off : Nat) (s : Bytes) : (p.memmove off s).bp = p.bp :=
  rfl

theorem HashPage.memmove_bytes (p : HashPage) (off : Nat) (s : Bytes) :
    (p.memmove off s).bytes = store p.bytes off s := rfl

theorem Packed.pair {idx : Nat → Nat} {mem : Nat → UInt8} {top : Nat}
    (packed : Packed idx mem i top (flat (front ++ (key, val) :: back)))
    (first : i + 2 * front.length = n) :
    Packed idx mem i top (flat front) ∧ idx n + key.length + fill front = top ∧
      idx (n + 1) + val.length = idx n ∧ slice mem (idx n) key.length = key ∧
      slice mem (idx (n + 1)) val.length = val ∧
        Packed idx mem (n + 2) (idx (n + 1)) (flat back) := by
  rw [flat_append] at packed
  obtain ⟨before, start, same, next, same', rest⟩ := packed_append.mp packed
  have bound := before.size_le
  rw [length_flat, first] at start same next same' rest
  refine ⟨before, ?_, next, same, same', rest⟩
  change _ + key.length = _ at start
  rw [fill]
  lia

theorem HashPage.Holds.pair (holds : p.Holds bsize (front ++ (key, val) :: back) link)
    (first : 2 * front.length + 1 = n) :
    p.bp n + key.length + fill front = bsize ∧ p.bp (n + 1) + val.length = p.bp n ∧
      slice p.bytes (p.bp n) key.length = key ∧ slice p.bytes (p.bp (n + 1)) val.length = val ∧
      Packed p.bp p.bytes (n + 2) (p.bp (n + 1)) (flat back) ∧ 10 + fill back ≤ p.bp (n + 1) := by
  obtain ⟨-, start, next, same, same', rest⟩ :=
    Packed.pair holds.packed (by lia : 1 + 2 * front.length = n)
  refine ⟨start, next, same, same', rest, ?_⟩
  have room := holds.room
  rw [fill_append, fill_cons] at room
  simp only [List.append_eq_nil_iff, reduceCtorEq, and_false, false_and, or_false] at room
  lia

theorem HashPage.Holds.real (holds : p.Holds bsize l link) (filled : l ≠ []) :
    REAL_KEY ≤ p.bp 2 := by
  obtain ⟨⟨key, val⟩, back, rfl⟩ := List.exists_cons_of_ne_nil filled
  obtain ⟨-, -, -, -, -, above⟩ := @HashPage.Holds.pair _ 1 _ _ _ [] _ _ holds rfl
  change 10 + fill back ≤ p.bp 2 at above
  rw [REAL_KEY]
  omega

theorem HashPage.Holds.last_real (holds : p.Holds bsize l none) :
    p.bp 0 = 0 ∨ REAL_KEY ≤ p.bp (p.bp 0) := by
  have count : p.bp 0 = 2 * l.length := holds.count
  cases l using List.reverseRecOn with
  | nil => exact .inl count
  | append_singleton init pair =>
    obtain ⟨key, val⟩ := pair
    obtain ⟨-, -, -, -, -, above⟩ :=
      @HashPage.Holds.pair _ (2 * init.length + 1) _ _ _ init _ _ holds rfl
    rw [show 2 * init.length + 1 + 1 = 2 * (init.length + 1) by lia] at above
    right
    rw [count, List.length_append, List.length_singleton, REAL_KEY]
    lia

theorem HashPage.Holds.pairfits_iff (holds : p.Holds bsize l none) (wide : 6 ≤ bsize) :
    p.pairfits key val ↔ PAIRSIZE key val + OVFLSIZE ≤ p.freespace := by
  refine ⟨fun fits => fits.2, fun fits => ⟨?_, fits⟩⟩
  by_cases empty : l = []
  · subst empty
    have offset := holds.offset
    rw [HashPage.offset, holds.count, fill_nil] at offset
    change p.bp 2 + 0 = bsize at offset
    rw [REAL_KEY]
    omega
  · exact holds.real empty

end Holds

section Operations

theorem pageInit_holds (wide : 6 ≤ bsize) (small : bsize < 2 ^ 16) :
    (pageInit bsize).Holds bsize [] none := by
  have entries : ∀ k, (pageInit bsize).bp k =
      if k = 2 then bsize else if k = 1 then bsize - 6 else if k = 0 then 0 else 0 := by
    intro k
    rw [pageInit, HashPage.set_bp, HashPage.set_bp, HashPage.set_bp,
      minus_of_le (show 3 * 2 ≤ bsize from wide) small, Nat.mod_eq_of_lt small]
  have first : (pageInit bsize).bp 0 = 0 := entries 0
  have second : (pageInit bsize).bp 1 = bsize - 6 := entries 1
  have third : (pageInit bsize).bp 2 = bsize := entries 2
  refine ⟨trivial, first, ?_, ?_, ?_, .inr ⟨rfl, rfl⟩⟩
  · rintro _ ⟨⟩
  · rw [HashPage.offset, first, third, fill_nil]
    rfl
  · rw [HashPage.freespace, first, second, fill_nil]
    lia

theorem HashPage.Holds.push {q : HashPage} (holds : p.Holds bsize l link) (small : bsize < 2 ^ 16)
    (fits : key.length + val.length ≤ p.offset)
    (kept : ∀ k, 1 ≤ k → k ≤ 2 * l.length → q.bp k = p.bp k)
    (first : q.bp (2 * l.length + 1) = minus p.offset key.length)
    (second : q.bp (2 * l.length + 2) = minus (minus p.offset key.length) val.length)
    (bytes : q.bytes = store (store p.bytes (minus p.offset key.length) key)
      (minus (minus p.offset key.length) val.length) val) :
    Packed q.bp q.bytes 1 bsize (flat (l ++ [(key, val)])) := by
  have offset := holds.offset
  rw [minus_minus fits (by lia)] at second bytes
  rw [minus_of_le (by lia) (by lia)] at first bytes
  rw [flat_append, packed_append, length_flat]
  refine ⟨holds.packed.congr ?_ ?_, ?_, ?_, ?_, ?_, trivial⟩
  · rw [length_flat]
    exact fun k low high => kept k low (by lia)
  · intro k low high
    change bsize - fill l ≤ k at low
    rw [bytes, store_of_outside (by lia), store_of_outside (by lia)]
  · change q.bp (1 + 2 * l.length) + key.length = bsize - fill l
    rw [Nat.add_comm 1, first]
    lia
  · change slice q.bytes (q.bp (1 + 2 * l.length)) key.length = key
    rw [Nat.add_comm 1, first, bytes, ← @slice_store _ p.bytes (p.offset - key.length) key,
      length_slice]
    apply slice_congr
    intro k low high
    rw [slice_store]
    exact store_of_outside (by lia)
  · change q.bp (1 + 2 * l.length + 1) + val.length = q.bp (1 + 2 * l.length)
    rw [Nat.add_comm 1, first, second]
    lia
  · change slice q.bytes (q.bp (1 + 2 * l.length + 1)) val.length = val
    rw [Nat.add_comm 1, second, bytes]
    exact slice_store

theorem putpair_holds (holds : p.Holds bsize l none) (small : bsize < 2 ^ 16)
    (fits : PAIRSIZE key val + OVFLSIZE ≤ p.freespace) :
      (putpair p key val).Holds bsize (l ++ [(key, val)]) none := by
  have count : p.bp 0 = 2 * l.length := holds.count
  have offset := holds.offset
  have free := holds.free
  rw [PAIRSIZE, OVFLSIZE] at fits
  have low : key.length + val.length ≤ p.offset := by lia
  have below : minus (minus p.offset key.length) val.length =
      p.offset - (key.length + val.length) :=
    minus_minus low (by lia)
  have entries : ∀ k, (putpair p key val).bp k =
      if k = 2 * l.length + 4 then minus (minus p.offset key.length) val.length
      else if k = 2 * l.length + 3 then
        minus (minus (minus p.offset key.length) val.length) ((2 * l.length + 2 + 3) * 2)
      else if k = 0 then 2 * l.length + 2
      else if k = 2 * l.length + 2 then minus (minus p.offset key.length) val.length
      else if k = 2 * l.length + 1 then minus p.offset key.length else p.bp k := by
    intro k
    simp only [putpair, HashPage.set_bp, HashPage.memmove_bp, count]
  have top :
    (putpair p key val).bp 0 =
    2 * l.length + 2 := by rw [entries, if_neg (by lia), if_neg (by lia), if_pos rfl]
  have length : (l ++ [(key, val)]).length = l.length + 1 := List.length_append
  refine ⟨?_, ?_, ?_, ?_, ?_, .inl ?_⟩
  · refine holds.push small low ?_ ?_ ?_ rfl
    · intro k one high
      rw [entries, if_neg (by lia), if_neg (by lia), if_neg (by lia), if_neg (by lia),
        if_neg (by lia)]
    · rw [entries, if_neg (by lia), if_neg (by lia), if_neg (by lia), if_neg (by lia), if_pos rfl]
    · rw [entries, if_neg (by lia), if_neg (by lia), if_neg (by lia), if_pos rfl]
  · rw [top, length]
    simp
    lia
  · rintro _ ⟨⟩
  · rw [HashPage.offset, top, entries, if_pos (by lia), below, fill_append, fill_singleton]
    lia
  · rw [HashPage.freespace, top, entries, if_neg (by lia), if_pos (by lia), below,
      minus_of_le (by lia) (by lia), fill_append, fill_singleton]
    lia
  · rw [length, fill_append, fill_singleton]
    lia

theorem squeezeKey_holds (holds : p.Holds bsize l (some a)) (small : bsize < 2 ^ 16)
    (fits : p.freespace > PAIRSIZE key val) : (squeezeKey p key val).Holds bsize (l ++ [(key, val)])
      (some a) := by
  have count : p.bp 0 = 2 * l.length + 2 := holds.count
  obtain ⟨pageno, -⟩ := holds.linked a rfl
  have offset := holds.offset
  have free := holds.free
  have size : PAIRSIZE key val = 2 * 2 + key.length + val.length := rfl
  have low : key.length + val.length ≤ p.offset := by lia
  have below : minus (minus p.offset key.length) val.length =
      p.offset - (key.length + val.length) :=
    minus_minus low (by lia)
  have entries : ∀ k, (squeezeKey p key val).bp k =
      if k = 2 * l.length + 6 then minus (minus p.offset key.length) val.length
      else if k = 2 * l.length + 5 then minus p.freespace (PAIRSIZE key val)
      else if k = 2 * l.length + 4 then OVFLPAGE
      else if k = 2 * l.length + 3 then a
      else if k = 0 then 2 * l.length + 4
      else if k = 2 * l.length + 2 then minus (minus p.offset key.length) val.length
      else if k = 2 * l.length + 1 then minus p.offset key.length else p.bp k := by
    intro k
    simp only [squeezeKey, HashPage.set_bp, HashPage.memmove_bp, count,
      show 2 * l.length + 2 - 1 = 2 * l.length + 1 by lia, pageno]
  have top : (squeezeKey p key val).bp 0 = 2 * l.length + 4 := by
    rw [entries, if_neg (by lia), if_neg (by lia), if_neg (by lia), if_neg (by lia), if_pos rfl]
  have length : (l ++ [(key, val)]).length = l.length + 1 := List.length_append
  refine ⟨?_, ?_, ?_, ?_, ?_, .inl ?_⟩
  · refine holds.push small low ?_ ?_ ?_ rfl
    · intro k one high
      rw [entries, if_neg (by lia), if_neg (by lia), if_neg (by lia), if_neg (by lia),
        if_neg (by lia), if_neg (by lia), if_neg (by lia)]
    · rw [entries, if_neg (by lia), if_neg (by lia), if_neg (by lia), if_neg (by lia),
        if_neg (by lia), if_neg (by lia), if_pos rfl]
    · rw [entries, if_neg (by lia), if_neg (by lia), if_neg (by lia), if_neg (by lia),
        if_neg (by lia), if_pos rfl]
  · rw [top, length]
    simp
    lia
  · rintro _ ⟨⟩
    rw [length, entries, entries, if_neg (by lia), if_neg (by lia), if_neg (by lia),
      if_pos (by lia), if_neg (by lia), if_neg (by lia), if_pos (by lia)]
    exact ⟨rfl, rfl⟩
  · rw [HashPage.offset, top, entries, if_pos (by lia), below, fill_append, fill_singleton]
    lia
  · rw [HashPage.freespace, top, entries, if_neg (by lia), if_pos (by lia),
      minus_of_le (by lia) (by lia), fill_append, fill_singleton]
    lia
  · rw [length, fill_append, fill_singleton]
    lia

theorem addLink_holds (holds : p.Holds bsize l none) (small : bsize < 2 ^ 16) (filled : l ≠ []) :
    (addLink p a).Holds bsize l (some a) := by
  have count : p.bp 0 = 2 * l.length := holds.count
  have offset := holds.offset
  have free := holds.free
  have room : 4 * l.length + 10 + fill l ≤ bsize := by
    rcases holds.room with room | ⟨empty, -⟩
    · exact room
    · exact absurd empty filled
  have space : (p.set (2 * l.length + 4) p.offset).freespace = p.freespace := by
    have other : (p.set (2 * l.length + 4) p.offset).bp 0 = 2 * l.length := by
      rw [HashPage.set_bp, if_neg (by lia), count]
    rw [HashPage.freespace, HashPage.freespace, other, count, HashPage.set_bp, if_neg (by lia)]
  have entries : ∀ k, (addLink p a).bp k =
      if k = 0 then 2 * l.length + 2
      else if k = 2 * l.length + 2 then OVFLPAGE
      else if k = 2 * l.length + 1 then a
      else if k = 2 * l.length + 3 then minus p.freespace OVFLSIZE
      else if k = 2 * l.length + 4 then p.offset else p.bp k := by
    intro k
    simp only [addLink, count, space, HashPage.set_bp]
  have top : (addLink p a).bp 0 = 2 * l.length + 2 := by rw [entries, if_pos rfl]
  refine ⟨?_, top, ?_, ?_, ?_, .inl room⟩
  · apply holds.packed.congr
    · intro k low high
      rw [length_flat] at high
      rw [entries, if_neg (by lia), if_neg (by lia), if_neg (by lia), if_neg (by lia),
        if_neg (by lia)]
    · intro k low high
      rfl
  · rintro _ ⟨⟩
    rw [entries, entries, if_neg (by lia), if_neg (by lia), if_pos rfl, if_neg (by lia), if_pos rfl]
    exact ⟨rfl, rfl⟩
  · rw [HashPage.offset, top, entries, if_neg (by lia), if_neg (by lia), if_neg (by lia),
      if_neg (by lia), if_pos rfl]
    exact offset
  · rw [HashPage.freespace, top, entries, if_neg (by lia), if_neg (by lia), if_neg (by lia),
      if_pos rfl, minus_of_le (by rw [OVFLSIZE]; lia) (by lia), OVFLSIZE]
    lia

/-- The loop over the entries behind a pair: they move two places down, and all but the link grow.
-/
theorem delpairLoop_spec {d m fuel : Nat} (tail : List Pair) (enough : tail.length + 1 < fuel)
    (low : 3 ≤ i) (last : i + 2 * tail.length + 2 * link.toList.length = m + 1)
    (packed : ∃ top mem, Packed p.bp mem i top (flat tail) ∧ top + d < 2 ^ 16 ∧
      10 + fill tail ≤ top)
    (linked : ∀ a, link = some a → p.bp (i + 2 * tail.length) = a ∧
      p.bp (i + 2 * tail.length + 1) = OVFLPAGE) :
    (delpairLoop d m fuel i p).bytes = p.bytes ∧
      (∀ k, k + 2 < i ∨ m < k + 2 → (delpairLoop d m fuel i p).bp k = p.bp k) ∧
      (∀ k < 2 * tail.length, (delpairLoop d m fuel i p).bp (i - 2 + k) = p.bp (i + k) + d) ∧
      (∀ a, link = some a → (delpairLoop d m fuel i p).bp (m - 3) = a ∧
        (delpairLoop d m fuel i p).bp (m - 2) = OVFLPAGE) := by
  induction tail generalizing i p fuel with
  | nil =>
    obtain ⟨fuel, rfl⟩ : ∃ f, fuel = f + 2 := ⟨fuel - 2, by simp at enough; lia⟩
    cases link with
    | none =>
      simp only [List.length_nil, Option.toList_none] at last
      rw [delpairLoop, if_neg (by lia)]
      exact ⟨rfl, fun _ _ => rfl, fun k none => absurd none (by simp), (by rintro _ ⟨⟩)⟩
    | some a =>
      simp only [List.length_nil, Option.toList_some, List.length_singleton] at last
      obtain ⟨first, second⟩ := linked a rfl
      rw [List.length_nil, Nat.mul_zero, Nat.add_zero] at first second
      rw [delpairLoop, if_pos (by lia), if_pos second, delpairLoop, if_neg (by lia), first, second]
      refine ⟨rfl, ?_, fun k none => absurd none (by simp), ?_⟩
      · intro k outside
        rw [HashPage.set_bp, HashPage.set_bp, if_neg (by lia), if_neg (by lia)]
      · rintro _ ⟨⟩
        rw [HashPage.set_bp, HashPage.set_bp, HashPage.set_bp, if_neg (by lia), if_pos (by lia),
          if_pos (by lia)]
        exact ⟨rfl, rfl⟩
  | cons pair tail ih =>
    obtain ⟨fuel, rfl⟩ : ∃ f, fuel = f + 1 := ⟨fuel - 1, by lia⟩
    rw [List.length_cons] at enough last linked
    obtain ⟨key, val⟩ := pair
    obtain ⟨top, mem, packed, high, above⟩ := packed
    rw [fill_cons] at above
    obtain ⟨-, start, next, -, -, rest⟩ := @Packed.pair _ _ _ _ [] _ _ _ _ packed (Nat.add_zero i)
    rw [fill_nil] at start
    have real : p.bp (i + 1) ≠ OVFLPAGE := by
      rw [OVFLPAGE]
      lia
    rw [delpairLoop, if_pos (by lia), if_neg real, plus_of_lt (by lia), plus_of_lt (by lia)]
    obtain ⟨q, moved⟩ : ∃ q, q = (p.set (i - 2) (p.bp i + d)).set (i - 1) (p.bp (i + 1) + d) :=
      ⟨_, rfl⟩
    have entries : ∀ k, q.bp k =
        if k = i - 1 then p.bp (i + 1) + d else if k = i - 2 then p.bp i + d else p.bp k := by
      intro k
      rw [moved, HashPage.set_bp, HashPage.set_bp]
    have others : ∀ k, i ≤ k → q.bp k = p.bp k := by
      intro k beyond
      rw [entries, if_neg (by lia), if_neg (by lia)]
    have same : q.bytes = p.bytes := by rw [moved]; rfl
    rw [← moved]
    obtain ⟨bytes, outside, grown, kept⟩ := @ih (i + 2) q fuel (by lia) (by lia) (by lia)
      ⟨p.bp (i + 1), mem, rest.congr (fun k beyond _ => others k (by lia)) (fun _ _ _ =>
        rfl), by lia, by lia⟩
      (fun a some => by
        rw [others _ (by lia), others _ (by lia)]
        have := linked a some
        rwa [show i + 2 + 2 * tail.length = i + 2 * (tail.length + 1) by lia])
    refine ⟨by rw [bytes, same], ?_, ?_, kept⟩
    · intro k apart
      rw [outside k (by lia), entries, if_neg (by lia), if_neg (by lia)]
    · intro k inside
      rw [List.length_cons] at inside
      by_cases first : k = 0
      · rw [outside _ (by lia), entries, if_neg (by lia), if_pos (by lia), first, Nat.add_zero]
      · by_cases second : k = 1
        · rw [outside _ (by lia), entries, if_pos (by lia), second]
        · have := grown (k - 2) (by lia)
          rw [others _ (by lia)] at this
          rw [show i - 2 + k = i + 2 - 2 + (k - 2) by lia, this]
          congr 2
          lia

theorem HashPage.Holds.newoff (holds : p.Holds bsize (front ++ back) link)
    (small : bsize < 2 ^ 16) :
    (if 2 * front.length + 1 ≠ 1 then p.bp (2 * front.length + 1 - 1) else bsize % 2 ^ 16) +
      fill front = bsize := by
  cases front using List.reverseRecOn with
  | nil => exact Nat.mod_eq_of_lt small
  | append_singleton init pair =>
    obtain ⟨key, val⟩ := pair
    rw [List.append_assoc] at holds
    obtain ⟨start, next, -⟩ := @HashPage.Holds.pair _ (2 * init.length + 1) _ _ _ _ back _ holds rfl
    rw [List.length_append, List.length_singleton, if_pos (by lia), fill_append, fill_singleton,
      show 2 * (init.length + 1) + 1 - 1 = 2 * init.length + 1 + 1 by lia]
    lia

/-- The page after the entries and the bytes behind a pair have moved, with the header set to their
new end. -/
theorem HashPage.Holds.remove {q : HashPage} {d m : Nat}
    (holds : p.Holds bsize (front ++ (key, val) :: back) link) (small : bsize < 2 ^ 16)
    (ndx : 2 * front.length + 1 = n) (count : p.bp 0 = m) (dist : d = key.length + val.length)
    (upper : ∀ k, bsize ≤ k + fill front → q.bytes k = p.bytes k)
    (lower : ∀ k, p.offset ≤ k → k < p.bp (n + 1) → q.bytes (k + d) = p.bytes k)
    (outside : ∀ k, k < n ∨ m < k + 2 → q.bp k = p.bp k)
    (grown : ∀ k < 2 * back.length, q.bp (n + k) = p.bp (n + 2 + k) + d)
    (kept : ∀ a, link = some a → q.bp (m - 3) = a ∧ q.bp (m - 2) = OVFLPAGE) :
    (((q.set m (plus q.offset d)).set (m - 1) (plus (q.bp (m + 1)) (d + 4))).set 0 (m - 2)).Holds
      bsize
      (front ++ back) link := by
  obtain ⟨start, next, -, -, rest, above⟩ := holds.pair ndx
  have total := holds.count
  rw [List.length_append, List.length_cons, count] at total
  have offset := holds.offset
  have free := holds.free
  rw [fill_append, fill_cons] at offset free
  rw [HashPage.freespace, count] at free
  have top : q.offset = p.offset := by
    rw [HashPage.offset, HashPage.offset, outside 0 (by lia), count, outside _ (by lia)]
  rw [top, outside (m + 1) (by lia), plus_of_lt (by lia), plus_of_lt (by lia)]
  obtain ⟨r, made⟩ : ∃ r, r = ((q.set m (p.offset + d)).set (m - 1) (p.bp (m + 1) + (d + 4))).set 0
      (m - 2) := ⟨_, rfl⟩
  have entries : ∀ k, r.bp k = if k = 0 then m - 2 else if k = m - 1 then p.bp (m + 1) + (d + 4)
      else if k = m then p.offset + d else q.bp k := by
    intro k
    rw [made, HashPage.set_bp, HashPage.set_bp, HashPage.set_bp]
  have inner : ∀ k, 1 ≤ k → k + 2 ≤ m → r.bp k = q.bp k := by
    intro k low high
    rw [entries, if_neg (by lia), if_neg (by lia), if_neg (by lia)]
  have bytes : r.bytes = q.bytes := by rw [made]; rfl
  have length : (front ++ back).length = front.length + back.length := List.length_append
  have header : r.bp 0 = m - 2 := by rw [entries, if_pos rfl]
  rw [← made]
  refine ⟨?_, ?_, ?_, ?_, ?_, ?_⟩
  · rw [flat_append, packed_append, length_flat, bytes]
    have before := (Packed.pair holds.packed (by lia : 1 + 2 * front.length = n)).1
    constructor
    · apply before.congr
      · intro k low high
        rw [length_flat] at high
        rw [inner k low (by lia), outside k (by lia)]
      · intro k low high
        change bsize - fill front ≤ k at low
        exact upper k (by lia)
    · have moved : Packed r.bp q.bytes n (p.bp (n + 1) + d) (flat back) := by
        apply rest.move
        · intro k inside
          rw [length_flat] at inside
          rw [inner (n + k) (by lia) (by lia), grown k inside]
        · intro k low high
          change p.bp (n + 1) - fill back ≤ k at low
          exact lower k (by lia) high
      rw [Nat.add_comm 1, ndx]
      change Packed _ _ _ (bsize - fill front) _
      rwa [show bsize - fill front = p.bp (n + 1) + d by lia]
  · rw [header, length]
    lia
  · intro a some
    obtain ⟨first, second⟩ := kept a some
    rw [some, Option.toList_some, List.length_singleton] at total
    rw [length, inner _ (by lia) (by lia), inner _ (by lia) (by lia),
      show 2 * (front.length + back.length) + 1 = m - 3 by lia,
      show 2 * (front.length + back.length) + 2 = m - 2 by lia]
    exact ⟨first, second⟩
  · rw [HashPage.offset, header, entries, if_neg (by lia), if_neg (by lia), if_pos (by lia),
      fill_append]
    lia
  · rw [HashPage.freespace, header, entries, if_neg (by lia), if_pos (by lia), fill_append]
    lia
  · left
    rcases holds.room with room | ⟨empty, -⟩
    · rw [fill_append, fill_cons, List.length_append, List.length_cons] at room
      rw [length, fill_append]
      lia
    · simp at empty

theorem delpair_holds (holds : p.Holds bsize (front ++ (key, val) :: back) link)
    (small : bsize < 2 ^ 16) (ndx : 2 * front.length + 1 = n) :
      (delpair bsize p n).Holds bsize (front ++ back) link := by
  obtain ⟨start, next, -, -, rest, above⟩ := holds.pair ndx
  obtain ⟨m, count⟩ : ∃ m, p.bp 0 = m := ⟨_, rfl⟩
  have total := holds.count
  rw [List.length_append, List.length_cons, count] at total
  have offset := holds.offset
  rw [fill_append, fill_cons] at offset
  have newoff := holds.newoff small
  rw [ndx] at newoff
  have pairlen : minus (if n ≠ 1 then p.bp (n - 1) else bsize % 2 ^ 16) (p.bp (n + 1)) =
      key.length + val.length := by
    rw [minus_of_le (by lia) (by lia)]
    lia
  have header : ∀ (q : HashPage) v, (q.set m v).bp (m + 1) = q.bp (m + 1) := by
    intro q v
    rw [HashPage.set_bp, if_neg (by lia)]
  simp only [delpair, pairlen, count, header]
  by_cases last : n = m - 1
  · rw [if_neg (by simpa using last)]
    have none : link.toList.length = 0 ∧ back.length = 0 := by lia
    refine holds.remove small ndx count rfl (fun _ _ => rfl) ?_ (fun _ _ => rfl) ?_ ?_
    · intro k low high
      have : fill back = 0 := by rw [List.length_eq_zero_iff.mp none.2, fill_nil]
      lia
    · intro k inside
      lia
    · rintro a rfl
      simp at none
  · rw [if_pos (by simpa using last)]
    obtain ⟨bytes, outside, grown, kept⟩ := @delpairLoop_spec (n + 2)
      { p with
        bytes := copyTo p.bytes (p.offset + (key.length + val.length)) p.offset
          (p.bp (n + 1) - p.offset) }
      link (key.length + val.length) m m
      back (by lia) (by lia) (by lia)
      ⟨p.bp (n + 1), p.bytes, rest, by lia, by lia⟩
      (fun a some => by
        have := holds.linked a some
        rw [List.length_append, List.length_cons] at this
        rwa [show n + 2 + 2 * back.length = 2 * (front.length + (back.length + 1)) + 1 by lia])
    refine holds.remove small ndx count rfl ?_ ?_ ?_ ?_ kept
    · intro k low
      rw [bytes]
      exact copyTo_of_outside (by lia)
    · intro k low high
      rw [bytes]
      exact copyTo_of_inside low (by lia) rfl
    · intro k apart
      exact outside k (by lia)
    · intro k inside
      exact grown k inside

/-- The search of a page: at the first pair with the key, at the link, or at the end. -/
theorem HashPage.Holds.search {fuel : Nat} (holds : p.Holds bsize (front ++ back) link)
    (enough : back.length < fuel) (ndx : 2 * front.length + 1 = n) (off : a + fill front = bsize) :
    (∃ mid val rest, back = mid ++ (key, val) :: rest ∧
      p.search key fuel n a = .pair (2 * (front ++ mid).length + 1)) ∨
    (key ∉ back.map Prod.fst ∧ p.search key fuel n a = link.elim .missing .next) := by
  induction back generalizing front n a fuel with
  | nil =>
    obtain ⟨fuel, rfl⟩ : ∃ f, fuel = f + 1 := ⟨fuel - 1, by lia⟩
    refine .inr ⟨List.not_mem_nil, ?_⟩
    have count := holds.count
    rw [List.append_nil] at count
    cases link with
    | none =>
      rw [HashPage.search, if_neg (by rw [count]; simp; lia)]
      rfl
    | some addr =>
      obtain ⟨first, second⟩ := holds.linked addr rfl
      rw [List.append_nil, ndx] at first
      rw [List.append_nil, show 2 * front.length + 2 = n + 1 by lia] at second
      rw [HashPage.search, if_pos (by rw [count]; simp; lia), if_neg (by rw [second]; decide),
        if_pos second, first]
      rfl
  | cons pair back ih =>
    obtain ⟨fuel, rfl⟩ : ∃ f, fuel = f + 1 := ⟨fuel - 1, by lia⟩
    obtain ⟨key', val⟩ := pair
    obtain ⟨start, next, same, -, -, above⟩ := holds.pair ndx
    have count := holds.count
    rw [List.length_append, List.length_cons] at count
    rw [HashPage.search, if_pos (by lia), if_pos (by rw [REAL_KEY]; lia)]
    by_cases hit : p.bp n + key.length = a ∧ slice p.bytes (p.bp n) key.length = key
    · rw [if_pos hit]
      have length : key.length = key'.length := by lia
      have equal : key' = key := by
        rw [← same, ← length]
        exact hit.2
      subst equal
      exact .inl ⟨[], val, back, rfl, by rw [List.append_nil, ndx]⟩
    · rw [if_neg hit]
      have other : key ≠ key' := by
        rintro rfl
        exact hit ⟨by lia, same⟩
      rw [List.append_cons] at holds
      have length : (front ++ [(key', val)]).length = front.length + 1 := List.length_append
      rcases @ih (p.bp (n + 1)) (n + 2) (front ++ [(key', val)]) fuel holds
          (by rw [List.length_cons] at enough; lia) (by lia)
            (by rw [fill_append, fill_singleton]; lia) with
        ⟨mid, val', rest, rfl, found⟩ | ⟨missing, ends⟩
      · refine .inl ⟨(key', val) :: mid, val', rest, rfl, ?_⟩
        rw [found, List.append_assoc, List.singleton_append]
      · refine .inr ⟨?_, ends⟩
        simp only [List.map_cons, List.mem_cons, not_or]
        exact ⟨other, missing⟩

end Operations

end FreeBsd.Db
