import FreeBsd.Lib.Lexical
import FreeBsd.Lib.Rearrange

/-! Spans of an array that are still to be sorted, while all else is in order. -/
namespace FreeBsd.Lib

/-- `n` cells from `lo` on whose sequences are the same up to `depth`. -/
structure Span where
  lo : Nat
  n : Nat
  depth : Nat

namespace Span

def Has (s : Span) (i : Nat) : Prop := s.lo ≤ i ∧ i < s.lo + s.n

def Apart (s t : Span) : Prop := s.lo + s.n ≤ t.lo ∨ t.lo + t.n ≤ s.lo

end Span

variable {α : Type} (seq : α → Nat → Nat)

def SameStart (v : Nat → α) (s : Span) : Prop :=
  ∀ i j, s.Has i → s.Has j → Agree 0 s.depth (seq (v i)) (seq (v j))

/-- Of `start`, only the cells within one of the spans may still be out of order. -/
structure Pending (N : Nat) (start v : Nat → α) (spans : List Span) : Prop where
  shuffled : Shuffles 0 N start v
  inside : ∀ s ∈ spans, s.lo + s.n ≤ N
  apart : spans.Pairwise Span.Apart
  same : ∀ s ∈ spans, SameStart seq v s
  settled : ∀ i j, i < j → j < N → (∃ s ∈ spans, s.Has i ∧ s.Has j) ∨
    NotAfter 0 (seq (v i)) (seq (v j))

namespace Pending

variable {seq} {N : Nat} {start v v' : Nat → α} {s : Span} {spans parts : List Span}

theorem whole (N : Nat) (v : Nat → α) : Pending seq N v v [⟨0, N, 0⟩] := by
  refine ⟨.refl 0 N v, ?_, List.pairwise_singleton _ _, ?_, fun i j order last => .inl ⟨_,
    List.mem_singleton.mpr rfl, ?_, ?_⟩⟩
  · rintro s member
    rw [List.mem_singleton.mp member]
    exact (Nat.zero_add N).le
  · rintro s member
    rw [List.mem_singleton.mp member]
    exact fun i j _ _ => .start 0 _ _
  · have first : i < 0 + N := by omega
    exact ⟨Nat.zero_le i, first⟩
  · have second : j < 0 + N := by omega
    exact ⟨Nat.zero_le j, second⟩

theorem perm (pending : Pending seq N start v spans) (order : spans.Perm parts) :
    Pending seq N start v parts where
  shuffled := pending.shuffled
  inside s member := pending.inside s (order.mem_iff.mpr member)
  apart := order.pairwise pending.apart fun apart => Or.symm apart
  same s member := pending.same s (order.mem_iff.mpr member)
  settled i j less last := (pending.settled i j less last).imp_left fun ⟨s, member, has⟩ =>
    ⟨s, order.mem_iff.mp member, has⟩

theorem done (pending : Pending seq N start v []) (i j : Nat) (order : i < j) (last : j < N) :
    NotAfter 0 (seq (v i)) (seq (v j)) := by
  rcases pending.settled i j order last with ⟨s, member, _⟩ | settled
  · exact absurd member List.not_mem_nil
  · exact settled

theorem refine_span (parts : List Span) (pending : Pending seq N start v (s :: spans))
    (shuffled : Shuffles s.lo s.n v v')
    (within : ∀ t ∈ parts, s.lo ≤ t.lo ∧ t.lo + t.n ≤ s.lo + s.n)
    (apart : parts.Pairwise Span.Apart) (same : ∀ t ∈ parts, SameStart seq v' t)
    (settled : ∀ i j, i < j → s.Has i → s.Has j → (∃ t ∈ parts, t.Has i ∧ t.Has j) ∨
      NotAfter 0 (seq (v' i)) (seq (v' j))) :
    Pending seq N start v' (parts ++ spans) := by
  have bound := pending.inside s List.mem_cons_self
  obtain ⟨top, rest⟩ := List.pairwise_cons.mp pending.apart
  have elsewhere {t : Span} (member : t ∈ spans) {i : Nat} (has : t.Has i) : ¬ s.Has i := by
    intro both
    rcases top t member with before | behind
    · exact absurd has.1 (by have := both.2; lia)
    · exact absurd has.2 (by have := both.1; lia)
  refine ⟨pending.shuffled.trans (shuffled.mono (Nat.zero_le _) (by lia)), fun t member => ?_, ?_,
    fun t member => ?_, ?_⟩
  · rcases List.mem_append.mp member with new | old
    · exact (within t new).2.trans bound
    · exact pending.inside t (List.mem_cons_of_mem _ old)
  · refine List.pairwise_append.mpr ⟨apart, rest, fun t new u old => ?_⟩
    have inner := within t new
    rcases top u old with before | behind
    · exact .inl (by lia)
    · exact .inr (by lia)
  · rcases List.mem_append.mp member with new | old
    · exact same t new
    · intro i j first second
      rw [shuffled.outside i (elsewhere old first), shuffled.outside j (elsewhere old second)]
      exact pending.same t (List.mem_cons_of_mem _ old) i j first second
  · intro i j order last
    -- two cells of which one is outside the span were in order, or lie in another one
    have apart' {i j : Nat} (order : i < j) (last : j < N) (out : ¬ (s.Has i ∧ s.Has j)) :
        (∃ t ∈ spans, t.Has i ∧ t.Has j) ∨ NotAfter 0 (seq (v i)) (seq (v j)) := by
      rcases pending.settled i j order last with ⟨t, member, has⟩ | settled
      · rcases List.mem_cons.mp member with rfl | old
        · exact absurd has out
        · exact .inl ⟨t, old, has⟩
      · exact .inr settled
    by_cases first : s.Has i
    · by_cases second : s.Has j
      · refine (settled i j order first second).imp_left fun ⟨t, new, has⟩ =>
          ⟨t, List.mem_append_left _ new, has⟩
      · obtain ⟨i', low, high, from'⟩ := shuffled.source first.1 first.2
        have behind : s.lo + s.n ≤ j := by
          by_contra before
          exact second ⟨first.1.trans order.le, by lia⟩
        rw [from', shuffled.outside j second]
        rcases apart' (i := i') (by lia) last (fun both => second both.2) with ⟨t, old, has, _⟩ |
          settled
        · exact absurd ⟨low, high⟩ (elsewhere old has)
        · exact .inr settled
    · rw [shuffled.outside i first]
      by_cases second : s.Has j
      · obtain ⟨j', low, high, from'⟩ := shuffled.source second.1 second.2
        have before : i < s.lo := by
          by_contra behind
          exact first ⟨by lia, order.trans second.2⟩
        rw [from']
        rcases apart' (j := j') (by lia) (by lia) (fun both => first both.1) with ⟨t, old, _, has⟩ |
          settled
        · exact absurd ⟨low, high⟩ (elsewhere old has)
        · exact .inr settled
      · rw [shuffled.outside j second]
        exact (apart' order last fun both => first both.1).imp_left fun ⟨t, old, has⟩ =>
          ⟨t, List.mem_append_right _ old, has⟩

theorem sorted (pending : Pending seq N start v (s :: spans)) (shuffled : Shuffles s.lo s.n v v')
    (ordered : Ordered (fun a b => NotAfter s.depth (seq a) (seq b)) s.lo (s.lo + s.n) v') :
    Pending seq N start v' spans := by
  refine refine_span [] pending shuffled (fun t member => absurd member List.not_mem_nil) .nil
    (fun t member => absurd member List.not_mem_nil) fun i j order first second => .inr ?_
  obtain ⟨i', low, high, fromI⟩ := shuffled.source first.1 first.2
  obtain ⟨j', low', high', fromJ⟩ := shuffled.source second.1 second.2
  refine .of_agree ?_ (ordered i j first.1 order second.2)
  rw [fromI, fromJ]
  exact pending.same s List.mem_cons_self i' j' ⟨low, high⟩ ⟨low', high'⟩

theorem short (pending : Pending seq N start v (s :: spans)) (small : s.n < 2) :
    Pending seq N start v spans :=
  pending.sorted (.refl s.lo s.n v) (.short (by omega))

end Pending

end FreeBsd.Lib
