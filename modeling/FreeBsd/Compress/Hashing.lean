import FreeBsd.Compress.Compress
import FreeBsd.Lib.Distinct
import Mathlib.Data.Nat.Prime.Basic
import Mathlib.RingTheory.Coprime.Lemmas
import Mathlib.Tactic.NormNum.Prime
import Mathlib.Tactic.LinearCombination

/-! The hash table of compress(). A search that begins inside the part of the table which cl_hash()
clears stays there, and comes to a free slot since `hsize` is prime; the first index is an exclusive
or, which may be past it. -/
namespace FreeBsd.Compress

section Searches

def Comp.hop (s : Comp) (disp i : Int) :
    Int := if i - disp < 0 then i - disp + s.hsize else i - disp

/-- The slots from `i` on that the loop at `probe:` looks at. -/
inductive Probes (s : Comp) (fcode disp : Int) : Int → List Int → Prop where
  | ends {i : Int} : s.htab i.toNat = fcode ∨ s.htab i.toNat ≤ 0 → Probes s fcode disp i [i]
  | goes {i : Int} {trace : List Int} : s.htab i.toNat ≠ fcode → 0 < s.htab i.toNat →
      Probes s fcode disp (s.hop disp i) trace → Probes s fcode disp i (i :: trace)

def Comp.disp (s : Comp) (i : Nat) : Int := if i = 0 then 1 else s.hsize - i

inductive Searches (s : Comp) (fcode : Int) (i : Nat) : List Int → Prop where
  | first : s.htab i = fcode ∨ s.htab i < 0 → Searches s fcode i [(i : Int)]
  | second {trace : List Int} : ¬ (s.htab i = fcode ∨ s.htab i < 0) →
      Probes s fcode (s.disp i) (s.hop (s.disp i) i) trace → Searches s fcode i (i :: trace)

structure Lookup where
  s : Comp
  ent : Nat
  c : Byte

inductive Lookups (a : Args) : Comp → Nat → List Byte → Lookup → Prop where
  | here {s : Comp} {ent : Nat} {c : Byte} {rest : List Byte} :
    Lookups a s ent (c :: rest) ⟨s, ent, c⟩
  | later {s : Comp} {ent fuel : Nat} {c : Byte} {rest : List Byte} {r : Comp × Nat} {t : Lookup} :
      s.pass fuel a ent c = some r → Lookups a r.1 r.2 rest t → Lookups a s ent (c :: rest) t

/-- The turns of compress() for a file, with the table that `main` chooses. -/
def Comp.Hashes (a : Args) (s : Comp) (file : List Byte) (t : Lookup) : Prop :=
  ∃ c rest, file = c :: rest ∧
    Lookups a ({ s with hsize := hsizeOf file.length }.start a) c.toNat rest t

/-- The search ends, and all the slots are in the part of the table that is cleared. -/
def Lookup.Inside (a : Args) (t : Lookup) : Prop :=
  ∃ trace, Searches t.s (Comp.fcode a t.ent t.c) (t.s.index t.ent t.c) trace ∧
    (∀ i ∈ trace, 0 ≤ i ∧ i < t.s.hsize) ∧
    ∀ fuel ≥ trace.length, (t.s.search fuel (Comp.fcode a t.ent t.c) (t.s.index t.ent t.c)).isSome

def Lookup.Starts (t : Lookup) : Prop := t.s.index t.ent t.c < t.s.hsize

variable {s : Comp} {fcode disp i : Int} {trace : List Int} {fuel first : Nat}

theorem probe_succ : s.probe fcode disp (fuel + 1) i =
    if s.htab (s.hop disp i).toNat = fcode then some (s.hop disp i).toNat
    else if s.htab (s.hop disp i).toNat > 0 then s.probe fcode disp fuel (s.hop disp i)
    else some (s.hop disp i).toNat := rfl

theorem Probes.probe (probes : Probes s fcode disp (s.hop disp i) trace)
    (enough : trace.length ≤ fuel) :
    (s.probe fcode disp fuel i).isSome := by
  generalize here : s.hop disp i = j at probes
  induction probes generalizing fuel i with
  | ends stops =>
    obtain ⟨fuel, rfl⟩ := Nat.exists_eq_succ_of_ne_zero (Nat.ne_of_gt enough)
    rw [probe_succ, here]
    split
    · rfl
    · rw [if_neg (by lia)]
      rfl
  | goes other used _ ih =>
    obtain ⟨fuel, rfl⟩ := Nat.exists_eq_succ_of_ne_zero (Nat.ne_of_gt (Nat.zero_lt_of_lt enough))
    rw [probe_succ, here, if_neg other, if_pos used]
    exact ih (Nat.le_of_succ_le_succ enough) rfl

theorem Searches.search (searches : Searches s fcode first trace) (enough : trace.length ≤ fuel) :
    (s.search fuel fcode first).isSome := by
  rw [Comp.search]
  cases searches with
  | first stops =>
    rw [if_pos stops]
    rfl
  | second goes probes =>
    rw [if_neg goes]
    exact probes.probe (Nat.le_of_succ_le enough)

end Searches

section Steps

variable {s : Comp} {fcode x j d : Int} {first : Nat}

theorem hop_inside (inside : 0 ≤ x ∧ x < s.hsize) (step : 0 < d ∧ d ≤ s.hsize) :
    (0 ≤ s.hop d x ∧ s.hop d x < s.hsize) ∧ (s.hsize : Int) ∣ s.hop d x - (x - d) := by
  unfold Comp.hop
  split
  · refine ⟨by lia, ?_⟩
    rw [show x - d + s.hsize - (x - d) = s.hsize by ring]
  · refine ⟨by lia, ?_⟩
    rw [sub_self]
    exact dvd_zero _

/-- Steps of a length prime to that of a circle come to every place of it. -/
theorem exists_steps {p d : Nat} (prime : p.Prime) (some : 0 < d) (less : d < p) (x j : Int) :
    ∃ k : Nat, (p : Int) ∣ x - k * d - j := by
  obtain ⟨u, v, one⟩ :=
    Nat.isCoprime_iff_coprime.mpr (Nat.coprime_of_lt_prime (Nat.ne_of_gt some) less prime)
  refine ⟨(v * (x - j) % p).toNat, ?_⟩
  have positive : (0 : Int) < p := Int.natCast_pos.mpr prime.pos
  rw [Int.toNat_of_nonneg (Int.emod_nonneg _ (ne_of_gt positive)), Int.emod_def]
  refine ⟨u * (x - j) + v * (x - j) / p * d, ?_⟩
  linear_combination (-(x - j)) * one

theorem probes_end (step : 0 < d ∧ d ≤ s.hsize) (free : 0 ≤ j ∧ j < s.hsize)
    (empty : s.htab j.toNat < 0) (k : Nat) (inside : 0 ≤ x ∧ x < s.hsize)
    (comes : (s.hsize : Int) ∣ x - k * d - j) :
    ∃ trace, Probes s fcode d x trace ∧ ∀ i ∈ trace, 0 ≤ i ∧ i < s.hsize := by
  induction k generalizing x with
  | zero =>
    have same : x = j := by
      rw [Nat.cast_zero, zero_mul, sub_zero] at comes
      have small := Int.eq_zero_of_abs_lt_dvd comes (abs_lt.mpr ⟨by lia, by lia⟩)
      lia
    subst same
    exact ⟨[x], .ends (.inr (le_of_lt empty)), List.forall_mem_singleton.mpr inside⟩
  | succ k ih =>
    by_cases stops : s.htab x.toNat = fcode ∨ s.htab x.toNat ≤ 0
    · exact ⟨[x], .ends stops, List.forall_mem_singleton.mpr inside⟩
    · obtain ⟨kept, turn⟩ := hop_inside inside step
      have comes : (s.hsize : Int) ∣ s.hop d x - k * d - j := by
        have both := dvd_add turn comes
        rw [Nat.cast_succ] at both
        rwa [show s.hop d x - (x - d) + (x - (k + 1) * d - j) =
          s.hop d x - k * d - j by ring] at both
      obtain ⟨trace, probes, slots⟩ := ih kept comes
      exact ⟨x :: trace, .goes (fun same => stops (.inl same)) (by lia) probes,
        List.forall_mem_cons.mpr ⟨inside, slots⟩⟩

theorem searches_end (prime : s.hsize.Prime) (inside : first < s.hsize) (free : 0 ≤ j ∧ j < s.hsize)
    (empty : s.htab j.toNat < 0) : ∃ trace, Searches s fcode first trace ∧ ∀ i ∈ trace, 0 ≤ i ∧
      i < s.hsize := by
  have start : 0 ≤ (first : Int) ∧ (first : Int) < s.hsize :=
    ⟨Int.natCast_nonneg _, Int.ofNat_lt.mpr inside⟩
  by_cases stops : s.htab first = fcode ∨ s.htab first < 0
  · exact ⟨[(first : Int)], .first stops, List.forall_mem_singleton.mpr start⟩
  · have step : ∃ d : Nat, 0 < d ∧ d < s.hsize ∧ s.disp first = d := by
      unfold Comp.disp
      split
      · exact ⟨1, Nat.one_pos, prime.one_lt, rfl⟩
      · exact ⟨s.hsize - first, by lia, by lia, by lia⟩
    obtain ⟨d, some, less, same⟩ := step
    have step : 0 < s.disp first ∧ s.disp first ≤ s.hsize := by lia
    have kept := (hop_inside start step).1
    obtain ⟨k, comes⟩ := exists_steps prime some less (s.hop (s.disp first) first) j
    rw [← same] at comes
    obtain ⟨trace, probes, slots⟩ : ∃ trace, Probes s fcode _ _ trace ∧ _ :=
      probes_end step free empty k kept comes
    exact ⟨first :: trace, .second stops probes, List.forall_mem_cons.mpr ⟨start, slots⟩⟩

end Steps

section Occupied

def Comp.used (s : Comp) : Finset Nat := (Finset.range s.hsize).filter (fun j => 0 ≤ s.htab j)

/-- There is a slot for every code at most, and there are not more codes than characters. -/
structure Comp.Roomy (size left : Nat) (s : Comp) : Prop where
  hsize : s.hsize = hsizeOf size
  least : 256 ≤ s.free_ent
  most : s.free_ent ≤ 2 ^ BITS
  few : s.free_ent + left ≤ 256 + size
  used : s.used.card + 256 ≤ s.free_ent

variable {a : Args} {s : Comp} {size left : Nat} {t : Lookup}

theorem hsizeOf_prime : (hsizeOf size).Prime := by
  unfold hsizeOf HSIZE
  split
  · norm_num
  · split
    · norm_num
    · split
      · norm_num
      · split
        · norm_num
        · split <;> norm_num

theorem lt_hsizeOf : min size (2 ^ BITS - 256) < hsizeOf size := by
  unfold hsizeOf HSIZE BITS
  lia

theorem Comp.Roomy.free (roomy : s.Roomy size left) : ∃ j < s.hsize, s.htab j < 0 := by
  obtain ⟨hsize, least, most, few, used⟩ := roomy
  by_contra none
  have all : s.used = Finset.range s.hsize := by
    refine Finset.filter_true_of_mem fun j inside => ?_
    by_contra free
    exact none ⟨j, Finset.mem_range.mp inside, lt_of_not_ge free⟩
  have many : min size (2 ^ BITS - 256) < hsizeOf size := lt_hsizeOf
  rw [all, Finset.card_range] at used
  lia

theorem Lookup.Starts.inside (starts : t.Starts) (roomy : t.s.Roomy size left) : t.Inside a := by
  obtain ⟨j, inside, empty⟩ := roomy.free
  have prime : t.s.hsize.Prime := by
    rw [roomy.hsize]
    exact hsizeOf_prime
  obtain ⟨trace, searches, slots⟩ : ∃ trace, Searches t.s (Comp.fcode a t.ent t.c) _ trace ∧ _ :=
    searches_end prime starts ⟨Int.natCast_nonneg j, Int.ofNat_lt.mpr inside⟩ empty
  exact ⟨trace, searches, slots, fun fuel enough => searches.search enough⟩

theorem Lookup.Inside.starts (inside : t.Inside a) : t.Starts := by
  obtain ⟨trace, searches, slots, -⟩ := inside
  have first : ((t.s.index t.ent t.c : Nat) : Int) ∈ trace := by
    cases searches with
    | first _ => exact List.mem_singleton_self _
    | second _ _ => exact List.mem_cons_self
  exact Int.ofNat_lt.mp (slots _ first).2

end Occupied

section Passes

variable {a : Args} {s s' : Comp} {size left fuel ent : Nat} {c : Byte} {rest : List Byte}
    {r : Comp × Nat} {t : Lookup}
  {code : Option Nat}

def Comp.SameTable (s s' : Comp) : Prop :=
  s'.htab = s.htab ∧ s'.codetab = s.codetab ∧ s'.hsize = s.hsize ∧ s'.free_ent = s.free_ent

theorem Comp.SameTable.flush (same : s.SameTable s') : s.SameTable s'.flush := same

theorem output_keeps : s.SameTable (s.output a code) := by
  cases code with
  | none =>
    unfold Comp.output
    dsimp only
    split <;> exact ⟨rfl, rfl, rfl, rfl⟩
  | some code =>
    unfold Comp.output
    dsimp -zeta only
    extract_lets put full part
    have put_keeps : s.SameTable put := ⟨rfl, rfl, rfl, rfl⟩
    have full_keeps : s.SameTable full := by
      unfold full
      split
      · exact put_keeps.flush
      · exact put_keeps
    have part_keeps : s.SameTable part := by
      unfold part
      split
      · exact full_keeps.flush
      · exact full_keeps
    clear_value part
    split
    · split <;> exact part_keeps
    · exact full_keeps

theorem cl_block_some (done : s.cl_block a = some s') : s.SameTable s' ∨
    (s'.htab = s.cl_hash.htab ∧ s'.hsize = s.hsize ∧ s'.free_ent = FIRST) := by
  obtain ⟨rat, -, rfl⟩ := Option.map_eq_some_iff.mp done
  dsimp only
  split
  · exact .inl ⟨rfl, rfl, rfl, rfl⟩
  · have kept {s : Comp} : s.SameTable (s.output a (some CLEAR)) := output_keeps
    exact .inr ⟨kept.1, kept.2.2.1, kept.2.2.2⟩

theorem pass_some (done : s.pass fuel a ent c = some r) : s.SameTable r.1 ∨
    (∃ i, r.1.htab = Function.update s.htab i (Comp.fcode a ent c) ∧ r.1.hsize = s.hsize ∧
      s.free_ent < a.maxmaxcode ∧ r.1.free_ent = s.free_ent + 1) ∨
    (r.1.htab = s.cl_hash.htab ∧ r.1.hsize = s.hsize ∧ r.1.free_ent = FIRST) := by
  unfold Comp.pass at done
  dsimp only at done
  have out_keeps :
    s.SameTable (Comp.output a { s with in_count := long (s.in_count + 1) } (some ent)) :=
    output_keeps
  generalize Comp.output a { s with in_count := long (s.in_count + 1) } (some ent) =
    out at done out_keeps
  split at done
  · cases done
  · rename_i i _
    split at done
    · cases done
      exact .inl ⟨rfl, rfl, rfl, rfl⟩
    · obtain ⟨htab, codetab, hsize, free⟩ := out_keeps
      split at done
      · rename_i more
        cases done
        rw [free] at more
        exact .inr (.inl ⟨i, by rw [← htab], hsize, more, congrArg (· + 1) free⟩)
      · split at done
        · obtain ⟨s', cleared, rfl⟩ := Option.map_eq_some_iff.mp done
          rcases cl_block_some cleared with ⟨htab', codetab', hsize', free'⟩ | ⟨htab', hsize',
            free'⟩
          · exact .inl ⟨htab'.trans htab, codetab'.trans codetab, hsize'.trans hsize,
              free'.trans free⟩
          · refine .inr (.inr ⟨htab'.trans ?_, hsize'.trans hsize, free'⟩)
            unfold Comp.cl_hash
            rw [htab, hsize]
        · cases done
          exact .inl ⟨htab, codetab, hsize, free⟩

theorem Comp.Roomy.pass (roomy : s.Roomy size (left + 1)) (small : a.maxbits ≤ BITS)
    (done : s.pass fuel a ent c = some r) : r.1.Roomy size left := by
  obtain ⟨hsize, least, most, few, used⟩ := roomy
  rcases pass_some done with ⟨htab, -, size', free⟩ | ⟨i, htab, size', more, free⟩ | ⟨htab, size',
    free⟩
  · have same : r.1.used = s.used := by
      unfold Comp.used
      rw [htab, size']
    exact ⟨size'.trans hsize, by lia, by lia, by lia, by rw [same, free]; exact used⟩
  · have top : a.maxmaxcode ≤ 2 ^ BITS := Nat.pow_le_pow_right Nat.two_pos small
    have grown : r.1.used ⊆ Insert.insert i s.used := by
      intro j one
      obtain ⟨inside, full⟩ := Finset.mem_filter.mp one
      by_cases here : j = i
      · exact Finset.mem_insert.mpr (.inl here)
      · rw [htab, Function.update_of_ne here] at full
        rw [size'] at inside
        exact Finset.mem_insert_of_mem (show j ∈ s.used from Finset.mem_filter.mpr ⟨inside, full⟩)
    have count := (Finset.card_le_card grown).trans (Finset.card_insert_le i s.used)
    exact ⟨size'.trans hsize, by lia, by lia, by lia, by lia⟩
  · have none : r.1.used = ∅ := by
      refine Finset.filter_false_of_mem fun j inside => ?_
      rw [size'] at inside
      have free : s.cl_hash.htab j = -1 := if_pos (Finset.mem_range.mp inside)
      rw [htab, free]
      decide
    have first : FIRST = 257 := rfl
    exact ⟨size'.trans hsize, by lia, by rw [free]; decide, by lia, by rw [none, free]; decide⟩

theorem Lookups.roomy (lookups : Lookups a s ent rest t) (small : a.maxbits ≤ BITS)
    (roomy : s.Roomy size rest.length) :
    ∃ left, t.s.Roomy size left := by
  induction lookups with
  | here => exact ⟨_, roomy⟩
  | later done _ ih => exact ih (roomy.pass small done)

theorem start_roomy {file : List Byte} (whole : file = c :: rest) :
    ({ s with hsize := hsizeOf file.length }.start a).Roomy file.length rest.length := by
  subst whole
  have none : ({ s with hsize := hsizeOf (c :: rest).length }.start a).used = ∅ := by
    refine Finset.filter_false_of_mem fun j inside => ?_
    have free : ({ s with hsize := hsizeOf (c :: rest).length }.start a).htab j = -1 :=
      if_pos (Finset.mem_range.mp inside)
    rw [free]
    decide
  have low : 256 ≤ a.first ∧ a.first ≤ 257 := by
    unfold Args.first FIRST
    lia
  have free : ({ s with hsize := hsizeOf (c :: rest).length }.start a).free_ent = a.first := rfl
  have most : 257 ≤ 2 ^ BITS := by decide
  refine ⟨rfl, by lia, by lia, ?_, by rw [none, free]; exact low.1⟩
  rw [free, List.length_cons]
  lia

/-- Every slot that compress() looks at is in the part of the table that is cleared, and every
search ends, just if the first index of every search is in that part. -/
theorem hash_inside (a : Args) (s : Comp) (file : List Byte) (small : a.maxbits ≤ BITS) :
    (∀ t, s.Hashes a file t → t.Inside a) ↔ ∀ t, s.Hashes a file t → t.Starts := by
  constructor
  · intro inside t hashes
    exact (inside t hashes).starts
  · rintro starts t ⟨c, rest, whole, lookups⟩
    obtain ⟨left, roomy⟩ := lookups.roomy small (start_roomy whole)
    exact (starts t ⟨c, rest, whole, lookups⟩).inside roomy

theorem pass_miss (free : s.htab (s.index ent c) = -1) (room : s.free_ent < a.maxmaxcode) :
    ∃ s', s.pass fuel a ent c = some (s', c.toNat) ∧
      s'.htab = Function.update s.htab (s.index ent c) (Comp.fcode a ent c) ∧
      s'.codetab = Function.update s.codetab (s.index ent c) (BitVec.ofNat 16 s.free_ent) ∧
      s'.hsize = s.hsize ∧ s'.free_ent = s.free_ent + 1 := by
  have found : Comp.search fuel { s with in_count := long (s.in_count + 1) } (Comp.fcode a ent c)
      (Comp.index { s with in_count := long (s.in_count + 1) } ent c) = some (s.index ent c) :=
    if_pos (.inr (lt_of_eq_of_lt free (by decide)))
  have other : s.htab (s.index ent c) ≠ Comp.fcode a ent c := by
    rw [free, Comp.fcode]
    lia
  have out_keeps :
    s.SameTable (Comp.output a { s with in_count := long (s.in_count + 1) } (some ent)) :=
    output_keeps
  obtain ⟨htab, codetab, hsize, same⟩ := out_keeps
  unfold Comp.pass
  dsimp only at found ⊢
  rw [found]
  dsimp only
  rw [if_neg other, if_pos (by rw [same]; exact room)]
  exact ⟨_, rfl, by rw [htab], by rw [codetab, same], hsize, by rw [same]⟩

theorem index_small (small : s.hsize = 5003) : s.index ent c = c.toNat <<< 4 ^^^ ent := by
  have shift : hshift 5003 = 4 := by decide
  rw [Comp.index, small, shift]

/-- A turn that finds its first slot free is followed by those of a table with the new entry. -/
theorem Lookups.miss (looks : Lookups a s ent (c :: rest) t) (free : s.htab (s.index ent c) = -1)
    (room : s.free_ent < a.maxmaxcode) :
    t = ⟨s, ent, c⟩ ∨ ∃ s', s'.htab = Function.update s.htab (s.index ent c) (Comp.fcode a ent c) ∧
      s'.hsize = s.hsize ∧ s'.free_ent = s.free_ent + 1 ∧ Lookups a s' c.toNat rest t := by
  cases looks with
  | here => exact .inl rfl
  | later done later =>
    obtain ⟨s', missed, htab, -, hsize, more⟩ := pass_miss free room
    rw [missed] at done
    cases done
    exact .inr ⟨s', htab, hsize, more, later⟩

def colliding : List Byte := [0x61, 0x62, 0x71, 0x63]

theorem colliding_starts (hashes : zeroed.Hashes ⟨16, true⟩ colliding t) : t.Starts := by
  obtain ⟨c, rest, whole, looks⟩ := hashes
  cases whole
  have clear : ∀ i < 5003, ({ zeroed with hsize := 5003 }.start ⟨16, true⟩).htab i = -1 :=
    fun i inside => if_pos inside
  rcases looks.miss (clear _ (by decide)) (by decide) with rfl | ⟨s₁, htab, size, count, looks⟩
  · exact (by decide : (0x62 : Byte).toNat <<< 4 ^^^ 0x61 < 5003)
  have size₁ : s₁.hsize = 5003 := size
  have slot : s₁.index 0x62 0x71 = 0x772 := index_small size₁
  have free : s₁.htab (s₁.index 0x62 0x71) = -1 := by
    rw [htab, slot]
    exact clear 0x772 (by decide)
  rcases looks.miss free (by rw [count]; decide) with rfl | ⟨s₂, -, size₂, -, looks⟩
  · unfold Lookup.Starts
    rw [size₁]
    exact lt_of_eq_of_lt slot (by decide)
  rw [size₁] at size₂
  cases looks with
  | here =>
    unfold Lookup.Starts
    rw [index_small size₂, size₂]
    exact (by decide : (0x63 : Byte).toNat <<< 4 ^^^ 0x71 < 5003)
  | later _ more => cases more

theorem hash_inside_colliding : ∃ t, zeroed.Hashes ⟨16, true⟩ colliding t ∧
    0 < t.s.htab (t.s.index t.ent t.c) ∧
      t.s.htab (t.s.index t.ent t.c) ≠ Comp.fcode ⟨16, true⟩ t.ent t.c ∧
    t.Inside ⟨16, true⟩ := by
  obtain ⟨s₁, first, htab, -, size, count⟩ : ∃ s₁,
      ({ zeroed with hsize := 5003 }.start ⟨16, true⟩).pass 0 ⟨16, true⟩ 0x61 0x62 =
      some (s₁, 0x62) ∧ _ :=
    pass_miss (by decide) (by decide)
  have size₁ : s₁.hsize = 5003 := size
  have slot : s₁.index 0x62 0x71 = 0x772 := index_small size₁
  obtain ⟨s₂, second, htab', -, size₂, -⟩ : ∃ s₂, s₁.pass 0 ⟨16, true⟩ 0x62 0x71 = some (s₂, 0x71) ∧
      _ :=
    pass_miss (by rw [slot, htab]; decide) (by rw [count]; decide)
  rw [size₁] at size₂
  have slot₂ : s₂.index 0x71 0x63 = 0x641 := index_small size₂
  have taken : s₂.htab (s₂.index 0x71 0x63) = Comp.fcode ⟨16, true⟩ 0x61 0x62 := by
    rw [htab', slot, slot₂, htab]
    rfl
  have hashes : zeroed.Hashes ⟨16, true⟩ colliding ⟨s₂, 0x71, 0x63⟩ :=
    ⟨_, _, rfl, .later first (.later second .here)⟩
  have inside := (hash_inside ⟨16, true⟩ zeroed colliding (by decide)).mpr
    (fun _ => colliding_starts) _ hashes
  refine ⟨_, hashes, ?_, ?_, inside⟩
  · rw [taken]
    decide
  · rw [taken]
    exact (by decide : Comp.fcode ⟨16, true⟩ 0x61 0x62 ≠ Comp.fcode ⟨16, true⟩ 0x71 0x63)

end Passes

section Crowded

variable {a : Args} {s s' : Comp} {fuel ent : Nat} {c : Byte} {rest l m : List Byte} {t : Lookup}

theorem pass_hit (here : s.htab (s.index ent c) = Comp.fcode a ent c) :
    ∃ s', s.pass fuel a ent c = some (s', (s.codetab (s.index ent c)).toNat) ∧
      s'.hsize = s.hsize := by
  have found : Comp.search fuel { s with in_count := long (s.in_count + 1) } (Comp.fcode a ent c)
      (Comp.index { s with in_count := long (s.in_count + 1) } ent c) = some (s.index ent c) :=
        if_pos (.inl here)
  unfold Comp.pass
  dsimp only at found ⊢
  rw [found]
  dsimp only
  rw [if_pos here]
  exact ⟨_, rfl, rfl⟩

/-- The first indices of the pairs of characters, with the smallest table. -/
def slotsOf : Nat → List Byte → List Nat
  | _, [] => []
  | ent, c :: l => (c.toNat <<< 4 ^^^ ent) :: slotsOf c.toNat l

def lastOf (ent : Nat) (l : List Byte) : Nat := l.foldl (fun _ c => c.toNat) ent

theorem slotsOf_append : slotsOf ent (l ++ m) = slotsOf ent l ++ slotsOf (lastOf ent l) m := by
  induction l generalizing ent with
  | nil => rfl
  | cons c l ih =>
    rw [List.cons_append, slotsOf, slotsOf, ih]
    rfl

theorem fresh_run (small : s.hsize = 5003) (new : (slotsOf ent l).Nodup)
    (free : ∀ i ∈ slotsOf ent l, s.htab i = -1) (room : s.free_ent + l.length ≤ a.maxmaxcode) :
    ∃ s', (∀ rest t, Lookups a s' (lastOf ent l) rest t → Lookups a s ent (l ++ rest) t) ∧
      s'.hsize = 5003 ∧
      s'.free_ent = s.free_ent + l.length ∧ ∀ i ∉ slotsOf ent l, s'.htab i = s.htab i := by
  induction l generalizing s ent with
  | nil => exact ⟨s, fun _ _ later => later, small, rfl, fun _ _ => rfl⟩
  | cons c l ih =>
    rw [slotsOf, List.nodup_cons] at new
    rw [List.length_cons] at room
    have slot : s.index ent c = c.toNat <<< 4 ^^^ ent := index_small small
    have empty : s.htab (s.index ent c) = -1 := by
      rw [slot]
      exact free _ List.mem_cons_self
    obtain ⟨s₁, done, htab, -, hsize, one⟩ : ∃ s₁, s.pass 0 a ent c = some (s₁, c.toNat) ∧ _ :=
      pass_miss empty (by lia)
    have later : ∀ i ∈ slotsOf c.toNat l, s₁.htab i = -1 := by
      intro i member
      have apart : i ≠ c.toNat <<< 4 ^^^ ent := by
        rintro rfl
        exact new.1 member
      rw [htab, slot, Function.update_of_ne apart]
      exact free i (List.mem_cons_of_mem _ member)
    obtain ⟨s₂, run, size, count, frame⟩ := ih (hsize.trans small) new.2 later (by lia)
    refine ⟨s₂, fun rest t looks => .later done (run rest t looks), size, ?_, fun i outside => ?_⟩
    · rw [count, one, List.length_cons]
      lia
    · rw [slotsOf, List.mem_cons, not_or] at outside
      rw [frame i outside.2, htab, slot, Function.update_of_ne outside.1]

def twice (x : Nat) : Nat := 2 * x ^^^ x / 8 * 19

def shift (w : Nat) : Nat := w / 16 + 256 * (twice (w % 16) ^^^ w / 16 % 16 ^^^ w / 256)

def letterOf (w : Nat) : Byte := BitVec.ofNat 8 (16 * twice (w / 16 % 16) + w % 16)

def letters : Nat → Nat → List Byte
  | 0, _ => []
  | n + 1, w => letterOf w :: letters n (shift w)

theorem letters_length (n w : Nat) : (letters n w).length = n := by
  induction n generalizing w with
  | zero => rfl
  | succ n ih => rw [letters, List.length_cons, ih]

theorem lastOf_snoc : lastOf ent (l ++ [c]) = c.toNat := by
  rw [lastOf, List.foldl_append]
  rfl

/-- After so many pairs a pair that comes again has the code 4096, which takes the next index past
the table. -/
theorem crowded_run (length : l.length = 3838) (new : (slotsOf c.toNat (l ++ [0x21, 0x21])).Nodup)
    (small : ∀ i ∈ slotsOf c.toNat (l ++ [0x21, 0x21]), i < 5003) :
    ∃ t, zeroed.Hashes ⟨16, true⟩ (c :: (l ++ [0x21, 0x21, 0x21, 0xff])) t ∧ ¬ t.Starts := by
  have size : hsizeOf (c :: (l ++ [0x21, 0x21, 0x21, 0xff])).length = 5003 := by
    rw [List.length_cons, List.length_append, length]
    decide
  have snoc : l ++ [0x21, 0x21] = (l ++ [0x21]) ++ [0x21] := by
    rw [List.append_assoc]
    rfl
  rw [snoc, slotsOf_append, lastOf_snoc] at new small
  have free :
    ∀ i < 5003, ({ zeroed with hsize := hsizeOf (c :: (l ++ [0x21, 0x21, 0x21, 0xff])).length }.start
      ⟨16, true⟩).htab i = -1 := fun i inside => if_pos (lt_of_lt_of_eq inside size.symm)
  have first : ({ zeroed with hsize := hsizeOf (c :: (l ++ [0x21, 0x21, 0x21, 0xff])).length }.start
      ⟨16, true⟩).free_ent = 257 := rfl
  have hsize : ({ zeroed with hsize := hsizeOf (c :: (l ++ [0x21, 0x21, 0x21, 0xff])).length }.start
      ⟨16, true⟩).hsize = 5003 := size
  have hashes (t : Lookup) (looks : Lookups ⟨16, true⟩ _ c.toNat ((l ++ [0x21]) ++ [0x21, 0x21,
      0xff]) t) :
      zeroed.Hashes ⟨16, true⟩ (c :: (l ++ [0x21, 0x21, 0x21, 0xff])) t :=
    ⟨c, _, rfl, by rwa [List.append_assoc] at looks⟩
  generalize { zeroed with hsize := hsizeOf (c :: (l ++ [0x21, 0x21, 0x21, 0xff])).length }.start
    ⟨16, true⟩ = s₀ at *
  obtain ⟨nodup, -, apart⟩ := List.nodup_append.mp new
  obtain ⟨s₁, run, size₁, count, frame⟩ :=
    @fresh_run ⟨16, true⟩ s₀ c.toNat (l ++ [0x21]) hsize nodup
      (fun i member => free i (small i (List.mem_append_left _ member)))
      (by rw [first, List.length_append, length]; decide)
  rw [lastOf_snoc] at run
  rw [first, List.length_append, length] at count
  have slot₁ : s₁.index 0x21 0x21 = 561 := index_small size₁
  have outside : 561 ∉ slotsOf c.toNat (l ++ [0x21]) :=
    fun again => apart _ again _ (List.mem_singleton_self _) rfl
  have empty : s₁.htab (s₁.index 0x21 0x21) = -1 := by
    rw [slot₁, frame _ outside]
    exact free 561 (by decide)
  obtain ⟨s₂, done₁, htab, codetab, size₂, -⟩ : ∃ s₂, s₁.pass 0 ⟨16, true⟩ 0x21 0x21 =
      some (s₂, 0x21) ∧ _ :=
    pass_miss empty (by rw [count]; decide)
  rw [slot₁] at htab codetab
  have slot₂ : s₂.index 0x21 0x21 = 561 := index_small (size₂.trans size₁)
  obtain ⟨s₃, done₂, size₃⟩ : ∃ s₃, s₂.pass 0 ⟨16, true⟩ 0x21 0x21 = some (s₃, _) ∧ _ :=
    pass_hit (by rw [slot₂, htab, Function.update_self])
  rw [slot₂, codetab, Function.update_self, count] at done₂
  refine ⟨⟨s₃, 4096, 0xff⟩, hashes _ (run _ _ (.later done₁ (.later done₂ .here))),
    fun starts => ?_⟩
  have size₃ : s₃.hsize = 5003 := size₃.trans (size₂.trans size₁)
  unfold Lookup.Starts at starts
  rw [index_small size₃, size₃] at starts
  have past : ¬ (0xff : Byte).toNat <<< 4 ^^^ 4096 < 5003 := by decide
  exact past starts

def crowded :
    List Byte := letterOf 0x811 :: (letters 3838 (shift 0x811) ++ [0x21, 0x21, 0x21, 0xff])

theorem crowded_slots :
    Lib.unseen (slotsOf (letterOf 0x811).toNat (letters 3838 (shift 0x811) ++ [0x21, 0x21])) 0 ∧
      (slotsOf (letterOf 0x811).toNat (letters 3838 (shift 0x811) ++ [0x21, 0x21])).all
        (· < 5003) := by
  decide +kernel

/-- Less than 4096 characters can have a code past 4096, and then the exclusive or is past the
smallest table. -/
theorem hash_not_inside : ¬ ∀ (a : Args) (s : Comp) (file : List Byte) (t : Lookup), 9 ≤ a.maxbits →
    a.maxbits ≤ BITS →
    s.Hashes a file t → t.Inside a := by
  intro claim
  obtain ⟨t, hashes, past⟩ :=
    crowded_run (letters_length _ _) (Lib.nodup_of_unseen crowded_slots.1).1 fun i member =>
    of_decide_eq_true (List.all_eq_true.mp crowded_slots.2 i member)
  exact past (claim ⟨16, true⟩ zeroed crowded t (by decide) (by decide) hashes).starts

end Crowded

end FreeBsd.Compress
