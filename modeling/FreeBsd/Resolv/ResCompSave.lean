import FreeBsd.Resolv.ResComp

/-! `dn_comp` of the resolver, and the list of names that later calls point to. -/
namespace FreeBsd.Resolv

section Model

/-- Bytes by their offset: of the message, from `msg`, or of the name, from `exp_dn`. -/
abbrev Bytes := Nat → Byte

def MAXLABEL : Nat := 63

/-- The loop of `dn_find` over the `n` bytes of a label that are left, `none` for `goto next`. -/
def sameLabel (mem name : Bytes) : (n dn cp : Nat) → Option (Nat × Nat)
  | 0, dn, cp => some (dn, cp)
  | n + 1, dn, cp =>
    if name dn = dot then none
    else
      let dn := if name dn = backslash then dn + 1 else dn
      if name dn ≠ mem cp then none else sameLabel mem name n (dn + 1) (cp + 1)

inductive Search where
  | found
  | next
  | illegal
  | spins
  deriving DecidableEq, Repr

/-- The name at `dn` against the compressed one at `cp`. -/
def dnMatch (mem name : Bytes) : (fuel dn cp : Nat) → Search
  | 0, _, _ => .spins
  | fuel + 1, dn, cp =>
    if mem cp = 0 then if name dn = 0 then .found else .next
    else if mem cp &&& INDIR_MASK = 0 then
      match sameLabel mem name (mem cp).toNat dn (cp + 1) with
      | none => .next
      | some (dn, cp) =>
        if name dn = 0 ∧ mem cp = 0 then .found
        else if name dn = dot then dnMatch mem name fuel (dn + 1) cp
        else .next
    else if mem cp &&& INDIR_MASK = INDIR_MASK then
      dnMatch mem name fuel dn (indirect (mem cp) (mem (cp + 1)))
    else .illegal

/-- `dn_find` over the pointers from `dnptrs` to `lastdnptr`: the outer `none` where it does not
return, the inner one for -1. -/
def dnFind (mem name : Bytes) (fuel dn : Nat) : (dnptrs : List Nat) → Option (Option Nat)
  | [] => some none
  | sp :: dnptrs =>
    match dnMatch mem name fuel dn sp with
    | .found => some (some sp)
    | .next => dnFind mem name fuel dn dnptrs
    | .illegal => some none
    | .spins => none

def write (mem : Bytes) (cp : Nat) (c : Byte) : Bytes := fun at' => if at' = cp then c else mem at'

/-- What the `do` loop leaves: the memory, `c`, `dn` and `cp` behind a label, or the memory where
the buffer is full. -/
inductive Copied where
  | label (mem : Bytes) (c : Byte) (dn cp : Nat)
  | full (mem : Bytes)
  | spins

def copyLabel (name : Bytes) (eob : Nat) : (fuel : Nat) → (mem : Bytes) → (c : Byte) →
    (dn cp : Nat) → Copied
  | 0, _, _, _, _ => .spins
  | fuel + 1, mem, c, dn, cp =>
    if c = dot then .label mem (name dn) (dn + 1) cp
    else if c = backslash ∧ name dn = 0 then .label mem 0 (dn + 1) cp
    else
      let (c, dn) := if c = backslash then (name dn, dn + 1) else (c, dn)
      if eob ≤ cp then .full mem
      else if name dn ≠ 0 then copyLabel name eob fuel (write mem cp c) (name dn) (dn + 1) (cp + 1)
      else .label (write mem cp c) 0 (dn + 1) (cp + 1)

/-- The arguments that stay as they are: `msg` is false for NULL, `lastdnptr` is `none` for NULL and
an index into the array of `dnptrs` otherwise, and `lpp` counts the pointers of the list to search.
-/
structure Args where
  name : Bytes
  comp_dn : Nat
  eob : Nat
  msg : Bool
  lastdnptr : Option Nat
  lpp : Nat

/-- The variables of `dn_comp` at the head of its loop; `saved` holds the pointers behind
`dnptrs[0]` up to the NULL. -/
structure Comp where
  mem : Bytes
  saved : List Nat
  c : Byte
  dn : Nat
  cp : Nat

/-- What `dn_comp` returns, `none` for -1, and what it leaves. -/
structure Result where
  ret : Option Nat
  mem : Bytes
  saved : List Nat

inductive Outcome where
  | goes (s : Comp)
  | returns (r : Result)
  | spins

def restore (a : Args) (mem : Bytes) (saved : List Nat) : Outcome :=
  .returns ⟨none, mem, if a.msg then saved.take a.lpp else saved⟩

def finish (a : Args) (mem : Bytes) (saved : List Nat) (cp : Nat) : Outcome :=
  if a.eob ≤ cp then restore a mem saved
  else .returns ⟨some (cp + 1 - a.comp_dn), write mem cp 0, saved⟩

def look (a : Args) (fuel : Nat) (s : Comp) : Option (Option Nat) :=
  if a.msg then dnFind s.mem a.name fuel (s.dn - 1) (s.saved.take a.lpp) else some none

/-- The list with the label at `cp`, where it has room. -/
def save (a : Args) (s : Comp) : List Nat :=
  if a.msg ∧ ∃ last ∈ a.lastdnptr, s.saved.length + 2 < last then s.saved ++ [s.cp] else s.saved

def writeLabel (a : Args) (fuel : Nat) (s : Comp) : Outcome :=
  match copyLabel a.name a.eob fuel s.mem s.c s.dn (s.cp + 1) with
  | .spins => .spins
  | .full mem => restore a mem (save a s)
  | .label mem c dn cp =>
    let l := cp - s.cp - 1
    if l = 0 ∧ c = 0 then finish a mem (save a s) (cp - 1)
    else if l = 0 ∨ MAXLABEL < l then restore a mem (save a s)
    else .goes ⟨write mem s.cp (BitVec.ofNat 8 l), save a s, c, dn, cp⟩

def turn (a : Args) (fuel : Nat) (s : Comp) : Outcome :=
  if s.c = 0 then finish a s.mem s.saved s.cp
  else
    match look a fuel s with
    | none => .spins
    | some (some l) =>
      if a.eob ≤ s.cp + 1 then .returns ⟨none, s.mem, s.saved⟩
      else
        let mem := write s.mem s.cp (BitVec.ofNat 8 (l / 2 ^ 8) ||| INDIR_MASK)
        .returns ⟨some (s.cp + 2 - a.comp_dn), write mem (s.cp + 1) (BitVec.ofNat 8 (l % 256)),
          s.saved⟩
    | some none => writeLabel a fuel s

/-- The loop of `dn_comp`: `none` where it does not come to an end. -/
def compLoop (a : Args) (fuel : Nat) : (turns : Nat) → Comp → Option Result
  | 0, _ => none
  | turns + 1, s =>
    match turn a fuel s with
    | .goes s => compLoop a fuel turns s
    | .returns r => some r
    | .spins => none

/-- `dn_comp` of the name, with `length` bytes at `comp_dn`: `fuel` bounds the search and the
labels, `turns` the loop. -/
def dnComp (fuel turns : Nat) (name : Bytes) (comp_dn length : Nat) (msg : Bool) (saved : List Nat)
    (lastdnptr : Option Nat) (mem : Bytes) : Option Result :=
  compLoop ⟨name, comp_dn, comp_dn + length, msg, lastdnptr, saved.length⟩ fuel turns ⟨mem, saved,
    name 0, 1, comp_dn⟩

end Model

section Restore

inductive Runs (a : Args) (fuel : Nat) (s : Comp) : Comp → Prop
  | here : Runs a fuel s s
  | on {t u : Comp} (run : Runs a fuel s t) (goes : turn a fuel t = .goes u) : Runs a fuel s u

/-- The rest of the name is found, there is no room for the pointer to it, and labels of this call
are in the list. -/
structure Stuck (a : Args) (fuel : Nat) (s : Comp) : Prop where
  more : s.c ≠ 0
  found : ∃ l, look a fuel s = some (some l)
  full : a.eob ≤ s.cp + 1
  labels : a.lpp < s.saved.length

/-- The list begins with the pointers to search, and has no more without a message. -/
structure Extends (a : Args) (saved now : List Nat) : Prop where
  lpp : a.lpp = saved.length
  old : saved <+: now
  silent : a.msg = false → now = saved

def Restored (a : Args) (saved : List Nat) : Outcome → Prop
  | .goes s => Extends a saved s.saved
  | .returns r => r.ret = none → r.saved = saved
  | .spins => True

variable {a : Args} {fuel turns : Nat} {s t : Comp} {saved now : List Nat} {mem : Bytes} {cp : Nat}
    {r : Result}

theorem Runs.head {u : Comp} (goes : turn a fuel s = .goes t) (run : Runs a fuel t u) :
    Runs a fuel s u := by
  induction run with
  | here => exact .on .here goes
  | on _ goes ih => exact .on ih goes

theorem restore_restored (kept : Extends a saved now) : Restored a saved (restore a mem now) := by
  intro _
  change (if a.msg then now.take a.lpp else now) = saved
  cases msg : a.msg with
  | true =>
    rw [if_pos rfl, kept.lpp]
    exact (List.prefix_iff_eq_take.mp kept.old).symm
  | false => exact kept.silent msg

theorem finish_restored (kept : Extends a saved now) : Restored a saved (finish a mem now cp) := by
  unfold finish
  split
  · exact restore_restored kept
  · intro none
    cases none

theorem save_extends (kept : Extends a saved s.saved) : Extends a saved (save a s) := by
  refine ⟨kept.lpp, ?_, fun silent => ?_⟩
  · unfold save
    split
    · exact kept.old.trans (List.prefix_append _ _)
    · exact kept.old
  · unfold save
    rw [if_neg fun both => Bool.false_ne_true (silent.symm.trans both.1)]
    exact kept.silent silent

theorem writeLabel_restored (kept : Extends a saved s.saved) :
    Restored a saved (writeLabel a fuel s) := by
  have longer := save_extends kept
  unfold writeLabel
  split
  · exact trivial
  · exact restore_restored longer
  · dsimp only
    split
    · exact finish_restored longer
    · split
      · exact restore_restored longer
      · exact longer

/-- Every exit of a turn restores the list, but for the one without room for a pointer. -/
theorem turn_restored (kept : Extends a saved s.saved) (free : ¬ Stuck a fuel s) :
    Restored a saved (turn a fuel s) := by
  unfold turn
  split
  · exact finish_restored kept
  · rename_i more
    split
    · exact trivial
    · rename_i l found
      split
      · rename_i full
        intro _
        have none : ¬ a.lpp < s.saved.length := fun labels => free ⟨more, ⟨l, found⟩, full, labels⟩
        refine (kept.old.eq_of_length ?_).symm
        have short := kept.old.length_le
        have lpp := kept.lpp
        omega
      · intro none
        cases none
    · exact writeLabel_restored kept

theorem loop_restored (kept : Extends a saved s.saved)
    (free : ∀ t, Runs a fuel s t → ¬ Stuck a fuel t) (ends : compLoop a fuel turns s = some r)
    (fails : r.ret = none) : r.saved = saved := by
  induction turns generalizing s with
  | zero => cases ends
  | succ turns ih =>
    have good := turn_restored kept (free s .here)
    rw [compLoop] at ends
    split at ends
    · rename_i next goes
      rw [goes] at good
      exact ih good (fun t run => free t (Runs.head goes run)) ends
    · rename_i result
      cases ends
      rw [result] at good
      exact good fails
    · cases ends

theorem stuck_returns (stuck : Stuck a fuel s) :
    turn a fuel s = .returns ⟨none, s.mem, s.saved⟩ := by
  obtain ⟨l, found⟩ := stuck.found
  simp only [turn, if_neg stuck.more, found, if_pos stuck.full]

theorem runs_loop (run : Runs a fuel s t) :
    ∃ turns, ∀ more, compLoop a fuel (more + turns) s = compLoop a fuel more t := by
  induction run with
  | here => exact ⟨0, fun more => rfl⟩
  | @on t u _ goes ih =>
    obtain ⟨turns, eq⟩ := ih
    refine ⟨turns + 1, fun more => ?_⟩
    rw [show more + (turns + 1) = more + 1 + turns by omega, eq (more + 1), compLoop, goes]

end Restore

/-- A call of `dn_comp` that returns -1 leaves the list as it was, exactly where no turn comes to a
found rest without room for the pointer, after labels of its own. -/
theorem dnComp_restores_iff (name : Bytes) (comp_dn length : Nat) (msg : Bool) (saved : List Nat)
    (lastdnptr : Option Nat) (mem : Bytes) :
    (∀ fuel turns r, dnComp fuel turns name comp_dn length msg saved lastdnptr mem = some r →
      r.ret = none →
      r.saved = saved) ↔
    ∀ fuel s, Runs ⟨name, comp_dn, comp_dn + length, msg, lastdnptr, saved.length⟩ fuel
        ⟨mem, saved, name 0, 1, comp_dn⟩ s →
      ¬ Stuck ⟨name, comp_dn, comp_dn + length, msg, lastdnptr, saved.length⟩ fuel s := by
  constructor
  · intro restored fuel s run stuck
    obtain ⟨turns, eq⟩ := runs_loop run
    have ends := eq 1
    rw [compLoop, stuck_returns stuck] at ends
    have same := restored fuel (1 + turns) _ ends rfl
    have labels : saved.length < s.saved.length := stuck.labels
    rw [show s.saved = saved from same] at labels
    exact absurd labels (Nat.lt_irrefl _)
  · intro free fuel turns r ends fails
    exact loop_restored (a := ⟨name, comp_dn, comp_dn + length, msg, lastdnptr, saved.length⟩)
      ⟨rfl, List.prefix_refl saved, fun _ => rfl⟩ (free fuel) ends fails

/-- The bytes of a list from `base` on, zeros around them. -/
def bytesAt (base : Nat) (bytes : List Byte) :
    Bytes := fun at' => if at' < base then 0 else bytes.getD (at' - base) 0

/-- The name a.c behind the name c, in three bytes: the label a stays in the list. -/
theorem dnComp_leaves : ¬ ∀ fuel turns r,
    dnComp fuel turns (bytesAt 0 [97, 46, 99]) 12 3 true [0] (some 10) (bytesAt 0 [1, 99, 0]) =
      some r →
      r.ret = none → r.saved = [0] := by
  intro restored
  have runs :
      (dnComp 9 9 (bytesAt 0 [97, 46, 99]) 12 3 true [0] (some 10) (bytesAt 0 [1, 99, 0])).map
      (fun r => (r.ret, r.saved)) = some (none, [0, 12]) := by decide
  obtain ⟨r, ends, eq⟩ := Option.map_eq_some_iff.mp runs
  cases r with
  | mk ret now saved =>
    cases eq
    cases (restored 9 9 _ ends rfl : [0, 12] = [0])

end FreeBsd.Resolv
