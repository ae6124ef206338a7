import FreeBsd.Ufs.LockfWait

/-! The sleep in `lf_split`. Where a lock is cut in three, `MALLOC` may put the process to
sleep before anything is linked, and the list changes under it. The list stays consistent in
every interleaving in which no lock is granted meanwhile that goes against the one about to be
linked, and no lock to the end of file is cut behind the largest offset. -/
namespace FreeBsd.Ufs

open FreeBsd.Lib (Run wrap32)

section Split

variable {ι : Type} [DecidableEq ι]

/-- The lock that `lf_setlock` hands to `lf_split` to be cut in three; nothing is changed yet. -/
def setPause (lock : Lockf ι) (head : List (Lockf ι)) : Option (Lockf ι) :=
  match findOverlap .self lock head with
  | (_, .contains, overlap :: _) =>
    if overlap.type ≠ lock.type ∧ overlap.start ≠ lock.start ∧ overlap.last ≠ lock.last then
      some overlap
    else none
  | _ => none

/-- The same in the loop of `lf_clearlock`, with the list at that point. -/
def clearPause (unlock : Lockf ι) :
    Nat → List (Lockf ι) → List (Lockf ι) → List Nat → Option (Edit ι × Lockf ι)
  | 0, _, _, _ => none
  | fuel + 1, before, lf, woken =>
    match findOverlap .self unlock lf with
    | (passed, .contains, overlap :: rest) =>
      if overlap.start ≠ unlock.start ∧ overlap.last ≠ unlock.last then
        some (⟨before ++ (passed ++ overlap.wake :: rest), woken ++ overlap.block⟩, overlap)
      else none
    | (passed, .contained, overlap :: rest) =>
      clearPause unlock fuel (before ++ passed) rest (woken ++ overlap.block)
    | (passed, .startsBefore, overlap :: rest) =>
      clearPause unlock fuel
        (before ++ (passed ++ [{ overlap.wake with last := wrap32 (unlock.start - 1) }])) rest
        (woken ++ overlap.block)
    | _ => none

/-- `lf_split` once it has the memory, and what its caller does then: `lf_setlock` wakes the
requests on the chain, `lf_clearlock` takes `lock2` off the list again. -/
def splitRest (fresh : Nat) (lock2 : Lockf ι) (set : Bool) (before : List (Lockf ι))
    (lock1 : Lockf ι) (after : List (Lockf ι)) : Edit ι :=
  let front := { lock1 with last := wrap32 (lock2.start - 1) }
  let splitlock := { lock1 with addr := fresh, start := wrap32 (lock2.last + 1), block := [] }
  if set then ⟨before ++ front.wake :: lock2 :: splitlock :: after, lock1.block⟩
  else ⟨before ++ front :: splitlock :: after, []⟩

/-- The range of `lock` has bytes of `h` on both sides. -/
structure Splits (h lock : Lockf ι) : Prop where
  id : h.id = lock.id
  start : h.start < lock.start
  finite : lock.last ≠ -1
  last : lock.last < h.last ∨ h.last = -1
  room : h.last = -1 → lock.Short

variable {h lock : Lockf ι} {A B : List (Lockf ι)}

omit [DecidableEq ι] in
theorem Splits.like {g : Lockf ι} (splits : Splits h lock) (like : Like g h) : Splits g lock := by
  obtain ⟨id, start, finite, last, room⟩ := splits
  rw [← like.id] at id
  rw [← like.start] at start
  rw [← like.last] at last room
  exact ⟨id, start, finite, last, room⟩

omit [DecidableEq ι] in
theorem Splits.front (splits : Splits h lock) (ok : lock.Valid) (good : h.Valid) {p : Lockf ι}
    (id : p.id = h.id) (type : p.type = h.type) (start : p.start = h.start)
    (last : p.last = wrap32 (lock.start - 1)) : Front p h lock := by
  have reach := splits.last
  have finite := splits.finite
  refine front_of ok good splits.start ?_ id type start last
  unfold Lockf.Valid at ok
  lia

omit [DecidableEq ι] in
theorem Splits.tail (splits : Splits h lock) (ok : lock.Valid) (good : h.Valid) {p : Lockf ι}
    (id : p.id = h.id) (type : p.type = h.type) (start : p.start = wrap32 (lock.last + 1))
    (last : p.last = h.last) : Tail p h lock := by
  have low := splits.start
  have finite := splits.finite
  refine tail_of ok good splits.room finite splits.last ?_ id type start last
  unfold Lockf.Valid at ok
  lia

omit [DecidableEq ι] in
theorem Splits.left (splits : Splits h lock) (sorted : Sorted (A ++ h :: B)) :
    ∀ a ∈ A, a.id = lock.id → Before a lock := by
  intro a member same
  unfold Sorted at sorted
  rw [List.pairwise_append] at sorted
  have order := sorted.2.2 a member h List.mem_cons_self (same.trans splits.id.symm)
  have low := splits.start
  unfold Before at *
  omega

omit [DecidableEq ι] in
theorem Splits.right (splits : Splits h lock) (sorted : Sorted (A ++ h :: B)) :
    ∀ b ∈ B, b.id = lock.id → Before lock b := by
  have last := splits.last
  have finite := splits.finite
  exact after_behind sorted splits.id (by omega)

theorem setPause_spec {list : List (Lockf ι)} (room : SetRoom lock list)
    (paused : setPause lock list = some h) : h ∈ list ∧ Splits h lock := by
  obtain ⟨split, _, found⟩ := findOverlap_self lock list
  unfold setPause at paused
  generalize findOverlap .self lock list = result at split found paused
  obtain ⟨skip, c, rest⟩ := result
  simp only at split found paused
  cases found with
  | finish => cases paused
  | gap => cases paused
  | @hit g t own hit =>
    cases c : ovcase g lock with
    | contains =>
      rw [c] at paused
      dsimp only at paused
      split_ifs at paused with three
      cases paused
      obtain ⟨type, start, last⟩ := three
      have facts := ovcase_contains c
      have member : h ∈ list := by simp [split]
      refine ⟨member, own, by lia, facts.2.1, by lia, fun open_ => ?_⟩
      exact (room h member own open_).resolve_right fun same => type same.1
    | _ =>
      rw [c] at paused
      cases paused

/-- Behind the start of the range there is no lock left that the range is part of. -/
theorem clearPause_behind {unlock : Lockf ι} (fuel : Nat) (before list : List (Lockf ι))
    (woken : List Nat) (behind : ∀ r ∈ list, r.id = unlock.id → unlock.start < r.start) :
    clearPause unlock fuel before list woken = none := by
  induction fuel generalizing before list woken with
  | zero => rfl
  | succ fuel ih =>
    obtain ⟨split, _, found⟩ := findOverlap_self unlock list
    rw [clearPause]
    generalize findOverlap .self unlock list = result at split found
    obtain ⟨skip, c, rest⟩ := result
    simp only at split found
    cases found with
    | finish => rfl
    | gap => rfl
    | @hit g t own hit =>
      have low : unlock.start < g.start := behind g (by simp [split]) own
      have later : ∀ r ∈ t, r.id = unlock.id → unlock.start < r.start :=
        fun r member => behind r (by simp [split, member])
      cases c : ovcase g unlock with
      | contains =>
        have facts := ovcase_contains c
        omega
      | contained => exact ih _ t _ later
      | startsBefore =>
        have facts := ovcase_startsBefore c
        omega
      | _ => rfl

theorem clearPause_spec {unlock : Lockf ι} {list : List (Lockf ι)} (fuel : Nat) {e : Edit ι}
    (sorted : Sorted list) (valid : ∀ l ∈ list, l.Valid) (room : Room unlock list)
    (paused : clearPause unlock fuel [] list [] = some (e, h)) :
    ∃ A B, list = A ++ h :: B ∧ e = ⟨A ++ h.wake :: B, h.block⟩ ∧ Splits h unlock := by
  cases fuel with
  | zero => cases paused
  | succ fuel =>
    obtain ⟨split, _, found⟩ := findOverlap_self unlock list
    rw [clearPause] at paused
    generalize findOverlap .self unlock list = result at split found paused
    obtain ⟨skip, c, rest⟩ := result
    simp only at split found paused
    cases found with
    | finish => cases paused
    | gap => cases paused
    | @hit g t own hit =>
      rw [split] at sorted
      have good : g.Valid := valid g (by simp [split])
      -- the loop goes on from an entry that reaches into the range, and those after it begin there
      have later : unlock.start ≤ g.start ∨ unlock.start ≤ g.last ∨ g.last = -1 →
          ∀ r ∈ t, r.id = unlock.id → unlock.start < r.start := by
        intro reach r member same
        have order := sorted_after sorted member (same.trans own.symm)
        unfold Before at order
        unfold Lockf.Valid at good
        lia
      cases c : ovcase g unlock with
      | contains =>
        rw [c] at paused
        dsimp only at paused
        split_ifs at paused with three
        cases paused
        have facts := ovcase_contains c
        refine ⟨skip, t, split, rfl, own, by lia, facts.2.1, by lia, ?_⟩
        exact room h (by simp [split]) own
      | contained =>
        rw [c] at paused
        have facts := ovcase_contained c
        cases (clearPause_behind fuel _ t _ (later (.inl facts.1))).symm.trans paused
      | startsBefore =>
        rw [c] at paused
        have facts := ovcase_startsBefore c
        cases (clearPause_behind fuel _ t _ (later (.inr facts.2.1))).symm.trans paused
      | _ =>
        rw [c] at paused
        cases paused

omit [DecidableEq ι] in
theorem splitRest_set {fresh : Nat} (splits : Splits h lock) (ok : lock.Valid)
    (sorted : Sorted (A ++ h :: B)) (valid : ∀ l ∈ A ++ h :: B, l.Valid) :
    Edited (lock :: (A ++ h :: B)) (splitRest fresh lock true A h B).list
      (Assigned (A ++ h :: B) lock) := by
  have good : h.Valid := valid h (by simp)
  exact edited_link_split ok sorted valid splits.id (splits.left sorted) (splits.right sorted)
    (splits.front ok good rfl rfl rfl rfl) (splits.tail ok good rfl rfl rfl rfl)

omit [DecidableEq ι] in
theorem splitRest_clear {fresh : Nat} (splits : Splits h lock) (ok : lock.Valid)
    (sorted : Sorted (A ++ h :: B)) (valid : ∀ l ∈ A ++ h :: B, l.Valid) :
    Edited (A ++ h :: B) (splitRest fresh lock false A h B).list (Cleared (A ++ h :: B) lock) := by
  have good : h.Valid := valid h (by simp)
  exact edited_split ok sorted valid splits.id (apart_of_before (splits.left sorted))
    (apart_of_after (splits.right sorted)) (splits.front ok good rfl rfl rfl rfl)
    (splits.tail ok good rfl rfl rfl rfl)

theorem splitRest_kept {fresh : Nat} (own : h.id = lock.id) (bare : lock.block = []) (set : Bool) :
    Kept lock.id (if set then [lock.addr, fresh] else [fresh]) (A ++ h :: B) []
      (splitRest fresh lock set A h B) := by
  cases set with
  | true =>
    refine ⟨by simp [splitRest, Lockf.wake, own], fun a => ?_, fun a => ?_⟩
    · simp [splitRest, Lockf.wake, own, bare]; lia
    · simp [splitRest, Lockf.wake, List.count_cons]; lia
  | false =>
    refine ⟨by simp [splitRest, own], fun a => ?_, fun a => ?_⟩
    · simp [splitRest, own]
    · simp [splitRest, List.count_cons]; lia

omit [DecidableEq ι] in
theorem LockInv.wake (inv : LockInv (A ++ h :: B)) : LockInv (A ++ h.wake :: B) := by
  obtain ⟨id, type, start, last⟩ := Piece.refl h
  have piece : Piece h.wake h := ⟨id, type, start, last⟩
  have good : h.wake.Valid := inv.valid h (by simp)
  have edit : Edited (A ++ h :: B) (A ++ ([h.wake] ++ B)) (Covers (A ++ ([h.wake] ++ B))) := by
    refine ⟨sorted_replace inv.sorted (by simpa using piece) (List.pairwise_singleton _ _),
      valid_replace inv.valid (by simpa using good), ?_, fun _ _ _ => Iff.rfl⟩
    intro l member
    simp only [List.mem_append, List.mem_singleton] at member
    rcases member with member | rfl | member
    · exact ⟨l, by simp [member], .refl l⟩
    · exact ⟨h, by simp, piece⟩
    · exact ⟨l, by simp [member], .refl l⟩
  exact .edited edit inv.compatible

theorem wake_kept (own : h.id = lock.id) :
    Kept lock.id [] (A ++ h :: B) [] ⟨A ++ h.wake :: B, h.block⟩ := by
  refine ⟨by simp [own], fun a => ?_, fun a => ?_⟩
  · simp [own]; lia
  · simp

end Split

section System

/-- A process asleep in the `MALLOC` of `lf_split`: the lock to be split, the request, and
whether `lf_setlock` is the caller. -/
structure Splitter where
  proc : Nat
  overlap : Nat
  lock : Lockf Owner
  set : Bool
  deriving DecidableEq, Repr

structure FileState where
  file : State
  splits : List Splitter
  deriving DecidableEq, Repr

def FileState.init : FileState := ⟨State.init, []⟩

/-- `file` is a step in which `lf_split` does not sleep; a call, or a process back from
`tsleep`, may stop in `lf_split`, and `finish` is its return from `MALLOC`. -/
inductive FileEvent where
  | file (event : Event)
  | call (c : Call)
  | resume (request : Nat)
  | interrupt (request : Nat) (error : Errno)
  | finish (proc : Nat)
  deriving DecidableEq, Repr

def Call.Whole (c : Call) : Prop := ∀ f, c.id = .file f → c.fl.len = 0

/-- The process of a call is not asleep in `lf_split`. -/
def Event.Awake (splits : List Splitter) : Event → Prop
  | .call c _ => c.Whole ∧ ∀ p ∈ splits, p.proc ≠ c.proc
  | .resume _ _ => True
  | .interrupt _ _ => True

/-- The locks that `lf_setlock` drops before it sleeps are those of `flock`, which reach to the
end of file and are never cut in three. -/
inductive FileStep : FileState → FileEvent → FileState → Prop where
  | file {s : FileState} {t : State} {event : Event} :
      event.Awake s.splits → Step s.file event t → FileStep s (.file event) ⟨t, s.splits⟩
  | set {s : FileState} {c : Call} {start : Int} {overlap : Lockf Owner} :
      c.Proper → c.Whole → (∀ w ∈ s.file.waiters, w.proc ≠ c.proc) →
      (∀ p ∈ s.splits, p.proc ≠ c.proc) → c.op = .setlk → c.start = some start → 0 ≤ start →
      getBlock (c.lock s.file.fresh start) s.file.locks = none →
      setPause (c.lock s.file.fresh start) s.file.locks = some overlap →
      FileStep s (.call c) ⟨{ s.file with fresh := s.file.fresh + 1 },
        s.splits ++ [⟨c.proc, overlap.addr, c.lock s.file.fresh start, true⟩]⟩
  | clear {s : FileState} {c : Call} {start : Int} {e : Edit Owner} {overlap : Lockf Owner} :
      c.Proper → c.Whole → (∀ w ∈ s.file.waiters, w.proc ≠ c.proc) →
      (∀ p ∈ s.splits, p.proc ≠ c.proc) → c.op = .unlck → c.start = some start → 0 ≤ start →
      clearPause (c.lock s.file.fresh start) (s.file.locks.length + 1) [] s.file.locks [] =
        some (e, overlap) →
      FileStep s (.call c) ⟨{ s.file with fresh := s.file.fresh + 1 }.edit e,
        s.splits ++ [⟨c.proc, overlap.addr, c.lock s.file.fresh start, false⟩]⟩
  | resume {s : FileState} {w : Waiter} {before after : List Waiter} {overlap : Lockf Owner} :
      s.file.waiters = before ++ w :: after → w.woken = true →
      getBlock w.lock s.file.locks = none → setPause w.lock s.file.locks = some overlap →
      FileStep s (.resume w.lock.addr) ⟨{ s.file with waiters := before ++ after },
        s.splits ++ [⟨w.proc, overlap.addr, w.lock, true⟩]⟩
  | interrupt {s : FileState} {w : Waiter} {before after : List Waiter} {error : Errno}
      {e : Edit Owner} {overlap : Lockf Owner} :
      s.file.waiters = before ++ w :: after → error = .eintr ∨ error = .erestart →
      clearPause w.lock (s.file.locks.length + 1) [] s.file.locks [] = some (e, overlap) →
      FileStep s (.interrupt w.lock.addr error) ⟨{ s.file with waiters := before ++ after }.edit e,
        s.splits ++ [⟨w.proc, overlap.addr, w.lock, false⟩]⟩
  | finish {s : FileState} {p : Splitter} {before after : List Splitter}
      {A B : List (Lockf Owner)} {overlap : Lockf Owner} :
      s.splits = before ++ p :: after → s.file.locks = A ++ overlap :: B →
      overlap.addr = p.overlap →
      FileStep s (.finish p.proc)
        ⟨s.file.edit (splitRest s.file.fresh p.lock p.set A overlap B), before ++ after⟩

/-- A range of offsets: not a negative one, and its last byte is an `off_t`. -/
def Call.InRange (c : Call) : Prop :=
  ∀ start, c.start = some start → start < 2 ^ 31 ∧ c.Fits start

def FileEvent.InRange : FileEvent → Prop
  | .file (.call c _) | .call c => c.InRange
  | _ => True

/-- The condition on a request: where nothing blocks it, and it is not part of a lock of its
type, no lock to the end of file is cut behind the largest offset. -/
def SetMeets (lock : Lockf Owner) (locks : List (Lockf Owner)) : Prop :=
  getBlock lock locks = none → SetRoom lock locks

def Call.Meets (s : State) (c : Call) : Prop :=
  ∀ start, c.start = some start → 0 ≤ start →
    (c.op = .setlk → SetMeets (c.lock s.fresh start) s.locks) ∧
      (c.op = .unlck → Room (c.lock s.fresh start) s.locks)

/-- The condition on a step; where `lf_split` returns to `lf_setlock`, still nothing blocks the
request. -/
def FileEvent.Meets (s : FileState) : FileEvent → Prop
  | .file (.call c _) | .call c => c.Meets s.file
  | .file (.resume request _) | .resume request =>
    ∀ w ∈ s.file.waiters, w.lock.addr = request → SetMeets w.lock s.file.locks
  | .file (.interrupt request _) | .interrupt request _ =>
    ∀ w ∈ s.file.waiters, w.lock.addr = request → Room w.lock s.file.locks
  | .finish proc =>
    ∀ p ∈ s.splits, p.proc = proc → p.set = true → getBlock p.lock s.file.locks = none

def FileHandled (s : FileState) (event : FileEvent) (t : FileState) : Prop :=
  event.Meets s ∧ FileStep s event t

/-- A request with a range of offsets; those of `flock` go to the end of file. -/
structure Asked (lock : Lockf Owner) : Prop where
  valid : lock.Valid
  flock : lock.flags.flock = true → lock.last = -1
  file : ∀ f, lock.id = .file f → lock.last = -1

/-- The lock that is about to be split is on the list as it was found, and the request of
`lf_setlock` on none. -/
structure Allocating (s : State) (p : Splitter) : Prop where
  posix : p.lock.id = .proc p.proc
  valid : p.lock.Valid
  bare : p.lock.block = []
  awake : ∀ w ∈ s.waiters, w.proc ≠ p.proc
  ready : p.set = true → Ready s p.proc p.lock
  overlap : ∃ h ∈ s.locks, h.addr = p.overlap ∧ Splits h p.lock

structure FileInv (s : FileState) : Prop where
  locks : LockInv s.file.locks
  asked : ∀ w ∈ s.file.waiters, Asked w.lock
  chains : ChainInv s.file
  splits : ∀ p ∈ s.splits, Allocating s.file p
  apart : s.splits.Pairwise fun p q =>
    p.proc ≠ q.proc ∧ (p.set = true → q.set = true → p.lock.addr ≠ q.lock.addr)

variable {s t : State} {p : Splitter}

theorem Call.asked {c : Call} (ranges : c.InRange) (whole : c.Whole) {start : Int}
    (known : c.start = some start) (low : 0 ≤ start) (addr : Nat) : Asked (c.lock addr start) := by
  obtain ⟨high, fits⟩ := ranges start known
  have last := c.last_fits low fits
  have open_ : ∀ f, c.id = .file f → c.last start = -1 := by
    intro f owner
    rw [last, if_pos (whole f owner)]
  refine ⟨?_, ?_, open_⟩
  · change 0 ≤ start ∧ start < 2 ^ 31 ∧
      (c.last start = -1 ∨ start ≤ c.last start ∧ c.last start < 2 ^ 31)
    rcases fits with none | some
    · rw [if_pos none] at last
      omega
    · rw [if_neg (by omega)] at last
      omega
  · intro flock
    change (c.id.flags c.wait).flock = true at flock
    cases owner : c.id with
    | proc p =>
      rw [owner] at flock
      cases flock
    | file f => exact open_ f owner

/-- A request that is cut out of the middle of a lock is not one of `flock`. -/
theorem Asked.posix {lock h : Lockf Owner} (asked : Asked lock) (splits : Splits h lock)
    {proc : Nat} (proper : ∀ p, lock.id = .proc p → p = proc) : lock.id = .proc proc := by
  cases owner : lock.id with
  | proc p => rw [proper p owner]
  | file f => exact absurd (asked.file f owner) splits.finite

theorem setLock_locks {out : Outside} {proc : Nat} {lock : Lockf Owner} {result : Result}
    (inv : LockInv s.locks) (asked : Asked lock) (meets : SetMeets lock s.locks)
    (pass : setLock s out proc lock = some (t, result)) : LockInv t.locks := by
  rcases setLock_cases pass with ⟨e, free, insert, rfl, _⟩ | ⟨_, _, _, _, rfl, _⟩ |
    ⟨block, e, _, flock, clear, rfl, _⟩ | ⟨block, _, rfl, _⟩
  · obtain ⟨e', same, edited, _⟩ := inv.insert asked.valid (meets free) free s.fresh
    cases insert.symm.trans same
    exact edited
  · exact inv
  · have short : lock.Short := by
      unfold Lockf.Short
      rw [asked.flock flock]
      decide
    obtain ⟨e', same, edited, _⟩ := inv.clear asked.valid (short.room _) s.fresh
    cases clear.symm.trans same
    exact edited.map _ (addBlock_like _ _)
  · exact inv.map _ (addBlock_like _ _)

theorem edit_asked {e : Edit Owner} (asked : ∀ w ∈ s.waiters, Asked w.lock) :
    ∀ w ∈ (s.edit e).waiters, Asked w.lock := by
  intro w member
  obtain ⟨v, old, same⟩ := wakeup_lock member
  exact same ▸ asked v old

theorem setLock_asked {out : Outside} {proc : Nat} {lock : Lockf Owner} {result : Result}
    (asked : ∀ w ∈ s.waiters, Asked w.lock) (mine : Asked lock)
    (pass : setLock s out proc lock = some (t, result)) : ∀ w ∈ t.waiters, Asked w.lock := by
  have join : ∀ u : State, (∀ w ∈ u.waiters, Asked w.lock) → ∀ block,
      ∀ w ∈ (u.sleep proc lock block).waiters, Asked w.lock := by
    intro u before block w member
    rcases List.mem_append.mp member with member | member
    · exact before w member
    · rw [List.mem_singleton.mp member]
      exact mine
  rcases setLock_cases pass with ⟨e, _, _, rfl, _⟩ | ⟨_, _, _, _, rfl, _⟩ |
    ⟨block, e, _, _, _, rfl, _⟩ | ⟨block, _, rfl, _⟩
  · exact edit_asked asked
  · exact asked
  · exact join _ (edit_asked asked) block
  · exact join _ asked block

section Frame

theorem Allocating.edit (allocating : Allocating s p) {id : Owner} {allocated : List Nat}
    {e : Edit Owner} (kept : Kept id allocated s.locks [] e) (differ : p.lock.id ≠ id)
    (other : p.set = true → p.lock.addr ∉ allocated) : Allocating (s.edit e) p := by
  obtain ⟨posix, valid, bare, awake, ready, h, member, addr, splits⟩ := allocating
  refine ⟨posix, valid, bare, ?_, fun set => (ready set).edit kept (other set), h, ?_, addr, splits⟩
  · intro w found
    obtain ⟨v, old, _, same, _⟩ := wakeup_cases found
    rw [same]
    exact awake v old
  · exact (kept.mem_of_ne (splits.id ▸ differ)).mpr member

theorem Allocating.sleep (allocating : Allocating s p) {proc : Nat} {lock block : Lockf Owner}
    (idle : proc ≠ p.proc) (other : p.set = true → lock.addr ≠ p.lock.addr) :
    Allocating (s.sleep proc lock block) p := by
  obtain ⟨posix, valid, bare, awake, mine, h, member, addr, splits⟩ := allocating
  have procs : ∀ w ∈ (s.sleep proc lock block).waiters, w.proc ≠ p.proc := by
    intro w found
    rcases List.mem_append.mp found with old | new
    · exact awake w old
    · rw [List.mem_singleton.mp new]
      exact idle
  refine ⟨posix, valid, bare, procs, fun set => ?_, ?_⟩
  · obtain ⟨unlocked, free, unchained, below, _, _, proper⟩ := mine set
    refine ⟨?_, ?_, ?_, below, bare, procs, proper⟩
    · change p.lock.addr ∉ (addBlock block.addr lock.addr s.locks).map (·.addr)
      rw [addBlock_addrs]
      exact unlocked
    · change p.lock.addr ∉ (s.waiters ++ [(⟨proc, lock, block.addr, false⟩ : Waiter)]).map
        (·.lock.addr)
      rw [List.map_append, List.mem_append, not_or]
      exact ⟨free, by simpa using Ne.symm (other set)⟩
    · intro found
      obtain ⟨l, new, chained⟩ := mem_chains.mp found
      obtain ⟨g, old, _, _, same | ⟨_, same⟩⟩ := mem_addBlock new
      · exact unchained (mem_chains.mpr ⟨g, old, same ▸ chained⟩)
      · rw [same, List.mem_append, List.mem_singleton] at chained
        rcases chained with chained | chained
        · exact unchained (mem_chains.mpr ⟨g, old, chained⟩)
        · exact other set chained.symm
  · have like := addBlock_like block.addr lock.addr h
    refine ⟨_, List.mem_map_of_mem member, ?_, splits.like like⟩
    split
    · exact addr
    · exact addr

theorem Allocating.remove (allocating : Allocating s p) {w : Waiter} {before after : List Waiter}
    (split : s.waiters = before ++ w :: after) :
    Allocating { s with waiters := before ++ after } p := by
  obtain ⟨posix, valid, bare, awake, ready, overlap⟩ := allocating
  have fewer : ∀ v ∈ before ++ after, v ∈ s.waiters := fun v found => mem_of_remove split found
  refine ⟨posix, valid, bare, fun v found => awake v (fewer v found), fun set => ?_, overlap⟩
  obtain ⟨unlocked, free, unchained, below, _, awake, proper⟩ := ready set
  refine ⟨unlocked, fun found => ?_, unchained, below, bare, fun v found => awake v (fewer v found),
    proper⟩
  obtain ⟨v, old, same⟩ := List.mem_map.mp found
  exact free (same ▸ List.mem_map_of_mem (fewer v old))

theorem Allocating.later (allocating : Allocating s p) (locks : t.locks = s.locks)
    (waiters : t.waiters = s.waiters) (fresh : s.fresh ≤ t.fresh) : Allocating t p := by
  obtain ⟨posix, valid, bare, awake, ready, overlap⟩ := allocating
  refine ⟨posix, valid, bare, waiters ▸ awake, fun set => ?_, locks ▸ overlap⟩
  obtain ⟨unlocked, free, unchained, below, _, awake, proper⟩ := ready set
  exact ⟨locks ▸ unlocked, waiters ▸ free, locks ▸ unchained, below.trans_le fresh, bare,
    waiters ▸ awake, proper⟩

theorem Allocating.setLock (allocating : Allocating s p) {out : Outside} {proc : Nat}
    {lock : Lockf Owner} {result : Result} (ready : Ready s proc lock) (idle : proc ≠ p.proc)
    (other : p.set = true → lock.addr ≠ p.lock.addr)
    (pass : setLock s out proc lock = some (t, result)) : Allocating t p := by
  have differ : p.lock.id ≠ lock.id := by
    intro same
    exact idle (ready.posix p.proc (same ▸ allocating.posix)).symm
  have fresh : p.set = true → p.lock.addr ≠ s.fresh := by
    intro set
    exact Nat.ne_of_lt (allocating.ready set).below
  rcases setLock_cases pass with ⟨e, _, insert, rfl, _⟩ | ⟨_, _, _, _, rfl, _⟩ |
    ⟨block, e, blocked, _, clear, rfl, _⟩ | ⟨block, _, rfl, _⟩
  · refine allocating.edit (insertLock_kept ready.bare insert) differ fun set => ?_
    simpa using ⟨Ne.symm (other set), fresh set⟩
  · exact allocating
  · have kept := clearLock_kept clear
    exact (allocating.edit kept differ fun set => by simpa using fresh set).sleep idle other
  · exact allocating.sleep idle other

end Frame

section Invariant

variable {splits : List Splitter}

theorem FileInv.allocate (inv : FileInv ⟨s, splits⟩) :
    FileInv ⟨{ s with fresh := s.fresh + 1 }, splits⟩ :=
  ⟨inv.locks, inv.asked, inv.chains.allocate,
    fun p member => (inv.splits p member).later rfl rfl (Nat.le_succ _), inv.apart⟩

theorem FileInv.remove (inv : FileInv ⟨s, splits⟩) {w : Waiter} {before after : List Waiter}
    (split : s.waiters = before ++ w :: after) :
    FileInv ⟨{ s with waiters := before ++ after }, splits⟩ :=
  ⟨inv.locks, fun v member => inv.asked v (mem_of_remove split member), inv.chains.remove split,
    fun p member => (inv.splits p member).remove split, inv.apart⟩

theorem FileInv.edit (inv : FileInv ⟨s, splits⟩) {id : Owner} {allocated : List Nat}
    {e : Edit Owner} (kept : Kept id allocated s.locks [] e) (edited : LockInv e.list)
    (new : ∀ a, allocated.count a + (s.locks.map (·.addr)).count a +
      (s.waiters.map (·.lock.addr)).count a ≤ 1)
    (below : ∀ a ∈ allocated, a ≤ s.fresh)
    (others : ∀ p ∈ splits, p.lock.id ≠ id ∧ (p.set = true → p.lock.addr ∉ allocated)) :
    FileInv ⟨s.edit e, splits⟩ := by
  refine ⟨edited, edit_asked inv.asked, inv.chains.edit kept new below, ?_, inv.apart⟩
  intro p member
  obtain ⟨differ, other⟩ := others p member
  exact (inv.splits p member).edit kept differ other

theorem FileInv.push (inv : FileInv ⟨s, splits⟩) {q : Splitter} (allocating : Allocating s q)
    (idle : ∀ p ∈ splits, p.proc ≠ q.proc)
    (other : ∀ p ∈ splits, p.set = true → q.set = true → p.lock.addr ≠ q.lock.addr) :
    FileInv ⟨s, splits ++ [q]⟩ := by
  refine ⟨inv.locks, inv.asked, inv.chains, ?_, ?_⟩
  · intro p member
    rcases List.mem_append.mp member with old | new
    · exact inv.splits p old
    · rw [List.mem_singleton.mp new]
      exact allocating
  · refine List.pairwise_append.mpr ⟨inv.apart, List.pairwise_singleton _ _, ?_⟩
    intro p old r new
    rw [List.mem_singleton.mp new]
    exact ⟨idle p old, other p old⟩

/-- The owner of a request whose process is not in `lf_split` is none of those that are. -/
theorem FileInv.differ (inv : FileInv ⟨s, splits⟩) {proc : Nat} {lock : Lockf Owner}
    (proper : ∀ p, lock.id = .proc p → p = proc) (idle : ∀ p ∈ splits, p.proc ≠ proc) :
    ∀ p ∈ splits, p.lock.id ≠ lock.id := by
  intro p member same
  exact idle p member (proper p.proc (same ▸ (inv.splits p member).posix))

theorem FileInv.setLock (inv : FileInv ⟨s, splits⟩) {out : Outside} {proc : Nat}
    {lock : Lockf Owner} {result : Result} (ready : Ready s proc lock) (asked : Asked lock)
    (meets : SetMeets lock s.locks) (idle : ∀ p ∈ splits, p.proc ≠ proc)
    (other : ∀ p ∈ splits, p.set = true → p.lock.addr ≠ lock.addr)
    (pass : setLock s out proc lock = some (t, result)) : FileInv ⟨t, splits⟩ := by
  refine ⟨setLock_locks inv.locks asked meets pass, setLock_asked inv.asked asked pass,
    inv.chains.setLock ready pass, ?_, inv.apart⟩
  intro p member
  exact (inv.splits p member).setLock ready (Ne.symm (idle p member))
    (fun set => Ne.symm (other p member set)) pass

theorem FileInv.clearLock (inv : FileInv ⟨s, splits⟩) {proc : Nat} {unlock : Lockf Owner}
    {e : Edit Owner} (asked : Asked unlock) (proper : ∀ p, unlock.id = .proc p → p = proc)
    (room : Room unlock s.locks) (idle : ∀ p ∈ splits, p.proc ≠ proc)
    (clear : clearLock s.fresh unlock s.locks = some e) : FileInv ⟨s.edit e, splits⟩ := by
  obtain ⟨e', same, edited, _⟩ := inv.locks.clear asked.valid room s.fresh
  cases clear.symm.trans same
  have kept := clearLock_kept clear
  refine ⟨edited, edit_asked inv.asked, inv.chains.clear clear, ?_, inv.apart⟩
  intro p member
  refine (inv.splits p member).edit kept (inv.differ proper idle p member) fun set => ?_
  simpa using Nat.ne_of_lt ((inv.splits p member).ready set).below

theorem FileInv.setPause (inv : FileInv ⟨s, splits⟩) {proc : Nat} {lock h : Lockf Owner}
    (ready : Ready s proc lock) (asked : Asked lock) (room : SetRoom lock s.locks)
    (idle : ∀ p ∈ splits, p.proc ≠ proc)
    (other : ∀ p ∈ splits, p.set = true → p.lock.addr ≠ lock.addr)
    (paused : setPause lock s.locks = some h) :
    FileInv ⟨s, splits ++ [⟨proc, h.addr, lock, true⟩]⟩ := by
  obtain ⟨member, cut⟩ := setPause_spec room paused
  refine inv.push ⟨asked.posix cut ready.posix, asked.valid, ready.bare, ready.awake,
    fun _ => ready, h, member, rfl, cut⟩ idle ?_
  exact fun p old set _ => other p old set

theorem FileInv.clearPause (inv : FileInv ⟨s, splits⟩) {proc fuel : Nat} {unlock h : Lockf Owner}
    {e : Edit Owner} (asked : Asked unlock) (proper : ∀ p, unlock.id = .proc p → p = proc)
    (bare : unlock.block = []) (room : Room unlock s.locks)
    (awake : ∀ w ∈ s.waiters, w.proc ≠ proc) (idle : ∀ p ∈ splits, p.proc ≠ proc)
    (paused : clearPause unlock fuel [] s.locks [] = some (e, h)) :
    FileInv ⟨s.edit e, splits ++ [⟨proc, h.addr, unlock, false⟩]⟩ := by
  obtain ⟨A, B, split, rfl, cut⟩ :=
    clearPause_spec fuel inv.locks.sorted inv.locks.valid room paused
  have kept : Kept unlock.id [] s.locks [] ⟨A ++ h.wake :: B, h.block⟩ := split ▸ wake_kept cut.id
  have edited : LockInv (A ++ h.wake :: B) := LockInv.wake (split ▸ inv.locks)
  have left := inv.edit kept edited (fun a => by simpa using inv.chains.addrs a) (by simp)
    fun p member => ⟨inv.differ proper idle p member, fun _ => by simp⟩
  refine left.push ⟨asked.posix cut proper, asked.valid, bare, ?_, (by simp), h.wake,
    by simp [State.edit], rfl, cut.like ⟨rfl, rfl, rfl, rfl⟩⟩ idle (by simp)
  intro w found
  obtain ⟨v, old, _, same, _⟩ := wakeup_cases found
  rw [same]
  exact awake v old

theorem FileInv.addr_lt (inv : FileInv ⟨s, splits⟩) :
    ∀ p ∈ splits, p.set = true → p.lock.addr ≠ s.fresh :=
  fun p member set => Nat.ne_of_lt ((inv.splits p member).ready set).below

theorem FileInv.addr_waiter (inv : FileInv ⟨s, splits⟩) {w : Waiter} (member : w ∈ s.waiters) :
    ∀ p ∈ splits, p.set = true → p.lock.addr ≠ w.lock.addr := by
  intro p found set same
  refine ((inv.splits p found).ready set).idle ?_
  rw [same]
  exact List.mem_map_of_mem (f := fun w : Waiter => w.lock.addr) member

theorem FileInv.idle_waiter (inv : FileInv ⟨s, splits⟩) {w : Waiter} (member : w ∈ s.waiters) :
    ∀ p ∈ splits, p.proc ≠ w.proc :=
  fun p found => Ne.symm ((inv.splits p found).awake w member)

theorem FileInv.file (inv : FileInv ⟨s, splits⟩) {event : Event} (awake : event.Awake splits)
    (ranges : FileEvent.InRange (.file event)) (meets : FileEvent.Meets ⟨s, splits⟩ (.file event))
    (step : Step s event t) : FileInv ⟨t, splits⟩ := by
  have chains := inv.chains.step step
  cases step with
  | @call _ out c result proper idle call =>
    obtain ⟨whole, idle'⟩ := awake
    rcases advlock_cases call with ⟨locks, waiters, fresh, _⟩ | ⟨start, known, low, op, pass⟩ |
      ⟨start, e, known, low, op, clear, rfl, _⟩
    · exact ⟨locks ▸ inv.locks, waiters ▸ inv.asked, chains,
        fun p member => (inv.splits p member).later locks waiters fresh, inv.apart⟩
    · exact inv.allocate.setLock (inv.chains.ready_call proper idle start)
        (c.asked ranges whole known low _) ((meets start known low).1 op) idle' inv.addr_lt pass
    · exact inv.allocate.clearLock (c.asked ranges whole known low _) proper
        ((meets start known low).2 op) idle' clear
  | @resume _ out w before after result split woken pass =>
    have member : w ∈ s.waiters := by simp [split]
    exact (inv.remove split).setLock (inv.chains.ready split woken) (inv.asked w member)
      (meets w member rfl) (inv.idle_waiter member) (inv.addr_waiter member) pass
  | @interrupt w before after error e split _ clear =>
    have member : w ∈ s.waiters := by simp [split]
    exact (inv.remove split).clearLock (inv.asked w member) (inv.chains.posix w member)
      (meets w member rfl) (inv.idle_waiter member) clear

/-- The return from `MALLOC`: the lock to be split is as it was, and nothing blocks the request. -/
theorem FileInv.finish {before after : List Splitter} (inv : FileInv ⟨s, before ++ p :: after⟩)
    {A B : List (Lockf Owner)} {overlap : Lockf Owner} (split : s.locks = A ++ overlap :: B)
    (here : overlap.addr = p.overlap) (free : p.set = true → getBlock p.lock s.locks = none) :
    FileInv ⟨s.edit (splitRest s.fresh p.lock p.set A overlap B), before ++ after⟩ := by
  obtain ⟨posix, valid, bare, _, ready, h, member, addr, cut⟩ := inv.splits p (by simp)
  have unique : (s.locks.map (·.addr)).Nodup :=
    List.nodup_iff_count_le_one.mpr fun a => by have := inv.chains.addrs a; lia
  have same : h = overlap :=
    List.inj_on_of_nodup_map unique member (by simp [split]) (addr.trans here.symm)
  rw [same] at cut
  have sub : List.Sublist (before ++ after) (before ++ p :: after) :=
    List.Sublist.append_left (List.sublist_cons_self p after) before
  have rest : FileInv ⟨s, before ++ after⟩ :=
    ⟨inv.locks, inv.asked, inv.chains, fun q found => inv.splits q (sub.subset found),
      inv.apart.sublist sub⟩
  have apart : ∀ q ∈ before ++ after,
      q.proc ≠ p.proc ∧ (q.set = true → p.set = true → q.lock.addr ≠ p.lock.addr) := by
    have pairs := inv.apart
    rw [List.pairwise_append, List.pairwise_cons] at pairs
    obtain ⟨_, ⟨later, _⟩, across⟩ := pairs
    intro q found
    rcases List.mem_append.mp found with early | late
    · exact across q early p List.mem_cons_self
    · obtain ⟨procs, addrs⟩ := later q late
      exact ⟨Ne.symm procs, fun set mine => Ne.symm (addrs mine set)⟩
  have kept : Kept p.lock.id (if p.set then [p.lock.addr, s.fresh] else [s.fresh]) s.locks []
      (splitRest s.fresh p.lock p.set A overlap B) := split ▸ splitRest_kept cut.id bare p.set
  have old := inv.locks
  have edited : LockInv (splitRest s.fresh p.lock p.set A overlap B).list := by
    cases set : p.set with
    | true =>
      have compatible := old.granted (free set)
      rw [split] at old compatible
      exact .edited (splitRest_set cut valid old.sorted old.valid) compatible
    | false =>
      rw [split] at old
      exact .edited (splitRest_clear cut valid old.sorted old.valid) old.compatible
  have others : ∀ q ∈ before ++ after, q.lock.id ≠ p.lock.id := by
    intro q found owner
    rw [posix, (rest.splits q found).posix] at owner
    exact (apart q found).1 (Owner.proc.inj owner)
  cases set : p.set with
  | true =>
    simp only [set, if_true] at kept edited ⊢
    have ready := ready set
    have below : p.lock.addr < s.fresh := ready.below
    refine rest.edit kept edited (inv.chains.request_once ready) (by simpa using by omega) ?_
    intro q found
    refine ⟨others q found, fun mine => ?_⟩
    simpa using ⟨(apart q found).2 mine set, rest.addr_lt q found mine⟩
  | false =>
    simp only [set, Bool.false_eq_true, if_false] at kept edited ⊢
    refine rest.edit kept edited inv.chains.fresh_once (by simp) ?_
    intro q found
    exact ⟨others q found, fun mine => by simpa using rest.addr_lt q found mine⟩

end Invariant

theorem FileInv.step {s t : FileState} {event : FileEvent} (inv : FileInv s)
    (ranges : event.InRange) (meets : event.Meets s) (step : FileStep s event t) : FileInv t := by
  cases step with
  | file awake step => exact inv.file awake ranges meets step
  | @set c start overlap proper whole idle idle' op known low free paused =>
    refine inv.allocate.setPause (inv.chains.ready_call proper idle start)
      (c.asked ranges whole known low _) ?_ idle' inv.addr_lt paused
    exact (meets start known low).1 op free
  | @clear c start e overlap proper whole idle idle' op known low paused =>
    exact inv.allocate.clearPause (c.asked ranges whole known low _) proper rfl
      ((meets start known low).2 op) idle idle' paused
  | @resume w before after overlap split woken free paused =>
    have member : w ∈ s.file.waiters := by simp [split]
    exact (inv.remove split).setPause (inv.chains.ready split woken) (inv.asked w member)
      (meets w member rfl free) (inv.idle_waiter member) (inv.addr_waiter member) paused
  | @interrupt w before after error e overlap split _ paused =>
    have member : w ∈ s.file.waiters := by simp [split]
    have awake : ∀ v ∈ before ++ after, v.proc ≠ w.proc := by
      have procs := inv.chains.procs
      rw [split, List.map_append, List.map_cons, List.nodup_middle, List.nodup_cons] at procs
      intro v found same
      refine procs.1 ?_
      rw [← List.map_append, ← same]
      exact List.mem_map_of_mem found
    exact (inv.remove split).clearPause (inv.asked w member) (inv.chains.posix w member)
      (inv.chains.bare w member) (meets w member rfl) awake (inv.idle_waiter member) paused
  | @finish p before after A B overlap splits split here =>
    obtain ⟨file, _⟩ := s
    cases splits
    exact inv.finish split here (meets p (by simp) rfl)

theorem FileInv.init : FileInv FileState.init :=
  ⟨StateInv.init.locks, (by rintro _ ⟨⟩), ChainInv.init, (by rintro _ ⟨⟩), .nil⟩

/-- Each owner's entries are disjoint and in increasing order, and entries of different
owners that share a byte are both read locks. -/
structure Consistent (list : List (Lockf Owner)) : Prop where
  ordered : list.Pairwise fun a b => a.id = b.id →
    a.start < b.start ∧ ∀ x, ¬ (a.Contains x ∧ b.Contains x)
  shared : ∀ a ∈ list, ∀ b ∈ list, a.id ≠ b.id → (∃ x, a.Contains x ∧ b.Contains x) →
    a.type = .rdlck ∧ b.type = .rdlck

theorem Before.disjoint {a b : Lockf Owner} (order : Before a b) (x : Int) :
    ¬ (a.Contains x ∧ b.Contains x) := by
  unfold Before at order
  unfold Lockf.Contains
  omega

/-- In every interleaving of requests, unlocks, wakeups and interruptions, with any of them
stopped in `lf_split`. -/
theorem lock_list_consistent {events : List FileEvent} {s : FileState}
    (run : Run FileHandled FileState.init events s) (ranges : ∀ event ∈ events, event.InRange) :
    Consistent s.file.locks := by
  have preserved : ∀ s event t, FileEvent.InRange event → FileInv s → FileHandled s event t →
      FileInv t := by
    intro s event t ranges inv handled
    exact inv.step ranges handled.1 handled.2
  obtain ⟨sorted, valid, compatible⟩ := (run.invariant preserved ranges FileInv.init).locks
  refine ⟨?_, ?_⟩
  · refine List.Pairwise.imp_of_mem ?_ sorted
    intro a b memberA _ order same
    have before := order same
    have good := valid a memberA
    refine ⟨?_, before.disjoint⟩
    unfold Before Lockf.Valid at *
    omega
  · rintro a memberA b memberB differ ⟨x, both⟩
    rcases compatible a memberA b memberB differ with order | order | readers
    · exact absurd both (order.disjoint x)
    · exact absurd both.symm (order.disjoint x)
    · exact readers

theorem FileStep.atOnce {s : FileState} {t : State} {result : Result} {proc : Nat} {op : Op}
    {type : LockType} {start len : Int} (idle : ∀ w ∈ s.file.waiters, w.proc ≠ proc)
    (awake : ∀ p ∈ s.splits, p.proc ≠ proc)
    (call : advlock s.file .quiet (fcntlCall proc false op type start len) = some (t, result)) :
    FileStep s (.file (.call (fcntlCall proc false op type start len) result)) ⟨t, s.splits⟩ :=
  .file ⟨(by rintro _ ⟨⟩), awake⟩ (fcntlCall_step idle call)

theorem fcntlCall_proper {proc : Nat} {op : Op} {type : LockType} {start len : Int} :
    (fcntlCall proc false op type start len).Proper := by
  intro p same
  cases same
  rfl

theorem FileStep.setlk {s : FileState} {overlap : Lockf Owner} {proc : Nat} {type : LockType}
    {start len : Int} (idle : ∀ w ∈ s.file.waiters, w.proc ≠ proc)
    (awake : ∀ p ∈ s.splits, p.proc ≠ proc) (low : 0 ≤ start)
    (free : getBlock ((fcntlCall proc false .setlk type start len).lock s.file.fresh start)
      s.file.locks = none)
    (paused : setPause ((fcntlCall proc false .setlk type start len).lock s.file.fresh start)
      s.file.locks = some overlap) :
    FileStep s (.call (fcntlCall proc false .setlk type start len))
      ⟨{ s.file with fresh := s.file.fresh + 1 },
        s.splits ++ [⟨proc, overlap.addr,
          (fcntlCall proc false .setlk type start len).lock s.file.fresh start, true⟩]⟩ :=
  .set fcntlCall_proper (by rintro _ ⟨⟩) idle awake rfl rfl low free paused

theorem FileStep.unlck {s : FileState} {e : Edit Owner} {overlap : Lockf Owner} {proc : Nat}
    {type : LockType} {start len : Int} (idle : ∀ w ∈ s.file.waiters, w.proc ≠ proc)
    (awake : ∀ p ∈ s.splits, p.proc ≠ proc) (low : 0 ≤ start)
    (paused : clearPause ((fcntlCall proc false .unlck type start len).lock s.file.fresh start)
      (s.file.locks.length + 1) [] s.file.locks [] = some (e, overlap)) :
    FileStep s (.call (fcntlCall proc false .unlck type start len))
      ⟨{ s.file with fresh := s.file.fresh + 1 }.edit e,
        s.splits ++ [⟨proc, overlap.addr,
          (fcntlCall proc false .unlck type start len).lock s.file.fresh start, false⟩]⟩ :=
  .clear fcntlCall_proper (by rintro _ ⟨⟩) idle awake rfl rfl low paused

theorem FileStep.first {s : FileState} {p : Splitter} {overlap : Lockf Owner}
    {B : List (Lockf Owner)} {proc : Nat} (splits : s.splits = [p])
    (locks : s.file.locks = overlap :: B) (here : overlap.addr = p.overlap) (mine : p.proc = proc) :
    FileStep s (.finish proc)
      ⟨s.file.edit (splitRest s.file.fresh p.lock p.set [] overlap B), []⟩ := by
  subst mine
  exact @FileStep.finish s p [] [] [] B overlap splits locks here

theorem FileEvent.meets_first {s : FileState} {p : Splitter} {proc : Nat} (splits : s.splits = [p])
    (free : p.set = true → getBlock p.lock s.file.locks = none) :
    (FileEvent.finish proc).Meets s := by
  intro q member _
  rw [splits, List.mem_singleton] at member
  rw [member]
  exact free

/-- A range that ends below the largest offset is in range and never cuts at it. -/
theorem Call.Regular.meets {c : Call} (regular : c.Regular) (s : State) :
    c.InRange ∧ c.Meets s := by
  refine ⟨fun start known => ?_, fun start known low => ?_⟩
  · have high := regular.2 start known
    have len := regular.1
    unfold Call.Fits
    omega
  · obtain ⟨_, short⟩ := c.lock_valid regular known low s.fresh
    exact ⟨fun _ _ => (short.room _).set, fun _ => short.room _⟩

theorem fcntlCall_regular {proc : Nat} {op : Op} {type : LockType} {start len : Int}
    (positive : 0 ≤ len) (high : start + len < 2 ^ 31) :
    (fcntlCall proc false op type start len).Regular := by
  refine ⟨positive, ?_⟩
  intro first known
  cases known
  exact high

/-- Process 1 write-locks bytes 3 to 6 of its read lock, process 2 gets a read lock from `start`
on while the first is in `lf_split`, and the first goes on. -/
def inSplit (start : Int) : List FileEvent :=
  [.file (.call (fcntlCall 1 false .setlk .rdlck 0 0) .done),
    .call (fcntlCall 1 false .setlk .wrlck 3 4),
    .file (.call (fcntlCall 2 false .setlk .rdlck start 9) .done),
    .finish 1]

/-- Then process 1 gives up byte 1, and process 2 has a second lock meanwhile. -/
def inSplitTwice : List FileEvent :=
  inSplit 20 ++ [.call (fcntlCall 1 false .unlck .rdlck 1 1),
    .file (.call (fcntlCall 2 false .setlk .rdlck 40 9) .done),
    .finish 1]

theorem lock_list_consistent_split : ∃ s, Run FileHandled FileState.init inSplitTwice s ∧
    s.file.locks.length = 6 ∧ Consistent s.file.locks := by
  have meets : ∀ {proc op type start len} (s : State), 0 ≤ len → start + len < 2 ^ 31 →
      (fcntlCall proc false op type start len).Meets s :=
    fun s positive high => ((fcntlCall_regular positive high).meets s).2
  have run : Run FileHandled FileState.init inSplitTwice _ :=
    .cons ⟨meets _ (by decide) (by decide), .atOnce (by decide) (by decide) rfl⟩
      (.cons ⟨meets _ (by decide) (by decide), .setlk (by decide) (by decide) (by decide) rfl rfl⟩
        (.cons ⟨meets _ (by decide) (by decide), .atOnce (by decide) (by decide) rfl⟩
          (.cons ⟨FileEvent.meets_first rfl (by decide), .first rfl rfl rfl rfl⟩
            (.cons ⟨meets _ (by decide) (by decide), .unlck (by decide) (by decide) (by decide) rfl⟩
              (.cons ⟨meets _ (by decide) (by decide), .atOnce (by decide) (by decide) rfl⟩
                (.cons ⟨FileEvent.meets_first rfl (by decide), .first rfl rfl rfl rfl⟩
                  (.nil _)))))))
  refine ⟨_, run, rfl, lock_list_consistent run ?_⟩
  have ranges : ∀ {proc op type start len}, 0 ≤ len → start + len < 2 ^ 31 →
      (fcntlCall proc false op type start len).InRange :=
    fun positive high => ((fcntlCall_regular positive high).meets State.init).1
  simp only [inSplitTwice, inSplit, List.cons_append, List.nil_append, List.forall_mem_cons]
  exact ⟨ranges (by decide) (by decide), ranges (by decide) (by decide),
    ranges (by decide) (by decide), trivial, ranges (by decide) (by decide),
    ranges (by decide) (by decide), trivial, by simp⟩

/-- Process 1 holds bytes 0 to 9 and 20 to the end of file, and gives up 30 to 2^31 - 1. -/
def atEnd : List FileEvent :=
  [.file (.call (fcntlCall 1 false .setlk .wrlck 0 10) .done),
    .file (.call (fcntlCall 1 false .setlk .rdlck 20 0) .done),
    .file (.call (fcntlCall 1 false .unlck .rdlck 30 (2 ^ 31 - 30)) .done)]

/-- A read lock on bytes 0 to 8 is granted beside a write lock on bytes 3 to 6; and what is left
of a lock to the end of file begins at -2^31. -/
theorem lock_list_inconsistent : (∀ event ∈ inSplit 0 ++ atEnd, event.InRange) ∧
    (∃ s, Run FileStep FileState.init (inSplit 0) s ∧ ¬ Consistent s.file.locks) ∧
    ∃ s, Run FileStep FileState.init atEnd s ∧ ¬ Consistent s.file.locks := by
  refine ⟨?_, ?_, ?_⟩
  · have ranges : ∀ {proc op type start len}, start < 2 ^ 31 →
        (fcntlCall proc false op type start len).Fits start →
        (fcntlCall proc false op type start len).InRange := by
      intro proc op type start len high fits first known
      cases known
      exact ⟨high, fits⟩
    simp only [inSplit, atEnd, List.cons_append, List.nil_append, List.forall_mem_cons]
    exact ⟨ranges (by decide) (.inl rfl), ranges (by decide) (.inr (by decide)),
      ranges (by decide) (.inr (by decide)), trivial, ranges (by decide) (.inr (by decide)),
      ranges (by decide) (.inl rfl), ranges (by decide) (.inr (by decide)), by simp⟩
  · have run : Run FileStep FileState.init (inSplit 0) _ :=
      .cons (.atOnce (by decide) (by decide) rfl)
        (.cons (.setlk (by decide) (by decide) (by decide) rfl rfl)
          (.cons (.atOnce (by decide) (by decide) rfl) (.cons (.first rfl rfl rfl rfl) (.nil _))))
    refine ⟨_, run, fun consistent => ?_⟩
    have both := consistent.shared _ (List.mem_cons_of_mem _ List.mem_cons_self) _
      (List.mem_cons_of_mem _ (List.mem_cons_of_mem _ (List.mem_cons_of_mem _ List.mem_cons_self)))
      (by decide) ⟨4, by decide⟩
    exact absurd both.1 (by decide)
  · have run : Run FileStep FileState.init atEnd _ :=
      .cons (.atOnce (by decide) (by decide) rfl)
        (.cons (.atOnce (by decide) (by decide) rfl)
          (.cons (.atOnce (by decide) (by decide) rfl) (.nil _)))
    refine ⟨_, run, fun consistent => ?_⟩
    have order := (List.pairwise_cons.mp consistent.ordered).1 _
      (List.mem_cons_of_mem _ List.mem_cons_self) (by decide)
    exact absurd order.1 (by decide)

end System

end FreeBsd.Ufs
