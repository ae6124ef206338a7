import FreeBsd.Compress.Compress

/-! decompress() on whatever bytes it is given. The walk down the prefixes ends as long as every
code that is read stands for something: `code >= free_ent` lets in the codes that do not, and the
first code is not looked at. -/
namespace FreeBsd.Compress

section Passes

/-- The characters for which there is room from `de_stack` to the end of `htab`. -/
def stackRoom : Nat := 4 * HSIZE - 2 ^ BITS

/-- The codes at which the tables are read, from `code` on. Each puts a character onto the stack. -/
inductive Walk (d : Decomp) : Nat → List Nat → Prop where
  | stop {code : Nat} : code < 256 → Walk d code [code]
  | down {code : Nat} {trace : List Nat} :
      256 ≤ code → Walk d (d.tab_prefix code).toNat trace → Walk d code (code :: trace)

def Decomp.cleared (d : Decomp) :
    Decomp := { d.plain with clear_flg := true, free_ent := FIRST - 1 }

/-- The code of a pass of the loop. After a CLEAR it is the next one, whatever that is. -/
def Decomp.next (a : Args) (d : Decomp) : Decomp × Option Nat :=
  if (d.getcode a).2 = some CLEAR ∧ a.block_compress then (d.getcode a).1.cleared.getcode a
  else d.getcode a

structure Pass where
  d : Decomp
  oldcode : Nat
  finchar : Byte
  code : Nat

inductive Passes (a : Args) : Decomp → Nat → Byte → Pass → Prop where
  | here {d : Decomp} {oldcode code : Nat} {finchar : Byte} :
      (d.next a).2 = some code → Passes a d oldcode finchar ⟨(d.next a).1, oldcode, finchar, code⟩
  | later {d : Decomp} {oldcode code fuel : Nat} {finchar : Byte} {r : Decomp × Byte × List Byte}
    {p : Pass} :
      (d.next a).2 = some code → (d.next a).1.expand fuel a oldcode finchar code = some r →
      Passes a r.1 code r.2.1 p → Passes a d oldcode finchar p

def Pass.top (p : Pass) : Nat := if p.code ≥ p.d.free_ent then p.oldcode else p.code

/-- The walk of a pass ends, inside the tables and the stack, and so does the entry that it makes.
-/
structure Pass.Inside (a : Args) (p : Pass) : Prop where
  walk : ∃ trace, Walk p.d p.top trace ∧ (∀ i ∈ trace, i < 2 ^ BITS) ∧
    trace.length + (if p.code ≥ p.d.free_ent then 1 else 0) ≤ stackRoom
  entry : p.d.free_ent < a.maxmaxcode → p.d.free_ent < 2 ^ BITS

def Decomp.opened (a : Args) (d : Decomp) : Decomp :=
  { d.plain with
    width := .init, free_ent := a.first
    tab_suffix := fun code => if code < 256 then BitVec.ofNat 8 code else d.tab_suffix code }

/-- The passes after `first`, the code that is read before the loop. -/
def Decomp.Comes (a : Args) (d : Decomp) (first : Nat) (p : Pass) : Prop :=
  ((d.opened a).getcode a).2 = some first ∧
    Passes a ((d.opened a).getcode a).1 first (BitVec.ofNat 8 first) p

/-- decompress() ends, and every pass on the way stays inside its tables. -/
structure Decomp.Robust (a : Args) (d : Decomp) : Prop where
  ends : ∃ least, ∀ fuel ≥ least, (d.decompress fuel a).isSome
  inside : ∀ first p, d.Comes a first p → p.Inside a

/-- The code is a character, an entry, or the entry that the pass is about to make. -/
def Pass.Stands (a : Args) (p : Pass) : Prop :=
  p.code < 256 ∨ a.first ≤ p.code ∧
    (p.code < p.d.free_ent ∨ p.code = p.d.free_ent ∧ p.d.free_ent < a.maxmaxcode)

/-- The first code is a character, as the comment has it, and every other one stands for something.
-/
structure Decomp.Proper (a : Args) (d : Decomp) : Prop where
  first : ∀ code, ((d.opened a).getcode a).2 = some code → code < 256
  stands : ∀ first p, d.Comes a first p → p.Stands a

end Passes

section Reading

variable {a : Args} {d : Decomp} {code : Nat}

/-- What is still to be read; a byte that has not been fetched counts for more than its bits. -/
def Decomp.left (d : Decomp) : Nat := 9 * d.stdin.length + (d.size - d.offset)

/-- The width of the codes that a new group of bytes has. -/
def Decomp.turned (a : Args) (d : Decomp) : Width :=
  if d.clear_flg then .init else if d.free_ent > d.width.maxcode then d.width.grow a else d.width

def Decomp.fetched (a : Args) (d : Decomp) : Decomp :=
  let got := d.stdin.take (d.turned a).n_bits
  { d with
    width := d.turned a, clear_flg := false, size := got.length, buf :=
      fun i => got.getD i (d.buf i)
    stdin := d.stdin.drop (d.turned a).n_bits }

theorem refill_eq : d.refill a =
    if d.stdin.take (d.turned a).n_bits = [] then (d.fetched a, false)
    else ({ d.fetched a with offset := 0,
                             size := (d.fetched a).size * 8 - ((d.turned a).n_bits - 1) },
                             true) := by
  obtain ⟨width, free_ent, clear_flg, offset, size, buf, tab_prefix, tab_suffix, stdin⟩ := d
  unfold Decomp.refill Decomp.fetched Decomp.turned
  dsimp only
  cases clear_flg with
  | true => split <;> rfl
  | false => split <;> rfl

theorem turned_pos (wide : 0 < d.width.n_bits) : 0 < (d.turned a).n_bits := by
  unfold Decomp.turned
  split
  · exact Nat.succ_pos _
  · split
    · exact Nat.succ_pos _
    · exact wide

theorem refill_keeps : Decomp.tab_prefix (d.refill a).1 = d.tab_prefix ∧
    (d.refill a).1.free_ent = d.free_ent ∧
    (d.refill a).1.width = d.turned a := by
  rw [refill_eq]
  split <;> exact ⟨rfl, rfl, rfl⟩

theorem refill_left (more : (d.refill a).2 = true) : (d.refill a).1.left < d.left := by
  rw [refill_eq] at more ⊢
  split at more
  · cases more
  · rename_i some
    rw [if_neg some]
    have least := List.length_pos_iff.mpr some
    have whole := congrArg List.length (List.take_append_drop (d.turned a).n_bits d.stdin)
    rw [List.length_append] at whole
    change 9 * (d.stdin.drop _).length + ((d.stdin.take _).length * 8 - _ - 0) <
      9 * d.stdin.length + _
    lia

theorem getcode_keeps : Decomp.tab_prefix (d.getcode a).1 = d.tab_prefix ∧
    (d.getcode a).1.free_ent = d.free_ent ∧
    (0 < d.width.n_bits → 0 < (d.getcode a).1.width.n_bits) := by
  have keeps : ∀ r,
      (if d.clear_flg ∨ d.offset ≥ d.size ∨ d.free_ent > d.width.maxcode then d.refill a else (d,
      true)) = r →
      Decomp.tab_prefix r.1 = d.tab_prefix ∧ r.1.free_ent = d.free_ent ∧
        (0 < d.width.n_bits → 0 < r.1.width.n_bits) := by
    rintro r rfl
    split
    · obtain ⟨pre, free, width⟩ := refill_keeps (a := a) (d := d)
      refine ⟨pre, free, fun wide => ?_⟩
      rw [width]
      exact turned_pos wide
    · exact ⟨rfl, rfl, id⟩
  unfold Decomp.getcode
  split
  · rename_i same
    exact keeps _ same
  · rename_i same
    exact keeps _ same

theorem getcode_left (wide : 0 < d.width.n_bits) (more : (d.getcode a).2 = some code) :
    (d.getcode a).1.left < d.left := by
  unfold Decomp.getcode at more ⊢
  split at more
  · cases more
  · rename_i d' same
    change 9 * d'.stdin.length + (d'.size - (d'.offset + _)) < d.left
    split at same
    · have less := refill_left (d := d) (a := a) (by rw [same])
      rw [same] at less
      have less : 9 * d'.stdin.length + (d'.size - d'.offset) < d.left := less
      lia
    · rename_i stays
      cases same
      unfold Decomp.left
      lia

theorem next_left (wide : 0 < d.width.n_bits) (more : (d.next a).2 = some code) :
    (d.next a).1.left < d.left ∧ 0 < (d.next a).1.width.n_bits := by
  obtain ⟨-, -, kept⟩ := getcode_keeps (a := a) (d := d)
  unfold Decomp.next at more ⊢
  split at more
  · rename_i clear
    rw [if_pos clear]
    have first := getcode_left wide clear.1
    have second := getcode_left (d := (d.getcode a).1.cleared) (kept wide) more
    exact ⟨Nat.lt_trans second first,
      (getcode_keeps (d := (d.getcode a).1.cleared)).2.2 (kept wide)⟩
  · rename_i other
    rw [if_neg other]
    exact ⟨getcode_left wide more, kept wide⟩

theorem next_tables :
    ( Decomp.tab_prefix (d.next a).1 = d.tab_prefix ∧ (d.next a).1.free_ent = d.free_ent) ∨
    (a.block_compress = true ∧ (d.next a).1.free_ent = FIRST - 1) := by
  unfold Decomp.next
  split
  · rename_i clear
    exact .inr ⟨clear.2, (getcode_keeps (d := (d.getcode a).1.cleared)).2.1⟩
  · obtain ⟨pre, free, -⟩ := getcode_keeps (a := a) (d := d)
    exact .inl ⟨pre, free⟩

end Reading

section Loop

variable {a : Args} {d : Decomp} {fuel oldcode code passes : Nat} {finchar : Byte}
    {trace : List Nat} {p : Pass}
  {r : Decomp × Byte × List Byte} {stack : List Byte}

theorem loop_succ : Decomp.loop fuel a (passes + 1) d oldcode finchar =
    (d.next a).2.elim (some ((d.next a).1, [])) fun code =>
      ((d.next a).1.expand fuel a oldcode finchar code).bind fun r =>
        (Decomp.loop fuel a passes r.1 code r.2.1).map fun s => (s.1, r.2.2 ++ s.2) := by
  unfold Decomp.next Decomp.cleared
  rw [Decomp.loop]
  rcases d.getcode a with ⟨d', _ | code⟩
  · rfl
  · dsimp only
    by_cases clear : code = CLEAR ∧ a.block_compress
    · rw [if_pos clear, if_pos ⟨congrArg some clear.1, clear.2⟩]
      split
      · rename_i same
        rw [same]
        rfl
      · rename_i same
        rw [same]
        rfl
    · rw [if_neg clear, if_neg fun clears => clear ⟨Option.some.inj clears.1, clears.2⟩]
      rfl

theorem Walk.unwind (walk : Walk d code trace) (enough : trace.length ≤ fuel) :
    ∃ r, d.unwind fuel code stack = some r ∧ r.2.length = stack.length + trace.length := by
  induction walk generalizing fuel stack with
  | stop single =>
    obtain ⟨fuel, rfl⟩ := Nat.exists_eq_succ_of_ne_zero (Nat.ne_of_gt enough)
    rw [Decomp.unwind, if_neg (by lia)]
    exact ⟨_, rfl, rfl⟩
  | @down code trace past _ ih =>
    obtain ⟨fuel, rfl⟩ := Nat.exists_eq_succ_of_ne_zero (Nat.ne_of_gt (Nat.zero_lt_of_lt enough))
    obtain ⟨r, walked, length⟩ :=
      @ih fuel (d.tab_suffix code :: stack) (Nat.le_of_succ_le_succ enough)
    rw [Decomp.unwind, if_pos past]
    refine ⟨r, walked, ?_⟩
    rw [length, List.length_cons, List.length_cons]
    lia

theorem expand_some (done : d.expand fuel a oldcode finchar code = some r) :
    r.1.left = d.left ∧ r.1.width = d.width ∧
    if d.free_ent < a.maxmaxcode then
      Decomp.tab_prefix r.1 = Function.update d.tab_prefix d.free_ent (BitVec.ofNat 16 oldcode) ∧
        r.1.free_ent = d.free_ent + 1
    else Decomp.tab_prefix r.1 = d.tab_prefix ∧ r.1.free_ent = d.free_ent := by
  obtain ⟨⟨last, stack⟩, -, rfl⟩ := Option.map_eq_some_iff.mp done
  dsimp only
  split
  · exact ⟨rfl, rfl, rfl, rfl⟩
  · exact ⟨rfl, rfl, rfl, rfl⟩

theorem Pass.Inside.expand (inside : p.Inside a) (enough : stackRoom ≤ fuel) :
    (p.d.expand fuel a p.oldcode p.finchar p.code).isSome := by
  obtain ⟨trace, walk, -, room⟩ := inside.walk
  obtain ⟨r, walked, -⟩ :
      ∃ r, p.d.unwind fuel p.top (if p.code ≥ p.d.free_ent then [p.finchar] else []) = some r ∧ _ :=
        walk.unwind (by lia)
  rw [Decomp.expand, Option.isSome_map]
  exact Option.isSome_iff_exists.mpr ⟨r, walked⟩

theorem loop_ends (enough : stackRoom ≤ fuel) (passes : Nat) (d : Decomp) (oldcode : Nat)
    (finchar : Byte) (more : d.left < passes) (wide : 0 < d.width.n_bits)
    (inside : ∀ p, Passes a d oldcode finchar p → p.Inside a) :
    (Decomp.loop fuel a passes d oldcode finchar).isSome := by
  induction passes generalizing d oldcode finchar with
  | zero => exact absurd more (Nat.not_lt_zero _)
  | succ passes ih =>
    rw [loop_succ]
    cases read : (d.next a).2 with
    | none => rfl
    | some code =>
      have stays := (inside _ (.here read)).expand enough
      obtain ⟨r, done⟩ := Option.isSome_iff_exists.mp stays
      obtain ⟨left, width, -⟩ := expand_some done
      obtain ⟨less, wide⟩ := next_left wide read
      have rest := ih r.1 code r.2.1 (by lia) (by rw [width]; exact wide) fun p later =>
        inside p (.later read done later)
      obtain ⟨s, rest⟩ := Option.isSome_iff_exists.mp rest
      rw [Option.elim, show (d.next a).1.expand fuel a oldcode finchar code = some r from done,
        Option.bind_some, rest]
      rfl

end Loop

section Chains

def Decomp.Known (a : Args) (d : Decomp) (code : Nat) : Prop :=
  code < 256 ∨ a.first ≤ code ∧ code < d.free_ent

structure Decomp.Sound (a : Args) (d : Decomp) : Prop where
  least : 256 ≤ d.free_ent
  most : d.free_ent ≤ 2 ^ BITS
  prefixes : ∀ code, a.first ≤ code → code < d.free_ent →
    (d.tab_prefix code).toNat < code ∧ d.Known a (d.tab_prefix code).toNat

/-- Between two passes `oldcode` is in the table too, or the table has been emptied. -/
structure Decomp.Ready (a : Args) (d : Decomp) (oldcode : Nat) : Prop where
  sound : d.Sound a
  old : d.Known a oldcode ∨ d.free_ent < a.first

variable {a : Args} {d : Decomp} {oldcode code : Nat} {finchar : Byte} {p : Pass}

theorem first_bounds : 256 ≤ a.first ∧ a.first ≤ FIRST := by
  unfold Args.first FIRST
  split
  · exact ⟨by decide, le_refl _⟩
  · exact ⟨le_refl _, by decide⟩

theorem Decomp.Known.lt (known : d.Known a code) (sound : d.Sound a) : code < d.free_ent := by
  rcases known with single | ⟨-, inside⟩
  · exact Nat.lt_of_lt_of_le single sound.least
  · exact inside

theorem Decomp.Sound.walk (sound : d.Sound a) (known : d.Known a code) :
    ∃ trace, Walk d code trace ∧ (∀ i ∈ trace, i ≤ code) ∧ trace.length ≤ code + 1 := by
  induction code using Nat.strong_induction_on with
  | _ code ih =>
    by_cases single : code < 256
    · refine ⟨[code], .stop single, fun i one => ?_, Nat.succ_le_succ (Nat.zero_le _)⟩
      exact Nat.le_of_eq (List.mem_singleton.mp one)
    · obtain ⟨low, inside⟩ := known.resolve_left single
      obtain ⟨less, below⟩ := sound.prefixes code low inside
      obtain ⟨trace, walk, indices, length⟩ := ih _ less below
      refine ⟨code :: trace, .down (Nat.le_of_not_lt single) walk, fun i one => ?_, ?_⟩
      · rcases List.mem_cons.mp one with rfl | one
        · exact le_refl _
        · exact Nat.le_trans (indices i one) (Nat.le_of_lt less)
      · rw [List.length_cons]
        lia

/-- The code of a pass that stands for something is in the table, or `oldcode` is. -/
theorem Pass.Stands.top (stands : p.Stands a) (ready : p.d.Ready a p.oldcode) :
    p.d.Known a p.top := by
  unfold Pass.top
  split
  · rename_i special
    refine ready.old.resolve_right fun emptied => ?_
    rcases stands with single | ⟨low, inside | ⟨same, -⟩⟩
    · have least := ready.sound.least
      lia
    · lia
    · lia
  · rename_i plain
    rcases stands with single | ⟨low, -⟩
    · exact .inl single
    · exact .inr ⟨low, Nat.lt_of_not_le plain⟩

theorem maxmaxcode_le (small : a.maxbits ≤ BITS) : a.maxmaxcode ≤ 2 ^ BITS :=
  Nat.pow_le_pow_right Nat.two_pos small

theorem Pass.Stands.inside (stands : p.Stands a) (ready : p.d.Ready a p.oldcode)
    (small : a.maxbits ≤ BITS) :
    p.Inside a := by
  have known := stands.top ready
  have less := known.lt ready.sound
  have most := ready.sound.most
  obtain ⟨trace, walk, indices, length⟩ := ready.sound.walk known
  refine ⟨⟨trace, walk, fun i one => ?_, ?_⟩,
    fun more => Nat.lt_of_lt_of_le more (maxmaxcode_le small)⟩
  · have := indices i one
    lia
  · have room : 2 ^ BITS + 1 ≤ stackRoom := by decide
    split <;> lia

theorem Decomp.Ready.next (ready : d.Ready a oldcode) (known : d.Known a oldcode) :
    (d.next a).1.Ready a oldcode := by
  rcases next_tables (a := a) (d := d) with ⟨pre, free⟩ | ⟨block, free⟩
  · obtain ⟨least, most, prefixes⟩ := ready.sound
    unfold Decomp.Known at known prefixes
    refine ⟨⟨by rw [free]; exact least, by rw [free]; exact most, ?_⟩, .inl ?_⟩
    · unfold Decomp.Known
      rw [pre, free]
      exact prefixes
    · unfold Decomp.Known
      rw [free]
      exact known
  · have first : a.first = FIRST := if_pos block
    refine ⟨⟨by rw [free]; decide, by rw [free]; decide, fun code low inside => ?_⟩, .inr ?_⟩
    · rw [first] at low
      rw [free] at inside
      exact absurd inside (Nat.not_lt_of_le (Nat.le_trans (Nat.sub_le _ _) low))
    · rw [first, free]
      decide

theorem Pass.Stands.expand (stands : p.Stands a) (ready : p.d.Ready a p.oldcode)
    (small : a.maxbits ≤ BITS) {r : Decomp × Byte × List Byte} {fuel : Nat}
    (done : p.d.expand fuel a p.oldcode p.finchar p.code = some r) :
    r.1.Sound a ∧ r.1.Known a p.code := by
  obtain ⟨least, most, prefixes⟩ := ready.sound
  have top := maxmaxcode_le small
  obtain ⟨-, -, tables⟩ := expand_some done
  unfold Pass.Stands at stands
  split at tables
  · obtain ⟨pre, free⟩ := tables
    refine ⟨⟨by lia, by lia, fun code low inside => ?_⟩, by unfold Decomp.Known; lia⟩
    unfold Decomp.Known at prefixes ⊢
    rw [free] at inside ⊢
    rw [pre]
    by_cases here : code = p.d.free_ent
    · subst here
      have old := ready.old.resolve_right (Nat.not_lt_of_le low)
      have less := old.lt ready.sound
      have same : (BitVec.ofNat 16 p.oldcode).toNat = p.oldcode := by
        rw [BitVec.toNat_ofNat]
        exact Nat.mod_eq_of_lt (Nat.lt_of_lt_of_le less most)
      rw [Function.update_self, same]
      unfold Decomp.Known at old
      exact ⟨less, by lia⟩
    · rw [Function.update_of_ne here]
      obtain ⟨less, known⟩ := prefixes code low (by lia)
      exact ⟨less, by lia⟩
  · obtain ⟨pre, free⟩ := tables
    refine ⟨⟨by lia, by lia, fun code low inside => ?_⟩, by unfold Decomp.Known; lia⟩
    unfold Decomp.Known at prefixes ⊢
    rw [free] at inside ⊢
    rw [pre]
    exact prefixes code low inside

theorem Passes.inside (passes : Passes a d oldcode finchar p) (small : a.maxbits ≤ BITS)
    (sound : d.Sound a) (known : d.Known a oldcode) (stands : ∀ q, Passes a d oldcode finchar q →
      q.Stands a) : p.Inside a := by
  induction passes with
  | here read =>
    exact (stands _ (.here read)).inside ((Decomp.Ready.mk sound (.inl known)).next known) small
  | later read done _ ih =>
    obtain ⟨sound, known⟩ := (stands _ (.here read)).expand
      ((Decomp.Ready.mk sound (.inl known)).next known) small done
    exact ih sound known fun q later => stands q (.later read done later)

end Chains

section Robust

variable {a : Args} {d : Decomp} {oldcode code : Nat} {finchar : Byte} {p : Pass}

theorem opened_sound : ((d.opened a).getcode a).1.Sound a := by
  obtain ⟨-, free, -⟩ := getcode_keeps (a := a) (d := d.opened a)
  have free : ((d.opened a).getcode a).1.free_ent = a.first := free
  obtain ⟨low, high⟩ := first_bounds (a := a)
  refine ⟨by rw [free]; exact low, by rw [free]; exact Nat.le_trans high (by decide),
    fun code low inside => ?_⟩
  rw [free] at inside
  exact absurd inside (Nat.not_lt_of_le low)

theorem decompress_ends {fuel : Nat} (room : stackRoom ≤ fuel) (enough : (d.opened a).left < fuel)
    (inside : ∀ first p, d.Comes a first p → p.Inside a) : (d.decompress fuel a).isSome := by
  have wide : 0 < (d.opened a).width.n_bits := Nat.succ_pos 8
  unfold Decomp.decompress
  dsimp only
  split
  · rfl
  · rename_i d' first same
    have same : (d.opened a).getcode a = (d', some first) := same
    have read : ((d.opened a).getcode a).2 = some first := congrArg Prod.snd same
    have here : ((d.opened a).getcode a).1 = d' := congrArg Prod.fst same
    have left := getcode_left wide read
    have kept := (getcode_keeps (a := a) (d := d.opened a)).2.2 wide
    rw [here] at left kept
    rw [Option.isSome_map]
    refine loop_ends room fuel d' first _ (by lia) kept fun p passes => inside first p ⟨read, ?_⟩
    rw [here]
    exact passes

theorem decompress_robust (a : Args) (d : Decomp) (small : a.maxbits ≤ BITS) (proper : d.Proper a) :
    d.Robust a := by
  have inside : ∀ first p, d.Comes a first p → p.Inside a := by
    rintro first p ⟨read, passes⟩
    exact passes.inside small opened_sound (.inl (proper.first first read)) fun q passes =>
      proper.stands first q ⟨read, passes⟩
  refine ⟨⟨max stackRoom ((d.opened a).left + 1), fun fuel enough => ?_⟩, inside⟩
  exact decompress_ends (Nat.le_trans (Nat.le_max_left _ _) enough)
    (Nat.le_trans (Nat.le_max_right _ _) enough) inside

theorem Passes.read (passes : Passes a d oldcode finchar p) : ∃ code, (d.next a).2 = some code := by
  cases passes with
  | here read => exact ⟨_, read⟩
  | later read _ _ => exact ⟨_, read⟩

theorem Passes.only (passes : Passes a d oldcode finchar p) (wide : 0 < d.width.n_bits)
    (read : (d.next a).2 = some code) (last : (d.next a).1.left = 0) :
      p = ⟨(d.next a).1, oldcode, finchar, code⟩ := by
  cases passes with
  | here again =>
    rw [read] at again
    rw [Option.some.inj again]
  | later again done rest =>
    obtain ⟨left, width, -⟩ := expand_some done
    have wide := (next_left wide read).2
    obtain ⟨code, more⟩ := rest.read
    have less := (next_left (by rw [width]; exact wide) more).1
    rw [left, last] at less
    exact absurd less (Nat.not_lt_zero _)

/-- `aaa`: the second code is that of the entry which it makes. -/
theorem decompress_robust_repeat :
    Decomp.Robust ⟨16, true⟩ { idle with stdin := [0x61, 0x02, 0x02] } := by
  refine decompress_robust _ _ (by decide) ⟨fun code read => ?_, ?_⟩
  · cases read
    decide
  · rintro first p ⟨read, passes⟩
    cases read
    rw [passes.only (Nat.succ_pos 8) (rfl : _ = some 257) rfl]
    exact .inr (by decide)

theorem Walk.not_circular {trace : List Nat} (past : 256 ≤ code)
    (same : (d.tab_prefix code).toNat = code) :
    ¬ Walk d code trace := by
  intro walk
  induction walk with
  | stop single => exact Nat.not_lt_of_le past single
  | down _ _ ih =>
    rw [same] at ih
    exact ih past same

/-- The first code is that of the next entry, which gets itself for a prefix; then its code comes.
-/
theorem decompress_not_robust : ¬ ∀ (a : Args) (d : Decomp), a.maxbits ≤ BITS → d.Robust a := by
  intro claim
  have robust := claim ⟨16, true⟩ { idle with stdin := [0x01, 0xc3, 0x04, 0x04] } (by decide)
  have inside := robust.inside 257 _
    ⟨rfl, .later (rfl : _ = some 97) (rfl : Decomp.expand 1 _ _ _ _ _ =
      _) (.here (rfl : _ = some 257))⟩
  obtain ⟨trace, walk, -⟩ := inside.walk
  exact Walk.not_circular (by decide) rfl walk

end Robust

end FreeBsd.Compress
