import FreeBsd.Resolv.ResCompSave

/-! Names that `dn_comp` writes, and what `dn_expand` reads. -/
namespace FreeBsd.Resolv

section Model

/-- `__dn_skipname` of the message up to `eom`, -1 inside as `none`. -/
def skipName (mem : Bytes) (eom comp_dn : Nat) : (fuel cp : Nat) → Option (Option Nat)
  | 0, _ => none
  | fuel + 1, cp =>
    if eom ≤ cp then some (some (cp - comp_dn))
    else if mem cp = 0 then some (some (cp + 1 - comp_dn))
    else if mem cp &&& INDIR_MASK = 0 then skipName mem eom comp_dn fuel (cp + 1 + (mem cp).toNat)
    else if mem cp &&& INDIR_MASK = INDIR_MASK then some (some (cp + 2 - comp_dn))
    else some none

structure Plain (l : List Byte) : Prop where
  some : l ≠ []
  short : l.length ≤ MAXLABEL
  bytes : ∀ c ∈ l, c ≠ 0 ∧ c ≠ dot ∧ c ≠ backslash

def text : (labels : List (List Byte)) → List Byte
  | [] => []
  | [l] => l
  | l :: labels => l ++ dot :: text labels

/-- A name of the message: where it is, its bytes, and what it stands for. -/
structure Name where
  comp_dn : Nat
  size : Nat
  labels : List (List Byte)

/-- A message that calls of `dn_comp` with one list build: `cur` is the end of the last name.
Between the calls the other bytes may change. -/
inductive Built (lastdnptr : Option Nat) : (mem : Bytes) → (saved : List Nat) → (cur : Nat) →
    (names : List Name) → Prop
  | start (mem : Bytes) : Built lastdnptr mem [] 0 []
  | other {mem mem' : Bytes} {saved : List Nat} {cur : Nat} {names : List Name}
      (built : Built lastdnptr mem saved cur names)
      (same : ∀ n ∈ names, ∀ i, n.comp_dn ≤ i → i < n.comp_dn + n.size → mem' i = mem i) :
      Built lastdnptr mem' saved cur names
  | call {mem : Bytes} {saved : List Nat} {cur fuel turns comp_dn length n : Nat}
  {names : List Name} {name : Bytes}
      {labels : List (List Byte)} {trail : List Byte} {r : Result}
      (built : Built lastdnptr mem saved cur names) (further : cur ≤ comp_dn)
      (plain : ∀ l ∈ labels, Plain l) (dotted : trail = [] ∨ trail = [dot])
      (spelled : name = bytesAt 0 (text labels ++ trail))
      (ends : dnComp fuel turns name comp_dn length true saved lastdnptr mem = some r)
      (size : r.ret = some n) :
      Built lastdnptr r.mem r.saved (comp_dn + n) (⟨comp_dn, n, labels⟩ :: names)

def message (mem : Bytes) (total : Nat) : List Byte := (List.range total).map mem

/-- The name is expanded to its text with a NUL, and its size is what `dn_expand` and
`__dn_skipname` return. -/
structure Expands (mem : Bytes) (total : Nat) (n : Name) : Prop where
  expand : ∀ length, (text n.labels).length < length → ∃ enough, ∀ fuel, enough ≤ fuel →
    dnExpand (message mem total) n.comp_dn length fuel = .ok (n.size, text n.labels ++ [0])
  skip : ∃ enough, ∀ fuel, enough ≤ fuel →
    skipName mem total n.comp_dn fuel n.comp_dn = some (some n.size)

end Model

section Lies

def Lies (mem : Bytes) : (p : Nat) → List Byte → Prop
  | _, [] => True
  | p, c :: l => mem p = c ∧ Lies mem (p + 1) l

/-- The rest of a name from `at'` on: labels with dots, and at the end a NUL or a last dot. -/
inductive Spells (name : Bytes) : (dn : Nat) → (labels : List (List Byte)) → Prop
  | nil {dn : Nat} (ends : name dn = 0) : Spells name dn []
  | dot {dn : Nat} (last : name dn = dot) (ends : name (dn + 1) = 0) : Spells name dn []
  | last {dn : Nat} {l : List Byte} (plain : Plain l) (lies : Lies name dn l)
  (ends : name (dn + l.length) = 0) :
      Spells name dn [l]
  | more {dn : Nat} {l : List Byte} {labels : List (List Byte)} (plain : Plain l)
  (lies : Lies name dn l)
      (sep : name (dn + l.length) = Resolv.dot) (rest : Spells name (dn + l.length + 1) labels) :
      Spells name dn (l :: labels)

/-- A compressed name at `p`: `e` is where its own bytes end, `w` counts the bytes of labels and
pointers on its way, and all of them are bytes that names own. -/
inductive Holds (mem : Bytes) (own : Nat → Prop) : (p : Nat) → (labels : List (List Byte)) →
    (e w : Nat) → Prop
  | zero {p : Nat} (ends : mem p = 0) (mine : own p) : Holds mem own p [] (p + 1) 0
  | label {p e w : Nat} {l : List Byte} {labels : List (List Byte)} (plain : Plain l)
      (size : mem p = BitVec.ofNat 8 l.length) (lies : Lies mem (p + 1) l)
      (mine : ∀ i, p ≤ i → i < p + 1 + l.length → own i)
      (rest : Holds mem own (p + 1 + l.length) labels e w) :
      Holds mem own p (l :: labels) e (w + (l.length + 1))
  | pointer {p t e w : Nat} {labels : List (List Byte)} (points : mem p &&& INDIR_MASK = INDIR_MASK)
      (to' : indirect (mem p) (mem (p + 1)) = t) (mine : own p ∧ own (p + 1))
      (rest : Holds mem own t labels e w) :
      Holds mem own p labels (p + 2) (w + 2)

variable {mem mem' name : Bytes} {own own' : Nat → Prop} {p e w : Nat} {c : Byte} {l l' : List Byte}
  {labels labels' : List (List Byte)}

theorem Lies.congr (lies : Lies mem p l) (same : ∀ i, p ≤ i → i < p + l.length → mem' i = mem i) :
    Lies mem' p l := by
  induction l generalizing p with
  | nil => exact trivial
  | cons c l ih =>
    rw [List.length_cons] at same
    refine ⟨(same p (Nat.le_refl p) (by lia)).trans lies.1, ih lies.2 fun i low high =>
      same i (by lia) (by lia)⟩

theorem Lies.left (both : Lies mem p (l ++ l')) : Lies mem p l := by
  induction l generalizing p with
  | nil => exact trivial
  | cons c l ih => exact ⟨both.1, ih both.2⟩

theorem Lies.right (both : Lies mem p (l ++ l')) : Lies mem (p + l.length) l' := by
  induction l generalizing p with
  | nil => exact both
  | cons c l ih =>
    rw [List.length_cons, show p + (l.length + 1) = p + 1 + l.length by omega]
    exact ih both.2

theorem Holds.mono (holds : Holds mem own p labels e w)
    (same : ∀ i, own i → own' i ∧ mem' i = mem i) :
    Holds mem' own' p labels e w := by
  induction holds with
  | @zero p ends mine => exact .zero ((same p mine).2.trans ends) (same p mine).1
  | @label p e w l labels plain size lies mine rest ih =>
    have some : 0 < l.length := List.length_pos_iff.mpr plain.some
    refine .label plain ((same p (mine p (Nat.le_refl p) (by omega))).2.trans size)
      (lies.congr fun i low high => ?_)
      (fun i low high => (same i (mine i low high)).1) ih
    exact (same i (mine i (by omega) (by omega))).2
  | @pointer p t e w labels points to' mine rest ih =>
    refine .pointer ?_ ?_ ⟨(same p mine.1).1, (same (p + 1) mine.2).1⟩ ih
    · rw [(same p mine.1).2]
      exact points
    · rw [(same p mine.1).2, (same (p + 1) mine.2).2]
      exact to'

theorem Holds.first (holds : Holds mem own p labels e w) : own p ∧ p < e := by
  induction holds with
  | zero _ mine => exact ⟨mine, Nat.lt_succ_self _⟩
  | label plain _ _ mine _ ih =>
    have some := List.length_pos_iff.mpr plain.some
    exact ⟨mine _ (Nat.le_refl _) (by lia), by lia⟩
  | pointer _ _ mine _ _ => exact ⟨mine.1, by lia⟩

theorem length_byte (plain : Plain l) :
    (BitVec.ofNat 8 l.length).toNat = l.length ∧ BitVec.ofNat 8 l.length ≠ 0 ∧
      BitVec.ofNat 8 l.length &&& INDIR_MASK = 0 := by
  have bytes : ∀ n : Fin 64, (BitVec.ofNat 8 n.val).toNat = n.val ∧
      (0 < n.val → BitVec.ofNat 8 n.val ≠ 0) ∧
      BitVec.ofNat 8 n.val &&& INDIR_MASK = 0 := by decide
  obtain ⟨size, some, mask⟩ := bytes ⟨l.length, Nat.lt_succ_of_le plain.short⟩
  exact ⟨size, some (List.length_pos_iff.mpr plain.some), mask⟩

theorem pointer_bytes {t : Nat} (small : t < 2 ^ 14) :
    (BitVec.ofNat 8 (t / 2 ^ 8) ||| INDIR_MASK) &&& INDIR_MASK = INDIR_MASK ∧
      indirect (BitVec.ofNat 8 (t / 2 ^ 8) ||| INDIR_MASK) (BitVec.ofNat 8 (t % 256)) = t := by
  have bytes : ∀ n : Fin 64, (BitVec.ofNat 8 n.val ||| INDIR_MASK) &&& INDIR_MASK = INDIR_MASK ∧
      ((BitVec.ofNat 8 n.val ||| INDIR_MASK) &&& 0x3f).toNat = n.val := by decide
  have high : t / 2 ^ 8 < 64 := by lia
  obtain ⟨mask, six⟩ := bytes ⟨t / 2 ^ 8, high⟩
  refine ⟨mask, ?_⟩
  have low : t % 256 < 2 ^ 8 := Nat.mod_lt t (by decide)
  have six : ((BitVec.ofNat 8 (t / 2 ^ 8) ||| INDIR_MASK) &&& 0x3f).toNat = t / 2 ^ 8 := six
  rw [indirect, six, BitVec.toNat_ofNat, Nat.mod_eq_of_lt low, ← Nat.shiftLeft_add_eq_or_of_lt low,
    Nat.shiftLeft_eq]
  lia

end Lies

section Search

variable {mem name : Bytes} {own : Nat → Prop} {p e w n dn dn' cp cp' fuel : Nat} {l l' : List Byte}
  {labels labels' : List (List Byte)}

/-- What a run of `n` equal bytes shows: none of them is a dot of the name. -/
theorem sameLabel_spec (bytes : ∀ c ∈ l, c ≠ dot ∧ c ≠ backslash) (lies : Lies name dn l)
    (ends : name (dn + l.length) = 0 ∨ name (dn + l.length) = dot) (other : ∀ c ∈ l', c ≠ 0)
    (lies' : Lies mem cp l') (same : sameLabel mem name l'.length dn cp = some (dn', cp')) :
    l' <+: l ∧ dn' = dn + l'.length ∧ cp' = cp + l'.length := by
  induction l' generalizing l dn cp with
  | nil =>
    cases same
    exact ⟨List.nil_prefix, rfl, rfl⟩
  | cons c' l' ih =>
    rw [List.length_cons, sameLabel] at same
    cases l with
    | nil =>
      -- the name's label is at its end: a dot stops the code, and no byte of a label is NUL
      rcases ends with nul | stop
      · rw [List.length_nil, Nat.add_zero] at nul
        have noDot : name dn ≠ dot := fun is => absurd (nul.symm.trans is) (by decide)
        have noSlash : name dn ≠ backslash := fun is => absurd (nul.symm.trans is) (by decide)
        have differ : name dn ≠ mem cp := by
          rw [nul, lies'.1]
          exact (other c' List.mem_cons_self).symm
        rw [if_neg noDot, if_neg noSlash, if_pos differ] at same
        cases same
      · rw [List.length_nil, Nat.add_zero] at stop
        rw [if_pos stop] at same
        cases same
    | cons c l =>
      obtain ⟨noDot, noSlash⟩ := bytes c List.mem_cons_self
      rw [← lies.1] at noDot noSlash
      rw [if_neg noDot, if_neg noSlash] at same
      dsimp only at same
      split at same
      · cases same
      · rename_i equal
        have both : c = c' := lies.1.symm.trans ((Decidable.not_not.mp equal).trans lies'.1)
        rw [List.length_cons, show dn + (l.length + 1) = dn + 1 + l.length by lia] at ends
        obtain ⟨pre, dn_eq, cp_eq⟩ :=
          ih (fun c mem => bytes c (List.mem_cons_of_mem _ mem)) lies.2 ends
            (fun c mem => other c (List.mem_cons_of_mem _ mem)) lies'.2 same
        rw [List.length_cons]
        exact ⟨both ▸ List.cons_prefix_cons.mpr ⟨rfl, pre⟩, by lia, by lia⟩

theorem Lies.get {mem : Bytes} {p i : Nat} {l : List Byte} {c : Byte} (lies : Lies mem p l)
    (is : l[i]? = some c) :
    mem (p + i) = c := by
  induction l generalizing p i with
  | nil => cases is
  | cons b l ih =>
    cases i with
    | zero =>
      cases is
      exact lies.1
    | succ i =>
      rw [show p + (i + 1) = p + 1 + i by omega]
      exact ih lies.2 is

theorem Plain.nonzero (plain : Plain l) : ∀ c ∈ l, c ≠ 0 := fun c mem => (plain.bytes c mem).1

/-- A label of the list that goes through is the whole label of the name, where it ends in a dot or
the NUL. -/
theorem label_eq (plain : Plain l) (lies : Lies name dn l) (pre : l' <+: l)
    (ends : name (dn + l'.length) = 0 ∨ name (dn + l'.length) = dot) : l' = l := by
  obtain ⟨rest, rfl⟩ := pre
  cases rest with
  | nil => exact (List.append_nil l').symm
  | cons c rest =>
    have here : name (dn + l'.length) = c :=
      lies.get (List.getElem?_append_right (Nat.le_refl _) |>.trans (by
      rw [Nat.sub_self]
      rfl))
    obtain ⟨noNul, noDot, -⟩ := plain.bytes c (List.mem_append_right _ List.mem_cons_self)
    rw [here] at ends
    rcases ends with nul | stop
    · exact absurd nul noNul
    · exact absurd stop noDot

theorem Holds.at_zero (holds : Holds mem own p labels e w) (zero : mem p = 0) : labels = [] := by
  cases holds with
  | zero _ _ => rfl
  | label plain size _ _ _ => exact absurd (size.symm.trans zero) (length_byte plain).2.1
  | pointer points _ _ _ => exact absurd zero (points_some points).1

theorem label_starts (plain : Plain l) (lies : Lies name dn l) : name dn ≠ 0 ∧ name dn ≠ dot ∧
    name dn ≠ backslash := by
  cases l with
  | nil => exact absurd rfl plain.some
  | cons c l =>
    rw [lies.1]
    exact plain.bytes c List.mem_cons_self

theorem Spells.uncons (spells : Spells name dn (l :: labels)) :
    Plain l ∧ Lies name dn l ∧ ((name (dn + l.length) = 0 ∧ labels = []) ∨
      (name (dn + l.length) = Resolv.dot ∧ Spells name (dn + l.length + 1) labels)) := by
  cases spells with
  | last plain lies ends => exact ⟨plain, lies, .inl ⟨ends, rfl⟩⟩
  | more plain lies sep rest => exact ⟨plain, lies, .inr ⟨sep, rest⟩⟩

theorem Spells.done (spells : Spells name dn []) :
    name dn = 0 ∨ (name dn = Resolv.dot ∧ name (dn + 1) = 0) := by
  cases spells with
  | nil ends => exact .inl ends
  | dot last ends => exact .inr ⟨last, ends⟩

theorem Spells.at_nul (spells : Spells name dn labels) (nul : name dn = 0) : labels = [] := by
  cases labels with
  | nil => rfl
  | cons l labels =>
    obtain ⟨plain, lies, -⟩ := spells.uncons
    exact absurd nul (label_starts plain lies).1

/-- A label of the list that is compared to its end is a whole label of the name. -/
theorem match_label (spells : Spells name dn labels) (plain' : Plain l') (lies' : Lies mem cp l')
    (same : sameLabel mem name l'.length dn cp = some (dn', cp'))
    (ends : name dn' = 0 ∨ name dn' = dot) :
    cp' = cp + l'.length ∧ ∃ rest, labels = l' :: rest ∧ ((name dn' = 0 ∧ rest = []) ∨
      (name dn' = dot ∧ Spells name (dn' + 1) rest)) := by
  cases labels with
  | nil =>
    have here : name dn = 0 ∨ name dn = dot := by
      rcases spells.done with nul | ⟨last, -⟩
      · exact .inl nul
      · exact .inr last
    obtain ⟨pre, -, -⟩ :=
      sameLabel_spec (l := []) (fun c mem => absurd mem List.not_mem_nil) trivial here
      plain'.nonzero
      lies' same
    exact absurd (List.prefix_nil.mp pre) plain'.some
  | cons l labels =>
    obtain ⟨plain, lies, tail⟩ := spells.uncons
    have stops : name (dn + l.length) = 0 ∨ name (dn + l.length) = dot := by
      rcases tail with ⟨nul, -⟩ | ⟨sep, -⟩
      · exact .inl nul
      · exact .inr sep
    obtain ⟨pre, rfl, cp_eq⟩ :=
      sameLabel_spec (fun c mem => (plain.bytes c mem).2) lies stops plain'.nonzero lies' same
    obtain rfl := label_eq plain lies pre ends
    exact ⟨cp_eq, labels, rfl, tail⟩

theorem dnMatch_spec (spells : Spells name dn labels) (holds : Holds mem own p labels' e w)
    (found : dnMatch mem name fuel dn p = .found) : labels' = labels := by
  induction fuel generalizing dn p labels labels' e w with
  | zero => cases found
  | succ fuel ih =>
    rw [dnMatch] at found
    cases holds with
    | zero ends mine =>
      rw [if_pos ends] at found
      split at found
      · rename_i nul
        exact (spells.at_nul nul).symm
      · cases found
    | @label _ _ _ l' rest' plain' size lies' mine held =>
      obtain ⟨bytes, nonzero, mask⟩ := length_byte plain'
      rw [size, if_neg nonzero, if_pos mask, bytes] at found
      split at found
      · cases found
      · rename_i dn' cp' same
        split at found
        · rename_i both
          obtain ⟨rfl, rest, rfl, ⟨-, rfl⟩ | ⟨sep, -⟩⟩ :=
            match_label spells plain' lies' same (.inl both.1)
          · rw [held.at_zero both.2]
          · exact absurd (both.1.symm.trans sep) (by decide)
        split at found
        · rename_i sep
          obtain ⟨rfl, rest, rfl, ⟨nul, -⟩ | ⟨-, next⟩⟩ :=
            match_label spells plain' lies' same (.inr sep)
          · exact absurd (nul.symm.trans sep) (by decide)
          · rw [ih next held found]
        · cases found
    | @pointer _ t _ _ _ points to' mine held =>
      obtain ⟨nonzero, notPlain⟩ := points_some points
      rw [if_neg nonzero, if_neg notPlain, if_pos points, to'] at found
      exact ih spells held found

theorem dnFind_mem {dnptrs : List Nat} (found : dnFind mem name fuel dn dnptrs = some (some p)) :
    p ∈ dnptrs ∧ dnMatch mem name fuel dn p = .found := by
  induction dnptrs with
  | nil => cases found
  | cons sp dnptrs ih =>
    rw [dnFind] at found
    split at found
    · rename_i here
      cases found
      exact ⟨List.mem_cons_self, here⟩
    · obtain ⟨mem, match'⟩ := ih found
      exact ⟨List.mem_cons_of_mem _ mem, match'⟩
    · cases found
    · cases found

end Search

section Write

/-- A pointer of the list: what it points to lies below `cur`, and the bytes counted on its way are
those of its own name from it on, and of names before. -/
def Pointed (mem : Bytes) (own : Nat → Prop) (cur p : Nat) : Prop :=
  ∃ labels e w s, Holds mem own p labels e w ∧ s ≤ p ∧ w + 1 + p ≤ e + s ∧ e ≤ cur

/-- The head of the loop with the rest of a name at `dn - 1`. -/
structure Ready (a : Args) (own : Nat → Prop) (cur : Nat) (s : Comp) (rest : Nat)
    (labels : List (List Byte)) : Prop where
  msg : a.msg = true
  c : s.c = a.name rest
  dn : s.dn = rest + 1
  spells : Spells a.name rest labels
  below : ∀ i, own i → i < cur
  before : cur ≤ a.comp_dn
  cp : a.comp_dn ≤ s.cp
  small : cur ≤ 2 ^ 14
  lpp : a.lpp ≤ s.saved.length
  old : ∀ p ∈ s.saved.take a.lpp, Pointed s.mem own cur p

/-- The bytes of all names so far, and of the one up to `e`. -/
def Owned (a : Args) (own : Nat → Prop) (e i : Nat) : Prop := own i ∨ (a.comp_dn ≤ i ∧ i < e)

/-- The rest of a name is written from `s.cp` to `e`, and what is new in the list points into it. -/
structure Written (a : Args) (own : Nat → Prop) (s : Comp) (labels : List (List Byte)) (r : Result)
    (e w : Nat) :
    Prop where
  ret : r.ret = some (e - a.comp_dn)
  holds : Holds r.mem (Owned a own e) s.cp labels e w
  bytes : w + 1 + s.cp ≤ e + a.comp_dn
  frame : ∀ i, ¬ (s.cp ≤ i ∧ i < e) → r.mem i = s.mem i
  saved : ∀ p ∈ r.saved, p ∈ s.saved ∨ Pointed r.mem (Owned a own e) e p

variable {a : Args} {own : Nat → Prop} {s : Comp} {r : Result} {mem mem' name : Bytes} {c : Byte}
    {l : List Byte}
  {labels : List (List Byte)} {rest fuel turns eob dn cp cp' cur n p : Nat}

theorem write_same (mem : Bytes) (cp : Nat) (c : Byte) : write mem cp c cp = c := if_pos rfl

theorem write_other {i : Nat} (other : i ≠ cp) : write mem cp c i = mem i := if_neg other

/-- A label that is copied: its bytes, and the place behind it or behind its dot. -/
theorem copyLabel_spec (bytes : ∀ c ∈ l, c ≠ 0 ∧ c ≠ dot ∧ c ≠ backslash) (lies : Lies name rest l)
    (ends : (l ≠ [] ∧ name (rest + l.length) = 0) ∨ name (rest + l.length) = dot)
    (copied : copyLabel name eob fuel mem (name rest) (rest + 1) cp = .label mem' c dn cp') :
    cp' = cp + l.length ∧ Lies mem' cp l ∧ (∀ i, ¬ (cp ≤ i ∧ i < cp + l.length) → mem' i = mem i) ∧
      ∃ next, dn = next + 1 ∧ c = name next ∧
        ((name (rest + l.length) = 0 ∧ next = rest + l.length) ∨
        (name (rest + l.length) = dot ∧ next = rest + l.length + 1)) := by
  induction l generalizing fuel mem rest cp with
  | nil =>
    have stop : name rest = dot := by
      rcases ends with ⟨some, -⟩ | stop
      · exact absurd rfl some
      · exact stop
    cases fuel with
    | zero => cases copied
    | succ fuel =>
      rw [copyLabel, if_pos stop] at copied
      cases copied
      exact ⟨rfl, trivial, fun i _ => rfl, rest + 1, rfl, rfl, .inr ⟨stop, rfl⟩⟩
  | cons b l ih =>
    cases fuel with
    | zero => cases copied
    | succ fuel =>
      obtain ⟨-, noDot, noSlash⟩ := bytes b List.mem_cons_self
      have here : name rest = b := lies.1
      rw [copyLabel, here, if_neg noDot, if_neg fun both => noSlash both.1,
        if_neg noSlash] at copied
      dsimp only at copied
      rw [List.length_cons, show rest + (l.length + 1) = rest + 1 + l.length by lia] at ends ⊢
      rw [show cp + (l.length + 1) = cp + 1 + l.length by lia]
      have frame {mem' : Bytes} (same : ∀ i, ¬ (cp + 1 ≤ i ∧ i < cp + 1 + l.length) →
          mem' i = write mem cp b i) :
          mem' cp = b ∧ ∀ i, ¬ (cp ≤ i ∧ i < cp + 1 + l.length) → mem' i = mem i := by
        refine ⟨(same cp (by lia)).trans (write_same mem cp b), fun i out => ?_⟩
        exact (same i (by lia)).trans (write_other (by lia))
      split at copied
      · cases copied
      split at copied
      · rename_i more
        have tail : (l ≠ [] ∧ name (rest + 1 + l.length) = 0) ∨
          name (rest + 1 + l.length) = dot := by
          rcases ends with ⟨-, nul⟩ | stop
          · refine .inl ⟨?_, nul⟩
            rintro rfl
            exact more nul
          · exact .inr stop
        obtain ⟨cp_eq, lies', same, next⟩ :=
          ih (fun c mem => bytes c (List.mem_cons_of_mem _ mem)) lies.2 tail copied
        obtain ⟨first, others⟩ := frame same
        exact ⟨cp_eq, ⟨first, lies'⟩, others, next⟩
      · rename_i nul
        have nul : name (rest + 1) = 0 := Decidable.not_not.mp nul
        cases copied
        cases l with
        | nil =>
          obtain ⟨first, others⟩ := frame fun i _ => Eq.refl (write mem cp b i)
          exact ⟨rfl, ⟨first, trivial⟩, others, rest + 1, rfl, nul.symm, .inl ⟨nul, rfl⟩⟩
        | cons d l =>
          have next : name (rest + 1) = d := lies.2.1
          exact absurd (next.symm.trans nul) (bytes d (List.mem_cons_of_mem _ List.mem_cons_self)).1

theorem save_cases (a : Args) (s : Comp) : save a s = s.saved ∨ save a s = s.saved ++ [s.cp] := by
  unfold save
  split
  · exact .inr rfl
  · exact .inl rfl

theorem save_take (lpp : a.lpp ≤ s.saved.length) :
    (save a s).take a.lpp = s.saved.take a.lpp ∧ a.lpp ≤ (save a s).length := by
  rcases save_cases a s with same | more
  · rw [same]
    exact ⟨rfl, lpp⟩
  · rw [more, List.take_append_of_le_length lpp, List.length_append]
    exact ⟨rfl, Nat.le_add_right_of_le lpp⟩

theorem mem_save (member : p ∈ save a s) : p ∈ s.saved ∨ p = s.cp := by
  rcases save_cases a s with same | more
  · exact .inl (same ▸ member)
  · rw [more] at member
    rcases List.mem_append.mp member with old | new
    · exact .inl old
    · exact .inr (List.mem_singleton.mp new)

theorem finish_written {now : List Nat} (cp : a.comp_dn ≤ s.cp)
    (saved : ∀ p ∈ now, p ∈ s.saved ∨ p = s.cp) (returns : finish a s.mem now s.cp = .returns r)
    (size : r.ret = some n) :
    Written a own s [] r (s.cp + 1) 0 := by
  unfold finish at returns
  split at returns
  · unfold restore at returns
    cases returns
    cases size
  · cases returns
    have holds : Holds (write s.mem s.cp 0) (Owned a own (s.cp + 1)) s.cp [] (s.cp + 1) 0 :=
      .zero (write_same s.mem s.cp 0) (.inr ⟨cp, Nat.lt_succ_self _⟩)
    refine ⟨rfl, holds, by lia, fun i out => write_other (by lia), fun p member => ?_⟩
    rcases saved p member with old | rfl
    · exact .inl old
    · exact .inr ⟨[], s.cp + 1, 0, s.cp, holds, Nat.le_refl _, by lia, Nat.le_refl _⟩

structure Labelled (a : Args) (own : Nat → Prop) (cur : Nat) (s t : Comp) (l : List Byte)
    (labels : List (List Byte)) :
    Prop where
  plain : Plain l
  ready : ∃ next, Ready a own cur t next labels
  cp : t.cp = s.cp + 1 + l.length
  size : t.mem s.cp = BitVec.ofNat 8 l.length
  lies : Lies t.mem (s.cp + 1) l
  frame : ∀ i, ¬ (s.cp ≤ i ∧ i < t.cp) → t.mem i = s.mem i
  saved : ∀ p ∈ t.saved, p ∈ s.saved ∨ p = s.cp

theorem look_found (ready : Ready a own cur s rest labels) (found : look a fuel s = some (some p)) :
    ∃ e w base, Holds s.mem own p labels e w ∧ base ≤ p ∧ w + 1 + p ≤ e + base ∧ e ≤ cur := by
  rw [look, if_pos ready.msg, ready.dn, Nat.add_sub_cancel] at found
  obtain ⟨member, is⟩ := dnFind_mem found
  obtain ⟨labels', e, w, base, holds, low, bytes, high⟩ := ready.old p member
  obtain rfl := dnMatch_spec ready.spells holds is
  exact ⟨e, w, base, holds, low, bytes, high⟩

theorem pointer_written (ready : Ready a own cur s rest labels)
    (found : look a fuel s = some (some p)) (hi lo : Byte)
    (bytes : hi &&& INDIR_MASK = INDIR_MASK ∧ indirect hi lo = p) :
    ∃ w, Written a own s labels
      ⟨some (s.cp + 2 - a.comp_dn), write (write s.mem s.cp hi) (s.cp + 1) lo, s.saved⟩ (s.cp + 2)
        (w + 2) := by
  obtain ⟨e, w, base, holds, low, count, high⟩ := look_found ready found
  have cp := ready.cp
  have before := ready.before
  have frame : ∀ i, ¬ (s.cp ≤ i ∧ i < s.cp + 2) →
      write (write s.mem s.cp hi) (s.cp + 1) lo i = s.mem i := by
    intro i out
    rw [write_other (by lia), write_other (by lia)]
  have first : write (write s.mem s.cp hi) (s.cp + 1) lo s.cp = hi := by
    rw [write_other (by lia), write_same]
  refine ⟨w, rfl, .pointer ?_ ?_ ⟨.inr ⟨cp, by lia⟩,
    .inr ⟨by lia, by lia⟩⟩ (holds.mono fun i mine => ?_), ?_, frame, fun p member => .inl member⟩
  · dsimp only
    rw [first]
    exact bytes.1
  · dsimp only
    rw [first, write_same]
    exact bytes.2
  · have below := ready.below i mine
    exact ⟨.inl mine, frame i (by lia)⟩
  · lia

theorem writeLabel_cases (ready : Ready a own cur s rest labels) (more : s.c ≠ 0) :
    (∀ t, writeLabel a fuel s = .goes t → ∃ l tail, labels = l :: tail ∧
      Labelled a own cur s t l tail) ∧
      (∀ r n, writeLabel a fuel s = .returns r → r.ret = some n → ∃ e w,
        Written a own s labels r e w) := by
  have failed {mem : Bytes} {now : List Nat} {r : Result} {n : Nat} (returns : restore a mem now =
      .returns r)
      (size : r.ret = some n) : False := by
    unfold restore at returns
    cases returns
    cases size
  cases labels with
  | nil =>
    obtain ⟨stop, ends⟩ : a.name rest = dot ∧ a.name (rest + 1) = 0 := by
      rcases ready.spells.done with nul | both
      · exact absurd (ready.c.trans nul) more
      · exact both
    cases fuel with
    | zero =>
      constructor
      · intro t goes
        cases goes
      · intro r n returns
        cases returns
    | succ fuel =>
      have copied : copyLabel a.name a.eob (fuel + 1) s.mem s.c s.dn (s.cp + 1) =
          .label s.mem 0 (rest + 2) (s.cp + 1) := by
        rw [copyLabel, ready.c, if_pos stop, ready.dn, ends]
      have eq : writeLabel a (fuel + 1) s = finish a s.mem (save a s) s.cp := by
        simp only [writeLabel, copied, Nat.add_sub_cancel_left, Nat.sub_self, true_and, if_pos,
          Nat.add_sub_cancel]
      rw [eq]
      constructor
      · intro t goes
        unfold finish restore at goes
        split at goes <;> cases goes
      · intro r n returns size
        exact ⟨_, _, finish_written ready.cp (fun p => mem_save) returns size⟩
  | cons l tail =>
    obtain ⟨plain, lies, behind⟩ := ready.spells.uncons
    unfold writeLabel
    split
    · constructor
      · intro t goes
        cases goes
      · intro r n returns
        cases returns
    · constructor
      · intro t goes
        cases goes
      · intro r n returns size
        exact (failed returns size).elim
    · rename_i mem c dn cp copied
      rw [ready.c, ready.dn] at copied
      have ends : (l ≠ [] ∧ a.name (rest + l.length) = 0) ∨ a.name (rest + l.length) = dot := by
        rcases behind with ⟨nul, -⟩ | ⟨sep, -⟩
        · exact .inl ⟨plain.some, nul⟩
        · exact .inr sep
      obtain ⟨cp_eq, copy, same, next, dn_eq, c_eq, place⟩ :=
        copyLabel_spec plain.bytes lies ends copied
      have some : 0 < l.length := List.length_pos_iff.mpr plain.some
      have short := plain.short
      have size : cp - s.cp - 1 = l.length := by lia
      dsimp only
      rw [size, if_neg fun both => absurd both.1 some.ne',
        if_neg fun either => either.elim some.ne' (by lia)]
      constructor
      · intro t goes
        cases goes
        refine ⟨l, tail, rfl, plain, ⟨next, ready.msg, c_eq, dn_eq, ?_, ready.below, ready.before,
          ?_, ready.small, (save_take ready.lpp).2, ?_⟩, cp_eq, write_same mem s.cp _, ?_, ?_,
          fun p => mem_save⟩
        · rcases behind with ⟨nul, rfl⟩ | ⟨sep, spells⟩
          · rcases place with ⟨-, rfl⟩ | ⟨sep, -⟩
            · exact .nil nul
            · exact absurd (nul.symm.trans sep) (by decide)
          · rcases place with ⟨nul, -⟩ | ⟨-, rfl⟩
            · exact absurd (nul.symm.trans sep) (by decide)
            · exact spells
        · have low := ready.cp
          exact (by lia : a.comp_dn ≤ cp)
        · intro p member
          rw [(save_take ready.lpp).1] at member
          obtain ⟨labels, e, w, base, holds, low, bytes, high⟩ := ready.old p member
          refine ⟨labels, e, w, base, holds.mono fun i mine => ⟨mine, ?_⟩, low, bytes, high⟩
          have below := ready.below i mine
          have before := ready.before
          have low := ready.cp
          exact (write_other (by lia)).trans (same i (by lia))
        · exact copy.congr fun i low high => write_other (by lia)
        · intro i out
          have out : ¬ (s.cp ≤ i ∧ i < cp) := out
          exact (write_other (by lia)).trans (same i (by lia))
      · intro r n returns
        cases returns

theorem turn_cases (fuel : Nat) (ready : Ready a own cur s rest labels) :
    (∀ t, turn a fuel s = .goes t → ∃ l tail, labels = l :: tail ∧ Labelled a own cur s t l tail) ∧
      (∀ r n, turn a fuel s = .returns r → r.ret = some n → ∃ e w,
        Written a own s labels r e w) := by
  unfold turn
  split
  · rename_i nul
    obtain rfl := ready.spells.at_nul (ready.c.symm.trans nul)
    constructor
    · intro t goes
      unfold finish restore at goes
      split at goes <;> cases goes
    · intro r n returns size
      exact ⟨_, _, finish_written ready.cp (fun p => .inl) returns size⟩
  · rename_i more
    split
    · constructor
      · intro t goes
        cases goes
      · intro r n returns
        cases returns
    · rename_i p found
      split
      · constructor
        · intro t goes
          cases goes
        · intro r n returns size
          cases returns
          cases size
      · constructor
        · intro t goes
          cases goes
        · intro r n returns size
          cases returns
          obtain ⟨e, w, base, holds, low, bytes, high⟩ := look_found ready found
          have small := ready.small
          have first := holds.first
          obtain ⟨w, written⟩ := pointer_written ready found _ _ (pointer_bytes (t := p) (by omega))
          exact ⟨_, _, written⟩
    · exact writeLabel_cases ready more

theorem loop_written (ready : Ready a own cur s rest labels)
    (ends : compLoop a fuel turns s = some r) (size : r.ret = some n) :
      ∃ e w, Written a own s labels r e w := by
  induction turns generalizing s rest labels with
  | zero => cases ends
  | succ turns ih =>
    obtain ⟨goes, returns⟩ := turn_cases fuel ready
    rw [compLoop] at ends
    split at ends
    · rename_i t step
      obtain ⟨l, tail, rfl, labelled⟩ := goes t step
      obtain ⟨next, further⟩ := labelled.ready
      obtain ⟨e, w, written⟩ := ih further ends
      have cp := labelled.cp
      have low := ready.cp
      have first := written.holds.first.2
      have kept : ∀ i, i < t.cp → r.mem i = t.mem i := fun i below => written.frame i (by lia)
      have holds : Holds r.mem (Owned a own e) s.cp (l :: tail) e (w + (l.length + 1)) := by
        refine .label labelled.plain ((kept _ (by lia)).trans labelled.size)
          (labelled.lies.congr fun i _ high => kept i (by lia))
            (fun i low' high => .inr ⟨by lia, by lia⟩) ?_
        rw [← cp]
        exact written.holds
      have bytes := written.bytes
      refine ⟨e, w + (l.length + 1), written.ret,
        holds, by lia, fun i out => ?_, fun p member => ?_⟩
      · exact (written.frame i (by lia)).trans (labelled.frame i (by lia))
      · rcases written.saved p member with before | new
        · rcases labelled.saved p before with old | rfl
          · exact .inl old
          · exact .inr ⟨_, _, _, a.comp_dn, holds, low, by lia, Nat.le_refl e⟩
        · exact .inr new
    · rename_i r' step
      cases ends
      exact returns r n step size
    · cases ends

end Write

section Message

def Owns (names : List Name) (i : Nat) : Prop := ∃ n ∈ names, n.comp_dn ≤ i ∧ i < n.comp_dn + n.size

structure Sound (mem : Bytes) (saved : List Nat) (cur : Nat) (names : List Name) : Prop where
  below : ∀ n ∈ names, n.comp_dn + n.size ≤ cur
  named : ∀ n ∈ names, ∃ w, Holds mem (Owns names) n.comp_dn n.labels (n.comp_dn + n.size) w ∧
    w + 1 ≤ n.comp_dn + n.size
  saved : ∀ p ∈ saved, Pointed mem (Owns names) cur p

variable {mem mem' name : Bytes} {own own' : Nat → Prop} {saved : List Nat}
    {cur p e w total comp_dn length at' : Nat}
  {names : List Name} {labels : List (List Byte)} {l dn trail : List Byte} {lastdnptr : Option Nat}

theorem Pointed.mono {cur' : Nat} (pointed : Pointed mem own cur p)
    (same : ∀ i, own i → own' i ∧ mem' i = mem i) (further : cur ≤ cur') :
      Pointed mem' own' cur' p := by
  obtain ⟨labels, e, w, base, holds, low, bytes, high⟩ := pointed
  exact ⟨labels, e, w, base, holds.mono same, low, bytes, by omega⟩

theorem bytesAt_get (bytes : List Byte) (i : Nat) : bytesAt 0 bytes i = (bytes[i]?).getD 0 := rfl

theorem bytesAt_lies (front : List Byte) (l tail : List Byte) :
    Lies (bytesAt 0 (front ++ l ++ tail)) front.length l := by
  induction l generalizing front with
  | nil => exact trivial
  | cons c l ih =>
    refine ⟨?_, ?_⟩
    · rw [bytesAt_get, List.append_assoc, List.getElem?_append_right (Nat.le_refl _), Nat.sub_self]
      rfl
    · have rest := ih (front ++ [c])
      rw [List.length_append, List.append_assoc front] at rest
      exact rest

theorem bytesAt_end (bytes : List Byte) : bytesAt 0 bytes bytes.length = 0 := by
  rw [bytesAt_get, List.getElem?_eq_none (Nat.le_refl _)]
  rfl

theorem text_spells (plain : ∀ l ∈ labels, Plain l) (dotted : trail = [] ∨ trail = [dot])
    (front : List Byte) :
    Spells (bytesAt 0 (front ++ (text labels ++ trail))) front.length labels := by
  have tail (front : List Byte) : Spells (bytesAt 0 (front ++ trail)) front.length [] := by
    rcases dotted with rfl | rfl
    · have ends := bytesAt_end (front ++ [])
      rw [List.append_nil] at ends ⊢
      exact .nil ends
    · have lies := bytesAt_lies front [dot] []
      have ends := bytesAt_end (front ++ [dot])
      rw [List.append_nil] at lies
      rw [List.length_append] at ends
      exact .dot lies.1 ends
  induction labels generalizing front with
  | nil => exact tail front
  | cons l labels ih =>
    have plain' := plain l List.mem_cons_self
    cases labels with
    | nil =>
      have lies := bytesAt_lies front l trail
      rw [List.append_assoc] at lies
      have rest := tail (front ++ l)
      rw [List.length_append, List.append_assoc] at rest
      rcases rest.done with nul | ⟨last, ends⟩
      · exact .last plain' lies nul
      · exact .more plain' lies last (.nil ends)
    | cons l' labels =>
      have lies := bytesAt_lies front (l ++ [dot]) (text (l' :: labels) ++ trail)
      have rest := ih (fun l mem => plain l (List.mem_cons_of_mem _ mem)) (front ++ (l ++ [dot]))
      have same : front ++ (l ++ [dot]) ++ (text (l' :: labels) ++ trail) =
          front ++ (text (l :: l' :: labels) ++ trail) := by
        rw [show text (l :: l' :: labels) = l ++ dot :: text (l' :: labels) from rfl]
        simp only [List.append_assoc, List.cons_append, List.nil_append]
      rw [same] at lies rest
      rw [List.length_append, List.length_append, ← Nat.add_assoc] at rest
      exact .more plain' lies.left lies.right.1 rest

theorem built_sound (built : Built lastdnptr mem saved cur names) (small : cur ≤ 2 ^ 14) :
    Sound mem saved cur names := by
  induction built with
  | start mem => exact ⟨by rintro n ⟨⟩, by rintro n ⟨⟩, by rintro p ⟨⟩⟩
  | @other mem mem' saved cur names built same ih =>
    have sound := ih small
    have kept : ∀ i, Owns names i → Owns names i ∧ mem' i = mem i := by
      rintro i ⟨n, member, low, high⟩
      exact ⟨⟨n, member, low, high⟩, same n member i low high⟩
    refine ⟨sound.below, fun n member => ?_,
      fun p member => (sound.saved p member).mono kept (Nat.le_refl _)⟩
    obtain ⟨w, holds, bytes⟩ := sound.named n member
    exact ⟨w, holds.mono kept, bytes⟩
  | @call mem saved cur fuel turns comp_dn length n names name labels trail r built further plain
    dotted spelled ends
      size ih =>
    have sound := ih (by lia)
    have spells := text_spells plain dotted []
    rw [List.nil_append, ← spelled] at spells
    have ready :
        Ready ⟨name, comp_dn, comp_dn + length, true, lastdnptr, saved.length⟩ (Owns names) cur
          ⟨mem, saved, name 0, 1, comp_dn⟩ 0 labels := by
      refine ⟨rfl, rfl, rfl, spells, ?_, further, Nat.le_refl _, by lia, Nat.le_refl _, ?_⟩
      · rintro i ⟨n, member, -, high⟩
        have below := sound.below n member
        lia
      · intro p member
        exact sound.saved p (List.mem_of_mem_take member)
    obtain ⟨e, w, written⟩ := loop_written ready ends size
    have past : comp_dn < e := written.holds.first.2
    have bytes : w + 1 + comp_dn ≤ e + comp_dn := written.bytes
    obtain rfl : n = e - comp_dn := Option.some.inj (size.symm.trans written.ret)
    have whole : comp_dn + (e - comp_dn) = e := by lia
    rw [whole]
    have grown : ∀ i, Owned ⟨name, comp_dn, comp_dn + length, true, lastdnptr, saved.length⟩
        (Owns names) e i →
        Owns (⟨comp_dn, e - comp_dn, labels⟩ :: names) i ∧ r.mem i = r.mem i := by
      rintro i (⟨n, member, low, high⟩ | ⟨low, high⟩)
      · exact ⟨⟨n, List.mem_cons_of_mem _ member, low, high⟩, rfl⟩
      · exact ⟨⟨_, List.mem_cons_self, low, by rw [whole]; exact high⟩, rfl⟩
    have kept : ∀ i, Owns names i → Owns (⟨comp_dn, e - comp_dn, labels⟩ :: names) i ∧
        r.mem i = mem i := by
      rintro i ⟨n, member, low, high⟩
      have below := sound.below n member
      refine ⟨⟨n, List.mem_cons_of_mem _ member, low, high⟩, written.frame i fun inside => ?_⟩
      have above : comp_dn ≤ i := inside.1
      lia
    refine ⟨?_, ?_, ?_⟩
    · intro n member
      rcases List.mem_cons.mp member with rfl | old
      · exact whole.le
      · have below := sound.below n old
        lia
    · intro n member
      rcases List.mem_cons.mp member with rfl | old
      · refine ⟨w, ?_, by rw [whole]; lia⟩
        rw [whole]
        exact written.holds.mono grown
      · obtain ⟨w, holds, bytes⟩ := sound.named n old
        exact ⟨w, holds.mono kept, bytes⟩
    · intro p member
      rcases written.saved p member with old | new
      · exact (sound.saved p old).mono kept (by lia)
      · exact new.mono grown (Nat.le_refl e)

theorem message_get {i : Nat} (inside : i < total) : (message mem total)[i]? = some (mem i) := by
  rw [message, List.getElem?_map, List.getElem?_range inside]
  rfl

theorem message_length (mem : Bytes) (total : Nat) : (message mem total).length = total := by
  rw [message, List.length_map, List.length_range]

theorem message_label (lies : Lies mem p l) (inside : p + l.length ≤ total) :
    ((message mem total).drop p).take l.length = l := by
  induction l generalizing p with
  | nil => rfl
  | cons c l ih =>
    rw [List.length_cons] at inside ⊢
    rw [drop_take_succ (message_get (by lia)), lies.1, ih lies.2 (by lia)]

theorem escaped_plain (noDot : ∀ c ∈ l, c ≠ dot) : escaped l = l := by
  induction l with
  | nil => rfl
  | cons c l ih =>
    rw [escaped_cons, if_neg (noDot c List.mem_cons_self),
      ih fun c mem => noDot c (List.mem_cons_of_mem _ mem)]
    rfl

theorem joined_long (dn l : List Byte) : dn.length ≤ (joined dn l).length := by
  rw [joined_length, after]
  split
  · omega
  · omega

theorem fold_long (labels : List (List Byte)) (dn : List Byte) :
    dn.length ≤ (labels.foldl joined dn).length := by
  induction labels generalizing dn with
  | nil => exact Nat.le_refl _
  | cons l labels ih => exact Nat.le_trans (joined_long dn l) (ih (joined dn l))

theorem fold_text (labels : List (List Byte)) (l : List Byte) (some : dn ≠ []) :
    (l :: labels).foldl joined dn = dn ++ dot :: text (l :: labels) := by
  induction labels generalizing dn l with
  | nil => exact if_neg some
  | cons l' labels ih =>
    have first : joined dn l = dn ++ dot :: l := if_neg some
    have more : joined dn l ≠ [] := by
      rw [first]
      exact List.append_ne_nil_of_left_ne_nil some _
    rw [List.foldl_cons, ih l' more, first, List.append_assoc]
    rfl

theorem fold_start (plain : ∀ l ∈ labels, Plain l) : labels.foldl joined [] = text labels := by
  cases labels with
  | nil => rfl
  | cons l labels =>
    have some := (plain l List.mem_cons_self).some
    rw [List.foldl_cons, show joined [] l = l from rfl]
    cases labels with
    | nil => rfl
    | cons l' labels => exact fold_text labels l' some

theorem Holds.plain (holds : Holds mem own p labels e w) : ∀ l ∈ labels, Plain l := by
  induction holds with
  | zero _ _ =>
    rintro l ⟨⟩
  | label plain _ _ _ _ ih =>
    intro l member
    rcases List.mem_cons.mp member with rfl | tail
    · exact plain
    · exact ih l tail
  | pointer _ _ _ _ ih => exact ih

/-- `dn_expand` follows a name to its end: the bytes it counts stay below those of the message. -/
theorem expand_holds (comp_dn : Nat) (dn : List Byte) (checked : Nat) (len : Option Nat)
    (holds : Holds mem own p labels e w) (inside : ∀ i, own i → i < total)
    (count : checked + w < total) (room : (labels.foldl joined dn).length < length) :
    ∃ enough, ∀ fuel, enough ≤ fuel →
      expandLoop (message mem total) comp_dn length fuel p dn len checked =
      .ok (len.getD (e - comp_dn), labels.foldl joined dn ++ [0]) := by
  have more {fuel k : Nat} (enough : k + 1 ≤ fuel) : ∃ rest, fuel = rest + 1 ∧ k ≤ rest :=
    ⟨fuel - 1, by lia, by lia⟩
  induction holds generalizing dn checked len with
  | @zero p ends mine =>
    refine ⟨1, fun fuel enough => ?_⟩
    obtain ⟨rest, rfl, -⟩ := more enough
    exact loop_end (message_get (inside p mine)) ends room
  | @label p e w l labels plain size lies mine rest ih =>
    obtain ⟨bytes, nonzero, mask⟩ := length_byte plain
    have next := inside _ rest.first.1
    have read : (message mem total)[p]? = some (BitVec.ofNat 8 l.length) :=
      size ▸ message_get (by lia)
    have printed : escaped (labelAt (message mem total) p (BitVec.ofNat 8 l.length).toNat) = l := by
      rw [bytes, labelAt, message_label lies (by lia), escaped_plain fun c mem =>
        (plain.bytes c mem).2.1]
    have fits := Nat.lt_of_le_of_lt (fold_long labels (joined dn l)) room
    have some : 0 < l.length := List.length_pos_iff.mpr plain.some
    obtain ⟨enough, run⟩ := ih (joined dn l) (checked + (l.length + 1)) len (by lia) room
    refine ⟨enough + 1, fun fuel more' => ?_⟩
    obtain ⟨rest', rfl, left⟩ := more more'
    rcases loop_label comp_dn len checked read nonzero mask
        (by rw [message_length]; lia) (Nat.lt_of_le_of_lt (joined_long dn l) fits) with ⟨-, -,
          step⟩ | ⟨fails, -⟩
    · rw [step rest', printed, bytes]
      exact run rest' left
    · refine absurd ⟨?_, ?_⟩ fails
      · rw [bytes, message_length]
        exact next
      · rw [printed]
        exact fits
  | @pointer p t e w labels points to' mine rest ih =>
    have first := inside _ mine.1
    have second := inside _ mine.2
    obtain ⟨enough, run⟩ := ih dn (checked + 2) (some (len.getD (p + 2 - comp_dn))) (by lia) room
    refine ⟨enough + 1, fun fuel more' => ?_⟩
    obtain ⟨rest', rfl, left⟩ := more more'
    have target := inside _ rest.first.1
    rw [loop_pointer (message_get first) points (message_get second), to', message_length,
      if_neg (Nat.not_le_of_lt target), if_neg (by lia), run rest' left]
    rfl

theorem skip_holds (comp_dn : Nat) (holds : Holds mem own p labels e w)
    (inside : ∀ i, own i → i < total) :
    ∃ enough, ∀ fuel, enough ≤ fuel →
      skipName mem total comp_dn fuel p = some (some (e - comp_dn)) := by
  have more {fuel k : Nat} (enough : k + 1 ≤ fuel) : ∃ rest, fuel = rest + 1 ∧ k ≤ rest :=
    ⟨fuel - 1, by lia, by lia⟩
  induction holds with
  | @zero p ends mine =>
    refine ⟨1, fun fuel enough => ?_⟩
    obtain ⟨rest, rfl, -⟩ := more enough
    rw [skipName, if_neg (Nat.not_le_of_lt (inside p mine)), if_pos ends]
  | @label p e w l labels plain size lies mine rest ih =>
    obtain ⟨bytes, nonzero, mask⟩ := length_byte plain
    have next := inside _ rest.first.1
    obtain ⟨enough, run⟩ := ih
    refine ⟨enough + 1, fun fuel more' => ?_⟩
    obtain ⟨rest', rfl, left⟩ := more more'
    rw [skipName, if_neg (by lia), size, if_neg nonzero, if_pos mask, bytes]
    exact run rest' left
  | @pointer p t e w labels points to' mine rest ih =>
    obtain ⟨nonzero, notPlain⟩ := points_some points
    refine ⟨1, fun fuel enough => ?_⟩
    obtain ⟨rest', rfl, -⟩ := more enough
    rw [skipName, if_neg (Nat.not_le_of_lt (inside _ mine.1)), if_neg nonzero, if_neg notPlain,
      if_pos points]

end Message

/-- Every name of a message of fewer than 2^14 bytes that calls of `dn_comp` have built comes back,
and the three functions agree about its size. -/
theorem dnComp_dnExpand {lastdnptr : Option Nat} {mem : Bytes} {saved : List Nat} {cur total : Nat}
    {names : List Name} (built : Built lastdnptr mem saved cur names) (whole : cur ≤ total)
    (small : total < 2 ^ 14) :
    ∀ n ∈ names, Expands mem total n := by
  intro n member
  have sound := built_sound built (by omega)
  have below := sound.below n member
  obtain ⟨w, holds, bytes⟩ := sound.named n member
  have inside : ∀ i, Owns names i → i < total := by
    rintro i ⟨m, member, -, high⟩
    have below := sound.below m member
    omega
  have size : n.comp_dn + n.size - n.comp_dn = n.size := Nat.add_sub_cancel_left _ _
  constructor
  · intro length room
    have text := fold_start holds.plain
    rw [← text] at room ⊢
    obtain ⟨enough, run⟩ := expand_holds n.comp_dn _ 0 none holds inside (by omega) room
    refine ⟨enough, fun fuel more => ?_⟩
    rw [dnExpand, run fuel more, Option.getD_none, size]
  · obtain ⟨enough, run⟩ := skip_holds n.comp_dn holds inside
    refine ⟨enough, fun fuel more => ?_⟩
    rw [run fuel more, size]

/-- The name a.b, and b with a last dot behind it. -/
theorem dnComp_dnExpand_twice : ∃ mem saved, Built (some 10) mem saved 9
    [⟨7, 2, [[98]]⟩, ⟨2, 5, [[97], [98]]⟩] ∧ Expands mem 9 ⟨7, 2, [[98]]⟩ := by
  have plain (c : Byte) (other : c ≠ 0 ∧ c ≠ dot ∧ c ≠ backslash) : Plain [c] := by
    refine ⟨List.cons_ne_nil c [], (by decide : 1 ≤ MAXLABEL), fun c' member => ?_⟩
    rw [List.mem_singleton.mp member]
    exact other
  have runs :
      ((dnComp 9 9 (bytesAt 0 [97, 46, 98]) 2 20 true [] (some 10) (bytesAt 0 [])).bind fun r =>
      (dnComp 9 9 (bytesAt 0 [98, 46]) 7 20 true r.saved (some 10) r.mem).map fun t =>
        (r.ret, t.ret)) =
      some (some 5, some 2) := by decide
  obtain ⟨r, first, rest⟩ := Option.bind_eq_some_iff.mp runs
  obtain ⟨t, second, rets⟩ := Option.map_eq_some_iff.mp rest
  have rets := Prod.mk.inj rets
  have one : Built (some 10) r.mem r.saved (2 + 5) [⟨2, 5, [[97], [98]]⟩] := by
    refine .call (.start (bytesAt 0 [])) (by decide) ?_ (.inl rfl) rfl first rets.1
    intro l member
    rcases List.mem_cons.mp member with rfl | member
    · exact plain 97 (by decide)
    · rw [List.mem_singleton.mp member]
      exact plain 98 (by decide)
  have two : Built (some 10) t.mem t.saved (7 + 2) [⟨7, 2, [[98]]⟩, ⟨2, 5, [[97], [98]]⟩] := by
    refine .call one (by decide) ?_ (.inr rfl) rfl second rets.2
    intro l member
    rw [List.mem_singleton.mp member]
    exact plain 98 (by decide)
  exact ⟨t.mem, t.saved, two, dnComp_dnExpand two (by decide) (by decide) _ List.mem_cons_self⟩

end FreeBsd.Resolv
