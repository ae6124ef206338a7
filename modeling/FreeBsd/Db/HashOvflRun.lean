import FreeBsd.Db.HashOvfl

/-! Runs of the calls that hand out overflow pages, take them back and add buckets. -/
namespace FreeBsd.Db

open FreeBsd.Lib

variable {h h' : Htab} {g s o b addr : Nat}

section Runs

structure Table where
  htab : Htab
  live : Set Nat

/-- `overflow_page` needs a new map, and the page it becomes has the last offset of the split point.
-/
def Htab.mapEndsSplit (h : Htab) : Prop :=
  scanMaps h (h.lastFreed / h.mapBits) ((h.pages - 1) / h.mapBits) ((h.pages - 1) % h.mapBits) =
    none ∧
    (h.pages - 1) % h.mapBits = h.mapBits - 1 ∧ h.pages + 1 - h.before h.ovflPoint = SPLITMASK

/-- The calls of `__split_page` inside `__expand_table` are steps of their own. -/
inductive Table.Step (t : Table) : Table → Prop where
  | overflow (h : Htab) (addr : Nat) : ¬ t.htab.mapEndsSplit →
    overflowPage t.htab = some (h, addr) →
      Step t ⟨h, insert addr t.live⟩
  | free (addr : Nat) : addr ∈ t.live → Step t ⟨freeOvflpage t.htab addr, t.live \ {addr}⟩
  | expand (h : Htab) : expandTable t.htab = some h → Step t ⟨h, t.live⟩

def Table.Reaches : Table → Table → Prop := Relation.ReflTransGen Table.Step

/-- Each bit below the page count is a page: the first of a map is the map's own, the others that
are set are the live ones. The bits above the count are set. -/
structure Table.Sound (t : Table) : Prop where
  counted : t.htab.Counted
  nmaps : t.htab.nmaps = (t.htab.pages - 1) / t.htab.mapBits + 1
  present : ∀ i < t.htab.nmaps, (t.htab.mapp i).isSome
  beyond : ∀ g, t.htab.pages ≤ g → g / t.htab.mapBits < t.htab.nmaps → t.htab.isSet g = true
  own : ∀ i < t.htab.nmaps, t.htab.bitmaps i = t.htab.addrOf (i * t.htab.mapBits) ∧
    t.htab.isSet (i * t.htab.mapBits) = true
  live : ∀ a, a ∈ t.live ↔ ∃ g < t.htab.pages, g % t.htab.mapBits ≠ 0 ∧ t.htab.isSet g = true ∧
    a = t.htab.addrOf g
  hint : t.htab.lastFreed / t.htab.mapBits < t.htab.nmaps

theorem Table.Sound.page_lt {t : Table} (sound : t.Sound) (inside : g < t.htab.pages) :
    g / t.htab.mapBits < t.htab.nmaps := by
  rw [sound.nmaps]
  have := Nat.div_le_div_right (c := t.htab.mapBits) (show g ≤ t.htab.pages - 1 by lia)
  lia

theorem Table.Sound.map_lt {t : Table} (sound : t.Sound) {i : Nat} (inside : i < t.htab.nmaps) :
    i * t.htab.mapBits < t.htab.pages := by
  have some_page := sound.counted.some_page
  have : i ≤ (t.htab.pages - 1) / t.htab.mapBits := by
    have := sound.nmaps
    lia
  have := (Nat.le_div_iff_mul_le sound.counted.mapBits_pos.2).mp this
  lia

theorem Table.Sound.mark {t : Table} (sound : t.Sound) (inside : g < t.htab.pages)
    (page : g % t.htab.mapBits ≠ 0) {hint : Nat} (value : Bool)
    (low : hint / t.htab.mapBits < t.htab.nmaps) {live : Set Nat}
    (marked : ∀ a, a ∈ live ↔ if a = t.htab.addrOf g then value = true else a ∈ t.live) :
    Table.Sound
      ⟨{ t.htab.setBit (g / t.htab.mapBits) (g % t.htab.mapBits) value with lastFreed := hint },
      live⟩ := by
  have bits := t.htab.isSet_setBit (g := g) (sound.present _ (sound.page_lt inside)) value
  constructor
  · exact ⟨sound.counted.word, sound.counted.point, sound.counted.first, sound.counted.counts,
      sound.counted.room, sound.counted.some_page, sound.counted.buckets⟩
  · exact sound.nmaps
  · intro i here
    have := sound.present i here
    by_cases same : i = g / t.htab.mapBits
    · subst same
      simpa [Htab.setBit] using this
    · simpa [Htab.setBit, Function.update_of_ne same] using this
  · intro f outside here
    refine (bits f).trans ?_
    change t.htab.pages ≤ f at outside
    rw [if_neg (by omega)]
    exact sound.beyond f outside here
  · intro i here
    refine ⟨(sound.own i here).1, (bits (i * t.htab.mapBits)).trans ?_⟩
    have other : i * t.htab.mapBits ≠ g := by
      rintro rfl
      exact page (Nat.mul_mod_left ..)
    rw [if_neg other]
    exact (sound.own i here).2
  · intro a
    rw [marked a]
    change _ ↔ ∃ f < t.htab.pages, f % t.htab.mapBits ≠ 0 ∧
      (t.htab.setBit (g / t.htab.mapBits) (g % t.htab.mapBits) value).isSet f = true ∧
        a = t.htab.addrOf f
    by_cases same : a = t.htab.addrOf g
    · rw [if_pos same]
      constructor
      · intro set
        exact ⟨g, inside, page, by rw [bits, if_pos rfl, set], same⟩
      · rintro ⟨f, here, -, set, address⟩
        have := sound.counted.addrOf_inj here inside (address.symm.trans same)
        rwa [bits, if_pos this] at set
    · rw [if_neg same, sound.live a]
      constructor
      · rintro ⟨f, here, first, set, rfl⟩
        exact ⟨f, here, first, by rw [bits, if_neg (fun eq => same (by rw [eq]))]; exact set, rfl⟩
      · rintro ⟨f, here, first, set, rfl⟩
        rw [bits, if_neg (fun eq => same (by rw [eq]))] at set
        exact ⟨f, here, first, set, rfl⟩
  · exact low

/-- The table grows: the bits of the new pages are set, and the live ones among them are not maps.
-/
theorem Table.Sound.extend {t : Table} (sound : t.Sound) (extends_ : t.htab.Extends h)
    (counted : h.Counted) (nmaps : h.nmaps = (h.pages - 1) / h.mapBits + 1)
    (present : ∀ i < h.nmaps, (h.mapp i).isSome)
    (kept : ∀ g < t.htab.pages, h.isSet g = t.htab.isSet g)
    (set : ∀ g, t.htab.pages ≤ g → g / h.mapBits < h.nmaps → h.isSet g = true)
    (old : ∀ i < t.htab.nmaps, h.bitmaps i = t.htab.bitmaps i)
    (new : ∀ i < h.nmaps, t.htab.nmaps ≤ i → h.bitmaps i = h.addrOf (i * h.mapBits))
    (hint : h.lastFreed / h.mapBits < h.nmaps) {live : Set Nat}
    (handed : ∀ a, a ∈ live ↔ a ∈ t.live ∨ ∃ g < h.pages, t.htab.pages ≤ g ∧ g % h.mapBits ≠ 0 ∧
    a = h.addrOf g) :
    Table.Sound ⟨h, live⟩ := by
  have grows := extends_.pages_le counted
  have bits := extends_.mapBits
  have inMaps : ∀ g < h.pages, g / h.mapBits < h.nmaps := by
    intro g inside
    have := Nat.div_le_div_right (c := h.mapBits) (show g ≤ h.pages - 1 by lia)
    lia
  refine ⟨counted, nmaps, present, fun g outside => set g (by change h.pages ≤ g at outside; lia),
    ?_, ?_, hint⟩
  · intro i here
    change h.bitmaps i = h.addrOf (i * h.mapBits) ∧ h.isSet (i * h.mapBits) = true
    by_cases early : i < t.htab.nmaps
    · have inside := sound.map_lt early
      rw [old i early, (sound.own i early).1, bits, extends_.addrOf counted sound.counted inside,
        kept _ inside]
      exact ⟨rfl, (sound.own i early).2⟩
    · refine ⟨new i here (by lia), set _ ?_ ?_⟩
      · by_contra less
        have := sound.page_lt (g := i * h.mapBits) (by lia)
        rw [bits, Nat.mul_div_cancel _ sound.counted.mapBits_pos.2] at this
        lia
      · rwa [Nat.mul_div_cancel _ counted.mapBits_pos.2]
  · intro a
    change a ∈ live ↔ ∃ g < h.pages, g % h.mapBits ≠ 0 ∧ h.isSet g = true ∧ a = h.addrOf g
    rw [handed a, sound.live a]
    constructor
    · rintro (⟨g, inside, page, marked, rfl⟩ | ⟨g, inside, outside, page, rfl⟩)
      · exact ⟨g, by lia, by rwa [bits], by rw [kept g inside]; exact marked,
          (extends_.addrOf counted sound.counted inside).symm⟩
      · exact ⟨g, inside, page, set g outside (inMaps g inside), rfl⟩
    · rintro ⟨g, inside, page, marked, rfl⟩
      by_cases early : g < t.htab.pages
      · refine .inl ⟨g, early, by rwa [← bits], by rwa [← kept g early], ?_⟩
        exact extends_.addrOf counted sound.counted early
      · exact .inr ⟨g, inside, by lia, page, rfl⟩

theorem Htab.SameMaps.isSet (same : h.SameMaps h') (extends_ : h.Extends h') (g : Nat) :
    h'.isSet g = h.isSet g := by
  rw [Htab.isSet, Htab.isSet, same.1, extends_.mapBits]

theorem next_bit {n m : Nat} (some_page : 1 ≤ n) (positive : 0 < m) (room : (n - 1) % m ≠ m - 1) :
    n / m = (n - 1) / m ∧ n % m = (n - 1) % m + 1 := by
  have whole := Nat.div_add_mod (n - 1) m
  have low := Nat.mod_lt (n - 1) positive
  exact (Nat.div_mod_unique positive).mpr ⟨by lia, by lia⟩

theorem next_map {n m : Nat} (some_page : 1 ≤ n) (positive : 0 < m) (full : (n - 1) % m = m - 1) :
    n / m = (n - 1) / m + 1 ∧ n % m = 0 := by
  have whole := Nat.div_add_mod (n - 1) m
  exact (Nat.div_mod_unique positive).mpr ⟨by rw [Nat.mul_add]; lia, positive⟩

theorem Table.Sound.addPage {t : Table} (sound : t.Sound)
    (room : (t.htab.pages - 1) % t.htab.mapBits ≠ t.htab.mapBits - 1)
    (added : t.htab.addPage = some (h, s, o)) :
    OADDR_OF s o = h.addrOf t.htab.pages ∧ h.pages = t.htab.pages + 1 ∧ t.htab.Extends h ∧
      t.htab.pages % t.htab.mapBits ≠ 0 ∧
      Table.Sound
        ⟨h.setBit ((t.htab.pages - 1) / t.htab.mapBits) ((t.htab.pages - 1) % t.htab.mapBits + 1)
        true, insert (OADDR_OF s o) t.live⟩ := by
  obtain ⟨extends_, counted, same, hint, pages, rfl, offset, one, -, -⟩ :=
    sound.counted.addPage added
  have bits := extends_.mapBits
  obtain ⟨page, bit⟩ := next_bit sound.counted.some_page sound.counted.mapBits_pos.2 room
  have address : OADDR_OF h.ovflPoint o = h.addrOf t.htab.pages := by
    have last := counted.addrOf_last (by lia)
    rw [← offset, pages] at last
    exact last.symm
  have nonzero : t.htab.pages % t.htab.mapBits ≠ 0 := by lia
  have grown : Table.Sound ⟨h, insert (OADDR_OF h.ovflPoint o) t.live⟩ := by
    apply sound.extend extends_ counted
    · rw [same.2.1, sound.nmaps, bits, pages, Nat.add_sub_cancel, page]
    · rw [same.1, same.2.1]
      exact sound.present
    · exact fun g _ => same.isSet extends_ g
    · rw [bits, same.2.1]
      intro g outside here
      rw [same.isSet extends_]
      exact sound.beyond g outside here
    · exact fun i _ => by rw [same.2.2]
    · rw [same.2.1]
      exact fun i here later => absurd here (by lia)
    · rw [hint, bits, same.2.1, page, sound.nmaps]
      exact Nat.lt_succ_self _
    · intro a
      rw [Set.mem_insert_iff, address]
      constructor
      · rintro (rfl | old)
        · exact .inr ⟨_, by lia, Nat.le_refl _, by rwa [bits], rfl⟩
        · exact .inl old
      · rintro (old | ⟨g, inside, outside, -, rfl⟩)
        · exact .inr old
        · have : g = t.htab.pages := by lia
          exact .inl (by rw [this])
  have marked := @Table.Sound.mark t.htab.pages _ grown (by change _ < h.pages; lia)
    (by change _ % h.mapBits ≠ 0; rwa [bits]) _ true grown.hint
      (insert (OADDR_OF h.ovflPoint o) t.live) (by
      intro a
      by_cases same : a = h.addrOf t.htab.pages
      · simp [same, address]
      · simp [same, address])
  refine ⟨address, pages, extends_, nonzero, ?_⟩
  rw [← page, ← bit, ← bits]
  exact marked

theorem clearBelow_one (n : Nat) : clearBelow 1 n = true := by
  simp only [clearBelow, BITS_PER_MAP, Bool.or_eq_true, beq_iff_eq]
  by_cases low : n / 32 = 0
  · simp [low]
    lia
  · simp [low]
    lia

theorem Table.Sound.addMap {t : Table} (sound : t.Sound)
    (full : (t.htab.pages - 1) % t.htab.mapBits = t.htab.mapBits - 1)
    (other : t.htab.pages + 1 - t.htab.before t.htab.ovflPoint ≠ SPLITMASK)
    (paged : t.htab.addPage = some (h, s, o))
    (added : h.addMap s o ((t.htab.pages - 1) / t.htab.mapBits + 1) = some (h', addr)) :
    addr = h'.addrOf (t.htab.pages + 1) ∧ h'.pages = t.htab.pages + 2 ∧ t.htab.Extends h' ∧
      (t.htab.pages + 1) % t.htab.mapBits ≠ 0 ∧ Table.Sound ⟨h', insert addr t.live⟩ := by
  obtain ⟨extends₁, counted₁, same, hint₁, pages₁, here, offset, one, fits, which⟩ :=
    sound.counted.addPage paged
  have left : o + 1 ≤ SPLITMASK := by
    rcases which with first | last
    · rw [first]
      decide
    · lia
  obtain ⟨extends₂, counted, pages₂, hint₂, mapp, bitmaps, nmaps, above, last⟩ :=
    counted₁.addMap here offset left added
  have extends_ := extends₁.trans extends₂
  have bits := extends_.mapBits
  have positive := sound.counted.mapBits_pos.2
  obtain ⟨page, bit⟩ := next_map sound.counted.some_page positive full
  obtain ⟨words, size⟩ := sound.counted.mapBits_pos.1
  have pages : h'.pages = t.htab.pages + 2 := by lia
  have count : (t.htab.pages - 1) / t.htab.mapBits + 1 = t.htab.nmaps := sound.nmaps.symm
  have start : t.htab.nmaps * t.htab.mapBits = t.htab.pages := by
    have whole := Nat.div_add_mod t.htab.pages t.htab.mapBits
    rw [bit, page, count, Nat.mul_comm] at whole
    exact whole
  obtain ⟨page', bit'⟩ : (t.htab.pages + 1) / t.htab.mapBits = t.htab.nmaps ∧
      (t.htab.pages + 1) % t.htab.mapBits = 1 := by
    refine (Nat.div_mod_unique positive).mpr ⟨?_, by lia⟩
    rw [Nat.mul_comm, start, Nat.add_comm]
  rw [count] at mapp bitmaps
  rw [same.1] at mapp
  rw [same.2.2] at bitmaps
  rw [same.2.1] at nmaps
  have mapAddress : OADDR_OF s o = h'.addrOf t.htab.pages := by
    have first := counted₁.addrOf_last (by rw [← here]; lia)
    rw [← here, ← offset, pages₁, Nat.add_sub_cancel] at first
    rw [extends₂.addrOf counted counted₁ (by lia), first]
  have address : addr = h'.addrOf (t.htab.pages + 1) := by
    rw [last, ← counted.addrOf_last above, pages]
    rfl
  have old : ∀ g, g / t.htab.mapBits < t.htab.nmaps → h'.isSet g = t.htab.isSet g := by
    intro g below
    rw [Htab.isSet, Htab.isSet, bits, mapp, Function.update_of_ne (by lia)]
  refine ⟨address, pages, extends_, by lia, ?_⟩
  apply sound.extend extends_ counted
  · rw [nmaps, pages, bits, show t.htab.pages + 2 - 1 = t.htab.pages + 1 by lia, page']
  · intro i below
    by_cases early : i < t.htab.nmaps
    · rw [mapp, Function.update_of_ne (by lia)]
      exact sound.present i early
    · have : i = t.htab.nmaps := by lia
      rw [mapp, this, Function.update_self]
      rfl
  · exact fun g inside => old g (sound.page_lt inside)
  · rw [bits, nmaps]
    intro g outside below
    by_cases early : g / t.htab.mapBits < t.htab.nmaps
    · rw [old g early]
      exact sound.beyond g outside early
    · have : g / t.htab.mapBits = t.htab.nmaps := by lia
      rw [Htab.isSet, bits, mapp, this, Function.update_self]
      exact clearBelow_one _
  · intro i early
    rw [bitmaps, Function.update_of_ne (by lia)]
  · intro i below later
    have : i = t.htab.nmaps := by lia
    rw [bitmaps, this, Function.update_self, bits, start, mapAddress]
  · rw [hint₂, hint₁, bits, nmaps, page, count]
    exact Nat.lt_succ_self _
  · intro a
    rw [Set.mem_insert_iff, bits, address]
    constructor
    · rintro (rfl | old)
      · exact .inr ⟨_, by lia, by lia, by lia, rfl⟩
      · exact .inl old
    · rintro (old | ⟨g, inside, outside, nonzero, rfl⟩)
      · exact .inr old
      · have : g = t.htab.pages + 1 := by
          by_contra less
          have : g = t.htab.pages := by lia
          rw [this] at nonzero
          exact nonzero bit
        exact .inl (by rw [this])

theorem Table.Sound.found {t : Table} (sound : t.Sound) {i bit hint : Nat}
    (inside : i ≤ (t.htab.pages - 1) / t.htab.mapBits) (low : bit < t.htab.mapBits)
    (clear : t.htab.isSet (i * t.htab.mapBits + bit) = false)
    (near : hint = i * t.htab.mapBits + bit ∨ hint = t.htab.lastFreed) :
    i * t.htab.mapBits + bit < t.htab.pages ∧ bit ≠ 0 ∧
      Table.Sound ⟨{ t.htab.setBit i bit true with lastFreed := hint },
        insert (t.htab.addrOf (i * t.htab.mapBits + bit)) t.live⟩ := by
  have positive := sound.counted.mapBits_pos.2
  obtain ⟨page, rest⟩ : (i * t.htab.mapBits + bit) / t.htab.mapBits = i ∧
      (i * t.htab.mapBits + bit) % t.htab.mapBits = bit :=
    (Nat.div_mod_unique positive).mpr ⟨by rw [Nat.mul_comm, Nat.add_comm], low⟩
  have here : i < t.htab.nmaps := by
    have := sound.nmaps
    lia
  have below : i * t.htab.mapBits + bit < t.htab.pages := by
    by_contra outside
    rw [sound.beyond _ (by lia) (by lia)] at clear
    cases clear
  have nonzero : bit ≠ 0 := by
    rintro rfl
    have := (sound.own i here).2
    rw [Nat.add_zero, this] at clear
    cases clear
  have close : hint / t.htab.mapBits < t.htab.nmaps := by
    rcases near with rfl | rfl
    · exact sound.page_lt below
    · exact sound.hint
  have marked := @Table.Sound.mark _ _ sound below (by rwa [rest]) _ true close
    (insert (t.htab.addrOf (i * t.htab.mapBits + bit)) t.live) (by
      intro a
      by_cases same : a = t.htab.addrOf (i * t.htab.mapBits + bit)
      · simp [same]
      · simp [same])
  rw [page, rest] at marked
  exact ⟨below, nonzero, marked⟩

theorem takePage_some {i bit : Nat} (taken : takePage h i bit = some (h', addr)) :
    ∃ hint, (hint = i * h.mapBits + bit ∨ hint = h.lastFreed) ∧
      h' = { h.setBit i bit true with lastFreed := hint } ∧
        addr = h.addrOf (i * h.mapBits + bit) := by
  have number : 1 + bit + i * h.mapBits = i * h.mapBits + bit + 1 := by omega
  simp only [takePage, number, Nat.add_sub_cancel] at taken
  by_cases full : i * h.mapBits + bit + 1 - h.before (h.splitOf (i * h.mapBits + bit + 1)) ≥
    SPLITMASK
  · rw [if_pos full] at taken
    cases taken
  · rw [if_neg full] at taken
    obtain ⟨rfl, rfl⟩ := taken
    refine ⟨_, ?_, rfl, rfl⟩
    by_cases later : i * h.mapBits + bit + 1 ≥ h.lastFreed
    · exact .inl (if_pos later)
    · exact .inr (if_neg later)

/-- What a call of `overflow_page` hands out: a page that was not marked, marked from now on. -/
theorem Table.Sound.overflow {t : Table} (sound : t.Sound) (other : ¬ t.htab.mapEndsSplit)
    (paged : overflowPage t.htab = some (h, addr)) :
    t.htab.Extends h ∧ Table.Sound ⟨h, insert addr t.live⟩ ∧
      ∃ g < h.pages, g % h.mapBits ≠ 0 ∧ addr = h.addrOf g ∧
        (t.htab.pages ≤ g ∨ t.htab.isSet g = false) := by
  have positive := sound.counted.mapBits_pos.2
  have known : t.htab.spares t.htab.ovflPoint = t.htab.pages := rfl
  simp only [overflowPage, known] at paged
  cases scan :
    scanMaps t.htab (t.htab.lastFreed / t.htab.mapBits) ((t.htab.pages - 1) / t.htab.mapBits)
      ((t.htab.pages - 1) % t.htab.mapBits) with
  | none =>
    rw [scan] at paged
    obtain ⟨⟨h₁, s, o⟩, added, rest⟩ := Option.bind_eq_some_iff.mp paged
    have bits := (sound.counted.addPage added).1.mapBits
    simp only [bits] at rest
    by_cases full : (t.htab.pages - 1) % t.htab.mapBits = t.htab.mapBits - 1
    · rw [if_pos full] at rest
      obtain ⟨address, pages, extends_, nonzero, grown⟩ :=
        sound.addMap full (fun last => other ⟨scan, full, last⟩) added rest
      exact ⟨extends_, grown, _, by lia, by rwa [extends_.mapBits], address, .inl (by lia)⟩
    · rw [if_neg full] at rest
      obtain ⟨rfl, rfl⟩ := rest
      obtain ⟨address, pages, extends_, nonzero, grown⟩ := sound.addPage full added
      refine ⟨⟨extends_.bshift, extends_.hdrpages, extends_.point, extends_.kept, extends_.last,
        extends_.buckets⟩, grown, t.htab.pages, ?_, ?_, address, .inl (Nat.le_refl _)⟩
      · change _ < h₁.pages
        lia
      · change _ % h₁.mapBits ≠ 0
        rwa [bits]
  | some hit =>
    obtain ⟨i, bit⟩ := hit
    obtain ⟨inside, -, low, clear⟩ := sound.counted.scanMaps scan (Nat.mod_lt _ positive)
    simp only [scan] at paged
    obtain ⟨hint, near, rfl, rfl⟩ := takePage_some paged
    obtain ⟨below, nonzero, marked⟩ := sound.found inside low clear near
    refine ⟨⟨rfl, rfl, Nat.le_refl _, fun _ _ => rfl, Nat.le_refl _, Nat.le_refl _⟩, marked,
      i * t.htab.mapBits + bit, below, ?_, rfl, .inr clear⟩
    change (i * t.htab.mapBits + bit) % t.htab.mapBits ≠ 0
    rwa [Nat.mul_comm, Nat.mul_add_mod, Nat.mod_eq_of_lt low]

theorem Table.Sound.free {t : Table} (sound : t.Sound) (here : addr ∈ t.live) :
    t.htab.Extends (freeOvflpage t.htab addr) ∧
      Table.Sound ⟨freeOvflpage t.htab addr, t.live \ {addr}⟩ := by
  obtain ⟨g, inside, page, set, rfl⟩ := (sound.live _).mp here
  have low : (if g < t.htab.lastFreed then g else t.htab.lastFreed) / t.htab.mapBits <
      t.htab.nmaps := by
    by_cases less : g < t.htab.lastFreed
    · rw [if_pos less]
      exact sound.page_lt inside
    · rw [if_neg less]
      exact sound.hint
  have marked := @Table.Sound.mark _ _ sound inside page _ false low (t.live \ {t.htab.addrOf g})
    (by
    intro a
    by_cases same : a = t.htab.addrOf g
    · simp [same]
    · simp [same])
  have freed : freeOvflpage t.htab (t.htab.addrOf g) =
      { t.htab.setBit (g / t.htab.mapBits) (g % t.htab.mapBits) false with
        lastFreed := if g < t.htab.lastFreed then g else t.htab.lastFreed } := by
    simp only [freeOvflpage, sound.counted.bitAddress_addrOf inside]
    rfl
  rw [freed]
  exact ⟨⟨rfl, rfl, Nat.le_refl _, fun _ _ => rfl, Nat.le_refl _, Nat.le_refl _⟩, marked⟩

theorem expandTable_some (expanded : expandTable h = some h') :
    h.maxBucket + 1 < MAXBUCKETS ∧ h'.maxBucket = h.maxBucket + 1 ∧ h'.bshift = h.bshift ∧
      h'.hdrpages = h.hdrpages ∧ h.SameMaps h' ∧ h'.lastFreed = h.lastFreed ∧
      if log2 (h.maxBucket + 1 + 1) > h.ovflPoint then
        h'.ovflPoint = log2 (h.maxBucket + 1 + 1) ∧
          h'.spares = Function.update h.spares h'.ovflPoint h.pages
      else h'.ovflPoint = h.ovflPoint ∧ h'.spares = h.spares := by
  simp only [expandTable] at expanded
  by_cases few : h.maxBucket + 1 ≥ MAXBUCKETS
  · rw [if_pos few] at expanded
    cases expanded
  · rw [if_neg few] at expanded
    refine ⟨by omega, ?_⟩
    by_cases later : log2 (h.maxBucket + 1 + 1) > h.ovflPoint
    · simp only [if_pos later] at expanded ⊢
      split at expanded <;> obtain rfl := Option.some.inj expanded <;>
        exact ⟨rfl, rfl, rfl, ⟨rfl, rfl, rfl⟩, rfl, rfl, rfl⟩
    · simp only [if_neg later] at expanded ⊢
      split at expanded <;> obtain rfl := Option.some.inj expanded <;>
        exact ⟨rfl, rfl, rfl, ⟨rfl, rfl, rfl⟩, rfl, rfl, rfl⟩

theorem Htab.Counted.expand (counted : h.Counted) (expanded : expandTable h = some h') :
    h.Extends h' ∧ h'.Counted ∧ h'.pages = h.pages := by
  have buckets := counted.buckets
  obtain ⟨few, bucket, bshift, hdrpages, same, hint, point⟩ := expandTable_some expanded
  rw [MAXBUCKETS] at few
  obtain ⟨reaches, first⟩ := @log2_spec (h.maxBucket + 1 + 1) (by lia)
  by_cases later : log2 (h.maxBucket + 1 + 1) > h.ovflPoint
  · rw [if_pos later] at point
    obtain ⟨point, spares⟩ := point
    have next : h'.ovflPoint = h.ovflPoint + 1 := by
      have := first (by lia)
      have early : log2 (h.maxBucket + 1 + 1) - 1 < h.ovflPoint + 1 := by
        apply (Nat.pow_lt_pow_iff_right (by decide : 1 < 2)).mp
        rw [Nat.pow_succ]
        lia
      lia
    have small : h'.ovflPoint - 1 < 30 := by
      apply (Nat.pow_lt_pow_iff_right (by decide : 1 < 2)).mp
      have := first (by lia)
      rw [← point] at this
      lia
    have pages : h'.pages = h.pages := by rw [Htab.pages, spares, Function.update_self]
    obtain ⟨extends_, counted'⟩ := counted.next bshift hdrpages next (by rw [NCACHED]; lia)
      (fun i below => by rw [spares, Function.update_of_ne (by lia)]) (Nat.le_of_eq pages.symm)
        (by lia)
      (by lia) (by rw [← next, point, bucket]; exact reaches)
    exact ⟨extends_, counted', pages⟩
  · rw [if_neg later] at point
    obtain ⟨point, spares⟩ := point
    have pages : h'.pages = h.pages := by rw [Htab.pages, Htab.pages, spares, point]
    refine ⟨⟨bshift, hdrpages, by lia, fun i _ => by rw [spares], ?_, by lia⟩,
      ⟨?_, ?_, ?_, ?_, ?_, ?_, ?_⟩, pages⟩
    · rw [spares]
      exact Nat.le_refl _
    · rw [bshift]
      exact counted.word
    · rw [point]
      exact counted.point
    · rw [spares]
      exact counted.first
    · rw [spares, point]
      exact counted.counts
    · rw [spares, point]
      exact counted.room
    · rw [pages]
      exact counted.some_page
    · rw [bucket, point]
      exact Nat.le_trans reaches (Nat.pow_le_pow_right (by decide) (by lia))

theorem Table.Sound.expand {t : Table} (sound : t.Sound) (expanded : expandTable t.htab = some h) :
    t.htab.Extends h ∧ Table.Sound ⟨h, t.live⟩ := by
  obtain ⟨-, -, -, -, same, hint, -⟩ := expandTable_some expanded
  obtain ⟨extends_, counted, pages⟩ := sound.counted.expand expanded
  have bits := extends_.mapBits
  refine ⟨extends_, ?_⟩
  apply sound.extend extends_ counted
  · rw [same.2.1, pages, bits]
    exact sound.nmaps
  · rw [same.1, same.2.1]
    exact sound.present
  · exact fun g _ => same.isSet extends_ g
  · rw [bits, same.2.1]
    intro g outside here
    rw [same.isSet extends_]
    exact sound.beyond g outside here
  · exact fun i _ => by rw [same.2.2]
  · rw [same.2.1]
    exact fun i here later => absurd here (by omega)
  · rw [hint, bits, same.2.1]
    exact sound.hint
  · intro a
    constructor
    · exact .inl
    · rintro (old | ⟨g, inside, outside, -⟩)
      · exact old
      · omega

theorem Table.Sound.step {t u : Table} (sound : t.Sound) (step : t.Step u) :
    t.htab.Extends u.htab ∧ u.Sound := by
  cases step with
  | overflow h addr other paged =>
    obtain ⟨extends_, grown, -⟩ := sound.overflow other paged
    exact ⟨extends_, grown⟩
  | free addr here => exact sound.free here
  | expand h expanded => exact sound.expand expanded

theorem Table.Sound.run {t u : Table} (sound : t.Sound) (run : t.Reaches u) :
    t.htab.Extends u.htab ∧ u.Sound := by
  induction run with
  | refl => exact ⟨.refl _, sound⟩
  | tail _ step ih =>
    obtain ⟨extends_, before⟩ := ih
    obtain ⟨last, after⟩ := before.step step
    exact ⟨extends_.trans last, after⟩

end Runs

section Init

theorem le_log2From (num : Nat) : ∀ fuel i limit, i ≤ log2From num fuel i limit := by
  intro fuel
  induction fuel with
  | zero => exact fun i limit => Nat.le_refl i
  | succ fuel ih =>
    intro i limit
    rw [log2From]
    by_cases more : limit < num
    · rw [if_pos more]
      exact Nat.le_trans (Nat.le_succ i) (ih (i + 1) _)
    · rw [if_neg more]

theorem log2_pos {num : Nat} (two : 2 ≤ num) : 1 ≤ log2 num := by
  rw [log2, log2From, if_pos (by omega)]
  exact le_log2From num 31 1 _

theorem clearBelow_eq {nbits : Nat} (few : nbits < 32) (n : Nat) :
    clearBelow nbits n = decide (n = 0 ∨ nbits ≤ n) := by
  have word : (nbits - 1) / 32 + 1 = 1 := by lia
  have bits : nbits % 32 = nbits := Nat.mod_eq_of_lt few
  simp only [clearBelow, BITS_PER_MAP, word, bits, Nat.sub_self]
  by_cases low : n / 32 = 0
  · have : n % 32 = n := by lia
    rw [if_pos low, this, Bool.decide_or]
    rfl
  · have : 1 ≤ n / 32 := by lia
    rw [if_neg low, decide_eq_true this, Bool.or_true, decide_eq_true (by lia)]

theorem Table.Sound.fresh {l2 : Nat} (low : 1 ≤ l2) (small : l2 < 30) (word : 2 ≤ h.bshift)
    (point : h.ovflPoint = l2) (early : ∀ i < l2, h.spares i = 0) (last : h.spares l2 = l2 + 1)
    (buckets : h.maxBucket + 1 = 2 ^ l2) (nmaps : h.nmaps = 1)
    (mapp : h.mapp 0 = some (clearBelow (l2 + 1))) (bitmaps : h.bitmaps 0 = OADDR_OF l2 1)
    (hint : h.lastFreed = 2) : Table.Sound ⟨h, ∅⟩ := by
  have pages : h.pages = l2 + 1 := by rw [Htab.pages, point, last]
  have counted : h.Counted := by
    refine ⟨word, by rw [point, NCACHED]; lia, early 0 (by lia), ?_, ?_, by lia, by rw [buckets,
      point]⟩
    · intro i below
      rw [early i (by lia)]
      exact Nat.zero_le _
    · intro i below
      rw [SPLITMASK]
      rcases Nat.lt_or_eq_of_le (show i + 1 ≤ l2 by lia) with before | here
      · rw [early _ before]
        exact Nat.zero_le _
      · rw [here, last]
        lia
  obtain ⟨⟨words, bits⟩, positive⟩ := counted.mapBits_pos
  have first : ∀ g, g < 30 → g / h.mapBits = 0 ∧ g % h.mapBits = g :=
    fun g few => ⟨Nat.div_eq_of_lt (by lia), Nat.mod_eq_of_lt (by lia)⟩
  have marks : ∀ g, g / h.mapBits = 0 → h.isSet g = decide (g = 0 ∨ l2 + 1 ≤ g) := by
    intro g here
    have inside : g % h.mapBits = g := Nat.mod_eq_of_lt (Nat.lt_of_div_eq_zero positive here)
    rw [Htab.isSet, here, mapp, inside]
    exact clearBelow_eq (by lia) g
  refine ⟨counted, ?_, ?_, ?_, ?_, ?_, ?_⟩
  · rw [nmaps, pages, Nat.add_sub_cancel, (first l2 small).1]
  · intro i below
    have : i = 0 := by
      change i < h.nmaps at below
      lia
    rw [this, mapp]
    rfl
  · intro g outside below
    change h.pages ≤ g at outside
    change g / h.mapBits < h.nmaps at below
    rw [nmaps] at below
    rw [marks g (Nat.lt_one_iff.mp below), decide_eq_true (by lia)]
  · intro i below
    have : i = 0 := by
      change i < h.nmaps at below
      lia
    obtain ⟨s, here⟩ : ∃ s, l2 = s + 1 := ⟨l2 - 1, by lia⟩
    have split : h.splitOf (0 + 1) = s + 1 := by
      rw [h.splitOf_eq, point, here]
      apply levelOf_eq (by rw [← here, ← point]; exact counted.counts) (Nat.le_refl _)
      · rw [countBefore_succ, early s (by lia)]
        exact Nat.zero_lt_one
      · rw [← here, last]
        lia
    change h.bitmaps i = h.addrOf (i * h.mapBits) ∧ h.isSet (i * h.mapBits) = true
    rw [this, Nat.zero_mul, marks 0 (Nat.zero_div _), Htab.addrOf_eq split, early s (by lia),
      bitmaps, here]
    exact ⟨rfl, rfl⟩
  · intro a
    constructor
    · exact fun none_live => absurd none_live (Set.notMem_empty a)
    · rintro ⟨g, inside, page, set, -⟩
      change g < h.pages at inside
      change g % h.mapBits ≠ 0 at page
      rw [(first g (by lia)).2] at page
      change h.isSet g = true at set
      rw [marks g (first g (by lia)).1, decide_eq_true_iff] at set
      lia
  · rw [hint, nmaps, (first 2 (by lia)).1]
    exact Nat.zero_lt_one

theorem Table.Sound.init {bshift : Nat} {ffactor nelem : Int}
    (made : initHtab bshift ffactor nelem = some h) :
    Table.Sound ⟨h, ∅⟩ := by
  rw [initHtab] at made
  obtain ⟨l2, level⟩ : ∃ l2, log2 (max ((nelem - 1).tdiv ffactor + 1) 2).toNat = l2 := ⟨_, rfl⟩
  have low : 1 ≤ l2 := level ▸ log2_pos (Int.toNat_le_toNat (le_max_right _ (2 : Int)))
  simp only [level] at made
  by_cases many : 2 ^ l2 ≥ MAXBUCKETS
  · rw [if_pos many] at made
    cases made
  · rw [if_neg many] at made
    obtain ⟨fits, made⟩ := initBitmap_some made
    have small : l2 < 30 := by
      apply (Nat.pow_lt_pow_iff_right (by decide : 1 < 2)).mp
      rw [MAXBUCKETS] at many
      lia
    have word : 2 ≤ bshift := by
      apply (Nat.pow_le_pow_iff_right (by decide : 1 < 2)).mp
      simp only [BITS_PER_MAP, INT_TO_BYTE, Nat.shiftLeft_eq] at fits
      lia
    have wide : 32 ≤ 2 ^ (bshift + 3) :=
      Nat.pow_le_pow_right (by decide : 1 ≤ 2) (show 5 ≤ bshift + 3 by lia)
    obtain ⟨c, spares⟩ : ∃ c, Function.update (Function.update (fun _ => 0) l2 (l2 + 1)) (l2 + 1)
        (l2 + 1) = c :=
      ⟨_, rfl⟩
    have early : ∀ i < l2, c i = 0 := by
      intro i below
      rw [← spares, Function.update_of_ne (by lia), Function.update_of_ne (by lia)]
    have last :
      c l2 = l2 + 1 := by rw [← spares, Function.update_of_ne (by lia), Function.update_self]
    rw [spares] at made
    subst made
    exact @Table.Sound.fresh _ l2 low small word rfl early last
      (Nat.sub_add_cancel (Nat.two_pow_pos l2)) rfl
      rfl rfl rfl

end Init

section Pages

/-- Overflow pages that may not be handed out: those that were, and the maps. -/
def Table.inUse (t : Table) : Set Nat := t.live ∪ { a | ∃ i < t.htab.nmaps, a = t.htab.bitmaps i }

structure Table.PagesApart (t : Table) : Prop where
  fresh : ∀ h addr, ¬ t.htab.mapEndsSplit → overflowPage t.htab = some (h, addr) →
    addr ∉ t.live ∧ (∀ i < h.nmaps, addr ≠ h.bitmaps i) ∧ h.isSet (h.bitAddress addr) = true ∧
      (t.htab.isSet (h.bitAddress addr) = false ∨ t.htab.pages ≤ h.bitAddress addr)
  cleared : ∀ addr ∈ t.live, ∀ g, (freeOvflpage t.htab addr).isSet g =
    if g = t.htab.bitAddress addr then false else t.htab.isSet g
  marked : ∀ addr ∈ t.live, t.htab.isSet (t.htab.bitAddress addr) = true
  beyond : ∀ g, t.htab.pages ≤ g → g / t.htab.mapBits < t.htab.nmaps → t.htab.isSet g = true
  overflow : Set.InjOn t.htab.oaddrToPage t.inUse
  buckets : Set.InjOn t.htab.bucketToPage { b | b ≤ t.htab.maxBucket }
  apart : ∀ addr ∈ t.inUse, ∀ b ≤ t.htab.maxBucket, t.htab.oaddrToPage addr ≠ t.htab.bucketToPage b
  stays : ∀ u, t.Reaches u → (∀ addr ∈ t.inUse, u.htab.bitAddress addr = t.htab.bitAddress addr ∧
      u.htab.oaddrToPage addr = t.htab.oaddrToPage addr) ∧
    ∀ b ≤ t.htab.maxBucket, u.htab.bucketToPage b = t.htab.bucketToPage b

theorem Table.Sound.bit_of_inUse {t : Table} (sound : t.Sound) (here : addr ∈ t.inUse) :
    ∃ g < t.htab.pages, addr = t.htab.addrOf g := by
  rcases here with live | ⟨i, below, rfl⟩
  · obtain ⟨g, inside, -, -, rfl⟩ := (sound.live _).mp live
    exact ⟨g, inside, rfl⟩
  · exact ⟨_, sound.map_lt below, (sound.own i below).1⟩

theorem Table.Sound.pagesApart {t : Table} (sound : t.Sound) : t.PagesApart := by
  have counted := sound.counted
  constructor
  · intro h addr other paged
    obtain ⟨extends_, after, g, inside, page, rfl, free⟩ := sound.overflow other paged
    have injective {f : Nat} (there : f < h.pages) (same : h.addrOf g = h.addrOf f) : g = f :=
      after.counted.addrOf_inj inside there same
    rw [after.counted.bitAddress_addrOf inside]
    refine ⟨?_, ?_, ?_, free.symm⟩
    · intro old
      obtain ⟨f, early, -, set, same⟩ := (sound.live _).mp old
      have grows := extends_.pages_le after.counted
      rw [← extends_.addrOf after.counted counted early] at same
      obtain rfl := injective (by lia) same
      rcases free with beyond | clear
      · lia
      · rw [clear] at set
        cases set
    · intro i below same
      rw [(after.own i below).1] at same
      have bit := injective (after.map_lt below) same
      refine page ?_
      rw [bit]
      exact Nat.mul_mod_left ..
    · obtain ⟨f, there, -, set, same⟩ := (after.live _).mp (Set.mem_insert ..)
      rwa [injective there same]
  · intro addr here g
    obtain ⟨f, inside, page, -, rfl⟩ := (sound.live _).mp here
    have bits := t.htab.isSet_setBit (g := f) (sound.present _ (sound.page_lt inside)) false g
    have bit := counted.bitAddress_addrOf inside
    rw [bit, ← bits]
    simp only [freeOvflpage, bit]
    rfl
  · intro addr here
    obtain ⟨g, inside, -, set, rfl⟩ := (sound.live _).mp here
    rwa [counted.bitAddress_addrOf inside]
  · exact sound.beyond
  · intro a here b there same
    obtain ⟨f, inside, rfl⟩ := sound.bit_of_inUse here
    obtain ⟨g, inside', rfl⟩ := sound.bit_of_inUse there
    rcases Nat.lt_trichotomy f g with less | rfl | more
    · have := counted.pages_apart less inside'
      lia
    · rfl
    · have := counted.pages_apart more inside
      lia
  · intro a here b there same
    rcases Nat.lt_trichotomy a b with less | rfl | more
    · have := counted.buckets_apart less there
      lia
    · rfl
    · have := counted.buckets_apart more here
      lia
  · intro addr here b there same
    obtain ⟨g, inside, rfl⟩ := sound.bit_of_inUse here
    exact counted.bucket_page_apart there inside same.symm
  · intro u run
    obtain ⟨extends_, -⟩ := sound.run run
    refine ⟨fun addr here => ?_, fun b there => extends_.bucketToPage counted there⟩
    obtain ⟨g, inside, rfl⟩ := sound.bit_of_inUse here
    exact ⟨extends_.bitAddress counted inside, extends_.oaddrToPage counted inside⟩

/-- After any calls that do not fail and do not end a split point with a map, `overflow_page` hands
out a page of its own, and the pages in use keep their places. -/
theorem overflow_pages_apart {bshift : Nat} {ffactor nelem : Int}
    (made : initHtab bshift ffactor nelem = some h) {t : Table} (run : Table.Reaches ⟨h, ∅⟩ t) :
      t.PagesApart :=
  (((Table.Sound.init made).run run).2).pagesApart

theorem firstOverflow : ∃ h u, initHtab 12 65536 1 = some h ∧
    overflowPage h = some (u, OADDR_OF 1 2) ∧
    Table.Reaches ⟨h, ∅⟩ ⟨u, {OADDR_OF 1 2}⟩ ∧ ∃ v, overflowPage u = some (v, OADDR_OF 1 3) ∧
      v.bitAddress (OADDR_OF 1 3) = 2 ∧ u.isSet 2 = true := by
  refine ⟨_, _, rfl, rfl, ?_, _, rfl, rfl, rfl⟩
  rw [← insert_empty_eq (OADDR_OF 1 2)]
  refine .single (.overflow _ _ ?_ rfl)
  exact fun ends => absurd ends.2.2 (by decide)

/-- Two pages of the default table, of which the first is freed and handed out again after a bucket
was added. -/
theorem fewOverflows : ∃ h t, initHtab 12 65536 1 = some h ∧ Table.Reaches ⟨h, ∅⟩ t ∧
    OADDR_OF 1 2 ∈ t.live ∧
    OADDR_OF 1 3 ∈ t.live ∧ t.htab.maxBucket = 2 := by
  have room {t : Table} (below : t.htab.pages + 1 - t.htab.before t.htab.ovflPoint ≠ SPLITMASK) :
      ¬ t.htab.mapEndsSplit :=
    fun ends => below ends.2.2
  refine ⟨_, _, rfl, .head (.overflow _ (OADDR_OF 1 2) (room (by decide)) rfl)
    (.head (.overflow _ (OADDR_OF 1 3) (room (by decide)) rfl)
      (.head (.free (OADDR_OF 1 2) ?_) (.head (.expand _ rfl)
        (.single (.overflow _ (OADDR_OF 1 2) (room (by decide)) rfl))))), ?_, ?_, rfl⟩
  · exact Set.mem_insert_of_mem _ (Set.mem_insert ..)
  · exact Set.mem_insert ..
  · exact Set.mem_insert_of_mem _ ⟨Set.mem_insert .., by decide⟩

theorem overflow_pages_apart_again : ∃ h t, initHtab 12 65536 1 = some h ∧ Table.Reaches ⟨h, ∅⟩ t ∧
    OADDR_OF 1 2 ∈ t.live ∧
    OADDR_OF 1 3 ∈ t.live ∧ t.htab.maxBucket = 2 ∧ t.PagesApart := by
  obtain ⟨h, t, made, run, first, second, buckets⟩ := fewOverflows
  exact ⟨h, t, made, run, first, second, buckets, overflow_pages_apart made run⟩

/-- The second page of the default table is the first after those counted: its bit was set all
along. -/
theorem overflow_page_bit_was_set : ∃ h u v, initHtab 12 65536 1 = some h ∧
    Table.Reaches ⟨h, ∅⟩ ⟨u, {OADDR_OF 1 2}⟩ ∧
    overflowPage u = some (v, OADDR_OF 1 3) ∧ u.isSet (v.bitAddress (OADDR_OF 1 3)) = true := by
  obtain ⟨h, u, made, -, run, v, paged, bit, set⟩ := firstOverflow
  exact ⟨h, u, v, made, run, paged, by rw [bit]; exact set⟩

end Pages

end FreeBsd.Db
