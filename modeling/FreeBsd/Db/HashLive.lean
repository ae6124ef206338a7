import FreeBsd.Db.HashOvflRun

/-! Addresses in use are not handed out again, also after a map took the last offset of its split
point: the page that then gets offset zero shares the bit of the map when it is freed. -/
namespace FreeBsd.Db

open FreeBsd.Lib

variable {h h' : Htab} {g s o addr : Nat} {t : Table}

section Distinct

def Htab.Taken (h : Htab) (a : Nat) : Prop :=
  ∃ g < h.pages, g % h.mapBits ≠ 0 ∧ h.isSet g = true ∧ a = h.addrOf g

/-- Offset zero of a split point, where the page before is a map with the last offset of its own. -/
def Htab.Slipped (h : Htab) (a : Nat) : Prop :=
  ∃ s < h.ovflPoint, a = OADDR_OF (s + 1) 0 ∧ 1 ≤ h.spares s ∧ (h.spares s - 1) % h.mapBits = 0 ∧
    OPAGENUM (h.addrOf (h.spares s - 1)) = SPLITMASK

/-- The bits that tell live pages from free ones; the bit of a map may be clear if its page is not
handed out. -/
structure Table.Distinct (t : Table) : Prop where
  counted : t.htab.Counted
  nmaps : t.htab.nmaps = (t.htab.pages - 1) / t.htab.mapBits + 1
  present : ∀ i < t.htab.nmaps, (t.htab.mapp i).isSome
  beyond : ∀ g, t.htab.pages ≤ g → g / t.htab.mapBits < t.htab.nmaps → t.htab.isSet g = true
  own : ∀ i < t.htab.nmaps, t.htab.isSet (i * t.htab.mapBits) = true ∨
    OPAGENUM (t.htab.addrOf (i * t.htab.mapBits)) = SPLITMASK
  live : ∀ a ∈ t.live, t.htab.Taken a ∨ t.htab.Slipped a

theorem Table.Sound.distinct (sound : t.Sound) : t.Distinct :=
  ⟨sound.counted, sound.nmaps, sound.present, sound.beyond, fun i here => .inl (sound.own i here).2,
    fun a here => .inl ((sound.live a).mp here)⟩

theorem Table.Distinct.mono {live : Set Nat} (distinct : t.Distinct) (fewer : live ⊆ t.live) :
    Table.Distinct ⟨t.htab, live⟩ :=
  ⟨distinct.counted, distinct.nmaps, distinct.present, distinct.beyond, distinct.own,
    fun a here => distinct.live a (fewer here)⟩

theorem Table.Distinct.page_lt (distinct : t.Distinct) (inside : g < t.htab.pages) :
    g / t.htab.mapBits < t.htab.nmaps := by
  rw [distinct.nmaps]
  have := Nat.div_le_div_right (c := t.htab.mapBits) (show g ≤ t.htab.pages - 1 by lia)
  lia

theorem Table.Distinct.map_lt (distinct : t.Distinct) {i : Nat} (inside : i < t.htab.nmaps) :
    i * t.htab.mapBits < t.htab.pages := by
  have some_page := distinct.counted.some_page
  have : i ≤ (t.htab.pages - 1) / t.htab.mapBits := by
    have := distinct.nmaps
    lia
  have := (Nat.le_div_iff_mul_le distinct.counted.mapBits_pos.2).mp this
  lia

theorem Htab.Counted.spares_le (counted : h.Counted) (inside : s < h.ovflPoint) :
    h.spares s ≤ h.pages :=
  counted.counts.le (Nat.le_of_lt inside) (Nat.le_refl _)

theorem opagenum_addrOf (counted : h.Counted) (inside : g < h.pages) :
    OPAGENUM (h.addrOf g) = g + 1 - h.before (h.splitOf (g + 1)) ∧ 1 ≤ OPAGENUM (h.addrOf g) := by
  obtain ⟨s, -, split, low, -, fits⟩ := counted.place inside
  rw [Htab.addrOf_eq split, opagenum_oaddr fits, split, Htab.before_succ]
  omega

theorem opagenum_zero (s : Nat) : OPAGENUM (OADDR_OF s 0) = 0 := opagenum_oaddr (by decide)

theorem Table.Distinct.mark (distinct : t.Distinct) (inside : g < t.htab.pages) {hint : Nat}
    (value : Bool) {live : Set Nat}
    (own : value = true ∨ g % t.htab.mapBits ≠ 0 ∨ OPAGENUM (t.htab.addrOf g) = SPLITMASK)
    (taken : ∀ a ∈ live, (a = t.htab.addrOf g ∧ g % t.htab.mapBits ≠ 0 ∧ value = true) ∨
    t.htab.Slipped a ∨
      ∃ f < t.htab.pages, f % t.htab.mapBits ≠ 0 ∧ t.htab.isSet f = true ∧ a = t.htab.addrOf f ∧
        (f ≠ g ∨ value = true)) :
    Table.Distinct
      ⟨{ t.htab.setBit (g / t.htab.mapBits) (g % t.htab.mapBits) value with lastFreed := hint },
      live⟩ := by
  have bits := t.htab.isSet_setBit (g := g) (distinct.present _ (distinct.page_lt inside)) value
  have counted := distinct.counted
  refine ⟨⟨counted.word, counted.point, counted.first, counted.counts, counted.room,
    counted.some_page, counted.buckets⟩, distinct.nmaps, ?_, ?_, ?_, ?_⟩
  · intro i here
    have := distinct.present i here
    by_cases same : i = g / t.htab.mapBits
    · subst same
      simpa [Htab.setBit] using this
    · simpa [Htab.setBit, Function.update_of_ne same] using this
  · intro f outside here
    refine (bits f).trans ?_
    change t.htab.pages ≤ f at outside
    rw [if_neg (by omega)]
    exact distinct.beyond f outside here
  · intro i here
    rcases distinct.own i here with set | last
    · by_cases same : i * t.htab.mapBits = g
      · rcases own with rfl | other | last
        · exact .inl ((bits _).trans (if_pos same))
        · rw [← same, Nat.mul_mod_left] at other
          exact absurd rfl other
        · rw [← same] at last
          exact .inr last
      · exact .inl ((bits _).trans ((if_neg same).trans set))
    · exact .inr last
  · intro a here
    rcases taken a here with ⟨rfl, page, rfl⟩ | slipped | ⟨f, early, page, set, rfl, other⟩
    · exact .inl ⟨g, inside, page, (bits g).trans (if_pos rfl), rfl⟩
    · exact .inr slipped
    · refine .inl ⟨f, early, page, (bits f).trans ?_, rfl⟩
      by_cases same : f = g
      · rw [if_pos same]
        exact other.resolve_left (not_not_intro same)
      · rw [if_neg same]
        exact set

/-- More pages: the bits of the old ones are as they were, and those beyond the new count are set.
-/
theorem Table.Distinct.extend (distinct : t.Distinct) (extends_ : t.htab.Extends h)
    (counted : h.Counted) (nmaps : h.nmaps = (h.pages - 1) / h.mapBits + 1)
    (present : ∀ i < h.nmaps, (h.mapp i).isSome)
    (kept : ∀ g < t.htab.pages, h.isSet g = t.htab.isSet g)
    (set : ∀ g, t.htab.pages ≤ g → g / h.mapBits < h.nmaps → h.isSet g = true) {live : Set Nat}
    (handed : ∀ a ∈ live, a ∈ t.live ∨ h.Taken a ∨ h.Slipped a) : Table.Distinct ⟨h, live⟩ := by
  have bits := extends_.mapBits
  have grows := extends_.pages_le counted
  refine ⟨counted, nmaps, present, fun g outside => set g (by change h.pages ≤ g at outside; lia),
    ?_, ?_⟩
  · intro i here
    change h.isSet (i * h.mapBits) = true ∨ OPAGENUM (h.addrOf (i * h.mapBits)) = SPLITMASK
    by_cases early : i < t.htab.nmaps
    · have inside := distinct.map_lt early
      rw [bits, kept _ inside, extends_.addrOf counted distinct.counted inside]
      exact distinct.own i early
    · refine .inl (set _ ?_ ?_)
      · by_contra less
        have := distinct.page_lt (g := i * h.mapBits) (by lia)
        rw [bits, Nat.mul_div_cancel _ distinct.counted.mapBits_pos.2] at this
        lia
      · rwa [Nat.mul_div_cancel _ counted.mapBits_pos.2]
  · intro a here
    rcases handed a here with old | new
    · rcases distinct.live a old with ⟨g, inside, page, marked, rfl⟩ | ⟨s, below, rfl, positive,
        map, last⟩
      · refine .inl ⟨g, Nat.lt_of_lt_of_le inside grows, ?_, ?_, ?_⟩
        · change g % h.mapBits ≠ 0
          rwa [bits]
        · exact (kept g inside).trans marked
        · exact (extends_.addrOf counted distinct.counted inside).symm
      · have inside := distinct.counted.spares_le below
        refine .inr ⟨s, Nat.lt_of_lt_of_le below extends_.point, rfl, ?_, ?_, ?_⟩
        · change 1 ≤ h.spares s
          rwa [extends_.kept s below]
        · change (h.spares s - 1) % h.mapBits = 0
          rwa [extends_.kept s below, bits]
        · change OPAGENUM (h.addrOf (h.spares s - 1)) = SPLITMASK
          rwa [extends_.kept s below, extends_.addrOf counted distinct.counted (by lia)]
    · exact new

end Distinct

section Calls

theorem Table.Distinct.expand (distinct : t.Distinct) (expanded : expandTable t.htab = some h) :
    Table.Distinct ⟨h, t.live⟩ := by
  obtain ⟨-, -, -, -, same, -, -⟩ := expandTable_some expanded
  obtain ⟨extends_, counted, pages⟩ := distinct.counted.expand expanded
  have bits := extends_.mapBits
  apply distinct.extend extends_ counted
  · rw [same.2.1, pages, bits]
    exact distinct.nmaps
  · rw [same.1, same.2.1]
    exact distinct.present
  · exact fun g _ => same.isSet extends_ g
  · rw [bits, same.2.1]
    intro g outside here
    rw [same.isSet extends_]
    exact distinct.beyond g outside here
  · exact fun a here => .inl here

theorem Table.Distinct.free (distinct : t.Distinct) (here : addr ∈ t.live) :
    Table.Distinct ⟨freeOvflpage t.htab addr, t.live \ {addr}⟩ := by
  have counted := distinct.counted
  rcases distinct.live addr here with ⟨g, inside, page, -, rfl⟩ | ⟨s, below, rfl, positive, map,
    last⟩
  · have bit := counted.bitAddress_addrOf inside
    simp only [freeOvflpage, bit]
    refine distinct.mark inside false (.inr (.inl page)) ?_
    rintro a ⟨old, other⟩
    rcases distinct.live a old with ⟨f, early, nonzero, set, rfl⟩ | slipped
    · refine .inr (.inr ⟨f, early, nonzero, set, rfl, .inl ?_⟩)
      rintro rfl
      exact other rfl
    · exact .inr (.inl slipped)
  · have inside := counted.spares_le below
    have bit : t.htab.bitAddress (OADDR_OF (s + 1) 0) = t.htab.spares s - 1 := by
      rw [Htab.bitAddress, splitnum_oaddr (by decide), opagenum_zero, Htab.before_succ,
        Nat.add_zero]
    simp only [freeOvflpage, bit]
    refine distinct.mark (by omega) false (.inr (.inr last)) ?_
    rintro a ⟨old, -⟩
    rcases distinct.live a old with ⟨f, early, nonzero, set, rfl⟩ | slipped
    · refine .inr (.inr ⟨f, early, nonzero, set, rfl, .inl ?_⟩)
      rintro rfl
      exact nonzero map
    · exact .inr (.inl slipped)

/-- An address in use has no clear bit, and none beyond the pages counted. -/
theorem Table.Distinct.unused (distinct : t.Distinct) (inside : g < t.htab.pages)
    (clear : t.htab.isSet g = false) :
    t.htab.addrOf g ∉ t.live := by
  intro here
  rcases distinct.live _ here with ⟨f, early, -, set, same⟩ | ⟨s, -, same, -⟩
  · rw [distinct.counted.addrOf_inj inside early same, set] at clear
    cases clear
  · have := (opagenum_addrOf distinct.counted inside).2
    rw [same, opagenum_zero] at this
    omega

theorem Table.Distinct.added (distinct : t.Distinct) (extends_ : t.htab.Extends h)
    (counted : h.Counted) (outside : t.htab.pages ≤ g) (inside : g < h.pages) :
      h.addrOf g ∉ t.live := by
  intro here
  rcases distinct.live _ here with ⟨f, early, -, -, same⟩ | ⟨s, -, same, -⟩
  · have grows := extends_.pages_le counted
    rw [← extends_.addrOf counted distinct.counted early] at same
    have := counted.addrOf_inj inside (by lia) same
    lia
  · have := (opagenum_addrOf counted inside).2
    rw [same, opagenum_zero] at this
    lia

theorem takePage_room {i bit : Nat} (taken : takePage h i bit = some (h', addr)) :
    i * h.mapBits + bit + 1 - h.before (h.splitOf (i * h.mapBits + bit + 1)) < SPLITMASK := by
  have number : 1 + bit + i * h.mapBits = i * h.mapBits + bit + 1 := by lia
  simp only [takePage, number] at taken
  by_contra full
  rw [if_pos (by lia)] at taken
  cases taken

theorem Table.Distinct.take {i bit : Nat} (distinct : t.Distinct)
    (inside : i ≤ (t.htab.pages - 1) / t.htab.mapBits) (low : bit < t.htab.mapBits)
    (clear : t.htab.isSet (i * t.htab.mapBits + bit) = false)
    (taken : takePage t.htab i bit = some (h, addr)) :
    addr ∉ t.live ∧ Table.Distinct ⟨h, insert addr t.live⟩ := by
  have positive := distinct.counted.mapBits_pos.2
  have room := takePage_room taken
  obtain ⟨page, rest⟩ : (i * t.htab.mapBits + bit) / t.htab.mapBits = i ∧
      (i * t.htab.mapBits + bit) % t.htab.mapBits = bit :=
    (Nat.div_mod_unique positive).mpr ⟨by rw [Nat.mul_comm, Nat.add_comm], low⟩
  have here : i < t.htab.nmaps := by
    have := distinct.nmaps
    lia
  have below : i * t.htab.mapBits + bit < t.htab.pages := by
    by_contra outside
    rw [distinct.beyond _ (by lia) (by lia)] at clear
    cases clear
  obtain ⟨offset, -⟩ := opagenum_addrOf distinct.counted below
  have nonzero : bit ≠ 0 := by
    rintro rfl
    rw [Nat.add_zero] at clear offset room
    rcases distinct.own i here with set | last
    · rw [set] at clear
      cases clear
    · lia
  obtain ⟨hint, -, rfl, rfl⟩ := takePage_some taken
  refine ⟨distinct.unused below clear, ?_⟩
  have marked := @Table.Distinct.mark _ _ distinct below hint true
    (insert (t.htab.addrOf (i * t.htab.mapBits + bit)) t.live) (.inl rfl) (by
      rintro a (rfl | old)
      · exact .inl ⟨rfl, by rwa [rest], rfl⟩
      · rcases distinct.live a old with ⟨f, early, page, set, rfl⟩ | slipped
        · exact .inr (.inr ⟨f, early, page, set, rfl, .inr rfl⟩)
        · exact .inr (.inl slipped))
  rw [page, rest] at marked
  exact marked

theorem Table.Distinct.addPage (distinct : t.Distinct)
    (room : (t.htab.pages - 1) % t.htab.mapBits ≠ t.htab.mapBits - 1)
    (added : t.htab.addPage = some (h, s, o)) :
    OADDR_OF s o ∉ t.live ∧
      Table.Distinct
        ⟨h.setBit ((t.htab.pages - 1) / t.htab.mapBits) ((t.htab.pages - 1) % t.htab.mapBits + 1)
        true, insert (OADDR_OF s o) t.live⟩ := by
  obtain ⟨extends_, counted, same, -, pages, rfl, offset, one, -, -⟩ :=
    distinct.counted.addPage added
  have bits := extends_.mapBits
  obtain ⟨page, bit⟩ := next_bit distinct.counted.some_page distinct.counted.mapBits_pos.2 room
  have address : OADDR_OF h.ovflPoint o = h.addrOf t.htab.pages := by
    have last := counted.addrOf_last (by lia)
    rw [← offset, pages] at last
    exact last.symm
  have grown : Table.Distinct ⟨h, t.live⟩ := by
    apply distinct.extend extends_ counted
    · rw [same.2.1, distinct.nmaps, bits, pages, Nat.add_sub_cancel, page]
    · rw [same.1, same.2.1]
      exact distinct.present
    · exact fun g _ => same.isSet extends_ g
    · rw [bits, same.2.1]
      intro g outside here
      rw [same.isSet extends_]
      exact distinct.beyond g outside here
    · exact fun a here => .inl here
  refine ⟨?_, ?_⟩
  · rw [address]
    exact distinct.added extends_ counted (Nat.le_refl _) (by lia)
  · have marked := @Table.Distinct.mark t.htab.pages _ grown (by change _ < h.pages; lia)
      h.lastFreed true
      (insert (OADDR_OF h.ovflPoint o) t.live) (.inl rfl) (by
        rintro a (rfl | old)
        · exact .inl ⟨address, by change _ % h.mapBits ≠ 0; rw [bits]; lia, rfl⟩
        · rcases grown.live a old with ⟨f, early, page, set, rfl⟩ | slipped
          · exact .inr (.inr ⟨f, early, page, set, rfl, .inr rfl⟩)
          · exact .inr (.inl slipped))
    rw [← page, ← bit, ← bits]
    exact marked

/-- Without an offset left, the page after the new map gets offset zero of the next split point. -/
theorem Htab.Counted.addMap_last {freePage a : Nat} (counted : h.Counted) (here : s = h.ovflPoint)
    (offset : o = h.pages - h.before s) (full : o + 1 > SPLITMASK)
    (added : h.addMap s o freePage = some (h', a)) :
    h.Extends h' ∧ h'.Counted ∧ h'.pages = h.pages + 1 ∧
      h'.mapp = Function.update h.mapp freePage (some (clearBelow 1)) ∧ h'.nmaps = h.nmaps + 1 ∧
      h'.ovflPoint = s + 1 ∧ h'.spares s = h.pages ∧ a = OADDR_OF (s + 1) 0 := by
  subst here
  rw [Htab.addMap] at added
  by_cases small : freePage < NCACHED
  · rw [if_neg (by lia)] at added
    obtain ⟨h₁, made, rest⟩ := Option.bind_eq_some_iff.mp added
    obtain ⟨-, here⟩ := initBitmap_some made
    rw [if_pos full] at rest
    by_cases top : h.ovflPoint + 1 < NCACHED
    · rw [if_neg (by lia)] at rest
      subst here
      obtain ⟨rfl, rfl⟩ := rest
      obtain ⟨spares, grown⟩ : ∃ c, c = Function.update (Function.update
          (Function.update h.spares h.ovflPoint (h.spares h.ovflPoint + 1)) (h.ovflPoint + 1)
            (h.spares h.ovflPoint + 1))
          h.ovflPoint (h.spares h.ovflPoint) := ⟨_, rfl⟩
      have last : spares (h.ovflPoint + 1) = h.pages + 1 := by
        rw [grown, Function.update_of_ne (by lia), Function.update_self]
        rfl
      have kept : ∀ i ≤ h.ovflPoint, spares i = h.spares i := by
        intro i below
        by_cases same : i = h.ovflPoint
        · rw [grown, same, Function.update_self]
        · rw [grown, Function.update_of_ne same, Function.update_of_ne (by lia),
            Function.update_of_ne same]
      have final : ({ h with
          nmaps := h.nmaps + 1
          bitmaps := Function.update h.bitmaps freePage (OADDR_OF h.ovflPoint o)
          mapp := Function.update h.mapp freePage (some (clearBelow 1))
          spares := Function.update h.spares h.ovflPoint (h.spares h.ovflPoint + 1) } :
            Htab).nextSplit h.ovflPoint =
          { h with
            nmaps := h.nmaps + 1
            bitmaps := Function.update h.bitmaps freePage (OADDR_OF h.ovflPoint o)
            mapp := Function.update h.mapp freePage (some (clearBelow 1))
            ovflPoint := h.ovflPoint + 1
            spares } := by
        simp only [Htab.nextSplit, grown, Function.update_self, Nat.add_sub_cancel]
      rw [final]
      have buckets := counted.buckets
      obtain ⟨extends_, counted'⟩ := @Htab.Counted.next _ { h with
            nmaps := h.nmaps + 1
            bitmaps := Function.update h.bitmaps freePage (OADDR_OF h.ovflPoint o)
            mapp := Function.update h.mapp freePage (some (clearBelow 1))
            ovflPoint := h.ovflPoint + 1
            spares } counted rfl rfl rfl top kept (by change _ ≤ spares (h.ovflPoint + 1); lia)
        (by change spares (h.ovflPoint + 1) ≤ _; rw [last, SPLITMASK]; lia) (Nat.le_refl _)
        (Nat.le_trans buckets (Nat.pow_le_pow_right (by decide) (by lia)))
      exact ⟨extends_, counted', last, rfl, rfl, rfl, kept _ (Nat.le_refl _), rfl⟩
    · rw [if_pos (by lia)] at rest
      cases rest
  · rw [if_pos (by lia)] at added
    cases added

theorem Table.Distinct.newMap (distinct : t.Distinct) (extends_ : t.htab.Extends h)
    (counted : h.Counted) (full : (t.htab.pages - 1) % t.htab.mapBits = t.htab.mapBits - 1)
    (pages : h.pages = t.htab.pages + 2)
    (mapp : h.mapp = Function.update t.htab.mapp t.htab.nmaps (some (clearBelow 1)))
    (nmaps : h.nmaps = t.htab.nmaps + 1) :
    (t.htab.pages + 1) % t.htab.mapBits = 1 ∧ h.isSet (t.htab.pages + 1) = true ∧
      t.htab.pages % t.htab.mapBits = 0 ∧
      ∀ addr, h.Taken addr ∨ h.Slipped addr → Table.Distinct ⟨h, insert addr t.live⟩ := by
  have bits := extends_.mapBits
  have positive := distinct.counted.mapBits_pos.2
  obtain ⟨words, size⟩ := distinct.counted.mapBits_pos.1
  obtain ⟨page, bit⟩ := next_map distinct.counted.some_page positive full
  have count := distinct.nmaps
  have start : t.htab.nmaps * t.htab.mapBits = t.htab.pages := by
    have whole := Nat.div_add_mod t.htab.pages t.htab.mapBits
    rw [bit, page, ← count, Nat.mul_comm] at whole
    exact whole
  obtain ⟨page', bit'⟩ : (t.htab.pages + 1) / t.htab.mapBits = t.htab.nmaps ∧
      (t.htab.pages + 1) % t.htab.mapBits = 1 := by
    refine (Nat.div_mod_unique positive).mpr ⟨?_, by lia⟩
    rw [Nat.mul_comm, start, Nat.add_comm]
  have old : ∀ g, g / t.htab.mapBits < t.htab.nmaps → h.isSet g = t.htab.isSet g := by
    intro g below
    rw [Htab.isSet, Htab.isSet, bits, mapp, Function.update_of_ne (by lia)]
  have new : ∀ g, g / t.htab.mapBits = t.htab.nmaps → h.isSet g = true := by
    intro g here
    rw [Htab.isSet, bits, mapp, here, Function.update_self]
    exact clearBelow_one _
  refine ⟨bit', new _ page', bit, fun addr handed => ?_⟩
  apply distinct.extend extends_ counted
  · rw [nmaps, pages, bits, show t.htab.pages + 2 - 1 = t.htab.pages + 1 by lia, page']
  · intro i below
    by_cases early : i < t.htab.nmaps
    · rw [mapp, Function.update_of_ne (by lia)]
      exact distinct.present i early
    · rw [mapp, show i = t.htab.nmaps by lia, Function.update_self]
      rfl
  · exact fun g inside => old g (distinct.page_lt inside)
  · rw [bits, nmaps]
    intro g outside below
    by_cases early : g / t.htab.mapBits < t.htab.nmaps
    · rw [old g early]
      exact distinct.beyond g outside early
    · exact new g (by lia)
  · rintro a (rfl | old)
    · exact .inr handed
    · exact .inl old

theorem Table.Distinct.addMap (distinct : t.Distinct)
    (full : (t.htab.pages - 1) % t.htab.mapBits = t.htab.mapBits - 1)
    (paged : t.htab.addPage = some (h, s, o))
    (added : h.addMap s o ((t.htab.pages - 1) / t.htab.mapBits + 1) = some (h', addr)) :
    addr ∉ t.live ∧ Table.Distinct ⟨h', insert addr t.live⟩ := by
  obtain ⟨extends₁, counted₁, same, -, pages₁, here, offset, one, fits, -⟩ :=
    distinct.counted.addPage paged
  rw [← distinct.nmaps] at added
  by_cases left : o + 1 ≤ SPLITMASK
  · obtain ⟨extends₂, counted, pages₂, -, mapp, -, nmaps, above, last⟩ :=
      counted₁.addMap here offset left added
    rw [same.1] at mapp
    rw [same.2.1] at nmaps
    have extends_ := extends₁.trans extends₂
    obtain ⟨bit, set, -, grown⟩ := distinct.newMap extends_ counted full (by lia) mapp nmaps
    have address : addr = h'.addrOf (t.htab.pages + 1) := by
      rw [last, ← counted.addrOf_last above, pages₂, pages₁]
      rfl
    refine ⟨?_, grown addr (.inl ⟨t.htab.pages + 1, by lia, ?_, set, address⟩)⟩
    · rw [address]
      exact distinct.added extends_ counted (by lia) (by lia)
    · rw [extends_.mapBits, bit]
      exact Nat.one_ne_zero
  · obtain ⟨extends₂, counted, pages₂, mapp, nmaps, point, spares, rfl⟩ :=
      counted₁.addMap_last here offset (by lia) added
    rw [same.1] at mapp
    rw [same.2.1] at nmaps
    have extends_ := extends₁.trans extends₂
    obtain ⟨-, -, map, grown⟩ := distinct.newMap extends_ counted full (by lia) mapp nmaps
    refine ⟨?_, grown _ (.inr ⟨s, by lia, rfl, by lia, ?_, ?_⟩)⟩
    · intro live
      rcases distinct.live _ live with ⟨f, early, -, -, address⟩ | ⟨s', below, address, -⟩
      · have := (opagenum_addrOf distinct.counted early).2
        rw [← address, opagenum_zero] at this
        lia
      · have equal : s + 1 = s' + 1 := by
          rw [← splitnum_oaddr (s := s + 1) (o := 0) (by decide), address,
            splitnum_oaddr (by decide)]
        have := extends₁.point
        lia
    · rw [spares, extends_.mapBits, pages₁, Nat.add_sub_cancel, map]
    · rw [spares, extends₂.addrOf counted counted₁ (by lia),
        counted₁.addrOf_last (by rw [← here]; lia), ← here, ← offset, opagenum_oaddr fits]
      lia

theorem Table.Distinct.overflow (distinct : t.Distinct)
    (paged : overflowPage t.htab = some (h, addr)) :
    addr ∉ t.live ∧ Table.Distinct ⟨h, insert addr t.live⟩ := by
  have positive := distinct.counted.mapBits_pos.2
  have known : t.htab.spares t.htab.ovflPoint = t.htab.pages := rfl
  simp only [overflowPage, known] at paged
  cases scan :
    scanMaps t.htab (t.htab.lastFreed / t.htab.mapBits) ((t.htab.pages - 1) / t.htab.mapBits)
      ((t.htab.pages - 1) % t.htab.mapBits) with
  | none =>
    rw [scan] at paged
    obtain ⟨⟨h₁, s, o⟩, added, rest⟩ := Option.bind_eq_some_iff.mp paged
    have bits := (distinct.counted.addPage added).1.mapBits
    simp only [bits] at rest
    by_cases full : (t.htab.pages - 1) % t.htab.mapBits = t.htab.mapBits - 1
    · rw [if_pos full] at rest
      exact distinct.addMap full added rest
    · rw [if_neg full] at rest
      obtain ⟨rfl, rfl⟩ := rest
      exact distinct.addPage full added
  | some hit =>
    obtain ⟨i, bit⟩ := hit
    obtain ⟨inside, -, low, clear⟩ := distinct.counted.scanMaps scan (Nat.mod_lt _ positive)
    simp only [scan] at paged
    exact distinct.take inside low clear paged

end Calls

end FreeBsd.Db
