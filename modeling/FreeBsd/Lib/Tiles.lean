import Mathlib.Tactic.Ring
import Mathlib.Tactic.Common
import Mathlib.Data.List.Basic

/-! Lists of segments that lie end to end, over any type with an offset and a length. -/
namespace FreeBsd.Lib

variable {α : Type} (off len : α → Int)

def Tiles : Int → List α → Prop
  | _, [] => True
  | next, f :: rest => off f = next ∧ 0 < len f ∧ Tiles (next + len f) rest

/-- The scan for a hole: the end of the last segment, if each starts where the one
before it ends. -/
def contiguous : Int → List α → Option Int
  | next, [] => some next
  | next, f :: rest => if off f ≠ next then none else contiguous (next + len f) rest

variable {off len}

theorem Tiles.start_le {next : Int} {F : List α} (tiles : Tiles off len next F) :
    ∀ f ∈ F, next ≤ off f := by
  induction F generalizing next with
  | nil => intro f member; cases member
  | cons g rest ih =>
    obtain ⟨start, positive, later⟩ := tiles
    intro f member
    rcases List.mem_cons.mp member with rfl | member
    · omega
    · have bound := ih later f member
      omega

theorem Tiles.length_pos {next : Int} {F : List α} (tiles : Tiles off len next F) :
    ∀ f ∈ F, 0 < len f := by
  induction F generalizing next with
  | nil => intro f member; cases member
  | cons g rest ih =>
    obtain ⟨_, positive, later⟩ := tiles
    intro f member
    rcases List.mem_cons.mp member with rfl | member
    · exact positive
    · exact ih later f member

theorem Tiles.ordered {next : Int} {F : List α} (tiles : Tiles off len next F) :
    F.Pairwise fun a b => off a + len a ≤ off b := by
  induction F generalizing next with
  | nil => exact List.Pairwise.nil
  | cons g rest ih =>
    obtain ⟨start, _, later⟩ := tiles
    refine List.pairwise_cons.mpr ⟨?_, ih later⟩
    intro b member
    have bound := later.start_le b member
    omega

theorem contiguous_tiles {next : Int} {F : List α} (tiles : Tiles off len next F) :
    contiguous off len next F = some (next + (F.map len).sum) := by
  induction F generalizing next with
  | nil => simp [contiguous]
  | cons g rest ih =>
    obtain ⟨start, _, later⟩ := tiles
    rw [contiguous, if_neg (not_not.mpr start), ih later, List.map_cons, List.sum_cons,
      Int.add_assoc]

theorem contiguous_cover {next total : Int} {F : List α}
    (full : contiguous off len next F = some total) :
    total = next + (F.map len).sum ∧
      (∀ x, next ≤ x → x < total → ∃ f ∈ F, off f ≤ x ∧ x < off f + len f) ∧
      ∀ l, F.getLast? = some l → off l + len l = total := by
  induction F generalizing next with
  | nil =>
    cases full
    refine ⟨by simp, fun x low high => by lia, fun l last => by cases last⟩
  | cons g rest ih =>
    rw [contiguous] at full
    split at full
    · cases full
    · rename_i start
      rw [not_not] at start
      obtain ⟨sum, cover, ends⟩ := ih full
      refine ⟨by rw [List.map_cons, List.sum_cons]; lia, fun x low high => ?_, fun l last => ?_⟩
      · by_cases here : x < next + len g
        · exact ⟨g, List.mem_cons_self, by lia, by lia⟩
        · obtain ⟨f, member, inside⟩ := cover x (by lia) high
          exact ⟨f, List.mem_cons_of_mem _ member, inside⟩
      · cases rest with
        | nil =>
          rw [List.getLast?_singleton, Option.some.injEq] at last
          rw [contiguous, Option.some.injEq] at full
          rw [← last, start, full]
        | cons h t =>
          rw [List.getLast?_cons_cons] at last
          exact ends l last

/-- A selection from the tiles that passes the scan and ends in the last tile has left
nothing out. -/
theorem Tiles.select_all {next : Int} {F : List α} (tiles : Tiles off len next F)
    {last : α → Bool} (marked : ∀ A f B, F = A ++ f :: B → last f = true → B = [])
    {p : α → Bool} {total : Int} (full : contiguous off len next (F.filter p) = some total)
    {l : α} (ends : (F.filter p).getLast? = some l) (final : last l = true) : F.filter p = F := by
  induction F generalizing next with
  | nil => rfl
  | cons g rest ih =>
    obtain ⟨start, positive, later⟩ := tiles
    cases keep : p g with
    | false =>
      -- the next tile kept starts behind the gap
      rw [List.filter_cons_of_neg (by simp [keep])] at full ends
      cases chosen : rest.filter p with
      | nil => rw [chosen] at ends; cases ends
      | cons h t =>
        have inside : h ∈ rest := List.mem_of_mem_filter (chosen ▸ List.mem_cons_self)
        have bound := later.start_le h inside
        have gap : off h ≠ next := by omega
        rw [chosen, contiguous, if_pos gap] at full
        cases full
    | true =>
      rw [List.filter_cons_of_pos keep] at full ends ⊢
      rw [contiguous, if_neg (not_not.mpr start)] at full
      cases chosen : rest.filter p with
      | nil =>
        rw [chosen] at ends
        have same : g = l := by simpa using ends
        have none : rest = [] := marked [] g rest rfl (same ▸ final)
        rw [none]
      | cons h t =>
        rw [chosen, List.getLast?_cons_cons, ← chosen] at ends
        rw [← chosen, ih later (fun A f B split => marked (g :: A) f B (by rw [split]; rfl)) full
          ends]

end FreeBsd.Lib
