import Pds1.Listing

/-!
# Tab stops

A text with its tabs expanded is laid out in pieces, one for each character. A character other than
a tab stands for itself in one column; a tab stands for one blank or more, up to the next column
that is a multiple of the width. This fixes the layout, and expanding tabs gives it. No tab is left,
so expanding once more changes nothing.
-/

namespace Pds1.Listing

/-- What stands for a character in a given column. -/
inductive Fills (width column : Nat) : Char → List Char → Prop where
  | self {x : Char} (other : x ≠ '\t') : Fills width column x [x]
  | blanks {n : Nat} (some : 1 ≤ n) (few : n ≤ width) (stop : width ∣ column + n) :
    Fills width column '\t' (List.replicate n ' ')

/-- The pieces of a text that starts in a given column. Each piece starts where the one before it
ends. -/
inductive Laid (width : Nat) : Nat → List Char → List (List Char) → Prop where
  | nil (column : Nat) : Laid width column [] []
  | cons {column : Nat} {x : Char} {text : List Char} {piece : List Char}
    {pieces : List (List Char)} (first : Fills width column x piece)
    (rest : Laid width (column + piece.length) text pieces) :
    Laid width column (x :: text) (piece :: pieces)

/-- The pieces of the characters that are not tabs. -/
def kept (text : List Char) (pieces : List (List Char)) : List Char :=
  ((text.zip pieces).filter fun p => p.1 ≠ '\t').flatMap Prod.snd

section Stops

variable {width column : Nat}

/-- There is a stop ahead, at most `width` columns away. -/
theorem stop_ahead (positive : 1 ≤ width) (column : Nat) :
    column + 1 ≤ (column / width + 1) * width ∧ (column / width + 1) * width ≤ column + width := by
  have parts := Nat.div_add_mod column width
  have small := Nat.mod_lt column (show width > 0 from positive)
  have next : (column / width + 1) * width = width * (column / width) + width := by
    rw [Nat.add_mul, Nat.one_mul, Nat.mul_comm]
  omega

/-- And only one. -/
theorem stop_unique {n m : Nat} (n_pos : 1 ≤ n) (n_le : n ≤ width) (n_stop : width ∣ column + n)
    (m_pos : 1 ≤ m) (m_le : m ≤ width) (m_stop : width ∣ column + m) : n = m := by
  have apart {n m : Nat} (n_pos : 1 ≤ n) (n_stop : width ∣ column + n) (m_le : m ≤ width)
      (m_stop : width ∣ column + m) : m ≤ n := by
    have difference : width ∣ column + m - (column + n) := Nat.dvd_sub m_stop n_stop
    have zero := Nat.eq_zero_of_dvd_of_lt difference (by omega)
    omega
  exact Nat.le_antisymm (apart m_pos m_stop n_le n_stop) (apart n_pos n_stop m_le m_stop)

theorem Fills.unique {x : Char} {piece piece' : List Char} (h : Fills width column x piece)
    (h' : Fills width column x piece') : piece = piece' := by
  cases h with
  | self other =>
    cases h' with
    | self => rfl
    | blanks => exact absurd rfl other
  | blanks some few stop =>
    cases h' with
    | self other => exact absurd rfl other
    | blanks some' few' stop' => rw [stop_unique some few stop some' few' stop']

theorem Laid.unique {text : List Char} {pieces pieces' : List (List Char)}
    (h : Laid width column text pieces) (h' : Laid width column text pieces') :
    pieces = pieces' := by
  induction h generalizing pieces' with
  | nil => cases h'; rfl
  | cons first rest ih =>
    cases h' with
    | cons first' rest' =>
      obtain rfl := first.unique first'
      rw [ih rest']

/-- Expanding tabs lays a text out. -/
theorem laid_expandTabs (positive : 1 ≤ width) (column : Nat) (text : List Char) :
    ∃ pieces, Laid width column text pieces ∧ expandTabs width column text = pieces.flatten := by
  fun_induction expandTabs width column text with
  | case1 column => exact ⟨[], .nil column, rfl⟩
  | case2 column r next ih =>
    obtain ⟨pieces, laid, flat⟩ := ih
    obtain ⟨beyond, near⟩ : column + 1 ≤ next ∧ next ≤ column + width := stop_ahead positive column
    have reached : column + (next - column) = next := by omega
    have stop : width ∣ column + (next - column) := by
      rw [reached]
      exact Nat.dvd_mul_left width _
    refine ⟨List.replicate (next - column) ' ' :: pieces, .cons ?_ ?_, ?_⟩
    · exact .blanks (by omega) (by omega) stop
    · rw [List.length_replicate, reached]
      exact laid
    · rw [flat, List.flatten_cons]
  | case3 column x r other ih =>
    obtain ⟨pieces, laid, flat⟩ := ih
    exact ⟨[x] :: pieces, .cons (.self fun tab => other tab) laid, by rw [flat]; rfl⟩

theorem Laid.tab_not_mem {text : List Char} {pieces : List (List Char)}
    (h : Laid width column text pieces) : '\t' ∉ pieces.flatten := by
  induction h with
  | nil => simp
  | cons first rest ih =>
    rw [List.flatten_cons, List.mem_append]
    rintro (own | later)
    · cases first with
      | self other => exact other (List.mem_singleton.mp own).symm
      | blanks => exact absurd (List.eq_of_mem_replicate own) (by decide)
    · exact ih later

/-- Without what stands for the tabs, a layout is the text without them. -/
theorem Laid.kept_eq {text : List Char} {pieces : List (List Char)}
    (h : Laid width column text pieces) : kept text pieces = text.filter (· ≠ '\t') := by
  induction h with
  | nil => rfl
  | cons first rest ih =>
    rw [kept] at ih ⊢
    cases first with
    | self other => simpa [other] using ih
    | blanks => simpa using ih

theorem expandTabs_of_not_mem {text : List Char} (plain : '\t' ∉ text) (width column : Nat) :
    expandTabs width column text = text := by
  fun_induction expandTabs width column text with
  | case1 => rfl
  | case2 => simp at plain
  | case3 column x r _ ih => rw [ih (fun member => plain (List.mem_cons_of_mem x member))]

end Stops

/-- Expanding tabs lays a text out in the one way in which every tab reaches the next stop and all
else keeps its column. No tab is left; without the blanks that stand for tabs the text is there as
it was; and expanding again changes nothing. -/
theorem expansion_reaches_stops (width : Nat) (positive : 1 ≤ width) (column : Nat)
    (text : List Char) :
    (∀ out, out = expandTabs width column text ↔
      ∃ pieces, Laid width column text pieces ∧ out = pieces.flatten) ∧
    (∀ pieces, Laid width column text pieces → kept text pieces = text.filter (· ≠ '\t')) ∧
    '\t' ∉ expandTabs width column text ∧
    expandTabs width column (expandTabs width column text) = expandTabs width column text := by
  obtain ⟨pieces, laid, flat⟩ := laid_expandTabs positive column text
  have gone : '\t' ∉ expandTabs width column text := by
    rw [flat]
    exact laid.tab_not_mem
  refine ⟨fun out => ⟨?_, ?_⟩, fun _ => Laid.kept_eq, gone, expandTabs_of_not_mem gone _ _⟩
  · rintro rfl
    exact ⟨pieces, laid, flat⟩
  · rintro ⟨other, laid', rfl⟩
    rw [flat, laid.unique laid']

/-- The first tab has one column to fill, the second one, on a stop already, all of eight. -/
theorem expansion_reaches_stops_eight :
    1 ≤ 8 ∧ expandTabs 8 0 "é LABEL\t\tLAC".toList = "é LABEL         LAC".toList ∧
    (∃ pieces, Laid 8 0 "é LABEL\t\tLAC".toList pieces ∧
      expandTabs 8 0 "é LABEL\t\tLAC".toList = pieces.flatten) ∧
    '\t' ∉ expandTabs 8 0 "é LABEL\t\tLAC".toList := by
  have holds := expansion_reaches_stops 8 (by decide) 0 "é LABEL\t\tLAC".toList
  exact ⟨by decide, by decide, (holds.1 _).mp rfl, holds.2.2.1⟩

end Pds1.Listing
