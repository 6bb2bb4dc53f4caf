import Mathlib.Data.Set.Basic

/-!
# Ranges tiled by windows

A range of whole numbers in windows, each starting right behind the one before it.
-/

set_option autoImplicit false

namespace UnicityBridge.Lib

/-- The windows, none of them empty, go from the first number of the range to its last without a gap. -/
def Tiles : List (Int × Int) → Int → Int → Prop
  | [], first, last => last < first
  | window :: rest, first, last =>
      window.1 = first ∧ first ≤ window.2 ∧ window.2 ≤ last ∧ Tiles rest (window.2 + 1) last

namespace Tiles

/-- Ranges that meet are tiled one after the other. -/
theorem append {front back : List (Int × Int)} {first middle last : Int} (h : Tiles front first middle)
    (hback : Tiles back (middle + 1) last) (hfirst : first ≤ middle + 1) (hlast : middle ≤ last) :
    Tiles (front ++ back) first last := by
  induction front generalizing first with
  | nil =>
      have hsame : first = middle + 1 := le_antisymm hfirst (Int.add_one_le_iff.2 h)
      rw [List.nil_append, hsame]
      exact hback
  | cons window rest ih =>
      obtain ⟨hstart, hnonempty, hend, hrest⟩ := h
      exact ⟨hstart, hnonempty, hend.trans hlast, ih hrest (by omega)⟩

theorem eq_nil {windows : List (Int × Int)} {first last : Int} (h : Tiles windows first last)
    (hempty : last < first) : windows = [] := by
  cases windows with
  | nil => rfl
  | cons window rest => exact absurd (h.2.1.trans h.2.2.1) (not_le.2 hempty)

/-- **Every number of the range is in a window.** -/
theorem exists_mem {windows : List (Int × Int)} {first last : Int} (h : Tiles windows first last)
    {n : Int} (hfirst : first ≤ n) (hlast : n ≤ last) :
    ∃ window ∈ windows, window.1 ≤ n ∧ n ≤ window.2 := by
  induction windows generalizing first with
  | nil => exact absurd (lt_of_lt_of_le h hfirst) (not_lt.2 hlast)
  | cons window rest ih =>
      obtain ⟨rfl, -, -, hrest⟩ := h
      by_cases hn : n ≤ window.2
      · exact ⟨window, List.mem_cons_self, hfirst, hn⟩
      · obtain ⟨other, hother, hmem⟩ := ih hrest (by omega)
        exact ⟨other, List.mem_cons_of_mem window hother, hmem⟩

end Tiles

end UnicityBridge.Lib
