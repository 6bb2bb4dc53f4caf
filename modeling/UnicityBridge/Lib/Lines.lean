import Mathlib.Data.List.DropRight
import UnicityBridge.Lib.Bytes

/-!
# Lines of bytes

Bytes split at newlines, as `BufRead::lines` splits them: a carriage return before a newline goes with
it, and what follows the last newline is a line of its own unless it is empty. Lines that were written
one after another, each with its newline, are read back, with what was cut off behind them.
-/

set_option autoImplicit false

namespace UnicityBridge.Lib

/-- The byte that ends a line. -/
def NEWLINE : UInt8 := 10

/-- A line without the carriage return before its newline. -/
def dropCarriage (line : Bytes) : Bytes := if line.getLast? = some 13 then line.dropLast else line

/-- The lines of what follows the bytes of a line that were read already. -/
def splitLines (line : Bytes) : Bytes → List Bytes
  | [] => if line = [] then [] else [line]
  | b :: rest =>
      if b = NEWLINE then dropCarriage line :: splitLines [] rest else splitLines (line ++ [b]) rest

/-- The bytes end where a line ends. -/
def endsLine (bytes : Bytes) : Bool := bytes.getLast?.all fun b => b = NEWLINE

/-- What follows the last newline. -/
def lastLine (bytes : Bytes) : Bytes := bytes.rtakeWhile fun b => b ≠ NEWLINE

/-- Bytes that a line can hold: no control characters. -/
def PlainLine (line : Bytes) : Prop := ∀ b ∈ line, 32 ≤ b

theorem PlainLine.not_newline {line : Bytes} (h : PlainLine line) : NEWLINE ∉ line :=
  fun hmem => absurd (h _ hmem) (by decide)

theorem PlainLine.dropCarriage {line : Bytes} (h : PlainLine line) : dropCarriage line = line := by
  unfold Lib.dropCarriage
  split
  · next hlast => exact absurd (h 13 (List.mem_of_getLast? hlast)) (by decide)
  · rfl

theorem PlainLine.of_prefix {line front : Bytes} (h : PlainLine line) (hfront : front <+: line) :
    PlainLine front := fun b hb => h b (hfront.subset hb)

/-- Bytes without a newline are read into the line. -/
theorem splitLines_append {line front : Bytes} (h : NEWLINE ∉ front) (rest : Bytes) :
    splitLines line (front ++ rest) = splitLines (line ++ front) rest := by
  induction front generalizing line with
  | nil => simp
  | cons b front ih =>
      obtain ⟨hb, hfront⟩ := not_or.1 fun hor => h (List.mem_cons.2 hor)
      rw [List.cons_append, splitLines, if_neg (fun heq => hb heq.symm), ih hfront]
      simp

theorem splitLines_newline (line rest : Bytes) :
    splitLines line (NEWLINE :: rest) = dropCarriage line :: splitLines [] rest := by
  rw [splitLines, if_pos rfl]

/-- **Lines are read back**, with what follows the last of them. -/
theorem splitLines_lines {lines : List Bytes} {tail : Bytes} (hlines : ∀ line ∈ lines, PlainLine line)
    (htail : PlainLine tail) :
    splitLines [] (lines.flatMap (fun line => line ++ [NEWLINE]) ++ tail) =
      lines ++ (if tail = [] then [] else [tail]) := by
  induction lines with
  | nil =>
      have hsplit := @splitLines_append [] tail htail.not_newline []
      rw [List.append_nil, List.nil_append] at hsplit
      rw [List.flatMap_nil, List.nil_append, List.nil_append, hsplit, splitLines]
  | cons line rest ih =>
      have hline := hlines line List.mem_cons_self
      rw [List.flatMap_cons, List.append_assoc, List.append_assoc,
        splitLines_append hline.not_newline, List.nil_append, List.singleton_append,
        splitLines_newline, hline.dropCarriage, ih fun l hl => hlines l (List.mem_cons_of_mem _ hl),
        List.cons_append]

@[simp] theorem endsLine_newline (front : Bytes) : endsLine (front ++ [NEWLINE]) = true := by
  simp [endsLine]

/-- Lines end where a line ends. -/
theorem endsLine_lines (lines : List Bytes) :
    endsLine (lines.flatMap fun line => line ++ [NEWLINE]) = true := by
  rcases List.eq_nil_or_concat lines with rfl | ⟨front, line, rfl⟩
  · rfl
  · rw [List.concat_eq_append, List.flatMap_append, List.flatMap_singleton, ← List.append_assoc]
    exact endsLine_newline _

/-- What ends with a plain tail does not end where a line ends. -/
theorem endsLine_append_plain {front tail : Bytes} (htail : PlainLine tail) (hne : tail ≠ []) :
    endsLine (front ++ tail) = false := by
  obtain ⟨b, hb⟩ : ∃ b, tail.getLast? = some b :=
    ⟨_, List.getLast?_eq_some_getLast hne⟩
  have hplain : b ≠ NEWLINE := by
    rintro rfl
    exact htail.not_newline (List.mem_of_getLast? hb)
  simp [endsLine, List.getLast?_append, hb, hplain]

/-- Behind whole lines, a plain tail is the last line. -/
theorem lastLine_append_plain {front tail : Bytes} (hfront : endsLine front = true)
    (htail : PlainLine tail) : lastLine (front ++ tail) = tail := by
  have hall : ∀ b ∈ tail.reverse, (decide (b ≠ NEWLINE)) = true := by
    intro b hb
    refine decide_eq_true ?_
    rintro rfl
    exact htail.not_newline (List.mem_reverse.1 hb)
  have hnone : front.reverse.takeWhile (fun b => decide (b ≠ NEWLINE)) = [] := by
    rcases List.eq_nil_or_concat front with rfl | ⟨before, b, rfl⟩
    · rfl
    · have hb : b = NEWLINE := by simpa [endsLine] using hfront
      simp [hb]
  rw [lastLine, List.rtakeWhile, List.reverse_append, List.takeWhile_append_of_pos hall, hnone, List.append_nil,
    List.reverse_reverse]

end UnicityBridge.Lib
