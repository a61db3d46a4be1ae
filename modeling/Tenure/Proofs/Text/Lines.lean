import Mathlib.Data.List.TakeWhile
import Tenure.Proofs.Ascending
import Tenure.Proofs.Text.Offset
import Tenure.Text.Lines

/-!
# The line of an offset

A line of a text is a part without newlines between two newlines, or between a newline and an end of
the text. Every offset lies in one (`exists_lineAround`). The table of line starts ascends strictly
(`pairwise_lineStarts`) and has the start of a line at the number of newlines before it
(`LineSplit.getElem?_lineStarts`), so the number of a line leads to its text
(`LineSplit.lineText_eq`). The search of the table for an offset finds it exactly if a line begins
there, and otherwise ends just after the start of its line (`LineAround.searchAscending_eq`): either
way it leads to the number of the line (`LineAround.lineIndex_eq`).
-/

namespace Tenure.Text

variable {text before line after : List Char} {offset : Nat}

/-- A line of a text, with what stands before and after it. -/
structure LineSplit (text before line after : List Char) : Prop where
  text_eq : text = before ++ line ++ after
  plain : '\n' ∉ line
  opened : ∀ c ∈ before.getLast?, c = '\n'
  closed : ∀ c ∈ after.head?, c = '\n'

/-- The line that an offset lies in. An offset at a newline lies in the line that the newline
ends. -/
structure LineAround (text : List Char) (offset : Nat) (before line after : List Char) : Prop
    extends LineSplit text before line after where
  start_le : byteLength before ≤ offset
  le_stop : offset ≤ byteLength (before ++ line)

/-! ## Every offset lies in a line -/

theorem lineSplit_takeWhile (text : List Char) :
    LineSplit text [] (text.takeWhile (· ≠ '\n')) (text.dropWhile (· ≠ '\n')) where
  text_eq := by simp
  plain hmem := by simpa using List.mem_takeWhile_imp hmem
  opened := by simp
  closed c hc := by
    have := List.head?_dropWhile_not (· ≠ '\n') text
    simp_all

/-- A character in front of a text stands before each of its lines, and before the first one if it is
a newline. -/
theorem LineSplit.cons (h : LineSplit text before line after) (c : Char)
    (hc : before = [] → c = '\n') : LineSplit (c :: text) (c :: before) line after where
  text_eq := by rw [h.text_eq]; rfl
  plain := h.plain
  opened := by
    cases before with
    | nil => simpa using hc rfl
    | cons d rest => simpa [List.getLast?_cons_cons] using h.opened
  closed := h.closed

theorem exists_lineAround (hle : offset ≤ byteLength text) :
    ∃ before line after, LineAround text offset before line after := by
  induction text generalizing offset with
  | nil => exact ⟨[], [], [], ⟨rfl, by simp, by simp, by simp⟩, Nat.zero_le _, hle⟩
  | cons c rest ih =>
    by_cases hfirst : offset < c.utf8Size
    · -- the line begins with the text
      refine ⟨[], _, _, lineSplit_takeWhile (c :: rest), Nat.zero_le _, ?_⟩
      by_cases hc : c = '\n'
      · subst hc
        have : offset < 1 := hfirst
        omega
      · rw [List.nil_append, List.takeWhile_cons_of_pos (by simpa using hc), byteLength]
        omega
    · obtain ⟨before, line, after, hsplit, hstart, hstop⟩ :=
        @ih (offset - c.utf8Size) (by rw [byteLength] at hle; omega)
      rw [byteLength_append] at hstop
      by_cases hc : before = [] ∧ c ≠ '\n'
      · obtain ⟨rfl, hc⟩ := hc
        refine ⟨[], c :: line, after, ⟨?_, ?_, by simp, hsplit.closed⟩, Nat.zero_le _, ?_⟩
        · rw [hsplit.text_eq]; rfl
        · simpa [Ne.symm hc] using hsplit.plain
        · rw [List.nil_append, byteLength]
          rw [byteLength, Nat.zero_add] at hstop
          omega
      · refine ⟨c :: before, line, after, hsplit.cons c ?_, ?_, ?_⟩
        · intro hnil
          by_contra hne
          exact hc ⟨hnil, hne⟩
        · rw [byteLength]; omega
        · rw [byteLength_append, byteLength]; omega

/-! ## The table of line starts -/

theorem startsAfter_append (base : Nat) (head tail : List Char) :
    startsAfter base (head ++ tail) =
      startsAfter base head ++ startsAfter (base + byteLength head) tail := by
  induction head generalizing base with
  | nil => rfl
  | cons c rest ih =>
    simp only [List.cons_append, startsAfter, ih, byteLength, Nat.add_assoc]
    split <;> rfl

theorem startsAfter_eq_nil (h : '\n' ∉ text) (base : Nat) : startsAfter base text = [] := by
  induction text generalizing base with
  | nil => rfl
  | cons c rest ih =>
    rw [List.mem_cons, not_or] at h
    rw [startsAfter, if_neg (Ne.symm h.1)]
    exact ih h.2 _

theorem length_startsAfter (base : Nat) (text : List Char) :
    (startsAfter base text).length = text.count '\n' := by
  induction text generalizing base with
  | nil => rfl
  | cons c rest ih =>
    rw [startsAfter]
    split
    next hc => rw [List.length_cons, ih, hc, List.count_cons_self]
    next hc => rw [ih, List.count_cons_of_ne hc]

theorem mem_startsAfter {base start : Nat} (h : start ∈ startsAfter base text) :
    base < start ∧ start ≤ base + byteLength text := by
  induction text generalizing base with
  | nil => cases h
  | cons c rest ih =>
    have hpos := c.utf8Size_pos
    rw [byteLength]
    have hrest : start ∈ startsAfter (base + c.utf8Size) rest →
        base < start ∧ start ≤ base + (c.utf8Size + byteLength rest) := by
      intro hmem
      have := ih hmem
      omega
    rw [startsAfter] at h
    split at h
    · rcases List.mem_cons.mp h with rfl | h
      · omega
      · exact hrest h
    · exact hrest h

theorem pairwise_startsAfter (base : Nat) (text : List Char) :
    (startsAfter base text).Pairwise (· < ·) := by
  induction text generalizing base with
  | nil => exact .nil
  | cons c rest ih =>
    rw [startsAfter]
    split
    · exact List.pairwise_cons.mpr ⟨fun start hstart => (mem_startsAfter hstart).1, ih _⟩
    · exact ih _

/-- The table of line starts ascends strictly. -/
theorem pairwise_lineStarts (text : List Char) : (lineStarts text).Pairwise (· < ·) :=
  List.pairwise_cons.mpr
    ⟨fun _ hstart => (mem_startsAfter hstart).1, pairwise_startsAfter 0 text⟩

theorem length_lineStarts (text : List Char) : (lineStarts text).length = text.count '\n' + 1 := by
  rw [lineStarts, List.length_cons, length_startsAfter]

theorem le_of_mem_lineStarts {start : Nat} (h : start ∈ lineStarts text) :
    start ≤ byteLength text := by
  rcases List.mem_cons.mp h with rfl | h
  · exact Nat.zero_le _
  · simpa using (mem_startsAfter h).2

theorem startsAfter_add (base shift : Nat) (text : List Char) :
    startsAfter (base + shift) text = (startsAfter base text).map (· + shift) := by
  induction text generalizing base with
  | nil => rfl
  | cons c rest ih =>
    simp only [startsAfter, Nat.add_right_comm base shift, ih]
    split <;> rfl

theorem head?_startsAfter (h : ∀ c ∈ after.head?, c = '\n') (base : Nat) :
    (startsAfter base after).head? = if after = [] then none else some (base + 1) := by
  cases after with
  | nil => rfl
  | cons c rest =>
    obtain rfl : c = '\n' := h c rfl
    rfl

namespace LineSplit

/-- The lines before a line begin where they begin in what stands before it. -/
theorem lineStarts_eq (h : LineSplit text before line after) :
    lineStarts text =
      lineStarts before ++ startsAfter (byteLength (before ++ line)) after := by
  rw [h.text_eq, lineStarts, startsAfter_append, startsAfter_append, startsAfter_eq_nil h.plain,
    List.append_nil, Nat.zero_add]
  rfl

/-- What ends with a newline has an empty last line. -/
theorem getLast?_lineStarts (h : LineSplit text before line after) :
    (lineStarts before).getLast? = some (byteLength before) := by
  rcases List.eq_nil_or_concat' before with rfl | ⟨front, c, rfl⟩
  · rfl
  · obtain rfl : c = '\n' := h.opened c (by simp)
    have hsplit : lineStarts (front ++ ['\n']) =
        lineStarts front ++ [byteLength (front ++ ['\n'])] := by
      rw [lineStarts, startsAfter_append, byteLength_append, Nat.zero_add]
      rfl
    rw [hsplit, List.getLast?_concat]

theorem getElem?_lineStarts (h : LineSplit text before line after) :
    (lineStarts text)[before.count '\n']? = some (byteLength before) := by
  have hlength := length_lineStarts before
  rw [h.lineStarts_eq, List.getElem?_append_left (by omega), ← h.getLast?_lineStarts,
    List.getLast?_eq_getElem?, hlength]
  rfl

/-- The lines after a line begin after it. -/
theorem lt_of_getElem?_lineStarts {i start : Nat} (h : LineSplit text before line after)
    (hi : before.count '\n' < i) (hstart : (lineStarts text)[i]? = some start) :
    byteLength (before ++ line) < start := by
  have hlength := length_lineStarts before
  rw [h.lineStarts_eq, List.getElem?_append_right (by omega)] at hstart
  exact (mem_startsAfter (List.mem_of_getElem? hstart)).1

/-- The number of newlines before a line leads to its text. -/
theorem lineText_eq (h : LineSplit text before line after) :
    lineText text (before.count '\n') = line := by
  have hstop : ((lineStarts text)[before.count '\n' + 1]?.map fun next => next - 1).getD
      (byteLength text) = byteLength (before ++ line) := by
    rw [h.lineStarts_eq, ← length_lineStarts, List.getElem?_append_right (Nat.le_refl _),
      Nat.sub_self, ← List.head?_eq_getElem?, head?_startsAfter h.closed]
    split
    next hnil => rw [h.text_eq, hnil, List.append_nil]; rfl
    next => rfl
  have hstart : byteLength before ≤ byteLength (before ++ line) := by simp
  simp only [lineText, List.getD_eq_getElem?_getD, h.getElem?_lineStarts, hstop, Option.getD_some,
    max_eq_left hstart]
  rw [h.text_eq, slice?_append]
  rfl

end LineSplit

namespace LineAround

theorem le_byteLength (h : LineAround text offset before line after) :
    offset ≤ byteLength text := by
  have hstop := h.le_stop
  rw [h.text_eq, byteLength_append]
  omega

/-- Both outcomes of the search for an offset: at the start of its line the offset is found, and
elsewhere it would stand just after that start. -/
theorem searchAscending_eq (h : LineAround text offset before line after) :
    searchAscending (lineStarts text) offset =
      if byteLength before = offset then .found (before.count '\n')
      else .missing (before.count '\n' + 1) := by
  have hsorted := pairwise_lineStarts text
  have hread := h.getElem?_lineStarts
  split
  next hstart =>
    rw [searchAscending_eq_found_iff hsorted, hread, hstart]
  next hstart =>
    have hlt : byteLength before < offset := Nat.lt_of_le_of_ne h.start_le hstart
    rw [searchAscending_eq_missing_iff hsorted]
    refine ⟨(List.getElem?_eq_some_iff.mp hread).1,
      fun i start hi => ⟨fun hle => ?_, fun hgt => ?_⟩⟩
    · rcases Nat.eq_or_lt_of_le (Nat.le_of_lt_succ hle) with rfl | hbefore
      · rw [hread] at hi
        cases hi
        exact hlt
      · exact Nat.lt_trans (lt_of_getElem? hsorted hi hread hbefore) hlt
    · exact Nat.lt_of_le_of_lt h.le_stop (h.lt_of_getElem?_lineStarts hgt hi)

theorem lineIndex_eq (h : LineAround text offset before line after) :
    lineIndex text offset = before.count '\n' := by
  rw [lineIndex, h.searchAscending_eq]
  by_cases hstart : byteLength before = offset
  · rw [if_pos hstart]
  · rw [if_neg hstart]
    rfl

/-- Before the offset there are the newlines that stand before its line. -/
theorem count_newline (h : LineAround text offset before line after) :
    ((bytes text).take offset).count newline = before.count '\n' := by
  have hstart : (bytes before).length ≤ offset := by rw [length_bytes]; exact h.start_le
  have hstop : offset - (bytes before).length ≤ (bytes line).length := by
    have := h.le_stop
    rw [byteLength_append] at this
    rw [length_bytes, length_bytes]
    omega
  have hplain : newline ∉ (bytes line).take (offset - (bytes before).length) := fun hmem =>
    h.plain (newline_mem_bytes_iff.mp (List.mem_of_mem_take hmem))
  rw [h.text_eq, List.append_assoc, bytes_append, bytes_append, List.take_append,
    List.take_of_length_le hstart, List.take_append_of_le_length hstop, List.count_append,
    List.count_eq_zero_of_not_mem hplain, count_newline_bytes, Nat.add_zero]

/-- A position cuts the line that it lies in. -/
theorem exists_cut (h : LineAround text offset before line after) (hposition : IsPosition text offset) :
    ∃ left right, line = left ++ right ∧ byteLength (before ++ left) = offset := by
  obtain ⟨head, tail, htext, rfl⟩ := hposition
  have hcut : before ++ (line ++ after) = head ++ tail := by
    rw [← htext, h.text_eq, List.append_assoc]
  obtain ⟨left, rfl, hleft⟩ := exists_append_of_le hcut h.start_le
  have hstop := h.le_stop
  rw [byteLength_append, byteLength_append] at hstop
  obtain ⟨right, hline, -⟩ := exists_append_of_le hleft.symm (by omega)
  exact ⟨left, right, hline, rfl⟩

/-- New text without newlines makes the line longer in which it is put, and it begins in that line. -/
theorem insert {left right new : List Char}
    (h : LineAround text offset before (left ++ right) after)
    (hleft : byteLength (before ++ left) = offset) (hnew : '\n' ∉ new) :
    LineAround (before ++ left ++ new ++ (right ++ after)) offset before (left ++ new ++ right)
      after where
  text_eq := by simp
  plain := by
    have hplain := h.plain
    simp only [List.mem_append, not_or] at hplain ⊢
    exact ⟨⟨hplain.1, hnew⟩, hplain.2⟩
  opened := h.opened
  closed := h.closed
  start_le := h.start_le
  le_stop := by
    rw [← hleft]
    simp only [byteLength_append]
    omega

/-- New text without newlines shifts the starts of the lines after the offset, and no others. -/
theorem lineStarts_insert {left right new : List Char}
    (h : LineAround text offset before (left ++ right) after)
    (hleft : byteLength (before ++ left) = offset) (hnew : '\n' ∉ new) :
    lineStarts (before ++ left ++ new ++ (right ++ after)) =
      (lineStarts text).map fun start =>
        if start ≤ offset then start else start + byteLength new := by
  have hbefore : (lineStarts before).map (fun start =>
      if start ≤ offset then start else start + byteLength new) = lineStarts before := by
    refine (List.map_congr_left fun start hstart => ?_).trans (List.map_id _)
    rw [if_pos ((le_of_mem_lineStarts hstart).trans h.start_le)]
    rfl
  have hafter : (startsAfter (byteLength (before ++ (left ++ right))) after).map (fun start =>
      if start ≤ offset then start else start + byteLength new) =
        startsAfter (byteLength (before ++ (left ++ right)) + byteLength new) after := by
    rw [startsAfter_add]
    refine List.map_congr_left fun start hstart => if_neg ?_
    have hlater := (mem_startsAfter hstart).1
    have hstop := h.le_stop
    omega
  rw [(h.insert hleft hnew).lineStarts_eq, h.lineStarts_eq, List.map_append, hbefore, hafter]
  simp only [byteLength_append]
  congr 2
  omega

end LineAround

/-! ## Positions as they are shown -/

theorem column_locationBy {width : List Char → Nat} {left right : List Char}
    (h : LineAround text (min offset (byteLength text)) before line after)
    (hline : line = left ++ right)
    (hleft : byteLength (before ++ left) = min offset (byteLength text)) :
    (locationBy width text offset).column = width left + 1 := by
  have hslice : slice? text (byteLength before) (min offset (byteLength text)) = some left := by
    rw [← hleft, h.text_eq, hline, ← List.append_assoc, List.append_assoc _ right after]
    exact slice?_append before left (right ++ after)
  simp only [locationBy, h.lineIndex_eq, List.getD_eq_getElem?_getD, h.getElem?_lineStarts,
    Option.getD_some, hslice]

/-- For an offset into a text, taken as the end of the text if it is beyond, and for any way to count
columns: the number of its line is one more than the newlines among the bytes before it, the text of
that line is what stands between the newlines around it, and where a character begins the column is
one more than the columns of what stands before it in the line. The table of line starts ascends
strictly, and the search finds the offset in it if the line begins there and otherwise gives the
place after the start of the line. -/
theorem location_exact (width : List Char → Nat) (text : List Char) (offset : Nat) :
    (lineStarts text).Pairwise (· < ·) ∧
    (locationBy width text offset).line =
      ((bytes text).take (min offset (byteLength text))).count newline + 1 ∧
    ∃ before after, LineAround text (min offset (byteLength text)) before
        (lineText text ((locationBy width text offset).line - 1)) after ∧
      searchAscending (lineStarts text) (min offset (byteLength text)) =
        (if byteLength before = min offset (byteLength text) then .found (before.count '\n')
        else .missing (before.count '\n' + 1)) ∧
      (IsPosition text (min offset (byteLength text)) → ∃ left right,
        lineText text ((locationBy width text offset).line - 1) = left ++ right ∧
        byteLength (before ++ left) = min offset (byteLength text) ∧
        (locationBy width text offset).column = width left + 1) := by
  obtain ⟨before, line, after, h⟩ :=
    exists_lineAround (Nat.min_le_right offset (byteLength text))
  have hnumber : (locationBy width text offset).line = before.count '\n' + 1 :=
    congrArg (· + 1) h.lineIndex_eq
  have htext : lineText text ((locationBy width text offset).line - 1) = line := by
    rw [hnumber, Nat.add_sub_cancel, h.lineText_eq]
  rw [htext, h.count_newline]
  refine ⟨pairwise_lineStarts text, hnumber, before, after, h, h.searchAscending_eq,
    fun hposition => ?_⟩
  obtain ⟨left, right, hline, hleft⟩ := h.exists_cut hposition
  exact ⟨left, right, hline, hleft, column_locationBy h hline hleft⟩

/-- A line with ideographs, which take three bytes and two columns each, and an empty line. -/
def wideName : List Char :=
  ['l', 'e', 't', ' ', '名', '前', ' ', '=', ' ', 'x', '\n', '\n']

/-- The thirteen bytes before the `x` take eleven columns. No line begins there, and the second line
begins after the first newline. -/
theorem wideName_location : IsPosition wideName (min 13 (byteLength wideName)) ∧
    location wideName 13 = ⟨1, 12⟩ ∧
    searchAscending (lineStarts wideName) 13 = .missing 1 ∧
    searchAscending (lineStarts wideName) 15 = .found 1 ∧
    ∃ before after left right,
      LineAround wideName 13 before (left ++ right) after ∧
      lineText wideName 0 = left ++ right ∧ byteLength (before ++ left) = 13 ∧
      displayWidth left = 11 := by
  have hlocation : locationBy displayWidth wideName 13 = ⟨1, 12⟩ := by decide +kernel
  have hposition : IsPosition wideName (min 13 (byteLength wideName)) := by decide
  obtain ⟨-, -, before, after, haround, -, hcut⟩ := location_exact displayWidth wideName 13
  obtain ⟨left, right, hline, hleft, hcolumn⟩ := hcut hposition
  rw [hlocation] at haround hline hcolumn
  rw [hline] at haround
  exact ⟨hposition, hlocation, by decide +kernel, by decide +kernel, before, after, left, right,
    haround, hline, hleft, (Nat.succ.inj hcolumn).symm⟩

end Tenure.Text
