import Tenure.Diagnostic.Render
import Tenure.Proofs.Text.Lines

/-!
# Previews of edits

A suggestion shows, for each of its edits, the line that the edit changes as it is afterwards. For an
insertion within one line this is the line of the source with the new text in its place
(`Edit.preview_of_lineAround`). An edit whose offsets are no positions of the source changes nothing
(`Edit.apply_eq_self`).
-/

namespace Tenure

open Text

variable {e : Edit} {source : String} {before line after left right : List Char}

namespace Edit

/-- The offsets of an edit are positions of the source, the first of them first. -/
def Fits (e : Edit) (source : String) : Prop :=
  e.start ≤ e.stop ∧ IsPosition source.toList e.start ∧ IsPosition source.toList e.stop

instance (e : Edit) (source : String) : Decidable (e.Fits source) :=
  inferInstanceAs (Decidable (_ ∧ _ ∧ _))

theorem apply_eq_self (h : ¬ e.Fits source) : e.apply source = source := by
  rw [apply, replaceRange_eq_self h, String.ofList_toList]

theorem toList_apply_insertBefore {span : SourceSpan} (newText : String)
    (hsource : source.toList = left ++ right) (hstart : byteLength left = span.start) :
    ((insertBefore span newText).apply source).toList = left ++ newText.toList ++ right := by
  have happend := replaceRange_append left [] right newText.toList
  rw [List.append_nil] at happend
  show (String.ofList (replaceRange source.toList span.start span.start newText.toList)).toList = _
  rw [String.toList_ofList, hsource, ← hstart, happend]

/-- The preview is the line of the edited text in which the edit begins. -/
theorem preview_of_lineAround (h : LineAround (e.apply source).toList e.start before line after) :
    e.preview source = String.ofList line := by
  simp only [preview, Nat.min_eq_left h.le_byteLength, h.lineIndex_eq, h.lineText_eq]

end Edit

/-- A diagnostic shows the previews of all edits to files whose text there is. -/
theorem Diagnostic.preview_mem_pieces {d : Diagnostic} {s : Suggestion} {sources : Sources}
    (hs : s ∈ d.suggestions) (he : e ∈ s.edits) (hsource : sources.text? e.file = some source)
    (options : RenderOptions) :
    plainLine ("     | " ++ e.preview source) ∈ d.pieces options sources := by
  have hpieces : plainLine ("     | " ++ e.preview source) ∈ s.pieces sources := by
    refine List.mem_append_right _ (List.mem_filterMap.mpr ⟨e, he, ?_⟩)
    rw [hsource]
    rfl
  have hsuggestions : plainLine ("     | " ++ e.preview source) ∈
      d.suggestions.flatMap fun s => s.pieces sources := List.mem_flatMap.mpr ⟨s, hs, hpieces⟩
  exact List.mem_append_left _ (List.mem_append_left _ (List.mem_append_right _ hsuggestions))

/-- An insertion at a position of the source, of new text without newlines, is shown as the line of
the source that the position lies in with the new text at the position. In the edited text the lines
after the position begin later by the new text, and the search for the position ends as it does in
the source: it finds an insertion at the start of a line and no other one. An edit whose offsets are
out of range, inside a character or in the wrong order leaves the source as it is. -/
theorem Edit.preview_insertBefore (source : String) :
    (∀ (span : SourceSpan) (newText : String), IsPosition source.toList span.start →
      '\n' ∉ newText.toList → ∃ before left right after,
        LineAround source.toList span.start before (left ++ right) after ∧
        byteLength (before ++ left) = span.start ∧
        lineText source.toList (lineIndex source.toList span.start) = left ++ right ∧
        (lineStarts ((insertBefore span newText).apply source).toList).Pairwise (· < ·) ∧
        lineStarts ((insertBefore span newText).apply source).toList =
          ((lineStarts source.toList).map fun start =>
            if start ≤ span.start then start else start + byteLength newText.toList) ∧
        searchAscending (lineStarts source.toList) span.start =
          (if byteLength before = span.start then .found (before.count '\n')
          else .missing (before.count '\n' + 1)) ∧
        searchAscending (lineStarts ((insertBefore span newText).apply source).toList) span.start =
          searchAscending (lineStarts source.toList) span.start ∧
        (insertBefore span newText).preview source =
          String.ofList (left ++ newText.toList ++ right) ∧
        ∀ (d : Diagnostic) (s : Suggestion) (sources : Sources) (options : RenderOptions),
          s ∈ d.suggestions → insertBefore span newText ∈ s.edits →
          sources.text? span.file = some source →
          plainLine ("     | " ++ String.ofList (left ++ newText.toList ++ right)) ∈
            d.pieces options sources) ∧
    ∀ e : Edit, ¬ e.Fits source → e.apply source = source := by
  refine ⟨fun span newText hposition hnew => ?_, fun e => apply_eq_self⟩
  obtain ⟨before, line, after, haround⟩ := exists_lineAround hposition.le
  obtain ⟨left, right, rfl, hleft⟩ := haround.exists_cut hposition
  have hsource : source.toList = before ++ left ++ (right ++ after) := by
    rw [haround.text_eq]
    simp
  have hedited := toList_apply_insertBefore newText hsource hleft
  have hinserted : LineAround ((insertBefore span newText).apply source).toList span.start before
      (left ++ newText.toList ++ right) after := by
    rw [hedited]
    exact haround.insert hleft hnew
  have hpreview := preview_of_lineAround hinserted
  refine ⟨before, left, right, after, haround, hleft, ?_, pairwise_lineStarts _, ?_,
    haround.searchAscending_eq, ?_, hpreview, ?_⟩
  · rw [haround.lineIndex_eq, haround.lineText_eq]
  · rw [hedited, haround.lineStarts_insert hleft hnew]
  · rw [hinserted.searchAscending_eq, haround.searchAscending_eq]
  · intro d s sources options hs he hfile
    rw [← hpreview]
    exact Diagnostic.preview_mem_pieces hs he hfile options

/-- Two calls, the first of them with an ideograph, which takes three bytes. -/
def twoCalls : String :=
  String.ofList ['f', '(', '名', ')', '\n', 'g', '(', 'x', ')', '\n']

/-- The argument of the second call. -/
def secondArgument : SourceSpan := ⟨"calls", 9, 10⟩

/-- A word before the argument of the second call shows that call, and an edit inside the ideograph
changes nothing. -/
theorem twoCalls_preview : IsPosition twoCalls.toList secondArgument.start ∧
    '\n' ∉ "move ".toList ∧
    (Edit.insertBefore secondArgument "move ").preview twoCalls = "g(move x)" ∧
    (∃ before left right after,
      LineAround twoCalls.toList 9 before (left ++ right) after ∧
      byteLength (before ++ left) = 9 ∧
      (Edit.insertBefore secondArgument "move ").preview twoCalls =
        String.ofList (left ++ "move ".toList ++ right)) ∧
    ¬ (Edit.mk "calls" 3 5 "").Fits twoCalls ∧
    (Edit.mk "calls" 3 5 "").apply twoCalls = twoCalls := by
  have hposition : IsPosition twoCalls.toList secondArgument.start := by decide +kernel
  have hnew : '\n' ∉ "move ".toList := by decide
  have hoff : ¬ (Edit.mk "calls" 3 5 "").Fits twoCalls := by decide +kernel
  obtain ⟨hinsert, hself⟩ := Edit.preview_insertBefore twoCalls
  obtain ⟨before, left, right, after, haround, hleft, -, -, -, -, -, hpreview, -⟩ :=
    hinsert secondArgument "move " hposition hnew
  exact ⟨hposition, hnew, by decide +kernel,
    ⟨before, left, right, after, haround, hleft, hpreview⟩, hoff, hself _ hoff⟩

end Tenure
