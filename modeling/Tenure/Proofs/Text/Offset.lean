import Mathlib.Data.List.Basic
import Tenure.Text.Offset

/-!
# Positions in text

A position of a text is the number of bytes before one of its characters, or before its end. A text
splits at its positions and nowhere else (`splitAt?_eq_some_iff`), and what stands between two of them
can be replaced (`replaceRange_append`). The bytes of a text are those of its UTF-8 form; a newline is
one byte, and no other character has that byte in it (`count_newline_bytes`).
-/

namespace Tenure.Text

variable {text head tail left right : List Char} {n : Nat}

/-- An offset at which a character begins, or the text ends. -/
def IsPosition (text : List Char) (n : Nat) : Prop :=
  ∃ head tail, text = head ++ tail ∧ byteLength head = n

@[simp]
theorem byteLength_append (head tail : List Char) :
    byteLength (head ++ tail) = byteLength head + byteLength tail := by
  induction head with
  | nil => simp [byteLength]
  | cons c rest ih => rw [List.cons_append, byteLength, ih, byteLength, Nat.add_assoc]

theorem IsPosition.le (h : IsPosition text n) : n ≤ byteLength text := by
  obtain ⟨head, tail, rfl, rfl⟩ := h
  rw [byteLength_append]
  exact Nat.le_add_right _ _

theorem byteLength_eq_zero_iff : byteLength text = 0 ↔ text = [] := by
  cases text with
  | nil => exact ⟨fun _ => rfl, fun _ => rfl⟩
  | cons c rest =>
    have hpos := c.utf8Size_pos
    simp only [byteLength, reduceCtorEq, iff_false]
    omega

/-! ## Splitting -/

theorem splitAt?_append (head tail : List Char) :
    splitAt? (head ++ tail) (byteLength head) = some (head, tail) := by
  induction head with
  | nil => cases tail <;> rfl
  | cons c rest ih =>
    have hpos := c.utf8Size_pos
    obtain ⟨m, hm⟩ : ∃ m, byteLength (c :: rest) = m + 1 :=
      Nat.exists_eq_add_one.mpr (by rw [byteLength]; omega)
    have hrest : m + 1 - c.utf8Size = byteLength rest := by rw [← hm, byteLength]; omega
    have hle : c.utf8Size ≤ m + 1 := by rw [← hm, byteLength]; omega
    rw [List.cons_append, hm, splitAt?, if_pos hle, hrest, ih]
    rfl

/-- A text splits exactly at its positions. -/
theorem splitAt?_eq_some_iff :
    splitAt? text n = some (head, tail) ↔ text = head ++ tail ∧ byteLength head = n := by
  constructor
  · intro h
    fun_induction splitAt? text n generalizing head with
    | case1 rest =>
      obtain ⟨rfl, rfl⟩ := Prod.mk.inj (Option.some.inj h)
      exact ⟨rfl, rfl⟩
    | case2 n => cases h
    | case3 c rest n hle ih =>
      obtain ⟨⟨front, back⟩, hsplit, heq⟩ := Option.map_eq_some_iff.mp h
      obtain ⟨rfl, rfl⟩ := Prod.mk.inj heq
      obtain ⟨rfl, hlength⟩ := ih hsplit
      exact ⟨rfl, by rw [byteLength, hlength]; omega⟩
    | case4 c rest n hlt => cases h
  · rintro ⟨rfl, rfl⟩
    exact splitAt?_append head tail

theorem isSome_splitAt?_iff : (splitAt? text n).isSome ↔ IsPosition text n := by
  simp only [Option.isSome_iff_exists, Prod.exists, splitAt?_eq_some_iff, IsPosition]

instance (text : List Char) (n : Nat) : Decidable (IsPosition text n) :=
  decidable_of_iff _ isSome_splitAt?_iff

theorem slice?_append (before middle after : List Char) :
    slice? (before ++ middle ++ after) (byteLength before) (byteLength (before ++ middle)) =
      some middle := by
  rw [slice?, if_pos (by simp), splitAt?_append]
  show (splitAt? (before ++ middle) (byteLength before)).map Prod.snd = some middle
  rw [splitAt?_append]
  rfl

theorem replaceRange_append (before middle after new : List Char) :
    replaceRange (before ++ middle ++ after) (byteLength before) (byteLength (before ++ middle)) new =
      before ++ new ++ after := by
  have hstart : splitAt? (before ++ middle ++ after) (byteLength before) =
      some (before, middle ++ after) := by
    rw [List.append_assoc]
    exact splitAt?_append before (middle ++ after)
  rw [replaceRange, hstart, splitAt?_append]
  exact if_pos (by simp)

/-- Only the text between two positions, the first of them first, can be replaced. -/
theorem replaceRange_eq_self {start stop : Nat}
    (h : ¬ (start ≤ stop ∧ IsPosition text start ∧ IsPosition text stop)) (new : List Char) :
    replaceRange text start stop new = text := by
  rw [replaceRange]
  split
  next left _ _ right hstart hstop =>
    refine if_neg fun hle => h ⟨hle, ?_, ?_⟩
    · exact ⟨_, _, splitAt?_eq_some_iff.mp hstart⟩
    · exact ⟨_, _, splitAt?_eq_some_iff.mp hstop⟩
  next => rfl

/-- Of two ways to cut a text, the later one goes on from the earlier one. -/
theorem exists_append_of_le (h : head ++ tail = left ++ right)
    (hle : byteLength head ≤ byteLength left) : ∃ middle, left = head ++ middle ∧
      tail = middle ++ right := by
  rcases List.append_eq_append_iff.mp h with ⟨middle, rfl, rfl⟩ | ⟨middle, rfl, rfl⟩
  · exact ⟨middle, rfl, rfl⟩
  · rw [byteLength_append] at hle
    obtain rfl : middle = [] := byteLength_eq_zero_iff.mp (by omega)
    exact ⟨[], by simp, by simp⟩

/-! ## Bytes -/

/-- The UTF-8 form of a text. -/
def bytes (text : List Char) : List UInt8 := text.flatMap String.utf8EncodeChar

/-- The byte of a newline. -/
def newline : UInt8 := 10

theorem bytes_append (head tail : List Char) : bytes (head ++ tail) = bytes head ++ bytes tail :=
  List.flatMap_append

theorem length_bytes (text : List Char) : (bytes text).length = byteLength text := by
  induction text with
  | nil => rfl
  | cons c rest ih =>
    show (String.utf8EncodeChar c ++ bytes rest).length = c.utf8Size + byteLength rest
    rw [List.length_append, String.length_utf8EncodeChar, ih]

theorem newline_eq_ofNat_iff {n : Nat} : newline = UInt8.ofNat n ↔ n % 256 = 10 := by
  rw [← UInt8.toNat_inj, UInt8.toNat_ofNat']
  exact eq_comm

theorem eq_newline_iff {c : Char} : c = '\n' ↔ c.val.toNat = 10 := by
  rw [Char.ext_iff, ← UInt32.toNat_inj]
  rfl

theorem newline_mem_utf8EncodeChar_iff {c : Char} :
    newline ∈ String.utf8EncodeChar c ↔ c = '\n' := by
  rw [eq_newline_iff, String.utf8EncodeChar]
  -- a character of several bytes is beyond 127, and so is each of its bytes
  repeat' split
  all_goals
    simp only [List.mem_cons, newline_eq_ofNat_iff, List.not_mem_nil, or_false]
    omega

theorem utf8EncodeChar_newline : String.utf8EncodeChar '\n' = [newline] := rfl

theorem newline_mem_bytes_iff : newline ∈ bytes text ↔ '\n' ∈ text := by
  rw [bytes, List.mem_flatMap]
  constructor
  · rintro ⟨c, hc, hmem⟩
    exact newline_mem_utf8EncodeChar_iff.mp hmem ▸ hc
  · intro hmem
    exact ⟨'\n', hmem, newline_mem_utf8EncodeChar_iff.mpr rfl⟩

/-- The newlines among the bytes are those among the characters. -/
theorem count_newline_bytes (text : List Char) :
    (bytes text).count newline = text.count '\n' := by
  induction text with
  | nil => rfl
  | cons c rest ih =>
    show (String.utf8EncodeChar c ++ bytes rest).count newline = _
    rw [List.count_append, ih]
    by_cases hc : c = '\n'
    · subst hc
      rw [utf8EncodeChar_newline, List.count_singleton_self, List.count_cons_self, Nat.add_comm]
    · rw [List.count_cons_of_ne hc, List.count_eq_zero_of_not_mem, Nat.zero_add]
      exact fun hmem => hc (newline_mem_utf8EncodeChar_iff.mp hmem)

end Tenure.Text
