import PathTyping.Proofs.Tiling

/-!
# Strings that are written to be read

Any string can be written between quotes on one line: a backslash goes before each backslash and
each quote, and a newline is written as `\n`.  What a backslash and `n` stand for is never met by
chance, as every backslash of the string has one of its own.

1. `stringTail_escape`: what is written behind the opening quote is a string's text up to the first
   quote that closes it, and the string is its value.
2. `TokenRow.scan_quoted`: whatever follows, the first token is the string, and the rest is scanned
   from behind it.
3. `TokenRow.ofText_quoted`: the written string alone is a row of one token; before another text it
   is the first token, and both together are scanned if and only if that text is.
-/

namespace PathTyping

/-! ## Writing -/

/-- What stands for a character between quotes. -/
def escape (c : Char) : List Char :=
  if c = '\\' then ['\\', '\\'] else if c = '"' then ['\\', '"'] else if c = '\n' then ['\\', 'n']
  else [c]

/-- The string, between quotes. -/
def quoted (s : String) : String := String.ofList ('"' :: s.toList.flatMap escape ++ ['"'])

theorem toList_quoted (s : String) :
    (quoted s).toList = '"' :: (s.toList.flatMap escape ++ ['"']) := String.toList_ofList

theorem newline_not_mem_escape (c : Char) : '\n' ∉ escape c := by
  unfold escape
  split
  · decide
  split
  · decide
  split
  · decide
  · next other => simpa using Ne.symm other

/-- What is written stays on its line. -/
theorem newline_not_mem_quoted (s : String) : '\n' ∉ (quoted s).toList := by
  rw [toList_quoted]
  simp [newline_not_mem_escape]

/-! ## Reading -/

theorem StringTail.escape_append {body value : List Char} (c : Char) (h : StringTail body value) :
    StringTail (PathTyping.escape c ++ body) (c :: value) := by
  unfold PathTyping.escape
  split
  · next backslash =>
    subst backslash
    exact .escape '\\' h
  split
  · next quote =>
    subst quote
    exact .escape '"' h
  split
  · next newline =>
    subst newline
    exact .escape 'n' h
  · next backslash quote newline => exact .plain quote backslash newline h

theorem stringTail_escape (cs : List Char) : StringTail (cs.flatMap escape ++ ['"']) cs := by
  induction cs with
  | nil => exact .close
  | cons c cs ih =>
    rw [List.flatMap_cons, List.append_assoc]
    exact ih.escape_append c

theorem Piece.read_quoted (place : Place) (s : String) (rest : List Char) :
    read place '"' (s.toList.flatMap escape ++ ['"'] ++ rest) =
      .ok ⟨.string s, (quoted s).toList, rest⟩ := by
  have body : stringBody? (s.toList.flatMap escape ++ ['"'] ++ rest) =
      some (s.toList, s.toList.flatMap escape ++ ['"'], rest) :=
    (stringTail_escape s.toList).stringBody?
  unfold read
  rw [if_neg (by decide), if_pos rfl, body, toList_quoted]
  dsimp only
  rw [String.ofList_toList]

/-- Where a token stands is told only if it cannot be read. -/
theorem Piece.toOption_read (place place' : Place) (c : Char) (cs : List Char) :
    (read place c cs).toOption = (read place' c cs).toOption := by
  unfold read
  split
  · rfl
  split
  · split <;> rfl
  split
  · dsimp only
    split <;> rfl
  split
  · rfl
  · split <;> rfl

namespace Place

theorem after_of_newline_not_mem {cs : List Char} (line : '\n' ∉ cs) (p : Place) :
    p.after cs = ⟨p.line, p.column + cs.length⟩ := by
  induction cs generalizing p with
  | nil => rfl
  | cons c cs ih =>
    obtain ⟨other, line⟩ := not_or.1 (mt List.mem_cons.2 line)
    rw [after_cons, ih line, next, if_neg (Ne.symm other), List.length_cons, Nat.add_right_comm,
      Nat.add_assoc]

end Place

namespace TokenRow

theorem eq_ok_of_map_cons {x : Except ScanError TokenRow} {t : Token} {row : TokenRow}
    (h : x.map (cons t) = .ok row) : ∃ behind, x = .ok behind ∧ row = cons t behind := by
  cases x with
  | error e => cases h
  | ok behind =>
    cases h
    exact ⟨behind, rfl, rfl⟩

theorem scan_of_read {place : Place} {c : Char} {cs : List Char} {p : Piece}
    (blank : ¬ isBlank c = true) (comment : ¬ c = '#') (h : Piece.read place c cs = .ok p) :
    scan place (c :: cs) = (scan (place.after p.lexeme) p.rest).map
      (cons ⟨p.kind, String.ofList p.lexeme, place⟩) := by
  rw [scan, if_neg blank, if_neg comment]
  split
  · next failed => rw [failed] at h; cases h
  · next q read => rw [read] at h; cases h; rfl

theorem scan_quoted (place : Place) (s : String) (rest : List Char) :
    scan place ((quoted s).toList ++ rest) =
      (scan (place.after (quoted s).toList) rest).map (cons ⟨.string s, quoted s, place⟩) := by
  have read := scan_of_read (by decide) (by decide) (Piece.read_quoted place s rest)
  dsimp only at read
  rw [String.ofList_toList] at read
  rw [← read, toList_quoted, List.cons_append]

/-- A text that is scanned from one place is scanned from any. -/
theorem scan_elsewhere {place : Place} {text : List Char} {row : TokenRow}
    (h : scan place text = .ok row) (place' : Place) : ∃ row', scan place' text = .ok row' := by
  fun_induction scan place text generalizing row place' with
  | case1 => exact ⟨_, scan_nil place'⟩
  | case2 place c cs blank ih =>
    obtain ⟨row', scanned⟩ := ih h (place'.next c)
    exact ⟨row', by rw [scan, if_pos blank, scanned]⟩
  | case3 place cs blank ih =>
    obtain ⟨row', scanned⟩ := ih h (place'.after ('#' :: cs.takeWhile isCommentPart))
    exact ⟨row', by rw [scan, if_neg blank, if_pos rfl, scanned]⟩
  | case4 => cases h
  | case5 place c cs blank comment p read _ ih =>
    obtain ⟨behind, scanned, -⟩ := eq_ok_of_map_cons h
    obtain ⟨row', scanned'⟩ := ih scanned (place'.after p.lexeme)
    have read' : Piece.read place' c cs = .ok p := by
      have same := Piece.toOption_read place place' c cs
      rw [read] at same
      cases found : Piece.read place' c cs with
      | error e => rw [found] at same; cases same
      | ok q => rw [found] at same; cases same; rfl
    exact ⟨_, by rw [scan_of_read blank comment read', scanned']; rfl⟩

/-- A string that is written between quotes is one token, up to the end of the text.  It is the first
token of any text that goes on behind the closing quote and is scanned, and such a text is scanned if
what it goes on with is. -/
theorem ofText_quoted (s : String) :
    ofText (quoted s) =
      .ok ⟨[⟨.string s, quoted s, Place.start⟩], ⟨1, 1 + (quoted s).length⟩⟩ ∧
    ∀ rest : String,
      (∀ row, ofText (quoted s ++ rest) = .ok row →
        row.tokens.head? = some ⟨.string s, quoted s, Place.start⟩) ∧
      ((∃ row, ofText (quoted s ++ rest) = .ok row) ↔ ∃ row, ofText rest = .ok row) := by
  have whole (rest : String) : ofText (quoted s ++ rest) =
      (scan (Place.start.after (quoted s).toList) rest.toList).map
        (cons ⟨.string s, quoted s, Place.start⟩) := by
    rw [ofText, String.toList_append, scan_quoted]
  refine ⟨?_, fun rest => ⟨fun row h => ?_, ?_, ?_⟩⟩
  · have alone := whole ""
    rw [String.append_empty, String.toList_empty, scan_nil,
      Place.after_of_newline_not_mem (newline_not_mem_quoted s), String.length_toList] at alone
    exact alone
  · rw [whole] at h
    obtain ⟨behind, -, rfl⟩ := eq_ok_of_map_cons h
    rfl
  · rintro ⟨row, h⟩
    rw [whole] at h
    obtain ⟨behind, scanned, -⟩ := eq_ok_of_map_cons h
    exact scan_elsewhere scanned Place.start
  · rintro ⟨row, h⟩
    obtain ⟨behind, scanned⟩ := scan_elsewhere h (Place.start.after (quoted s).toList)
    exact ⟨_, by rw [whole, scanned]; rfl⟩

/-- A string that ends in a backslash, with an addition behind it. -/
theorem ofText_quoted_addition :
    quoted "say \"n\"\n\\" = "\"say \\\"n\\\"\\n\\\\\"" ∧
    ∃ row, ofText ("\"say \\\"n\\\"\\n\\\\\"" ++ " + x") = .ok row ∧
      row.tokens.head? =
        some ⟨.string "say \"n\"\n\\", "\"say \\\"n\\\"\\n\\\\\"", Place.start⟩ := by
  have written : quoted "say \"n\"\n\\" = "\"say \\\"n\\\"\\n\\\\\"" := by decide +kernel
  obtain ⟨first, more⟩ := (ofText_quoted "say \"n\"\n\\").2 " + x"
  rw [written] at first more
  have scanned : (ofText " + x").toOption.isSome = true := by decide +kernel
  obtain ⟨row, scanned⟩ := more.2 <| by
    cases behind : ofText " + x" with
    | error e => rw [behind] at scanned; cases scanned
    | ok row => exact ⟨row, rfl⟩
  exact ⟨written, row, scanned, first row scanned⟩

end TokenRow

end PathTyping
