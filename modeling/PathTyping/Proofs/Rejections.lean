import PathTyping.Proofs.Tiling

/-!
# Texts that are no rows of tokens

A text is read from boundary to boundary: a boundary is its start, the end of a gap and the end of a
token, and from each boundary on the text is read as if nothing stood before it.  A text is rejected
where a boundary is followed by a character that starts nothing, or by a quote that no string
closes.

1. `stringBody?_eq_none_iff`: which quotes are left open.
2. `NumberTail.spells`: every lexeme of a number is a decimal.
3. `Piece.read_of_longest`, `Piece.read_eq_error_iff`: a token is read where a lexeme starts, and
   only there.
4. `Boundary.scan`: what stands before a boundary and what follows it are scanned apart.
5. `scan_rejects`: the texts that are rejected, where, and for what.
-/

namespace PathTyping

/-! ## Strings that are left open -/

/-- What stands behind these characters is not escaped: each backslash has its own character. -/
inductive Unescaped : List Char → Prop
  | nil : Unescaped []
  | plain {c : Char} {cs : List Char} (backslash : c ≠ '\\') (h : Unescaped cs) :
      Unescaped (c :: cs)
  | escape (c : Char) {cs : List Char} (h : Unescaped cs) : Unescaped ('\\' :: c :: cs)

/-- Behind an opening quote, every quote that is not escaped comes too late: a newline that is not
escaped stands before it. -/
def Unclosed (cs : List Char) : Prop :=
  ∀ body rest, cs = body ++ '"' :: rest → Unescaped body →
    ∃ line others, body = line ++ '\n' :: others ∧ Unescaped line

namespace Unclosed

variable {c : Char} {cs : List Char}

theorem nil : Unclosed [] := fun body rest same _ => by simp at same

theorem not_quote (cs : List Char) : ¬ Unclosed ('"' :: cs) := fun h => by
  obtain ⟨line, others, same, -⟩ := h [] cs rfl .nil
  simp at same

theorem newline (cs : List Char) : Unclosed ('\n' :: cs) := by
  intro body rest same _
  cases body with
  | nil => simp at same
  | cons d body =>
    obtain ⟨rfl, -⟩ := List.cons.inj same
    exact ⟨[], body, rfl, .nil⟩

/-- A backslash at the end closes nothing. -/
theorem backslash : Unclosed ['\\'] := by
  intro body rest same _
  cases body <;> simp at same

theorem escape_iff : Unclosed ('\\' :: c :: cs) ↔ Unclosed cs := by
  constructor
  · rintro h body rest rfl unescaped
    obtain ⟨line, others, same, before⟩ := h ('\\' :: c :: body) rest rfl (.escape c unescaped)
    cases before with
    | nil => simp at same
    | plain other _ => exact absurd (List.cons.inj same).1.symm other
    | escape d before =>
      simp only [List.cons_append, List.cons.injEq] at same
      exact ⟨_, others, same.2.2, before⟩
  · intro h body rest same unescaped
    cases unescaped with
    | nil => simp at same
    | plain other _ => exact absurd (List.cons.inj same).1.symm other
    | escape d unescaped =>
      simp only [List.cons_append, List.cons.injEq] at same
      obtain ⟨line, others, rfl, before⟩ := h _ rest same.2.2 unescaped
      exact ⟨'\\' :: d :: line, others, rfl, .escape d before⟩

theorem plain_iff (quote : c ≠ '"') (newline : c ≠ '\n') (backslash : c ≠ '\\') :
    Unclosed (c :: cs) ↔ Unclosed cs := by
  constructor
  · rintro h body rest rfl unescaped
    obtain ⟨line, others, same, before⟩ := h (c :: body) rest rfl (.plain backslash unescaped)
    cases before with
    | nil => exact absurd (List.cons.inj same).1 newline
    | plain _ before => exact ⟨_, others, (List.cons.inj same).2, before⟩
    | escape d _ => exact absurd (List.cons.inj same).1 backslash
  · intro h body rest same unescaped
    cases unescaped with
    | nil => exact absurd (List.cons.inj same).1 quote
    | plain other unescaped =>
      obtain ⟨line, others, rfl, before⟩ := h _ rest (List.cons.inj same).2 unescaped
      exact ⟨_ :: line, others, rfl, .plain other before⟩
    | escape d _ => exact absurd (List.cons.inj same).1 backslash

end Unclosed

theorem stringBody?_eq_none_iff {cs : List Char} : stringBody? cs = none ↔ Unclosed cs := by
  fun_induction stringBody? cs with
  | case1 => exact iff_of_true rfl .nil
  | case2 rest => exact iff_of_false (by simp) (Unclosed.not_quote rest)
  | case3 rest => exact iff_of_true rfl (.newline rest)
  | case4 c cs ih => rw [Option.map_eq_none_iff, ih, Unclosed.escape_iff]
  | case5 c cs quote newline escape ih =>
    rw [Option.map_eq_none_iff]
    by_cases backslash : c = '\\'
    · subst backslash
      cases cs with
      | nil => exact iff_of_true rfl .backslash
      | cons d cs => exact absurd rfl (escape d cs rfl)
    · rw [ih, Unclosed.plain_iff quote newline backslash]

/-! ## Numbers -/

/-- Digits, and a point with digits behind it. -/
inductive Spells : List Char → Prop
  | whole {cs : List Char} (digits : ∀ c ∈ cs, Decimal.isDigit c = true) : Spells cs
  | point {cs fraction : List Char} (digits : ∀ c ∈ cs, Decimal.isDigit c = true)
      (digits' : ∀ c ∈ fraction, Decimal.isDigit c = true) : Spells (cs ++ '.' :: fraction)

theorem Spells.cons {c : Char} {cs : List Char} (digit : Decimal.isDigit c = true) (h : Spells cs) :
    Spells (c :: cs) := by
  cases h with
  | whole digits => exact .whole (List.forall_mem_cons.2 ⟨digit, digits⟩)
  | point digits digits' => exact .point (List.forall_mem_cons.2 ⟨digit, digits⟩) digits'

theorem NumberTail.digits {cs : List Char} (h : NumberTail false cs) :
    ∀ c ∈ cs.filter (· != '_'), Decimal.isDigit c = true := by
  generalize point : false = b at h
  induction h with
  | nil => nofun
  | digit digit h ih =>
    intro d hd
    obtain ⟨mem, other⟩ := List.mem_filter.1 hd
    rcases List.mem_cons.1 mem with rfl | mem
    · exact digit.resolve_right (by simpa using other)
    · exact ih point d (List.mem_filter.2 ⟨mem, other⟩)
  | point => cases point

theorem NumberTail.spells {cs : List Char} (h : NumberTail true cs) :
    Spells (cs.filter (· != '_')) := by
  generalize point : true = b at h
  induction h with
  | nil => exact .whole nofun
  | @digit _ c cs digit h ih =>
    by_cases blank : c = '_'
    · rw [List.filter_cons_of_neg (by simp [blank])]
      exact ih point
    · rw [List.filter_cons_of_pos (by simp [blank])]
      exact (ih point).cons (digit.resolve_right blank)
  | point digit h =>
    rw [List.filter_cons_of_pos (by decide)]
    exact @Spells.point [] _ nofun h.digits

theorem toLower_digit {c : Char} (digit : Decimal.isDigit c = true) : c.toLower = c := by
  simp only [Decimal.isDigit, Bool.and_eq_true, decide_eq_true_eq] at digit
  have small : c.val ≤ '9'.val := digit.2
  refine dif_neg ?_
  rintro ⟨large, -⟩
  exact absurd (UInt32.le_trans large small) (by decide)

/-- What starts with a digit is a decimal and no word for one. -/
theorem readUnsigned?_digit {c : Char} (digit : Decimal.isDigit c = true) (cs : List Char) :
    Decimal.readUnsigned? (c :: cs) = Decimal.readMagnitude? (c :: cs) := by
  have i : c ≠ 'i' := by rintro rfl; exact absurd digit (by decide)
  have n : c ≠ 'n' := by rintro rfl; exact absurd digit (by decide)
  rw [Decimal.readUnsigned?, List.map_cons, toLower_digit digit]
  split <;> simp_all

theorem read?_digit {c : Char} (digit : Decimal.isDigit c = true) (cs : List Char) :
    Decimal.read? (c :: cs) = Decimal.readUnsigned? (c :: cs) := by
  unfold Decimal.read?
  split
  · next same => cases same; exact absurd digit (by decide)
  · next same => cases same; exact absurd digit (by decide)
  · rfl

/-- Digits, and perhaps a point and digits behind it, are a decimal. -/
theorem Spells.readMagnitude? {c : Char} {cs : List Char} (digit : Decimal.isDigit c = true)
    (h : Spells cs) : (Decimal.readMagnitude? (c :: cs)).isSome = true := by
  unfold Decimal.readMagnitude?
  cases h with
  | whole digits =>
    have all : ∀ d ∈ c :: cs, Decimal.isDigit d = true := List.forall_mem_cons.2 ⟨digit, digits⟩
    rw [List.takeWhile_eq_self_iff.2 all, List.dropWhile_eq_nil_iff.2 all]
    rfl
  | @point whole fraction digits digits' =>
    have all : ∀ d ∈ c :: whole, Decimal.isDigit d = true :=
      List.forall_mem_cons.2 ⟨digit, digits⟩
    have taken : (c :: (whole ++ '.' :: fraction)).takeWhile Decimal.isDigit = c :: whole := by
      rw [← List.cons_append, List.takeWhile_append_of_pos all]
      simp [Decimal.isDigit]
    have left : (c :: (whole ++ '.' :: fraction)).dropWhile Decimal.isDigit = '.' :: fraction := by
      rw [← List.cons_append, List.dropWhile_append_of_pos all]
      simp [Decimal.isDigit]
    simp only [taken, left, List.takeWhile_eq_self_iff.2 digits',
      List.dropWhile_eq_nil_iff.2 digits']
    rfl

/-- A lexeme of a number, without its underscores, is a decimal. -/
theorem TokenClass.read?_number {lexeme : List Char} (h : number.Has lexeme) :
    ∃ value, Decimal.read? (lexeme.filter (· != '_')) = some value := by
  cases h with
  | @number c cs digit tail =>
    have other : c ≠ '_' := by rintro rfl; exact absurd digit (by decide)
    rw [List.filter_cons_of_pos (by simp [other]), read?_digit digit, readUnsigned?_digit digit]
    exact Option.isSome_iff_exists.1 (tail.spells.readMagnitude? digit)

/-! ## One token -/

/-- Nothing that a text is made of starts with this character. -/
structure StartsNothing (c : Char) : Prop where
  blank : c ≠ ' ' ∧ c ≠ '\t' ∧ c ≠ '\r'
  comment : c ≠ '#'
  token : ∀ (k : TokenClass) lexeme, k.Has lexeme → lexeme.head? ≠ some c

/-- Why a text cannot be read on from where it is. -/
inductive Stuck (place : Place) : List Char → ScanError → Prop
  | character {c : Char} (rest : List Char) (h : StartsNothing c) :
      Stuck place (c :: rest) (.unexpectedCharacter c place)
  | string {rest : List Char} (h : Unclosed rest) :
      Stuck place ('"' :: rest) (.unterminatedString place)

namespace TokenClass

variable {k : TokenClass} {lexeme lexeme' text : List Char} {c : Char} {cs : List Char}

theorem Longest.unique (h : k.Longest lexeme text) (h' : k.Longest lexeme' text) :
    lexeme = lexeme' := by
  refine (List.prefix_of_prefix_length_le h.starts h'.starts ?_).eq_of_length ?_
  · exact h'.longest _ h.has h.starts
  · exact (h'.longest _ h.has h.starts).antisymm (h.longest _ h'.has h'.starts)

/-- No token starts with a blank or with the mark of a comment. -/
theorem Has.head (h : k.Has lexeme) (head : lexeme.head? = some c) :
    isBlank c = false ∧ c ≠ '#' := by
  have apart {p : Char → Bool} (holds : p c = true)
      (fails : [' ', '\t', '\r', '#'].any p = false) : isBlank c = false ∧ c ≠ '#' := by
    have other : ∀ d ∈ [' ', '\t', '\r', '#'], c ≠ d := fun d hd same =>
      List.any_eq_false.1 fails d hd (same ▸ holds)
    simpa [isBlank, and_assoc] using other
  cases h with
  | newline | string => cases head; decide
  | number digit => cases head; exact apart digit (by decide)
  | word start => cases head; exact apart start (by decide)
  | mark m => cases m <;> cases head <;> decide

/-- Where a lexeme starts, its first character is one, unless it opens a string. -/
theorem Has.shortest (h : k.Has lexeme) (head : lexeme.head? = some c) (quote : c ≠ '"') :
    k.Has [c] := by
  cases h with
  | newline => cases head; exact .newline
  | string => cases head; exact absurd rfl quote
  | number digit => cases head; exact .number digit (.nil true)
  | word start => cases head; exact .word start nofun
  | mark m =>
    have alone : ∀ m ∈ Mark.all, ∃ m' ∈ Mark.all, m'.spelling = m.spelling.take 1 := by decide
    obtain ⟨m', -, same⟩ := alone m m.mem_all
    obtain ⟨rest, starts⟩ := List.head?_eq_some_iff.1 head
    have single : m'.spelling = [c] := by rw [same, starts]; rfl
    exact single ▸ Has.mark m'

end TokenClass

namespace Piece

variable {place : Place} {k : TokenClass} {lexeme rest : List Char} {c : Char} {cs : List Char}
  {e : ScanError}

/-- No word starts with a digit. -/
theorem isDigit_of_isWordStart (start : isWordStart c = true) : Decimal.isDigit c = false := by
  refine Bool.eq_false_iff.2 fun digit => ?_
  simp only [Decimal.isDigit, isWordStart, Bool.and_eq_true, Bool.or_eq_true, decide_eq_true_eq,
    beq_iff_eq, Char.le_def, UInt32.le_iff_toNat_le] at start digit
  rcases start with (⟨low, -⟩ | ⟨low, -⟩) | rfl
  · exact absurd (low.trans digit.2) (by decide)
  · exact absurd (low.trans digit.2) (by decide)
  · exact absurd digit.2 (by decide)

variable (place) in
/-- Where a lexeme of a class starts, a token of that class is read. -/
theorem exists_read_of_has (h : k.Has lexeme) (starts : lexeme <+: c :: cs) :
    ∃ p, read place c cs = .ok p ∧ p.kind.class = k := by
  cases h with
  | newline =>
    obtain ⟨rfl, -⟩ := List.cons_prefix_cons.1 starts
    exact ⟨_, rfl, rfl⟩
  | @string body value tail =>
    obtain ⟨rfl, rest, rfl⟩ := List.cons_prefix_cons.1 starts
    refine ⟨⟨.string (String.ofList value), '"' :: body, rest⟩, ?_, rfl⟩
    rw [read, if_neg (by decide), if_pos rfl, tail.stringBody?]
  | @number c _ digit tail =>
    obtain ⟨rfl, -⟩ := List.cons_prefix_cons.1 starts
    obtain ⟨value, spelled⟩ := TokenClass.read?_number (TokenClass.longest_number cs digit).has
    refine ⟨⟨.number value, c :: (numberRun false cs).1, (numberRun false cs).2⟩, ?_, rfl⟩
    rw [read, if_neg (by rintro rfl; exact absurd digit (by decide)),
      if_neg (by rintro rfl; exact absurd digit (by decide)), if_pos digit]
    simp only [spelled]
  | @word c _ start parts =>
    obtain ⟨rfl, -⟩ := List.cons_prefix_cons.1 starts
    let lexeme := c :: cs.takeWhile isWordPart
    refine ⟨⟨wordKind (String.ofList lexeme), lexeme, cs.dropWhile isWordPart⟩, ?_,
      class_wordKind _⟩
    rw [read, if_neg (by rintro rfl; exact absurd start (by decide)),
      if_neg (by rintro rfl; exact absurd start (by decide)),
      if_neg (by simp [isDigit_of_isWordStart start]), if_pos start]
  | mark m =>
    have apart : c ≠ '\n' ∧ c ≠ '"' ∧ Decimal.isDigit c = false ∧ isWordStart c = false := by
      cases m <;> (obtain ⟨rfl, -⟩ := List.cons_prefix_cons.1 starts; decide)
    obtain ⟨newline, quote, digit, start⟩ := apart
    rw [read, if_neg newline, if_neg quote, if_neg (by simp [digit]), if_neg (by simp [start])]
    cases found : Mark.read? (c :: cs) with
    | some m' => exact ⟨_, rfl, rfl⟩
    | none =>
      have missed := List.find?_eq_none.1 found m m.mem_all
      exact absurd (List.isPrefixOf_iff_prefix.2 starts) missed

variable (place) in
/-- Where the text starts with a lexeme of a class, the longest of them is read. -/
theorem read_of_longest (h : k.Longest lexeme (lexeme ++ rest)) (whole : lexeme ++ rest = c :: cs) :
    ∃ p, read place c cs = .ok p ∧ p.lexeme = lexeme ∧ p.rest = rest := by
  obtain ⟨p, read, same⟩ := exists_read_of_has place h.has (whole ▸ h.starts)
  have longest := (read_longest read).1
  rw [same, ← whole] at longest
  have lexemes := longest.unique h
  have split := read_split read
  rw [lexemes, ← whole] at split
  exact ⟨p, read, lexemes, List.append_cancel_left split⟩

theorem stuck_of_read (blank : isBlank c = false) (comment : c ≠ '#')
    (failed : read place c cs = .error e) : Stuck place (c :: cs) e := by
  have never {k : TokenClass} (h : k.Has [c]) : False := by
    have starts : [c] <+: c :: cs := ⟨cs, rfl⟩
    obtain ⟨p, read, -⟩ := exists_read_of_has place h starts
    rw [failed] at read
    cases read
  unfold read at failed
  split at failed
  · cases failed
  split at failed
  · next quote =>
    subst quote
    split at failed
    · cases failed
    · next left =>
      cases failed
      exact .string (stringBody?_eq_none_iff.1 left)
  next quote =>
  have nothing : StartsNothing c := by
    refine ⟨by simpa [isBlank, and_assoc] using blank, comment, fun k lexeme h head => ?_⟩
    exact never (h.shortest head quote)
  split at failed
  · next digit => exact (never (.number digit (.nil true))).elim
  split at failed
  · cases failed
  split at failed
  · cases failed
  · cases failed
    exact .character cs nothing

/-- No token is read where the text is stuck, and only there. -/
theorem read_eq_error_iff (blank : isBlank c = false) (comment : c ≠ '#') :
    read place c cs = .error e ↔ Stuck place (c :: cs) e := by
  refine ⟨stuck_of_read blank comment, fun stuck => ?_⟩
  cases stuck with
  | string left => rw [read, if_neg (by decide), if_pos rfl, stringBody?_eq_none_iff.2 left]
  | character rest nothing =>
    cases started : read place c cs with
    | ok p =>
      obtain ⟨lexeme, split⟩ := (read_longest started).1.starts
      have head : p.lexeme.head? = some c := by
        cases here : p.lexeme with
        | nil => exact absurd here (read_lexeme_ne_nil started)
        | cons d ds =>
          rw [here] at split
          exact congrArg some (List.cons.inj split).1
      exact absurd head (nothing.token _ _ (read_longest started).1.has)
    | error e' =>
      cases stuck_of_read blank comment started with
      | character => rfl
      | string left => exact absurd rfl (nothing.token .string ['"', '"'] (.string .close))

end Piece

/-! ## From boundary to boundary -/

/-- A boundary between tokens, behind `before`: what stands before it are gaps and tokens, each of
which takes the longest lexeme of its class, with `rest` behind the last. -/
inductive Boundary : List Char → List Char → Prop
  | start (text : List Char) : Boundary [] text
  | gap {before gap rest : List Char} (h : Boundary before (gap ++ rest)) (gap_ : Gap gap rest) :
      Boundary (before ++ gap) rest
  | token {before lexeme rest : List Char} {k : TokenClass} (h : Boundary before (lexeme ++ rest))
      (longest : k.Longest lexeme (lexeme ++ rest)) : Boundary (before ++ lexeme) rest

/-- A gap stays one when the text ends earlier. -/
theorem Gap.shrink {gap rest rest' : List Char} (h : Gap gap rest) (starts : rest' <+: rest) :
    Gap gap rest' := by
  induction h with
  | nil => exact .nil _
  | blank blank h ih => exact .blank blank (ih starts)
  | comment line ends =>
    refine .comment line fun c hc => ends c ?_
    obtain ⟨tail, rfl⟩ := starts
    simp [Option.mem_def.1 hc]

theorem TokenClass.Longest.shrink {k : TokenClass} {lexeme rest rest' : List Char}
    (h : k.Longest lexeme (lexeme ++ rest)) (starts : rest' <+: rest) :
    k.Longest lexeme (lexeme ++ rest') := by
  have shorter : lexeme ++ rest' <+: lexeme ++ rest := List.prefix_append_right_inj _ |>.2 starts
  exact ⟨h.has, ⟨rest', rfl⟩, fun other has here => h.longest other has (here.trans shorter)⟩

namespace TokenRow

variable {place : Place} {before gap lexeme rest text : List Char} {k : TokenClass} {e : ScanError}

/-- The row with these tokens before its own. -/
def prepend (ts : List Token) (row : TokenRow) : TokenRow := ⟨ts ++ row.tokens, row.finish⟩

variable (place) in
/-- A gap is passed over. -/
theorem scan_gap (h : Gap gap rest) : scan place (gap ++ rest) = scan (place.after gap) rest := by
  induction h generalizing place with
  | nil => rfl
  | blank blank h ih =>
    rw [List.cons_append, scan, if_pos (by simpa [isBlank, or_assoc] using blank), ih]
    rfl
  | @comment body rest line ends =>
    have whole : ∀ c ∈ body, isCommentPart c = true := fun c hc => by
      simpa [isCommentPart] using fun same : c = '\n' => line (same ▸ hc)
    have stops : rest.takeWhile isCommentPart = [] ∧ rest.dropWhile isCommentPart = rest := by
      cases rest with
      | nil => exact ⟨rfl, rfl⟩
      | cons d rest => simp [isCommentPart, ends d rfl]
    have taken : (body ++ rest).takeWhile isCommentPart = body := by
      rw [List.takeWhile_append_of_pos whole, stops.1, List.append_nil]
    have left : (body ++ rest).dropWhile isCommentPart = rest := by
      rw [List.dropWhile_append_of_pos whole, stops.2]
    rw [List.cons_append, scan, if_neg (by decide), if_pos rfl, taken, left]

variable (place) in
/-- A lexeme that is the longest of its class becomes a token. -/
theorem scan_token (h : k.Longest lexeme (lexeme ++ rest)) :
    ∃ t, scan place (lexeme ++ rest) = (scan (place.after lexeme) rest).map (cons t) := by
  obtain ⟨c, cs, whole⟩ : ∃ c cs, lexeme ++ rest = c :: cs :=
    List.exists_cons_of_ne_nil (by simp [h.has.ne_nil])
  have head : lexeme.head? = some c := by
    obtain ⟨d, ds, rfl⟩ := List.exists_cons_of_ne_nil h.has.ne_nil
    exact congrArg some (List.cons.inj whole).1
  obtain ⟨blank, comment⟩ := h.has.head head
  obtain ⟨p, read, rfl, rfl⟩ := Piece.read_of_longest place h whole
  refine ⟨⟨p.kind, String.ofList p.lexeme, place⟩, ?_⟩
  rw [whole, scan, if_neg (by simp [blank]), if_neg comment]
  split
  · next failed => rw [failed] at read; cases read
  · next p' read' => rw [read'] at read; cases read; rfl

/-- Where the text is stuck, nothing is scanned. -/
theorem scan_stuck (h : Stuck place text e) : scan place text = .error e := by
  have here : ∃ c cs, text = c :: cs ∧ isBlank c = false ∧ c ≠ '#' := by
    cases h with
    | character rest nothing =>
      exact ⟨_, rest, rfl, by simpa [isBlank, and_assoc] using nothing.blank, nothing.comment⟩
    | string => exact ⟨_, _, rfl, by decide, by decide⟩
  obtain ⟨c, cs, rfl, blank, comment⟩ := here
  have failed := (Piece.read_eq_error_iff blank comment).2 h
  rw [scan, if_neg (by simp [blank]), if_neg comment]
  split
  · next failed' => rw [failed'] at failed; cases failed; rfl
  · next read => rw [read] at failed; cases failed

end TokenRow

/-- What stands before a boundary is scanned as it is, and what is behind it from there on, however
much of that there is. -/
theorem Boundary.scan {before rest rest' : List Char} (h : Boundary before rest)
    (starts : rest' <+: rest) : ∃ ts, TokenRow.scan Place.start (before ++ rest') =
      (TokenRow.scan (Place.behind before) rest').map (TokenRow.prepend ts) := by
  induction h generalizing rest' with
  | start text =>
    refine ⟨[], ?_⟩
    show TokenRow.scan Place.start rest' = (TokenRow.scan Place.start rest').map id
    rw [Except.map_id]
    rfl
  | @gap before gap rest h gap_ ih =>
    obtain ⟨ts, apart⟩ := ih (List.prefix_append_right_inj gap |>.2 starts)
    refine ⟨ts, ?_⟩
    rw [List.append_assoc, apart, TokenRow.scan_gap _ (gap_.shrink starts), Place.behind_append]
  | @token before lexeme rest k h longest ih =>
    obtain ⟨ts, apart⟩ := ih (List.prefix_append_right_inj lexeme |>.2 starts)
    obtain ⟨t, read⟩ := TokenRow.scan_token (Place.behind before) (longest.shrink starts)
    refine ⟨ts ++ [t], ?_⟩
    rw [List.append_assoc, apart, read, Place.behind_append]
    cases TokenRow.scan ((Place.behind before).after lexeme) rest' with
    | error e => rfl
    | ok row => simp [Except.map, TokenRow.prepend, TokenRow.cons]

/-- A text that is not scanned is stuck at a boundary. -/
theorem TokenRow.stuck_of_scan {place : Place} {before text : List Char} {e : ScanError}
    (failed : scan place text = .error e) (reached : Boundary before text)
    (at_ : place = Place.behind before) : ∃ before' rest, before ++ text = before' ++ rest ∧
      Boundary before' rest ∧ Stuck (Place.behind before') rest e := by
  fun_induction scan place text generalizing before with
  | case1 => cases failed
  | case2 place c cs blank ih =>
    have blank : c = ' ' ∨ c = '\t' ∨ c = '\r' := by simpa [isBlank, or_assoc] using blank
    have next : Boundary (before ++ [c]) cs := .gap reached (.blank blank (.nil cs))
    obtain ⟨before', rest, split, stuck⟩ := ih failed next (by rw [at_, Place.behind_snoc])
    exact ⟨before', rest, by rw [← split, List.append_assoc]; rfl, stuck⟩
  | case3 place cs _ ih =>
    have whole : '#' :: cs = ('#' :: cs.takeWhile isCommentPart) ++ cs.dropWhile isCommentPart := by
      simp
    rw [whole] at reached ⊢
    have next := Boundary.gap reached (.ofComment cs)
    obtain ⟨before', rest, split, stuck⟩ := ih failed next (by rw [at_, Place.behind_append])
    exact ⟨before', rest, by rw [← split, List.append_assoc], stuck⟩
  | case4 place c cs blank comment e' read =>
    cases failed
    subst at_
    exact ⟨before, c :: cs, rfl, reached,
      Piece.stuck_of_read (by simpa using blank) comment read⟩
  | case5 place c cs blank comment p read shorter ih =>
    have longest := (Piece.read_longest read).1
    rw [← Piece.read_split read] at reached longest ⊢
    cases behind : scan (place.after p.lexeme) p.rest with
    | ok row => rw [behind] at failed; cases failed
    | error e' =>
      rw [behind] at failed
      cases failed
      obtain ⟨before', rest, split, stuck⟩ :=
        ih behind (.token reached longest) (by rw [at_, Place.behind_append])
      exact ⟨before', rest, by rw [← split, List.append_assoc], stuck⟩

theorem Stuck.ne_invalidNumber {place place' : Place} {rest : List Char} {lexeme : String} :
    ¬ Stuck place rest (.invalidNumber lexeme place') := nofun

/-- A text is rejected exactly where a boundary between tokens is followed by what starts nothing,
or by a string that is left open; the error is put there.  What stands before the boundary is a text
of its own, and no number is at fault. -/
theorem scan_rejects (text : String) :
    (∀ e, TokenRow.ofText text = .error e ↔
      ∃ before rest, text.toList = before ++ rest ∧ Boundary before rest ∧
        Stuck (Place.behind before) rest e) ∧
      (∀ before rest, text.toList = before ++ rest → Boundary before rest →
        ∃ row, TokenRow.ofText (String.ofList before) = .ok row ∧
          row.finish = Place.behind before) ∧
      ∀ lexeme place, TokenRow.ofText text ≠ .error (.invalidNumber lexeme place) := by
  have rejected (e : ScanError) : TokenRow.ofText text = .error e ↔
      ∃ before rest, text.toList = before ++ rest ∧ Boundary before rest ∧
        Stuck (Place.behind before) rest e := by
    constructor
    · exact fun failed => TokenRow.stuck_of_scan failed (.start _) rfl
    · rintro ⟨before, rest, split, reached, stuck⟩
      obtain ⟨ts, apart⟩ := reached.scan (List.prefix_refl rest)
      rw [TokenRow.ofText, split, apart, TokenRow.scan_stuck stuck]
      rfl
  refine ⟨rejected, fun before rest _ reached => ?_, fun lexeme place failed => ?_⟩
  · obtain ⟨ts, apart⟩ := reached.scan (List.nil_prefix (l := rest))
    rw [List.append_nil, TokenRow.scan_nil] at apart
    exact ⟨_, (TokenRow.ofText_of_eq_ofList rfl).trans apart, rfl⟩
  · obtain ⟨before, rest, -, -, stuck⟩ := (rejected _).1 failed
    exact stuck.ne_invalidNumber

end PathTyping
