import Mathlib.Data.List.TakeWhile
import PathTyping.Token.Scan

/-!
# Tokens cover their text

A scanned text is gap, lexeme, gap, lexeme and so on, up to a last gap.  A gap is made of blanks and
of comments; a lexeme is the longest that its class allows where it starts.  A token stands where
counting the newlines and the characters before it puts it.

1. `Place.behind` counts what stands before a place; `behind_append` is that the scanner keeps
   count.
2. `Piece.read_longest`: a token takes the longest lexeme of its class.
3. `Tiles` says that a row covers a text; `TokenRow.scan_tiles` goes along the scanner.
-/

namespace PathTyping

/-! ## Places -/

namespace Place

/-- The place behind the text `before`: lines are counted by newlines, columns by the characters
since the last of them. -/
def behind (before : List Char) : Place :=
  ⟨1 + before.count '\n', 1 + (before.reverse.takeWhile (· != '\n')).length⟩

theorem behind_snoc (before : List Char) (c : Char) :
    behind (before ++ [c]) = (behind before).next c := by
  by_cases newline : c = '\n'
  · simp [behind, next, newline, Nat.add_assoc]
  · have other : ('\n' == c) = false := by simpa using Ne.symm newline
    simp [behind, next, newline, Nat.add_comm]

theorem behind_append (before cs : List Char) :
    behind (before ++ cs) = (behind before).after cs := by
  induction cs generalizing before with
  | nil => simp
  | cons c cs ih => rw [List.append_cons, ih, behind_snoc, after_cons]

end Place

/-! ## Gaps -/

/-- What may stand before `rest` without being a token: blanks, and a comment that runs up to the
next newline or to the end. -/
inductive Gap : List Char → List Char → Prop
  | nil (rest : List Char) : Gap [] rest
  | blank {c : Char} {gap rest : List Char} (blank : c = ' ' ∨ c = '\t' ∨ c = '\r')
      (h : Gap gap rest) : Gap (c :: gap) rest
  | comment {body rest : List Char} (line : '\n' ∉ body) (ends : ∀ c ∈ rest.head?, c = '\n') :
      Gap ('#' :: body) rest

/-- No gap starts with a newline. -/
theorem Gap.eq_nil {gap rest : List Char} (h : Gap gap rest)
    (newline : ∀ c ∈ gap.head?, c = '\n') : gap = [] := by
  cases h with
  | nil => rfl
  | blank blank h => simp [newline _ rfl] at blank
  | comment line ends => exact absurd (newline _ rfl) (by decide)

theorem Gap.append {gap gap' rest : List Char} (h : Gap gap (gap' ++ rest)) (h' : Gap gap' rest) :
    Gap (gap ++ gap') rest := by
  generalize whole : gap' ++ rest = behind at h
  induction h with
  | nil => exact h'
  | blank blank h ih => exact .blank blank (ih whole)
  | comment line ends =>
    subst whole
    -- Behind a comment stands a newline, which starts no gap.
    obtain rfl := h'.eq_nil fun c hc => ends c (by simp [Option.mem_def.1 hc])
    simpa using Gap.comment line ends

/-- A comment is passed over up to the next newline. -/
theorem Gap.ofComment (cs : List Char) :
    Gap ('#' :: cs.takeWhile isCommentPart) (cs.dropWhile isCommentPart) := by
  refine .comment (fun mem => ?_) fun c hc => ?_
  · simpa [isCommentPart] using List.mem_takeWhile_imp mem
  · have ends := List.head?_dropWhile_not isCommentPart cs
    rw [hc] at ends
    simpa [isCommentPart] using ends

/-! ## Classes of lexemes -/

/-- The kinds of tokens that are scanned in one way. -/
inductive TokenClass
  | newline
  | string
  | number
  | word
  | mark

def TokenKind.class : TokenKind → TokenClass
  | .newline => .newline
  | .string _ => .string
  | .number _ => .number
  | .mark _ => .mark
  | .identifier | .boolean _ | .keyword _ => .word

/-- A string behind its opening quote, and its value. -/
inductive StringTail : List Char → List Char → Prop
  | close : StringTail ['"'] []
  | escape (c : Char) {body value : List Char} (h : StringTail body value) :
      StringTail ('\\' :: c :: body) (unescape c :: value)
  | plain {c : Char} {body value : List Char} (quote : c ≠ '"') (backslash : c ≠ '\\')
      (newline : c ≠ '\n') (h : StringTail body value) : StringTail (c :: body) (c :: value)

/-- A number behind its first digit: digits, underscores and, where `point` allows for it, one
point that a digit follows. -/
inductive NumberTail : Bool → List Char → Prop
  | nil (point : Bool) : NumberTail point []
  | digit {point : Bool} {c : Char} {cs : List Char} (digit : Decimal.isDigit c = true ∨ c = '_')
      (h : NumberTail point cs) : NumberTail point (c :: cs)
  | point {c : Char} {cs : List Char} (digit : Decimal.isDigit c = true)
      (h : NumberTail false (c :: cs)) : NumberTail true ('.' :: c :: cs)

/-- The lexemes of a class. -/
inductive TokenClass.Has : TokenClass → List Char → Prop
  | newline : Has newline ['\n']
  | string {body value : List Char} (h : StringTail body value) : Has string ('"' :: body)
  | number {c : Char} {cs : List Char} (digit : Decimal.isDigit c = true)
      (h : NumberTail true cs) : Has number (c :: cs)
  | word {c : Char} {cs : List Char} (start : isWordStart c = true)
      (h : ∀ d ∈ cs, isWordPart d = true) : Has word (c :: cs)
  | mark (m : Mark) : Has mark m.spelling

theorem TokenClass.Has.ne_nil {k : TokenClass} {cs : List Char} (h : k.Has cs) : cs ≠ [] := by
  cases h with
  | mark m => exact m.spelling_ne_nil
  | _ => exact List.cons_ne_nil _ _

/-- What a lexeme says, as a token of the kind. -/
def TokenKind.Reads (lexeme : List Char) : TokenKind → Prop
  | .newline => True
  | .string value => ∃ body, lexeme = '"' :: body ∧ StringTail body value.toList
  | .number value => Decimal.read? (lexeme.filter (· != '_')) = some value
  | .mark m => lexeme = m.spelling
  | kind => kind = wordKind (String.ofList lexeme)

/-- The longest lexeme of the class that the text starts with. -/
structure TokenClass.Longest (k : TokenClass) (lexeme text : List Char) : Prop where
  has : k.Has lexeme
  starts : lexeme <+: text
  longest : ∀ other, k.Has other → other <+: text → other.length ≤ lexeme.length

/-! ### Each class -/

/-- A string ends where it first can. -/
theorem StringTail.stringBody? {body value rest : List Char} (h : StringTail body value) :
    stringBody? (body ++ rest) = some (value, body, rest) := by
  induction h with
  | close => rfl
  | escape c h ih => simp [PathTyping.stringBody?, ih]
  | plain quote backslash newline h ih =>
    rw [List.cons_append, PathTyping.stringBody?, ih]
    · rfl
    · exact quote
    · exact newline
    · exact fun _ _ same _ => backslash same

theorem StringTail.of_stringBody? {cs value lexeme rest : List Char}
    (h : PathTyping.stringBody? cs = some (value, lexeme, rest)) : StringTail lexeme value := by
  fun_induction PathTyping.stringBody? cs generalizing value lexeme rest with
  | case1 => cases h
  | case2 => cases h; exact .close
  | case3 => cases h
  | case4 c cs ih =>
    obtain ⟨⟨v, l, r⟩, body, same⟩ := Option.map_eq_some_iff.1 h
    cases same
    exact .escape c (ih body)
  | case5 c cs quote newline escape ih =>
    obtain ⟨⟨v, l, r⟩, body, same⟩ := Option.map_eq_some_iff.1 h
    cases same
    refine .plain quote (fun backslash => ?_) newline (ih body)
    -- A backslash at the end of the text leaves the string open.
    cases cs with
    | nil => cases body
    | cons d cs => exact escape d cs backslash rfl

theorem numberRun_digit {c : Char} (pointed : Bool) (cs : List Char)
    (digit : Decimal.isDigit c = true ∨ c = '_') :
    numberRun pointed (c :: cs) =
      (c :: (numberRun pointed cs).1, (numberRun pointed cs).2) := by
  rw [numberRun.eq_def]
  split
  · simp_all
  · next same =>
    cases same
    rcases digit with digit | digit <;> exact absurd digit (by decide)
  · next same => cases same; simp_all

theorem NumberTail.length_le {point : Bool} {other rest : List Char} (h : NumberTail point other) :
    other.length ≤ (numberRun (!point) (other ++ rest)).1.length := by
  induction h with
  | nil => exact Nat.zero_le _
  | digit digit h ih =>
    rw [List.cons_append, numberRun_digit _ _ digit]
    exact Nat.succ_le_succ ih
  | point digit h ih =>
    rw [List.cons_append, List.cons_append, numberRun, if_pos (by simp [digit])]
    exact Nat.succ_le_succ ih

theorem NumberTail.numberRun (pointed : Bool) (cs : List Char) :
    NumberTail (!pointed) (numberRun pointed cs).1 := by
  fun_induction PathTyping.numberRun pointed cs with
  | case1 => exact .nil _
  | case2 pointed c cs h run ih =>
    simp only [Bool.and_eq_true, Bool.not_eq_true'] at h
    simp only [run, numberRun_digit true cs (.inl h.2), Bool.not_true, h.1, Bool.not_false] at ih ⊢
    exact .point h.2 ih
  | case3 => exact .nil _
  | case4 pointed c cs _ h run ih => exact .digit (by simpa using h) ih
  | case5 => exact .nil _

theorem Mark.length_le_of_read? {cs : List Char} {m n : Mark} (h : Mark.read? cs = some m)
    (starts : n.spelling <+: cs) : n.spelling.length ≤ m.spelling.length := by
  have falling : Mark.all.Pairwise fun m n => n.spelling.length ≤ m.spelling.length := by decide
  obtain ⟨found, as, bs, split, missed⟩ := List.find?_eq_some_iff_append.1 h
  have listed := n.mem_all
  rw [split] at listed falling
  rcases List.mem_append.1 listed with first | last
  · have := missed n first
    simp [List.isPrefixOf_iff_prefix.2 starts] at this
  · rcases List.mem_cons.1 last with rfl | later
    · exact le_rfl
    · exact List.rel_of_pairwise_cons (List.pairwise_append.1 falling).2.1 later

namespace TokenClass

theorem longest_newline (cs : List Char) : newline.Longest ['\n'] ('\n' :: cs) :=
  ⟨.newline, ⟨cs, rfl⟩, fun _ has _ => by cases has; exact le_rfl⟩

theorem longest_string {cs value lexeme rest : List Char}
    (h : stringBody? cs = some (value, lexeme, rest)) :
    string.Longest ('"' :: lexeme) ('"' :: cs) := by
  refine ⟨.string (StringTail.of_stringBody? h), ⟨rest, ?_⟩, fun other has starts => ?_⟩
  · rw [List.cons_append, Piece.stringBody?_split h]
  · obtain ⟨behind, split⟩ := starts
    cases has with
    | string tail =>
      rw [List.cons_append, List.cons.injEq] at split
      rw [← split.2, tail.stringBody?] at h
      cases h
      exact le_rfl

theorem longest_number {c : Char} (cs : List Char) (digit : Decimal.isDigit c = true) :
    number.Longest (c :: (numberRun false cs).1) (c :: cs) := by
  refine ⟨.number digit (NumberTail.numberRun false cs), ⟨(numberRun false cs).2, ?_⟩,
    fun other has starts => ?_⟩
  · rw [List.cons_append, Piece.numberRun_split]
  · obtain ⟨behind, split⟩ := starts
    cases has with
    | number digit tail =>
      rw [List.cons_append, List.cons.injEq] at split
      rw [← split.2]
      exact Nat.succ_le_succ tail.length_le

theorem longest_word {c : Char} (cs : List Char) (start : isWordStart c = true) :
    word.Longest (c :: cs.takeWhile isWordPart) (c :: cs) := by
  refine ⟨.word start fun d hd => List.mem_takeWhile_imp hd,
    List.prefix_cons_inj c |>.2 (List.takeWhile_prefix _), fun other has starts => ?_⟩
  cases has with
  | word start parts =>
    obtain ⟨rfl, behind, rfl⟩ := List.cons_prefix_cons.1 starts
    rw [List.takeWhile_append_of_pos parts, List.length_cons, List.length_cons, List.length_append]
    omega

theorem longest_mark {cs : List Char} {m : Mark} (h : Mark.read? cs = some m) :
    mark.Longest m.spelling cs :=
  ⟨.mark m, Mark.isPrefix_of_read? h, fun _ has starts => by
    cases has
    exact Mark.length_le_of_read? h starts⟩

end TokenClass

theorem class_wordKind (text : String) : (wordKind text).class = .word := by
  unfold wordKind
  split <;> [rfl; split <;> [rfl; split <;> rfl]]

theorem reads_wordKind (lexeme : List Char) : (wordKind (String.ofList lexeme)).Reads lexeme := by
  generalize word : wordKind (String.ofList lexeme) = kind
  have class_ := class_wordKind (String.ofList lexeme)
  rw [word] at class_
  cases kind with
  | identifier | boolean | keyword => exact word.symm
  | newline | string | number | mark => cases class_

/-- A token takes the longest lexeme of its class, and is what that lexeme says. -/
theorem Piece.read_longest {place : Place} {c : Char} {cs : List Char} {p : Piece}
    (h : read place c cs = .ok p) :
    p.kind.class.Longest p.lexeme (c :: cs) ∧ p.kind.Reads p.lexeme := by
  unfold read at h
  split at h
  · next newline =>
    cases h
    exact ⟨newline ▸ TokenClass.longest_newline cs, trivial⟩
  split at h
  · next quote =>
    split at h
    · next value lexeme rest body =>
      cases h
      refine ⟨quote ▸ TokenClass.longest_string body, lexeme, by rw [quote], ?_⟩
      rw [String.toList_ofList]
      exact StringTail.of_stringBody? body
    · cases h
  split at h
  · next digit =>
    simp only at h
    split at h
    · next value number =>
      cases h
      exact ⟨TokenClass.longest_number cs digit, number⟩
    · cases h
  split at h
  · next start =>
    cases h
    refine ⟨?_, reads_wordKind _⟩
    rw [class_wordKind]
    exact TokenClass.longest_word cs start
  · split at h
    · next m mark =>
      cases h
      exact ⟨TokenClass.longest_mark mark, rfl⟩
    · cases h

/-! ## Rows -/

/-- The tokens, from `before` on, cover the text behind it: each stands behind a gap and takes the
longest lexeme of its class, and behind the last there is a gap up to the end. -/
inductive Tiles : List Char → List Char → List Token → Place → Prop
  | finish {before gap : List Char} (gap_ : Gap gap []) :
      Tiles before gap [] (Place.behind (before ++ gap))
  | token {before gap rest : List Char} {t : Token} {ts : List Token} {finish : Place}
      (gap_ : Gap gap (t.lexeme.toList ++ rest))
      (longest : t.kind.class.Longest t.lexeme.toList (t.lexeme.toList ++ rest))
      (reads : t.kind.Reads t.lexeme.toList) (place : t.place = Place.behind (before ++ gap))
      (h : Tiles (before ++ gap ++ t.lexeme.toList) rest ts finish) :
      Tiles before (gap ++ t.lexeme.toList ++ rest) (t :: ts) finish

/-- A token that no gap precedes. -/
theorem Tiles.next {before lexeme rest : List Char} {kind : TokenKind} {place : Place}
    {ts : List Token} {finish : Place} (longest : kind.class.Longest lexeme (lexeme ++ rest))
    (reads : kind.Reads lexeme) (at_ : place = Place.behind before)
    (h : Tiles (before ++ lexeme) rest ts finish) :
    Tiles before (lexeme ++ rest) (⟨kind, String.ofList lexeme, place⟩ :: ts) finish := by
  obtain ⟨text, rfl⟩ : ∃ text : String, lexeme = text.toList :=
    ⟨String.ofList lexeme, String.toList_ofList.symm⟩
  rw [String.ofList_toList]
  rw [← List.append_nil before] at at_ h
  exact @Tiles.token before [] rest ⟨kind, text, place⟩ ts finish (.nil _) longest reads at_ h

/-- A gap may be put before a text that is covered. -/
theorem Tiles.gap {before gap text : List Char} {ts : List Token} {finish : Place}
    (g : Gap gap text) (h : Tiles (before ++ gap) text ts finish) :
    Tiles before (gap ++ text) ts finish := by
  cases h with
  | finish gap_ =>
    rw [List.append_assoc]
    exact .finish (Gap.append (by simpa using g) gap_)
  | token gap_ longest reads place h =>
    rw [List.append_assoc] at g place
    rw [List.append_assoc before] at h
    rw [← List.append_assoc, ← List.append_assoc]
    exact .token (g.append gap_) longest reads place h

/-- What is scanned behind `before` covers the text. -/
theorem TokenRow.scan_tiles {place : Place} {text : List Char} {row : TokenRow}
    (h : scan place text = .ok row) (before : List Char) (at_ : place = Place.behind before) :
    Tiles before text row.tokens row.finish := by
  fun_induction TokenRow.scan place text generalizing row before with
  | case1 place =>
    cases h
    have last := @Tiles.finish before [] (.nil [])
    rwa [List.append_nil, ← at_] at last
  | case2 place c cs blank ih =>
    have blank : c = ' ' ∨ c = '\t' ∨ c = '\r' := by simpa [isBlank, or_assoc] using blank
    have gap : Gap [c] cs := .blank blank (.nil cs)
    exact (ih h (before ++ [c]) (by rw [at_, Place.behind_snoc])).gap gap
  | case3 place cs _ ih =>
    have inner := ih h (before ++ _) (by rw [at_, Place.behind_append])
    simpa using inner.gap (.ofComment cs)
  | case4 => cases h
  | case5 place c cs _ _ p read shorter ih =>
    cases rest : TokenRow.scan (place.after p.lexeme) p.rest with
    | error e => rw [rest] at h; cases h
    | ok row' =>
      rw [rest] at h
      cases h
      obtain ⟨longest, reads⟩ := Piece.read_longest read
      have inner := ih rest (before ++ p.lexeme) (by rw [at_, Place.behind_append])
      rw [← Piece.read_split read] at longest ⊢
      exact .next longest reads at_ inner

/-- A text that is scanned is covered by its tokens, and ends where its last character puts it. -/
theorem TokenRow.ofText_tiles {text : String} {row : TokenRow} (h : TokenRow.ofText text = .ok row) :
    Tiles [] text.toList row.tokens row.finish :=
  TokenRow.scan_tiles h [] rfl

/-- What follows a string with an escaped newline stands on the next line, and columns count
characters. -/
theorem TokenRow.tiles_escaped_newline :
    ∃ row, TokenRow.ofText "x = \"é\\\né\"+y # é" = .ok row ∧
      row.tokens.map Token.place = [⟨1, 1⟩, ⟨1, 3⟩, ⟨1, 5⟩, ⟨2, 3⟩, ⟨2, 4⟩] ∧
      row.finish = ⟨2, 9⟩ ∧
      Tiles [] "x = \"é\\\né\"+y # é".toList row.tokens row.finish := by
  have read : ((TokenRow.ofText "x = \"é\\\né\"+y # é").toOption.map fun row =>
      (row.tokens.map Token.place, row.finish)) =
      some ([⟨1, 1⟩, ⟨1, 3⟩, ⟨1, 5⟩, ⟨2, 3⟩, ⟨2, 4⟩], ⟨2, 9⟩) := by decide +kernel
  cases scanned : TokenRow.ofText "x = \"é\\\né\"+y # é" with
  | error e => rw [scanned] at read; cases read
  | ok row =>
    rw [scanned] at read
    obtain ⟨places, finish⟩ := Prod.mk.inj (Option.some.inj read)
    exact ⟨row, rfl, places, finish, TokenRow.ofText_tiles scanned⟩

end PathTyping
