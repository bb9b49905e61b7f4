import Mathlib.Data.List.DropRight
import PathTyping.Proofs.Readings

/-!
# What an expression spells

A word is a token without its place; both spellings of negation are one word.  A tree spells the
words of its parts from left to right.  It is stratified if no operator stands in an operand of
which it would not be read as a part.  Whatever is read as an expression is stratified and spells
the tokens that were used up, newlines apart.

1. `Says` is what was passed over between two cursors; it composes.
2. `operand_spells` and its siblings go through the readers of expressions: what each reads is
   stratified, spells what it passed over, and the next token does not go on with it.
3. `Expr.ofTokens_spells`: what a whole row spells.
-/

namespace PathTyping

/-! ## Words -/

/-- A token as it counts for reading: an identifier by its name, a literal by its value. -/
inductive TokenWord
  | name (name : String)
  | number (value : Float)
  | string (value : String)
  | boolean (value : Bool)
  | keyword (word : Keyword)
  | mark (mark : Mark)
  | newline
  deriving DecidableEq

/-- The word of a token; `not` is another spelling of `!`. -/
def Token.word (t : Token) : TokenWord :=
  match t.kind with
  | .identifier => .name t.lexeme
  | .number x => .number x
  | .string s => .string s
  | .boolean b => .boolean b
  | .keyword .not => .mark .bang
  | .keyword k => .keyword k
  | .newline => .newline
  | .mark m => .mark m

namespace TokenWord

def isNewline (w : TokenWord) : Bool := w == newline

/-- Newlines and semicolons stand between statements. -/
def isSeparator (w : TokenWord) : Bool := w == newline || w == mark .semicolon

/-- Whether a word can stand in an expression: it ends no statement, and negation is spelled by its
mark. -/
def isInner (w : TokenWord) : Bool := !w.isSeparator && w != keyword .not

/-- A call, a member or an index goes on with one of these. -/
def opensChain (w : TokenWord) : Bool := w == mark .lparen || w == mark .dot || w == mark .lbracket

end TokenWord

def Literal.word : Literal → TokenWord
  | .number x => .number x
  | .string s => .string s
  | .boolean b => .boolean b
  | .nil => .keyword .nil

def UnaryOp.word : UnaryOp → TokenWord
  | .positive => .mark .plus
  | .negative => .mark .minus
  | .not => .mark .bang

def BinaryOp.word : BinaryOp → TokenWord
  | .add => .mark .plus
  | .subtract => .mark .minus
  | .multiply => .mark .star
  | .divide => .mark .slash
  | .modulo => .mark .percent
  | .equal => .mark .doubleEqual
  | .notEqual => .mark .bangEqual
  | .greater => .mark .greater
  | .greaterEqual => .mark .greaterEqual
  | .less => .mark .less
  | .lessEqual => .mark .lessEqual
  | .and => .keyword .and
  | .or => .keyword .or

def Operator.word : Operator → TokenWord
  | .assign => .mark .equal
  | .binary op => op.word

theorem BinaryOp.one_lt_level (op : BinaryOp) : 1 < op.level := by cases op <;> decide

theorem BinaryOp.level_lt (op : BinaryOp) : op.level < 8 := by cases op <;> decide

theorem Operator.level_lt (o : Operator) : o.level < 8 := by
  cases o with
  | assign => decide
  | binary op => exact op.level_lt

theorem Operator.isNewline_word (o : Operator) : o.word.isNewline = false := by
  rcases o with _ | op
  · rfl
  · cases op <;> rfl

/-! ### What the readers ask of a token -/

namespace Token

variable {t : Token}

theorem isNewline_word (t : Token) : t.word.isNewline = t.isNewline := by
  obtain ⟨kind, lexeme, place⟩ := t
  cases kind with
  | keyword k => cases k <;> rfl
  | _ => rfl

/-- Negation is the one mark that has another spelling. -/
theorem isMark_iff {m : Mark} (other : m ≠ .bang) : t.isMark m = true ↔ t.word = .mark m := by
  obtain ⟨kind, lexeme, place⟩ := t
  cases kind with
  | keyword k => cases k <;> simp [isMark, word, other.symm]
  | mark n => simp [isMark, word]
  | _ => simp [isMark, word]

theorem isSeparator_word (t : Token) : t.word.isSeparator = t.isSeparator := by
  have semicolon : (t.word == .mark .semicolon) = t.isMark .semicolon := by
    rw [Bool.eq_iff_iff, beq_iff_eq]
    exact (isMark_iff (by decide)).symm
  unfold TokenWord.isSeparator isSeparator
  rw [semicolon, ← isNewline_word]
  rfl

theorem isKeyword_iff {k : Keyword} (other : k ≠ .not) :
    t.isKeyword k = true ↔ t.word = .keyword k := by
  obtain ⟨kind, lexeme, place⟩ := t
  cases kind with
  | keyword l => cases l <;> simp [isKeyword, word, other.symm]
  | _ => simp [isKeyword, word]

theorem word_eq_name {n : String} :
    t.word = .name n ↔ Cursor.isIdentifier t = true ∧ t.lexeme = n := by
  obtain ⟨kind, lexeme, place⟩ := t
  cases kind with
  | keyword l => cases l <;> simp [Cursor.isIdentifier, word]
  | _ => simp [Cursor.isIdentifier, word]

theorem unaryOp?_iff {op : UnaryOp} : t.unaryOp? = some op ↔ t.word = op.word := by
  obtain ⟨kind, lexeme, place⟩ := t
  cases kind with
  | keyword k => cases k <;> cases op <;> simp [unaryOp?, word, UnaryOp.word]
  | mark m => cases m <;> cases op <;> simp [unaryOp?, word, UnaryOp.word]
  | _ => cases op <;> simp [unaryOp?, word, UnaryOp.word]

theorem operator?_iff {o : Operator} : t.operator? = some o ↔ t.word = o.word := by
  obtain ⟨kind, lexeme, place⟩ := t
  constructor
  · intro found
    cases kind with
    | keyword k => cases k <;> cases found <;> rfl
    | mark m => cases m <;> cases found <;> rfl
    | _ => cases found
  · intro same
    have spelled {k : Keyword} (other : k ≠ .not) :
        word ⟨.keyword k, lexeme, place⟩ = .keyword k := by
      cases k <;> first | rfl | exact absurd rfl other
    cases kind with
    | keyword k =>
      by_cases negates : k = .not
      · cases negates
        rcases o with _ | op
        · cases same
        · cases op <;> cases same
      · rw [spelled negates] at same
        rcases o with _ | op
        · cases same
        · cases op <;> cases same <;> rfl
    | mark m =>
      rcases o with _ | op
      · cases same
        rfl
      · cases op <;> cases same <;> rfl
    | _ =>
      rcases o with _ | op
      · cases same
      · cases op <;> cases same

end Token

/-! ## Trees -/

namespace Expr

/-- How tightly the outermost operator of an expression binds.  Eight is a unary operator; what is
nine is one operand with its chain. -/
def binds : Expr → Nat
  | assign _ _ _ => 1
  | binary _ op _ _ => op.level
  | unary _ _ _ => 8
  | _ => 9

mutual

/-- The words of an expression from left to right. -/
def words : Expr → List TokenWord
  | literal _ l => [l.word]
  | name _ n => [.name n]
  | self _ => [.keyword .self]
  | unary _ op e => op.word :: words e
  | binary _ op l r => words l ++ op.word :: words r
  | assign _ t v => words t ++ .mark .equal :: words v
  | call _ f args =>
    words f ++ .mark .lparen :: ([.mark .comma].intercalate (wordsList args) ++ [.mark .rparen])
  | member _ o n _ => words o ++ [.mark .dot, .name n]
  | index _ o i => words o ++ .mark .lbracket :: (words i ++ [.mark .rbracket])
  | group _ e => .mark .lparen :: (words e ++ [.mark .rparen])

/-- The words of each of the expressions. -/
def wordsList : List Expr → List (List TokenWord)
  | [] => []
  | e :: rest => words e :: wordsList rest

end

mutual

/-- No operand has an operator outside brackets that binds less tightly than the one it is an
operand of; a right operand none that binds as tightly.  Only targets are assigned to. -/
def isStratified : Expr → Bool
  | literal _ _ => true
  | name _ _ => true
  | self _ => true
  | unary _ _ e => 8 ≤ e.binds && isStratified e
  | binary _ op l r =>
    op.level ≤ l.binds && op.level < r.binds && isStratified l && isStratified r
  | assign _ t v => t.isTarget && isStratified t && isStratified v
  | call _ f args => 9 ≤ f.binds && isStratified f && areStratified args
  | member _ o _ _ => 9 ≤ o.binds && isStratified o
  | index _ o i => 9 ≤ o.binds && isStratified o && isStratified i
  | group _ e => isStratified e

def areStratified : List Expr → Bool
  | [] => true
  | e :: rest => isStratified e && areStratified rest

end

mutual

/-- The expression without its spans. -/
def bare : Expr → Expr
  | literal _ l => literal .absent l
  | name _ n => name .absent n
  | self _ => self .absent
  | unary _ op e => unary .absent op (bare e)
  | binary _ op l r => binary .absent op (bare l) (bare r)
  | assign _ t v => assign .absent (bare t) (bare v)
  | call _ f args => call .absent (bare f) (bareList args)
  | member _ o n _ => member .absent (bare o) n .absent
  | index _ o i => index .absent (bare o) (bare i)
  | group _ e => group .absent (bare e)

def bareList : List Expr → List Expr
  | [] => []
  | e :: rest => bare e :: bareList rest

end

theorem binds_of_isTarget {e : Expr} (h : e.isTarget = true) : e.binds = 9 := by
  cases e <;> first | rfl | cases h

mutual

theorem isInner_words (e : Expr) : ∀ w ∈ e.words, w.isInner = true := by
  cases e with
  | literal s l => cases l <;> simp [words, Literal.word, TokenWord.isInner, TokenWord.isSeparator]
  | name s n => simp [words, TokenWord.isInner, TokenWord.isSeparator]
  | self s => simp [words, TokenWord.isInner, TokenWord.isSeparator]
  | unary s op e =>
    rw [words, List.forall_mem_cons]
    exact ⟨by cases op <;> rfl, isInner_words e⟩
  | binary s op l r =>
    rw [words, List.forall_mem_append, List.forall_mem_cons]
    exact ⟨isInner_words l, by cases op <;> rfl, isInner_words r⟩
  | assign s t v =>
    rw [words, List.forall_mem_append, List.forall_mem_cons]
    exact ⟨isInner_words t, rfl, isInner_words v⟩
  | call s f args =>
    rw [words, List.forall_mem_append, List.forall_mem_cons, List.forall_mem_append]
    exact ⟨isInner_words f, rfl, isInner_wordsList args, List.forall_mem_singleton.2 rfl⟩
  | member s o n ns =>
    rw [words, List.forall_mem_append]
    exact ⟨isInner_words o, by simp [TokenWord.isInner, TokenWord.isSeparator]⟩
  | index s o i =>
    rw [words, List.forall_mem_append, List.forall_mem_cons, List.forall_mem_append]
    exact ⟨isInner_words o, rfl, isInner_words i, List.forall_mem_singleton.2 rfl⟩
  | group s e =>
    rw [words, List.forall_mem_cons, List.forall_mem_append]
    exact ⟨rfl, isInner_words e, List.forall_mem_singleton.2 rfl⟩

theorem isInner_wordsList (es : List Expr) :
    ∀ w ∈ [TokenWord.mark .comma].intercalate (wordsList es), w.isInner = true := by
  match es with
  | [] => simp [wordsList]
  | [e] => simpa [wordsList] using isInner_words e
  | e :: f :: rest =>
    rw [wordsList, wordsList, List.intercalate_cons_cons, List.forall_mem_append,
      List.forall_mem_append]
    exact ⟨⟨isInner_words e, List.forall_mem_singleton.2 rfl⟩,
      isInner_wordsList (f :: rest)⟩

end

/-- Nothing that an expression spells ends a statement. -/
theorem isSeparator_words (e : Expr) : ∀ w ∈ e.words, w.isSeparator = false := by
  intro w hw
  have inner := isInner_words e w hw
  simp only [TokenWord.isInner, Bool.and_eq_true, Bool.not_eq_true'] at inner
  exact inner.1

end Expr

/-! ## What was passed over -/

/-- The words of a row of tokens, newlines left out. -/
def spelled (tokens : List Token) : List TokenWord := (tokens.filter (!·.isNewline)).map Token.word

@[simp] theorem spelled_append (ts us : List Token) :
    spelled (ts ++ us) = spelled ts ++ spelled us := by
  simp [spelled]

theorem spelled_eq_nil {ts : List Token} (h : ∀ t ∈ ts, t.isNewline = true) : spelled ts = [] := by
  simpa [spelled] using h

/-- The tokens between `c` and `next` spell `ws`. -/
def Cursor.Says (c next : Cursor) (ws : List TokenWord) : Prop :=
  ∃ used, c.rest = used ++ next.rest ∧ spelled used = ws

namespace Cursor

variable {c d e : Cursor} {ws vs : List TokenWord}

theorem says_refl (c : Cursor) : c.Says c [] := ⟨[], rfl, rfl⟩

theorem Says.trans (h : c.Says d ws) (h' : d.Says e vs) : c.Says e (ws ++ vs) := by
  obtain ⟨used, rest, rfl⟩ := h
  obtain ⟨used', rest', rfl⟩ := h'
  exact ⟨used ++ used', by rw [rest, rest', List.append_assoc], spelled_append _ _⟩

theorem says_pop? {t : Token} {next : Cursor} {bound : next.size < c.size} {w : TokenWord}
    (h : c.pop? = some ⟨t, next, bound⟩) (word : t.word = w) (visible : w.isNewline = false) :
    c.Says next [w] := by
  subst word
  rw [Token.isNewline_word] at visible
  exact ⟨[t], rest_of_pop? h, by simp [spelled, visible]⟩

theorem says_read? {m : Mark} (other : m ≠ .bang) {t : Token} {next : Cursor}
    {bound : next.size < c.size} (h : c.read? (·.isMark m) = some ⟨t, next, bound⟩) :
    c.Says next [.mark m] := by
  unfold read? at h
  split at h
  · next r popped =>
    split at h
    · next fits =>
      cases h
      exact says_pop? popped ((Token.isMark_iff other).1 fits) rfl
    · cases h
  · cases h

theorem says_skipNewlines (c : Cursor) : c.Says c.skipNewlines [] := by
  refine ⟨c.rest.takeWhile Token.isNewline, List.takeWhile_append_dropWhile.symm, ?_⟩
  exact spelled_eq_nil fun t ht => List.mem_takeWhile_imp ht

/-- Skipped newlines change nothing of what is said behind them. -/
theorem Says.skipped (h : c.skipNewlines.Says d ws) : c.Says d ws := c.says_skipNewlines.trans h

theorem Says.skip (h : c.Says d ws) : c.Says d.skipNewlines ws := by
  simpa using h.trans d.says_skipNewlines

/-- The words of the tokens to come. -/
def words (c : Cursor) : List TokenWord := c.rest.map Token.word

theorem words_of_pop? {t : Token} {next : Cursor} {bound : next.size < c.size}
    (h : c.pop? = some ⟨t, next, bound⟩) : c.words = t.word :: next.words := by
  unfold words
  rw [rest_of_pop? h, List.map_cons]

theorem words_of_pop?_none (h : c.pop? = none) : c.words = [] := by
  unfold words
  cases rest : c.rest with
  | nil => rfl
  | cons t ts => rw [pop?_cons rest] at h; cases h

end Cursor

/-- The word to come does not go on with the chain of an operand. -/
def EndsChain (ws : List TokenWord) : Prop := ∀ w ∈ ws.head?, w.opensChain = false

/-- The word to come is no operator that binds more tightly than `level`. -/
def Stops (level : Nat) (ws : List TokenWord) : Prop :=
  ∀ w ∈ ws.head?, ∀ o : Operator, w = o.word → o.level ≤ level

theorem endsChain_nil : EndsChain [] := nofun

theorem endsChain_cons {w : TokenWord} {ws : List TokenWord} :
    EndsChain (w :: ws) ↔ w.opensChain = false := by
  simp [EndsChain]

theorem stops_nil (level : Nat) : Stops level [] := nofun

theorem stops_cons {level : Nat} {w : TokenWord} {ws : List TokenWord} :
    Stops level (w :: ws) ↔ ∀ o : Operator, w = o.word → o.level ≤ level := by
  simp [Stops]

theorem stops_word {level : Nat} {t : Token} {ws : List TokenWord} :
    Stops level (t.word :: ws) ↔ ∀ o : Operator, t.operator? = some o → o.level ≤ level := by
  simp only [stops_cons, Token.operator?_iff]

theorem Stops.mono {m n : Nat} {ws : List TokenWord} (h : Stops m ws) (le : m ≤ n) : Stops n ws :=
  fun w hw o ho => (h w hw o ho).trans le

theorem stops_high (ws : List TokenWord) {level : Nat} (high : 8 ≤ level) : Stops level ws :=
  fun _ _ o _ => o.level_lt.le.trans high

namespace Reading

open Cursor

/-- Whatever `x` reads, `P` holds of it and of the cursor behind it. -/
def Brings {α : Type} {n : Nat} (x : Reading α n) (P : α → Cursor → Prop) : Prop :=
  ∀ r, x = .ok r → P r.value r.next

section Brings

variable {α β γ : Type} {n m : Nat} {P : α → Cursor → Prop} {Q : β → Cursor → Prop}

theorem Brings.holds {x : Reading α n} {v : α} {next : Cursor} {bound : next.size < n}
    (h : Brings x P) (read : x = .ok ⟨v, next, bound⟩) : P v next := h _ read

theorem brings_ok {v : α} {next : Cursor} {bound : next.size < n} (holds : P v next) :
    Brings (.ok ⟨v, next, bound⟩ : Reading α n) P := fun _ h => by
  cases h
  exact holds

theorem brings_error {e : ParseFailure} : Brings (.error e : Reading α n) P := fun _ h => by
  cases h

theorem brings_bind {x : Except ParseFailure γ} {f : γ → Reading β m}
    (h : ∀ r, x = .ok r → Brings (f r) Q) : Brings (x >>= f) Q := by
  cases x with
  | error e => exact brings_error
  | ok r => exact h r rfl

end Brings

theorem brings_expectMark {m : Mark} (other : m ≠ .bang) (c : Cursor) (what : Expectation) :
    Brings (c.expectMark m what) fun _ next => c.Says next [.mark m] := by
  unfold expectMark expect
  cases found : c.read? (·.isMark m) with
  | none => exact brings_error
  | some r =>
    obtain ⟨t, next, bound⟩ := r
    exact brings_ok (says_read? other found)

theorem brings_expectName (c : Cursor) (what : Expectation) :
    Brings (c.expectName what) fun t next => c.Says next [.name t.lexeme] := by
  unfold expectName expect read?
  cases popped : c.pop? with
  | none => exact brings_error
  | some r =>
    obtain ⟨t, next, bound⟩ := r
    dsimp only
    by_cases fits : isIdentifier t = true
    · rw [if_pos fits]
      exact brings_ok (says_pop? popped (Token.word_eq_name.2 ⟨fits, rfl⟩) rfl)
    · rw [if_neg fits]
      exact brings_error

/-- A token that is an operand of its own spells it. -/
theorem atom_words {t : Token} {e : Expr} (h : t.atom? = some e) :
    e.words = [t.word] ∧ e.isStratified = true ∧ e.binds = 9 ∧ t.word.isNewline = false := by
  obtain ⟨kind, lexeme, place⟩ := t
  cases kind with
  | keyword k => cases k <;> cases h <;> exact ⟨rfl, rfl, rfl, rfl⟩
  | newline => cases h
  | mark m => cases h
  | _ => cases h; exact ⟨rfl, rfl, rfl, rfl⟩

/-- From `c` on, `e` is extended to the stratified `e'`, and no further. -/
def Chained (e : Expr) (c : Cursor) (e' : Expr) (next : Cursor) : Prop :=
  ∃ ws, c.Says next ws ∧ e'.words = e.words ++ ws ∧ e'.isStratified = true ∧
    e.binds ≤ e'.binds ∧ EndsChain next.words

theorem chained_refl {e : Expr} {c : Cursor} (stratified : e.isStratified = true)
    (ends : EndsChain c.words) : Chained e c e c :=
  ⟨[], c.says_refl, (List.append_nil _).symm, stratified, le_refl _, ends⟩

theorem Chained.behind {e f e' : Expr} {c d next : Cursor} {ws : List TokenWord}
    (h : Chained f d e' next) (said : c.Says d ws) (words : f.words = e.words ++ ws)
    (binds : e.binds ≤ f.binds) : Chained e c e' next := by
  obtain ⟨vs, said', words', stratified, binds', ends⟩ := h
  refine ⟨ws ++ vs, said.trans said', ?_, stratified, binds.trans binds', ends⟩
  rw [words', words, List.append_assoc]

/-- From `c` on, `left` is extended to the stratified `e` by operators above `level`, until one
comes that is not above it. -/
def Climbed (level : Nat) (left : Expr) (c : Cursor) (e : Expr) (next : Cursor) : Prop :=
  ∃ ws, c.Says next ws ∧ e.words = left.words ++ ws ∧ e.isStratified = true ∧
    level < e.binds ∧ Stops level next.words

theorem climbed_refl {level : Nat} {left : Expr} {c : Cursor}
    (stratified : left.isStratified = true) (tight : level < left.binds)
    (stops : Stops level c.words) : Climbed level left c left c :=
  ⟨[], c.says_refl, (List.append_nil _).symm, stratified, tight, stops⟩

theorem Climbed.behind {level : Nat} {left left' e : Expr} {c d next : Cursor} {ws : List TokenWord}
    (h : Climbed level left' d e next) (said : c.Says d ws)
    (words : left'.words = left.words ++ ws) : Climbed level left c e next := by
  obtain ⟨vs, said', words', rest⟩ := h
  refine ⟨ws ++ vs, said.trans said', ?_, rest⟩
  rw [words', words, List.append_assoc]

mutual

theorem operand_spells (c : Cursor) :
    Brings (operand c) fun e next =>
      c.Says next e.words ∧ e.isStratified = true ∧ 8 ≤ e.binds ∧ EndsChain next.words := by
  rw [operand]
  split
  · exact brings_error
  · next t c₁ h₁ popped =>
    split
    · next e atom =>
      obtain ⟨words, stratified, binds, visible⟩ := atom_words atom
      refine brings_bind fun ⟨e', c₂, h₂⟩ read => brings_ok ?_
      obtain ⟨ws, said, words', stratified', binds', ends⟩ :=
        (chain_spells e c₁ stratified (.inl binds)).holds read
      refine ⟨?_, stratified', by omega, ends⟩
      rw [words', words]
      exact (says_pop? popped rfl visible).trans said
    · split
      · next op unary =>
        have first := says_pop? popped (Token.unaryOp?_iff.1 unary) (by cases op <;> rfl)
        refine brings_bind fun ⟨e, c₂, h₂⟩ read => brings_bind fun ⟨e', c₃, h₃⟩ read' => ?_
        obtain ⟨said, stratified, binds, ends⟩ := (operand_spells c₁).holds read
        have whole : (Expr.unary (t.span.cover e.span) op e).isStratified = true := by
          simp [Expr.isStratified, stratified, binds]
        obtain ⟨ws, said', words', rest⟩ := (chain_spells _ c₂ whole (.inr ends)).holds read'
        refine brings_ok ⟨?_, rest⟩
        rw [words', Expr.words]
        exact (first.trans said).trans said'
      · split
        · next opens =>
          have first := says_pop? popped ((Token.isMark_iff (by decide)).1 opens) rfl
          have hs := c₁.size_skipNewlines_le
          refine brings_bind fun ⟨e, c₂, h₂⟩ read => ?_
          have hs₂ := c₂.size_skipNewlines_le
          refine brings_bind fun ⟨close, c₃, h₃⟩ read' => brings_bind fun ⟨e', c₄, h₄⟩ read'' => ?_
          obtain ⟨said, stratified, -, -⟩ := (expression_spells 0 (by decide) _).holds read
          have last := (brings_expectMark (by decide) _ _).holds read'
          have whole : (Expr.group (t.span.cover close.span) e).isStratified = true := stratified
          obtain ⟨ws, said', words', stratified', binds', ends⟩ :=
            (chain_spells _ c₃ whole (.inl rfl)).holds read''
          refine brings_ok ⟨?_, stratified', le_trans (Nat.le_succ 8) binds', ends⟩
          rw [words', Expr.words]
          exact (first.trans (said.skipped.skip.trans last)).trans said'
        · exact brings_error
termination_by 4 * c.size
decreasing_by all_goals dsimp only at *; omega

theorem expression_spells (level : Nat) (low : level < 8) (c : Cursor) :
    Brings (expression level c) fun e next =>
      c.Says next e.words ∧ e.isStratified = true ∧ level < e.binds ∧ Stops level next.words := by
  rw [expression]
  refine brings_bind fun ⟨left, c₁, h₁⟩ read => brings_bind fun ⟨e, c₂, h₂⟩ read' => ?_
  obtain ⟨said, stratified, binds, -⟩ := (operand_spells c).holds read
  have tight : level < left.binds := by omega
  obtain ⟨ws, said', words, rest⟩ :=
    (climb_spells level left c₁ stratified tight (stops_high _ binds)).holds read'
  refine brings_ok ⟨?_, rest⟩
  rw [words]
  exact said.trans said'
termination_by 4 * c.size + 1
decreasing_by all_goals dsimp only at *; omega

/-- The operator to come must not bind more tightly than `left`, of which it would be a part. -/
theorem climb_spells (level : Nat) (left : Expr) (c : Cursor)
    (stratified : left.isStratified = true) (tight : level < left.binds)
    (fits : Stops left.binds c.words) : Brings (climb level left c) (Climbed level left c) := by
  rw [climb]
  split
  · next popped =>
    have nothing := words_of_pop?_none popped
    exact brings_ok (climbed_refl stratified tight (nothing ▸ stops_nil level))
  · next t c₁ h₁ popped =>
    have rest := words_of_pop? popped
    split
    · next plain =>
      refine brings_ok (climbed_refl stratified tight ?_)
      rw [rest, stops_word, plain]
      exact nofun
    · next o operator =>
      have word := Token.operator?_iff.1 operator
      split
      · next below =>
        refine brings_ok (climbed_refl stratified tight ?_)
        rw [rest, stops_word, operator]
        rintro _ ⟨⟩
        exact below
      · next above =>
        have hs := c₁.size_skipNewlines_le
        have tight' := Nat.lt_of_not_le above
        have below := stops_word.1 (rest ▸ fits) o operator
        have first := says_pop? popped word o.isNewline_word
        cases o with
        | assign =>
          refine brings_bind fun ⟨value, c₂, h₂⟩ read => ?_
          obtain ⟨said, stratified', -, stops⟩ := (expression_spells 0 (by decide) _).holds read
          dsimp only
          split
          · next target =>
            have whole :
                (Expr.assign (left.span.cover value.span) left value).isStratified = true := by
              simp [Expr.isStratified, target, stratified, stratified']
            refine brings_bind fun ⟨e, c₃, h₃⟩ read' => brings_ok ?_
            have fits := stops.mono (Nat.zero_le 1)
            have rest := (climb_spells level _ c₂ whole tight' fits).holds read'
            exact rest.behind (first.trans said.skipped) rfl
          · exact brings_error
        | binary op =>
          refine brings_bind fun ⟨right, c₂, h₂⟩ read => brings_bind fun ⟨e, c₃, h₃⟩ read' => ?_
          obtain ⟨said, stratified', binds, stops⟩ :=
            (expression_spells op.level op.level_lt _).holds read
          have whole :
              (Expr.binary (left.span.cover right.span) op left right).isStratified = true := by
            simp only [Operator.level] at below
            simp [Expr.isStratified, stratified, stratified', below, binds]
          have rest := (climb_spells level _ c₂ whole tight' stops).holds read'
          exact brings_ok (rest.behind (first.trans said.skipped) rfl)
termination_by 4 * c.size
decreasing_by all_goals dsimp only at *; omega

/-- A chain goes on with an operand only; behind anything else it must have ended. -/
theorem chain_spells (e : Expr) (c : Cursor) (stratified : e.isStratified = true)
    (whole : e.binds = 9 ∨ EndsChain c.words) : Brings (chain e c) (Chained e c) := by
  rw [chain]
  split
  · next popped =>
    exact brings_ok (chained_refl stratified (words_of_pop?_none popped ▸ endsChain_nil))
  · next t c₁ h₁ popped =>
    have first := words_of_pop? popped
    have hs := c₁.size_skipNewlines_le
    have opens {m : Mark} (other : m ≠ .bang) (is : t.isMark m = true)
        (chains : (TokenWord.mark m).opensChain = true) : c.Says c₁ [.mark m] ∧ e.binds = 9 := by
      have word := (Token.isMark_iff other).1 is
      refine ⟨says_pop? popped word rfl, whole.resolve_right fun ends => ?_⟩
      rw [first, endsChain_cons, word, chains] at ends
      cases ends
    split
    · next is =>
      obtain ⟨said, callee⟩ := opens (by decide) is rfl
      dsimp only
      split
      · refine brings_bind fun ⟨close, c₂, h₂⟩ read => brings_bind fun ⟨e', c₃, h₃⟩ read' => ?_
        have last := (brings_expectMark (by decide) _ _).holds read
        have called : (Expr.call (e.span.cover close.span) e []).isStratified = true := by
          simp [Expr.isStratified, Expr.areStratified, stratified, callee]
        have rest := (chain_spells _ c₂ called (.inl rfl)).holds read'
        refine brings_ok (rest.behind (said.trans last.skipped) ?_ callee.le)
        simp [Expr.words, Expr.wordsList]
      · refine brings_bind fun ⟨arguments, c₂, h₂⟩ read => ?_
        dsimp only
        refine brings_bind fun ⟨close, c₃, h₃⟩ read' => brings_bind fun ⟨e', c₄, h₄⟩ read'' => ?_
        obtain ⟨given, fit, -⟩ := (argumentList_spells _).holds read
        have last := (brings_expectMark (by decide) _ _).holds read'
        have called : (Expr.call (e.span.cover close.span) e arguments).isStratified = true := by
          simp [Expr.isStratified, stratified, callee, fit]
        have rest := (chain_spells _ c₃ called (.inl rfl)).holds read''
        exact brings_ok (rest.behind (said.trans (given.skipped.trans last)) rfl callee.le)
    · split
      · next is =>
        obtain ⟨said, object⟩ := opens (by decide) is rfl
        refine brings_bind fun ⟨name, c₂, h₂⟩ read => brings_bind fun ⟨e', c₃, h₃⟩ read' => ?_
        have named := (brings_expectName _ _).holds read
        have member : (Expr.member (e.span.cover name.span) e name.lexeme name.span).isStratified =
            true := by
          simp [Expr.isStratified, stratified, object]
        have rest := (chain_spells _ c₂ member (.inl rfl)).holds read'
        exact brings_ok (rest.behind (said.trans named) rfl object.le)
      · split
        · next is =>
          obtain ⟨said, object⟩ := opens (by decide) is rfl
          refine brings_bind fun ⟨i, c₂, h₂⟩ read => ?_
          have hs₂ := c₂.size_skipNewlines_le
          refine brings_bind fun ⟨close, c₃, h₃⟩ read' => brings_bind fun ⟨e', c₄, h₄⟩ read'' => ?_
          obtain ⟨inner, fits, -, -⟩ := (expression_spells 0 (by decide) _).holds read
          have last := (brings_expectMark (by decide) _ _).holds read'
          have indexed : (Expr.index (e.span.cover close.span) e i).isStratified = true := by
            simp [Expr.isStratified, stratified, object, fits]
          have rest := (chain_spells _ c₃ indexed (.inl rfl)).holds read''
          exact brings_ok (rest.behind (said.trans (inner.skipped.skip.trans last)) rfl object.le)
        · next noCall noMember noIndex =>
          refine brings_ok (chained_refl stratified ?_)
          rw [first, endsChain_cons]
          rw [Token.isMark_iff (by decide)] at noCall noMember noIndex
          simp [TokenWord.opensChain, noCall, noMember, noIndex]
termination_by 4 * c.size + 3
decreasing_by all_goals dsimp only at *; omega

theorem argumentList_spells (c : Cursor) :
    Brings (argumentList c) fun es next =>
      c.Says next ([TokenWord.mark .comma].intercalate (Expr.wordsList es)) ∧
        Expr.areStratified es = true ∧ es ≠ [] := by
  rw [argumentList]
  have hs := c.size_skipNewlines_le
  refine brings_bind fun ⟨first, c₁, h₁⟩ read => ?_
  obtain ⟨said, stratified, -, -⟩ := (expression_spells 0 (by decide) _).holds read
  have hs₁ := c₁.size_skipNewlines_le
  dsimp only
  split
  · next t c₂ h₂ comma =>
    refine brings_bind fun ⟨others, c₃, h₃⟩ read' => brings_ok ?_
    obtain ⟨said', stratified', nonempty⟩ := (argumentList_spells c₂).holds read'
    obtain ⟨second, rest, rfl⟩ := List.exists_cons_of_ne_nil nonempty
    have front := said.skipped.skip.trans (says_read? (by decide) comma)
    refine ⟨?_, ?_, nofun⟩
    · rw [Expr.wordsList, Expr.wordsList, List.intercalate_cons_cons]
      exact front.trans said'
    · rw [Expr.areStratified, stratified, stratified', Bool.true_and]
  · refine brings_ok ⟨?_, ?_, nofun⟩
    · simpa [Expr.wordsList] using said.skipped.skip
    · simp [Expr.areStratified, stratified]
termination_by 4 * c.size + 2
decreasing_by all_goals dsimp only at *; omega

end

end Reading

/-! ## Rows -/

/-- The words of a row of tokens, newlines and the separators at both ends left out. -/
def TokenRow.words (row : TokenRow) : List TokenWord :=
  spelled ((row.tokens.dropWhile Token.isSeparator).rdropWhile Token.isSeparator)

/-- Behind tokens that spell no separator, only newlines are lost with the separators. -/
theorem spelled_rdropWhile {used behind : List Token}
    (h : ∀ w ∈ spelled used, w.isSeparator = false)
    (separators : ∀ t ∈ behind, t.isSeparator = true) :
    spelled ((used ++ behind).rdropWhile Token.isSeparator) = spelled used := by
  have dropped : (used ++ behind).rdropWhile Token.isSeparator =
      used.rdropWhile Token.isSeparator := by
    unfold List.rdropWhile
    rw [List.reverse_append, List.dropWhile_append_of_pos]
    exact fun t ht => separators t (List.mem_reverse.1 ht)
  have parts : used.rdropWhile Token.isSeparator ++ used.rtakeWhile Token.isSeparator = used :=
    List.rdropWhile_append_rtakeWhile
  have newlines : spelled (used.rtakeWhile Token.isSeparator) = [] := by
    refine spelled_eq_nil fun t ht => by_contra fun visible => ?_
    have separator := List.mem_rtakeWhile_imp ht
    have mine : t ∈ used := (List.rtakeWhile_suffix _ _).subset ht
    have said : t.word ∈ spelled used :=
      List.mem_map_of_mem (List.mem_filter.2 ⟨mine, by simpa using visible⟩)
    rw [← Token.isSeparator_word, h _ said] at separator
    cases separator
  calc spelled ((used ++ behind).rdropWhile Token.isSeparator)
      = spelled (used.rdropWhile Token.isSeparator) := by rw [dropped]
    _ = spelled (used.rdropWhile Token.isSeparator ++ used.rtakeWhile Token.isSeparator) := by
        rw [spelled_append, newlines, List.append_nil]
    _ = spelled used := by rw [parts]

theorem Expr.ofTokens_spells {row : TokenRow} {e : Expr} {report : Report}
    (h : Expr.ofTokens row = .ok (e, report)) : e.isStratified = true ∧ e.words = row.words := by
  unfold Expr.ofTokens at h
  cases read : Reading.expression 0 (Cursor.ofRow row).skipSeparators with
  | error e => rw [read] at h; cases h
  | ok r =>
    obtain ⟨e', c, bound⟩ := r
    rw [read] at h
    simp only [bind, Except.bind] at h
    split at h
    · next ended =>
      cases h
      obtain ⟨⟨used, rest, said⟩, stratified, -⟩ :=
        (Reading.expression_spells 0 (by decide) _).holds read
      have behind : ∀ t ∈ c.rest, t.isSeparator = true :=
        List.dropWhile_eq_nil_iff.1 (List.isEmpty_iff.1 ended)
      have whole : row.tokens.dropWhile Token.isSeparator = used ++ c.rest := rest
      refine ⟨stratified, ?_⟩
      rw [TokenRow.words, whole, spelled_rdropWhile _ behind, said]
      rw [said]
      exact e.isSeparator_words
    · cases h

end PathTyping
