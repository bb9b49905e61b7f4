import PathTyping.Proofs.Printing

/-!
# Reading what was printed

The readers of statements and declarations are followed along a written form.  A conditional looks
past any number of newlines for its `else`, so what stands behind a statement matters: it must not
be an `else`, and in a written block it never is one.

1. `follows_of_written`: statements and blocks, by induction on their written form.
2. `yields_function`, `yields_classBody`, `yields_item` go through the declarations.
3. `Module.ofTokens_of_written`: a written module is read as it was, with an empty report.
-/

namespace PathTyping

theorem Item.Written.starts {i : Item} {ws : List TokenWord} (written : i.Written ws) :
    ∃ w us, ws = w :: us ∧ w.isSeparator = false := by
  cases written with
  | global g => exact ⟨_, _, rfl, by cases g.constant <;> rfl⟩
  | _ => exact ⟨_, _, rfl, rfl⟩

/-! ## Statements -/

/-- A statement starts with one of these. -/
def TokenWord.startsStatement (w : TokenWord) : Bool :=
  w.startsOperand || w == .keyword .var || w == .keyword .if_ || w == .keyword .while_ ||
    w == .keyword .return_

theorem TokenWord.separates_not {w : TokenWord} (h : w.startsStatement = true) :
    w.isSeparator = false ∧ w ≠ .mark .rbrace ∧ w ≠ .keyword .else_ := by
  cases w with
  | keyword k => revert h; cases k <;> decide
  | mark m => revert h; cases m <;> decide
  | newline => cases h
  | _ => exact ⟨rfl, nofun, nofun⟩

theorem Written.starts {s : Stmt} {ws : List TokenWord} (h : Written (.statement s) ws) :
    ∃ w us, ws = w :: us ∧ w.startsStatement = true := by
  cases h with
  | expr e =>
    obtain ⟨w, us, first, operand⟩ := e.starts
    exact ⟨w, _, by rw [first]; rfl, by simp [TokenWord.startsStatement, operand]⟩
  | _ => exact ⟨_, _, rfl, rfl⟩

/-- A block starts with a statement or ends at once. -/
theorem Written.goesOn {b : List Stmt} {ws : List TokenWord} (h : Written (.statements b) ws) :
    ∃ w us, ws = w :: us ∧ (w.startsStatement = true ∨ w = .mark .rbrace) := by
  cases h with
  | nil => exact ⟨_, _, rfl, .inr rfl⟩
  | cons first rest =>
    obtain ⟨w, us, rfl, starts⟩ := first.starts
    exact ⟨w, _, rfl, .inl starts⟩

theorem Written.opens {b : List Stmt} {ws : List TokenWord} (h : Written (.block b) ws) :
    ∃ us, ws = .mark .lbrace :: us := by
  cases h with
  | block h => exact ⟨_, rfl⟩

/-- Behind newlines there is no `else`. -/
def NoElse (ws : List TokenWord) : Prop :=
  ∀ w ∈ (ws.dropWhile TokenWord.isNewline).head?, w ≠ .keyword .else_

theorem Written.noElse {b : List Stmt} {ws : List TokenWord} (h : Written (.statements b) ws)
    (us : List TokenWord) : NoElse (ws ++ us) := by
  obtain ⟨w, vs, rfl, starts⟩ := h.goesOn
  have visible : w.isNewline = false ∧ w ≠ .keyword .else_ := by
    rcases starts with starts | rfl
    · obtain ⟨separator, -, other⟩ := TokenWord.separates_not starts
      exact ⟨(Bool.or_eq_false_iff.1 separator).1, other⟩
    · exact ⟨rfl, nofun⟩
  intro v hv
  rw [List.cons_append, List.dropWhile_cons_of_neg (by simp [visible.1])] at hv
  cases hv
  exact visible.2

namespace Reading

open Cursor

theorem isEmpty_of_at {c : Cursor} {w : TokenWord} {ws : List TokenWord} {report : Report}
    (here : c.At (w :: ws) report) : c.rest.isEmpty = false := by
  rw [List.isEmpty_eq_false_iff]
  intro nothing
  have words := here.words
  rw [Cursor.words, nothing] at words
  cases words

theorem statementEnd_of_at {c : Cursor} {ws : List TokenWord} {report : Report}
    (here : c.At (.newline :: ws) report) :
    ∃ s, statementEnd c = .ok s ∧ s.1.At (ws.dropWhile TokenWord.isSeparator) report := by
  have noBrace : c.nextIs (·.isMark .rbrace) = false := nextIs_of_at here fun t word => by
    rw [← Bool.not_eq_true, Token.isMark_iff (by decide), word]
    nofun
  have ends : c.nextIs Token.isSeparator = true := nextIs_of_at here fun t word => by
    rw [← Token.isSeparator_word, word]
    rfl
  refine ⟨⟨c.skipSeparators, c.size_skipSeparators_le⟩, ?_, here.skipSeparators⟩
  unfold statementEnd
  rw [isEmpty_of_at here, noBrace, ends]
  rfl

/-- The words `ws`, wherever they stand with no `else` behind, are read as `s`; separators behind
them may be passed over. -/
def ReadsStatement (s : Stmt) (ws : List TokenWord) : Prop :=
  ∀ (c : Cursor) (vs : List TokenWord) (report : Report), c.At (ws ++ vs) report → NoElse vs →
    ∃ us, us.dropWhile TokenWord.isSeparator = vs.dropWhile TokenWord.isSeparator ∧
      Yields (statement c) (·.bare = s.bare) us report

/-- Behind an `if`, the words `ws` are read as `s`. -/
def ReadsConditional (s : Stmt) (ws : List TokenWord) : Prop :=
  ∀ (start : Span) (c : Cursor) (vs : List TokenWord) (report : Report), c.At (ws ++ vs) report →
    NoElse vs → Yields (conditional start c) (·.1.bare = s.bare) vs report

def ReadsBlock (b : List Stmt) (ws : List TokenWord) : Prop :=
  ∀ (c : Cursor) (vs : List TokenWord) (report : Report), c.At (ws ++ vs) report →
    Yields (block c) (Stmt.bareBlock ·.1 = Stmt.bareBlock b) vs report

/-- The words `ws` are read as the rest of a block, whatever separators stand before them. -/
def ReadsStatements (b : List Stmt) (ws : List TokenWord) : Prop :=
  ∀ (c : Cursor) (us vs : List TokenWord) (report : Report), c.At us report →
    us.dropWhile TokenWord.isSeparator = (ws ++ vs).dropWhile TokenWord.isSeparator →
    Yields (statements c) (Stmt.bareBlock ·.1 = Stmt.bareBlock b) vs report

/-! ### Simple statements -/

theorem kind_of_keyword {t : Token} {k : Keyword} (h : t.word = .keyword k) :
    t.kind = .keyword k := by
  obtain ⟨kind, lexeme, place⟩ := t
  cases kind with
  | keyword l => cases l <;> cases h <;> rfl
  | _ => cases h

theorem word_of_kind {t : Token} {k : Keyword} (h : t.kind = .keyword k) (other : k ≠ .not) :
    t.word = .keyword k := by
  unfold Token.word
  rw [h]
  cases k <;> first | rfl | exact absurd rfl other

theorem readsStatement_var {s : Span} {n : String} {e : Expr} (h : e.isStratified = true) :
    ReadsStatement (.var s n e)
      (.keyword .var :: .name n :: .mark .equal :: (e.words ++ [.newline])) := by
  intro c vs report here _
  refine ⟨vs.dropWhile TokenWord.isSeparator, List.dropWhile_idempotent _ _, ?_⟩
  simp only [List.cons_append, List.append_assoc, List.nil_append] at here
  obtain ⟨t, c₁, h₁, popped, word, here₁⟩ := pop?_of_at here
  rw [statement, popped]
  dsimp only
  rw [kind_of_keyword word]
  refine (yields_expectName here₁).bind fun name c₂ _ named here₂ => ?_
  refine (yields_expectMark (by decide) here₂).bind fun _ c₃ _ _ here₃ => ?_
  refine ((complete e h).whole here₃ (closed_cons rfl)).bind fun value c₄ _ same here₄ => ?_
  obtain ⟨⟨c₅, h₅⟩, ended, here₅⟩ := statementEnd_of_at here₄
  dsimp only
  simp only [ended]
  exact yields_ok (by simp only [Stmt.bare, named, same]) here₅

theorem readsStatement_leave {s : Span} :
    ReadsStatement (.ret s none) [.keyword .return_, .newline] := by
  intro c vs report here _
  refine ⟨vs.dropWhile TokenWord.isSeparator, List.dropWhile_idempotent _ _, ?_⟩
  obtain ⟨t, c₁, h₁, popped, word, here₁⟩ := pop?_of_at here
  have nothing : c₁.nextIs (fun t => t.isSeparator || t.isMark .rbrace) = true :=
    nextIs_of_at here₁ fun t word => by
      rw [← Token.isSeparator_word, word]
      rfl
  rw [statement, popped]
  dsimp only
  rw [kind_of_keyword word]
  dsimp only
  rw [if_pos (by rw [nothing, Bool.or_true])]
  obtain ⟨⟨c₂, h₂⟩, ended, here₂⟩ := statementEnd_of_at here₁
  simp only [ended]
  exact yields_ok rfl here₂

theorem readsStatement_ret {s : Span} {e : Expr} (h : e.isStratified = true) :
    ReadsStatement (.ret s (some e)) (.keyword .return_ :: (e.words ++ [.newline])) := by
  intro c vs report here _
  refine ⟨vs.dropWhile TokenWord.isSeparator, List.dropWhile_idempotent _ _, ?_⟩
  simp only [List.cons_append, List.append_assoc, List.nil_append] at here
  obtain ⟨t, c₁, h₁, popped, word, here₁⟩ := pop?_of_at here
  obtain ⟨w, us, first, operand⟩ := e.starts
  have start := here₁
  rw [first, List.cons_append] at start
  have value : c₁.nextIs (fun t => t.isSeparator || t.isMark .rbrace) = false := by
    refine nextIs_of_at start fun t word => ?_
    have noBrace : t.isMark .rbrace = false := by
      rw [← Bool.not_eq_true, Token.isMark_iff (by decide), word]
      rintro rfl
      cases operand
    rw [noBrace, Bool.or_false, ← Token.isSeparator_word, word]
    exact e.isSeparator_words w (first ▸ List.mem_cons_self)
  rw [statement, popped]
  dsimp only
  rw [kind_of_keyword word]
  dsimp only
  rw [if_neg (by rw [value, isEmpty_of_at start]; decide)]
  refine ((complete e h).whole here₁ (closed_cons rfl)).bind fun value c₂ _ same here₂ => ?_
  obtain ⟨⟨c₃, h₃⟩, ended, here₃⟩ := statementEnd_of_at here₂
  dsimp only
  simp only [ended]
  exact yields_ok (by simp only [Stmt.bare, same]) here₃

theorem readsStatement_expr {e : Expr} (h : e.isStratified = true) :
    ReadsStatement (.expr e) (e.words ++ [.newline]) := by
  intro c vs report here _
  refine ⟨vs.dropWhile TokenWord.isSeparator, List.dropWhile_idempotent _ _, ?_⟩
  simp only [List.cons_append, List.append_assoc, List.nil_append] at here
  have read := (complete e h).whole here (closed_cons rfl)
  obtain ⟨w, us, first, operand⟩ := e.starts
  rw [first, List.cons_append] at here
  obtain ⟨t, c₁, h₁, popped, word, -⟩ := pop?_of_at here
  have noKeyword (k : Keyword) (other : k ≠ .not)
      (h : (TokenWord.keyword k).startsOperand = false) : t.kind ≠ .keyword k := by
    intro kind
    rw [← word, word_of_kind kind other, h] at operand
    cases operand
  rw [statement, popped]
  dsimp only
  split
  · next kind => exact absurd kind (noKeyword _ (by decide) rfl)
  · next kind => exact absurd kind (noKeyword _ (by decide) rfl)
  · next kind => exact absurd kind (noKeyword _ (by decide) rfl)
  · next kind => exact absurd kind (noKeyword _ (by decide) rfl)
  · refine read.bind fun e' c₂ _ same here₂ => ?_
    obtain ⟨⟨c₃, h₃⟩, ended, here₃⟩ := statementEnd_of_at here₂
    dsimp only
    simp only [ended]
    exact yields_ok (by simp only [Stmt.bare, same]) here₃

/-! ### Statements with blocks -/

theorem readsStatement_cond {s : Stmt} {ws : List TokenWord} (h : ReadsConditional s ws) :
    ReadsStatement s (.keyword .if_ :: (ws ++ [.newline])) := by
  intro c vs report here noElse
  refine ⟨.newline :: vs, List.dropWhile_cons_of_pos rfl, ?_⟩
  simp only [List.cons_append, List.append_assoc, List.nil_append] at here
  obtain ⟨t, c₁, h₁, popped, word, here₁⟩ := pop?_of_at here
  rw [statement, popped]
  dsimp only
  rw [kind_of_keyword word]
  exact (h t.span c₁ _ report here₁ noElse).bind fun r c₂ _ same here₂ => yields_ok same here₂

theorem readsStatement_loop {s : Span} {e : Expr} {b : List Stmt} {ws : List TokenWord}
    (stratified : e.isStratified = true) (h : ReadsBlock b ws)
    (opens : ∃ us, ws = .mark .lbrace :: us) :
    ReadsStatement (.loop s e b) (.keyword .while_ :: (e.words ++ ws ++ [.newline])) := by
  intro c vs report here _
  refine ⟨.newline :: vs, List.dropWhile_cons_of_pos rfl, ?_⟩
  simp only [List.cons_append, List.append_assoc, List.nil_append] at here
  obtain ⟨t, c₁, h₁, popped, word, here₁⟩ := pop?_of_at here
  rw [statement, popped]
  dsimp only
  rw [kind_of_keyword word]
  dsimp only
  have closed : Closed (ws ++ .newline :: vs) := by
    obtain ⟨us, rfl⟩ := opens
    exact closed_cons rfl
  refine ((complete e stratified).whole here₁ closed).bind fun e' c₂ _ same here₂ => ?_
  refine (h c₂ _ report here₂).bind fun r c₃ _ same' here₃ => ?_
  exact yields_ok (by simp only [Stmt.bare, same, same']) here₃

theorem readsConditional_alone {s : Span} {e : Expr} {a : List Stmt} {ws : List TokenWord}
    (stratified : e.isStratified = true) (h : ReadsBlock a (.mark .lbrace :: ws)) :
    ReadsConditional (.cond s e a none) (e.words ++ .mark .lbrace :: ws) := by
  intro start c vs report here noElse
  rw [List.append_assoc] at here
  rw [conditional]
  refine ((complete e stratified).whole here (closed_cons rfl)).bind fun e' c₁ _ same here₁ => ?_
  refine (h c₁ _ report here₁).bind fun r c₂ _ same' here₂ => ?_
  have alone : c₂.skipNewlines.read? (·.isKeyword .else_) = none := by
    refine read?_eq_none here₂.skipNewlines fun t word => ?_
    rw [← Bool.not_eq_true, Token.isKeyword_iff (by decide)]
    exact noElse t.word word
  dsimp only
  rw [alone]
  exact yields_ok (by simp only [Stmt.bare, same, same']) here₂

/-- Behind newlines, an `else` is found. -/
theorem else_of_at {c : Cursor} {newlines : Nat} {ws : List TokenWord} {report : Report}
    (here : c.At (List.replicate newlines .newline ++ .keyword .else_ :: ws) report) :
    ∃ t next bound, c.skipNewlines.read? (·.isKeyword .else_) = some ⟨t, next, bound⟩ ∧
      next.At ws report := by
  have skipped := here.skipNewlines
  rw [List.dropWhile_append_of_pos fun w hw => List.eq_of_mem_replicate hw ▸ rfl] at skipped
  obtain ⟨t, next, bound, read, -, here'⟩ :=
    read?_of_at (p := (·.isKeyword .else_)) skipped
      fun t word => (Token.isKeyword_iff (by decide)).2 word
  exact ⟨t, next, bound, read, here'⟩

theorem readsConditional_otherwise {s : Span} {e : Expr} {a b : List Stmt} {ws vs : List TokenWord}
    (newlines : Nat) (stratified : e.isStratified = true)
    (h : ReadsBlock a (.mark .lbrace :: ws)) (h' : ReadsBlock b (.mark .lbrace :: vs)) :
    ReadsConditional (.cond s e a (some b))
      (e.words ++ .mark .lbrace :: ws ++
        (List.replicate newlines .newline ++ .keyword .else_ :: .mark .lbrace :: vs)) := by
  intro start c us report here noElse
  simp only [List.cons_append, List.append_assoc] at here
  rw [conditional]
  refine ((complete e stratified).whole here (closed_cons rfl)).bind fun e' c₁ _ same here₁ => ?_
  refine (h c₁ _ report here₁).bind fun r c₂ _ same' here₂ => ?_
  obtain ⟨t, c₃, h₃, read, here₃⟩ := else_of_at here₂
  have noIf : c₃.read? (·.isKeyword .if_) = none := by
    refine read?_eq_none here₃ fun t word => ?_
    rw [← Bool.not_eq_true, Token.isKeyword_iff (by decide), ← Option.mem_some.1 word]
    nofun
  dsimp only
  rw [read]
  dsimp only
  rw [noIf]
  refine (h' c₃ us report here₃).bind fun r' c₄ _ same'' here₄ => ?_
  exact yields_ok (by simp only [Stmt.bare, same, same', same'']) here₄

theorem readsConditional_otherwiseIf {s : Span} {e : Expr} {a : List Stmt} {t : Stmt}
    {ws vs : List TokenWord} (newlines : Nat) (stratified : e.isStratified = true)
    (h : ReadsBlock a (.mark .lbrace :: ws)) (h' : ReadsConditional t vs) :
    ReadsConditional (.cond s e a (some [t]))
      (e.words ++ .mark .lbrace :: ws ++
        (List.replicate newlines .newline ++ .keyword .else_ :: .keyword .if_ :: vs)) := by
  intro start c us report here noElse
  simp only [List.cons_append, List.append_assoc] at here
  rw [conditional]
  refine ((complete e stratified).whole here (closed_cons rfl)).bind fun e' c₁ _ same here₁ => ?_
  refine (h c₁ _ report here₁).bind fun r c₂ _ same' here₂ => ?_
  obtain ⟨else_, c₃, h₃, read, here₃⟩ := else_of_at here₂
  obtain ⟨if_, c₄, h₄, again, -, here₄⟩ := read?_of_at (p := (·.isKeyword .if_)) here₃
    fun t word => (Token.isKeyword_iff (by decide)).2 word
  dsimp only
  rw [read]
  dsimp only
  rw [again]
  refine (h' if_.span c₄ us report here₄ noElse).bind fun r' c₅ _ same'' here₅ => ?_
  exact yields_ok (by simp only [Stmt.bare, Stmt.bareBlock, same, same', same'']) here₅

theorem readsBlock {b : List Stmt} {ws : List TokenWord} (h : ReadsStatements b ws) :
    ReadsBlock b (.mark .lbrace :: ws) := by
  intro c vs report here
  rw [block]
  refine (yields_expectMark (by decide) here).bind fun _ c₁ _ _ here₁ => ?_
  exact (h c₁ _ vs report here₁ rfl).bind fun r c₂ _ same here₂ => yields_ok same here₂

theorem readsStatements_nil : ReadsStatements [] [.mark .rbrace] := by
  intro c us vs report here same
  have here := here.skipSeparators
  rw [same] at here
  obtain ⟨t, c₁, h₁, popped, word, here₁⟩ := pop?_of_at (w := .mark .rbrace) here
  rw [statements, popped]
  dsimp only
  rw [if_pos ((Token.isMark_iff (by decide)).2 word)]
  exact yields_ok rfl here₁

theorem readsStatements_cons {s : Stmt} {b : List Stmt} {ws vs : List TokenWord}
    (h : ReadsStatement s ws) (h' : ReadsStatements b vs)
    (starts : ∃ w us, ws = w :: us ∧ w.startsStatement = true) (noElse : ∀ us, NoElse (vs ++ us)) :
    ReadsStatements (s :: b) (ws ++ vs) := by
  intro c us us' report here same
  obtain ⟨w, us₁, rfl, first⟩ := starts
  obtain ⟨separator, brace, -⟩ := TokenWord.separates_not first
  have here := here.skipSeparators
  rw [same, List.append_assoc, List.cons_append,
    List.dropWhile_cons_of_neg (by simp [separator]), ← List.cons_append] at here
  obtain ⟨t, c₁, h₁, popped, word, -⟩ := pop?_of_at here
  have noBrace : ¬ t.isMark .rbrace = true := by
    rw [Token.isMark_iff (by decide), word]
    exact brace
  obtain ⟨us₂, same₂, read⟩ := h _ _ report here (noElse us')
  rw [statements, popped]
  dsimp only
  rw [if_neg noBrace]
  refine read.bind fun s' c₂ _ same' here₂ => ?_
  refine (h' c₂ us₂ us' report here₂ same₂).bind fun r c₃ _ same'' here₃ => ?_
  exact yields_ok (by simp only [Stmt.bareBlock, same', same'']) here₃

/-! ### All written forms -/

/-- The readers make of the words `ws` what they are written for, if its expressions are
stratified. -/
def Follows : Phrase → List TokenWord → Prop
  | .statement s, ws => (∀ e ∈ s.expressions, e.isStratified = true) → ReadsStatement s ws
  | .conditional s, ws => (∀ e ∈ s.expressions, e.isStratified = true) → ReadsConditional s ws
  | .block b, ws => (∀ e ∈ Stmt.blockExpressions b, e.isStratified = true) → ReadsBlock b ws
  | .statements b, ws =>
    (∀ e ∈ Stmt.blockExpressions b, e.isStratified = true) → ReadsStatements b ws

theorem follows_of_written {p : Phrase} {ws : List TokenWord} (h : Written p ws) :
    Follows p ws := by
  induction h with
  | var s n e => exact fun fits => readsStatement_var (fits e e.mem_preorder_self)
  | cond h ih => exact fun fits => readsStatement_cond (ih fits)
  | loop s c h ih =>
    intro fits
    simp only [Stmt.expressions, List.forall_mem_append] at fits
    exact readsStatement_loop (fits.1 c c.mem_preorder_self) (ih fits.2) h.opens
  | leave s => exact fun _ => readsStatement_leave
  | ret s e => exact fun fits => readsStatement_ret (fits e e.mem_preorder_self)
  | expr e => exact fun fits => readsStatement_expr (fits e e.mem_preorder_self)
  | alone s c h ih =>
    intro fits
    simp only [Stmt.expressions, List.forall_mem_append] at fits
    obtain ⟨us, rfl⟩ := h.opens
    exact readsConditional_alone (fits.1.1 c c.mem_preorder_self) (ih fits.1.2)
  | otherwise s c newlines h h' ih ih' =>
    intro fits
    simp only [Stmt.expressions, List.forall_mem_append] at fits
    obtain ⟨us, rfl⟩ := h.opens
    obtain ⟨vs, rfl⟩ := h'.opens
    exact readsConditional_otherwise newlines (fits.1.1 c c.mem_preorder_self) (ih fits.1.2)
      (ih' fits.2)
  | otherwiseIf s c newlines h h' ih ih' =>
    intro fits
    simp only [Stmt.expressions, Stmt.blockExpressions, List.forall_mem_append] at fits
    obtain ⟨us, rfl⟩ := h.opens
    exact readsConditional_otherwiseIf newlines (fits.1.1 c c.mem_preorder_self) (ih fits.1.2)
      (ih' fits.2.1)
  | block h ih => exact fun fits => readsBlock (ih fits)
  | nil => exact fun _ => readsStatements_nil
  | cons h h' ih ih' =>
    intro fits
    simp only [Stmt.blockExpressions, List.forall_mem_append] at fits
    exact readsStatements_cons (ih fits.1) (ih' fits.2) h.starts h'.noElse

/-! ## Declarations -/

/-- The word to come is not `mark`. -/
theorem read?_mark_eq_none {c : Cursor} {m : Mark} {ws : List TokenWord} {report : Report}
    (bang : m ≠ .bang) (here : c.At ws report) (other : ∀ w ∈ ws.head?, w ≠ .mark m) :
    c.read? (·.isMark m) = none := by
  refine read?_eq_none here fun t word => ?_
  rw [← Bool.not_eq_true, Token.isMark_iff bang]
  exact other t.word word

theorem yields_typeName {c : Cursor} {n : String} {ws : List TokenWord} {report : Report}
    (here : c.At (.name n :: ws) report) : Yields (typeName c) (·.name = n) ws report := by
  obtain ⟨t, c₁, h₁, popped, word, here₁⟩ := pop?_of_at here
  have kind : t.kind = .identifier := by
    have identifier := (Token.word_eq_name.1 word).1
    revert identifier
    unfold isIdentifier
    cases t.kind <;> simp
  unfold typeName
  rw [popped]
  dsimp only
  rw [kind]
  exact yields_ok (Token.word_eq_name.1 word).2 here₁

theorem yields_typeBehind? {m : Mark} {c : Cursor} {type : Option TypeName} {ws : List TokenWord}
    {report : Report} (bang : m ≠ .bang) (here : c.At (typeWords m type ++ ws) report)
    (other : ∀ w ∈ ws.head?, w ≠ .mark m) :
    Yields (typeBehind? m c) (fun t => t.map TypeName.bare = type.map TypeName.bare) ws report := by
  unfold typeBehind?
  cases type with
  | none =>
    rw [read?_mark_eq_none bang here other]
    exact yields_ok rfl here
  | some t =>
    obtain ⟨u, c₁, h₁, read, -, here₁⟩ :=
      read?_of_at here fun u word => (Token.isMark_iff bang).2 word
    rw [read]
    refine (yields_typeName here₁).bind fun t' c₂ _ named here₂ => yields_ok ?_ here₂
    simp only [Option.map_some, TypeName.bare, named]

theorem yields_valueBehind? {level : Nat} {c : Cursor} {value : Option Expr} {ws : List TokenWord}
    {report : Report} (low : level < 8)
    (fits : ∀ e ∈ value, e.isStratified = true ∧ level < e.binds)
    (here : c.At (valueWords value ++ ws) report) (closed : Closed ws) :
    Yields (valueBehind? level c) (fun e => e.map Expr.bare = value.map Expr.bare) ws report := by
  unfold valueBehind?
  cases value with
  | none =>
    have other : ∀ w ∈ ws.head?, w ≠ .mark .equal := by
      rintro w hw rfl
      cases closed _ hw
    rw [read?_mark_eq_none (by decide) here other]
    exact yields_ok rfl here
  | some e =>
    obtain ⟨stratified, tight⟩ := fits e rfl
    obtain ⟨u, c₁, h₁, read, -, here₁⟩ :=
      read?_of_at here fun u word => (Token.isMark_iff (by decide)).2 word
    rw [read]
    refine ((complete e stratified).expression low tight here₁ closed.endsChain
      (closed.stops level)).bind fun e' c₂ _ same here₂ => yields_ok ?_ here₂
    simp only [Option.map_some, same]

/-- In front of a value, or of the end behind it, no type is left to be read. -/
theorem no_type {m : Mark} {value : Option Expr} {ws : List TokenWord} (closed : Closed ws)
    (other : m ≠ .equal ∧ (TokenWord.mark m).endsExpr = false) :
    ∀ w ∈ (valueWords value ++ ws).head?, w ≠ .mark m := by
  cases value with
  | none =>
    rintro w hw rfl
    rw [closed _ hw] at other
    cases other.2
  | some e =>
    rintro w hw rfl
    cases hw
    exact other.1 rfl

/-! ### Functions -/

theorem yields_parameter {p : Parameter} {c : Cursor} {ws : List TokenWord} {report : Report}
    (fits : ∀ e ∈ p.default, e.isStratified = true ∧ e.isAssign = false)
    (here : c.At (p.words ++ ws) report) (closed : Closed ws) :
    Yields (parameter false c) (·.bare = p.bare) ws report := by
  have tight : ∀ e ∈ p.default, e.isStratified = true ∧ 1 < e.binds :=
    fun e he => ⟨(fits e he).1, Expr.one_lt_binds (fits e he).2⟩
  obtain ⟨name, span, type, default, variadic⟩ := p
  simp only [Parameter.words, List.append_assoc, List.cons_append] at here
  unfold parameter
  cases variadic
  case' true =>
    obtain ⟨t, c₁, h₁, dots, -, here₁⟩ :=
      read?_of_at here fun t word => (Token.isMark_iff (by decide)).2 word
  case' false =>
    have here₁ := here
    have dots := read?_mark_eq_none (m := .dots) (by decide) here nofun
  -- With dots or without them, what follows is read alike.
  all_goals
    rw [dots]
    refine (yields_expectName here₁).bind fun name' c₂ _ named here₂ => ?_
    refine (yields_typeBehind? (by decide) here₂ (no_type closed (by decide))).bind
      fun type' c₃ _ typed here₃ => ?_
    refine (yields_valueBehind? (by decide) tight here₃ closed).bind
      fun default' c₄ _ given here₄ => ?_
    exact yields_ok (by simp only [Parameter.bare, named, typed, given]) here₄

/-- No newline stands before a parameter, and it is none that ends the list. -/
theorem parameter_starts (p : Parameter) :
    ∃ w us, p.words = w :: us ∧ w.isNewline = false ∧ w ≠ .mark .rparen := by
  unfold Parameter.words
  cases p.variadic with
  | true => exact ⟨_, _, rfl, rfl, nofun⟩
  | false => exact ⟨_, _, rfl, rfl, nofun⟩

theorem at_parameter {p : Parameter} {c : Cursor} {ws : List TokenWord} {report : Report}
    (here : c.At (p.words ++ ws) report) : c.skipNewlines.At (p.words ++ ws) report := by
  obtain ⟨w, us, first, visible, -⟩ := parameter_starts p
  rw [first, List.cons_append] at here ⊢
  exact here.visible visible

theorem intercalate_starts {w : TokenWord} (ws : List TokenWord) (wss : List (List TokenWord)) :
    ∃ us, [w].intercalate (ws :: wss) = ws ++ us := by
  cases wss with
  | nil => exact ⟨[], by simp⟩
  | cons vs wss =>
    rw [List.intercalate_cons_cons, List.append_assoc]
    exact ⟨_, rfl⟩

theorem yields_parameterList {ps : List Parameter} (some_ : ps ≠ [])
    (fits : ∀ p ∈ ps, ∀ e ∈ p.default, e.isStratified = true ∧ e.isAssign = false)
    (variadic : ps.Pairwise fun p _ => p.variadic = false) {c : Cursor} {ws : List TokenWord}
    {report : Report}
    (here : c.At ([TokenWord.mark .comma].intercalate (ps.map Parameter.words) ++
      .mark .rparen :: ws) report) :
    Yields (parameterList false c) (fun qs => qs.map Parameter.bare = ps.map Parameter.bare) ws
      report := by
  induction ps generalizing c with
  | nil => exact absurd rfl some_
  | cons p ps ih =>
    have mine := fits p List.mem_cons_self
    rw [parameterList]
    cases ps with
    | nil =>
      have here : c.At (p.words ++ .mark .rparen :: ws) report := by simpa using here
      refine (yields_parameter mine (at_parameter here) (closed_cons rfl)).bind
        fun p' c₁ _ same here₁ => ?_
      obtain ⟨t, c₂, h₂, popped, word, here₂⟩ := pop?_of_at (here₁.visible rfl)
      have noComma : ¬ t.isMark .comma = true := by simp [Token.isMark_iff, word]
      dsimp only
      rw [popped]
      dsimp only
      rw [if_neg noComma, if_pos ((Token.isMark_iff (by decide)).2 word)]
      exact yields_ok (by simp only [List.map_cons, List.map_nil, same]) here₂
    | cons q ps =>
      simp only [List.map_cons, List.intercalate_cons_cons, List.append_assoc] at here
      obtain ⟨before, behind⟩ := List.pairwise_cons.1 variadic
      refine (yields_parameter mine (at_parameter here) (closed_cons rfl)).bind
        fun p' c₁ _ same here₁ => ?_
      obtain ⟨t, c₂, h₂, popped, word, here₂⟩ := pop?_of_at (here₁.visible rfl)
      have plain : p'.variadic = false :=
        (congrArg Parameter.variadic same).trans (before q List.mem_cons_self)
      dsimp only
      rw [popped]
      dsimp only
      rw [if_pos ((Token.isMark_iff (by decide)).2 word), plain]
      refine (ih (List.cons_ne_nil q ps) (fun r hr => fits r (List.mem_cons_of_mem p hr)) behind
        here₂).bind fun others c₃ _ same' here₃ => ?_
      exact yields_ok (by rw [List.map_cons, same, same', ← List.map_cons]) here₃

theorem yields_parameters {ps : List Parameter}
    (fits : ∀ p ∈ ps, ∀ e ∈ p.default, e.isStratified = true ∧ e.isAssign = false)
    (variadic : ps.Pairwise fun p _ => p.variadic = false) {c : Cursor} {ws : List TokenWord}
    {report : Report}
    (here : c.At ([TokenWord.mark .comma].intercalate (ps.map Parameter.words) ++
      .mark .rparen :: ws) report) :
    Yields (parameters c) (fun qs => qs.map Parameter.bare = ps.map Parameter.bare) ws report := by
  unfold parameters
  cases ps with
  | nil =>
    have here : c.At (.mark .rparen :: ws) report := here
    obtain ⟨t, c₁, h₁, read, -, here₁⟩ := read?_of_at (p := (·.isMark .rparen)) (here.visible rfl)
      fun t word => (Token.isMark_iff (by decide)).2 word
    dsimp only
    rw [read]
    exact yields_ok rfl here₁
  | cons p ps =>
    have noEnd : c.skipNewlines.read? (·.isMark .rparen) = none := by
      obtain ⟨w, us, first, visible, other⟩ := parameter_starts p
      obtain ⟨vs, front⟩ :=
        intercalate_starts (w := .mark .comma) p.words (ps.map Parameter.words)
      have here := here
      rw [List.map_cons, front, first, List.append_assoc, List.cons_append] at here
      refine read?_mark_eq_none (by decide) (here.visible visible) fun v hv => ?_
      cases hv
      exact other
    dsimp only
    rw [noEnd]
    exact yields_parameterList (List.cons_ne_nil p ps) fits variadic here

theorem yields_function {f : FunctionDecl} (writable : f.Writable) {us : List TokenWord}
    (written : f.Written us) (start : Span) {c : Cursor} {ws : List TokenWord} {report : Report}
    (here : c.At (us ++ ws) report) : Yields (function start c) (·.bare = f.bare) ws report := by
  obtain ⟨body, block, rfl⟩ := written
  obtain ⟨vs, opens⟩ := block.opens
  simp only [List.cons_append, List.append_assoc] at here
  unfold function
  refine (yields_expectName here).bind fun name c₁ _ named here₁ => ?_
  refine (yields_expectMark (by decide) here₁).bind fun _ c₂ _ _ here₂ => ?_
  refine (yields_parameters writable.defaults writable.variadic here₂).bind
    fun parameters c₃ _ given here₃ => ?_
  have noArrow : ∀ w ∈ (body ++ ws).head?, w ≠ .mark .arrow := by
    rw [opens]
    intro w hw
    cases hw
    nofun
  refine (yields_typeBehind? (by decide) here₃ noArrow).bind fun returns c₄ _ typed here₄ => ?_
  refine (follows_of_written block writable.body c₄ ws report here₄).bind
    fun r c₅ _ same here₅ => ?_
  exact yields_ok (by simp only [FunctionDecl.bare, named, given, typed, same]) here₅

/-! ### Classes and globals -/

theorem yields_field {f : FieldDecl} (fits : ∀ e ∈ f.value, e.isStratified = true) {c : Cursor}
    {ws : List TokenWord} {report : Report} (here : c.At (f.words ++ ws) report) :
    Yields (field c) (·.bare = f.bare) (ws.dropWhile TokenWord.isSeparator) report := by
  simp only [FieldDecl.words, List.cons_append, List.append_assoc] at here
  have closed : Closed (.newline :: ws) := closed_cons rfl
  unfold field
  refine (yields_expectName here).bind fun name c₁ _ named here₁ => ?_
  refine (yields_typeBehind? (by decide) here₁ (no_type closed (by decide))).bind
    fun type c₂ _ typed here₂ => ?_
  refine (yields_valueBehind? (by decide) (fun e he => ⟨fits e he, e.binds_pos⟩) here₂
    closed).bind fun value c₃ _ given here₃ => ?_
  obtain ⟨⟨c₄, h₄⟩, ended, here₄⟩ := statementEnd_of_at here₃
  dsimp only
  simp only [ended]
  exact yields_ok (by simp only [FieldDecl.bare, named, typed, given]) here₄

/-- The body of a class is read, whatever separators stand before it. -/
theorem yields_classBody {fields : List FieldDecl} {methods : List FunctionDecl}
    {ws : List TokenWord} (written : WrittenBody fields methods ws)
    (fits : ∀ f ∈ fields, ∀ e ∈ f.value, e.isStratified = true)
    (writable : ∀ f ∈ methods, f.Writable) {c : Cursor} {us vs : List TokenWord} {report : Report}
    (here : c.At us report)
    (same : us.dropWhile TokenWord.isSeparator = (ws ++ vs).dropWhile TokenWord.isSeparator) :
    Yields (classBody c)
      (fun r => r.1.map FieldDecl.bare = fields.map FieldDecl.bare ∧
        r.2.map FunctionDecl.bare = methods.map FunctionDecl.bare) vs report := by
  have here := here.skipSeparators
  rw [same] at here
  induction written generalizing c us with
  | nil =>
    obtain ⟨t, c₁, h₁, popped, word, here₁⟩ := pop?_of_at (w := .mark .rbrace) here
    rw [classBody, popped]
    dsimp only
    rw [if_pos ((Token.isMark_iff (by decide)).2 word)]
    exact yields_ok ⟨rfl, rfl⟩ here₁
  | @field f fields methods ws h ih =>
    obtain ⟨first, others⟩ := List.forall_mem_cons.1 fits
    rw [List.cons_append, List.append_assoc, List.dropWhile_cons_of_neg (by decide)] at here
    obtain ⟨t, c₁, h₁, popped, word, here₁⟩ := pop?_of_at here
    have noBrace : ¬ t.isMark .rbrace = true := by simp [Token.isMark_iff, word]
    rw [classBody, popped]
    dsimp only
    rw [if_neg noBrace, if_pos ((Token.isKeyword_iff (by decide)).2 word)]
    refine (yields_field first here₁).bind fun f' c₂ _ read here₂ => ?_
    have dropped := List.dropWhile_idempotent TokenWord.isSeparator (ws ++ vs)
    have again := here₂.skipSeparators
    rw [dropped] at again
    refine (ih others writable here₂ dropped again).bind fun r c₃ _ rest here₃ => ?_
    exact yields_ok ⟨by rw [List.map_cons, read, rest.1, List.map_cons], rest.2⟩ here₃
  | @method f fields methods ws vs' h h' ih =>
    obtain ⟨first, others⟩ := List.forall_mem_cons.1 writable
    rw [List.cons_append, List.append_assoc, List.dropWhile_cons_of_neg (by decide)] at here
    obtain ⟨t, c₁, h₁, popped, word, here₁⟩ := pop?_of_at here
    have noBrace : ¬ t.isMark .rbrace = true := by simp [Token.isMark_iff, word]
    have noField : ¬ t.isKeyword .var = true := by simp [Token.isKeyword_iff, word]
    rw [classBody, popped]
    dsimp only
    rw [if_neg noBrace, if_neg noField, if_pos ((Token.isKeyword_iff (by decide)).2 word)]
    refine (yields_function first h t.span here₁).bind fun f' c₂ _ read here₂ => ?_
    have again := here₂.skipSeparators
    refine (ih fits others here₂ rfl again).bind fun r c₃ _ rest here₃ => ?_
    exact yields_ok ⟨rest.1, by rw [List.map_cons, read, rest.2, List.map_cons]⟩ here₃

theorem yields_global {g : GlobalDecl} (fits : g.value.isStratified = true) {c : Cursor}
    {ws : List TokenWord} {report : Report}
    (here : c.At (.name g.name :: (typeWords .colon g.typeName ++
      .mark .equal :: (g.value.words ++ .newline :: ws))) report) :
    Yields (global g.constant c) (·.bare = g.bare) (ws.dropWhile TokenWord.isSeparator) report := by
  have noColon : ∀ w ∈ (TokenWord.mark .equal :: (g.value.words ++ .newline :: ws)).head?,
      w ≠ .mark .colon := by
    intro w hw
    cases hw
    nofun
  unfold global
  refine (yields_expectName here).bind fun name c₁ _ named here₁ => ?_
  refine (yields_typeBehind? (by decide) here₁ noColon).bind fun type c₂ _ typed here₂ => ?_
  refine (yields_expectMark (by decide) here₂).bind fun _ c₃ _ _ here₃ => ?_
  refine ((complete g.value fits).whole here₃ (closed_cons rfl)).bind
    fun value c₄ _ same here₄ => ?_
  obtain ⟨⟨c₅, h₅⟩, ended, here₅⟩ := statementEnd_of_at here₄
  dsimp only
  simp only [ended]
  exact yields_ok (by simp only [GlobalDecl.bare, named, typed, same]) here₅

/-! ### Items -/

/-- An item is read; separators behind it may be passed over. -/
theorem yields_item {i : Item} {ws : List TokenWord} (written : i.Written ws)
    (writable : i.Writable) {c : Cursor} {vs : List TokenWord} {report : Report}
    (here : c.At (ws ++ vs) report) :
    ∃ us, us.dropWhile TokenWord.isSeparator = vs.dropWhile TokenWord.isSeparator ∧
      Yields (item c) (·.bare = i.bare) us report := by
  unfold item
  cases written with
  | function h =>
    refine ⟨.newline :: vs, List.dropWhile_cons_of_pos rfl, ?_⟩
    simp only [List.cons_append, List.append_assoc, List.nil_append] at here
    obtain ⟨t, c₁, h₁, popped, word, here₁⟩ := pop?_of_at here
    rw [popped]
    dsimp only
    rw [kind_of_keyword word]
    refine (yields_function writable h t.span here₁).bind fun f c₂ _ same here₂ => ?_
    exact yields_ok (congrArg Item.function same) here₂
  | class_ d h =>
    refine ⟨.newline :: vs, List.dropWhile_cons_of_pos rfl, ?_⟩
    simp only [List.cons_append, List.append_assoc, List.nil_append] at here
    obtain ⟨t, c₁, h₁, popped, word, here₁⟩ := pop?_of_at here
    have whole : Yields (classDecl c₁) (·.bare = d.bare) (.newline :: vs) report := by
      unfold classDecl
      refine (yields_expectName here₁).bind fun name c₂ _ named here₂ => ?_
      refine (yields_expectMark (by decide) here₂).bind fun _ c₃ _ _ here₃ => ?_
      refine (yields_classBody h writable.1 writable.2 here₃ rfl).bind
        fun r c₄ _ same here₄ => ?_
      exact yields_ok (by simp only [ClassDecl.bare, named, same]) here₄
    rw [popped]
    dsimp only
    rw [kind_of_keyword word]
    exact whole.bind fun d' c₂ _ same here₂ => yields_ok (congrArg Item.class_ same) here₂
  | global g =>
    refine ⟨vs.dropWhile TokenWord.isSeparator, List.dropWhile_idempotent _ _, ?_⟩
    simp only [List.cons_append, List.append_assoc, List.nil_append] at here
    obtain ⟨t, c₁, h₁, popped, word, here₁⟩ := pop?_of_at here
    have read := yields_global writable here₁
    rw [popped]
    dsimp only
    rw [kind_of_keyword word]
    cases constant : g.constant with
    | true =>
      rw [constant] at read
      exact read.bind fun g' c₂ _ same here₂ => yields_ok (congrArg Item.global same) here₂
    | false =>
      rw [constant] at read
      exact read.bind fun g' c₂ _ same here₂ => yields_ok (congrArg Item.global same) here₂

/-- Items are read to the end, whatever separators stand before them. -/
theorem items_of_written {is : List Item} {ws : List TokenWord} (written : WrittenItems is ws)
    (writable : ∀ i ∈ is, i.Writable) {c : Cursor} {us : List TokenWord} {report : Report}
    (here : c.At us report)
    (same : us.dropWhile TokenWord.isSeparator = ws.dropWhile TokenWord.isSeparator) :
    ∃ found, items c = .ok (found, report) ∧ found.map Item.bare = is.map Item.bare := by
  have here := here.skipSeparators
  rw [same] at here
  induction written generalizing c us with
  | nil =>
    have nothing : c.skipSeparators.rest = [] := List.map_eq_nil_iff.1 here.words
    refine ⟨[], ?_, rfl⟩
    rw [items, nothing]
    exact congrArg (fun r => Except.ok ([], r)) here.report
  | @cons i is ws vs h h' ih =>
    obtain ⟨first, others⟩ := List.forall_mem_cons.1 writable
    obtain ⟨w, us₁, rfl, visible⟩ := h.starts
    rw [List.cons_append, List.dropWhile_cons_of_neg (by simp [visible]),
      ← List.cons_append] at here
    obtain ⟨us₂, same₂, ⟨i', c₁, h₁⟩, read, item, here₁⟩ := yields_item h first here
    have again := here₁.skipSeparators
    rw [same₂] at again
    obtain ⟨found, rest, like⟩ := ih others here₁ same₂ again
    have more : c.skipSeparators.rest.isEmpty = false := isEmpty_of_at here
    refine ⟨i' :: found, ?_, by rw [List.map_cons, item, like, List.map_cons]⟩
    rw [items, more, read]
    simp only [bind, Except.bind, rest]
    rfl

end Reading

/-! ## Modules -/

theorem Module.ofTokens_of_written {m : Module} (writable : m.Writable) {row : TokenRow}
    (written : WrittenItems m.items (row.tokens.map Token.word)) :
    ∃ m', Module.ofTokens row = .ok (m', Report.empty) ∧ m'.bare = m.bare := by
  have start : (Cursor.ofRow row).At (row.tokens.map Token.word) Report.empty := ⟨rfl, rfl⟩
  obtain ⟨found, read, same⟩ := Reading.items_of_written written writable start rfl
  refine ⟨⟨found⟩, ?_, congrArg Module.mk same⟩
  unfold Module.ofTokens
  rw [read]
  rfl

/-- A module can be written, and however it is written, it is read as it was. -/
theorem Module.ofTokens_undoes_writing {m : Module} (writable : m.Writable) :
    (∃ row : TokenRow, WrittenItems m.items (row.tokens.map Token.word)) ∧
      ∀ row : TokenRow, WrittenItems m.items (row.tokens.map Token.word) →
        ∃ m', Module.ofTokens row = .ok (m', Report.empty) ∧ m'.bare = m.bare :=
  ⟨m.exists_row, fun _ written => ofTokens_of_written writable written⟩

/-- A conditional whose `else` stands two lines below its first block. -/
theorem Module.ofTokens_undoes_writing_of_late_else :
    let f : FunctionDecl := ⟨"f", .absent, [⟨"a", .absent, none, none, false⟩], none,
      [.cond .absent (.name .absent "a") [] (some [.ret .absent none])], .absent⟩
    let words : List TokenWord := [.keyword .fn, .name "f", .mark .lparen, .name "a", .mark .rparen,
      .mark .lbrace, .keyword .if_, .name "a", .mark .lbrace, .mark .rbrace, .newline, .newline,
      .keyword .else_, .mark .lbrace, .keyword .return_, .newline, .mark .rbrace, .newline,
      .mark .rbrace, .newline]
    f.Writable ∧ ∃ m', Module.ofTokens ⟨words.map TokenWord.token, Place.start⟩ =
      .ok (m', Report.empty) ∧ m'.bare = ⟨[.function f]⟩ := by
  intro f words
  have writable : f.Writable := by
    refine ⟨by decide, ?_, by simp [f]⟩
    intro p hp e he
    cases List.mem_singleton.1 hp
    cases he
  have statements : Written (.statements f.body) _ :=
    .cons (.cond (.otherwise .absent (.name .absent "a") 2 (.block .nil)
      (.block (.cons (.leave .absent) .nil)))) .nil
  have written : WrittenItems [.function f] (words.map TokenWord.token |>.map Token.word) :=
    .cons (.function ⟨_, .block statements, rfl⟩) .nil
  have all : (Module.mk [.function f]).Writable := List.forall_mem_singleton.2 writable
  exact ⟨writable, (ofTokens_undoes_writing all).2 ⟨words.map TokenWord.token, Place.start⟩ written⟩

end PathTyping
