import PathTyping.Proofs.Alongside

/-!
# Every reading ends

A row hangs if it ends in an opening parenthesis or in a unary operator.  Any other row is read by
position as it is read by the tokens to come: so the reading ends, and it stays inside of the row,
wherever the row breaks off.  Besides operands, the one place where the last token of a row is taken
again is the end of a list of parameters, and what is read before it ends in no comma; so the list
does not go on.

1. `statement_agrees`, `function_agrees`, `item_agrees` and their siblings go through the readers of
   statements and declarations.
2. `operand_never`: behind a row that hangs, an operand is looked for without end.
3. `TokenRow.reading_ends`: any other row is read to its end.
-/

namespace PathTyping

open Positional

namespace Positional

variable {row : TokenRow} {p : Position} {c : Cursor}

/-! ## Statements -/

theorem runAt_elseAhead (stands : p.Stands row c) :
    row.elseAhead.runAt p = some (.ok (c.skipNewlines.nextIs (·.isKeyword .else_), p)) := by
  have inside : ¬ row.tokens.length + 1 < p.index :=
    Nat.not_lt.2 (Nat.le_succ_of_le stands.inside)
  have ahead : ((row.tokens.drop p.index).find? (!·.isNewline)).any (·.isKeyword .else_) =
      c.skipNewlines.nextIs (·.isKeyword .else_) := by
    rw [← stands.rest, List.find?_not_eq_head?_dropWhile]
    unfold Cursor.skipNewlines Cursor.skip Cursor.nextIs
    cases c.rest.dropWhile Token.isNewline <;> rfl
  rw [TokenRow.elseAhead, runAt_bind (x := get) rfl]
  dsimp only
  rw [if_neg inside, ahead]
  rfl

/-- What ends a statement is passed over alike. -/
theorem statementEnd_runs (stands : p.Stands row c) :
    match Reading.statementEnd c with
    | .ok s => ∃ p', row.statementEnd.runAt p = some (.ok ((), p')) ∧ p'.Stands row s.1
    | .error e => row.statementEnd.runAt p = some (.error (.failed e)) := by
  rw [TokenRow.statementEnd, runAt_bind stands.peek, Cursor.is_found, Cursor.isFinish_found,
    Cursor.is_found]
  unfold Reading.statementEnd
  by_cases separates : c.nextIs Token.isSeparator = true
  · rw [Cursor.not_closed_of_separator separates, separates]
    exact stands.skip Token.isSeparator
  · rw [if_neg separates, if_neg separates]
    cases c.rest.isEmpty || c.nextIs (·.isMark .rbrace) with
    | true => exact ⟨p, rfl, stands⟩
    | false => exact stands.failHere _ rfl

theorem agrees_statementEnd {β : Type} {m : Nat} {f : Unit → Positional β}
    {g : { next : Cursor // next.size ≤ c.size } → Reading β m} (stands : p.Stands row c)
    (rest : ∀ s p', p'.Stands row s.1 → Agrees row (f ()) p' (g s)) :
    Agrees row (row.statementEnd >>= f) p (Reading.statementEnd c >>= g) := by
  have runs := statementEnd_runs stands
  cases ended : Reading.statementEnd c with
  | error e =>
    rw [ended] at runs
    exact runAt_bind_error runs
  | ok s =>
    rw [ended] at runs
    obtain ⟨p', run, stands'⟩ := runs
    exact agrees_behind run (rest s p' stands')

theorem typeName_agrees (stands : p.Stands row c) :
    Agrees row row.typeName p (Reading.typeName c) := by
  unfold Reading.typeName TokenRow.typeName
  refine agrees_behind stands.peek ?_
  cases popped : c.pop? with
  | none =>
    rw [Cursor.found_of_pop?_none popped]
    exact stands.failHere _ (Cursor.found_of_pop?_none popped)
  | some r =>
    obtain ⟨t, c₁, h₁⟩ := r
    rw [Cursor.found_of_pop? popped]
    dsimp only
    cases t.kind with
    | identifier =>
      exact agrees_behind (stands.advance popped) (agrees_pure (stands.popped popped).2)
    | keyword k =>
      cases k with
      | nil => exact agrees_behind (stands.advance popped) (agrees_pure (stands.popped popped).2)
      | _ => exact stands.failHere _ (Cursor.found_of_pop? popped)
    | _ => exact stands.failHere _ (Cursor.found_of_pop? popped)

theorem typeBehind?_agrees (mark : Mark) (stands : p.Stands row c) :
    Agrees row (row.typeBehind? mark) p (Reading.typeBehind? mark c) := by
  unfold Reading.typeBehind? TokenRow.typeBehind?
  refine agrees_behind (stands.peekIs _) ?_
  cases found : c.read? (·.isMark mark) with
  | none =>
    rw [Cursor.nextIs_of_read?_none found]
    exact agrees_pure stands
  | some r =>
    obtain ⟨t, c₁, h₁⟩ := r
    obtain ⟨popped, fits⟩ := Cursor.pop?_of_read? found
    rw [(Cursor.nextIs_of_pop? popped _).trans fits]
    refine agrees_behind (stands.advance popped) ?_
    refine agrees_bind (typeName_agrees (stands.popped popped).2) fun ⟨a, c₂, h₂⟩ p₂ _ stands₂ => ?_
    exact agrees_pure stands₂

theorem valueBehind?_agrees (whole : ¬ row.Hangs) (level : Nat) (stands : p.Stands row c) :
    Agrees row (row.valueBehind? level) p (Reading.valueBehind? level c) := by
  unfold Reading.valueBehind? TokenRow.valueBehind?
  refine agrees_behind (stands.peekIs _) ?_
  cases found : c.read? (·.isMark .equal) with
  | none =>
    rw [Cursor.nextIs_of_read?_none found]
    exact agrees_pure stands
  | some r =>
    obtain ⟨t, c₁, h₁⟩ := r
    obtain ⟨popped, fits⟩ := Cursor.pop?_of_read? found
    rw [(Cursor.nextIs_of_pop? popped _).trans fits]
    refine agrees_behind (stands.advance popped) ?_
    have ready₁ := Cursor.Ready.of_pop? popped (Token.atom?_of_isMark fits)
    refine agrees_bind (expression_agrees whole level (stands.popped popped).2 ready₁)
      fun ⟨e, c₂, h₂⟩ p₂ _ stands₂ => ?_
    exact agrees_pure stands₂

/-- A statement that is an expression. -/
theorem bare_agrees (whole : ¬ row.Hangs) (stands : p.Stands row c) (ready : c.Ready) :
    Agrees row (do
      let e ← row.expression 0
      row.statementEnd
      return .expr e) p (do
      let ⟨e, c₂, h₂⟩ ← Reading.expression 0 c
      let ⟨c₃, h₃⟩ ← Reading.statementEnd c₂
      return (⟨.expr e, c₃, Nat.lt_of_le_of_lt h₃ h₂⟩ : Read Stmt c.size)) := by
  refine agrees_bind (expression_agrees whole 0 stands ready) fun ⟨e, c₂, h₂⟩ p₂ _ stands₂ => ?_
  exact agrees_statementEnd stands₂ fun s p₃ stands₃ => agrees_pure stands₃

mutual

theorem block_agrees (whole : ¬ row.Hangs) {p : Position} {c : Cursor} (stands : p.Stands row c) :
    Agrees row row.block p (Reading.block c) := by
  rw [Reading.block, TokenRow.block]
  refine agrees_bind (stands.expectMark _ _) fun ⟨t, c₁, h₁⟩ p₁ _ stands₁ => ?_
  exact (statements_agrees whole stands₁).tail fun _ => ⟨_, rfl⟩
termination_by 4 * c.size
decreasing_by all_goals dsimp only at *; omega

theorem statements_agrees (whole : ¬ row.Hangs) {p : Position} {c : Cursor}
    (stands : p.Stands row c) : Agrees row row.statements p (Reading.statements c) := by
  rw [Reading.statements, TokenRow.statements]
  have hs := c.size_skipSeparators_le
  refine agrees_skipSeparators stands fun p₁ stands₁ => agrees_behind stands₁.peek ?_
  cases popped : c.skipSeparators.pop? with
  | none =>
    rw [Cursor.found_of_pop?_none popped]
    exact stands₁.failHere _ (Cursor.found_of_pop?_none popped)
  | some r =>
    obtain ⟨t, c₂, h₂⟩ := r
    rw [Cursor.found_of_pop? popped]
    refine agrees_ite (fun _ => ?_) fun _ => ?_
    · exact agrees_behind (stands₁.advance popped) (agrees_pure (stands₁.popped popped).2)
    · refine agrees_bind (statement_agrees whole stands₁ popped)
        fun ⟨s, c₃, h₃⟩ p₃ _ stands₃ => ?_
      refine agrees_bind (statements_agrees whole stands₃)
        fun ⟨⟨others, close⟩, c₄, h₄⟩ p₄ _ stands₄ => ?_
      exact agrees_pure stands₄
termination_by 4 * c.size + 1
decreasing_by all_goals dsimp only at *; omega

theorem statement_agrees (whole : ¬ row.Hangs) {p : Position} {c : Cursor} (stands : p.Stands row c)
    {r : Read Token c.size} (popped : c.pop? = some r) :
    Agrees row row.statement p (Reading.statement c) := by
  rw [Reading.statement, TokenRow.statement]
  obtain ⟨t, c₁, h₁⟩ := r
  have stands₁ := (stands.popped popped).2
  refine agrees_behind stands.peek ?_
  rw [popped, Cursor.found_of_pop? popped]
  dsimp only
  have ready {k : Keyword} (kind : t.kind = .keyword k) (other : k ≠ .nil) (other' : k ≠ .self) :
      c₁.Ready := Cursor.Ready.of_pop? popped (Token.atom?_of_keyword kind other other')
  have ready' : c.Ready := .of_more (Cursor.rest_of_pop? popped ▸ List.cons_ne_nil _ _)
  cases kind : t.kind with
  | keyword k =>
    cases k with
    | var =>
      refine agrees_behind (stands.advance popped) ?_
      refine agrees_bind (stands₁.expectName _) fun ⟨name, c₂, h₂⟩ p₂ _ stands₂ => ?_
      refine agrees_bind (stands₂.expectMark _ _) fun ⟨equal, c₃, h₃⟩ p₃ read stands₃ => ?_
      have ready₃ := Cursor.Ready.of_expectMark read
      refine agrees_bind (expression_agrees whole 0 stands₃ ready₃)
        fun ⟨value, c₄, h₄⟩ p₄ _ stands₄ => ?_
      exact agrees_statementEnd stands₄ fun s p₅ stands₅ => agrees_pure stands₅
    | if_ =>
      refine agrees_behind (stands.advance popped) ?_
      refine agrees_bind (conditional_agrees whole _ stands₁ (ready kind nofun nofun))
        fun ⟨⟨s, close⟩, c₂, h₂⟩ p₂ _ stands₂ => agrees_pure stands₂
    | while_ =>
      refine agrees_behind (stands.advance popped) ?_
      refine agrees_bind (expression_agrees whole 0 stands₁ (ready kind nofun nofun))
        fun ⟨condition, c₂, h₂⟩ p₂ _ stands₂ => ?_
      exact agrees_bind (block_agrees whole stands₂)
        fun ⟨⟨body, close⟩, c₃, h₃⟩ p₃ _ stands₃ => agrees_pure stands₃
    | return_ =>
      refine agrees_behind (stands.advance popped) (agrees_behind stands₁.peek ?_)
      rw [Cursor.isFinish_found, Cursor.is_found]
      refine agrees_ite (fun _ => ?_) fun _ => ?_
      · exact agrees_statementEnd stands₁ fun s p₂ stands₂ => agrees_pure stands₂
      · refine agrees_bind (expression_agrees whole 0 stands₁ (ready kind nofun nofun))
          fun ⟨value, c₂, h₂⟩ p₂ _ stands₂ => ?_
        exact agrees_statementEnd stands₂ fun s p₃ stands₃ => agrees_pure stands₃
    | _ => exact bare_agrees whole stands ready'
  | _ => exact bare_agrees whole stands ready'
termination_by 4 * c.size
decreasing_by all_goals dsimp only at *; omega

theorem conditional_agrees (whole : ¬ row.Hangs) (start : Span) {p : Position} {c : Cursor}
    (stands : p.Stands row c) (ready : c.Ready) :
    Agrees row (row.conditional start) p (Reading.conditional start c) := by
  rw [Reading.conditional, TokenRow.conditional]
  refine agrees_bind (expression_agrees whole 0 stands ready)
    fun ⟨condition, c₁, h₁⟩ p₁ _ stands₁ => ?_
  dsimp only
  refine agrees_bind (block_agrees whole stands₁)
    fun ⟨⟨consequent, close⟩, c₂, h₂⟩ p₂ _ stands₂ => ?_
  dsimp only
  refine agrees_behind (runAt_elseAhead stands₂) ?_
  have hs := c₂.size_skipNewlines_le
  cases otherwise : c₂.skipNewlines.read? (·.isKeyword .else_) with
  | none =>
    have absent := Cursor.nextIs_of_read?_none otherwise
    dsimp only
    rw [absent]
    refine agrees_behind (stands₂.peekIs _) ?_
    dsimp only
    rw [Cursor.nextIs_of_skipNewlines absent]
    exact agrees_pure stands₂
  | some r =>
    obtain ⟨t, c₃, h₃⟩ := r
    obtain ⟨popped, fits⟩ := Cursor.pop?_of_read? otherwise
    have comes : c₂.skipNewlines.nextIs (·.isKeyword .else_) = true :=
      (Cursor.nextIs_of_pop? popped _).trans fits
    dsimp only
    rw [comes]
    refine agrees_skipNewlines stands₂ fun p₃ stands₃ => agrees_behind (stands₃.peekIs _) ?_
    rw [comes]
    have stands₄ := (stands₃.popped popped).2
    refine agrees_behind (stands₃.advance popped) (agrees_behind (stands₄.peekIs _) ?_)
    cases again : c₃.read? (·.isKeyword .if_) with
    | none =>
      rw [Cursor.nextIs_of_read?_none again]
      exact agrees_bind (block_agrees whole stands₄)
        fun ⟨⟨alternative, close'⟩, c₄, h₄⟩ p₅ _ stands₅ => agrees_pure stands₅
    | some r =>
      obtain ⟨t', c₄, h₄⟩ := r
      obtain ⟨popped', fits'⟩ := Cursor.pop?_of_read? again
      rw [(Cursor.nextIs_of_pop? popped' _).trans fits']
      refine agrees_behind (stands₄.advance popped') ?_
      have ready₄ := Cursor.Ready.of_pop? popped' (Token.atom?_of_isKeyword fits' nofun nofun)
      exact agrees_bind (conditional_agrees whole _ (stands₄.popped popped').2 ready₄)
        fun ⟨⟨nested, nestedSpan⟩, c₅, h₅⟩ p₅ _ stands₅ => agrees_pure stands₅
termination_by 4 * c.size
decreasing_by all_goals dsimp only at *; omega

end

end Positional

/-! ## Declarations -/

namespace Expr

/-- No expression ends in a comma. -/
theorem getLast?_words (e : Expr) : ∃ w, e.words.getLast? = some w ∧ w ≠ .mark .comma := by
  cases e with
  | literal _ l => cases l <;> exact ⟨_, rfl, nofun⟩
  | name _ n => exact ⟨_, rfl, nofun⟩
  | self _ => exact ⟨_, rfl, nofun⟩
  | unary _ op e =>
    obtain ⟨w, last, other⟩ := getLast?_words e
    exact ⟨w, by simp [words, List.getLast?_cons, last], other⟩
  | binary _ op l r =>
    obtain ⟨w, last, other⟩ := getLast?_words r
    exact ⟨w, by simp [words, List.getLast?_cons, last], other⟩
  | assign _ t v =>
    obtain ⟨w, last, other⟩ := getLast?_words v
    exact ⟨w, by simp [words, List.getLast?_cons, last], other⟩
  | call _ f args => exact ⟨.mark .rparen, by simp [words, List.getLast?_cons], nofun⟩
  | member _ o n _ => exact ⟨.name n, by simp [words, List.getLast?_cons], nofun⟩
  | index _ o i => exact ⟨.mark .rbracket, by simp [words, List.getLast?_cons], nofun⟩
  | group _ e => exact ⟨.mark .rparen, by simp [words, List.getLast?_cons], nofun⟩

end Expr

namespace Cursor

variable {c d e : Cursor} {ws : List TokenWord}

/-- What is read between the two does not end in a comma. -/
def Completes (c d : Cursor) : Prop := ∃ ws, c.Says d ws ∧ ∃ w ∈ ws.getLast?, w ≠ .mark .comma

theorem Says.completes (h : c.Says d ws) (h' : d.Completes e) : c.Completes e := by
  obtain ⟨vs, said, w, last, other⟩ := h'
  refine ⟨ws ++ vs, h.trans said, w, ?_, other⟩
  rw [List.getLast?_append, Option.mem_def.1 last]
  rfl

theorem Completes.trans (h : c.Completes d) (h' : d = e ∨ d.Completes e) : c.Completes e := by
  obtain rfl | h' := h'
  · exact h
  · obtain ⟨ws, said, -⟩ := h
    exact said.completes h'

theorem Completes.skip (h : c.Completes d) : c.Completes d.skipNewlines := by
  obtain ⟨ws, said, last⟩ := h
  exact ⟨ws, said.skip, last⟩

end Cursor

namespace Reading

theorem typeName_completes (c : Cursor) : Brings (typeName c) fun _ next => c.Completes next := by
  unfold typeName
  split
  · next t c₁ h₁ popped =>
    split
    · next kind =>
      have word : t.word = .name t.lexeme := by simp [Token.word, kind]
      exact brings_ok ⟨_, Cursor.says_pop? popped word rfl, _, rfl, nofun⟩
    · next kind =>
      have word : t.word = .keyword .nil := by simp [Token.word, kind]
      exact brings_ok ⟨_, Cursor.says_pop? popped word rfl, _, rfl, nofun⟩
    · exact brings_error
  · exact brings_error

theorem typeBehind?_completes {mark : Mark} (other : mark ≠ .bang) (c : Cursor) :
    Brings (typeBehind? mark c) fun _ next => c = next ∨ c.Completes next := by
  unfold typeBehind?
  split
  · next t c₁ h₁ found =>
    refine brings_bind fun r read => brings_ok (.inr ?_)
    exact (Cursor.says_read? other found).completes ((typeName_completes c₁).holds read)
  · exact brings_ok (.inl rfl)

theorem valueBehind?_completes {level : Nat} (low : level < 8) (c : Cursor) :
    Brings (valueBehind? level c) fun _ next => c = next ∨ c.Completes next := by
  unfold valueBehind?
  split
  · next t c₁ h₁ found =>
    refine brings_bind fun r read => brings_ok (.inr ?_)
    obtain ⟨said, -⟩ := (expression_spells level low c₁).holds read
    exact (Cursor.says_read? (by decide) found).completes ⟨_, said, r.value.getLast?_words⟩
  · exact brings_ok (.inl rfl)

theorem parameter_completes (variadicSeen : Bool) (c : Cursor) :
    Brings (parameter variadicSeen c) fun _ next => c.Completes next := by
  unfold parameter
  rcases dots : c.read? (·.isMark .dots) with _ | ⟨t, c₁, h₁⟩
  case' none => have first := c.says_refl
  case' some => have first := Cursor.says_read? (by decide) dots
  -- With dots or without them, what follows is read alike.
  all_goals
    refine brings_bind fun ⟨name, c₂, h₂⟩ read => brings_bind fun ⟨type, c₃, h₃⟩ read' => ?_
    refine brings_bind fun ⟨default, c₄, h₄⟩ read'' => brings_ok (first.completes ?_)
    have named := (brings_expectName _ _).holds read
    have complete : Cursor.Completes _ c₂ := ⟨_, named, _, rfl, nofun⟩
    have typed := complete.trans ((typeBehind?_completes (by decide) c₂).holds read')
    have whole := typed.trans ((valueBehind?_completes (by decide) c₃).holds read'')
    exact whole

end Reading

namespace Positional

variable {row : TokenRow} {p p' : Position} {c d : Cursor}

/-- Where the row ends behind what was read, its last token is no comma. -/
theorem last_of_completes (stands : p.Stands row c) (stands' : p'.Stands row d) (h : c.Completes d)
    (ended : d.rest = []) : ∃ t, d.last = some t ∧ t.isMark .comma = false := by
  obtain ⟨ws, ⟨used, rest, rfl⟩, w, last, other⟩ := h
  rw [ended, List.append_nil, stands.rest] at rest
  rcases List.eq_nil_or_concat used with rfl | ⟨front, t, rfl⟩
  · cases last
  · refine ⟨t, ?_, Bool.eq_false_iff.2 fun comma => other ?_⟩
    · rw [stands'.last_end ended, ← List.take_append_drop p.index row.tokens, rest, List.concat_eq_append,
        ← List.append_assoc, List.getLast?_concat]
    · have word := (Token.isMark_iff (by decide)).1 comma
      have visible : t.isNewline = false := by rw [← Token.isNewline_word, word]; rfl
      rw [List.concat_eq_append, spelled_append, spelled, spelled] at last
      simpa [visible, word, eq_comm] using last

theorem parameter_agrees (whole : ¬ row.Hangs) (variadicSeen : Bool) (stands : p.Stands row c) :
    Agrees row (row.parameter variadicSeen) p (Reading.parameter variadicSeen c) := by
  unfold Reading.parameter TokenRow.parameter
  refine agrees_behind (stands.peekIs _) ?_
  rcases dots : c.read? (·.isMark .dots) with _ | ⟨t, c₁, h₁⟩
  case' none =>
    rw [Cursor.nextIs_of_read?_none dots]
    have stands₁ := stands
  case' some =>
    obtain ⟨popped, fits⟩ := Cursor.pop?_of_read? dots
    rw [(Cursor.nextIs_of_pop? popped _).trans fits]
    have stands₁ := (stands.popped popped).2
    refine agrees_behind (stands.advance popped) ?_
  -- With dots or without them, what follows is read alike.
  all_goals
    refine agrees_bind (stands₁.expectName _) fun ⟨name, c₂, h₂⟩ p₂ _ stands₂ => ?_
    refine agrees_bind (typeBehind?_agrees _ stands₂) fun ⟨type, c₃, h₃⟩ p₃ _ stands₃ => ?_
    refine agrees_bind (valueBehind?_agrees whole 1 stands₃)
      fun ⟨default, c₄, h₄⟩ p₄ _ stands₄ => ?_
    cases variadicSeen with
    | true =>
      refine agrees_behind (v := ()) ?_ (agrees_pure (stands₄.reporting _))
      rfl
    | false => exact agrees_pure stands₄

theorem parameterList_agrees (whole : ¬ row.Hangs) (variadicSeen : Bool) {p : Position}
    {c here : Cursor} (stands : p.Stands row here) (same : here.skipNewlines = c.skipNewlines) :
    Agrees row (row.parameterList variadicSeen) p (Reading.parameterList variadicSeen c) := by
  rw [Reading.parameterList, TokenRow.parameterList]
  have hs := c.size_skipNewlines_le
  refine agrees_skipNewlines stands fun p₁ stands₁ => ?_
  rw [same] at stands₁
  refine agrees_bind (parameter_agrees whole variadicSeen stands₁) fun r p₂ read stands₂ => ?_
  obtain ⟨v, c₂, h₂⟩ := r
  have hs₂ := c₂.size_skipNewlines_le
  refine agrees_skipNewlines stands₂ fun p₃ stands₃ => ?_
  dsimp only
  cases popped : c₂.skipNewlines.pop? with
  | none => 
    -- The last token of the row is taken once more.
    have ended := Cursor.rest_of_pop?_none popped
    have complete := ((Reading.parameter_completes _ _).holds read).skip
    obtain ⟨t, last, other⟩ := last_of_completes stands₁ stands₃ complete ended
    refine agrees_behind (stands₃.advance_end ended last) ?_
    dsimp only
    rw [show (Found.token t).is (·.isMark .comma) = false from other, if_neg Bool.false_ne_true,
      last]
    exact agrees_ite (fun _ => agrees_pure stands₃) fun _ => stands₃.failAt _ _
  | some r =>
    obtain ⟨t, c₃, h₃⟩ := r
    have stands₄ := (stands₃.popped popped).2
    refine agrees_behind (stands₃.advance popped) ?_
    refine agrees_ite (fun _ => ?_) fun _ => agrees_ite (fun _ => agrees_pure stands₄) fun _ =>
      stands₄.failAt _ _
    exact agrees_bind (parameterList_agrees whole _ stands₄ rfl)
      fun _ _ _ stands₅ => agrees_pure stands₅
termination_by c.size
decreasing_by all_goals dsimp only at *; omega

theorem parameters_agrees (whole : ¬ row.Hangs) (stands : p.Stands row c) :
    Agrees row row.parameters p (Reading.parameters c) := by
  unfold Reading.parameters TokenRow.parameters
  refine agrees_skipNewlines stands fun p₁ stands₁ => agrees_behind (stands₁.peekIs _) ?_
  dsimp only
  cases found : c.skipNewlines.read? (·.isMark .rparen) with
  | none =>
    rw [Cursor.nextIs_of_read?_none found]
    exact parameterList_agrees whole false stands₁ (c.skip_skip _)
  | some r =>
    obtain ⟨t, c₂, h₂⟩ := r
    obtain ⟨popped, fits⟩ := Cursor.pop?_of_read? found
    rw [(Cursor.nextIs_of_pop? popped _).trans fits]
    exact agrees_behind (stands₁.advance popped) (agrees_pure (stands₁.popped popped).2)

theorem function_agrees (whole : ¬ row.Hangs) {t : Token} (stands : p.Stands row c)
    (last : c.last = some t) : Agrees row row.function p (Reading.function t.span c) := by
  unfold Reading.function TokenRow.function
  refine agrees_behind (x := get) rfl (agrees_behind (stands.look_last last) ?_)
  refine agrees_bind (stands.expectName _) fun ⟨name, c₁, h₁⟩ p₁ _ stands₁ => ?_
  refine agrees_bind (stands₁.expectMark _ _) fun ⟨_, c₂, h₂⟩ p₂ _ stands₂ => ?_
  refine agrees_bind (parameters_agrees whole stands₂) fun ⟨ps, c₃, h₃⟩ p₃ _ stands₃ => ?_
  refine agrees_bind (typeBehind?_agrees _ stands₃) fun ⟨returns, c₄, h₄⟩ p₄ _ stands₄ => ?_
  exact agrees_bind (block_agrees whole stands₄)
    fun ⟨⟨body, close⟩, c₅, h₅⟩ p₅ _ stands₅ => agrees_pure stands₅

theorem field_agrees (whole : ¬ row.Hangs) (stands : p.Stands row c) :
    Agrees row row.field p (Reading.field c) := by
  unfold Reading.field TokenRow.field
  refine agrees_bind (stands.expectName _) fun ⟨name, c₁, h₁⟩ p₁ _ stands₁ => ?_
  refine agrees_bind (typeBehind?_agrees _ stands₁) fun ⟨type, c₂, h₂⟩ p₂ _ stands₂ => ?_
  refine agrees_bind (valueBehind?_agrees whole 0 stands₂) fun ⟨value, c₃, h₃⟩ p₃ _ stands₃ => ?_
  exact agrees_statementEnd stands₃ fun s p₄ stands₄ => agrees_pure stands₄

theorem classBody_agrees (whole : ¬ row.Hangs) {p : Position} {c : Cursor}
    (stands : p.Stands row c) : Agrees row row.classBody p (Reading.classBody c) := by
  rw [Reading.classBody, TokenRow.classBody]
  have hs := c.size_skipSeparators_le
  refine agrees_skipSeparators stands fun p₁ stands₁ => agrees_behind stands₁.peek ?_
  cases popped : c.skipSeparators.pop? with
  | none =>
    rw [Cursor.found_of_pop?_none popped]
    exact stands₁.failHere _ (Cursor.found_of_pop?_none popped)
  | some r =>
    obtain ⟨t, c₁, h₁⟩ := r
    have stands₂ := (stands₁.popped popped).2
    rw [Cursor.found_of_pop? popped]
    refine agrees_ite (fun _ => ?_) fun _ => agrees_ite (fun _ => ?_) fun _ =>
      agrees_ite (fun _ => ?_) fun _ => stands₁.failHere _ (Cursor.found_of_pop? popped)
    all_goals refine agrees_behind (stands₁.advance popped) ?_
    · exact agrees_pure stands₂
    · refine agrees_bind (field_agrees whole stands₂) fun r p₃ _ stands₃ => ?_
      obtain ⟨f, c₃, h₃⟩ := r
      exact agrees_bind (classBody_agrees whole stands₃) fun _ _ _ stands₄ => agrees_pure stands₄
    · refine agrees_bind (function_agrees whole stands₂ (Cursor.last_of_pop? popped))
        fun r p₃ _ stands₃ => ?_
      obtain ⟨f, c₃, h₃⟩ := r
      exact agrees_bind (classBody_agrees whole stands₃) fun _ _ _ stands₄ => agrees_pure stands₄
termination_by c.size
decreasing_by all_goals dsimp only at *; omega

theorem classDecl_agrees (whole : ¬ row.Hangs) (stands : p.Stands row c) :
    Agrees row row.classDecl p (Reading.classDecl c) := by
  unfold Reading.classDecl TokenRow.classDecl
  refine agrees_bind (stands.expectName _) fun ⟨name, c₁, h₁⟩ p₁ _ stands₁ => ?_
  refine agrees_bind (stands₁.expectMark _ _) fun ⟨_, c₂, h₂⟩ p₂ _ stands₂ => ?_
  exact agrees_bind (classBody_agrees whole stands₂)
    fun ⟨⟨fields, methods⟩, c₃, h₃⟩ p₃ _ stands₃ => agrees_pure stands₃

theorem global_agrees (whole : ¬ row.Hangs) (constant : Bool) (stands : p.Stands row c) :
    Agrees row (row.global constant) p (Reading.global constant c) := by
  unfold Reading.global TokenRow.global
  refine agrees_bind (stands.expectName _) fun ⟨name, c₁, h₁⟩ p₁ _ stands₁ => ?_
  refine agrees_bind (typeBehind?_agrees _ stands₁) fun ⟨type, c₂, h₂⟩ p₂ _ stands₂ => ?_
  refine agrees_bind (stands₂.expectMark _ _) fun ⟨equal, c₃, h₃⟩ p₃ read stands₃ => ?_
  refine agrees_bind (expression_agrees whole 0 stands₃ (.of_expectMark read))
    fun ⟨value, c₄, h₄⟩ p₄ _ stands₄ => ?_
  exact agrees_statementEnd stands₄ fun s p₅ stands₅ => agrees_pure stands₅

theorem item_agrees (whole : ¬ row.Hangs) (stands : p.Stands row c) :
    Agrees row row.item p (Reading.item c) := by
  unfold Reading.item TokenRow.item
  refine agrees_behind stands.peek ?_
  cases popped : c.pop? with
  | none =>
    rw [Cursor.found_of_pop?_none popped]
    exact stands.failHere _ (Cursor.found_of_pop?_none popped)
  | some r =>
    obtain ⟨t, c₁, h₁⟩ := r
    have stands₁ := (stands.popped popped).2
    rw [Cursor.found_of_pop? popped]
    dsimp only
    cases t.kind with
    | keyword k =>
      cases k with
      | fn =>
        refine agrees_behind (stands.advance popped) ?_
        exact agrees_bind (function_agrees whole stands₁ (Cursor.last_of_pop? popped))
          fun ⟨f, c₂, h₂⟩ p₂ _ stands₂ => agrees_pure stands₂
      | class_ =>
        refine agrees_behind (stands.advance popped) ?_
        exact agrees_bind (classDecl_agrees whole stands₁)
          fun ⟨d, c₂, h₂⟩ p₂ _ stands₂ => agrees_pure stands₂
      | var =>
        refine agrees_behind (stands.advance popped) ?_
        exact agrees_bind (global_agrees whole false stands₁)
          fun ⟨g, c₂, h₂⟩ p₂ _ stands₂ => agrees_pure stands₂
      | const =>
        refine agrees_behind (stands.advance popped) ?_
        exact agrees_bind (global_agrees whole true stands₁)
          fun ⟨g, c₂, h₂⟩ p₂ _ stands₂ => agrees_pure stands₂
      | _ => exact stands.failHere _ (Cursor.found_of_pop? popped)
    | _ => exact stands.failHere _ (Cursor.found_of_pop? popped)

/-- All items are read, and the same is reported on the way. -/
theorem items_runs (whole : ¬ row.Hangs) {p : Position} {c : Cursor} (stands : p.Stands row c) :
    match Reading.items c with
    | .ok (found, report) => ∃ p', row.items.runAt p = some (.ok (found, p')) ∧ p'.report = report
    | .error e => row.items.runAt p = some (.error (.failed e)) := by
  rw [Reading.items, TokenRow.items]
  have hs := c.size_skipSeparators_le
  obtain ⟨p₁, run, stands₁⟩ := stands.skipSeparators
  rw [runAt_bind run, runAt_bind stands₁.peek, Cursor.isFinish_found]
  by_cases ended : c.skipSeparators.rest.isEmpty = true
  · rw [if_pos ended, if_pos ended]
    exact ⟨p₁, rfl, stands₁.report.symm⟩
  · rw [if_neg ended, if_neg ended]
    have first := item_agrees whole stands₁
    cases read : Reading.item c.skipSeparators with
    | error e =>
      rw [read] at first
      exact runAt_bind_error first
    | ok r =>
      rw [read] at first
      obtain ⟨i, c₂, h₂⟩ := r
      obtain ⟨p₂, run₂, stands₂⟩ := first
      have rest := items_runs whole stands₂
      rw [runAt_bind run₂]
      dsimp only [bind, Except.bind]
      cases others : Reading.items c₂ with
      | error e =>
        rw [others] at rest
        exact runAt_bind_error rest
      | ok read =>
        rw [others] at rest
        obtain ⟨p₃, run₃, report⟩ := rest
        exact ⟨p₃, runAt_bind run₃, report⟩
termination_by c.size
decreasing_by all_goals dsimp only at *; omega

end Positional

/-! ## The gap -/

/-- What holds of a reader exactly if it stays below what is cut off of any bound, holds of a limit
of such readers. -/
theorem holds_limit {D : Type} {P s : D → Prop} {le : D → D → Prop} (cut : D → D)
    {some_ : ∃ limit, ∀ x, le limit x ↔ ∀ y, s y → le y x} (same : ∀ x, le x x)
    (below : ∀ x y, le y x → P y → le y (cut x)) (only : ∀ x y, le y (cut x) → P y)
    (all : ∀ y, s y → P y) : P (Classical.choose some_) := by
  have least := Classical.choose_spec some_
  have bounds : ∀ y, s y → le y (Classical.choose some_) := (least _).1 (same _)
  exact only _ _ ((least _).2 fun y member => below _ y (bounds y member) (all y member))

namespace Positional

section Cut

variable {α : Type} {p : Position} {x y : Positional α}
  {le : Option (Except Stop (α × Position)) → Option (Except Stop (α × Position)) → Prop}

open Classical in
/-- The reader that goes on like `x`, but never ends where it comes to `p`. -/
noncomputable def cut (p : Position) (x : Positional α) : Positional α :=
  fun p' => if p' = p then none else x p'

theorem runAt_cut (x : Positional α) : (x.cut p).runAt p = none := if_pos rfl

theorem below_cut (bottom : ∀ v, le none v) (below : ∀ p', le (y p') (x p'))
    (never : y.runAt p = none) (p' : Position) : le (y p') (x.cut p p') := by
  unfold cut
  split
  · rename_i here
    subst here
    rw [show y p' = none from never]
    exact bottom none
  · exact below p'

theorem never_of_below_cut (only : ∀ v, le v none → v = none)
    (below : ∀ p', le (y p') (x.cut p p')) : y.runAt p = none := by
  have cutOff := below p
  rw [show x.cut p p = none from runAt_cut x] at cutOff
  exact only _ cutOff

end Cut

variable {row : TokenRow} {p : Position} {c : Cursor}

theorem runAt_bind_none {α β : Type} {x : Positional α} {f : α → Positional β}
    (h : x.runAt p = none) : (x >>= f).runAt p = none := by
  change (x.runAt p).bind _ = _
  rw [h]
  rfl

/-- Where a row that hangs has ended, an operand is looked for without end. -/
theorem operand_never (hangs : row.Hangs) (stands : p.Stands row c) (ended : c.rest = []) :
    row.operand.runAt p = none := by
  obtain ⟨t, last, plain, more⟩ := hangs.exists_last
  have again := stands.advance_end ended ((stands.last_end ended).trans last)
  refine TokenRow.operand.fixpoint_induct row (fun x => x.runAt p = none)
    (fun x => ∀ level, (x level).runAt p = none)
    (fun _ => True) (fun _ => True) (fun _ => True) ?_ ?_
    (fun _ _ _ => trivial) (fun _ _ _ => trivial) (fun _ _ _ => trivial) ?_ ?_ ?_ ?_ ?_
  -- The limit of a chain is known only as its least bound.
  · exact fun _ _ => holds_limit (·.cut p) (fun _ _ => .refl)
      (fun _ _ => below_cut fun _ => .bot)
      (fun _ _ => never_of_below_cut (by rintro _ (_ | _) <;> rfl))
  · exact fun _ _ => holds_limit (fun x level => (x level).cut p) (fun _ _ _ => .refl)
      (fun _ _ below never level => below_cut (fun _ => .bot) (below level) (never level))
      (fun _ _ below level =>
        never_of_below_cut (by rintro _ (_ | _) <;> rfl) (below level))
  · intro operand expression chain noOperand noExpression _
    rw [runAt_bind again]
    dsimp only
    rw [plain]
    dsimp only
    split
    · exact runAt_bind_none noOperand
    · rw [if_pos (more.resolve_left (not_not_intro ‹_›)), runAt_bind (stands.skipNewlines_end ended)]
      exact runAt_bind_none (noExpression 0)
  · intro operand climb noOperand _ _
    exact runAt_bind_none noOperand
  all_goals intros; trivial

end Positional

/-! ## Whole rows -/

section Rows

variable {row : TokenRow}

theorem Position.stands_ofRow (row : TokenRow) : Position.Stands row ⟨0, .empty⟩ (.ofRow row) :=
  ⟨Nat.zero_le _, rfl, rfl, rfl, rfl⟩

theorem Module.byPosition_eq (whole : ¬ row.Hangs) :
    Module.byPosition row = some ((Module.ofTokens row).mapError .failed) := by
  have runs := items_runs whole (Position.stands_ofRow row)
  rw [Module.byPosition, outcome_eq]
  unfold Module.ofTokens
  cases read : Reading.items (.ofRow row) with
  | error e =>
    rw [read] at runs
    rw [runAt_bind_error runs]
    rfl
  | ok r =>
    obtain ⟨found, report⟩ := r
    rw [read] at runs
    obtain ⟨p', run, rfl⟩ := runs
    rw [runAt_bind run]
    rfl

theorem Expr.byPosition_eq (whole : ¬ row.Hangs) (some_ : row.tokens ≠ []) :
    Expr.byPosition row = some ((Expr.ofTokens row).mapError .failed) := by
  have ready : (Cursor.ofRow row).skipSeparators.Ready :=
    (Cursor.Ready.of_more some_).skip fun _ => Token.atom?_of_isSeparator
  obtain ⟨p₁, run, stands₁⟩ := (Position.stands_ofRow row).skipSeparators
  have first := expression_agrees whole 0 stands₁ ready
  unfold Expr.ofTokens
  rw [Expr.byPosition, outcome_eq, runAt_bind run]
  cases read : Reading.expression 0 (Cursor.ofRow row).skipSeparators with
  | error e =>
    rw [read] at first
    rw [runAt_bind_error first]
    rfl
  | ok r =>
    obtain ⟨e, c₂, h₂⟩ := r
    rw [read] at first
    obtain ⟨p₂, run₂, stands₂⟩ := first
    obtain ⟨p₃, run₃, stands₃⟩ := stands₂.skipSeparators
    rw [runAt_bind run₂, runAt_bind run₃, runAt_bind stands₃.peek, Cursor.isFinish_found]
    dsimp only [bind, Except.bind]
    by_cases ended : c₂.skipSeparators.rest.isEmpty = true
    · rw [if_pos ended, if_pos ended, stands₃.report]
      rfl
    · rw [if_neg ended, if_neg ended, stands₃.failHere _ rfl]
      rfl

theorem Expr.byPosition_eq_outside (nothing : row.tokens = []) :
    Expr.byPosition row = some (.error .outside) := by
  obtain ⟨p₁, run, stands₁⟩ := (Position.stands_ofRow row).skipSeparators
  have start : p₁.index = 0 := by
    have inside := stands₁.inside
    rw [nothing] at inside
    exact Nat.le_zero.1 inside
  have ended : (Cursor.ofRow row).skipSeparators.found = .finish row.finish := by
    unfold Cursor.skipSeparators Cursor.skip Cursor.ofRow Cursor.found
    rw [nothing]
    rfl
  have before : row.behind.runAt p₁ = some (.error .outside) := by
    rw [TokenRow.behind, runAt_bind (x := get) rfl, start]
    rfl
  have advance : row.advance.runAt p₁ = some (.error .outside) := by
    rw [TokenRow.advance, runAt_bind stands₁.peek, ended]
    exact before
  rw [Expr.byPosition, outcome_eq, runAt_bind run, runAt_bind_error (x := row.expression 0)]
  · rfl
  · rw [TokenRow.expression, runAt_bind_error]
    rw [TokenRow.operand, runAt_bind_error advance]

/-- A row that does not hang is read by position as it is read by the tokens to come: the reading
ends with a tree or at an error, and it has looked for no token outside of the row.  A single
expression is looked for before the first token where there is none.  Where an operand is missing,
no token is taken for it. -/
theorem TokenRow.reading_ends {row : TokenRow} (whole : ¬ row.Hangs) :
    Module.byPosition row = some ((Module.ofTokens row).mapError .failed) ∧
    Expr.byPosition row = some (if row.tokens.isEmpty then .error .outside
      else (Expr.ofTokens row).mapError .failed) ∧
    ∀ c : Cursor, c.rest = [] → Reading.operand c = .error c.failOperand := by
  refine ⟨Module.byPosition_eq whole, ?_, fun c ended => ?_⟩
  · by_cases nothing : row.tokens = []
    · rw [Expr.byPosition_eq_outside nothing, nothing]
      rfl
    · rw [Expr.byPosition_eq whole nothing, if_neg (mt List.isEmpty_iff.1 nothing)]
  · rw [Reading.operand, Cursor.pop?_nil ended]

/-- A row that breaks off where a value is to come: `var x =`. -/
def brokenOff : TokenRow where
  tokens :=
    [⟨.keyword .var, "var", ⟨1, 1⟩⟩, ⟨.identifier, "x", ⟨1, 5⟩⟩, ⟨.mark .equal, "=", ⟨1, 7⟩⟩]
  finish := ⟨1, 8⟩

theorem brokenOff_not_hangs : ¬ brokenOff.Hangs := by
  rintro ⟨t, last, opens⟩
  cases last
  revert opens
  decide

theorem exists_message {α : Type} {x : Except ParseFailure α} {m : String}
    (h : (match x with | .error e => some e.error.message | .ok _ => none) = some m) :
    ∃ e, x = .error e ∧ e.error.message = m := by
  cases x with
  | error e => exact ⟨e, rfl, Option.some.inj h⟩
  | ok _ => cases h

/-- Where the value is missing, the equals sign is not taken for one. -/
theorem brokenOff_ends : ¬ brokenOff.Hangs ∧
    (∃ e, Module.byPosition brokenOff = some (.error (.failed e)) ∧
      e.error.message = "expected an expression (found '=') at line 1, column 7") ∧
    ∃ e, Expr.byPosition brokenOff = some (.error (.failed e)) ∧
      e.error.message = "expected an expression (found 'var') at line 1, column 1" := by
  obtain ⟨module, expression, -⟩ := TokenRow.reading_ends brokenOff_not_hangs
  obtain ⟨e, failed, message⟩ := exists_message (x := Module.ofTokens brokenOff)
    (m := "expected an expression (found '=') at line 1, column 7") (by decide +kernel)
  obtain ⟨e', failed', message'⟩ := exists_message (x := Expr.ofTokens brokenOff)
    (m := "expected an expression (found 'var') at line 1, column 1") (by decide +kernel)
  rw [failed] at module
  rw [failed'] at expression
  exact ⟨brokenOff_not_hangs, ⟨e, module, message⟩, e', expression, message'⟩

end Rows

end PathTyping
