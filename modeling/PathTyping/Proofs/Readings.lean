import PathTyping.Compilation

/-!
# What is read from a row of tokens

A reader uses up tokens from the front of the row and leaves the rest of it as it is, so every token
that is looked at on the way is one of the row.  In particular the names that are read are lexemes
of identifiers of the row, and a scanner takes no keyword for an identifier.

1. `Reads` goes through the readers one by one: what each leaves is a suffix of what it was given.
2. `Module.functions_read`: each function of a module is read from some of the tokens, and its
   parameters are named by identifiers among them (`function_reads`).
3. `Module.parameter_name_ne`: no parameter of a module is named as a keyword.
-/

namespace PathTyping

/-! ## Tokens of a row -/

/-- Whatever `x` reads from `c` on, `P` holds of it, and a part of the tokens to come is left. -/
def Reads {α : Type} {n : Nat} (c : Cursor) (P : α → Prop) (x : Reading α n) : Prop :=
  ∀ r, x = .ok r → P r.value ∧ r.next.rest <:+ c.rest

section Reads

variable {α β γ : Type} {n m : Nat} {c c' : Cursor} {P : α → Prop} {Q : β → Prop}

theorem reads_ok {v : α} {next : Cursor} {bound : next.size < n} (holds : P v)
    (left : next.rest <:+ c.rest) : Reads c P (.ok ⟨v, next, bound⟩) := fun _ h => by
  cases h
  exact ⟨holds, left⟩

theorem reads_error {e : ParseFailure} : Reads c P (.error e : Reading α n) := nofun

theorem reads_bind {x : Except ParseFailure γ} {f : γ → Reading β m}
    (h : ∀ r, x = .ok r → Reads c Q (f r)) : Reads c Q (x >>= f) := by
  cases x with
  | error e => exact reads_error
  | ok r => exact h r rfl

theorem Reads.left {x : Reading α n} {r : Read α n} (h : Reads c P x) (read : x = .ok r) :
    r.next.rest <:+ c.rest := (h r read).2

theorem Reads.holds {x : Reading α n} {r : Read α n} (h : Reads c P x) (read : x = .ok r) :
    P r.value := (h r read).1

theorem Reads.weaken {P' : α → Prop} {x : Reading α n} (h : Reads c P x)
    (sub : ∀ v, P v → P' v) : Reads c P' x :=
  fun _ read => ⟨sub _ (h.holds read), h.left read⟩

end Reads

namespace Cursor

variable {c : Cursor} {p : Token → Bool}

theorem rest_of_pop? {r : Read Token c.size} (h : c.pop? = some r) :
    c.rest = r.value :: r.next.rest := by
  unfold pop? at h
  split at h
  · cases h
  · next t rest found =>
    cases h
    exact found

theorem left_pop? {t : Token} {next : Cursor} {bound : next.size < c.size}
    (h : c.pop? = some ⟨t, next, bound⟩) : next.rest <:+ c.rest :=
  rest_of_pop? h ▸ List.suffix_cons _ _

theorem left_read? {t : Token} {next : Cursor} {bound : next.size < c.size}
    (h : c.read? p = some ⟨t, next, bound⟩) : next.rest <:+ c.rest := by
  unfold read? at h
  split at h
  · next r popped =>
    split at h
    · cases h
      exact left_pop? popped
    · cases h
  · cases h

theorem left_skip (c : Cursor) (p : Token → Bool) : (c.skip p).rest <:+ c.rest :=
  List.dropWhile_suffix p

theorem left_skipNewlines (c : Cursor) : c.skipNewlines.rest <:+ c.rest := c.left_skip _

theorem left_skipSeparators (c : Cursor) : c.skipSeparators.rest <:+ c.rest := c.left_skip _

/-- What is expected is found among the tokens to come. -/
theorem expect_reads (c : Cursor) (p : Token → Bool) (what : Expectation) :
    Reads c (fun t => t ∈ c.rest ∧ p t = true) (c.expect p what) := by
  unfold expect read?
  cases popped : c.pop? with
  | none => exact reads_error
  | some r =>
    obtain ⟨t, next, bound⟩ := r
    dsimp only
    by_cases fits : p t = true
    · rw [if_pos fits]
      exact reads_ok ⟨rest_of_pop? popped ▸ List.mem_cons_self, fits⟩ (left_pop? popped)
    · rw [if_neg fits]
      exact reads_error

theorem expectMark_reads (c : Cursor) (m : Mark) (what : Expectation) :
    Reads c (fun _ => True) (c.expectMark m what) :=
  (c.expect_reads _ what).weaken fun _ _ => trivial

theorem expectName_reads (c : Cursor) (what : Expectation) :
    Reads c (fun t => t ∈ c.rest ∧ isIdentifier t = true) (c.expectName what) :=
  c.expect_reads _ what

end Cursor

namespace Reading

open Cursor

/-! ## Expressions -/

mutual

theorem operand_reads (c : Cursor) : Reads c (fun _ => True) (operand c) := by
  rw [operand]
  split
  · exact reads_error
  · next t c₁ h₁ popped =>
    have left := left_pop? popped
    split
    · next e atom =>
      refine reads_bind fun ⟨e, c₂, h₂⟩ read => ?_
      exact reads_ok trivial ((chain_reads _ c₁).left read |>.trans left)
    · split
      · next op unary =>
        refine reads_bind fun ⟨e, c₂, h₂⟩ read => reads_bind fun ⟨_, c₃, h₃⟩ read' => ?_
        have left₂ := ((operand_reads c₁).left read).trans left
        exact reads_ok trivial (((chain_reads _ c₂).left read').trans left₂)
      · split
        · have hs := c₁.size_skipNewlines_le
          refine reads_bind fun ⟨e, c₂, h₂⟩ read => ?_
          have hs₂ := c₂.size_skipNewlines_le
          refine reads_bind fun ⟨close, c₃, h₃⟩ read' => reads_bind fun ⟨_, c₄, h₄⟩ read'' => ?_
          have left₂ := (((expression_reads 0 _).left read).trans c₁.left_skipNewlines).trans left
          have left₃ := ((expectMark_reads _ _ _).left read').trans
            (c₂.left_skipNewlines.trans left₂)
          exact reads_ok trivial (((chain_reads _ c₃).left read'').trans left₃)
        · exact reads_error
termination_by 4 * c.size
decreasing_by all_goals dsimp only at *; omega

theorem expression_reads (level : Nat) (c : Cursor) :
    Reads c (fun _ => True) (expression level c) := by
  rw [expression]
  refine reads_bind fun ⟨left, c₁, h₁⟩ read => reads_bind fun ⟨e, c₂, h₂⟩ read' => ?_
  exact reads_ok trivial (((climb_reads level left c₁).left read').trans
    ((operand_reads c).left read))
termination_by 4 * c.size + 1
decreasing_by all_goals dsimp only at *; omega

theorem climb_reads (level : Nat) (left : Expr) (c : Cursor) :
    Reads c (fun _ => True) (climb level left c) := by
  rw [climb]
  split
  · exact reads_ok trivial List.suffix_rfl
  · next t c₁ h₁ popped =>
    have behind := left_pop? popped
    split
    · exact reads_ok trivial List.suffix_rfl
    · split
      · exact reads_ok trivial List.suffix_rfl
      · have hs := c₁.size_skipNewlines_le
        dsimp only
        split
        · refine reads_bind fun ⟨value, c₂, h₂⟩ read => ?_
          have left₂ := (((expression_reads 0 _).left read).trans c₁.left_skipNewlines).trans behind
          dsimp only
          split
          · refine reads_bind fun ⟨e, c₃, h₃⟩ read' => ?_
            exact reads_ok trivial (((climb_reads level _ c₂).left read').trans left₂)
          · exact reads_error
        · refine reads_bind fun ⟨right, c₂, h₂⟩ read => reads_bind fun ⟨e, c₃, h₃⟩ read' => ?_
          have left₂ :=
            (((expression_reads _ _).left read).trans c₁.left_skipNewlines).trans behind
          exact reads_ok trivial (((climb_reads level _ c₂).left read').trans left₂)
termination_by 4 * c.size
decreasing_by all_goals dsimp only at *; omega

theorem chain_reads (e : Expr) (c : Cursor) : Reads c (fun _ => True) (chain e c) := by
  rw [chain]
  split
  · exact reads_ok trivial List.suffix_rfl
  · next t c₁ h₁ popped =>
    have behind := left_pop? popped
    have hs := c₁.size_skipNewlines_le
    split
    · dsimp only
      split
      · refine reads_bind fun ⟨close, c₂, h₂⟩ read => reads_bind fun ⟨_, c₃, h₃⟩ read' => ?_
        have left₂ := (((expectMark_reads _ _ _).left read).trans c₁.left_skipNewlines).trans behind
        exact reads_ok trivial (((chain_reads _ c₂).left read').trans left₂)
      · refine reads_bind fun ⟨arguments, c₂, h₂⟩ read => ?_
        dsimp only
        refine reads_bind fun ⟨close, c₃, h₃⟩ read' => reads_bind fun ⟨_, c₄, h₄⟩ read'' => ?_
        have left₂ := (((argumentList_reads _).left read).trans c₁.left_skipNewlines).trans behind
        have left₃ := ((expectMark_reads _ _ _).left read').trans left₂
        exact reads_ok trivial (((chain_reads _ c₃).left read'').trans left₃)
    · split
      · refine reads_bind fun ⟨name, c₂, h₂⟩ read => reads_bind fun ⟨_, c₃, h₃⟩ read' => ?_
        have left₂ := ((expectName_reads _ _).left read).trans behind
        exact reads_ok trivial (((chain_reads _ c₂).left read').trans left₂)
      · split
        · refine reads_bind fun ⟨index, c₂, h₂⟩ read => ?_
          have hs₂ := c₂.size_skipNewlines_le
          refine reads_bind fun ⟨close, c₃, h₃⟩ read' => reads_bind fun ⟨_, c₄, h₄⟩ read'' => ?_
          have left₂ := (((expression_reads 0 _).left read).trans c₁.left_skipNewlines).trans behind
          have left₃ := ((expectMark_reads _ _ _).left read').trans
            (c₂.left_skipNewlines.trans left₂)
          exact reads_ok trivial (((chain_reads _ c₃).left read'').trans left₃)
        · exact reads_ok trivial List.suffix_rfl
termination_by 4 * c.size + 3
decreasing_by all_goals dsimp only at *; omega

theorem argumentList_reads (c : Cursor) : Reads c (fun _ => True) (argumentList c) := by
  rw [argumentList]
  have hs := c.size_skipNewlines_le
  refine reads_bind fun ⟨first, c₁, h₁⟩ read => ?_
  have left₁ := ((expression_reads 0 _).left read).trans c.left_skipNewlines
  have hs₁ := c₁.size_skipNewlines_le
  dsimp only
  split
  · next t c₂ h₂ comma =>
    refine reads_bind fun ⟨others, c₃, h₃⟩ read' => ?_
    have left₂ := (left_read? comma).trans (c₁.left_skipNewlines.trans left₁)
    exact reads_ok trivial (((argumentList_reads c₂).left read').trans left₂)
  · exact reads_ok trivial (c₁.left_skipNewlines.trans left₁)
termination_by 4 * c.size + 2
decreasing_by all_goals dsimp only at *; omega

end

/-! ## Statements -/

theorem left_statementEnd {c : Cursor} {s : { next : Cursor // next.size ≤ c.size }}
    (h : statementEnd c = .ok s) : s.1.rest <:+ c.rest := by
  unfold statementEnd at h
  split at h
  · cases h
    exact List.suffix_rfl
  · split at h
    · cases h
      exact c.left_skipSeparators
    · cases h

mutual

theorem block_reads (c : Cursor) : Reads c (fun _ => True) (block c) := by
  rw [block]
  refine reads_bind fun ⟨t, c₁, h₁⟩ read => reads_bind fun ⟨b, c₂, h₂⟩ read' => ?_
  exact reads_ok trivial (((statements_reads c₁).left read').trans
    ((expectMark_reads _ _ _).left read))
termination_by 4 * c.size
decreasing_by all_goals dsimp only at *; omega

theorem statements_reads (c : Cursor) : Reads c (fun _ => True) (statements c) := by
  rw [statements]
  have hs := c.size_skipSeparators_le
  split
  · exact reads_error
  · next t c₁ h₁ popped =>
    split
    · exact reads_ok trivial ((left_pop? popped).trans c.left_skipSeparators)
    · refine reads_bind fun ⟨s, c₂, h₂⟩ read => reads_bind fun ⟨⟨others, close⟩, c₃, h₃⟩ read' => ?_
      have left₂ := ((statement_reads _).left read).trans c.left_skipSeparators
      exact reads_ok trivial (((statements_reads c₂).left read').trans left₂)
termination_by 4 * c.size + 1
decreasing_by all_goals dsimp only at *; omega

theorem statement_reads (c : Cursor) : Reads c (fun _ => True) (statement c) := by
  rw [statement]
  split
  · exact reads_error
  · next t c₁ h₁ popped =>
    have left := left_pop? popped
    split
    · refine reads_bind fun ⟨name, c₂, h₂⟩ read => reads_bind fun ⟨_, c₃, h₃⟩ read' => ?_
      dsimp only
      refine reads_bind fun ⟨value, c₄, h₄⟩ read'' => reads_bind fun ⟨c₅, h₅⟩ ended => ?_
      have left₃ := ((expectMark_reads _ _ _).left read').trans ((expectName_reads _ _).left read)
      have left₄ := ((expression_reads 0 c₃).left read'').trans (left₃.trans left)
      exact reads_ok trivial ((left_statementEnd ended).trans left₄)
    · refine reads_bind fun ⟨⟨s, close⟩, c₂, h₂⟩ read => ?_
      exact reads_ok trivial (((conditional_reads _ c₁).left read).trans left)
    · refine reads_bind fun ⟨condition, c₂, h₂⟩ read => ?_
      dsimp only
      refine reads_bind fun ⟨⟨body, close⟩, c₃, h₃⟩ read' => ?_
      have left₂ := ((expression_reads 0 c₁).left read).trans left
      exact reads_ok trivial (((block_reads c₂).left read').trans left₂)
    · split
      · refine reads_bind fun ⟨c₂, h₂⟩ ended => ?_
        exact reads_ok trivial ((left_statementEnd ended).trans left)
      · refine reads_bind fun ⟨value, c₂, h₂⟩ read => reads_bind fun ⟨c₃, h₃⟩ ended => ?_
        have left₂ := ((expression_reads 0 c₁).left read).trans left
        exact reads_ok trivial ((left_statementEnd ended).trans left₂)
    · refine reads_bind fun ⟨e, c₂, h₂⟩ read => reads_bind fun ⟨c₃, h₃⟩ ended => ?_
      exact reads_ok trivial ((left_statementEnd ended).trans ((expression_reads 0 c).left read))
termination_by 4 * c.size
decreasing_by all_goals dsimp only at *; omega

theorem conditional_reads (start : Span) (c : Cursor) :
    Reads c (fun _ => True) (conditional start c) := by
  rw [conditional]
  refine reads_bind fun ⟨condition, c₁, h₁⟩ read => ?_
  dsimp only
  refine reads_bind fun ⟨⟨consequent, close⟩, c₂, h₂⟩ read' => ?_
  have left₂ := ((block_reads c₁).left read').trans ((expression_reads 0 c).left read)
  have hs := c₂.size_skipNewlines_le
  dsimp only
  split
  · exact reads_ok trivial left₂
  · next t c₃ h₃ otherwise =>
    have left₃ := (left_read? otherwise).trans (c₂.left_skipNewlines.trans left₂)
    split
    · next t' c₄ h₄ again =>
      refine reads_bind fun ⟨⟨nested, nestedSpan⟩, c₅, h₅⟩ read'' => ?_
      have left₄ := (left_read? again).trans left₃
      exact reads_ok trivial (((conditional_reads _ c₄).left read'').trans left₄)
    · refine reads_bind fun ⟨⟨alternative, close'⟩, c₄, h₄⟩ read'' => ?_
      exact reads_ok trivial (((block_reads c₃).left read'').trans left₃)
termination_by 4 * c.size
decreasing_by all_goals dsimp only at *; omega

end

/-! ## Declarations -/

/-- The name is written as an identifier among the tokens. -/
def Names (tokens : List Token) (name : String) : Prop :=
  ∃ t ∈ tokens, isIdentifier t = true ∧ t.lexeme = name

/-- The parameters of the function are named by identifiers among the tokens. -/
def NamesParameters (tokens : List Token) (f : FunctionDecl) : Prop :=
  ∀ p ∈ f.parameters, Names tokens p.name

theorem Names.mono {tokens tokens' : List Token} {name : String} (h : Names tokens name)
    (left : tokens <:+ tokens') : Names tokens' name :=
  h.imp fun _ ht => ⟨left.subset ht.1, ht.2⟩

theorem NamesParameters.mono {tokens tokens' : List Token} {f : FunctionDecl}
    (h : NamesParameters tokens f) (left : tokens <:+ tokens') : NamesParameters tokens' f :=
  fun p hp => (h p hp).mono left

theorem typeName_reads (c : Cursor) : Reads c (fun _ => True) (typeName c) := by
  unfold typeName
  split
  · next t c₁ h₁ popped =>
    split
    · exact reads_ok trivial (left_pop? popped)
    · exact reads_ok trivial (left_pop? popped)
    · exact reads_error
  · exact reads_error

theorem typeBehind?_reads (mark : Mark) (c : Cursor) :
    Reads c (fun _ => True) (typeBehind? mark c) := by
  unfold typeBehind?
  split
  · next t c₁ h₁ found =>
    refine reads_bind fun ⟨a, c₂, h₂⟩ read => ?_
    exact reads_ok trivial (((typeName_reads c₁).left read).trans (left_read? found))
  · exact reads_ok trivial List.suffix_rfl

theorem valueBehind?_reads (level : Nat) (c : Cursor) :
    Reads c (fun _ => True) (valueBehind? level c) := by
  unfold valueBehind?
  split
  · next t c₁ h₁ found =>
    refine reads_bind fun ⟨e, c₂, h₂⟩ read => ?_
    exact reads_ok trivial (((expression_reads level c₁).left read).trans (left_read? found))
  · exact reads_ok trivial List.suffix_rfl

theorem parameter_reads (variadicSeen : Bool) (c : Cursor) :
    Reads c (fun p => Names c.rest p.name) (parameter variadicSeen c) := by
  unfold parameter
  rcases dots : c.read? (·.isMark .dots) with _ | ⟨t, c₁, h₁⟩
  case' none => have left₁ : c.rest <:+ c.rest := List.suffix_rfl
  case' some => have left₁ := left_read? dots
  -- With dots or without them, what follows is read alike.
  all_goals
    refine reads_bind fun ⟨name, c₂, h₂⟩ read => reads_bind fun ⟨type, c₃, h₃⟩ read' => ?_
    refine reads_bind fun ⟨default, c₄, h₄⟩ read'' => ?_
    obtain ⟨found, identifier⟩ := (expectName_reads _ _).holds read
    have left₂ := ((expectName_reads _ _).left read).trans left₁
    have left₃ := ((typeBehind?_reads _ c₂).left read').trans left₂
    refine reads_ok ⟨name, left₁.subset found, identifier, rfl⟩ ?_
    exact ((valueBehind?_reads 1 c₃).left read'').trans left₃

theorem parameterList_reads (variadicSeen : Bool) (c : Cursor) :
    Reads c (fun ps => ∀ p ∈ ps, Names c.rest p.name) (parameterList variadicSeen c) := by
  rw [parameterList]
  have hs := c.size_skipNewlines_le
  refine reads_bind ?_
  rintro ⟨p, c₁, h₁⟩ read
  have named := ((parameter_reads _ _).holds read).mono c.left_skipNewlines
  have only : ∀ q ∈ [p], Names c.rest q.name := fun q hq => List.mem_singleton.1 hq ▸ named
  have left₁ := ((parameter_reads _ _).left read).trans c.left_skipNewlines
  have left₁' := c₁.left_skipNewlines.trans left₁
  have hs₁ := c₁.size_skipNewlines_le
  dsimp only
  split
  · next t c₂ h₂ popped =>
    have left₂ := (left_pop? popped).trans left₁'
    split
    · refine reads_bind ?_
      rintro ⟨others, c₃, h₃⟩ read'
      have rest := parameterList_reads (variadicSeen || p.variadic) c₂
      refine reads_ok (fun q hq => ?_) ((rest.left read').trans left₂)
      rcases List.mem_cons.1 hq with rfl | hq
      · exact named
      · exact (rest.holds read' q hq).mono left₂
    · split
      · exact reads_ok only left₂
      · exact reads_error
  · split
    · split
      · exact reads_ok only left₁'
      · exact reads_error
    · exact reads_error
termination_by c.size
decreasing_by all_goals dsimp only at *; omega

theorem parameters_reads (c : Cursor) :
    Reads c (fun ps => ∀ p ∈ ps, Names c.rest p.name) (parameters c) := by
  unfold parameters
  dsimp only
  split
  · next found =>
    exact reads_ok (List.forall_mem_nil _) ((left_read? found).trans c.left_skipNewlines)
  · exact parameterList_reads false c

theorem function_reads (start : Span) (c : Cursor) :
    Reads c (NamesParameters c.rest) (function start c) := by
  unfold function
  refine reads_bind fun ⟨name, c₁, h₁⟩ read => reads_bind fun ⟨_, c₂, h₂⟩ read₂ => ?_
  refine reads_bind fun ⟨parameters, c₃, h₃⟩ read₃ => reads_bind fun ⟨returns, c₄, h₄⟩ read₄ => ?_
  refine reads_bind fun ⟨⟨body, close⟩, c₅, h₅⟩ read₅ => ?_
  have left₂ := ((expectMark_reads _ _ _).left read₂).trans ((expectName_reads _ _).left read)
  have left₄ := ((typeBehind?_reads _ c₃).left read₄).trans
    (((parameters_reads c₂).left read₃).trans left₂)
  refine reads_ok (fun p hp => ?_) (((block_reads c₄).left read₅).trans left₄)
  exact ((parameters_reads c₂).holds read₃ p hp).mono left₂

theorem field_reads (c : Cursor) : Reads c (fun _ => True) (field c) := by
  unfold field
  refine reads_bind fun ⟨name, c₁, h₁⟩ read => reads_bind fun ⟨type, c₂, h₂⟩ read₂ => ?_
  refine reads_bind fun ⟨value, c₃, h₃⟩ read₃ => reads_bind fun ⟨c₄, h₄⟩ ended => ?_
  have left₂ := ((typeBehind?_reads _ c₁).left read₂).trans ((expectName_reads _ _).left read)
  have left₃ := ((valueBehind?_reads 0 c₂).left read₃).trans left₂
  exact reads_ok trivial ((left_statementEnd ended).trans left₃)

/-- The function is read from some of the tokens, of which its `fn` is the first. -/
def IsRead (tokens : List Token) (f : FunctionDecl) : Prop :=
  ∃ (t : Token) (c : Cursor) (r : Read FunctionDecl c.size), t :: c.rest <:+ tokens ∧
    function t.span c = .ok r ∧ r.value = f

theorem IsRead.mono {tokens tokens' : List Token} {f : FunctionDecl} (h : IsRead tokens f)
    (left : tokens <:+ tokens') : IsRead tokens' f := by
  obtain ⟨t, c, r, inside, read⟩ := h
  exact ⟨t, c, r, inside.trans left, read⟩

theorem classBody_reads (c : Cursor) :
    Reads c (fun body => ∀ f ∈ body.2, IsRead c.rest f) (classBody c) := by
  rw [classBody]
  have hs := c.size_skipSeparators_le
  split
  · exact reads_error
  · next t c₁ h₁ popped =>
    have left := (left_pop? popped).trans c.left_skipSeparators
    split
    · exact reads_ok nofun left
    · split
      · refine reads_bind fun ⟨f, c₂, h₂⟩ read => ?_
        dsimp only
        refine reads_bind fun ⟨⟨fields, methods⟩, c₃, h₃⟩ read' => ?_
        have left₂ := ((field_reads c₁).left read).trans left
        have rest := classBody_reads c₂
        exact reads_ok (fun g hg => (rest.holds read' g hg).mono left₂)
          ((rest.left read').trans left₂)
      · split
        · refine reads_bind fun ⟨f, c₂, h₂⟩ read => ?_
          dsimp only
          refine reads_bind fun ⟨⟨fields, methods⟩, c₃, h₃⟩ read' => ?_
          have left₂ := ((function_reads _ c₁).left read).trans left
          have rest := classBody_reads c₂
          refine reads_ok (fun g hg => ?_) ((rest.left read').trans left₂)
          rcases List.mem_cons.1 hg with rfl | hg
          · have inside := rest_of_pop? popped ▸ c.left_skipSeparators
            exact ⟨t, c₁, _, inside, read, rfl⟩
          · exact (rest.holds read' g hg).mono left₂
        · exact reads_error
termination_by c.size
decreasing_by all_goals dsimp only at *; omega

/-- The functions of an item are read from some of the tokens. -/
def IsItemRead (tokens : List Token) : Item → Prop
  | .function f => IsRead tokens f
  | .class_ d => ∀ f ∈ d.methods, IsRead tokens f
  | .global _ => True

theorem IsItemRead.mono {tokens tokens' : List Token} {i : Item} (h : IsItemRead tokens i)
    (left : tokens <:+ tokens') : IsItemRead tokens' i := by
  cases i with
  | function f => exact IsRead.mono h left
  | class_ d => exact fun f hf => (h f hf).mono left
  | global g => trivial

theorem classDecl_reads (c : Cursor) :
    Reads c (fun d => IsItemRead c.rest (.class_ d)) (classDecl c) := by
  unfold classDecl
  refine reads_bind fun ⟨name, c₁, h₁⟩ read => reads_bind fun ⟨_, c₂, h₂⟩ read₂ => ?_
  refine reads_bind fun ⟨⟨fields, methods⟩, c₃, h₃⟩ read₃ => ?_
  have left₂ := ((expectMark_reads _ _ _).left read₂).trans ((expectName_reads _ _).left read)
  have body := classBody_reads c₂
  exact reads_ok (fun f hf => (body.holds read₃ f hf).mono left₂) ((body.left read₃).trans left₂)

theorem global_reads (constant : Bool) (c : Cursor) :
    Reads c (fun _ => True) (global constant c) := by
  unfold global
  refine reads_bind fun ⟨name, c₁, h₁⟩ read => reads_bind fun ⟨type, c₂, h₂⟩ read₂ => ?_
  refine reads_bind fun ⟨_, c₃, h₃⟩ read₃ => reads_bind fun ⟨value, c₄, h₄⟩ read₄ => ?_
  refine reads_bind fun ⟨c₅, h₅⟩ ended => ?_
  have left₂ := ((typeBehind?_reads _ c₁).left read₂).trans ((expectName_reads _ _).left read)
  have left₃ := ((expectMark_reads _ _ _).left read₃).trans left₂
  have left₄ := ((expression_reads 0 c₃).left read₄).trans left₃
  exact reads_ok trivial ((left_statementEnd ended).trans left₄)

theorem item_reads (c : Cursor) : Reads c (IsItemRead c.rest) (item c) := by
  unfold item
  split
  · exact reads_error
  · next t c₁ h₁ popped =>
    have left := left_pop? popped
    split
    · refine reads_bind fun ⟨f, c₂, h₂⟩ read => ?_
      have inside : t :: c₁.rest <:+ c.rest := rest_of_pop? popped ▸ List.suffix_rfl
      exact reads_ok ⟨t, c₁, _, inside, read, rfl⟩ (((function_reads _ c₁).left read).trans left)
    · refine reads_bind fun ⟨d, c₂, h₂⟩ read => ?_
      have whole := classDecl_reads c₁
      exact reads_ok ((whole.holds read).mono left) ((whole.left read).trans left)
    · refine reads_bind fun ⟨g, c₂, h₂⟩ read => ?_
      exact reads_ok trivial (((global_reads _ c₁).left read).trans left)
    · refine reads_bind fun ⟨g, c₂, h₂⟩ read => ?_
      exact reads_ok trivial (((global_reads _ c₁).left read).trans left)
    · exact reads_error

theorem items_reads (c : Cursor) {found : List Item} {report : Report}
    (h : items c = .ok (found, report)) : ∀ i ∈ found, IsItemRead c.rest i := by
  rw [items] at h
  have hs := c.size_skipSeparators_le
  split at h
  · cases h
    nofun
  · cases read : item c.skipSeparators with
    | error e => rw [read] at h; cases h
    | ok r =>
      obtain ⟨i, c₁, h₁⟩ := r
      rw [read] at h
      cases rest : items c₁ with
      | error e => simp only [bind, Except.bind, rest] at h; cases h
      | ok others =>
        simp only [bind, Except.bind, rest] at h
        cases h
        have whole := item_reads c.skipSeparators
        have left := (whole.left read).trans c.left_skipSeparators
        intro j hj
        rcases List.mem_cons.1 hj with rfl | hj
        · exact (whole.holds read).mono c.left_skipSeparators
        · exact (items_reads c₁ rest j hj).mono left
termination_by c.size

end Reading

/-- Each function of a module is read from some of the tokens. -/
theorem Module.functions_read {row : TokenRow} {m : Module} {report : Report}
    (parsed : Module.ofTokens row = .ok (m, report)) :
    ∀ f ∈ m.functions, Reading.IsRead row.tokens f.2 := by
  unfold Module.ofTokens at parsed
  cases read : Reading.items (Cursor.ofRow row) with
  | error e => rw [read] at parsed; cases parsed
  | ok pair =>
    obtain ⟨items, report'⟩ := pair
    rw [read] at parsed
    cases parsed
    intro f hf
    obtain ⟨i, hi, mine⟩ := List.mem_flatMap.1 hf
    have whole := Reading.items_reads _ read i hi
    cases i with
    | function g =>
      obtain rfl := List.mem_singleton.1 mine
      exact whole
    | class_ d =>
      obtain ⟨g, hg, rfl⟩ := List.mem_map.1 mine
      exact whole g hg
    | global g => cases mine

/-! ## Words that are no names -/

theorem Piece.kind_of_identifier {place : Place} {c : Char} {cs : List Char} {p : Piece}
    (h : Piece.read place c cs = .ok p) (identifier : p.kind = .identifier) :
    Keyword.ofText? (String.ofList p.lexeme) = none := by
  unfold Piece.read at h
  split at h
  · cases h; cases identifier
  split at h
  · split at h
    · cases h; cases identifier
    · cases h
  split at h
  · dsimp only at h
    split at h
    · cases h; cases identifier
    · cases h
  split at h
  · cases h
    dsimp only [wordKind] at identifier ⊢
    split at identifier
    · cases identifier
    · split at identifier
      · cases identifier
      · split at identifier
        · cases identifier
        · assumption
  · split at h
    · cases h; cases identifier
    · cases h

/-- No identifier of a scanned row is a keyword. -/
theorem TokenRow.keyword_of_identifier {place : Place} {text : List Char} {row : TokenRow}
    (h : TokenRow.scan place text = .ok row) {t : Token} (ht : t ∈ row.tokens)
    (identifier : Cursor.isIdentifier t = true) : Keyword.ofText? t.lexeme = none := by
  fun_induction TokenRow.scan place text generalizing row with
  | case1 => cases h; cases ht
  | case2 place c cs blank ih => exact ih h ht
  | case3 place cs notBlank ih => exact ih h ht
  | case4 => cases h
  | case5 place c cs _ _ p read shorter ih =>
    cases rest : TokenRow.scan (place.after p.lexeme) p.rest with
    | error e => rw [rest] at h; cases h
    | ok row' =>
      rw [rest] at h
      cases h
      rcases List.mem_cons.1 ht with rfl | ht
      · refine Piece.kind_of_identifier read ?_
        revert identifier
        cases p.kind <;> simp [Cursor.isIdentifier]
      · exact ih rest ht

/-- No parameter of a module that can be read has the name of a keyword. -/
theorem Module.parameter_name_ne {text : String} {m : Module} {report : Report}
    (h : Module.ofText text = .ok (m, report)) (k : Keyword) :
    ∀ f ∈ m.functions, ∀ p ∈ f.2.parameters, p.name ≠ k.text := by
  obtain ⟨row, scanned, parsed⟩ := Module.exists_tokens h
  intro f hf p hp same
  obtain ⟨t, c, r, inside, read, whole⟩ := Module.functions_read parsed f hf
  have named := (Reading.function_reads _ _).holds read
  rw [whole] at named
  obtain ⟨t, ht, identifier, lexeme⟩ := (named p hp).mono ((List.suffix_cons _ _).trans inside)
  have none_ := TokenRow.keyword_of_identifier scanned ht identifier
  rw [lexeme, same, Keyword.ofText?_text] at none_
  cases none_

end PathTyping
