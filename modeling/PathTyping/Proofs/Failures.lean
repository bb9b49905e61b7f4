import PathTyping.Proofs.Filing
import PathTyping.Proofs.Rejections
import PathTyping.Proofs.Spans

/-!
# Failed readings

A reading that fails says so once, as the last of what it reports, and puts the error where a token
of the row is, where the row ends, or on the left side of an assignment that cannot be.  All else
that a reading reports are the parameters that stand behind one that takes all further arguments.

1. `Cursor.Stands`: what is known of a cursor in a row, and of what was reported up to it.
2. `operand_settles` and its siblings: each reader either stops at a cursor that stands in the row,
   or fails as `ParseFailure.Ends` says.
3. `failures_located`: readings of rows that are scanned from a text, and compilations.
-/

namespace PathTyping

/-! ## What is reported -/

/-- The parameters behind the first one that takes all further arguments. -/
def lateParameters (ps : List Parameter) : List Parameter :=
  (ps.dropWhile fun p => !p.variadic).tail

/-- All such parameters of a module, in the order of the text. -/
def Module.lateParameters (m : Module) : List Parameter :=
  m.functions.flatMap fun f => PathTyping.lateParameters f.2.parameters

theorem lateParameters_cons (p : Parameter) (ps : List Parameter) :
    lateParameters (p :: ps) = if p.variadic then ps else lateParameters ps := by
  cases h : p.variadic <;> simp [lateParameters, h]

def Parameter.head (p : Parameter) : String × Span := (p.name, p.span)

def Token.head (t : Token) : String × Span := (t.lexeme, t.span)

/-- What stands left of an assignment that is spelled in the row, and cannot be assigned to. -/
def TokenRow.Misassigns (row : TokenRow) (left : Expr) : Prop :=
  ∃ before ls t rest, row.tokens = before ++ ls ++ t :: rest ∧ left.Sits ls ∧
    t.operator? = some .assign ∧ left.isTarget = false

/-- What may be wrong with a row: one of its tokens, its end, or the left side of an assignment. -/
inductive ParseError.Blames (row : TokenRow) : ParseError → Prop
  | token (what : Expectation) {t : Token} (h : t ∈ row.tokens) :
      Blames row (.expected what (.token t))
  | finish (what : Expectation) : Blames row (.expected what (.finish row.finish))
  | target {left : Expr} (h : row.Misassigns left) : Blames row (.invalidTarget left.span)

/-- A reading has ended in a failure: behind the parameters `late`, each of which is named by a
token, the error is reported. -/
structure ParseFailure.Ends (row : TokenRow) (late : List Parameter) (f : ParseFailure) : Prop where
  error : f.error.Blames row
  named : (late.map Parameter.head).Sublist (row.tokens.map Token.head)
  report : f.report.entries = late.map Reading.followsVariadic ++ [f.error.diagnostic]

/-- Messages about parameters end with another letter than those about failures. -/
theorem ParseError.last_finding (e : ParseError) :
    ∃ cs c, e.finding.toList = cs ++ [c] ∧ c ≠ 'r' := by
  cases e with
  | expected what found =>
    refine ⟨(what.text ++ " (found " ++ found.text).toList, ')', ?_, by decide⟩
    rw [finding, String.toList_append]
    rfl
  | invalidTarget s =>
    exact ⟨"invalid assignment targe".toList, 't', by rw [finding]; rfl, by decide⟩
  | nothingToRead => exact ⟨"there is no expressio".toList, 'n', by rw [finding]; rfl, by decide⟩

/-- No failure is the same as a finding about a parameter. -/
theorem ParseError.not_same (e : ParseError) (p : Parameter) :
    (Reading.followsVariadic p).same e.diagnostic = false := by
  refine Bool.eq_false_iff.2 fun same => ?_
  obtain ⟨cs, c, ends, other⟩ := e.last_finding
  have last : "' follows a variadic parameter".toList =
      "' follows a variadic paramete".toList ++ ['r'] := rfl
  have messages := congrArg String.toList (Diagnostic.same_iff.1 same).2.2
  simp only [Reading.followsVariadic, Diagnostic.error, diagnostic, String.toList_append, last,
    ends, ← List.append_assoc] at messages
  exact other (List.cons.inj (List.append_inj_right' messages rfl)).1.symm

/-- A failure is not in a report about parameters, so it is added to it. -/
theorem Report.entries_fail {r : Report} {late : List Parameter}
    (known : r.entries = late.map Reading.followsVariadic) (e : ParseError) :
    (r.add e.diagnostic).entries = r.entries ++ [e.diagnostic] := by
  refine entries_add (List.any_eq_false.2 fun d hd => ?_)
  rw [known] at hd
  obtain ⟨p, -, rfl⟩ := List.mem_map.1 hd
  simpa using e.not_same p

/-! ## Cursors -/

/-- The cursor stands in the row, and what was reported up to it are findings about the parameters
`late`, each named by a token that has been passed. -/
structure Cursor.Stands (row : TokenRow) (late : List Parameter) (c : Cursor) : Prop where
  place : ∃ passed, row.tokens = passed ++ c.rest ∧ c.last = passed.getLast? ∧
    (late.map Parameter.head).Sublist (passed.map Token.head)
  finish : c.finish = row.finish
  report : c.report.entries = late.map Reading.followsVariadic

/-- There is no token at all, and an expression is looked for. -/
def ParseFailure.IsEmpty (row : TokenRow) (f : ParseFailure) : Prop :=
  f.error = .nothingToRead ∧ row.tokens = []

/-- Where `x` has read a value, the cursor behind it stands in the row; where it fails, it is the
row that is to blame, and the parameters `before` have been reported before. -/
structure Settles {α : Type} {n : Nat} (row : TokenRow) (x : Reading α n)
    (late : α → List Parameter) (before : List Parameter) : Prop where
  ok : ∀ r, x = .ok r → r.next.Stands row (late r.value)
  error : ∀ f, x = .error f → f.IsEmpty row ∨ f.Ends row before

section Settles

variable {α β : Type} {n m : Nat} {row : TokenRow} {late : α → List Parameter}
  {late' : β → List Parameter} {before before' : List Parameter}

theorem settles_ok {v : α} {next : Cursor} {bound : next.size < n} (h : next.Stands row (late v)) :
    Settles row (.ok ⟨v, next, bound⟩ : Reading α n) late before :=
  ⟨(fun _ read => by cases read; exact h), fun _ failed => by cases failed⟩

theorem settles_error {f : ParseFailure} (h : f.IsEmpty row ∨ f.Ends row before) :
    Settles row (.error f : Reading α n) late before :=
  ⟨(fun _ read => by cases read), fun _ failed => by cases failed; exact h⟩

/-- What has been reported before a failure is only asked for where there is one. -/
theorem Settles.behind {x : Reading α n} (h : Settles row x late before)
    (same : ∀ f, x = .error f → before' = before) : Settles row x late before' :=
  ⟨h.ok, fun f failed => same f failed ▸ h.error f failed⟩

theorem settles_bind {x : Reading α n} {f : Read α n → Reading β m}
    (hx : Settles row x late before)
    (hf : ∀ v next bound, x = .ok ⟨v, next, bound⟩ → next.Stands row (late v) →
      Settles row (f ⟨v, next, bound⟩) late' before) : Settles row (x >>= f) late' before := by
  cases x with
  | error e => exact settles_error (hx.error e rfl)
  | ok r => exact hf r.value r.next r.bound rfl (hx.ok r rfl)

end Settles

namespace Cursor.Stands

variable {row : TokenRow} {late : List Parameter} {c : Cursor}

theorem subset (h : c.Stands row late) : ∀ t ∈ c.rest, t ∈ row.tokens := by
  obtain ⟨passed, split, -⟩ := h.place
  intro t ht
  rw [split]
  exact List.mem_append_right _ ht

theorem last_mem (h : c.Stands row late) {t : Token} (last : c.last = some t) :
    t ∈ row.tokens := by
  obtain ⟨passed, split, same, -⟩ := h.place
  rw [split]
  exact List.mem_append_left _ (List.mem_of_getLast? (same.symm.trans last))

/-- Tokens are passed. -/
theorem advance (h : c.Stands row late) {used rest : List Token} {last : Option Token}
    (split : c.rest = used ++ rest) (ends : last = used.getLast?.or c.last) :
    Cursor.Stands row late ⟨last, rest, c.finish, c.report⟩ := by
  obtain ⟨passed, whole, same, named⟩ := h.place
  refine ⟨⟨passed ++ used, ?_, ?_, ?_⟩, h.finish, h.report⟩
  · rw [whole, split, List.append_assoc]
  · rw [List.getLast?_append, ← same]
    exact ends
  · rw [List.map_append]
    exact named.trans (List.sublist_append_left _ _)

theorem skip (h : c.Stands row late) (p : Token → Bool) : (c.skip p).Stands row late :=
  h.advance List.takeWhile_append_dropWhile.symm rfl

theorem skipNewlines (h : c.Stands row late) : c.skipNewlines.Stands row late := h.skip _

theorem skipSeparators (h : c.Stands row late) : c.skipSeparators.Stands row late := h.skip _

theorem pop (h : c.Stands row late) {t : Token} {c₁ : Cursor} {bound : c₁.size < c.size}
    (popped : c.pop? = some ⟨t, c₁, bound⟩) : c₁.Stands row late := by
  unfold pop? at popped
  split at popped
  · cases popped
  · next t' rest found =>
    cases popped
    exact h.advance (show c.rest = [t] ++ rest from found) rfl

theorem read (h : c.Stands row late) {p : Token → Bool} {t : Token} {c₁ : Cursor}
    {bound : c₁.size < c.size} (found : c.read? p = some ⟨t, c₁, bound⟩) : c₁.Stands row late := by
  unfold read? at found
  split at found
  · next popped =>
    split at found
    · cases found
      exact h.pop popped
    · cases found
  · cases found

/-- To give up is to report the error behind all else. -/
theorem fail (h : c.Stands row late) {e : ParseError} (blames : e.Blames row) :
    (c.fail e).IsEmpty row ∨ (c.fail e).Ends row late := by
  obtain ⟨passed, split, -, named⟩ := h.place
  refine .inr ⟨blames, ?_, ?_⟩
  · rw [split, List.map_append]
    exact named.trans (List.sublist_append_left _ _)
  · rw [← h.report]
    exact Report.entries_fail h.report e

theorem failHere (h : c.Stands row late) (what : Expectation) :
    (c.failHere what).IsEmpty row ∨ (c.failHere what).Ends row late := by
  refine h.fail ?_
  unfold found
  cases here : c.rest with
  | nil => exact h.finish ▸ .finish what
  | cons t rest => exact .token what (h.subset t (here ▸ List.mem_cons_self))

theorem failOperand (h : c.Stands row late) (ended : c.pop? = none) :
    c.failOperand.IsEmpty row ∨ c.failOperand.Ends row late := by
  unfold Cursor.failOperand
  cases last : c.last with
  | some t => exact h.fail (.token _ (h.last_mem last))
  | none =>
    obtain ⟨passed, split, same, -⟩ := h.place
    have none_passed : passed = [] := List.getLast?_eq_none_iff.1 (same.symm.trans last)
    have none_left : c.rest = [] := by
      unfold pop? at ended
      split at ended
      · assumption
      · cases ended
    exact .inl ⟨rfl, by rw [split, none_passed, none_left]; rfl⟩

theorem expect (h : c.Stands row late) (p : Token → Bool) (what : Expectation) :
    Settles row (c.expect p what) (fun _ => late) late := by
  unfold Cursor.expect
  split
  · next found => exact settles_ok (h.read found)
  · exact settles_error (h.failHere what)

/-- A parameter that is reported is named by a token that comes behind those of the parameters that
were reported before it, so the finding is a new one. -/
theorem report_late (distinct : (row.tokens.map Token.span).Nodup) (h : c.Stands row late)
    {name : Token} {rest : List Token} (first : c.rest = name :: rest) {next : Cursor}
    (left : next.rest <:+ rest) (stands : next.Stands row late) {p : Parameter}
    (named : p.head = name.head) :
    Cursor.Stands row (late ++ [p])
      { next with report := next.report.add (Reading.followsVariadic p) } := by
  obtain ⟨before, whole, -, earlier⟩ := h.place
  obtain ⟨used, rfl⟩ := left
  obtain ⟨passed, whole', last, -⟩ := stands.place
  have here : passed = before ++ name :: used := by
    refine List.append_cancel_right (whole'.symm.trans ?_)
    rw [whole, first, List.append_assoc]
    rfl
  refine ⟨⟨passed, whole', last, ?_⟩, stands.finish, ?_⟩
  · rw [here, List.map_append, List.map_append]
    refine earlier.append ?_
    rw [List.map_singleton, named]
    exact List.singleton_sublist.2 List.mem_cons_self
  · have new : next.report.has (Reading.followsVariadic p) = false := by
      refine List.any_eq_false.2 fun d hd same => ?_
      rw [stands.report] at hd
      obtain ⟨q, hq, rfl⟩ := List.mem_map.1 hd
      obtain ⟨t, ht, same'⟩ := List.mem_map.1 (earlier.subset (List.mem_map_of_mem hq))
      have spans : t.span = name.span := by
        have := Option.some.inj (Diagnostic.same_iff.1 same).2.1
        exact (congrArg Prod.snd same').trans (this.trans (congrArg Prod.snd named))
      rw [whole, first, List.map_append] at distinct
      exact (List.nodup_append.1 distinct).2.2 _ (List.mem_map_of_mem ht) _ List.mem_cons_self spans
    show (next.report.add _).entries = _
    rw [Report.entries_add new, stands.report, List.map_append]
    rfl

end Cursor.Stands

namespace Reading

open Cursor

variable {row : TokenRow} {late : List Parameter}

/-! ### Expressions -/

mutual

theorem operand_settles (c : Cursor) (stands : c.Stands row late) :
    Settles row (operand c) (fun _ => late) late := by
  rw [operand]
  split
  · next ended => exact settles_error (stands.failOperand ended)
  · next t c₁ h₁ popped =>
    have stands₁ := stands.pop popped
    split
    · exact settles_bind (chain_settles _ c₁ stands₁) fun _ _ _ _ stands => settles_ok stands
    · split
      · refine settles_bind (operand_settles c₁ stands₁) fun _ c₂ h₂ _ stands₂ => ?_
        exact settles_bind (chain_settles _ c₂ stands₂) fun _ _ _ _ stands => settles_ok stands
      · split
        · have hs := c₁.size_skipNewlines_le
          refine settles_bind (expression_settles 0 _ stands₁.skipNewlines)
            fun _ c₂ h₂ _ stands₂ => ?_
          have hs₂ := c₂.size_skipNewlines_le
          refine settles_bind (stands₂.skipNewlines.expect _ _) fun _ c₃ h₃ _ stands₃ => ?_
          exact settles_bind (chain_settles _ c₃ stands₃) fun _ _ _ _ stands => settles_ok stands
        · have here : t ∈ row.tokens :=
            stands.subset t (rest_of_pop? popped ▸ List.mem_cons_self)
          exact settles_error (stands₁.fail (.token _ here))
termination_by 4 * c.size
decreasing_by all_goals dsimp only at *; omega

theorem expression_settles (level : Nat) (c : Cursor) (stands : c.Stands row late) :
    Settles row (expression level c) (fun _ => late) late := by
  rw [expression]
  refine settles_bind (operand_settles c stands) fun left c₁ h₁ read stands₁ => ?_
  obtain ⟨ls, split, sits⟩ := (operand_sits c).holds read
  obtain ⟨before, whole, -⟩ := stands.place
  have behind : row.tokens = before ++ ls ++ c₁.rest := by
    rw [whole, split, List.append_assoc]
  exact settles_bind (climb_settles level c₁ sits behind stands₁)
    fun _ _ _ _ stands => settles_ok stands
termination_by 4 * c.size + 1
decreasing_by all_goals dsimp only at *; omega

/-- What stands on the left of an operator is in the row. -/
theorem climb_settles (level : Nat) {left : Expr} (c : Cursor) {before ls : List Token}
    (sits : left.Sits ls) (behind : row.tokens = before ++ ls ++ c.rest)
    (stands : c.Stands row late) : Settles row (climb level left c) (fun _ => late) late := by
  rw [climb]
  split
  · exact settles_ok stands
  · next t c₁ h₁ popped =>
    have first := rest_of_pop? popped
    have stands₁ := stands.pop popped
    split
    · exact settles_ok stands
    · next o operator =>
      split
      · exact settles_ok stands
      · have hs := c₁.size_skipNewlines_le
        obtain ⟨nl, skipped, newlines⟩ := c₁.rest_skipNewlines
        cases o with
        | assign =>
          refine settles_bind (expression_settles 0 _ stands₁.skipNewlines)
            fun value c₂ h₂ read stands₂ => ?_
          obtain ⟨ts, rest, sits'⟩ := (expression_sits 0 _).holds read
          dsimp only
          split
          · next target =>
            have behind₂ : row.tokens = before ++ (ls ++ (t :: nl) ++ ts) ++ c₂.rest := by
              rw [behind, first, skipped, rest]
              simp
            exact settles_bind
              (climb_settles level c₂ (.assign sits target operator newlines sits') behind₂ stands₂)
              fun _ _ _ _ stands => settles_ok stands
          · next target =>
            refine settles_error (stands₂.fail (.target ?_))
            exact ⟨before, ls, t, c₁.rest, first ▸ behind, sits, operator, by simpa using target⟩
        | binary op =>
          refine settles_bind (expression_settles op.level _ stands₁.skipNewlines)
            fun value c₂ h₂ read stands₂ => ?_
          obtain ⟨ts, rest, sits'⟩ := (expression_sits op.level _).holds read
          have behind₂ : row.tokens = before ++ (ls ++ (t :: nl) ++ ts) ++ c₂.rest := by
            rw [behind, first, skipped, rest]
            simp
          exact settles_bind
            (climb_settles level c₂ (.binary sits operator newlines sits') behind₂ stands₂)
            fun _ _ _ _ stands => settles_ok stands
termination_by 4 * c.size
decreasing_by all_goals dsimp only at *; omega

theorem chain_settles (e : Expr) (c : Cursor) (stands : c.Stands row late) :
    Settles row (chain e c) (fun _ => late) late := by
  rw [chain]
  split
  · exact settles_ok stands
  · next t c₁ h₁ popped =>
    have stands₁ := stands.pop popped
    have hs := c₁.size_skipNewlines_le
    split
    · dsimp only
      split
      · refine settles_bind (stands₁.skipNewlines.expect _ _) fun _ c₂ h₂ _ stands₂ => ?_
        exact settles_bind (chain_settles _ c₂ stands₂) fun _ _ _ _ stands => settles_ok stands
      · refine settles_bind (argumentList_settles _ stands₁.skipNewlines)
          fun _ c₂ h₂ _ stands₂ => ?_
        dsimp only
        refine settles_bind (stands₂.expect _ _) fun _ c₃ h₃ _ stands₃ => ?_
        exact settles_bind (chain_settles _ c₃ stands₃) fun _ _ _ _ stands => settles_ok stands
    · split
      · refine settles_bind (stands₁.expect _ _) fun _ c₂ h₂ _ stands₂ => ?_
        exact settles_bind (chain_settles _ c₂ stands₂) fun _ _ _ _ stands => settles_ok stands
      · split
        · refine settles_bind (expression_settles 0 _ stands₁.skipNewlines)
            fun _ c₂ h₂ _ stands₂ => ?_
          have hs₂ := c₂.size_skipNewlines_le
          refine settles_bind (stands₂.skipNewlines.expect _ _) fun _ c₃ h₃ _ stands₃ => ?_
          exact settles_bind (chain_settles _ c₃ stands₃) fun _ _ _ _ stands => settles_ok stands
        · exact settles_ok stands
termination_by 4 * c.size + 3
decreasing_by all_goals dsimp only at *; omega

theorem argumentList_settles (c : Cursor) (stands : c.Stands row late) :
    Settles row (argumentList c) (fun _ => late) late := by
  rw [argumentList]
  have hs := c.size_skipNewlines_le
  refine settles_bind (expression_settles 0 _ stands.skipNewlines) fun _ c₁ h₁ _ stands₁ => ?_
  have hs₁ := c₁.size_skipNewlines_le
  dsimp only
  split
  · next t c₂ h₂ comma =>
    exact settles_bind (argumentList_settles c₂ (stands₁.skipNewlines.read comma))
      fun _ _ _ _ stands => settles_ok stands
  · exact settles_ok stands₁.skipNewlines
termination_by 4 * c.size + 2
decreasing_by all_goals dsimp only at *; omega

end

/-! ### Statements -/

theorem settles_statementEnd {α : Type} {n : Nat} {c : Cursor}
    {f : { next : Cursor // next.size ≤ c.size } → Reading α n} (stands : c.Stands row late)
    (hf : ∀ next bound, next.Stands row late →
      Settles row (f ⟨next, bound⟩) (fun _ => late) late) :
    Settles row (statementEnd c >>= f) (fun _ => late) late := by
  unfold statementEnd
  split
  · exact hf c _ stands
  · split
    · exact hf c.skipSeparators _ stands.skipSeparators
    · exact settles_error (stands.failHere _)

mutual

theorem block_settles (c : Cursor) (stands : c.Stands row late) :
    Settles row (block c) (fun _ => late) late := by
  rw [block]
  refine settles_bind (stands.expect _ _) fun _ c₁ h₁ _ stands₁ => ?_
  exact settles_bind (statements_settles c₁ stands₁) fun _ _ _ _ stands => settles_ok stands
termination_by 4 * c.size
decreasing_by all_goals dsimp only at *; omega

theorem statements_settles (c : Cursor) (stands : c.Stands row late) :
    Settles row (statements c) (fun _ => late) late := by
  rw [statements]
  have hs := c.size_skipSeparators_le
  split
  · exact settles_error (stands.skipSeparators.failHere _)
  · next t c₁ h₁ popped =>
    split
    · exact settles_ok (stands.skipSeparators.pop popped)
    · refine settles_bind (statement_settles _ stands.skipSeparators) fun _ c₂ h₂ _ stands₂ => ?_
      exact settles_bind (statements_settles c₂ stands₂) fun _ _ _ _ stands => settles_ok stands
termination_by 4 * c.size + 1
decreasing_by all_goals dsimp only at *; omega

theorem statement_settles (c : Cursor) (stands : c.Stands row late) :
    Settles row (statement c) (fun _ => late) late := by
  rw [statement]
  split
  · next ended => exact settles_error (stands.failOperand ended)
  · next t c₁ h₁ popped =>
    have stands₁ := stands.pop popped
    split
    · refine settles_bind (stands₁.expect _ _) fun _ c₂ h₂ _ stands₂ => ?_
      refine settles_bind (stands₂.expect _ _) fun _ c₃ h₃ _ stands₃ => ?_
      refine settles_bind (expression_settles 0 c₃ stands₃) fun _ c₄ h₄ _ stands₄ => ?_
      exact settles_statementEnd stands₄ fun _ _ stands => settles_ok stands
    · exact settles_bind (conditional_settles _ c₁ stands₁) fun _ _ _ _ stands => settles_ok stands
    · refine settles_bind (expression_settles 0 c₁ stands₁) fun _ c₂ h₂ _ stands₂ => ?_
      exact settles_bind (block_settles c₂ stands₂) fun _ _ _ _ stands => settles_ok stands
    · split
      · exact settles_statementEnd stands₁ fun _ _ stands => settles_ok stands
      · exact settles_bind (expression_settles 0 c₁ stands₁) fun _ _ _ _ stands₂ =>
          settles_statementEnd stands₂ fun _ _ stands => settles_ok stands
    · exact settles_bind (expression_settles 0 c stands) fun _ _ _ _ stands₂ =>
        settles_statementEnd stands₂ fun _ _ stands => settles_ok stands
termination_by 4 * c.size
decreasing_by all_goals dsimp only at *; omega

theorem conditional_settles (start : Span) (c : Cursor) (stands : c.Stands row late) :
    Settles row (conditional start c) (fun _ => late) late := by
  rw [conditional]
  refine settles_bind (expression_settles 0 c stands) fun _ c₁ h₁ _ stands₁ => ?_
  dsimp only
  refine settles_bind (block_settles c₁ stands₁) fun _ c₂ h₂ _ stands₂ => ?_
  have hs := c₂.size_skipNewlines_le
  dsimp only
  split
  · exact settles_ok stands₂
  · next t c₃ h₃ otherwise =>
    have stands₃ := stands₂.skipNewlines.read otherwise
    split
    · next t' c₄ h₄ again =>
      exact settles_bind (conditional_settles _ c₄ (stands₃.read again))
        fun _ _ _ _ stands => settles_ok stands
    · exact settles_bind (block_settles c₃ stands₃) fun _ _ _ _ stands => settles_ok stands
termination_by 4 * c.size
decreasing_by all_goals dsimp only at *; omega

end

/-! ### Declarations -/

theorem typeName_settles (c : Cursor) (stands : c.Stands row late) :
    Settles row (typeName c) (fun _ => late) late := by
  unfold typeName
  split
  · next popped =>
    split
    · exact settles_ok (stands.pop popped)
    · exact settles_ok (stands.pop popped)
    · exact settles_error (stands.failHere _)
  · exact settles_error (stands.failHere _)

theorem typeBehind?_settles (mark : Mark) (c : Cursor) (stands : c.Stands row late) :
    Settles row (typeBehind? mark c) (fun _ => late) late := by
  unfold typeBehind?
  split
  · next c₁ _ found =>
    exact settles_bind (typeName_settles c₁ (stands.read found))
      fun _ _ _ _ stands => settles_ok stands
  · exact settles_ok stands

theorem valueBehind?_settles (level : Nat) (c : Cursor) (stands : c.Stands row late) :
    Settles row (valueBehind? level c) (fun _ => late) late := by
  unfold valueBehind?
  split
  · next c₁ _ found =>
    exact settles_bind (expression_settles level c₁ (stands.read found))
      fun _ _ _ _ stands => settles_ok stands
  · exact settles_ok stands

/-! ### Declarations that cannot be read

Before a reading fails, parameters may have come late: all those of the functions that have been
read, and those of the function in which it fails, as far as its parameters have been read. -/

/-- Those of a list of parameters that cannot be read. -/
def lateBefore (variadicSeen : Bool) (c : Cursor) : List Parameter :=
  have _ := c.size_skipNewlines_le
  match parameter variadicSeen c.skipNewlines with
  | .error _ => []
  | .ok ⟨p, c₁, _⟩ =>
    have _ := c₁.size_skipNewlines_le
    (if variadicSeen then [p] else []) ++
      match c₁.skipNewlines.pop? with
      | some ⟨t, c₂, _⟩ =>
        if t.isMark .comma then lateBefore (variadicSeen || p.variadic) c₂ else []
      | none => []
termination_by c.size
decreasing_by omega

/-- Those of a function that cannot be read. -/
def functionBefore (c : Cursor) : List Parameter :=
  match c.expectName .functionName with
  | .error _ => []
  | .ok ⟨_, c₁, _⟩ =>
    match c₁.expectMark .lparen .parameterStart with
    | .error _ => []
    | .ok ⟨_, c₂, _⟩ =>
      match parameters c₂ with
      | .error _ => lateBefore false c₂
      | .ok ⟨ps, _, _⟩ => lateParameters ps

/-- Those of the members of a class that cannot be read. -/
def bodyBefore (c : Cursor) : List Parameter :=
  have _ := c.size_skipSeparators_le
  match c.skipSeparators.pop? with
  | none => []
  | some ⟨t, c₁, _⟩ =>
    if t.isMark .rbrace then []
    else if t.isKeyword .var then
      match field c₁ with
      | .error _ => []
      | .ok ⟨_, c₂, _⟩ => bodyBefore c₂
    else if t.isKeyword .fn then
      match function t.span c₁ with
      | .error _ => functionBefore c₁
      | .ok ⟨f, c₂, _⟩ => lateParameters f.parameters ++ bodyBefore c₂
    else []
termination_by c.size
decreasing_by all_goals omega

def classBefore (c : Cursor) : List Parameter :=
  match c.expectName .className with
  | .error _ => []
  | .ok ⟨_, c₁, _⟩ =>
    match c₁.expectMark .lbrace .classStart with
    | .error _ => []
    | .ok ⟨_, c₂, _⟩ => bodyBefore c₂

def itemBefore (c : Cursor) : List Parameter :=
  match c.pop? with
  | none => []
  | some ⟨t, c₁, _⟩ =>
    match t.kind with
    | .keyword .fn => functionBefore c₁
    | .keyword .class_ => classBefore c₁
    | _ => []

/-- Those of a module that cannot be read. -/
def itemsBefore (c : Cursor) : List Parameter :=
  have _ := c.size_skipSeparators_le
  if c.skipSeparators.rest.isEmpty then []
  else
    match item c.skipSeparators with
    | .error _ => itemBefore c.skipSeparators
    | .ok ⟨i, c₁, _⟩ => Module.lateParameters ⟨[i]⟩ ++ itemsBefore c₁
termination_by c.size
decreasing_by omega

section Parameters

variable (distinct : (row.tokens.map Token.span).Nodup)

include distinct

theorem parameter_settles (variadicSeen : Bool) (c : Cursor) (stands : c.Stands row late) :
    Settles row (parameter variadicSeen c) (fun p => late ++ if variadicSeen then [p] else [])
      late := by
  unfold parameter
  rcases dots : c.read? (·.isMark .dots) with _ | ⟨t, c₁, h₁⟩
  case' none => have stands₁ : c.Stands row late := stands
  case' some => have stands₁ : c₁.Stands row late := stands.read dots
  -- With dots or without them, what follows is read alike.
  all_goals
    refine settles_bind (stands₁.expect _ _) fun name c₂ _ read stands₂ => ?_
    refine settles_bind (typeBehind?_settles _ c₂ stands₂) fun type c₃ _ read₃ stands₃ => ?_
    refine settles_bind (valueBehind?_settles _ c₃ stands₃) fun default c₄ _ read₄ stands₄ => ?_
    have left : c₄.rest <:+ c₂.rest :=
      ((valueBehind?_reads _ c₃).left read₄).trans ((typeBehind?_reads _ c₂).left read₃)
    refine settles_ok ?_
    cases variadicSeen with
    | false => exact (List.append_nil late).symm ▸ stands₄
    | true => exact stands₁.report_late distinct (rest_of_expect read).1 left stands₄ rfl

theorem parameterList_settles {late : List Parameter} (variadicSeen : Bool) (c : Cursor)
    (stands : c.Stands row late) : Settles row (parameterList variadicSeen c)
      (fun ps => late ++ if variadicSeen then ps else lateParameters ps)
      (late ++ lateBefore variadicSeen c) := by
  rw [parameterList, lateBefore]
  have hs := c.size_skipNewlines_le
  have first := parameter_settles distinct variadicSeen _ stands.skipNewlines
  refine settles_bind (first.behind fun f failed => ?_) fun p c₁ h₁ read stands₁ => ?_
  · rw [failed]
    exact List.append_nil late
  rw [read]
  have hs₁ := c₁.size_skipNewlines_le
  have only : (if variadicSeen then [p] else []) =
      if variadicSeen then [p] else lateParameters [p] := by
    cases variadicSeen <;> cases h : p.variadic <;> simp [lateParameters, h]
  dsimp only
  rcases popped : c₁.skipNewlines.pop? with _ | ⟨t, c₂, h₂⟩
  · dsimp only
    rw [List.append_nil]
    split
    · next t last =>
      split
      · exact settles_ok (only ▸ stands₁.skipNewlines)
      · exact settles_error (stands₁.fail (.token _ (stands₁.skipNewlines.last_mem last)))
    · exact settles_error (stands₁.failHere _)
  · have stands₂ := stands₁.skipNewlines.pop popped
    dsimp only
    by_cases comma : t.isMark .comma
    · rw [if_pos comma, if_pos comma]
      have others := parameterList_settles (variadicSeen || p.variadic) c₂ stands₂
      rw [List.append_assoc] at others
      refine settles_bind others fun others c₃ h₃ _ stands₃ => ?_
      refine settles_ok ?_
      have together : (late ++ if variadicSeen then [p] else []) ++
          (if variadicSeen || p.variadic then others else lateParameters others) =
          late ++ if variadicSeen then p :: others else lateParameters (p :: others) := by
        rw [lateParameters_cons]
        cases variadicSeen <;> simp
      exact together ▸ stands₃
    · rw [if_neg comma, if_neg comma, List.append_nil]
      split
      · exact settles_ok (only ▸ stands₂)
      · have here : t ∈ row.tokens :=
          stands₁.skipNewlines.subset t (rest_of_pop? popped ▸ List.mem_cons_self)
        exact settles_error (stands₂.fail (.token _ here))
termination_by c.size
decreasing_by all_goals dsimp only at *; omega

theorem parameters_settles (c : Cursor) (stands : c.Stands row late) :
    Settles row (parameters c) (fun ps => late ++ lateParameters ps)
      (late ++ lateBefore false c) := by
  unfold parameters
  dsimp only
  split
  · next close => exact settles_ok ((List.append_nil late).symm ▸ stands.skipNewlines.read close)
  · exact parameterList_settles distinct false c stands

theorem function_settles (start : Span) (c : Cursor) (stands : c.Stands row late) :
    Settles row (function start c) (fun f => late ++ lateParameters f.parameters)
      (late ++ functionBefore c) := by
  unfold function functionBefore
  refine settles_bind ((stands.expect _ _).behind fun _ failed => ?_) fun _ c₁ _ read stands₁ => ?_
  · rw [show c.expectName .functionName = _ from failed]
    exact List.append_nil late
  rw [show c.expectName .functionName = _ from read]
  refine settles_bind ((stands₁.expect _ _).behind fun _ failed => ?_)
    fun _ c₂ _ read₁ stands₂ => ?_
  · dsimp only
    rw [show c₁.expectMark .lparen .parameterStart = _ from failed]
    exact List.append_nil late
  dsimp only
  rw [show c₁.expectMark .lparen .parameterStart = _ from read₁]
  refine settles_bind ((parameters_settles distinct c₂ stands₂).behind fun _ failed => ?_)
    fun ps c₃ _ read₂ stands₃ => ?_
  · dsimp only
    rw [failed]
  dsimp only
  rw [read₂]
  refine settles_bind (typeBehind?_settles _ c₃ stands₃) fun _ c₄ _ _ stands₄ => ?_
  exact settles_bind (block_settles c₄ stands₄) fun _ _ _ _ stands => settles_ok stands

omit distinct in
theorem field_settles (c : Cursor) (stands : c.Stands row late) :
    Settles row (field c) (fun _ => late) late := by
  unfold field
  refine settles_bind (stands.expect _ _) fun _ c₁ _ _ stands₁ => ?_
  refine settles_bind (typeBehind?_settles _ c₁ stands₁) fun _ c₂ _ _ stands₂ => ?_
  refine settles_bind (valueBehind?_settles _ c₂ stands₂) fun _ c₃ _ _ stands₃ => ?_
  exact settles_statementEnd stands₃ fun _ _ stands => settles_ok stands

theorem classBody_settles {late : List Parameter} (c : Cursor) (stands : c.Stands row late) :
    Settles row (classBody c)
      (fun body => late ++ body.2.flatMap fun f => lateParameters f.parameters)
      (late ++ bodyBefore c) := by
  rw [classBody, bodyBefore]
  have hs := c.size_skipSeparators_le
  rcases popped : c.skipSeparators.pop? with _ | ⟨t, c₁, h₁⟩
  · exact settles_error ((List.append_nil late).symm ▸ stands.skipSeparators.failHere _)
  have stands₁ := stands.skipSeparators.pop popped
  dsimp only
  by_cases close : t.isMark .rbrace
  · rw [if_pos close]
    exact settles_ok ((List.append_nil late).symm ▸ stands₁)
  rw [if_neg close, if_neg close]
  by_cases var : t.isKeyword .var
  · rw [if_pos var, if_pos var]
    refine settles_bind ((field_settles c₁ stands₁).behind fun _ failed => ?_)
      fun _ c₂ h₂ read stands₂ => ?_
    · rw [failed]
      exact List.append_nil late
    rw [read]
    exact settles_bind (classBody_settles c₂ stands₂) fun _ _ _ _ stands => settles_ok stands
  rw [if_neg var, if_neg var]
  by_cases fn : t.isKeyword .fn
  · rw [if_pos fn, if_pos fn]
    refine settles_bind ((function_settles distinct _ c₁ stands₁).behind fun _ failed => ?_)
      fun _ c₂ h₂ read stands₂ => ?_
    · rw [failed]
    rw [read]
    have others := classBody_settles c₂ stands₂
    rw [List.append_assoc] at others
    refine settles_bind others fun _ _ _ _ stands => settles_ok ?_
    rw [List.flatMap_cons, ← List.append_assoc]
    exact stands
  · rw [if_neg fn, if_neg fn]
    exact settles_error ((List.append_nil late).symm ▸ stands.skipSeparators.failHere _)
termination_by c.size
decreasing_by all_goals dsimp only at *; omega

theorem classDecl_settles (c : Cursor) (stands : c.Stands row late) :
    Settles row (classDecl c)
      (fun d => late ++ d.methods.flatMap fun f => lateParameters f.parameters)
      (late ++ classBefore c) := by
  unfold classDecl classBefore
  refine settles_bind ((stands.expect _ _).behind fun _ failed => ?_) fun _ c₁ _ read stands₁ => ?_
  · rw [show c.expectName .className = _ from failed]
    exact List.append_nil late
  rw [show c.expectName .className = _ from read]
  refine settles_bind ((stands₁.expect _ _).behind fun _ failed => ?_)
    fun _ c₂ _ read₁ stands₂ => ?_
  · dsimp only
    rw [show c₁.expectMark .lbrace .classStart = _ from failed]
    exact List.append_nil late
  dsimp only
  rw [show c₁.expectMark .lbrace .classStart = _ from read₁]
  exact settles_bind (classBody_settles distinct c₂ stands₂) fun _ _ _ _ stands => settles_ok stands

omit distinct in
theorem global_settles (constant : Bool) (c : Cursor) (stands : c.Stands row late) :
    Settles row (global constant c) (fun _ => late) late := by
  unfold global
  refine settles_bind (stands.expect _ _) fun _ c₁ _ _ stands₁ => ?_
  refine settles_bind (typeBehind?_settles _ c₁ stands₁) fun _ c₂ _ _ stands₂ => ?_
  refine settles_bind (stands₂.expect _ _) fun _ c₃ _ _ stands₃ => ?_
  refine settles_bind (expression_settles 0 c₃ stands₃) fun _ c₄ _ _ stands₄ => ?_
  exact settles_statementEnd stands₄ fun _ _ stands => settles_ok stands

theorem item_settles (c : Cursor) (stands : c.Stands row late) :
    Settles row (item c) (fun i => late ++ Module.lateParameters ⟨[i]⟩) (late ++ itemBefore c) := by
  unfold item itemBefore
  cases popped : c.pop? with
  | none => exact settles_error ((List.append_nil late).symm ▸ stands.failHere _)
  | some read =>
    obtain ⟨t, c₁, h₁⟩ := read
    have stands₁ := stands.pop popped
    dsimp only
    by_cases isFn : t.kind = .keyword .fn
    · rw [isFn]
      refine settles_bind (function_settles distinct _ c₁ stands₁) fun f _ _ _ stands =>
        settles_ok ?_
      simpa [Module.lateParameters, Module.functions] using stands
    by_cases isClass : t.kind = .keyword .class_
    · rw [isClass]
      refine settles_bind (classDecl_settles distinct c₁ stands₁) fun d _ _ _ stands =>
        settles_ok ?_
      simpa [Module.lateParameters, Module.functions, List.flatMap_map] using stands
    by_cases isVar : t.kind = .keyword .var
    · rw [isVar, List.append_nil]
      refine settles_bind (global_settles _ c₁ stands₁) fun _ _ _ _ stands => settles_ok ?_
      simpa [Module.lateParameters, Module.functions] using stands
    by_cases isConst : t.kind = .keyword .const
    · rw [isConst, List.append_nil]
      refine settles_bind (global_settles _ c₁ stands₁) fun _ _ _ _ stands => settles_ok ?_
      simpa [Module.lateParameters, Module.functions] using stands
    -- No other token starts an item.
    split
    · next fn => exact absurd fn isFn
    · next class_ => exact absurd class_ isClass
    · next var => exact absurd var isVar
    · next const => exact absurd const isConst
    · refine settles_error ?_
      split
      · next fn => exact absurd fn isFn
      · next class_ => exact absurd class_ isClass
      · exact (List.append_nil late).symm ▸ stands.failHere _

theorem items_settles {late : List Parameter} (c : Cursor) (stands : c.Stands row late) :
    (∀ is report, items c = .ok (is, report) →
      report.entries = (late ++ Module.lateParameters ⟨is⟩).map followsVariadic) ∧
      ∀ f, items c = .error f → f.IsEmpty row ∨ f.Ends row (late ++ itemsBefore c) := by
  rw [items, itemsBefore]
  have hs := c.size_skipSeparators_le
  by_cases done : c.skipSeparators.rest.isEmpty
  · rw [if_pos done, if_pos done]
    refine ⟨fun is report read => ?_, fun f failed => by cases failed⟩
    cases read
    exact stands.report.trans (congrArg _ (List.append_nil late).symm)
  rw [if_neg done, if_neg done]
  have first := item_settles distinct _ stands.skipSeparators
  cases read : item c.skipSeparators with
  | error e =>
    exact ⟨(fun _ _ whole => by cases whole),
      fun f failed => by cases failed; exact first.error e read⟩
  | ok r =>
    obtain ⟨i, c₁, h₁⟩ := r
    obtain ⟨ok, error⟩ := items_settles c₁ (first.ok _ read)
    rw [List.append_assoc] at error
    dsimp only
    cases others : items c₁ with
    | error e =>
      exact ⟨fun is report whole => by simp [bind, Except.bind, others] at whole,
        fun f failed => by
          simp [bind, Except.bind, others] at failed
          exact failed ▸ error e others⟩
    | ok found =>
      obtain ⟨is, report⟩ := found
      refine ⟨fun is' report' whole => ?_, fun f failed => ?_⟩
      · simp [bind, Except.bind, pure, Except.pure, others] at whole
        obtain ⟨rfl, rfl⟩ := whole
        rw [ok is report others]
        simp [Module.lateParameters, Module.functions]
      · simp [bind, Except.bind, pure, Except.pure, others] at failed
termination_by c.size
decreasing_by all_goals dsimp only at *; omega

end Parameters

end Reading

/-! ## Rows and texts -/

/-- Nothing has been read of a row yet. -/
theorem Cursor.Stands.ofRow (row : TokenRow) : (Cursor.ofRow row).Stands row [] :=
  ⟨⟨[], rfl, rfl, .slnil⟩, rfl, rfl⟩

section Rows

variable {row : TokenRow}

theorem Module.ofTokens_ok (distinct : (row.tokens.map Token.span).Nodup) {m : Module}
    {report : Report} (read : Module.ofTokens row = .ok (m, report)) :
    report.entries = m.lateParameters.map Reading.followsVariadic := by
  unfold Module.ofTokens at read
  cases items : Reading.items (.ofRow row) with
  | error e => rw [items] at read; cases read
  | ok found =>
    rw [items] at read
    cases read
    exact (Reading.items_settles distinct _ (.ofRow row)).1 _ _ items

/-- An empty row is an empty module. -/
theorem Module.ofTokens_error (distinct : (row.tokens.map Token.span).Nodup) {f : ParseFailure}
    (failed : Module.ofTokens row = .error f) :
    f.Ends row (Reading.itemsBefore (.ofRow row)) := by
  unfold Module.ofTokens at failed
  cases items : Reading.items (.ofRow row) with
  | ok found => rw [items] at failed; cases failed
  | error e =>
    rw [items] at failed
    cases failed
    rcases (Reading.items_settles distinct _ (.ofRow row)).2 _ items with ⟨-, empty⟩ | ends
    · have none_left : (Cursor.ofRow row).skipSeparators.rest = [] := by
        show (row.tokens.dropWhile _) = []
        rw [empty]
        rfl
      rw [Reading.items, none_left] at items
      cases items
    · exact ends

theorem Expr.ofTokens_settles (row : TokenRow) :
    (∀ e report, Expr.ofTokens row = .ok (e, report) → report.entries = []) ∧
      ∀ f, Expr.ofTokens row = .error f → f.IsEmpty row ∨ f.Ends row [] := by
  unfold Expr.ofTokens
  have first := Reading.expression_settles 0 _ (Cursor.Stands.ofRow row).skipSeparators
  cases read : Reading.expression 0 (Cursor.ofRow row).skipSeparators with
  | error e =>
    exact ⟨(fun _ _ whole => by cases whole),
      fun f failed => by cases failed; exact first.error e read⟩
  | ok r =>
    obtain ⟨e, c, h⟩ := r
    have stands := (first.ok _ read).skipSeparators
    dsimp only [bind, Except.bind]
    split
    · refine ⟨fun e' report whole => ?_, fun f failed => by cases failed⟩
      cases whole
      exact stands.report
    · refine ⟨(fun _ _ whole => by cases whole), fun f failed => ?_⟩
      cases failed
      exact stands.failHere _

/-- The failure is told once, behind all else that is reported, and at a place that its message
names: that of a token, the end of the row, or the left side of an assignment. -/
structure ParseFailure.Located (row : TokenRow) (f : ParseFailure) : Prop where
  /-- All else are findings about parameters, each named by a token of its own. -/
  report : ∃ late : List Parameter, (late.map Parameter.head).Sublist (row.tokens.map Token.head) ∧
    f.report.entries = late.map Reading.followsVariadic ++ [f.error.diagnostic] ∧
    f.error.diagnostic ∉ late.map Reading.followsVariadic
  place : ∃ s, f.error.diagnostic = .error f.error.finding (some s) ∧
    f.error.message = f.error.finding ++ " at " ++ (Place.mk s.line s.column).text ∧
    s.isAbsent = false ∧ (s = Token.spanOf row.finish "" ∨ (∃ t ∈ row.tokens, s = t.span) ∨
      ∃ left, row.Misassigns left ∧ s = left.span)

/-- No text ends on line 0. -/
theorem Tiles.finish_line {before text : List Char} {ts : List Token} {finish : Place}
    (h : Tiles before text ts finish) : finish.line ≠ 0 := by
  induction h with
  | finish => simp [Place.behind]
  | token _ _ _ _ _ ih => exact ih

/-- The left side of an assignment in the row has a span. -/
theorem TokenRow.Misassigns.present {left : Expr} (h : row.Misassigns left)
    (ordered : Ordered row.tokens) : left.span.isAbsent = false := by
  obtain ⟨before, ls, t, rest, split, sits, -, -⟩ := h
  have inner : Ordered ls := ordered.within ⟨before, t :: rest, split.symm⟩
  exact (sits.runs inner).present inner

theorem ParseFailure.Ends.located {late : List Parameter} {f : ParseFailure} (h : f.Ends row late)
    (ordered : Ordered row.tokens) (finish : row.finish.line ≠ 0) : f.Located row := by
  obtain ⟨error, report⟩ := f
  obtain ⟨blames, named, entries⟩ := h
  dsimp only at blames entries
  refine ⟨⟨late, named, entries, fun mem => ?_⟩, error.span, rfl, rfl, ?_⟩
  · obtain ⟨p, -, same⟩ := List.mem_map.1 mem
    have other := error.not_same p
    rw [same, Diagnostic.same_iff.2 ⟨rfl, rfl, rfl⟩] at other
    cases other
  · cases blames with
    | token what h => exact ⟨ordered.present _ h, .inr (.inl ⟨_, h, rfl⟩)⟩
    | finish what =>
      refine ⟨?_, .inl rfl⟩
      simpa [ParseError.span, Found.span, Token.spanOf, Span.isAbsent] using finish
    | target h => exact ⟨h.present ordered, .inr (.inr ⟨_, h, rfl⟩)⟩

end Rows

/-- A compilation fails exactly where its text is not scanned or its tokens are not read. -/
theorem Compilation.fails_iff (options : AnalysisOptions) (text : String) :
    (∃ f, Compilation.ofText options text = .error f) ↔
      (∃ e, TokenRow.ofText text = .error e) ∨
        ∃ row f, TokenRow.ofText text = .ok row ∧ Module.ofTokens row = .error f := by
  simp only [Compilation.ofText_eq_error_iff]
  unfold Module.ofText
  constructor
  · rintro ⟨f, failed⟩
    split at failed
    · next e scanned => exact .inl ⟨e, scanned⟩
    · next row scanned =>
      split at failed
      · next f' read => exact .inr ⟨row, f', scanned, read⟩
      · cases failed
  · rintro (⟨e, scanned⟩ | ⟨row, f, scanned, read⟩)
    · rw [scanned]
      exact ⟨_, rfl⟩
    · rw [scanned]
      dsimp only
      rw [read]
      exact ⟨_, rfl⟩

/-- What fails a reading is an error at a place of the text. -/
theorem ReadFailure.exists_error {text : String} {f : ReadFailure}
    (failed : Module.ofText text = .error f) :
    ∃ d ∈ f.report.entries, d.level = .error ∧ ∃ s, d.span = some s ∧ s.isAbsent = false := by
  unfold Module.ofText at failed
  split at failed
  · next e scanned =>
    cases failed
    refine ⟨_, List.mem_singleton_self _, rfl, _, rfl, ?_⟩
    obtain ⟨before, rest, -, -, stuck⟩ := TokenRow.stuck_of_scan scanned (.start _) rfl
    cases stuck <;> simp [ScanError.place, Span.point, Span.isAbsent, Place.behind]
  · next row scanned =>
    split at failed
    · next f' read =>
      cases failed
      have ordered := TokenRow.ordered scanned
      have ends := Module.ofTokens_error ordered.nodup_spans read
      obtain ⟨⟨late, -, entries, -⟩, s, shape, -, present, -⟩ :=
        ends.located ordered (TokenRow.ofText_tiles scanned).finish_line
      refine ⟨f'.error.diagnostic, ?_, by rw [shape]; rfl, s, by rw [shape]; rfl, present⟩
      show _ ∈ f'.report.entries
      rw [entries]
      exact List.mem_append_right _ (List.mem_singleton_self _)
    · cases failed

/-- Every reading that fails says so once and tells where; one that does not fail reports the
parameters that come too late, each once.  So a compilation fails exactly where its text cannot be
read, and then there is an error with a place.  An expression that is looked for where there is no
token at all is left aside: there is no place to name. -/
theorem failures_located (text : String) :
    (∀ row, TokenRow.ofText text = .ok row →
      (∀ f, Module.ofTokens row = .error f → f.Located row) ∧
        (∀ m report, Module.ofTokens row = .ok (m, report) →
          report.entries = m.lateParameters.map Reading.followsVariadic) ∧
        (∀ f, Expr.ofTokens row = .error f → f.IsEmpty row ∨ f.Located row) ∧
        ∀ e report, Expr.ofTokens row = .ok (e, report) → report.entries = []) ∧
      ∀ options, ((∃ f, Compilation.ofText options text = .error f) ↔
        (∃ e, TokenRow.ofText text = .error e) ∨
          ∃ row f, TokenRow.ofText text = .ok row ∧ Module.ofTokens row = .error f) ∧
        ∀ f, Compilation.ofText options text = .error f → f.report.hasErrors = true ∧
          ∃ d ∈ f.report.entries, d.level = .error ∧ ∃ s, d.span = some s ∧ s.isAbsent = false := by
  refine ⟨fun row scanned => ?_, fun options =>
    ⟨Compilation.fails_iff options text, fun f failed => ?_⟩⟩
  · have ordered := TokenRow.ordered scanned
    have distinct := ordered.nodup_spans
    have line := (TokenRow.ofText_tiles scanned).finish_line
    obtain ⟨ok, error⟩ := Expr.ofTokens_settles row
    refine ⟨fun f failed => ?_, fun m report read => Module.ofTokens_ok distinct read,
      fun f failed => ?_, ok⟩
    · exact (Module.ofTokens_error distinct failed).located ordered line
    · exact (error f failed).imp id fun ends => ends.located ordered line
  · obtain ⟨d, hd, level, located⟩ :=
      ReadFailure.exists_error (Compilation.ofText_eq_error_iff.1 failed)
    exact ⟨List.any_eq_true.2 ⟨d, hd, by simp [level]⟩, d, hd, level, located⟩

/-- A call is assigned to, behind a parameter that comes too late. -/
def assignedCallText : String := "fn f(...a, b) \x7b\n  a() = b\n\x7d\n"

/-- What a row is refused with: the messages of what was reported, and the message of the error. -/
def refusal? (row : TokenRow) : Option (List String × String) :=
  match Module.ofTokens row with
  | .error f => some (f.report.entries.map Diagnostic.message, f.error.message)
  | .ok _ => none

theorem failures_located_assignedCall :
    ∃ row f, TokenRow.ofText assignedCallText = .ok row ∧ Module.ofTokens row = .error f ∧
      f.report.entries.map Diagnostic.message =
        ["parameter 'b' follows a variadic parameter", "invalid assignment target"] ∧
      f.error.message = "invalid assignment target at line 2, column 3" ∧ f.Located row := by
  have known : (TokenRow.ofText assignedCallText).toOption.bind refusal? =
      some (["parameter 'b' follows a variadic parameter", "invalid assignment target"],
        "invalid assignment target at line 2, column 3") := by decide +kernel
  cases scanned : TokenRow.ofText assignedCallText with
  | error e => rw [scanned] at known; cases known
  | ok row =>
    cases read : Module.ofTokens row with
    | ok found => simp [scanned, Except.toOption, refusal?, read] at known
    | error f =>
      simp only [scanned, Except.toOption, Option.bind_some, refusal?, read] at known
      obtain ⟨messages, message⟩ := Prod.mk.inj (Option.some.inj known)
      exact ⟨row, f, rfl, read, messages, message, ((failures_located _).1 row scanned).1 f read⟩

end PathTyping
