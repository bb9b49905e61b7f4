import PathTyping.Proofs.Positions
import PathTyping.Proofs.Spelling

/-!
# Positions alongside cursors

A position stands where a cursor stands if the same tokens lie before and behind it.  A reader that
goes by position and one that goes by the tokens to come agree if both fail alike or read alike up
to one place.  The two differ only at the end of a row: there the last token is handed out once
more.  For an operand that is missing this is no help, as the token before it is none, unless it is
one behind which an operand is looked for at once.

1. What is taken, passed over and expected is the same (`Position.Stands.advance`,
   `Position.Stands.skip`, `Position.Stands.expect`).
2. `operand_end`: where an operand is missing, both readers fail at the token before it.
3. `expression_agrees` and its siblings go through the readers of expressions.
-/

namespace PathTyping

/-! ## Places -/

/-- The position and the cursor are at one place of the row. -/
structure Position.Stands (row : TokenRow) (p : Position) (c : Cursor) : Prop where
  inside : p.index ≤ row.tokens.length
  last : c.last = (row.tokens.take p.index).getLast?
  rest : c.rest = row.tokens.drop p.index
  finish : c.finish = row.finish
  report : c.report = p.report

/-- The position one token further on. -/
def Position.next (p : Position) : Position := { p with index := p.index + 1 }

/-- The position with one report more. -/
def Position.reporting (p : Position) (d : Diagnostic) : Position :=
  { p with report := p.report.add d }

namespace Cursor

variable {c c₁ : Cursor} {t : Token} {bound : c₁.size < c.size} {q : Token → Bool}

theorem eq_of_pop? (h : c.pop? = some ⟨t, c₁, bound⟩) :
    ∃ ts, c.rest = t :: ts ∧ c₁ = { c with last := some t, rest := ts } := by
  obtain ⟨last, rest, finish, report⟩ := c
  cases rest with
  | nil => cases h
  | cons t' ts =>
    cases h
    exact ⟨ts, rfl, rfl⟩

theorem last_of_pop? (h : c.pop? = some ⟨t, c₁, bound⟩) : c₁.last = some t := by
  obtain ⟨ts, -, rfl⟩ := eq_of_pop? h
  rfl

theorem found_of_pop? (h : c.pop? = some ⟨t, c₁, bound⟩) : c.found = .token t := by
  unfold found
  rw [rest_of_pop? h]

theorem rest_of_pop?_none (h : c.pop? = none) : c.rest = [] := by
  cases rest : c.rest with
  | nil => rfl
  | cons t ts => rw [pop?_cons rest] at h; cases h

theorem found_of_pop?_none (h : c.pop? = none) : c.found = .finish c.finish := by
  unfold found
  rw [rest_of_pop?_none h]

theorem nextIs_of_pop? (h : c.pop? = some ⟨t, c₁, bound⟩) (q : Token → Bool) :
    c.nextIs q = q t := by
  unfold nextIs
  rw [rest_of_pop? h]

theorem pop?_of_read? (h : c.read? q = some ⟨t, c₁, bound⟩) :
    c.pop? = some ⟨t, c₁, bound⟩ ∧ q t = true := by
  unfold read? at h
  split at h
  · next r popped =>
    split at h
    · next fits =>
      cases h
      exact ⟨popped, fits⟩
    · cases h
  · cases h

theorem nextIs_of_pop?_none (h : c.pop? = none) : c.nextIs q = false := by
  unfold nextIs
  rw [rest_of_pop?_none h]

theorem nextIs_of_read?_none (h : c.read? q = none) : c.nextIs q = false := by
  unfold read? at h
  split at h
  · next r popped =>
    obtain ⟨t, c₁, bound⟩ := r
    split at h
    · cases h
    · next other => exact (nextIs_of_pop? popped q).trans (Bool.eq_false_iff.2 other)
  · next popped => exact nextIs_of_pop?_none popped

theorem isFinish_found (c : Cursor) : c.found.isFinish = c.rest.isEmpty := by
  unfold found
  cases c.rest <;> rfl

theorem is_found (c : Cursor) (q : Token → Bool) : c.found.is q = c.nextIs q := by
  unfold found nextIs
  cases c.rest <;> rfl

theorem nextIs_of_skipNewlines {k : Keyword} (h : c.skipNewlines.nextIs (·.isKeyword k) = false) :
    c.nextIs (·.isKeyword k) = false := by
  obtain ⟨last, rest, finish, report⟩ := c
  cases rest with
  | nil => rfl
  | cons t ts =>
    show t.isKeyword k = false
    by_cases passed : t.isNewline = true
    · unfold Token.isNewline at passed
      unfold Token.isKeyword
      split at passed
      · next kind => rw [kind]
      · cases passed
    · unfold skipNewlines skip nextIs at h
      rwa [List.dropWhile_cons_of_neg passed] at h

/-- A separator is neither the end nor a closing brace. -/
theorem not_closed_of_separator (h : c.nextIs Token.isSeparator = true) :
    (c.rest.isEmpty || c.nextIs (·.isMark .rbrace)) = false := by
  obtain ⟨last, rest, finish, report⟩ := c
  cases rest with
  | nil => cases h
  | cons t ts =>
    have separates : t.isSeparator = true := h
    show t.isMark .rbrace = false
    unfold Token.isSeparator Token.isNewline Token.isMark at separates
    unfold Token.isMark
    split
    · next m kind =>
      rw [kind] at separates
      obtain rfl := eq_of_beq separates
      rfl
    · rfl

theorem skip_of_not_nextIs (h : c.nextIs q = false) : c.skip q = c := by
  obtain ⟨last, rest, finish, report⟩ := c
  cases rest with
  | nil => rfl
  | cons t ts =>
    have other : q t = false := h
    simp [skip, other]

theorem skip_skip (c : Cursor) (q : Token → Bool) : (c.skip q).skip q = c.skip q := by
  refine skip_of_not_nextIs ?_
  have stopped := List.head?_dropWhile_not q c.rest
  unfold skip nextIs
  split
  · rfl
  · next t ts found =>
    dsimp only at found
    rw [found] at stopped
    exact Bool.eq_false_iff.2 fun passed => by simp [passed] at stopped

theorem skip_of_pop? (h : c.pop? = some ⟨t, c₁, bound⟩) (fits : q t = true) :
    c.skip q = c₁.skip q := by
  obtain ⟨last, rest, finish, report⟩ := c
  cases rest with
  | nil => cases h
  | cons t' ts =>
    cases h
    unfold skip
    rw [List.takeWhile_cons_of_pos fits, List.dropWhile_cons_of_pos fits, List.getLast?_cons]
    cases (ts.takeWhile q).getLast? <;> rfl

end Cursor

namespace Positional

variable {α β : Type} {n m : Nat} {row : TokenRow} {p p' : Position} {c c₁ : Cursor}
  {x : Positional α} {f : α → Positional β} {v : α} {t : Token} {q : Token → Bool}

/-! ## Running -/

/-- What the reader comes to from a position on. -/
def runAt (x : Positional α) (p : Position) : Option (Except Stop (α × Position)) := (x.run p).run

theorem runAt_bind (h : x.runAt p = some (.ok (v, p'))) :
    (x >>= f).runAt p = (f v).runAt p' := by
  change (x.runAt p).bind _ = _
  rw [h]
  rfl

theorem runAt_bind_error {e : Stop} (h : x.runAt p = some (.error e)) :
    (x >>= f).runAt p = some (.error e) := by
  change (x.runAt p).bind _ = _
  rw [h]
  rfl

theorem outcome_eq (x : Positional α) : x.outcome =
    (x.runAt ⟨0, .empty⟩).map (Except.map fun (v, here) => (v, here.report)) := rfl

/-- The reader does on the row what `y` does with the tokens to come: it ends, inside of the row, at
the same place and with the same. -/
def Agrees (row : TokenRow) (x : Positional α) (p : Position) (y : Reading α n) : Prop :=
  match y with
  | .ok r => ∃ p', x.runAt p = some (.ok (r.value, p')) ∧ p'.Stands row r.next
  | .error e => x.runAt p = some (.error (.failed e))

section Agrees

theorem agrees_pure {bound : c.size < n} (stands : p.Stands row c) :
    Agrees row (pure v) p (.ok ⟨v, c, bound⟩) := ⟨p, rfl, stands⟩

theorem agrees_bind {y : Reading α n} {g : Read α n → Reading β m} (h : Agrees row x p y)
    (rest : ∀ r p', y = .ok r → p'.Stands row r.next → Agrees row (f r.value) p' (g r)) :
    Agrees row (x >>= f) p (y >>= g) := by
  cases y with
  | error e => exact runAt_bind_error h
  | ok r =>
    obtain ⟨p', run, stands⟩ := h
    have rest := rest r p' rfl stands
    unfold Agrees at rest ⊢
    rw [runAt_bind run]
    exact rest

theorem agrees_ite {P : Prop} [Decidable P] {x' : Positional α} {y y' : Reading α n}
    (yes : P → Agrees row x p y) (no : ¬ P → Agrees row x' p y') :
    Agrees row (if P then x else x') p (if P then y else y') := by
  by_cases h : P
  · rw [if_pos h, if_pos h]
    exact yes h
  · rw [if_neg h, if_neg h]
    exact no h

/-- What is done first leaves no trace for the other reader. -/
theorem agrees_behind {y : Reading β n} (run : x.runAt p = some (.ok (v, p')))
    (h : Agrees row (f v) p' y) : Agrees row (x >>= f) p y := by
  unfold Agrees at h ⊢
  rw [runAt_bind run]
  exact h

end Agrees

/-! ## Tokens -/

theorem runAt_look {found : Found} {i : Nat} (h : row.at? i = some found) :
    (row.look i).runAt p = some (.ok (found, p)) := by
  rw [TokenRow.look, h]
  rfl

end Positional

open Positional

namespace Position.Stands

variable {α β : Type} {n m : Nat} {row : TokenRow} {p p' : Position} {c c₁ : Cursor}
  {x : Positional α} {f : α → Positional β} {v : α} {t : Token} {q : Token → Bool}

theorem at? (stands : p.Stands row c) : row.at? p.index = some c.found := by
  unfold TokenRow.at? Cursor.found
  rw [stands.rest]
  by_cases more : p.index < row.tokens.length
  · rw [List.getElem?_eq_getElem more, List.drop_eq_getElem_cons more]
  · have ended : p.index = row.tokens.length := Nat.le_antisymm stands.inside (Nat.le_of_not_lt more)
    rw [ended, List.getElem?_eq_none (Nat.le_refl _), List.drop_length, stands.finish]
    exact if_pos rfl

theorem peek (stands : p.Stands row c) : row.peek.runAt p = some (.ok (c.found, p)) := by
  rw [TokenRow.peek, runAt_bind (x := get) rfl,
    Nat.min_eq_left stands.inside]
  exact runAt_look stands.at?

theorem peekIs (stands : p.Stands row c) (q : Token → Bool) :
    (row.peekIs q).runAt p = some (.ok (c.nextIs q, p)) := by
  rw [TokenRow.peekIs, runAt_bind stands.peek]
  unfold Cursor.found Cursor.nextIs
  cases c.rest <;> rfl

/-- A token that comes is taken. -/
theorem popped (stands : p.Stands row c) {bound : c₁.size < c.size}
    (h : c.pop? = some ⟨t, c₁, bound⟩) :
    row.tokens[p.index]? = some t ∧ p.next.Stands row c₁ := by
  obtain ⟨ts, rest, rfl⟩ := Cursor.eq_of_pop? h
  rw [stands.rest] at rest
  have more : p.index < row.tokens.length := Nat.lt_of_not_le fun ended => by
    rw [List.drop_eq_nil_of_le ended] at rest
    cases rest
  rw [List.drop_eq_getElem_cons more] at rest
  injection rest with first behind
  refine ⟨first ▸ List.getElem?_eq_getElem more, more, ?_, behind.symm, stands.finish, stands.report⟩
  show some t = (row.tokens.take (p.index + 1)).getLast?
  rw [List.take_add_one, List.getElem?_eq_getElem more, first, Option.toList_some,
    List.getLast?_append]
  rfl

theorem advance (stands : p.Stands row c) {bound : c₁.size < c.size}
    (h : c.pop? = some ⟨t, c₁, bound⟩) :
    row.advance.runAt p = some (.ok (.token t, p.next)) := by
  have found : c.found = .token t := by
    unfold Cursor.found
    rw [Cursor.rest_of_pop? h]
  have here : row.at? p.index = some (.token t) := by
    rw [stands.at?, found]
  rw [TokenRow.advance, runAt_bind stands.peek, found]
  exact runAt_look here

/-- Where the tokens end, the whole row was read. -/
theorem last_end (stands : p.Stands row c) (ended : c.rest = []) :
    c.last = row.tokens.getLast? := by
  rw [stands.last, List.take_of_length_le]
  exact List.drop_eq_nil_iff.1 (stands.rest ▸ ended)

theorem reporting (stands : p.Stands row c) (d : Diagnostic) :
    (p.reporting d).Stands row { c with report := c.report.add d } :=
  ⟨stands.inside, stands.last, stands.rest, stands.finish, congrArg (·.add d) stands.report⟩

/-- Right before the position stands what was read last. -/
theorem behind (stands : p.Stands row c) (last : c.last = some t) :
    ∃ i, p.index = i + 1 ∧ row.at? i = some (.token t) := by
  rw [stands.last, List.getLast?_eq_getElem?, List.length_take, Nat.min_eq_left stands.inside] at last
  cases index : p.index with
  | zero =>
    rw [index] at last
    cases last
  | succ i =>
    rw [index, Nat.add_sub_cancel, List.getElem?_take_of_lt (Nat.lt_succ_self i)] at last
    refine ⟨i, rfl, ?_⟩
    unfold TokenRow.at?
    rw [last]

theorem look_last (stands : p.Stands row c) (last : c.last = some t) :
    (row.look (p.index - 1)).runAt p = some (.ok (.token t, p)) := by
  obtain ⟨i, index, here⟩ := stands.behind last
  rw [index]
  exact runAt_look here

/-- At the end, the token that was taken last is handed out once more. -/
theorem advance_end (stands : p.Stands row c) (ended : c.rest = []) (last : c.last = some t) :
    row.advance.runAt p = some (.ok (.token t, p)) := by
  obtain ⟨i, index, here⟩ := stands.behind last
  have found : c.found = .finish c.finish := by
    unfold Cursor.found
    rw [ended]
  rw [TokenRow.advance, runAt_bind stands.peek, found]
  show row.behind.runAt p = _
  rw [TokenRow.behind, runAt_bind (x := get) rfl, index]
  exact runAt_look here

/-- Both give up with the same, and have reported the same. -/
theorem runAt_throw (stands : p.Stands row c) (e : ParseError) :
    (do throw (.failed ⟨e, (← get).report.add e.diagnostic⟩) : Positional α).runAt p =
      some (.error (.failed (c.fail e))) := by
  rw [Cursor.fail, stands.report]
  rfl

theorem failAt (stands : p.Stands row c) (what : Expectation) (found : Found) :
    (Positional.failAt what found : Positional α).runAt p =
      some (.error (.failed (c.fail (.expected what found)))) := stands.runAt_throw _

theorem failHere (stands : p.Stands row c) (what : Expectation) {found : Found}
    (here : c.found = found) : (Positional.failAt what found : Positional α).runAt p =
      some (.error (.failed (c.failHere what))) := here ▸ stands.failAt what c.found

theorem expect (stands : p.Stands row c) (q : Token → Bool) (what : Expectation) :
    Positional.Agrees row (row.expect q what) p (c.expect q what) := by
  unfold TokenRow.expect Cursor.expect Cursor.read?
  refine agrees_behind stands.peek ?_
  cases popped : c.pop? with
  | none =>
    rw [Cursor.found_of_pop?_none popped]
    exact stands.failHere what (Cursor.found_of_pop?_none popped)
  | some r =>
    obtain ⟨t, c₁, bound⟩ := r
    rw [Cursor.found_of_pop? popped]
    dsimp only
    by_cases fits : q t = true
    · rw [if_pos fits, if_pos fits]
      exact agrees_behind (stands.advance popped) (Positional.agrees_pure (stands.popped popped).2)
    · rw [if_neg fits, if_neg fits]
      exact stands.failHere what (Cursor.found_of_pop? popped)

theorem expectMark (stands : p.Stands row c) (m : Mark) (what : Expectation) :
    Positional.Agrees row (row.expectMark m what) p (c.expectMark m what) := stands.expect _ what

theorem expectName (stands : p.Stands row c) (what : Expectation) :
    Positional.Agrees row (row.expectName what) p (c.expectName what) := stands.expect _ what

/-- What is passed over leads to one place. -/
theorem skip {p : Position} {c : Cursor} (stands : p.Stands row c) (q : Token → Bool) :
    ∃ p', (row.skip q).runAt p = some (.ok ((), p')) ∧ p'.Stands row (c.skip q) := by
  rw [TokenRow.skip, runAt_bind (stands.peekIs q)]
  cases popped : c.pop? with
  | none =>
    rw [Cursor.nextIs_of_pop?_none popped]
    refine ⟨p, rfl, ?_⟩
    rwa [Cursor.skip_of_not_nextIs (Cursor.nextIs_of_pop?_none popped)]
  | some r =>
    obtain ⟨t, c₁, bound⟩ := r
    by_cases fits : q t = true
    · have next : c.nextIs q = true := (Cursor.nextIs_of_pop? popped q).trans fits
      obtain ⟨p', run, there⟩ := skip (stands.popped popped).2 q
      rw [next, Cursor.skip_of_pop? popped fits]
      refine ⟨p', ?_, there⟩
      show ((do let _ ← row.advance; row.skip q) : Positional Unit).runAt p = _
      rw [runAt_bind (stands.advance popped)]
      exact run
    · have next : c.nextIs q = false :=
        (Cursor.nextIs_of_pop? popped q).trans (Bool.eq_false_iff.2 fits)
      rw [next, Cursor.skip_of_not_nextIs next]
      exact ⟨p, rfl, stands⟩
termination_by c.size

theorem skipNewlines_end (stands : p.Stands row c) (ended : c.rest = []) :
    row.skipNewlines.runAt p = some (.ok ((), p)) := by
  rw [TokenRow.skipNewlines, TokenRow.skip, runAt_bind (stands.peekIs _)]
  unfold Cursor.nextIs
  rw [ended]
  rfl

theorem skipSeparators (stands : p.Stands row c) :
    ∃ p', row.skipSeparators.runAt p = some (.ok ((), p')) ∧
      p'.Stands row c.skipSeparators := stands.skip Token.isSeparator

end Position.Stands

namespace Positional

variable {β : Type} {m : Nat} {row : TokenRow} {p : Position} {c : Cursor} {y : Reading β m}

theorem agrees_skipNewlines {f : Unit → Positional β} (stands : p.Stands row c)
    (rest : ∀ p', p'.Stands row c.skipNewlines → Agrees row (f ()) p' y) :
    Agrees row (row.skipNewlines >>= f) p y := by
  obtain ⟨p', run, stands'⟩ := stands.skip Token.isNewline
  exact agrees_behind run (rest p' stands')

theorem agrees_skipSeparators {f : Unit → Positional β} (stands : p.Stands row c)
    (rest : ∀ p', p'.Stands row c.skipSeparators → Agrees row (f ()) p' y) :
    Agrees row (row.skipSeparators >>= f) p y := by
  obtain ⟨p', run, stands'⟩ := stands.skipSeparators
  exact agrees_behind run (rest p' stands')

end Positional

/-! ## Expressions -/

/-- Where the tokens end, the last one is no operand. -/
def Cursor.Ready (c : Cursor) : Prop :=
  c.rest = [] → ∃ t, c.last = some t ∧ t.atom? = none

/-- The row ends in a token behind which an operand is looked for at once. -/
def TokenRow.Hangs (row : TokenRow) : Prop :=
  ∃ t ∈ row.tokens.getLast?, t.isMark .lparen ∨ t.isMark .minus ∨ t.isMark .plus ∨
    t.isMark .bang ∨ t.isKeyword .not

namespace Token

variable {t : Token}

theorem kind_of_isMark {m : Mark} (h : t.isMark m = true) : t.kind = .mark m := by
  unfold isMark at h
  split at h
  · next found => rw [found, eq_of_beq h]
  · cases h

theorem kind_of_isKeyword {k : Keyword} (h : t.isKeyword k = true) : t.kind = .keyword k := by
  unfold isKeyword at h
  split at h
  · next found => rw [found, eq_of_beq h]
  · cases h

theorem atom?_of_isMark {m : Mark} (h : t.isMark m = true) : t.atom? = none := by
  unfold atom?
  rw [kind_of_isMark h]

theorem atom?_of_keyword {k : Keyword} (h : t.kind = .keyword k) (other : k ≠ .nil)
    (other' : k ≠ .self) : t.atom? = none := by
  unfold atom?
  rw [h]
  cases k <;> trivial

theorem atom?_of_isKeyword {k : Keyword} (h : t.isKeyword k = true) (other : k ≠ .nil)
    (other' : k ≠ .self) : t.atom? = none := by
  exact atom?_of_keyword (kind_of_isKeyword h) other other'

theorem atom?_of_operator {op : Operator} (h : t.operator? = some op) : t.atom? = none := by
  unfold operator? at h
  unfold atom?
  split at h
  · next found => rw [found]
  · next found => rw [found]
  · next found => rw [found]
  · cases h

theorem atom?_of_isNewline (h : t.isNewline = true) : t.atom? = none := by
  unfold isNewline at h
  unfold atom?
  split at h
  · next found => rw [found]
  · cases h

theorem atom?_of_isSeparator (h : t.isSeparator = true) : t.atom? = none := by
  unfold isSeparator at h
  rcases Bool.or_eq_true_iff.1 h with newline | semicolon
  · exact atom?_of_isNewline newline
  · exact atom?_of_isMark semicolon

end Token

namespace TokenRow

variable {row : TokenRow} {t : Token}

/-- Behind the token that a row hangs on, an operand is looked for. -/
theorem Hangs.exists_last (hangs : row.Hangs) : ∃ t, row.tokens.getLast? = some t ∧
    t.atom? = none ∧ (t.unaryOp? ≠ none ∨ t.isMark .lparen = true) := by
  obtain ⟨t, last, opens⟩ := hangs
  refine ⟨t, last, ?_⟩
  rcases opens with lparen | minus | plus | bang | not
  · exact ⟨Token.atom?_of_isMark lparen, .inr lparen⟩
  · refine ⟨Token.atom?_of_isMark minus, .inl ?_⟩
    simp [Token.unaryOp?, Token.kind_of_isMark minus]
  · refine ⟨Token.atom?_of_isMark plus, .inl ?_⟩
    simp [Token.unaryOp?, Token.kind_of_isMark plus]
  · refine ⟨Token.atom?_of_isMark bang, .inl ?_⟩
    simp [Token.unaryOp?, Token.kind_of_isMark bang]
  · refine ⟨Token.atom?_of_isKeyword not (by decide) (by decide), .inl ?_⟩
    simp [Token.unaryOp?, Token.kind_of_isKeyword not]

theorem free_of_not_hangs (whole : ¬ row.Hangs) (last : row.tokens.getLast? = some t) :
    t.unaryOp? = none ∧ t.isMark .lparen = false := by
  constructor
  · cases unary : t.unaryOp? with
    | none => rfl
    | some op =>
      refine absurd ⟨t, last, .inr ?_⟩ whole
      unfold Token.unaryOp? at unary
      unfold Token.isMark Token.isKeyword
      split at unary
      · next kind => simp [kind]
      · next kind => simp [kind]
      · next kind => simp [kind]
      · next kind => simp [kind]
      · cases unary
  · exact Bool.eq_false_iff.2 fun lparen => whole ⟨t, last, .inl lparen⟩

end TokenRow

namespace Cursor

variable {c c₁ : Cursor} {t : Token} {bound : c₁.size < c.size}

theorem Ready.of_more (more : c.rest ≠ []) : c.Ready := fun ended => absurd ended more

theorem Ready.of_pop? (h : c.pop? = some ⟨t, c₁, bound⟩) (plain : t.atom? = none) : c₁.Ready := by
  obtain ⟨ts, -, rfl⟩ := eq_of_pop? h
  exact fun _ => ⟨t, rfl, plain⟩

theorem Ready.of_expectMark {m : Mark} {what : Expectation}
    (h : c.expectMark m what = .ok ⟨t, c₁, bound⟩) : c₁.Ready := by
  unfold expectMark expect at h
  split at h
  · next read =>
    cases h
    obtain ⟨popped, fits⟩ := pop?_of_read? read
    exact .of_pop? popped (Token.atom?_of_isMark fits)
  · cases h

theorem Ready.skip {q : Token → Bool} (ready : c.Ready)
    (plain : ∀ t, q t = true → t.atom? = none) : (c.skip q).Ready := fun ended => by
  have whole := List.takeWhile_append_dropWhile (p := q) (l := c.rest)
  rw [show c.rest.dropWhile q = [] from ended, List.append_nil] at whole
  show ∃ t, (c.rest.takeWhile q).getLast?.or c.last = some t ∧ t.atom? = none
  cases passed : (c.rest.takeWhile q).getLast? with
  | none =>
    rw [List.getLast?_eq_none_iff.1 passed] at whole
    exact ready whole.symm
  | some t => exact ⟨t, rfl, plain t (List.mem_takeWhile_imp (List.mem_of_getLast? passed))⟩

theorem Ready.skipNewlines (ready : c.Ready) : c.skipNewlines.Ready :=
  ready.skip fun _ => Token.atom?_of_isNewline

end Cursor

namespace Positional

variable {α β γ : Type} {n m : Nat} {row : TokenRow} {p : Position} {c c₁ : Cursor}
  {x : Positional α} {t : Token}

/-- A reader that hands on what it has read. -/
theorem Agrees.tail {y : Reading α n} {g : Read α n → Reading α m} (h : Agrees row x p y)
    (same : ∀ r, ∃ bound, g r = .ok ⟨r.value, r.next, bound⟩) : Agrees row x p (y >>= g) := by
  cases y with
  | error e => exact h
  | ok r =>
    obtain ⟨bound, same⟩ := same r
    show Agrees row x p (g r)
    rw [same]
    exact h

/-- Where an operand is missing, nothing is taken for it. -/
theorem operand_end (whole : ¬ row.Hangs) (stands : p.Stands row c) (ready : c.Ready)
    (ended : c.rest = []) : row.operand.runAt p = some (.error (.failed c.failOperand)) := by
  obtain ⟨t, last, plain⟩ := ready ended
  have final : row.tokens.getLast? = some t := stands.last_end ended ▸ last
  have free := TokenRow.free_of_not_hangs whole final
  rw [TokenRow.operand, runAt_bind (stands.advance_end ended last)]
  dsimp only
  rw [plain, free.1, free.2]
  refine (stands.failAt _ _).trans ?_
  rw [Cursor.failOperand, last]

mutual

theorem operand_agrees (whole : ¬ row.Hangs) {p : Position} {c : Cursor} (stands : p.Stands row c)
    (ready : c.Ready) : Agrees row row.operand p (Reading.operand c) := by
  rw [Reading.operand]
  cases popped : c.pop? with
  | none => exact operand_end whole stands ready (Cursor.rest_of_pop?_none popped)
  | some r =>
    obtain ⟨t, c₁, h₁⟩ := r
    have stands₁ := (stands.popped popped).2
    rw [TokenRow.operand]
    refine agrees_behind (stands.advance popped) ?_
    dsimp only
    cases atom : t.atom? with
    | some e => exact (chain_agrees whole e stands₁).tail fun _ => ⟨_, rfl⟩
    | none =>
      have ready₁ := Cursor.Ready.of_pop? popped atom
      dsimp only
      cases unary : t.unaryOp? with
      | some op =>
        refine agrees_bind (operand_agrees whole stands₁ ready₁) fun ⟨e, c₂, h₂⟩ p₂ _ stands₂ => ?_
        exact (chain_agrees whole _ stands₂).tail fun _ => ⟨_, rfl⟩
      | none =>
        refine agrees_ite (fun _ => ?_) fun _ => stands₁.failAt _ _
        · have hs := c₁.size_skipNewlines_le
          refine agrees_skipNewlines stands₁ fun p₂ stands₂ => ?_
          refine agrees_bind (expression_agrees whole 0 stands₂ ready₁.skipNewlines)
            fun ⟨e, c₃, h₃⟩ p₃ _ stands₃ => ?_
          have hs₃ := c₃.size_skipNewlines_le
          refine agrees_skipNewlines stands₃ fun p₄ stands₄ => ?_
          dsimp only
          refine agrees_bind (stands₄.expectMark _ _) fun ⟨close, c₅, h₅⟩ p₅ _ stands₅ => ?_
          exact (chain_agrees whole _ stands₅).tail fun _ => ⟨_, rfl⟩
termination_by 4 * c.size
decreasing_by all_goals dsimp only at *; omega

theorem expression_agrees (whole : ¬ row.Hangs) (level : Nat) {p : Position} {c : Cursor}
    (stands : p.Stands row c) (ready : c.Ready) :
    Agrees row (row.expression level) p (Reading.expression level c) := by
  rw [Reading.expression, TokenRow.expression]
  refine agrees_bind (operand_agrees whole stands ready) fun ⟨left, c₁, h₁⟩ p₁ _ stands₁ => ?_
  exact (climb_agrees whole level left stands₁).tail fun _ => ⟨_, rfl⟩
termination_by 4 * c.size + 1
decreasing_by all_goals dsimp only at *; omega

theorem climb_agrees (whole : ¬ row.Hangs) (level : Nat) (left : Expr) {p : Position} {c : Cursor}
    (stands : p.Stands row c) : Agrees row (row.climb level left) p (Reading.climb level left c) := by
  rw [Reading.climb, TokenRow.climb]
  refine agrees_behind stands.peek ?_
  cases popped : c.pop? with
  | none =>
    rw [Cursor.found_of_pop?_none popped]
    exact agrees_pure stands
  | some r =>
    obtain ⟨t, c₁, h₁⟩ := r
    have stands₁ := (stands.popped popped).2
    rw [Cursor.found_of_pop? popped]
    dsimp only
    cases found : t.operator? with
    | none => exact agrees_pure stands
    | some op =>
      refine agrees_ite (fun _ => agrees_pure stands) fun _ => ?_
      · have hs := c₁.size_skipNewlines_le
        have ready₁ := (Cursor.Ready.of_pop? popped (Token.atom?_of_operator found)).skipNewlines
        refine agrees_behind (stands.advance popped) ?_
        refine agrees_skipNewlines stands₁ fun p₂ stands₂ => ?_
        cases op with
        | assign =>
          refine agrees_bind (expression_agrees whole 0 stands₂ ready₁)
            fun ⟨value, c₃, h₃⟩ p₃ _ stands₃ => ?_
          refine agrees_ite (fun _ => ?_) fun _ => ?_
          · exact (climb_agrees whole level _ stands₃).tail fun _ => ⟨_, rfl⟩
          · exact stands₃.runAt_throw _
        | binary op =>
          refine agrees_bind (expression_agrees whole op.level stands₂ ready₁)
            fun ⟨right, c₃, h₃⟩ p₃ _ stands₃ => ?_
          exact (climb_agrees whole level _ stands₃).tail fun _ => ⟨_, rfl⟩
termination_by 4 * c.size
decreasing_by all_goals dsimp only at *; omega

theorem chain_agrees (whole : ¬ row.Hangs) (e : Expr) {p : Position} {c : Cursor}
    (stands : p.Stands row c) : Agrees row (row.chain e) p (Reading.chain e c) := by
  rw [Reading.chain, TokenRow.chain]
  refine agrees_behind stands.peek ?_
  cases popped : c.pop? with
  | none =>
    rw [Cursor.found_of_pop?_none popped]
    exact agrees_pure stands
  | some r =>
    obtain ⟨t, c₁, h₁⟩ := r
    have stands₁ := (stands.popped popped).2
    have hs := c₁.size_skipNewlines_le
    rw [Cursor.found_of_pop? popped]
    dsimp only [Found.is]
    refine agrees_ite (fun lparen => ?_) fun _ => agrees_ite (fun _ => ?_) fun _ =>
      agrees_ite (fun lbracket => ?_) fun _ => agrees_pure stands
    · have ready₁ := (Cursor.Ready.of_pop? popped (Token.atom?_of_isMark lparen)).skipNewlines
      refine agrees_behind (stands.advance popped) ?_
      refine agrees_skipNewlines stands₁ fun p₂ stands₂ => agrees_behind (stands₂.peekIs _) ?_
      refine agrees_ite (fun _ => ?_) fun _ => ?_
      · refine agrees_behind (v := []) rfl ?_
        refine agrees_bind (stands₂.expectMark _ _) fun ⟨close, c₃, h₃⟩ p₃ _ stands₃ => ?_
        exact (chain_agrees whole _ stands₃).tail fun _ => ⟨_, rfl⟩
      · refine agrees_bind (argumentList_agrees whole stands₂ ready₁)
          fun ⟨arguments, c₃, h₃⟩ p₃ _ stands₃ => ?_
        dsimp only
        refine agrees_bind (stands₃.expectMark _ _) fun ⟨close, c₄, h₄⟩ p₄ _ stands₄ => ?_
        exact (chain_agrees whole _ stands₄).tail fun _ => ⟨_, rfl⟩
    · refine agrees_behind (stands.advance popped) ?_
      refine agrees_bind (stands₁.expectName _) fun ⟨name, c₂, h₂⟩ p₂ _ stands₂ => ?_
      exact (chain_agrees whole _ stands₂).tail fun _ => ⟨_, rfl⟩
    · have ready₁ := (Cursor.Ready.of_pop? popped (Token.atom?_of_isMark lbracket)).skipNewlines
      refine agrees_behind (stands.advance popped) ?_
      refine agrees_skipNewlines stands₁ fun p₂ stands₂ => ?_
      refine agrees_bind (expression_agrees whole 0 stands₂ ready₁)
        fun ⟨index, c₃, h₃⟩ p₃ _ stands₃ => ?_
      have hs₃ := c₃.size_skipNewlines_le
      refine agrees_skipNewlines stands₃ fun p₄ stands₄ => ?_
      dsimp only
      refine agrees_bind (stands₄.expectMark _ _) fun ⟨close, c₅, h₅⟩ p₅ _ stands₅ => ?_
      exact (chain_agrees whole _ stands₅).tail fun _ => ⟨_, rfl⟩
termination_by 4 * c.size + 3
decreasing_by all_goals dsimp only at *; omega

theorem argumentList_agrees (whole : ¬ row.Hangs) {p : Position} {c : Cursor}
    (stands : p.Stands row c) (ready : c.Ready) :
    Agrees row row.argumentList p (Reading.argumentList c) := by
  rw [Reading.argumentList, TokenRow.argumentList]
  have hs := c.size_skipNewlines_le
  refine agrees_skipNewlines stands fun p₁ stands₁ => ?_
  refine agrees_bind (expression_agrees whole 0 stands₁ ready.skipNewlines)
    fun ⟨first, c₂, h₂⟩ p₂ _ stands₂ => ?_
  have hs₂ := c₂.size_skipNewlines_le
  refine agrees_skipNewlines stands₂ fun p₃ stands₃ => agrees_behind (stands₃.peekIs _) ?_
  dsimp only
  cases comma : c₂.skipNewlines.read? (·.isMark .comma) with
  | none =>
    rw [Cursor.nextIs_of_read?_none comma]
    exact agrees_pure stands₃
  | some r =>
    obtain ⟨t, c₄, h₄⟩ := r
    obtain ⟨popped, fits⟩ := Cursor.pop?_of_read? comma
    rw [(Cursor.nextIs_of_pop? popped _).trans fits]
    refine agrees_behind (stands₃.advance popped) ?_
    have ready₄ := Cursor.Ready.of_pop? popped (Token.atom?_of_isMark fits)
    refine agrees_bind (argumentList_agrees whole (stands₃.popped popped).2 ready₄)
      fun ⟨others, c₅, h₅⟩ p₅ _ stands₅ => ?_
    exact agrees_pure stands₅
termination_by 4 * c.size + 2
decreasing_by all_goals dsimp only at *; omega

end

end Positional

end PathTyping
