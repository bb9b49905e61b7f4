import PathTyping.Proofs.Spelling

/-!
# The grammar of expressions

Every stratified tree is read from its words.  A reader of chains and of operators goes on as long
as the words allow it, so for a tree that may be the start of a larger one the readers are followed
up to the point where that tree stands: what is read is what reading on from there gives.

1. `Complete` says this of one tree, by how tightly its outermost operator binds.
2. `complete` goes through the forms of trees.
3. `Expr.ofTokens_grammar`: exactly the stratified trees are read, each from its own words.
-/

namespace PathTyping

/-! ## Reading with a known end -/

/-- The words to come, and what was reported so far. -/
structure Cursor.At (c : Cursor) (ws : List TokenWord) (report : Report) : Prop where
  words : c.words = ws
  report : c.report = report

/-- `x` reads something of which `P` holds and leaves `ws`; nothing is added to the report. -/
def Yields {α : Type} {n : Nat} (x : Reading α n) (P : α → Prop) (ws : List TokenWord)
    (report : Report) : Prop :=
  ∃ r, x = .ok r ∧ P r.value ∧ r.next.At ws report

section Yields

variable {α β : Type} {n m : Nat} {report : Report} {P P' : α → Prop} {Q : β → Prop}
  {ws vs : List TokenWord}

theorem yields_ok {v : α} {next : Cursor} {bound : next.size < n} (holds : P v)
    (here : next.At ws report) : Yields (.ok ⟨v, next, bound⟩ : Reading α n) P ws report :=
  ⟨_, rfl, holds, here⟩

theorem Yields.weaken {x : Reading α n} (h : Yields x P ws report) (sub : ∀ v, P v → P' v) :
    Yields x P' ws report :=
  h.imp fun r ⟨read, holds, here⟩ => ⟨read, sub r.value holds, here⟩

theorem Yields.bind {x : Reading α n} {f : Read α n → Reading β m} (h : Yields x P vs report)
    (go : ∀ v next bound, P v → next.At vs report → Yields (f ⟨v, next, bound⟩) Q ws report) :
    Yields (x >>= f) Q ws report := by
  obtain ⟨⟨v, next, bound⟩, rfl, holds, here⟩ := h
  exact go v next bound holds here

/-- A reader that ends with another one hands back what that one reads. -/
theorem Yields.last {x : Reading α n} {bound : ∀ r : Read α n, r.next.size < m}
    (h : Yields x P ws report) :
    Yields (x >>= fun r => .ok ⟨r.value, r.next, bound r⟩ : Reading α m) P ws report :=
  h.bind fun _ _ _ holds here => yields_ok holds here

end Yields

namespace Cursor

variable {c : Cursor} {w : TokenWord} {ws : List TokenWord} {report : Report}

theorem pop?_of_at (h : c.At (w :: ws) report) : ∃ t next bound,
    c.pop? = some ⟨t, next, bound⟩ ∧ t.word = w ∧ next.At ws report := by
  obtain ⟨h, silent⟩ := h
  unfold words at h
  cases rest : c.rest with
  | nil => rw [rest] at h; cases h
  | cons t ts =>
    rw [rest, List.map_cons, List.cons.injEq] at h
    exact ⟨t, _, _, pop?_cons rest, h.1, h.2, silent⟩

theorem words_skip {c : Cursor} {p : Token → Bool} {q : TokenWord → Bool}
    (h : ∀ t, q t.word = p t) : (c.skip p).words = c.words.dropWhile q := by
  have same : q ∘ Token.word = p := funext h
  show (c.rest.dropWhile p).map Token.word = (c.rest.map Token.word).dropWhile q
  rw [List.dropWhile_map, same]

theorem At.skipNewlines (h : c.At ws report) :
    c.skipNewlines.At (ws.dropWhile TokenWord.isNewline) report :=
  ⟨h.words ▸ words_skip Token.isNewline_word, h.report⟩

theorem At.skipSeparators (h : c.At ws report) :
    c.skipSeparators.At (ws.dropWhile TokenWord.isSeparator) report :=
  ⟨h.words ▸ words_skip Token.isSeparator_word, h.report⟩

theorem At.visible (h : c.At (w :: ws) report) (visible : w.isNewline = false) :
    c.skipNewlines.At (w :: ws) report := by
  have skipped := h.skipNewlines
  rwa [List.dropWhile_cons_of_neg (by simp [visible])] at skipped

theorem nextIs_of_at {p : Token → Bool} {b : Bool} (h : c.At (w :: ws) report)
    (fits : ∀ t : Token, t.word = w → p t = b) : c.nextIs p = b := by
  have h := h.words
  unfold words at h
  unfold nextIs
  cases rest : c.rest with
  | nil => rw [rest] at h; cases h
  | cons t ts =>
    rw [rest, List.map_cons, List.cons.injEq] at h
    exact fits t h.1

theorem read?_of_at {p : Token → Bool} (h : c.At (w :: ws) report)
    (fits : ∀ t : Token, t.word = w → p t = true) : ∃ t next bound,
    c.read? p = some ⟨t, next, bound⟩ ∧ t.word = w ∧ next.At ws report := by
  obtain ⟨t, next, bound, popped, word, here⟩ := pop?_of_at h
  refine ⟨t, next, bound, ?_, word, here⟩
  simp only [read?, popped, fits t word, if_true]

theorem read?_eq_none {p : Token → Bool} (h : c.At ws report)
    (fits : ∀ t : Token, t.word ∈ ws.head? → p t = false) : c.read? p = none := by
  unfold read?
  cases popped : c.pop? with
  | none => rfl
  | some r =>
    obtain ⟨t, next, bound⟩ := r
    have first := h.words.symm.trans (words_of_pop? popped)
    dsimp only
    rw [fits t (by rw [first]; rfl)]
    rfl

theorem yields_expect {p : Token → Bool} {what : Expectation} (h : c.At (w :: ws) report)
    (fits : ∀ t : Token, t.word = w → p t = true) :
    Yields (c.expect p what) (·.word = w) ws report := by
  obtain ⟨t, next, bound, read, word, here⟩ := read?_of_at h fits
  unfold expect
  rw [read]
  exact yields_ok word here

theorem yields_expectName {what : Expectation} {n : String} (h : c.At (.name n :: ws) report) :
    Yields (c.expectName what) (·.lexeme = n) ws report :=
  (yields_expect h fun _ ht => (Token.word_eq_name.1 ht).1).weaken fun _ ht =>
    (Token.word_eq_name.1 ht).2

theorem yields_expectMark {m : Mark} (other : m ≠ .bang) {what : Expectation}
    (h : c.At (.mark m :: ws) report) :
    Yields (c.expectMark m what) (fun _ => True) ws report :=
  (yields_expect h fun _ ht => (Token.isMark_iff other).2 ht).weaken fun _ _ => trivial

end Cursor

/-! ## How a tree starts and ends -/

theorem BinaryOp.word_injective {op op' : BinaryOp} (h : op.word = op'.word) : op = op' := by
  cases op <;> cases op' <;> first | rfl | cases h

theorem Operator.word_injective {o o' : Operator} (h : o.word = o'.word) : o = o' := by
  rcases o with _ | op <;> rcases o' with _ | op'
  · rfl
  · cases op' <;> cases h
  · cases op <;> cases h
  · rw [BinaryOp.word_injective h]

theorem Operator.ends (o : Operator) (ws : List TokenWord) : EndsChain (o.word :: ws) := by
  rw [endsChain_cons]
  rcases o with _ | op
  · rfl
  · cases op <;> rfl

theorem Operator.stops {o : Operator} {level : Nat} (le : o.level ≤ level) (ws : List TokenWord) :
    Stops level (o.word :: ws) := by
  rw [stops_cons]
  intro o' same
  rwa [← Operator.word_injective same]

/-- An operand starts with one of these. -/
def TokenWord.startsOperand : TokenWord → Bool
  | .name _ => true
  | .number _ => true
  | .string _ => true
  | .boolean _ => true
  | .keyword k => k == .nil || k == .self
  | .mark m => m == .lparen || m == .plus || m == .minus || m == .bang
  | .newline => false

/-- An expression ends in front of one of these. -/
def TokenWord.endsExpr : TokenWord → Bool
  | .mark m =>
    m == .rparen || m == .rbracket || m == .comma || m == .lbrace || m == .rbrace || m == .semicolon
  | .newline => true
  | _ => false

/-- There is nothing to come that an expression could go on with. -/
def Closed (ws : List TokenWord) : Prop := ∀ w ∈ ws.head?, w.endsExpr = true

theorem TokenWord.not_opensChain {w : TokenWord} (h : w.endsExpr = true) :
    w.opensChain = false := by
  cases w with
  | mark m => cases m <;> first | rfl | cases h
  | newline => rfl
  | _ => cases h

theorem TokenWord.ne_operator {w : TokenWord} (h : w.endsExpr = true) (o : Operator) :
    w ≠ o.word := by
  rintro rfl
  rcases o with _ | op
  · cases h
  · cases op <;> cases h

theorem closed_cons {w : TokenWord} {ws : List TokenWord} (h : w.endsExpr = true) :
    Closed (w :: ws) :=
  fun _ hw => by cases hw; exact h

theorem Closed.endsChain {ws : List TokenWord} (h : Closed ws) : EndsChain ws :=
  fun w hw => TokenWord.not_opensChain (h w hw)

theorem Closed.stops {ws : List TokenWord} (h : Closed ws) (level : Nat) : Stops level ws :=
  fun w hw o ho => (TokenWord.ne_operator (h w hw) o ho).elim

namespace Expr

theorem starts (e : Expr) : ∃ w ws, e.words = w :: ws ∧ w.startsOperand = true := by
  match e with
  | literal _ l => cases l <;> exact ⟨_, _, rfl, rfl⟩
  | name _ n => exact ⟨_, _, rfl, rfl⟩
  | self _ => exact ⟨_, _, rfl, rfl⟩
  | unary _ op e => cases op <;> exact ⟨_, _, rfl, rfl⟩
  | group _ e => exact ⟨_, _, rfl, rfl⟩
  | binary _ op l r =>
    obtain ⟨w, ws, first, operand⟩ := starts l
    exact ⟨w, _, by rw [words, first]; rfl, operand⟩
  | assign _ t v =>
    obtain ⟨w, ws, first, operand⟩ := starts t
    exact ⟨w, _, by rw [words, first]; rfl, operand⟩
  | call _ f args =>
    obtain ⟨w, ws, first, operand⟩ := starts f
    exact ⟨w, _, by rw [words, first]; rfl, operand⟩
  | member _ o n _ =>
    obtain ⟨w, ws, first, operand⟩ := starts o
    exact ⟨w, _, by rw [words, first]; rfl, operand⟩
  | index _ o i =>
    obtain ⟨w, ws, first, operand⟩ := starts o
    exact ⟨w, _, by rw [words, first]; rfl, operand⟩

theorem isNewline_start {w : TokenWord} (h : w.startsOperand = true) : w.isNewline = false := by
  cases w <;> first | rfl | cases h

/-- No newline stands before an expression. -/
theorem at_skipNewlines {e : Expr} {c : Cursor} {ws : List TokenWord} {report : Report}
    (here : c.At (e.words ++ ws) report) : c.skipNewlines.At (e.words ++ ws) report := by
  obtain ⟨w, vs, first, operand⟩ := e.starts
  rw [first, List.cons_append] at here ⊢
  exact here.visible (isNewline_start operand)

theorem isTarget_of_bare {e e' : Expr} (h : e'.bare = e.bare) : e'.isTarget = e.isTarget := by
  cases e <;> cases e' <;> first | rfl | cases h

/-- The level of the operators that may follow an expression without becoming a part of it. -/
def reach : Expr → Nat
  | assign _ _ _ => 0
  | binary _ op _ _ => op.level
  | _ => 8

theorem binds_pos (e : Expr) : 0 < e.binds := by
  cases e with
  | binary s op l r => exact Nat.lt_trans Nat.one_pos op.one_lt_level
  | assign => exact Nat.one_pos
  | _ => exact Nat.succ_pos _

theorem reach_of_le {e : Expr} {n : Nat} (above : 1 < n) (low : n < 8) (h : n ≤ e.binds) :
    n ≤ e.reach := by
  cases e with
  | assign => exact absurd (h.trans_lt' above) (lt_irrefl 1)
  | binary => exact h
  | _ => exact low.le

theorem le_reach {e : Expr} {n : Nat} (low : n < 8) (h : n < e.binds) : n ≤ e.reach := by
  cases e with
  | assign => exact Nat.le_of_lt_succ h
  | binary => exact h.le
  | _ => exact low.le

theorem reach_of_binds {e : Expr} (h : 8 ≤ e.binds) : e.reach = 8 := by
  cases e with
  | assign => exact absurd (show 8 ≤ 1 from h) (by decide)
  | binary s op l r => exact absurd op.level_lt (Nat.not_lt.2 h)
  | _ => rfl

end Expr

/-! ## Every form of a tree -/

namespace Reading

open Cursor

/-- Reading an operand is reading on with the chain behind `e`. -/
def ReadsChain (e : Expr) : Prop :=
  ∀ (c : Cursor) (ws vs : List TokenWord) (report : Report) (P : Expr → Prop),
    c.At (e.words ++ ws) report →
    (∀ e' next, e'.bare = e.bare → next.At ws report → Yields (chain e' next) P vs report) →
    Yields (operand c) P vs report

/-- Reading an operand gives `e`, where its chain ends. -/
def ReadsOperand (e : Expr) : Prop :=
  ∀ (c : Cursor) (ws : List TokenWord) (report : Report), c.At (e.words ++ ws) report →
    EndsChain ws → Yields (operand c) (·.bare = e.bare) ws report

/-- Reading an expression is reading on with the operators behind `e`. -/
def ReadsClimb (e : Expr) : Prop :=
  ∀ (level : Nat) (c : Cursor) (ws vs : List TokenWord) (report : Report) (P : Expr → Prop),
    c.At (e.words ++ ws) report → level < e.binds → EndsChain ws → Stops e.reach ws →
    (∀ e' next, e'.bare = e.bare → next.At ws report →
      Yields (climb level e' next) P vs report) →
    Yields (expression level c) P vs report

/-- The readers follow the words of `e`, each as far as its outermost operator allows it. -/
structure Complete (e : Expr) : Prop where
  chain : 9 ≤ e.binds → ReadsChain e
  operand : 8 ≤ e.binds → ReadsOperand e
  climb : ReadsClimb e

/-! ### Where a reader stops -/

theorem chain_ends {e : Expr} {c : Cursor} {ws : List TokenWord} {report : Report}
    (here : c.At ws report) (ends : EndsChain ws) : Yields (chain e c) (· = e) ws report := by
  rw [chain]
  cases popped : c.pop? with
  | none => exact yields_ok rfl here
  | some r =>
    obtain ⟨t, next, bound⟩ := r
    rw [← here.words, words_of_pop? popped, endsChain_cons] at ends
    have other (m : Mark) (bang : m ≠ .bang) (opens : (TokenWord.mark m).opensChain = true) :
        ¬ t.isMark m = true := by
      rw [Token.isMark_iff bang]
      intro word
      rw [word, opens] at ends
      cases ends
    simp only [other .lparen (by decide) rfl, other .dot (by decide) rfl,
      other .lbracket (by decide) rfl]
    exact yields_ok rfl here

theorem climb_stops {level : Nat} {e : Expr} {c : Cursor} {ws : List TokenWord} {report : Report}
    (here : c.At ws report) (stops : Stops level ws) :
    Yields (climb level e c) (· = e) ws report := by
  rw [climb]
  cases popped : c.pop? with
  | none => exact yields_ok rfl here
  | some r =>
    obtain ⟨t, next, bound⟩ := r
    rw [← here.words, words_of_pop? popped, stops_word] at stops
    dsimp only
    cases operator : t.operator? with
    | none => exact yields_ok rfl here
    | some o =>
      dsimp only
      rw [if_pos (stops o operator)]
      exact yields_ok rfl here

theorem ReadsChain.operand {e : Expr} (h : ReadsChain e) : ReadsOperand e := by
  intro c ws report here ends
  refine h c ws ws report _ here fun e' next same here' => ?_
  exact (chain_ends here' ends).weaken fun f found => found ▸ same

theorem ReadsOperand.climb {e : Expr} (h : ReadsOperand e) : ReadsClimb e := by
  intro level c ws vs report P here _ ends _ go
  rw [expression]
  exact (h c ws report here ends).bind fun e' next _ same here' => (go e' next same here').last

theorem complete_of_chain {e : Expr} (h : ReadsChain e) : Complete e :=
  ⟨fun _ => h, fun _ => h.operand, h.operand.climb⟩

theorem complete_of_operand {e : Expr} (binds : e.binds = 8) (h : ReadsOperand e) : Complete e :=
  ⟨fun high => absurd high (by omega), fun _ => h, h.climb⟩

theorem complete_of_climb {e : Expr} (binds : e.binds < 8) (h : ReadsClimb e) : Complete e :=
  ⟨fun high => absurd high (by omega), fun high => absurd high (by omega), h⟩

/-- A whole expression is read where nothing goes on with it. -/
theorem Complete.expression {e : Expr} (h : Complete e) {level : Nat} (low : level < 8)
    (tight : level < e.binds) {c : Cursor} {ws : List TokenWord} {report : Report}
    (here : c.At (e.words ++ ws) report) (ends : EndsChain ws) (stops : Stops level ws) :
    Yields (expression level c) (·.bare = e.bare) ws report := by
  have reach := stops.mono (Expr.le_reach low tight)
  refine h.climb level c ws ws report _ here tight ends reach fun e' next same here' => ?_
  exact (climb_stops here' stops).weaken fun f found => found ▸ same

theorem Complete.whole {e : Expr} (h : Complete e) {c : Cursor} {ws : List TokenWord}
    {report : Report} (here : c.At (e.words ++ ws) report) (closed : Closed ws) :
    Yields (Reading.expression 0 c) (·.bare = e.bare) ws report :=
  h.expression (by decide) e.binds_pos here closed.endsChain (closed.stops 0)

/-! ### One form after the other -/

/-- An operand that is one word. -/
theorem readsChain_of_atom {e : Expr} {w : TokenWord} (said : e.words = [w])
    (atom : ∀ t : Token, t.word = w → ∃ e', t.atom? = some e' ∧ e'.bare = e.bare) :
    ReadsChain e := by
  intro c ws vs report P here go
  rw [said] at here
  obtain ⟨t, next, bound, popped, word, here'⟩ := pop?_of_at here
  obtain ⟨e', found, same⟩ := atom t word
  rw [operand, popped]
  dsimp only
  rw [found]
  exact (go e' next same here').last

theorem readsChain_literal (s : Span) (l : Literal) : ReadsChain (.literal s l) := by
  refine readsChain_of_atom rfl fun t word => ⟨.literal t.span l, ?_, rfl⟩
  obtain ⟨kind, lexeme, place⟩ := t
  cases kind with
  | keyword k => cases k <;> cases l <;> first | rfl | cases word
  | _ => cases l <;> first | rfl | (cases word; rfl) | cases word

theorem readsChain_name (s : Span) (n : String) : ReadsChain (.name s n) := by
  refine readsChain_of_atom rfl fun t word => ⟨.name t.span n, ?_, rfl⟩
  obtain ⟨kind, lexeme, place⟩ := t
  cases kind with
  | keyword k => cases k <;> cases word
  | identifier => cases word; rfl
  | _ => cases word

theorem readsChain_self (s : Span) : ReadsChain (.self s) := by
  refine readsChain_of_atom rfl fun t word => ⟨.self t.span, ?_, rfl⟩
  obtain ⟨kind, lexeme, place⟩ := t
  cases kind with
  | keyword k => cases k <;> first | rfl | cases word
  | _ => cases word

theorem atom?_of_mark {t : Token} {m : Mark} (h : t.word = .mark m) : t.atom? = none := by
  obtain ⟨kind, lexeme, place⟩ := t
  cases kind with
  | keyword k => cases k <;> first | rfl | cases h
  | newline => rfl
  | mark m => rfl
  | _ => cases h

theorem unaryOp?_of_lparen {t : Token} (h : t.word = .mark .lparen) : t.unaryOp? = none := by
  refine Option.eq_none_iff_forall_ne_some.2 fun op unary => ?_
  rw [Token.unaryOp?_iff, h] at unary
  cases op <;> cases unary

theorem readsOperand_unary {s : Span} {op : UnaryOp} {e : Expr} (h : ReadsOperand e) :
    ReadsOperand (.unary s op e) := by
  intro c ws report here ends
  rw [Expr.words, List.cons_append] at here
  obtain ⟨t, c₁, bound, popped, word, here₁⟩ := pop?_of_at here
  have noAtom : t.atom? = none := by cases op <;> exact atom?_of_mark word
  rw [operand, popped]
  dsimp only
  rw [noAtom, Token.unaryOp?_iff.2 word]
  dsimp only
  refine (h c₁ ws report here₁ ends).bind fun e' c₂ _ same here₂ => ?_
  refine ((chain_ends here₂ ends).weaken fun f found => ?_).last
  rw [found]
  exact congrArg (Expr.unary .absent op) same

theorem readsChain_group {s : Span} {e : Expr} (h : Complete e) : ReadsChain (.group s e) := by
  intro c ws vs report P here go
  rw [Expr.words, List.cons_append, List.append_assoc] at here
  obtain ⟨t, c₁, bound, popped, word, here₁⟩ := pop?_of_at here
  rw [operand, popped]
  dsimp only
  rw [atom?_of_mark word, unaryOp?_of_lparen word]
  dsimp only
  rw [if_pos ((Token.isMark_iff (by decide)).2 word)]
  refine (h.whole (Expr.at_skipNewlines here₁) (closed_cons rfl)).bind fun e' c₂ _ same here₂ => ?_
  refine (yields_expectMark (by decide) (here₂.visible rfl)).bind fun close c₃ _ _ here₃ => ?_
  exact (go (.group (t.span.cover close.span) e') c₃ (congrArg (Expr.group .absent) same)
    here₃).last

theorem readsClimb_binary {s : Span} {op : BinaryOp} {l r : Expr} (hl : Complete l)
    (hr : Complete r) (fitsLeft : op.level ≤ l.binds) (fitsRight : op.level < r.binds) :
    ReadsClimb (.binary s op l r) := by
  intro level c ws vs report P here tight ends stops go
  rw [Expr.words, List.append_assoc] at here
  have reach := Expr.reach_of_le op.one_lt_level op.level_lt fitsLeft
  refine hl.climb level c _ vs report P here (Nat.lt_of_lt_of_le tight fitsLeft)
    (Operator.ends (.binary op) _) (Operator.stops (o := .binary op) reach _) ?_
  intro l' c₁ same here₁
  obtain ⟨t, c₂, bound, popped, word, here₂⟩ := pop?_of_at here₁
  have above : ¬ (Operator.binary op).level ≤ level := Nat.not_le.2 tight
  rw [climb, popped]
  dsimp only
  rw [(Token.operator?_iff (o := .binary op)).2 word]
  dsimp only
  rw [if_neg above]
  refine (hr.expression op.level_lt fitsRight (Expr.at_skipNewlines here₂) ends stops).bind
    fun r' c₃ _ same' here₃ => ?_
  exact (go (.binary (l'.span.cover r'.span) op l' r') c₃
    (congrArg₂ (Expr.binary .absent op) same same') here₃).last

theorem readsClimb_assign {s : Span} {l r : Expr} (hl : Complete l) (hr : Complete r)
    (target : l.isTarget = true) : ReadsClimb (.assign s l r) := by
  intro level c ws vs report P here tight ends stops go
  rw [Expr.words, List.append_assoc] at here
  have whole := Expr.binds_of_isTarget target
  have reach : Operator.assign.level ≤ l.reach := by
    rw [Expr.reach_of_binds (by omega)]
    decide
  have tightLeft : level < l.binds := by
    rw [whole]
    exact Nat.lt_trans tight (show 1 < 9 by decide)
  refine hl.climb level c _ vs report P here tightLeft (Operator.ends .assign _)
    (Operator.stops reach _) ?_
  intro l' c₁ same here₁
  obtain ⟨t, c₂, bound, popped, word, here₂⟩ := pop?_of_at here₁
  have above : ¬ Operator.assign.level ≤ level := Nat.not_le.2 tight
  rw [climb, popped]
  dsimp only
  rw [(Token.operator?_iff (o := .assign)).2 word]
  dsimp only
  rw [if_neg above]
  refine (hr.expression (by decide) r.binds_pos (Expr.at_skipNewlines here₂) ends stops).bind
    fun r' c₃ _ same' here₃ => ?_
  rw [if_pos (Expr.isTarget_of_bare same ▸ target)]
  exact (go (.assign (l'.span.cover r'.span) l' r') c₃
    (congrArg₂ (Expr.assign .absent) same same') here₃).last

theorem readsChain_member {s ns : Span} {o : Expr} {n : String} (h : ReadsChain o) :
    ReadsChain (.member s o n ns) := by
  intro c ws vs report P here go
  rw [Expr.words, List.append_assoc] at here
  refine h c _ vs report P here fun o' c₁ same here₁ => ?_
  obtain ⟨t, c₂, bound, popped, word, here₂⟩ := pop?_of_at here₁
  have other : ¬ t.isMark .lparen = true := by simp [Token.isMark_iff, word]
  rw [chain, popped]
  dsimp only
  rw [if_neg other, if_pos ((Token.isMark_iff (by decide)).2 word)]
  refine (yields_expectName here₂).bind fun name c₃ _ named here₃ => ?_
  exact (go (.member (o'.span.cover name.span) o' name.lexeme name.span) c₃
    (congrArg₂ (Expr.member .absent · · .absent) same named) here₃).last

theorem readsChain_index {s : Span} {o i : Expr} (h : ReadsChain o) (hi : Complete i) :
    ReadsChain (.index s o i) := by
  intro c ws vs report P here go
  rw [Expr.words, List.append_assoc, List.cons_append, List.append_assoc] at here
  refine h c _ vs report P here fun o' c₁ same here₁ => ?_
  obtain ⟨t, c₂, bound, popped, word, here₂⟩ := pop?_of_at here₁
  have noCall : ¬ t.isMark .lparen = true := by simp [Token.isMark_iff, word]
  have noMember : ¬ t.isMark .dot = true := by simp [Token.isMark_iff, word]
  rw [chain, popped]
  dsimp only
  rw [if_neg noCall, if_neg noMember, if_pos ((Token.isMark_iff (by decide)).2 word)]
  refine (hi.whole (Expr.at_skipNewlines here₂) (closed_cons rfl)).bind
    fun i' c₃ _ same' here₃ => ?_
  refine (yields_expectMark (by decide) (here₃.visible rfl)).bind fun close c₄ _ _ here₄ => ?_
  exact (go (.index (o'.span.cover close.span) o' i') c₄
    (congrArg₂ (Expr.index .absent) same same') here₄).last

/-- Arguments are read one after the other, each up to its comma or to the end of the list. -/
theorem argumentList_yields {es : List Expr} (some_ : es ≠ [])
    (h : ∀ e ∈ es, Complete e) {c : Cursor} {ws : List TokenWord} {report : Report}
    (here : c.At ([TokenWord.mark .comma].intercalate (Expr.wordsList es) ++ .mark .rparen :: ws)
      report) :
    Yields (argumentList c) (fun es' => Expr.bareList es' = Expr.bareList es)
      (.mark .rparen :: ws) report := by
  induction es generalizing c with
  | nil => exact absurd rfl some_
  | cons e es ih =>
    have reads := h e List.mem_cons_self
    rw [argumentList]
    cases es with
    | nil =>
      have here : c.At (e.words ++ .mark .rparen :: ws) report := by
        simpa [Expr.wordsList] using here
      refine (reads.whole (Expr.at_skipNewlines here) (closed_cons rfl)).bind
        fun e' c₁ _ same here₁ => ?_
      have here₁ := here₁.visible rfl
      dsimp only
      have noComma : c₁.skipNewlines.read? (·.isMark .comma) = none := by
        refine read?_eq_none here₁ fun t word => ?_
        rw [← Bool.not_eq_true, Token.isMark_iff (by decide), ← Option.mem_some.1 word]
        nofun
      rw [noComma]
      exact yields_ok (congrArg ([·]) same) here₁
    | cons f es =>
      rw [Expr.wordsList, Expr.wordsList, List.intercalate_cons_cons, List.append_assoc,
        List.append_assoc] at here
      refine (reads.whole (Expr.at_skipNewlines here) (closed_cons rfl)).bind
        fun e' c₁ _ same here₁ => ?_
      obtain ⟨t, c₂, bound, read, -, here₂⟩ :=
        read?_of_at (here₁.visible rfl) fun t word => (Token.isMark_iff (by decide)).2 word
      dsimp only
      rw [read]
      refine (ih nofun (fun g hg => h g (List.mem_cons_of_mem e hg)) here₂).bind
        fun others c₃ _ same' here₃ => ?_
      exact yields_ok (congrArg₂ List.cons same same') here₃

theorem readsChain_call {s : Span} {f : Expr} {args : List Expr} (h : ReadsChain f)
    (hargs : ∀ e ∈ args, Complete e) : ReadsChain (.call s f args) := by
  intro c ws vs report P here go
  rw [Expr.words, List.append_assoc, List.cons_append, List.append_assoc] at here
  refine h c _ vs report P here fun f' c₁ same here₁ => ?_
  obtain ⟨t, c₂, bound, popped, word, here₂⟩ := pop?_of_at here₁
  rw [chain, popped]
  dsimp only
  rw [if_pos ((Token.isMark_iff (by decide)).2 word)]
  cases args with
  | nil =>
    have here₂ : c₂.At (.mark .rparen :: ws) report := here₂
    have here₂ := here₂.visible rfl
    rw [if_pos (nextIs_of_at here₂ fun t word => (Token.isMark_iff (by decide)).2 word)]
    refine (yields_expectMark (by decide) here₂).bind fun close c₃ _ _ here₃ => ?_
    exact (go (.call (f'.span.cover close.span) f' []) c₃
      (congrArg (Expr.call .absent · []) same) here₃).last
  | cons e es =>
    obtain ⟨rest, front⟩ : ∃ rest,
        [TokenWord.mark .comma].intercalate (Expr.wordsList (e :: es)) = e.words ++ rest := by
      cases es with
      | nil => exact ⟨[], by simp [Expr.wordsList]⟩
      | cons f es =>
        rw [Expr.wordsList, Expr.wordsList, List.intercalate_cons_cons, List.append_assoc]
        exact ⟨_, rfl⟩
    obtain ⟨w, us, first, operand⟩ := e.starts
    have here₃ : c₂.skipNewlines.At
        ([TokenWord.mark .comma].intercalate (Expr.wordsList (e :: es)) ++ .mark .rparen :: ws)
        report := by
      have here₂ : c₂.At (_ ++ .mark .rparen :: ws) report := here₂
      rw [front, List.append_assoc] at here₂ ⊢
      exact Expr.at_skipNewlines here₂
    have noEnd : c₂.skipNewlines.nextIs (·.isMark .rparen) = false := by
      have here₃ := here₃
      rw [front, first, List.append_assoc, List.cons_append] at here₃
      refine nextIs_of_at here₃ fun t word => ?_
      rw [← Bool.not_eq_true, Token.isMark_iff (by decide), word]
      rintro rfl
      cases operand
    rw [if_neg (by simp [noEnd])]
    refine (argumentList_yields (List.cons_ne_nil e es) hargs here₃).bind
      fun args' c₃ _ same' here₄ => ?_
    refine (yields_expectMark (by decide) here₄).bind fun close c₄ _ _ here₅ => ?_
    exact (go (.call (f'.span.cover close.span) f' args') c₄
      (congrArg₂ (Expr.call .absent) same same') here₅).last

/-! ### All trees -/

mutual

theorem complete (e : Expr) (h : e.isStratified = true) : Complete e := by
  match e with
  | .literal s l => exact complete_of_chain (readsChain_literal s l)
  | .name s n => exact complete_of_chain (readsChain_name s n)
  | .self s => exact complete_of_chain (readsChain_self s)
  | .unary s op e =>
    simp only [Expr.isStratified, Bool.and_eq_true, decide_eq_true_eq] at h
    exact complete_of_operand rfl (readsOperand_unary ((complete e h.2).operand h.1))
  | .binary s op l r =>
    simp only [Expr.isStratified, Bool.and_eq_true, decide_eq_true_eq] at h
    obtain ⟨⟨⟨fitsLeft, fitsRight⟩, left⟩, right⟩ := h
    exact complete_of_climb op.level_lt
      (readsClimb_binary (complete l left) (complete r right) fitsLeft fitsRight)
  | .assign s t v =>
    simp only [Expr.isStratified, Bool.and_eq_true] at h
    obtain ⟨⟨target, left⟩, right⟩ := h
    exact complete_of_climb (show 1 < 8 by decide)
      (readsClimb_assign (complete t left) (complete v right) target)
  | .call s f args =>
    simp only [Expr.isStratified, Bool.and_eq_true, decide_eq_true_eq] at h
    obtain ⟨⟨whole, callee⟩, given⟩ := h
    exact complete_of_chain
      (readsChain_call ((complete f callee).chain whole) (completeList args given))
  | .member s o n ns =>
    simp only [Expr.isStratified, Bool.and_eq_true, decide_eq_true_eq] at h
    exact complete_of_chain (readsChain_member ((complete o h.2).chain h.1))
  | .index s o i =>
    simp only [Expr.isStratified, Bool.and_eq_true, decide_eq_true_eq] at h
    obtain ⟨⟨whole, object⟩, inner⟩ := h
    exact complete_of_chain (readsChain_index ((complete o object).chain whole) (complete i inner))
  | .group s e => exact complete_of_chain (readsChain_group (complete e h))

theorem completeList (es : List Expr) (h : Expr.areStratified es = true) :
    ∀ e ∈ es, Complete e := by
  match es with
  | [] => nofun
  | e :: es =>
    simp only [Expr.areStratified, Bool.and_eq_true] at h
    exact List.forall_mem_cons.2 ⟨complete e h.1, completeList es h.2⟩

end

end Reading

/-! ## The grammar -/

/-- A token that spells a word. -/
def TokenWord.token : TokenWord → Token
  | .name n => ⟨.identifier, n, Place.start⟩
  | .number x => ⟨.number x, "", Place.start⟩
  | .string s => ⟨.string s, "", Place.start⟩
  | .boolean b => ⟨.boolean b, "", Place.start⟩
  | .keyword k => ⟨.keyword k, k.text, Place.start⟩
  | .mark m => ⟨.mark m, "", Place.start⟩
  | .newline => ⟨.newline, "", Place.start⟩

theorem TokenWord.word_token {w : TokenWord} (h : w.isInner = true) : w.token.word = w := by
  cases w with
  | keyword k => cases k <;> first | rfl | cases h
  | _ => rfl

namespace Expr

/-- Every expression can be written. -/
theorem exists_row (e : Expr) : ∃ row : TokenRow, row.tokens.map Token.word = e.words := by
  refine ⟨⟨e.words.map TokenWord.token, Place.start⟩, ?_⟩
  rw [List.map_map]
  have back (w : TokenWord) (hw : w ∈ e.words) : w.token.word = w :=
    TokenWord.word_token (e.isInner_words w hw)
  exact (List.map_congr_left back).trans (List.map_id _)

theorem ofTokens_complete {e : Expr} (stratified : e.isStratified = true) {row : TokenRow}
    (said : row.tokens.map Token.word = e.words) :
    ∃ e', Expr.ofTokens row = .ok (e', Report.empty) ∧ e'.bare = e.bare := by
  have start : (Cursor.ofRow row).At (e.words ++ []) Report.empty :=
    ⟨said.trans (List.append_nil _).symm, rfl⟩
  obtain ⟨w, ws, first, -⟩ := e.starts
  have visible := e.isSeparator_words w (first ▸ List.mem_cons_self)
  have here : (Cursor.ofRow row).skipSeparators.At (e.words ++ []) Report.empty := by
    have skipped := start.skipSeparators
    rwa [first, List.cons_append, List.dropWhile_cons_of_neg (by simp [visible]),
      ← List.cons_append, ← first] at skipped
  obtain ⟨⟨e', c, bound⟩, read, same, left, silent⟩ :=
    (Reading.complete e stratified).whole here nofun
  have nothing : c.rest = [] := List.map_eq_nil_iff.1 left
  have done : c.skipSeparators.rest.isEmpty = true := by
    show (c.rest.dropWhile _).isEmpty = true
    rw [nothing]
    rfl
  refine ⟨e', ?_, same⟩
  unfold Expr.ofTokens
  rw [read]
  simp only [bind, Except.bind]
  rw [if_pos done]
  exact congrArg (fun r => Except.ok (e', r)) silent

/-- What is read as an expression is stratified and spells the row, and no other tree does.  Every
stratified tree can be written, and is what is read wherever its words stand. -/
theorem ofTokens_grammar :
    (∀ (row : TokenRow) (e : Expr) (report : Report), Expr.ofTokens row = .ok (e, report) →
      e.isStratified = true ∧ e.words = row.words ∧
        ∀ e' : Expr, e'.isStratified = true → e'.words = row.words → e'.bare = e.bare) ∧
    (∀ e : Expr, e.isStratified = true →
      (∃ row : TokenRow, row.tokens.map Token.word = e.words) ∧
        ∀ row : TokenRow, row.tokens.map Token.word = e.words →
          ∃ e', Expr.ofTokens row = .ok (e', Report.empty) ∧ e'.bare = e.bare) := by
  constructor
  · intro row e report read
    obtain ⟨stratified, said⟩ := ofTokens_spells read
    refine ⟨stratified, said, fun e' stratified' said' => ?_⟩
    -- Both trees are read from one row, the one that holds nothing but their words.
    obtain ⟨bareRow, spelled⟩ := e.exists_row
    obtain ⟨f, found, same⟩ := ofTokens_complete stratified spelled
    obtain ⟨f', found', same'⟩ :=
      ofTokens_complete stratified' (spelled.trans (said.trans said'.symm))
    rw [found] at found'
    cases found'
    exact same'.symm.trans same
  · intro e stratified
    exact ⟨e.exists_row, fun row said => ofTokens_complete stratified said⟩

/-- In `a = -b.c` a member is negated, and what is negated is assigned. -/
theorem ofTokens_grammar_of_negated_member :
    ∃ e', Expr.ofTokens ⟨[.name "a", .mark .equal, .mark .minus, .name "b", .mark .dot,
        .name "c"].map TokenWord.token, Place.start⟩ = .ok (e', Report.empty) ∧
      e'.bare = .assign .absent (.name .absent "a")
        (.unary .absent .negative (.member .absent (.name .absent "b") "c" .absent)) :=
  (ofTokens_grammar.2 (.assign .absent (.name .absent "a")
    (.unary .absent .negative (.member .absent (.name .absent "b") "c" .absent))) rfl).2 _ rfl

end Expr

end PathTyping
