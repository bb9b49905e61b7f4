import Mathlib.Data.Prod.Lex
import PathTyping.Proofs.Tiling
import PathTyping.Proofs.Spelling

/-!
# Spans tell expressions apart

The tokens of a text stand one behind the other, so a span is known by the tokens that it runs from
and to.  An expression sits on the tokens that it was read from, and its span runs over all of them;
a part sits on fewer.  Different expressions of a module therefore have different spans.

1. `TokenRow.ordered`: no token starts before the one in front of it has ended, even where a string
   runs over the end of its line.
2. `Expr.Sits` says on which tokens an expression sits; `operand_sits` and its siblings go through
   the readers of expressions.
3. `Sits.runs`: spans run over the tokens that are sat on; `Sits.part` is that a part has fewer.
4. `Rooms` says that expressions sit one behind the other: then their spans differ (`Rooms.nodup`),
   and a list of all that is within them has the order of the text (`Rooms.inTextOrder`).
-/

namespace PathTyping

/-! ## Tokens in order -/

/-- Lines count before columns. -/
def Place.rank (p : Place) : ℕ ×ₗ ℕ := toLex (p.line, p.column)

namespace Span

/-- Where a span starts. -/
def first (s : Span) : ℕ ×ₗ ℕ := toLex (s.line, s.column)

/-- Where a span ends. -/
def last (s : Span) : ℕ ×ₗ ℕ := toLex (s.endLine, s.endColumn)

/-- The span lies within `t`. -/
structure Inside (s t : Span) : Prop where
  first : t.first ≤ s.first
  last : s.last ≤ t.last

theorem Inside.trans {r s t : Span} (h : r.Inside s) (h' : s.Inside t) : r.Inside t :=
  ⟨h'.first.trans h.first, h.last.trans h'.last⟩

theorem Inside.antisymm {s t : Span} (h : s.Inside t) (h' : t.Inside s) : s = t := by
  have first := h.first.antisymm h'.first
  have last := h.last.antisymm h'.last
  simp only [Span.first, Span.last, EmbeddingLike.apply_eq_iff_eq, Prod.mk.injEq] at first last
  cases s
  cases t
  simp_all

theorem Inside.rfl {s : Span} : s.Inside s := ⟨le_rfl, le_rfl⟩

end Span

theorem Token.first_le_last (t : Token) : t.span.first ≤ t.span.last := by
  simp only [Span.first, Span.last, Prod.Lex.toLex_le_toLex]
  exact .inr ⟨rfl, Nat.le_add_right _ _⟩

/-- Each token ends before the next starts, and none is on line 0. -/
structure Ordered (ts : List Token) : Prop where
  present : ∀ t ∈ ts, t.span.isAbsent = false
  behind : ts.Pairwise fun t u => t.span.last < u.span.first

theorem rank_le_of_column {line m n : Nat} (h : m ≤ n) :
    (Place.mk line m).rank ≤ (Place.mk line n).rank :=
  Prod.Lex.toLex_le_toLex.2 (.inr ⟨rfl, h⟩)

/-- Behind a text the line has grown, or else the column by the length of the text. -/
theorem Place.le_after (p : Place) (cs : List Char) :
    (Place.mk p.line (p.column + cs.length)).rank ≤ (p.after cs).rank := by
  induction cs generalizing p with
  | nil => exact le_rfl
  | cons c cs ih =>
    refine le_trans ?_ (ih (p.next c))
    rw [next]
    split
    · exact Prod.Lex.toLex_le_toLex.2 (.inl (Nat.lt_succ_self _))
    · exact rank_le_of_column (by simp [Nat.add_assoc, Nat.add_comm 1])

theorem Place.rank_le_after (p : Place) (cs : List Char) : p.rank ≤ (p.after cs).rank :=
  (rank_le_of_column (Nat.le_add_right _ _)).trans (p.le_after cs)

theorem Token.last_lt_after (t : Token) (long : t.lexeme.toList ≠ []) :
    t.span.last < (t.place.after t.lexeme.toList).rank := by
  refine lt_of_lt_of_le ?_ (t.place.le_after _)
  have := List.length_pos_iff.2 long
  rw [String.length_toList] at *
  refine Prod.Lex.toLex_lt_toLex.2 (.inr ⟨rfl, ?_⟩)
  change t.place.column + (max t.lexeme.length 1 - 1) < t.place.column + t.lexeme.length
  omega

/-- Covering tokens are in order, behind what stands before them. -/
theorem Tiles.ordered {before text : List Char} {ts : List Token} {finish : Place}
    (h : Tiles before text ts finish) :
    Ordered ts ∧ ∀ t ∈ ts, (Place.behind before).rank ≤ t.span.first := by
  induction h with
  | finish => exact ⟨⟨nofun, .nil⟩, nofun⟩
  | @token before gap rest t ts finish gap_ longest reads place h ih =>
    obtain ⟨⟨present, behind⟩, later⟩ := ih
    have starts : (Place.behind before).rank ≤ t.place.rank := by
      rw [place, Place.behind_append]
      exact Place.rank_le_after _ gap
    have ends (u : Token) (hu : u ∈ ts) : t.span.last < u.span.first := by
      have := t.last_lt_after longest.has.ne_nil
      rw [place, ← Place.behind_append] at this
      exact this.trans_le (later u hu)
    refine ⟨⟨List.forall_mem_cons.2 ⟨?_, present⟩, List.pairwise_cons.2 ⟨ends, behind⟩⟩,
      List.forall_mem_cons.2 ⟨starts, fun u hu => ?_⟩⟩
    · simp [Span.isAbsent, place, Place.behind]
    · exact (starts.trans t.first_le_last).trans (ends u hu).le

theorem TokenRow.ordered {text : String} {row : TokenRow} (h : TokenRow.ofText text = .ok row) :
    Ordered row.tokens :=
  (TokenRow.scan_tiles h [] rfl).ordered.1

/-! ## Where expressions sit -/

/-- Nothing but newlines. -/
def Newlines (ts : List Token) : Prop := ∀ t ∈ ts, t.isNewline = true

mutual

/-- The expression is written as the tokens, from its first to its last.  Newlines may stand within
brackets and behind an operator with two sides. -/
inductive Expr.Sits : List Token → Expr → Prop
  | atom {t : Token} {e : Expr} (atom : t.atom? = some e) : Sits [t] e
  | unary {t : Token} {ts : List Token} {op : UnaryOp} {e : Expr}
      (operator : t.unaryOp? = some op) (h : Sits ts e) :
      Sits ([t] ++ ts) (.unary (t.span.cover e.span) op e)
  | binary {ls nl rs : List Token} {t : Token} {op : BinaryOp} {l r : Expr} (left : Sits ls l)
      (operator : t.operator? = some (.binary op)) (newlines : Newlines nl) (right : Sits rs r) :
      Sits (ls ++ (t :: nl) ++ rs) (.binary (l.span.cover r.span) op l r)
  | assign {ls nl rs : List Token} {t : Token} {l r : Expr} (left : Sits ls l)
      (target : l.isTarget = true) (operator : t.operator? = some .assign)
      (newlines : Newlines nl) (right : Sits rs r) :
      Sits (ls ++ (t :: nl) ++ rs) (.assign (l.span.cover r.span) l r)
  | run {fs nl : List Token} {opens closes : Token} {f : Expr} (callee : Sits fs f)
      (opening : opens.isMark .lparen = true) (newlines : Newlines nl)
      (closing : closes.isMark .rparen = true) :
      Sits (fs ++ (opens :: nl) ++ [closes]) (.call (f.span.cover closes.span) f [])
  | call {fs ts : List Token} {opens closes : Token} {f : Expr} {args : List Expr}
      (callee : Sits fs f) (opening : opens.isMark .lparen = true) (arguments : SitInTurn ts args)
      (closing : closes.isMark .rparen = true) :
      Sits (fs ++ (opens :: ts) ++ [closes]) (.call (f.span.cover closes.span) f args)
  | member {os : List Token} {dot name : Token} {o : Expr} (object : Sits os o)
      (marked : dot.isMark .dot = true) (named : Cursor.isIdentifier name = true) :
      Sits (os ++ [dot] ++ [name]) (.member (o.span.cover name.span) o name.lexeme name.span)
  | index {os nl is nl' : List Token} {opens closes : Token} {o i : Expr} (object : Sits os o)
      (opening : opens.isMark .lbracket = true) (newlines : Newlines nl) (index : Sits is i)
      (newlines' : Newlines nl') (closing : closes.isMark .rbracket = true) :
      Sits (os ++ (opens :: (nl ++ is ++ nl')) ++ [closes])
        (.index (o.span.cover closes.span) o i)
  | group {nl ts nl' : List Token} {opens closes : Token} {e : Expr}
      (opening : opens.isMark .lparen = true) (newlines : Newlines nl) (h : Sits ts e)
      (newlines' : Newlines nl') (closing : closes.isMark .rparen = true) :
      Sits ([opens] ++ (nl ++ ts ++ nl') ++ [closes])
        (.group (opens.span.cover closes.span) e)

/-- Arguments with commas between them. -/
inductive Expr.SitInTurn : List Token → List Expr → Prop
  | last {nl ts nl' : List Token} {e : Expr} (newlines : Newlines nl) (h : Sits ts e)
      (newlines' : Newlines nl') : SitInTurn (nl ++ ts ++ nl') [e]
  | cons {nl ts nl' us : List Token} {comma : Token} {e f : Expr} {es : List Expr}
      (newlines : Newlines nl) (h : Sits ts e) (newlines' : Newlines nl')
      (between : comma.isMark .comma = true) (others : SitInTurn us (f :: es)) :
      SitInTurn (nl ++ ts ++ (nl' ++ [comma] ++ us)) (e :: f :: es)

end

theorem Newlines.append {ts us : List Token} (h : Newlines ts) (h' : Newlines us) :
    Newlines (ts ++ us) :=
  fun t ht => (List.mem_append.1 ht).elim (h t) (h' t)

namespace Expr.SitInTurn

theorem exists_cons {ts : List Token} {es : List Expr} (h : SitInTurn ts es) :
    ∃ f fs, es = f :: fs := by
  cases h <;> exact ⟨_, _, rfl⟩

theorem behind {nl ts : List Token} {es : List Expr} (h : SitInTurn ts es)
    (newlines : Newlines nl) : SitInTurn (nl ++ ts) es := by
  cases h with
  | last newlines' sits ends =>
    simpa only [List.append_assoc] using SitInTurn.last (newlines.append newlines') sits ends
  | cons newlines' sits ends between others =>
    simpa only [List.append_assoc] using
      SitInTurn.cons (newlines.append newlines') sits ends between others

end Expr.SitInTurn

/-- `P` holds of the tokens between `c` and `next`. -/
def Cursor.Passes (c next : Cursor) (P : List Token → Prop) : Prop :=
  ∃ used, c.rest = used ++ next.rest ∧ P used

namespace Cursor

theorem rest_skipNewlines (c : Cursor) : c.Passes c.skipNewlines Newlines :=
  ⟨_, List.takeWhile_append_dropWhile.symm, fun _ ht => List.mem_takeWhile_imp ht⟩

theorem rest_of_read? {c : Cursor} {p : Token → Bool} {r : Read Token c.size}
    (h : c.read? p = some r) : c.rest = r.value :: r.next.rest ∧ p r.value = true := by
  unfold read? at h
  split at h
  · next r' popped =>
    split at h
    · next fits =>
      cases h
      exact ⟨rest_of_pop? popped, fits⟩
    · cases h
  · cases h

theorem rest_of_expect {c : Cursor} {p : Token → Bool} {what : Expectation}
    {r : Read Token c.size} (h : c.expect p what = .ok r) :
    c.rest = r.value :: r.next.rest ∧ p r.value = true := by
  unfold expect at h
  split at h
  · next found =>
    cases h
    exact rest_of_read? found
  · cases h

end Cursor

namespace Reading

open Cursor

mutual

theorem operand_sits (c : Cursor) :
    Brings (operand c) fun e next => c.Passes next (Expr.Sits · e) := by
  rw [operand]
  split
  · exact brings_error
  · next t c₁ h₁ popped =>
    have first := rest_of_pop? popped
    split
    · next e atom =>
      refine brings_bind fun ⟨e', c₂, h₂⟩ read => brings_ok ?_
      obtain ⟨us, rest, sits⟩ := (chain_sits (.atom atom) c₁).holds read
      exact ⟨_, by rw [first, rest]; rfl, sits⟩
    · split
      · next op unary =>
        refine brings_bind fun ⟨e, c₂, h₂⟩ read => brings_bind fun ⟨e', c₃, h₃⟩ read' => brings_ok ?_
        obtain ⟨ts, rest, sits⟩ := (operand_sits c₁).holds read
        obtain ⟨us, rest', sits'⟩ := (chain_sits (.unary unary sits) c₂).holds read'
        exact ⟨_, by rw [first, rest, rest']; simp, sits'⟩
      · split
        · next opens =>
          have hs := c₁.size_skipNewlines_le
          refine brings_bind fun ⟨e, c₂, h₂⟩ read => ?_
          have hs₂ := c₂.size_skipNewlines_le
          refine brings_bind fun ⟨close, c₃, h₃⟩ read' => brings_bind fun ⟨e', c₄, h₄⟩ read'' => ?_
          obtain ⟨nl, skipped, newlines⟩ := c₁.rest_skipNewlines
          obtain ⟨ts, rest, sits⟩ := (expression_sits 0 _).holds read
          obtain ⟨nl', skipped', newlines'⟩ := c₂.rest_skipNewlines
          obtain ⟨last, closes⟩ := rest_of_expect read'
          obtain ⟨us, rest', sits'⟩ :=
            (chain_sits (.group opens newlines sits newlines' closes) c₃).holds read''
          refine brings_ok ⟨_, ?_, sits'⟩
          rw [first, skipped, rest, skipped', last, rest']
          simp
        · exact brings_error
termination_by 4 * c.size
decreasing_by all_goals dsimp only at *; omega

theorem expression_sits (level : Nat) (c : Cursor) :
    Brings (expression level c) fun e next => c.Passes next (Expr.Sits · e) := by
  rw [expression]
  refine brings_bind fun ⟨left, c₁, h₁⟩ read => brings_bind fun ⟨e, c₂, h₂⟩ read' => brings_ok ?_
  obtain ⟨ts, rest, sits⟩ := (operand_sits c).holds read
  obtain ⟨us, rest', sits'⟩ := (climb_sits level sits c₁).holds read'
  exact ⟨_, by rw [rest, rest', List.append_assoc], sits'⟩
termination_by 4 * c.size + 1
decreasing_by all_goals dsimp only at *; omega

/-- Behind `left`, which sits on `ls`, the operators extend both. -/
theorem climb_sits (level : Nat) {ls : List Token} {left : Expr} (sits : left.Sits ls)
    (c : Cursor) :
    Brings (climb level left c) fun e next => c.Passes next fun us => e.Sits (ls ++ us) := by
  have nothing : c.Passes c fun us => left.Sits (ls ++ us) :=
    ⟨[], rfl, by simpa using sits⟩
  rw [climb]
  split
  · exact brings_ok nothing
  · next t c₁ h₁ popped =>
    have first := rest_of_pop? popped
    split
    · exact brings_ok nothing
    · next o operator =>
      split
      · exact brings_ok nothing
      · have hs := c₁.size_skipNewlines_le
        obtain ⟨nl, skipped, newlines⟩ := c₁.rest_skipNewlines
        cases o with
        | assign =>
          refine brings_bind fun ⟨value, c₂, h₂⟩ read => ?_
          obtain ⟨ts, rest, sits'⟩ := (expression_sits 0 _).holds read
          dsimp only
          split
          · next target =>
            refine brings_bind fun ⟨e, c₃, h₃⟩ read' => brings_ok ?_
            obtain ⟨us, rest', whole⟩ :=
              (climb_sits level (.assign sits target operator newlines sits') c₂).holds read'
            refine ⟨(t :: nl) ++ ts ++ us, ?_, by simpa using whole⟩
            rw [first, skipped, rest, rest']
            simp
          · exact brings_error
        | binary op =>
          refine brings_bind fun ⟨right, c₂, h₂⟩ read => brings_bind fun ⟨e, c₃, h₃⟩ read' => ?_
          obtain ⟨ts, rest, sits'⟩ := (expression_sits op.level _).holds read
          obtain ⟨us, rest', whole⟩ :=
            (climb_sits level (.binary sits operator newlines sits') c₂).holds read'
          refine brings_ok ⟨(t :: nl) ++ ts ++ us, ?_, by simpa using whole⟩
          rw [first, skipped, rest, rest']
          simp
termination_by 4 * c.size
decreasing_by all_goals dsimp only at *; omega

/-- Behind `e`, which sits on `ls`, calls, members and indexes extend both. -/
theorem chain_sits {ls : List Token} {e : Expr} (sits : e.Sits ls) (c : Cursor) :
    Brings (chain e c) fun e' next => c.Passes next fun us => e'.Sits (ls ++ us) := by
  have nothing : c.Passes c fun us => e.Sits (ls ++ us) :=
    ⟨[], rfl, by simpa using sits⟩
  rw [chain]
  split
  · exact brings_ok nothing
  · next t c₁ h₁ popped =>
    have first := rest_of_pop? popped
    have hs := c₁.size_skipNewlines_le
    obtain ⟨nl, skipped, newlines⟩ := c₁.rest_skipNewlines
    split
    · next opens =>
      dsimp only
      split
      · refine brings_bind fun ⟨close, c₂, h₂⟩ read => brings_bind fun ⟨e', c₃, h₃⟩ read' => ?_
        obtain ⟨last, closes⟩ := rest_of_expect read
        obtain ⟨us, rest, whole⟩ := (chain_sits (.run sits opens newlines closes) c₂).holds read'
        refine brings_ok ⟨(t :: nl) ++ [close] ++ us, ?_, by simpa using whole⟩
        rw [first, skipped, last, rest]
        simp
      · refine brings_bind fun ⟨arguments, c₂, h₂⟩ read => ?_
        dsimp only
        refine brings_bind fun ⟨close, c₃, h₃⟩ read' => brings_bind fun ⟨e', c₄, h₄⟩ read'' => ?_
        obtain ⟨ts, given, inTurn⟩ := (argumentList_sits _).holds read
        obtain ⟨last, closes⟩ := rest_of_expect read'
        obtain ⟨us, rest, whole⟩ := (chain_sits (.call sits opens (inTurn.behind newlines) closes) c₃).holds read''
        refine brings_ok ⟨(t :: (nl ++ ts)) ++ [close] ++ us, ?_, by simpa using whole⟩
        rw [first, skipped, given, last, rest]
        simp
    · split
      · next marked =>
        refine brings_bind fun ⟨name, c₂, h₂⟩ read => brings_bind fun ⟨e', c₃, h₃⟩ read' => ?_
        obtain ⟨last, named⟩ := rest_of_expect read
        obtain ⟨us, rest, whole⟩ := (chain_sits (.member sits marked named) c₂).holds read'
        refine brings_ok ⟨[t] ++ [name] ++ us, ?_, by simpa using whole⟩
        rw [first, last, rest]
        simp
      · split
        · next opens =>
          refine brings_bind fun ⟨i, c₂, h₂⟩ read => ?_
          have hs₂ := c₂.size_skipNewlines_le
          refine brings_bind fun ⟨close, c₃, h₃⟩ read' => brings_bind fun ⟨e', c₄, h₄⟩ read'' => ?_
          obtain ⟨ts, inner, sits'⟩ := (expression_sits 0 _).holds read
          obtain ⟨nl', skipped', newlines'⟩ := c₂.rest_skipNewlines
          obtain ⟨last, closes⟩ := rest_of_expect read'
          obtain ⟨us, rest, whole⟩ :=
            (chain_sits (.index sits opens newlines sits' newlines' closes) c₃).holds read''
          refine brings_ok ⟨(t :: (nl ++ ts ++ nl')) ++ [close] ++ us, ?_, by simpa using whole⟩
          rw [first, skipped, inner, skipped', last, rest]
          simp
        · exact brings_ok nothing
termination_by 4 * c.size + 3
decreasing_by all_goals dsimp only at *; omega

theorem argumentList_sits (c : Cursor) :
    Brings (argumentList c) fun es next => c.Passes next (Expr.SitInTurn · es) := by
  rw [argumentList]
  have hs := c.size_skipNewlines_le
  refine brings_bind fun ⟨e, c₁, h₁⟩ read => ?_
  have hs₁ := c₁.size_skipNewlines_le
  obtain ⟨nl, skipped, newlines⟩ := c.rest_skipNewlines
  obtain ⟨ts, rest, sits⟩ := (expression_sits 0 _).holds read
  obtain ⟨nl', skipped', newlines'⟩ := c₁.rest_skipNewlines
  dsimp only
  split
  · next comma c₂ h₂ found =>
    refine brings_bind fun ⟨others, c₃, h₃⟩ read' => brings_ok ?_
    obtain ⟨behind, between⟩ := rest_of_read? found
    obtain ⟨us, rest', inTurn⟩ := (argumentList_sits c₂).holds read'
    obtain ⟨f, es, rfl⟩ := inTurn.exists_cons
    refine ⟨_, ?_, .cons newlines sits newlines' between inTurn⟩
    rw [skipped, rest, skipped', behind, rest']
    simp
  · refine brings_ok ⟨_, ?_, .last newlines sits newlines'⟩
    rw [skipped, rest, skipped']
    simp
termination_by 4 * c.size + 2
decreasing_by all_goals dsimp only at *; omega

end

end Reading

/-! ## Spans of tokens -/

namespace Ordered

variable {ts us gap : List Token}

theorem left (h : Ordered (ts ++ us)) : Ordered ts :=
  ⟨fun t ht => h.present t (List.mem_append_left _ ht), (List.pairwise_append.1 h.behind).1⟩

theorem right (h : Ordered (ts ++ us)) : Ordered us :=
  ⟨fun t ht => h.present t (List.mem_append_right _ ht), (List.pairwise_append.1 h.behind).2.1⟩

theorem within (h : Ordered ts) (inner : us <:+: ts) : Ordered us := by
  obtain ⟨as, bs, rfl⟩ := inner
  exact h.left.right

/-- What stands between two rows may be left out. -/
theorem outer (h : Ordered (ts ++ gap ++ us)) : Ordered (ts ++ us) := by
  refine ⟨fun t ht => h.present t ?_, h.behind.sublist ?_⟩
  · rcases List.mem_append.1 ht with ht | ht <;> simp [ht]
  · exact (List.sublist_append_left ts gap).append (List.Sublist.refl us)

theorem across (h : Ordered (ts ++ us)) {t u : Token} (ht : t ∈ ts) (hu : u ∈ us) :
    t.span.last < u.span.first := (List.pairwise_append.1 h.behind).2.2 t ht u hu

end Ordered

/-- The span that covers two of which one starts and ends first. -/
theorem Span.cover_of_lt {s r : Span} (present : s.isAbsent = false) (present' : r.isAbsent = false)
    (starts : s.first < r.first) (ends : s.last < r.last) :
    s.cover r = ⟨s.line, s.column, r.endLine, r.endColumn⟩ := by
  have before : s.startsBefore r = true := by
    simpa [startsBefore, Span.first, Prod.Lex.toLex_le_toLex] using starts.le
  have after : s.endsAfter r = false := by
    rw [← Bool.not_eq_true]
    intro after
    simp only [endsAfter, Bool.or_eq_true, Bool.and_eq_true, decide_eq_true_eq, beq_iff_eq] at after
    exact ends.not_ge (Prod.Lex.toLex_le_toLex.2 (after.imp_right fun h => ⟨h.1.symm, h.2⟩))
  simp [cover, present, present', before, after]

/-- The span runs from the start of the first of the tokens to the end of the last. -/
def Span.Runs (s : Span) (ts : List Token) : Prop :=
  ∃ t u, ts.head? = some t ∧ ts.getLast? = some u ∧
    s = ⟨t.place.line, t.place.column, u.span.endLine, u.span.endColumn⟩

namespace Span.Runs

variable {s r : Span} {ts us as bs : List Token}

theorem token (t : Token) : t.span.Runs [t] := ⟨t, t, rfl, rfl, rfl⟩

/-- All of the tokens lie within a span that runs over them. -/
theorem inside_of_mem (h : s.Runs ts) (ordered : Ordered ts) {t : Token} (ht : t ∈ ts) :
    t.span.Inside s := by
  obtain ⟨t₁, t₂, first, last, rfl⟩ := h
  obtain ⟨rest, split⟩ := List.head?_eq_some_iff.1 first
  obtain ⟨front, split'⟩ := List.getLast?_eq_some_iff.1 last
  constructor
  · change t₁.span.first ≤ _
    rw [split] at ht ordered
    rcases List.mem_cons.1 ht with rfl | later
    · exact le_rfl
    · exact t₁.first_le_last.trans ((List.pairwise_cons.1 ordered.behind).1 t later).le
  · change _ ≤ t₂.span.last
    rw [split'] at ht ordered
    rcases List.mem_append.1 ht with earlier | here
    · exact (ordered.across earlier (List.mem_singleton_self t₂)).le.trans t₂.first_le_last
    · rw [List.mem_singleton.1 here]

theorem present (h : s.Runs ts) (ordered : Ordered ts) : s.isAbsent = false := by
  obtain ⟨t, u, first, last, rfl⟩ := h
  exact ordered.present t (List.mem_of_mem_head? first)

/-- A span that runs over tokens ends before another starts, over tokens behind them. -/
theorem before (h : s.Runs ts) (h' : r.Runs us) (ordered : Ordered (ts ++ us)) :
    s.last < r.first := by
  obtain ⟨t₁, t₂, first, last, rfl⟩ := h
  obtain ⟨u₁, u₂, first', last', rfl⟩ := h'
  exact ordered.across (List.mem_of_getLast? last) (List.mem_of_mem_head? first')

theorem first_le_last (h : s.Runs ts) (ordered : Ordered ts) : s.first ≤ s.last := by
  have ⟨t, u, first, last, same⟩ := h
  have inside := h.inside_of_mem ordered (List.mem_of_mem_head? first)
  exact (inside.first.trans t.first_le_last).trans inside.last

/-- What covers two spans runs over all that lies between them. -/
theorem cover (gap : List Token) (h : s.Runs ts) (h' : r.Runs us) (ordered : Ordered (ts ++ gap ++ us)) :
    (s.cover r).Runs (ts ++ gap ++ us) := by
  have mine := h.first_le_last ordered.left.left
  have others := h'.first_le_last ordered.right
  have apart : s.last < r.first := h.before h' ordered.outer
  rw [Span.cover_of_lt (h.present ordered.left.left) (h'.present ordered.right)
    (mine.trans_lt apart) (apart.trans_le others)]
  obtain ⟨t, t', first, last, rfl⟩ := h
  obtain ⟨u, u', first', last', rfl⟩ := h'
  exact ⟨t, u', by simp [first], by simp [last'], rfl⟩

theorem inside (h : s.Runs (as ++ ts ++ bs)) (h' : r.Runs ts)
    (ordered : Ordered (as ++ ts ++ bs)) : r.Inside s := by
  obtain ⟨t, u, first, last, rfl⟩ := h'
  have mem {v : Token} (hv : v ∈ ts) : v ∈ as ++ ts ++ bs := by simp [hv]
  exact ⟨(h.inside_of_mem ordered (mem (List.mem_of_mem_head? first))).first,
    (h.inside_of_mem ordered (mem (List.mem_of_getLast? last))).last⟩

/-- The span of fewer tokens is another. -/
theorem ne (h : s.Runs (as ++ ts ++ bs)) (h' : r.Runs ts) (ordered : Ordered (as ++ ts ++ bs))
    (fewer : as ++ bs ≠ []) : r ≠ s := by
  rintro rfl
  obtain ⟨t, u, first, last, same⟩ := h'
  obtain ⟨v, hv⟩ := List.exists_mem_of_ne_nil _ fewer
  have inside := h.inside_of_mem ordered (t := v) (by simp at hv ⊢; tauto)
  rcases List.mem_append.1 hv with before | behind
  · have apart := ordered.left.across before (List.mem_of_mem_head? first)
    have : t.span.first = r.first := by rw [same]; rfl
    exact absurd ((inside.first.trans v.first_le_last).trans_lt apart) (this ▸ lt_irrefl _)
  · have apart := ordered.across (List.mem_append_right as (List.mem_of_getLast? last)) behind
    have : u.span.last = r.last := by rw [same]; rfl
    exact absurd (apart.trans_le (v.first_le_last.trans inside.last)) (this ▸ lt_irrefl _)

end Span.Runs

theorem Token.span_of_atom {t : Token} {e : Expr} (h : t.atom? = some e) : e.span = t.span := by
  unfold atom? at h
  split at h <;> cases h <;> rfl

/-- An expression's span runs over the tokens that it sits on. -/
theorem Expr.Sits.runs {ts : List Token} {e : Expr} (h : e.Sits ts) (ordered : Ordered ts) :
    e.span.Runs ts := by
  cases h with
  | @atom t e atom =>
    rw [Token.span_of_atom atom]
    exact .token t
  | unary operator h =>
    exact Span.Runs.cover [] (.token _) (h.runs ordered.right) ordered
  | binary left operator newlines right =>
    exact Span.Runs.cover _ (left.runs ordered.left.left) (right.runs ordered.right) ordered
  | assign left target operator newlines right =>
    exact Span.Runs.cover _ (left.runs ordered.left.left) (right.runs ordered.right) ordered
  | run callee opening newlines closing =>
    exact Span.Runs.cover _ (callee.runs ordered.left.left) (.token _) ordered
  | call callee opening arguments closing =>
    exact Span.Runs.cover _ (callee.runs ordered.left.left) (.token _) ordered
  | member object marked named =>
    exact Span.Runs.cover _ (object.runs ordered.left.left) (.token _) ordered
  | index object opening newlines index newlines' closing =>
    exact Span.Runs.cover _ (object.runs ordered.left.left) (.token _) ordered
  | group opening newlines h newlines' closing =>
    exact Span.Runs.cover _ (.token _) (.token _) ordered

/-! ## Parts -/

namespace Expr

/-- The expressions that an expression is made of. -/
def parts : Expr → List Expr
  | literal _ _ | name _ _ | self _ => []
  | unary _ _ e | member _ e _ _ | group _ e => [e]
  | binary _ _ l r | assign _ l r | index _ l r => [l, r]
  | call _ f args => f :: args

theorem preorder_eq (e : Expr) : e.preorder = e :: e.parts.flatMap preorder := by
  cases e <;> simp [preorder, parts, preorderList_eq_flatMap]

theorem sizeOf_lt_of_mem_parts {e p : Expr} (h : p ∈ e.parts) : sizeOf p < sizeOf e := by
  cases e with
  | call s f args =>
    rcases List.mem_cons.1 h with rfl | h
    · simp only [call.sizeOf_spec]; omega
    · have := List.sizeOf_lt_of_mem h
      simp only [call.sizeOf_spec]; omega
  | _ => simp only [parts, List.mem_cons, List.not_mem_nil, or_false] at h <;> grind

/-- An expression has only itself and what its parts have. -/
theorem mem_preorder {e n : Expr} : n ∈ e.preorder ↔ n = e ∨ ∃ p ∈ e.parts, n ∈ p.preorder := by
  rw [preorder_eq, List.mem_cons, List.mem_flatMap]

/-- An argument sits on some of the tokens. -/
theorem SitInTurn.exists_sits {ts : List Token} {es : List Expr} (h : SitInTurn ts es) :
    ∀ e ∈ es, ∃ as us bs, ts = as ++ us ++ bs ∧ e.Sits us := by
  cases h with
  | @last nl ts nl' e newlines h newlines' =>
    rintro _ (_ | ⟨_, ⟨⟩⟩)
    exact ⟨nl, ts, nl', rfl, h⟩
  | @cons nl ts nl' us comma e f es newlines h newlines' between others =>
    rintro _ (_ | ⟨_, later⟩)
    · exact ⟨nl, ts, _, rfl, h⟩
    · obtain ⟨as, vs, bs, rfl, sits⟩ := others.exists_sits _ later
      exact ⟨nl ++ ts ++ (nl' ++ [comma] ++ as), vs, bs, by simp, sits⟩

/-- A part sits on some of the tokens, but not on all. -/
theorem Sits.part {ts : List Token} {e p : Expr} (h : e.Sits ts) (hp : p ∈ e.parts) :
    ∃ as us bs, ts = as ++ us ++ bs ∧ as ++ bs ≠ [] ∧ p.Sits us := by
  cases h with
  | @atom t e atom =>
    unfold Token.atom? at atom
    split at atom <;> cases atom <;> cases hp
  | @unary t ts op e operator h =>
    cases List.mem_singleton.1 hp
    exact ⟨[t], ts, [], by simp, nofun, h⟩
  | @binary ls nl rs t op l r left operator newlines right =>
    rcases List.mem_pair.1 hp with rfl | rfl
    · exact ⟨[], ls, (t :: nl) ++ rs, by simp, nofun, left⟩
    · exact ⟨ls ++ (t :: nl), rs, [], by simp, by simp, right⟩
  | @assign ls nl rs t l r left target operator newlines right =>
    rcases List.mem_pair.1 hp with rfl | rfl
    · exact ⟨[], ls, (t :: nl) ++ rs, by simp, nofun, left⟩
    · exact ⟨ls ++ (t :: nl), rs, [], by simp, by simp, right⟩
  | @run fs nl opens closes f callee opening newlines closing =>
    cases List.mem_singleton.1 hp
    exact ⟨[], fs, (opens :: nl) ++ [closes], by simp, nofun, callee⟩
  | @call fs ts opens closes f args callee opening arguments closing =>
    rcases List.mem_cons.1 hp with rfl | hp
    · exact ⟨[], fs, (opens :: ts) ++ [closes], by simp, nofun, callee⟩
    · obtain ⟨as, us, bs, rfl, sits⟩ := arguments.exists_sits p hp
      exact ⟨fs ++ (opens :: as), us, bs ++ [closes], by simp, by simp, sits⟩
  | @member os dot name o object marked named =>
    cases List.mem_singleton.1 hp
    exact ⟨[], os, [dot, name], by simp, nofun, object⟩
  | @index os nl is nl' opens closes o i object opening newlines index newlines' closing =>
    rcases List.mem_pair.1 hp with rfl | rfl
    · exact ⟨[], os, (opens :: (nl ++ is ++ nl')) ++ [closes], by simp, nofun, object⟩
    · exact ⟨os ++ (opens :: nl), is, nl' ++ [closes], by simp, by simp, index⟩
  | @group nl ts nl' opens closes e opening newlines h newlines' closing =>
    cases List.mem_singleton.1 hp
    exact ⟨opens :: nl, ts, nl' ++ [closes], by simp, nofun, h⟩

end Expr

/-- The expressions sit on some of the tokens, one behind the other. -/
inductive Rooms : List Token → List Expr → Prop
  | nil (ts : List Token) : Rooms ts []
  | cons (gap : List Token) {ts us : List Token} {e : Expr} {es : List Expr} (h : e.Sits ts)
      (h' : Rooms us es) : Rooms (gap ++ ts ++ us) (e :: es)

namespace Rooms

variable {ts us : List Token} {es fs : List Expr}

theorem behind (gap : List Token) (h : Rooms ts es) : Rooms (gap ++ ts) es := by
  cases h with
  | nil => exact .nil _
  | cons gap' h h' => simpa only [List.append_assoc] using Rooms.cons (gap ++ gap') h h'

theorem append (h : Rooms ts es) (h' : Rooms us fs) : Rooms (ts ++ us) (es ++ fs) := by
  induction h with
  | nil ts => exact h'.behind ts
  | cons gap h _ ih => rw [List.append_assoc]; exact .cons gap h ih

theorem before (gap : List Token) (h : Rooms ts es) : Rooms (ts ++ gap) es := by
  simpa using h.append (.nil gap)

theorem one {e : Expr} (h : e.Sits ts) : Rooms ts [e] := by
  simpa using Rooms.cons [] h (.nil [])

end Rooms

namespace Expr

theorem SitInTurn.rooms {ts : List Token} {es : List Expr} (h : SitInTurn ts es) : Rooms ts es := by
  cases h with
  | last newlines h newlines' => exact .cons _ h (.nil _)
  | cons newlines h newlines' between others => exact .cons _ h (others.rooms.behind _)

/-- The parts of an expression sit one behind the other. -/
theorem Sits.rooms {ts : List Token} {e : Expr} (h : e.Sits ts) : Rooms ts e.parts := by
  cases h with
  | atom atom =>
    unfold Token.atom? at atom
    split at atom <;> cases atom <;> exact .nil _
  | unary operator h => exact (Rooms.one h).behind _
  | binary left operator newlines right => exact ((Rooms.one left).before _).append (.one right)
  | assign left target operator newlines right =>
    exact ((Rooms.one left).before _).append (.one right)
  | run callee opening newlines closing => exact ((Rooms.one callee).before _).before _
  | call callee opening arguments closing =>
    exact ((Rooms.one callee).append (arguments.rooms.behind [_])).before _
  | member object marked named => exact ((Rooms.one object).before _).before _
  | index object opening newlines index newlines' closing =>
    exact ((Rooms.one object).append ((((Rooms.one index).behind _).before _).behind [_])).before _
  | group opening newlines h newlines' closing =>
    exact ((((Rooms.one h).behind _).before _).behind _).before _

/-- Every expression within another sits on some of its tokens. -/
theorem Sits.inner {ts : List Token} {e n : Expr} (h : e.Sits ts) (hn : n ∈ e.preorder) :
    ∃ us, us <:+: ts ∧ n.Sits us := by
  rcases mem_preorder.1 hn with rfl | ⟨p, hp, hn⟩
  · exact ⟨ts, List.infix_rfl, h⟩
  · have smaller := sizeOf_lt_of_mem_parts hp
    obtain ⟨as, us, bs, rfl, -, sits⟩ := h.part hp
    obtain ⟨vs, inner, sits'⟩ := sits.inner hn
    exact ⟨vs, inner.trans ⟨as, bs, rfl⟩, sits'⟩
termination_by sizeOf e

/-- The span of a part lies within that of the whole and is another. -/
theorem Sits.span_part {ts : List Token} {e p : Expr} (h : e.Sits ts) (ordered : Ordered ts)
    (hp : p ∈ e.parts) : p.span.Inside e.span ∧ p.span ≠ e.span := by
  have runs := h.runs ordered
  obtain ⟨as, us, bs, rfl, fewer, sits⟩ := h.part hp
  have runs' := sits.runs ordered.left.right
  exact ⟨runs.inside runs' ordered, runs.ne runs' ordered fewer⟩

theorem Sits.span_inside {ts : List Token} {e n : Expr} (h : e.Sits ts) (ordered : Ordered ts)
    (hn : n ∈ e.preorder) : n.span.Inside e.span ∧ n.span.first ≤ n.span.last := by
  obtain ⟨us, ⟨as, bs, rfl⟩, sits⟩ := h.inner hn
  have runs := sits.runs ordered.left.right
  exact ⟨(h.runs ordered).inside runs ordered, runs.first_le_last ordered.left.right⟩

end Expr

/-! ## Different expressions -/

/-- Of two expressions, the later lies within the earlier or starts behind its end. -/
def InTextOrder (nodes : List Expr) : Prop :=
  nodes.Pairwise fun n m => m.span.Inside n.span ∨ n.span.last < m.span.first

namespace Rooms

variable {ts : List Token} {es : List Expr}

theorem exists_sits (h : Rooms ts es) : ∀ e ∈ es, ∃ us, us <:+: ts ∧ e.Sits us := by
  induction h with
  | nil => exact List.forall_mem_nil _
  | @cons gap ts us e es h _ ih =>
    refine List.forall_mem_cons.2 ⟨⟨ts, ⟨gap, us, rfl⟩, h⟩, fun f hf => ?_⟩
    obtain ⟨vs, inner, sits⟩ := ih f hf
    exact ⟨vs, inner.trans (List.suffix_append _ _).isInfix, sits⟩

/-- What is within the first of several expressions ends before what is within the others starts. -/
theorem last_lt_first {gap us : List Token} {e n m : Expr} (h : e.Sits ts) (h' : Rooms us es)
    (ordered : Ordered (gap ++ ts ++ us)) (hn : n ∈ e.preorder)
    (hm : m ∈ es.flatMap Expr.preorder) : n.span.last < m.span.first := by
  obtain ⟨f, hf, hm⟩ := List.mem_flatMap.1 hm
  obtain ⟨vs, ⟨as, bs, rfl⟩, sits⟩ := h'.exists_sits f hf
  have row : Ordered (gap ++ (ts ++ as ++ vs ++ bs)) := by simpa using ordered
  have apart := (h.runs ordered.left.right).before (sits.runs row.right.left.right)
    row.right.left.outer
  have inside := (h.span_inside ordered.left.right hn).1
  have inside' := (sits.span_inside row.right.left.right hm).1
  exact (inside.last.trans_lt apart).trans_le inside'.first

/-- Where the spans within each of the expressions differ, those within all of them do. -/
theorem nodup (h : Rooms ts es) (ordered : Ordered ts)
    (each : ∀ e ∈ es, (e.preorder.map Expr.span).Nodup) :
    ((es.flatMap Expr.preorder).map Expr.span).Nodup := by
  induction h with
  | nil => exact .nil
  | @cons gap ts us e es h h' ih =>
    rw [List.flatMap_cons, List.map_append, List.nodup_append]
    refine ⟨each e List.mem_cons_self, ih ordered.right fun f hf => each f (.tail _ hf), ?_⟩
    intro s mine r others same
    obtain ⟨n, hn, rfl⟩ := List.mem_map.1 mine
    obtain ⟨m, hm, rfl⟩ := List.mem_map.1 others
    have ends := last_lt_first h h' ordered hn hm
    rw [← same] at ends
    exact absurd (h.span_inside ordered.left.right hn).2 ends.not_ge

/-- Where what is within each of the expressions stands in the order of the text, all of it does. -/
theorem inTextOrder (h : Rooms ts es) (ordered : Ordered ts)
    (each : ∀ e ∈ es, InTextOrder e.preorder) : InTextOrder (es.flatMap Expr.preorder) := by
  induction h with
  | nil => exact .nil
  | @cons gap ts us e es h h' ih =>
    refine List.pairwise_append.2 ⟨each e List.mem_cons_self,
      ih ordered.right fun f hf => each f (.tail _ hf), fun n hn m hm => .inr ?_⟩
    exact last_lt_first h h' ordered hn hm

end Rooms

/-- All expressions within one have spans of their own. -/
theorem Expr.Sits.nodup {ts : List Token} {e : Expr} (h : e.Sits ts) (ordered : Ordered ts) :
    (e.preorder.map span).Nodup := by
  rw [preorder_eq, List.map_cons, List.nodup_cons]
  refine ⟨fun again => ?_, h.rooms.nodup ordered fun p hp => ?_⟩
  · obtain ⟨n, hn, same⟩ := List.mem_map.1 again
    obtain ⟨p, hp, hn⟩ := List.mem_flatMap.1 hn
    obtain ⟨as, us, bs, rfl, -, sits⟩ := h.part hp
    obtain ⟨inside, other⟩ := h.span_part ordered hp
    have within := (sits.span_inside ordered.left.right hn).1
    exact other (inside.antisymm (same ▸ within))
  · have smaller := sizeOf_lt_of_mem_parts hp
    obtain ⟨as, us, bs, rfl, -, sits⟩ := h.part hp
    exact sits.nodup ordered.left.right
termination_by sizeOf e

/-- An expression stands in front of all that is within it. -/
theorem Expr.Sits.inTextOrder {ts : List Token} {e : Expr} (h : e.Sits ts) (ordered : Ordered ts) :
    InTextOrder e.preorder := by
  rw [preorder_eq]
  refine List.pairwise_cons.2 ⟨fun n hn => .inl ?_, h.rooms.inTextOrder ordered fun p hp => ?_⟩
  · exact (h.span_inside ordered (preorder_eq e ▸ List.mem_cons_of_mem e hn)).1
  · have smaller := sizeOf_lt_of_mem_parts hp
    obtain ⟨as, us, bs, rfl, -, sits⟩ := h.part hp
    exact sits.inTextOrder ordered.left.right
termination_by sizeOf e

end PathTyping
