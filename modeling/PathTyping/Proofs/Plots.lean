import PathTyping.Proofs.Filing

/-!
# Functions stand apart

Each instruction of a function comes from a span of its text.  The tokens of one function stand
behind those of another, so what starts in one starts in no other, even where several share a line
or a string runs over the end of its own.

1. `Stmt.sources` lists the spans that the code of a statement can come from; instructions come from
   these, and so does the reason why there is no code (`FunctionDecl.toCode_from`).
2. The readers of statements keep all of them on the tokens that they use up (`block_starts`), and
   the span of a function runs over its tokens (`function_stands`).
3. The functions of a module stand one behind the other (`items_plots`), and methods are filed in
   that order (`SymbolTable.sublist_decls`).
4. `SymbolTable.covers_source`: what a method comes from starts in it, and in no other.
-/

namespace PathTyping

/-! ## Spans that code comes from -/

def Expr.sources (e : Expr) : List Span := e.preorder.map Expr.span

namespace Expr

variable {e p : Expr}

theorem mem_sources (e : Expr) : e.span ∈ e.sources := List.mem_map_of_mem e.mem_preorder_self

theorem sources_part (h : p ∈ e.parts) : p.sources ⊆ e.sources :=
  List.map_subset _ fun _ hn => mem_preorder.2 (.inr ⟨p, h, hn⟩)

end Expr

namespace Stmt

mutual

/-- The spans that the code of a statement can come from. -/
def sources : Stmt → List Span
  | var s _ e => s :: e.sources
  | cond s c a b =>
    s :: (c.sources ++ blockSources a ++
      (match b with
        | some b => blockSources b
        | none => []))
  | loop s c b => s :: (c.sources ++ blockSources b)
  | ret s (some e) => s :: e.sources
  | ret s none => [s]
  | expr e => e.sources
termination_by structural s => s

def blockSources : List Stmt → List Span
  | [] => []
  | s :: rest => sources s ++ blockSources rest
termination_by structural b => b

end

end Stmt

def FunctionDecl.sources (f : FunctionDecl) : List Span := f.span :: Stmt.blockSources f.body

/-- Each of the steps comes from one of the spans. -/
def From (spans : List Span) (steps : List Step) : Prop := ∀ step ∈ steps, step.span ∈ spans

section From

variable {spans others : List Span} {xs ys : List Step} {s : Span}

theorem From.append (h : From spans xs) (h' : From spans ys) : From spans (xs ++ ys) :=
  List.forall_mem_append.2 ⟨h, h'⟩

theorem From.snoc (h : From spans xs) (hs : s ∈ spans) (instr : Instr) :
    From spans (xs ++ [⟨instr, s⟩]) := h.append (List.forall_mem_singleton.2 hs)

theorem From.mono (h : From spans xs) (sub : spans ⊆ others) : From others xs :=
  fun step hs => sub (h step hs)

end From

/-- The code comes from the spans, or else the reason why there is none does. -/
structure LowersFrom {α : Type} (spans : List Span) (steps : α → List Step)
    (x : Except LowerError α) : Prop where
  ok : ∀ v, x = .ok v → From spans (steps v)
  error : ∀ e, x = .error e → e.span ∈ spans

section LowersFrom

variable {α β : Type} {spans others : List Span} {steps : α → List Step} {steps' : β → List Step}

theorem lowersFrom_ok {v : α} (h : From spans (steps v)) : LowersFrom spans steps (.ok v) where
  ok := by rintro _ ⟨⟩; exact h
  error := nofun

theorem LowersFrom.mono {x : Except LowerError α} (h : LowersFrom spans steps x)
    (sub : spans ⊆ others) : LowersFrom others steps x where
  ok v lowered := (h.ok v lowered).mono sub
  error e failed := sub (h.error e failed)

theorem lowersFrom_bind {x : Except LowerError α} {f : α → Except LowerError β}
    (hx : LowersFrom spans steps x)
    (hf : ∀ v, From spans (steps v) → LowersFrom spans steps' (f v)) :
    LowersFrom spans steps' (x >>= f) := by
  cases x with
  | error e => exact ⟨nofun, fun e' failed => by cases failed; exact hx.error e rfl⟩
  | ok v => exact hf v (hx.ok v rfl)

end LowersFrom

namespace Expr

mutual

theorem lower_from (used : Nat) :
    ∀ e : Expr, LowersFrom e.sources (fun x => x.code.steps) (e.lower used)
  | literal _ _ | name _ _ | self _ =>
    lowersFrom_ok (From.snoc (List.forall_mem_nil _) List.mem_cons_self _)
  | unary s op e => by
    rw [lower]
    refine lowersFrom_bind ((lower_from used e).mono (sources_part ?_)) fun x hx => ?_
    · exact List.mem_singleton_self e
    · exact lowersFrom_ok (hx.snoc (mem_sources _) _)
  | binary s op l r => by
    rw [lower]
    refine lowersFrom_bind ((lower_from used l).mono (sources_part ?_)) fun x hx => ?_
    · exact List.mem_cons_self
    refine lowersFrom_bind ((lower_from _ r).mono (sources_part ?_)) fun y hy => ?_
    · exact List.mem_cons_of_mem _ List.mem_cons_self
    · exact lowersFrom_ok ((hx.append hy).snoc (mem_sources _) _)
  | assign s t v => by
    have target : t.span ∈ (assign s t v).sources :=
      sources_part List.mem_cons_self (mem_sources t)
    cases t with
    | name r n =>
      rw [lower]
      refine lowersFrom_bind ((lower_from used v).mono (sources_part ?_)) fun x hx => ?_
      · exact List.mem_cons_of_mem _ List.mem_cons_self
      · exact lowersFrom_ok (hx.snoc (mem_sources _) _)
    | _ => exact ⟨nofun, fun e failed => by cases failed; exact target⟩
  | call s f args => by
    rw [lower]
    refine lowersFrom_bind ((lower_from used f).mono (sources_part ?_)) fun x hx => ?_
    · exact List.mem_cons_self
    refine lowersFrom_bind ((lowerList_from _ args).mono ?_) fun (code, values) hy => ?_
    · intro s hs
      obtain ⟨p, hp, hs⟩ := List.mem_flatMap.1 hs
      exact sources_part (List.mem_cons_of_mem _ hp) hs
    · exact lowersFrom_ok ((hx.append hy).snoc (mem_sources _) _)
  | member s o n ns => by
    rw [lower]
    refine lowersFrom_bind ((lower_from used o).mono (sources_part ?_)) fun x hx => ?_
    · exact List.mem_singleton_self o
    · exact lowersFrom_ok (hx.snoc (mem_sources _) _)
  | index s o i => by
    rw [lower]
    refine lowersFrom_bind ((lower_from used o).mono (sources_part ?_)) fun x hx => ?_
    · exact List.mem_cons_self
    refine lowersFrom_bind ((lower_from _ i).mono (sources_part ?_)) fun y hy => ?_
    · exact List.mem_cons_of_mem _ List.mem_cons_self
    · exact lowersFrom_ok ((hx.append hy).snoc (mem_sources _) _)
  | group s e => by
    rw [lower]
    refine lowersFrom_bind ((lower_from used e).mono (sources_part ?_)) fun x hx => ?_
    · exact List.mem_singleton_self e
    · exact lowersFrom_ok hx

theorem lowerList_from (used : Nat) :
    ∀ es : List Expr, LowersFrom (es.flatMap sources) (fun p => p.1.steps) (lowerList used es)
  | [] => lowersFrom_ok nofun
  | e :: rest => by
    rw [lowerList, List.flatMap_cons]
    refine lowersFrom_bind ((lower_from used e).mono (List.subset_append_left _ _)) fun x hx => ?_
    refine lowersFrom_bind ((lowerList_from _ rest).mono (List.subset_append_right _ _))
      fun (code, values) hy => ?_
    exact lowersFrom_ok (hx.append hy)

end

end Expr

namespace Stmt

theorem from_returnNil {spans : List Span} {f : Fragment} {s : Span} (h : From spans f.steps)
    (hs : s ∈ spans) : From spans (returnNil f s).steps := (h.snoc hs _).snoc hs _

mutual

theorem lower_from (base used : Nat) :
    ∀ s : Stmt, LowersFrom s.sources Fragment.steps (s.lower base used)
  | var s n e => by
    rw [lower]
    refine lowersFrom_bind ((e.lower_from used).mono (List.subset_cons_self _ _)) fun x hx => ?_
    exact lowersFrom_ok (hx.snoc List.mem_cons_self _)
  | cond s c a none => by
    rw [lower, sources]
    refine lowersFrom_bind ((c.lower_from used).mono fun _ hr => by simp [hr]) fun x hx => ?_
    refine lowersFrom_bind ((lowerBlock_from _ _ a).mono fun _ hr => by simp [hr]) fun y hy => ?_
    exact lowersFrom_ok ((hx.snoc (by simp [c.mem_sources]) _).append hy)
  | cond s c a (some b) => by
    rw [lower, sources]
    refine lowersFrom_bind ((c.lower_from used).mono fun _ hr => by simp [hr]) fun x hx => ?_
    refine lowersFrom_bind ((lowerBlock_from _ _ a).mono fun _ hr => by simp [hr]) fun y hy => ?_
    refine lowersFrom_bind ((lowerBlock_from _ _ b).mono fun _ hr => by simp [hr]) fun z hz => ?_
    have jump := hx.snoc (s := c.span) (by simp [c.mem_sources])
    exact lowersFrom_ok (((jump _).append (hy.snoc List.mem_cons_self _)).append hz)
  | loop s c b => by
    rw [lower, sources]
    refine lowersFrom_bind ((c.lower_from used).mono fun _ hr => by simp [hr]) fun x hx => ?_
    refine lowersFrom_bind ((lowerBlock_from _ _ b).mono fun _ hr => by simp [hr]) fun y hy => ?_
    have jump := hx.snoc (s := c.span) (by simp [c.mem_sources])
    exact lowersFrom_ok (((jump _).append hy).snoc List.mem_cons_self _)
  | ret s (some e) => by
    rw [lower]
    refine lowersFrom_bind ((e.lower_from used).mono (List.subset_cons_self _ _)) fun x hx => ?_
    exact lowersFrom_ok (hx.snoc List.mem_cons_self _)
  | ret s none => lowersFrom_ok (from_returnNil (f := .start used) nofun List.mem_cons_self)
  | expr e => by
    rw [lower]
    exact lowersFrom_bind (e.lower_from used) fun x hx => lowersFrom_ok hx

theorem lowerBlock_from (base used : Nat) :
    ∀ b : List Stmt, LowersFrom (blockSources b) Fragment.steps (lowerBlock base used b)
  | [] => lowersFrom_ok nofun
  | s :: rest => by
    rw [lowerBlock, blockSources]
    refine lowersFrom_bind ((lower_from base used s).mono (List.subset_append_left _ _))
      fun x hx => ?_
    refine lowersFrom_bind ((lowerBlock_from _ _ rest).mono (List.subset_append_right _ _))
      fun y hy => ?_
    exact lowersFrom_ok (hx.append hy)

end

end Stmt

theorem FunctionDecl.toCode_from (f : FunctionDecl) :
    LowersFrom f.sources Code.steps f.toCode := by
  have body := (Stmt.lowerBlock_from 0 0 f.body).mono (List.subset_cons_self f.span _)
  refine lowersFrom_bind body fun x hx => lowersFrom_ok ?_
  change From _ (if x.isClosed then x else Stmt.returnNil x f.span).steps
  split
  · exact hx
  · exact Stmt.from_returnNil hx List.mem_cons_self

/-! ## Spans that start among tokens -/

/-- The span starts where one of the tokens does. -/
def Span.StartsIn (s : Span) (ts : List Token) : Prop :=
  ∃ t ∈ ts, s.line = t.place.line ∧ s.column = t.place.column

namespace Span

variable {s r : Span} {ts us : List Token}

theorem StartsIn.mono (h : s.StartsIn ts) (sub : ts ⊆ us) : s.StartsIn us := by
  obtain ⟨t, ht, here⟩ := h
  exact ⟨t, sub ht, here⟩

/-- What covers two spans starts where one of them does. -/
theorem StartsIn.cover (h : s.StartsIn ts) (h' : r.StartsIn ts) : (s.cover r).StartsIn ts := by
  unfold Span.cover
  split
  · exact h'
  · split
    · exact h
    · dsimp only
      split
      · exact h
      · exact h'

theorem Runs.startsIn (h : s.Runs ts) : s.StartsIn ts := by
  obtain ⟨t, u, first, -, rfl⟩ := h
  exact ⟨t, List.mem_of_mem_head? first, rfl, rfl⟩

end Span

/-- In a row of tokens, all of the spans start among the tokens. -/
def Starts (ts : List Token) (spans : List Span) : Prop :=
  Ordered ts → ∀ s ∈ spans, s.StartsIn ts

/-- The span of a function runs over the tokens, and what its code comes from starts among them. -/
structure FunctionDecl.Stands (ts : List Token) (f : FunctionDecl) : Prop where
  runs : Ordered ts → f.span.Runs ts
  starts : Starts ts f.sources

/-- The functions stand on some of the tokens, one behind the other. -/
def Plots (ts : List Token) (fs : List FunctionDecl) : Prop :=
  ∃ tss, List.Forall₂ FunctionDecl.Stands tss fs ∧ tss.flatten.Sublist ts

/-- What is collected on tokens, and on those behind them, is collected on all of them. -/
structure Collects {α : Type} (P : List Token → List α → Prop) : Prop where
  nothing : ∀ ts, P ts []
  append : ∀ {ts us xs ys}, P ts xs → P us ys → P (ts ++ us) (xs ++ ys)

namespace Collects

variable {α : Type} {P : List Token → List α → Prop} {xs ys : List α} {c d e : Cursor}

theorem left (collects : Collects P) (left : d.rest <:+ c.rest) : c.Passes d (P · []) := by
  obtain ⟨used, rest⟩ := left
  exact ⟨used, rest.symm, collects.nothing used⟩

theorem trans (collects : Collects P) (h : c.Passes d (P · xs)) (h' : d.Passes e (P · ys)) :
    c.Passes e (P · (xs ++ ys)) := by
  obtain ⟨used, rest, mine⟩ := h
  obtain ⟨used', rest', others⟩ := h'
  exact ⟨used ++ used', by rw [rest, rest', List.append_assoc], collects.append mine others⟩

theorem ahead (collects : Collects P) (left : d.rest <:+ c.rest) (h : d.Passes e (P · xs)) :
    c.Passes e (P · xs) := collects.trans (collects.left left) h

theorem behind (collects : Collects P) (h : c.Passes d (P · xs)) (left : e.rest <:+ d.rest) :
    c.Passes e (P · xs) := by
  simpa using collects.trans h (collects.left left)

end Collects

theorem collects_starts : Collects Starts where
  nothing _ _ := nofun
  append h h' ordered s hs := by
    rcases List.mem_append.1 hs with mine | others
    · exact (h ordered.left s mine).mono (List.subset_append_left _ _)
    · exact (h' ordered.right s others).mono (List.subset_append_right _ _)

theorem collects_plots : Collects Plots where
  nothing _ := ⟨[], .nil, List.nil_sublist _⟩
  append h h' := by
    obtain ⟨tss, stand, inside⟩ := h
    obtain ⟨uss, stand', inside'⟩ := h'
    refine ⟨tss ++ uss, List.rel_append stand stand', ?_⟩
    rw [List.flatten_append]
    exact inside.append inside'

namespace Cursor

variable {c d : Cursor} {spans others : List Span} {s r : Span} {t : Token}

theorem Passes.imp {P Q : List Token → Prop} (h : c.Passes d P) (sub : ∀ ts, P ts → Q ts) :
    c.Passes d Q := by
  obtain ⟨used, rest, holds⟩ := h
  exact ⟨used, rest, sub used holds⟩

theorem starts_of_rest (rest : c.rest = t :: d.rest) : c.Passes d (Starts · [t.span]) :=
  ⟨[t], rest, fun _ _ hs => ⟨t, List.mem_singleton_self t, by cases List.mem_singleton.1 hs; simp⟩⟩

theorem starts_subset (h : c.Passes d (Starts · spans)) (sub : others ⊆ spans) :
    c.Passes d (Starts · others) := h.imp fun _ starts ordered s hs => starts ordered s (sub hs)

/-- A span that covers two of those that are collected is collected as well. -/
theorem starts_cover (h : c.Passes d (Starts · spans)) (hs : s ∈ spans) (hr : r ∈ spans) :
    c.Passes d (Starts · (s.cover r :: spans)) := h.imp fun _ starts ordered =>
  List.forall_mem_cons.2 ⟨(starts ordered s hs).cover (starts ordered r hr), starts ordered⟩

end Cursor

/-! ## Readers -/

namespace Reading

open Cursor

theorem expression_starts (level : Nat) (c : Cursor) :
    Brings (expression level c) fun e next => c.Passes next (Starts · e.sources) := by
  rintro ⟨e, next, bound⟩ read
  refine ((expression_sits level c).holds read).imp fun ts sits ordered s hs => ?_
  obtain ⟨n, hn, rfl⟩ := List.mem_map.1 hs
  obtain ⟨us, inner, sits⟩ := sits.inner hn
  exact (sits.runs (ordered.within inner)).startsIn.mono inner.subset

mutual

/-- The brace that closes a block is among the spans. -/
theorem block_starts (c : Cursor) :
    Brings (block c) fun b next => c.Passes next (Starts · (b.2 :: Stmt.blockSources b.1)) := by
  rw [block]
  refine brings_bind fun ⟨t, c₁, h₁⟩ read => brings_bind fun ⟨b, c₂, h₂⟩ read' => brings_ok ?_
  exact collects_starts.ahead ((expectMark_reads _ _ _).left read)
    ((statements_starts c₁).holds read')
termination_by 4 * c.size
decreasing_by all_goals dsimp only at *; omega

theorem statements_starts (c : Cursor) :
    Brings (statements c) fun b next =>
      c.Passes next (Starts · (b.2 :: Stmt.blockSources b.1)) := by
  rw [statements]
  have hs := c.size_skipSeparators_le
  split
  · exact brings_error
  · next t c₁ h₁ popped =>
    split
    · exact brings_ok (collects_starts.ahead c.left_skipSeparators
        (starts_of_rest (rest_of_pop? popped)))
    · refine brings_bind fun ⟨s, c₂, h₂⟩ read => ?_
      refine brings_bind fun ⟨⟨others, close⟩, c₃, h₃⟩ read' => brings_ok ?_
      have first := collects_starts.ahead c.left_skipSeparators ((statement_starts _).holds read)
      refine starts_subset (collects_starts.trans first ((statements_starts c₂).holds read')) ?_
      exact (@List.perm_middle _ _ s.sources _).symm.subset
termination_by 4 * c.size + 1
decreasing_by all_goals dsimp only at *; omega

theorem statement_starts (c : Cursor) :
    Brings (statement c) fun s next => c.Passes next (Starts · s.sources) := by
  rw [statement]
  split
  · exact brings_error
  · next t c₁ h₁ popped =>
    have left := left_pop? popped
    have first := starts_of_rest (rest_of_pop? popped)
    split
    · refine brings_bind fun ⟨name, c₂, h₂⟩ read => brings_bind fun ⟨_, c₃, h₃⟩ read' => ?_
      dsimp only
      refine brings_bind fun ⟨value, c₄, h₄⟩ read'' => brings_bind fun ⟨c₅, h₅⟩ ended => ?_
      have name := collects_starts.ahead left (starts_of_rest (rest_of_expect read).1)
      have value := collects_starts.ahead ((expectMark_reads _ _ _).left read')
        ((expression_starts 0 c₃).holds read'')
      exact brings_ok (collects_starts.behind (collects_starts.trans name value)
        (left_statementEnd ended))
    · refine brings_bind fun ⟨⟨s, close⟩, c₂, h₂⟩ read => brings_ok ?_
      refine starts_subset ((conditional_starts t c₁).holds read c (rest_of_pop? popped)) ?_
      exact List.subset_cons_self _ _
    · refine brings_bind fun ⟨condition, c₂, h₂⟩ read => ?_
      dsimp only
      refine brings_bind fun ⟨⟨body, close⟩, c₃, h₃⟩ read' => brings_ok ?_
      have front := collects_starts.trans first ((expression_starts 0 c₁).holds read)
      have whole := collects_starts.trans front ((block_starts c₂).holds read')
      refine starts_subset (starts_cover (s := t.span) (r := close) whole (by simp) (by simp)) ?_
      intro r hr
      rcases List.mem_cons.1 hr with rfl | hr
      · exact List.mem_cons_self
      · rcases List.mem_append.1 hr with hr | hr <;> simp [hr]
    · split
      · refine brings_bind fun ⟨c₂, h₂⟩ ended => brings_ok ?_
        exact collects_starts.behind first (left_statementEnd ended)
      · refine brings_bind fun ⟨value, c₂, h₂⟩ read => brings_bind fun ⟨c₃, h₃⟩ ended => ?_
        have whole := collects_starts.trans first ((expression_starts 0 c₁).holds read)
        have cover := starts_cover (s := t.span) (r := value.span) whole (by simp)
          (List.mem_append_right _ value.mem_sources)
        refine brings_ok (collects_starts.behind (starts_subset cover ?_) (left_statementEnd ended))
        exact List.cons_subset_cons _ (List.subset_append_right _ _)
    · refine brings_bind fun ⟨e, c₂, h₂⟩ read => brings_bind fun ⟨c₃, h₃⟩ ended => brings_ok ?_
      exact collects_starts.behind ((expression_starts 0 c).holds read) (left_statementEnd ended)
termination_by 4 * c.size
decreasing_by all_goals dsimp only at *; omega

/-- From the `if` on, which is read first. -/
theorem conditional_starts (t : Token) (c : Cursor) :
    Brings (conditional t.span c) fun s next =>
      ∀ front : Cursor, front.rest = t :: c.rest →
        front.Passes next (Starts · (s.2 :: s.1.sources)) := by
  rw [conditional]
  refine brings_bind fun ⟨condition, c₁, h₁⟩ read => ?_
  dsimp only
  refine brings_bind fun ⟨⟨consequent, close⟩, c₂, h₂⟩ read' => ?_
  have hs := c₂.size_skipNewlines_le
  have inner := collects_starts.trans ((expression_starts 0 c).holds read)
    ((block_starts c₁).holds read')
  have whole (front : Cursor) (rest : front.rest = t :: c.rest) :=
    starts_cover (s := t.span) (r := close) (collects_starts.trans (starts_of_rest rest) inner)
      (by simp) (by simp)
  dsimp only
  split
  · refine brings_ok fun front rest => starts_subset (whole front rest) ?_
    intro r hr
    simp only [Stmt.sources, List.append_nil, List.mem_cons, List.mem_append] at hr ⊢
    tauto
  · next t' c₃ h₃ otherwise =>
    have left := (left_read? otherwise).trans c₂.left_skipNewlines
    split
    · next t'' c₄ h₄ again =>
      refine brings_bind fun ⟨⟨nested, nestedSpan⟩, c₅, h₅⟩ read'' => brings_ok fun front rest => ?_
      have other := collects_starts.ahead left
        ((conditional_starts t'' c₄).holds read'' c₃ (rest_of_read? again).1)
      have all := collects_starts.trans (whole front rest) other
      refine starts_subset
        (starts_cover (s := t.span.cover close) (r := nestedSpan) all (by simp) (by simp)) ?_
      intro r hr
      simp only [Stmt.sources, Stmt.blockSources, List.mem_cons, List.mem_append,
        List.not_mem_nil, or_false] at hr ⊢
      tauto
    · refine brings_bind fun ⟨⟨alternative, close'⟩, c₄, h₄⟩ read'' =>
        brings_ok fun front rest => ?_
      have other := collects_starts.ahead left ((block_starts c₃).holds read'')
      have all := collects_starts.trans (whole front rest) other
      refine starts_subset
        (starts_cover (s := t.span.cover close) (r := close') all (by simp) (by simp)) ?_
      intro r hr
      simp only [Stmt.sources, List.mem_cons, List.mem_append] at hr ⊢
      tauto
termination_by 4 * c.size
decreasing_by all_goals dsimp only at *; omega

end

/-! ### Declarations -/

/-- The span is that of the last token between two cursors. -/
def Closes (c next : Cursor) (s : Span) : Prop :=
  ∃ front t, c.rest = front ++ t :: next.rest ∧ s = t.span

theorem Closes.ahead {c d next : Cursor} {s : Span} (left : d.rest <:+ c.rest)
    (h : Closes d next s) : Closes c next s := by
  obtain ⟨before, rest⟩ := left
  obtain ⟨front, t, rest', same⟩ := h
  exact ⟨before ++ front, t, by rw [← rest, rest', List.append_assoc], same⟩

theorem statements_closes (c : Cursor) :
    Brings (statements c) fun b next => Closes c next b.2 := by
  rw [statements]
  have hs := c.size_skipSeparators_le
  split
  · exact brings_error
  · next t c₁ h₁ popped =>
    split
    · exact brings_ok (Closes.ahead c.left_skipSeparators ⟨[], t, rest_of_pop? popped, rfl⟩)
    · refine brings_bind fun ⟨s, c₂, h₂⟩ read => ?_
      refine brings_bind fun ⟨⟨others, close⟩, c₃, h₃⟩ read' => brings_ok ?_
      have left := Passes.left ((statement_lists _).holds read)
      exact ((statements_closes c₂).holds read').ahead (left.trans c.left_skipSeparators)
termination_by c.size
decreasing_by all_goals omega

theorem block_closes (c : Cursor) : Brings (block c) fun b next => Closes c next b.2 := by
  rw [block]
  refine brings_bind fun ⟨t, c₁, h₁⟩ read => brings_bind fun ⟨b, c₂, h₂⟩ read' => brings_ok ?_
  exact ((statements_closes c₁).holds read').ahead ((expectMark_reads _ _ _).left read)

/-- A function stands on the tokens from its `fn` to the brace that closes its body. -/
theorem function_stands (t : Token) (c : Cursor) :
    Brings (function t.span c) fun f next =>
      ∀ front : Cursor, front.rest = t :: c.rest → front.Passes next f.Stands := by
  unfold function
  refine brings_bind fun ⟨name, c₁, h₁⟩ read => brings_bind fun ⟨_, c₂, h₂⟩ read₂ => ?_
  refine brings_bind fun ⟨parameters, c₃, h₃⟩ read₃ => ?_
  refine brings_bind fun ⟨returns, c₄, h₄⟩ read₄ => ?_
  refine brings_bind fun ⟨⟨body, close⟩, c₅, h₅⟩ read₅ => brings_ok fun front rest => ?_
  have left₂ := ((expectMark_reads _ _ _).left read₂).trans ((expectName_reads _ _).left read)
  have left₃ := (Passes.left ((parameters_lists c₂).holds read₃)).trans left₂
  obtain ⟨before, header⟩ := ((typeBehind?_reads _ c₃).left read₄).trans left₃
  obtain ⟨used, rest', starts⟩ := (block_starts c₄).holds read₅
  obtain ⟨inner, u, rest'', rfl⟩ := (block_closes c₄).holds read₅
  obtain rfl : used = inner ++ [u] :=
    List.append_cancel_right (rest'.symm.trans (by rw [rest'', List.append_assoc]; rfl))
  have runs (ordered : Ordered ([t] ++ (before ++ inner) ++ [u])) :
      (t.span.cover u.span).Runs ([t] ++ (before ++ inner) ++ [u]) :=
    Span.Runs.cover _ (.token t) (.token u) ordered
  refine ⟨[t] ++ (before ++ inner) ++ [u], ?_, runs, fun ordered s hs => ?_⟩
  · rw [rest, ← header, rest'']
    simp
  · have inside : inner ++ [u] <:+ [t] ++ (before ++ inner) ++ [u] := ⟨[t] ++ before, by simp⟩
    rcases List.mem_cons.1 hs with rfl | hs
    · exact (runs ordered).startsIn
    · exact (starts (ordered.within inside.isInfix) s (List.mem_cons_of_mem _ hs)).mono
        inside.subset

theorem function_plots (t : Token) (c : Cursor) :
    Brings (function t.span c) fun f next =>
      ∀ front : Cursor, front.rest = t :: c.rest → front.Passes next (Plots · [f]) := by
  rintro ⟨f, next, bound⟩ read front rest
  refine ((function_stands t c).holds read front rest).imp fun ts stands => ?_
  exact ⟨[ts], .cons stands .nil, by simp⟩

theorem classBody_plots (c : Cursor) :
    Brings (classBody c) fun body next => c.Passes next (Plots · body.2) := by
  rw [classBody]
  have hs := c.size_skipSeparators_le
  split
  · exact brings_error
  · next t c₁ h₁ popped =>
    have left := (left_pop? popped).trans c.left_skipSeparators
    split
    · exact brings_ok (collects_plots.left left)
    · split
      · refine brings_bind ?_
        rintro ⟨f, c₂, h₂⟩ read
        dsimp only
        refine brings_bind ?_
        rintro ⟨⟨fields, methods⟩, c₃, h₃⟩ read'
        refine brings_ok ?_
        have left₂ := (Passes.left ((field_lists c₁).holds read)).trans left
        have rest := (classBody_plots c₂).holds read'
        exact collects_plots.ahead left₂ rest
      · split
        · refine brings_bind ?_
          rintro ⟨f, c₂, h₂⟩ read
          dsimp only
          refine brings_bind ?_
          rintro ⟨⟨fields, methods⟩, c₃, h₃⟩ read'
          refine brings_ok ?_
          have first := collects_plots.ahead c.left_skipSeparators
            ((function_plots t c₁).holds read _ (rest_of_pop? popped))
          have rest := (classBody_plots c₂).holds read'
          exact collects_plots.trans first rest
        · exact brings_error
termination_by c.size
decreasing_by all_goals omega

theorem item_plots (c : Cursor) :
    Brings (item c) fun i next => c.Passes next (Plots · i.functions) := by
  unfold item
  split
  · exact brings_error
  · next t c₁ h₁ popped =>
    have left := left_pop? popped
    split
    · refine brings_bind fun ⟨f, c₂, h₂⟩ read => brings_ok ?_
      exact (function_plots t c₁).holds read c (rest_of_pop? popped)
    · unfold classDecl
      refine brings_bind fun ⟨d, c₂, h₂⟩ whole => brings_ok ?_
      obtain ⟨⟨name, c₃, h₃⟩, read, whole⟩ := bind_eq_ok whole
      obtain ⟨⟨_, c₄, h₄⟩, read₄, whole⟩ := bind_eq_ok whole
      obtain ⟨⟨⟨fields, methods⟩, c₅, h₅⟩, read₅, whole⟩ := bind_eq_ok whole
      cases whole
      have left₄ := ((expectMark_reads _ _ _).left read₄).trans ((expectName_reads _ _).left read)
      exact collects_plots.ahead (left₄.trans left) ((classBody_plots c₄).holds read₅)
    · refine brings_bind fun ⟨g, c₂, h₂⟩ read => brings_ok (collects_plots.left ?_)
      exact (Passes.left ((global_lists _ c₁).holds read)).trans left
    · refine brings_bind fun ⟨g, c₂, h₂⟩ read => brings_ok (collects_plots.left ?_)
      exact (Passes.left ((global_lists _ c₁).holds read)).trans left
    · exact brings_error

/-- The functions of the items stand on the tokens to come. -/
theorem items_plots (c : Cursor) {found : List Item} {report : Report}
    (h : items c = .ok (found, report)) : Plots c.rest (found.flatMap Item.functions) := by
  rw [items] at h
  have hs := c.size_skipSeparators_le
  split at h
  · cases h
    exact collects_plots.nothing _
  · obtain ⟨⟨i, c₁, h₁⟩, read, h⟩ := bind_eq_ok h
    obtain ⟨⟨others, report'⟩, read', h⟩ := bind_eq_ok h
    cases h
    obtain ⟨used, rest, plots⟩ :=
      collects_plots.ahead c.left_skipSeparators ((item_plots _).holds read)
    rw [rest]
    exact collects_plots.append plots (items_plots c₁ read')
termination_by c.size
decreasing_by all_goals omega

end Reading

/-! ## Apart -/

namespace Span

variable {s : Span} {ts us : List Token}

theorem contains_iff {line column : Nat} : s.contains line column = true ↔
    s.first ≤ toLex (line, column) ∧ toLex (line, column) ≤ s.last := by
  simp only [contains, first, last, Prod.Lex.toLex_le_toLex, Bool.and_eq_true, Bool.or_eq_true,
    decide_eq_true_eq, beq_iff_eq, eq_comm (a := s.line) (b := line)]

/-- Where the span starts. -/
theorem StartsIn.exists_first (h : s.StartsIn ts) : ∃ t ∈ ts, s.first = t.span.first := by
  obtain ⟨t, ht, line, column⟩ := h
  exact ⟨t, ht, congrArg toLex (Prod.ext line column)⟩

theorem StartsIn.present (h : s.StartsIn ts) (ordered : Ordered ts) : s.isAbsent = false := by
  obtain ⟨t, ht, line, -⟩ := h
  have there := ordered.present t ht
  rwa [isAbsent, line]

end Span

namespace FunctionDecl

variable {f g : FunctionDecl} {ts us : List Token} {s : Span}

/-- The code that stands at `s` starts in the function. -/
def Covers (f : FunctionDecl) (s : Span) : Prop := f.span.contains s.line s.column = true

theorem covers_iff : f.Covers s ↔ f.span.first ≤ s.first ∧ s.first ≤ f.span.last :=
  Span.contains_iff

theorem Stands.covers (h : f.Stands ts) (ordered : Ordered ts) (hs : s ∈ f.sources) :
    f.Covers s := by
  obtain ⟨t, ht, first⟩ := (h.starts ordered s hs).exists_first
  have inside := (h.runs ordered).inside_of_mem ordered ht
  rw [covers_iff, first]
  exact ⟨inside.first, t.first_le_last.trans inside.last⟩

/-- What starts in one of two functions does not start in the other. -/
def Apart (f g : FunctionDecl) : Prop :=
  (∀ s ∈ f.sources, ¬ g.Covers s) ∧ ∀ s ∈ g.sources, ¬ f.Covers s

theorem Stands.apart (h : f.Stands ts) (h' : g.Stands us) (ordered : Ordered (ts ++ us)) :
    f.Apart g := by
  have runs := h.runs ordered.left
  have runs' := h'.runs ordered.right
  have before := runs.before runs' ordered
  refine ⟨fun s hs inside => ?_, fun s hs inside => ?_⟩
  · exact before.not_ge ((covers_iff.1 inside).1.trans (covers_iff.1 (h.covers ordered.left hs)).2)
  · have starts := (covers_iff.1 (h'.covers ordered.right hs)).1
    exact before.not_ge (starts.trans (covers_iff.1 inside).2)

end FunctionDecl

theorem Ordered.sublist {ts us : List Token} (h : Ordered us) (inside : ts.Sublist us) :
    Ordered ts := ⟨fun t ht => h.present t (inside.subset ht), h.behind.sublist inside⟩

/-- Functions that stand one behind the other hold what they come from, each for itself. -/
theorem Plots.apart {ts : List Token} {fs : List FunctionDecl} (h : Plots ts fs)
    (ordered : Ordered ts) :
    (∀ f ∈ fs, ∀ s ∈ f.sources, s.isAbsent = false ∧ f.Covers s) ∧
      fs.Pairwise FunctionDecl.Apart := by
  obtain ⟨tss, stand, inside⟩ := h
  have ordered := ordered.sublist inside
  clear inside
  induction stand with
  | nil => exact ⟨nofun, .nil⟩
  | @cons ts f tss fs first others ih =>
    obtain ⟨holds, apart⟩ := ih ordered.right
    refine ⟨List.forall_mem_cons.2 ⟨fun s hs => ?_, holds⟩,
      List.pairwise_cons.2 ⟨fun g hg => ?_, apart⟩⟩
    · exact ⟨(first.starts ordered.left s hs).present ordered.left, first.covers ordered.left hs⟩
    · obtain ⟨us, hus, stands⟩ := Filing.exists_of_forall₂_right others hg
      exact first.apart stands
        (ordered.sublist ((List.Sublist.refl ts).append (List.sublist_flatten_of_mem hus)))

/-! ## Methods -/

namespace Filing

/-- The declarations of the methods that are filed. -/
def decls (s : Filing) : List FunctionDecl := s.table.methods.map Method.decl

theorem decls_addMethod (s : Filing) (owner : Option Nat) (f : FunctionDecl) :
    (s.addMethod owner f).decls = s.decls ++ [f] := List.map_append

theorem decls_addField (className : String) (id : Nat) (s : Filing) (f : FieldDecl) :
    (addField className id s f).decls = s.decls := by
  unfold addField
  split <;> rfl

theorem decls_addFields (className : String) (id : Nat) (s : Filing) (fs : List FieldDecl) :
    (fs.foldl (addField className id) s).decls = s.decls := by
  induction fs generalizing s with
  | nil => rfl
  | cons f rest ih => rw [List.foldl_cons, ih, decls_addField]

theorem decls_addClassMethods (className : String) (id : Nat) (s : Filing)
    (fs : List FunctionDecl) :
    (fs.foldl (addClassMethod className id) s).decls = s.decls ++ fs := by
  induction fs generalizing s with
  | nil => exact (List.append_nil _).symm
  | cons f rest ih =>
    have first : (addClassMethod className id s f).decls = s.decls ++ [f] := decls_addMethod _ _ f
    rw [List.foldl_cons, ih, first, List.append_assoc, List.singleton_append]

/-- Filing an item files some of its functions, in their order. -/
theorem decls_addItem (s : Filing) (i : Item) :
    (s.addItem i).decls.Sublist (s.decls ++ i.functions) := by
  have nothing : s.decls.Sublist (s.decls ++ i.functions) := List.sublist_append_left _ _
  cases i with
  | function f =>
    simp only [addItem, addFunction]
    split
    · exact nothing
    · exact nothing
    · exact (decls_addMethod s none f).symm ▸ List.Sublist.refl _
  | class_ c =>
    simp only [addItem, addClass]
    split
    · exact nothing
    · split
      · rw [decls_addClassMethods, decls_addFields]
        exact List.Sublist.refl _
      · exact nothing
  | global g =>
    simp only [addItem, addGlobal]
    split <;> exact nothing

theorem decls_addItems (s : Filing) (is : List Item) :
    (is.foldl addItem s).decls.Sublist (s.decls ++ is.flatMap Item.functions) := by
  induction is generalizing s with
  | nil => exact List.sublist_append_left _ _
  | cons i rest ih =>
    rw [List.flatMap_cons, ← List.append_assoc]
    exact (ih _).trans ((decls_addItem s i).append_right _)

end Filing

theorem SymbolTable.sublist_decls (m : Module) :
    ((SymbolTable.ofModule m).1.methods.map Method.decl).Sublist
      (m.items.flatMap Item.functions) := by
  have named : (m.items.foldl Filing.nameItem .empty).decls = [] := by
    rw [Filing.decls, Filing.named_eq]
    rfl
  have filed := Filing.decls_addItems (m.items.foldl Filing.nameItem .empty) m.items
  rwa [named, List.nil_append] at filed

/-- What the code of a method comes from stands in the text, and it starts in the declaration of
that method and of no other. -/
theorem SymbolTable.covers_source {text : String} {m : Module} {read : Report}
    (parsed : Module.ofText text = .ok (m, read)) {t : SymbolTable}
    (table : (SymbolTable.ofModule m).1 = t) {id : Nat} (has : id < t.methods.length) {s : Span}
    (hs : s ∈ (t.method id).decl.sources) :
    s.isAbsent = false ∧
      ∀ other < t.methods.length, (t.method other).decl.Covers s ↔ other = id := by
  obtain ⟨row, scanned, parsed⟩ := Module.exists_tokens parsed
  obtain ⟨⟨items, report⟩, found, made⟩ := bind_eq_ok parsed
  cases made
  obtain ⟨holds, apart⟩ := (Reading.items_plots _ found).apart (TokenRow.ordered scanned)
  have order := SymbolTable.sublist_decls ⟨items⟩
  rw [table] at order
  have method {k : Nat} (hk : k < t.methods.length) : t.method k = t.methods[k] := by
    rw [SymbolTable.method, List.getElem?_eq_getElem hk, Option.getD_some]
  have apart (j k : Nat) (hj : j < t.methods.length) (hk : k < t.methods.length) (lt : j < k) :
      (t.method j).decl.Apart (t.method k).decl := by
    rw [method hj, method hk]
    exact List.pairwise_iff_getElem.1 (List.pairwise_map.1 (apart.sublist order)) j k hj hk lt
  have listed : (t.method id).decl ∈ t.methods.map Method.decl :=
    List.mem_map_of_mem (method has ▸ List.getElem_mem has)
  obtain ⟨present, covers⟩ := holds (t.method id).decl (order.subset listed) s hs
  refine ⟨present, fun other hother => ⟨fun inside => ?_, fun same => same ▸ covers⟩⟩
  rcases Nat.lt_trichotomy other id with before | same | behind
  · exact absurd inside ((apart other id hother has before).2 s hs)
  · exact same
  · exact absurd inside ((apart id other has hother behind).1 s hs)

end PathTyping
