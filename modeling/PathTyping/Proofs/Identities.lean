import Mathlib.Data.List.Nodup
import PathTyping.Proofs.Lowering
import PathTyping.Proofs.Spans

/-!
# Every expression of a module has a slot of its own name

Code names the slot of an expression by its span.  Spans tell the expressions of a module apart, so
none of these names is overwritten: what is found under a span is what was recorded for the
expression that stands there.

1. `items_holds` goes through the readers of statements and declarations: all expressions of a
   module sit on its tokens, one behind the other.
2. `Module.nodup_expressions`: their spans differ.
3. `Expr.places` lists the expressions of a tree with the slots in use where each is lowered;
   `mem_records_lower` is that these are recorded, and nothing else.
-/

namespace PathTyping

/-! ## Modules -/

/-- The expressions of a function: the defaults of its parameters, and its body's. -/
def FunctionDecl.allExpressions (f : FunctionDecl) : List Expr :=
  (f.parameters.filterMap Parameter.default).flatMap Expr.preorder ++ f.expressions

def ClassDecl.expressions (d : ClassDecl) : List Expr :=
  (d.fields.filterMap FieldDecl.value).flatMap Expr.preorder ++
    d.methods.flatMap FunctionDecl.allExpressions

def Item.expressions : Item → List Expr
  | .function f => f.allExpressions
  | .class_ d => d.expressions
  | .global g => g.value.preorder

/-- All expressions of a module, each before its parts. -/
def Module.expressions (m : Module) : List Expr := m.items.flatMap Item.expressions

/-- The tokens between `c` and `next` hold the expressions and all that is within them, in this
order. -/
def Cursor.Lists (c next : Cursor) (nodes : List Expr) : Prop :=
  c.Passes next fun ts => ∃ es, Rooms ts es ∧ es.flatMap Expr.preorder = nodes

/-- The tokens between `c` and `next` hold the expressions and all that is within them. -/
def Cursor.Holds (c next : Cursor) (nodes : List Expr) : Prop :=
  c.Passes next fun ts => ∃ es, Rooms ts es ∧ (es.flatMap Expr.preorder).Perm nodes

namespace Cursor

variable {c d e : Cursor} {ns ms : List Expr}

theorem lists_left (left : d.rest <:+ c.rest) : c.Lists d [] := by
  obtain ⟨used, rest⟩ := left
  exact ⟨used, rest.symm, [], .nil used, rfl⟩

theorem Lists.trans (h : c.Lists d ns) (h' : d.Lists e ms) : c.Lists e (ns ++ ms) := by
  obtain ⟨used, rest, es, rooms, rfl⟩ := h
  obtain ⟨used', rest', es', rooms', rfl⟩ := h'
  refine ⟨used ++ used', by rw [rest, rest', List.append_assoc], es ++ es', rooms.append rooms', ?_⟩
  exact List.flatMap_append

theorem Lists.ahead (left : d.rest <:+ c.rest) (h : d.Lists e ns) : c.Lists e ns :=
  (lists_left left).trans h

theorem Lists.behind (h : c.Lists d ns) (left : e.rest <:+ d.rest) : c.Lists e ns := by
  simpa using h.trans (lists_left left)

theorem Lists.holds (h : c.Lists d ns) : c.Holds d ns := by
  obtain ⟨used, rest, es, rooms, rfl⟩ := h
  exact ⟨used, rest, es, rooms, .rfl⟩

theorem Holds.trans (h : c.Holds d ns) (h' : d.Holds e ms) : c.Holds e (ns ++ ms) := by
  obtain ⟨used, rest, es, rooms, nodes⟩ := h
  obtain ⟨used', rest', es', rooms', nodes'⟩ := h'
  refine ⟨used ++ used', by rw [rest, rest', List.append_assoc], es ++ es', rooms.append rooms', ?_⟩
  rw [List.flatMap_append]
  exact nodes.append nodes'

theorem Holds.ahead (left : d.rest <:+ c.rest) (h : d.Holds e ns) : c.Holds e ns :=
  (lists_left left).holds.trans h

theorem Holds.perm (h : c.Holds d ns) (same : ns.Perm ms) : c.Holds d ms := by
  obtain ⟨used, rest, es, rooms, nodes⟩ := h
  exact ⟨used, rest, es, rooms, nodes.trans same⟩

end Cursor

namespace Reading

open Cursor

theorem expression_lists (level : Nat) (c : Cursor) :
    Brings (expression level c) fun e next => c.Lists next e.preorder := by
  rintro ⟨e, next, bound⟩ read
  obtain ⟨ts, rest, sits⟩ := (expression_sits level c).holds read
  exact ⟨ts, rest, [e], .one sits, by simp⟩

mutual

theorem block_lists (c : Cursor) :
    Brings (block c) fun b next => c.Lists next (Stmt.blockExpressions b.1) := by
  rw [block]
  refine brings_bind fun ⟨t, c₁, h₁⟩ read => brings_bind fun ⟨b, c₂, h₂⟩ read' => brings_ok ?_
  exact ((statements_lists c₁).holds read').ahead ((expectMark_reads _ _ _).left read)
termination_by 4 * c.size
decreasing_by all_goals dsimp only at *; omega

theorem statements_lists (c : Cursor) :
    Brings (statements c) fun b next => c.Lists next (Stmt.blockExpressions b.1) := by
  rw [statements]
  have hs := c.size_skipSeparators_le
  split
  · exact brings_error
  · next t c₁ h₁ popped =>
    split
    · exact brings_ok (lists_left ((left_pop? popped).trans c.left_skipSeparators))
    · refine brings_bind fun ⟨s, c₂, h₂⟩ read => ?_
      refine brings_bind fun ⟨⟨others, close⟩, c₃, h₃⟩ read' => brings_ok ?_
      have first := ((statement_lists _).holds read).ahead c.left_skipSeparators
      exact first.trans ((statements_lists c₂).holds read')
termination_by 4 * c.size + 1
decreasing_by all_goals dsimp only at *; omega

theorem statement_lists (c : Cursor) :
    Brings (statement c) fun s next => c.Lists next s.expressions := by
  rw [statement]
  split
  · exact brings_error
  · next t c₁ h₁ popped =>
    have left := left_pop? popped
    split
    · refine brings_bind fun ⟨name, c₂, h₂⟩ read => brings_bind fun ⟨_, c₃, h₃⟩ read' => ?_
      dsimp only
      refine brings_bind fun ⟨value, c₄, h₄⟩ read'' => brings_bind fun ⟨c₅, h₅⟩ ended => ?_
      have left₃ := ((expectMark_reads _ _ _).left read').trans ((expectName_reads _ _).left read)
      have value := ((expression_lists 0 c₃).holds read'').ahead (left₃.trans left)
      exact brings_ok (value.behind (left_statementEnd ended))
    · refine brings_bind fun ⟨⟨s, close⟩, c₂, h₂⟩ read => brings_ok ?_
      exact ((conditional_lists _ c₁).holds read).ahead left
    · refine brings_bind fun ⟨condition, c₂, h₂⟩ read => ?_
      dsimp only
      refine brings_bind fun ⟨⟨body, close⟩, c₃, h₃⟩ read' => brings_ok ?_
      have first := ((expression_lists 0 c₁).holds read).ahead left
      exact first.trans ((block_lists c₂).holds read')
    · split
      · refine brings_bind fun ⟨c₂, h₂⟩ ended => brings_ok ?_
        exact lists_left ((left_statementEnd ended).trans left)
      · refine brings_bind fun ⟨value, c₂, h₂⟩ read => brings_bind fun ⟨c₃, h₃⟩ ended => ?_
        have value := ((expression_lists 0 c₁).holds read).ahead left
        exact brings_ok (value.behind (left_statementEnd ended))
    · refine brings_bind fun ⟨e, c₂, h₂⟩ read => brings_bind fun ⟨c₃, h₃⟩ ended => brings_ok ?_
      exact ((expression_lists 0 c).holds read).behind (left_statementEnd ended)
termination_by 4 * c.size
decreasing_by all_goals dsimp only at *; omega

theorem conditional_lists (start : Span) (c : Cursor) :
    Brings (conditional start c) fun s next => c.Lists next s.1.expressions := by
  rw [conditional]
  refine brings_bind fun ⟨condition, c₁, h₁⟩ read => ?_
  dsimp only
  refine brings_bind fun ⟨⟨consequent, close⟩, c₂, h₂⟩ read' => ?_
  have front := ((expression_lists 0 c).holds read).trans ((block_lists c₁).holds read')
  have hs := c₂.size_skipNewlines_le
  dsimp only
  split
  · exact brings_ok (by simpa [Stmt.expressions] using front)
  · next t c₃ h₃ otherwise =>
    have left := (left_read? otherwise).trans c₂.left_skipNewlines
    split
    · next t' c₄ h₄ again =>
      refine brings_bind fun ⟨⟨nested, nestedSpan⟩, c₅, h₅⟩ read'' => brings_ok ?_
      have rest := ((conditional_lists _ c₄).holds read'').ahead ((left_read? again).trans left)
      simpa [Stmt.expressions, Stmt.blockExpressions] using front.trans rest
    · refine brings_bind fun ⟨⟨alternative, close'⟩, c₄, h₄⟩ read'' => brings_ok ?_
      have rest := ((block_lists c₃).holds read'').ahead left
      simpa [Stmt.expressions] using front.trans rest
termination_by 4 * c.size
decreasing_by all_goals dsimp only at *; omega

end

/-! ### Declarations -/

theorem valueBehind?_lists (level : Nat) (c : Cursor) :
    Brings (valueBehind? level c) fun e next => c.Lists next (e.toList.flatMap Expr.preorder) := by
  unfold valueBehind?
  split
  · next t c₁ h₁ found =>
    refine brings_bind fun ⟨e, c₂, h₂⟩ read => brings_ok ?_
    simpa using ((expression_lists level c₁).holds read).ahead (left_read? found)
  · exact brings_ok (lists_left List.suffix_rfl)

theorem parameter_lists (variadicSeen : Bool) (c : Cursor) :
    Brings (parameter variadicSeen c) fun p next =>
      c.Lists next (p.default.toList.flatMap Expr.preorder) := by
  unfold parameter
  rcases dots : c.read? (·.isMark .dots) with _ | ⟨t, c₁, h₁⟩
  case' none => have left : c.rest <:+ c.rest := List.suffix_rfl
  case' some => have left := left_read? dots
  all_goals
    refine brings_bind fun ⟨name, c₂, h₂⟩ read => brings_bind fun ⟨type, c₃, h₃⟩ read' => ?_
    refine brings_bind fun ⟨default, c₄, h₄⟩ read'' => brings_ok ?_
    have left₂ := ((expectName_reads _ _).left read).trans left
    have left₃ := ((typeBehind?_reads _ c₂).left read').trans left₂
    exact ((valueBehind?_lists 1 c₃).holds read'').ahead left₃

theorem parameterList_lists (variadicSeen : Bool) (c : Cursor) :
    Brings (parameterList variadicSeen c) fun ps next =>
      c.Lists next ((ps.filterMap Parameter.default).flatMap Expr.preorder) := by
  rw [parameterList]
  have hs := c.size_skipNewlines_le
  refine brings_bind ?_
  rintro ⟨p, c₁, h₁⟩ read
  have first := ((parameter_lists _ _).holds read).ahead c.left_skipNewlines
  have hs₁ := c₁.size_skipNewlines_le
  have left := c₁.left_skipNewlines
  have only : (([p].filterMap Parameter.default).flatMap Expr.preorder) =
      p.default.toList.flatMap Expr.preorder := by
    cases h : p.default <;> simp [h]
  dsimp only
  split
  · next t c₂ h₂ popped =>
    have left₂ := (left_pop? popped).trans left
    split
    · refine brings_bind ?_
      rintro ⟨others, c₃, h₃⟩ read'
      refine brings_ok ?_
      have rest := ((parameterList_lists (variadicSeen || p.variadic) c₂).holds read').ahead left₂
      rw [← List.singleton_append, List.filterMap_append, List.flatMap_append, only]
      exact first.trans rest
    · split
      · exact brings_ok (only ▸ first.behind left₂)
      · exact brings_error
  · split
    · split
      · exact brings_ok (only ▸ first.behind left)
      · exact brings_error
    · exact brings_error
termination_by c.size
decreasing_by all_goals dsimp only at *; omega

theorem parameters_lists (c : Cursor) :
    Brings (parameters c) fun ps next =>
      c.Lists next ((ps.filterMap Parameter.default).flatMap Expr.preorder) := by
  unfold parameters
  dsimp only
  split
  · next found => exact brings_ok (lists_left ((left_read? found).trans c.left_skipNewlines))
  · exact parameterList_lists false c

theorem function_lists (start : Span) (c : Cursor) :
    Brings (function start c) fun f next => c.Lists next f.allExpressions := by
  unfold function
  refine brings_bind fun ⟨name, c₁, h₁⟩ read => brings_bind fun ⟨_, c₂, h₂⟩ read₂ => ?_
  refine brings_bind fun ⟨parameters, c₃, h₃⟩ read₃ => ?_
  refine brings_bind fun ⟨returns, c₄, h₄⟩ read₄ => ?_
  refine brings_bind fun ⟨⟨body, close⟩, c₅, h₅⟩ read₅ => brings_ok ?_
  have left₂ := ((expectMark_reads _ _ _).left read₂).trans ((expectName_reads _ _).left read)
  have defaults := ((parameters_lists c₂).holds read₃).ahead left₂
  have block := ((block_lists c₄).holds read₅).ahead ((typeBehind?_reads _ c₃).left read₄)
  exact defaults.trans block

theorem field_lists (c : Cursor) :
    Brings (field c) fun f next => c.Lists next (f.value.toList.flatMap Expr.preorder) := by
  unfold field
  refine brings_bind fun ⟨name, c₁, h₁⟩ read => brings_bind fun ⟨type, c₂, h₂⟩ read₂ => ?_
  refine brings_bind fun ⟨value, c₃, h₃⟩ read₃ => brings_bind fun ⟨c₄, h₄⟩ ended => brings_ok ?_
  have left₂ := ((typeBehind?_reads _ c₁).left read₂).trans ((expectName_reads _ _).left read)
  exact (((valueBehind?_lists 0 c₂).holds read₃).ahead left₂).behind (left_statementEnd ended)

/-- Fields and methods are collected apart, so their order is not that of the text. -/
theorem classBody_holds (c : Cursor) :
    Brings (classBody c) fun body next =>
      c.Holds next ((body.1.filterMap FieldDecl.value).flatMap Expr.preorder ++
        body.2.flatMap FunctionDecl.allExpressions) := by
  rw [classBody]
  have hs := c.size_skipSeparators_le
  split
  · exact brings_error
  · next t c₁ h₁ popped =>
    have left := (left_pop? popped).trans c.left_skipSeparators
    split
    · exact brings_ok (lists_left left).holds
    · split
      · refine brings_bind ?_
        rintro ⟨f, c₂, h₂⟩ read
        dsimp only
        refine brings_bind ?_
        rintro ⟨⟨fields, methods⟩, c₃, h₃⟩ read'
        refine brings_ok ?_
        have first := ((field_lists c₁).holds read).holds.ahead left
        have rest := (classBody_holds c₂).holds read'
        have only : ((f :: fields).filterMap FieldDecl.value).flatMap Expr.preorder =
            f.value.toList.flatMap Expr.preorder ++
              (fields.filterMap FieldDecl.value).flatMap Expr.preorder := by
          cases h : f.value <;> simp [h]
        rw [only, List.append_assoc]
        exact first.trans rest
      · split
        · refine brings_bind ?_
          rintro ⟨f, c₂, h₂⟩ read
          dsimp only
          refine brings_bind ?_
          rintro ⟨⟨fields, methods⟩, c₃, h₃⟩ read'
          refine brings_ok ?_
          have first := ((function_lists _ c₁).holds read).holds.ahead left
          have rest := (classBody_holds c₂).holds read'
          refine (first.trans rest).perm ?_
          rw [List.flatMap_cons, ← List.append_assoc, ← List.append_assoc]
          exact List.perm_append_comm.append_right _
        · exact brings_error
termination_by c.size
decreasing_by all_goals omega

theorem classDecl_holds (c : Cursor) :
    Brings (classDecl c) fun d next => c.Holds next d.expressions := by
  unfold classDecl
  refine brings_bind fun ⟨name, c₁, h₁⟩ read => brings_bind fun ⟨_, c₂, h₂⟩ read₂ => ?_
  refine brings_bind fun ⟨⟨fields, methods⟩, c₃, h₃⟩ read₃ => brings_ok ?_
  have left₂ := ((expectMark_reads _ _ _).left read₂).trans ((expectName_reads _ _).left read)
  exact ((classBody_holds c₂).holds read₃).ahead left₂

theorem global_lists (constant : Bool) (c : Cursor) :
    Brings (global constant c) fun g next => c.Lists next g.value.preorder := by
  unfold global
  refine brings_bind fun ⟨name, c₁, h₁⟩ read => brings_bind fun ⟨type, c₂, h₂⟩ read₂ => ?_
  refine brings_bind fun ⟨_, c₃, h₃⟩ read₃ => brings_bind fun ⟨value, c₄, h₄⟩ read₄ => ?_
  refine brings_bind fun ⟨c₅, h₅⟩ ended => brings_ok ?_
  have left₂ := ((typeBehind?_reads _ c₁).left read₂).trans ((expectName_reads _ _).left read)
  have left₃ := ((expectMark_reads _ _ _).left read₃).trans left₂
  exact (((expression_lists 0 c₃).holds read₄).ahead left₃).behind (left_statementEnd ended)

theorem item_holds (c : Cursor) : Brings (item c) fun i next => c.Holds next i.expressions := by
  unfold item
  split
  · exact brings_error
  · next t c₁ h₁ popped =>
    have left := left_pop? popped
    split
    · refine brings_bind fun ⟨f, c₂, h₂⟩ read => brings_ok ?_
      exact ((function_lists _ c₁).holds read).holds.ahead left
    · refine brings_bind fun ⟨d, c₂, h₂⟩ read => brings_ok ?_
      exact ((classDecl_holds c₁).holds read).ahead left
    · refine brings_bind fun ⟨g, c₂, h₂⟩ read => brings_ok ?_
      exact ((global_lists _ c₁).holds read).holds.ahead left
    · refine brings_bind fun ⟨g, c₂, h₂⟩ read => brings_ok ?_
      exact ((global_lists _ c₁).holds read).holds.ahead left
    · exact brings_error

/-- All expressions of the items sit on the tokens to come, one behind the other. -/
theorem items_holds (c : Cursor) {found : List Item} {report : Report}
    (h : items c = .ok (found, report)) :
    ∃ es, Rooms c.rest es ∧ (es.flatMap Expr.preorder).Perm (found.flatMap Item.expressions) := by
  rw [items] at h
  have hs := c.size_skipSeparators_le
  split at h
  · cases h
    exact ⟨[], .nil _, .nil⟩
  · obtain ⟨⟨i, c₁, h₁⟩, read, h⟩ := bind_eq_ok h
    obtain ⟨⟨others, report'⟩, read', h⟩ := bind_eq_ok h
    cases h
    obtain ⟨used, rest, es, rooms, nodes⟩ :=
      ((item_holds _).holds read).ahead c.left_skipSeparators
    obtain ⟨es', rooms', nodes'⟩ := items_holds c₁ read'
    refine ⟨es ++ es', rest ▸ rooms.append rooms', ?_⟩
    rw [List.flatMap_append, List.flatMap_cons]
    exact nodes.append nodes'
termination_by c.size

end Reading

/-! ## Places -/

namespace Expr

mutual

/-- The number of slots that the code of an expression takes. -/
def slots : Expr → Nat
  | literal _ _ | name _ _ | self _ => 1
  | unary _ _ e | member _ e _ _ => slots e + 1
  | binary _ _ l r | index _ l r => slots l + slots r + 1
  | assign _ _ v => slots v
  | call _ f args => slots f + slotsList args + 1
  | group _ e => slots e

def slotsList : List Expr → Nat
  | [] => 0
  | e :: rest => slots e + slotsList rest

end

mutual

/-- Each expression within one, with the number of slots in use where it is lowered.  A target of an
assignment is not lowered. -/
def places (used : Nat) : Expr → List (Expr × Option Nat)
  | literal s v => [(literal s v, some used)]
  | name s n => [(name s n, some used)]
  | self s => [(self s, some used)]
  | unary s op e => (unary s op e, some used) :: places used e
  | binary s op l r =>
    (binary s op l r, some used) :: (places used l ++ places (used + l.slots) r)
  | assign s t v => (assign s t v, some used) :: (t.preorder.map (·, none) ++ places used v)
  | call s f args => (call s f args, some used) :: (places used f ++ placesList (used + f.slots) args)
  | member s o n ns => (member s o n ns, some used) :: places used o
  | index s o i => (index s o i, some used) :: (places used o ++ places (used + o.slots) i)
  | group s e => (group s e, some used) :: places used e

def placesList (used : Nat) : List Expr → List (Expr × Option Nat)
  | [] => []
  | e :: rest => places used e ++ placesList (used + e.slots) rest

end

mutual

theorem map_fst_places (used : Nat) (e : Expr) : (e.places used).map Prod.fst = e.preorder := by
  cases e <;> simp [places, preorder, map_fst_places, map_fst_placesList, Function.comp_def]

theorem map_fst_placesList (used : Nat) (es : List Expr) :
    (placesList used es).map Prod.fst = preorderList es := by
  cases es <;> simp [placesList, preorderList, map_fst_places, map_fst_placesList]

end

end Expr

/-- The code of the places that are lowered is part of `f`, which records their values and nothing
else.  The places that are not lowered are those of targets. -/
structure Fragment.Keeps (f : Fragment) (places : List (Expr × Option Nat)) : Prop where
  lowered : ∀ e used, (e, some used) ∈ places →
    ∃ x, e.lower used = .ok x ∧ x.code.steps <:+: f.steps ∧ (e.span, x.value) ∈ f.records
  only : ∀ r ∈ f.records, ∃ e used x,
    (e, some used) ∈ places ∧ e.lower used = .ok x ∧ r = (e.span, x.value)
  targets : ∀ e, (e, none) ∈ places ↔ ∃ s v, .assign s e v ∈ places.map Prod.fst

namespace Fragment.Keeps

variable {f g : Fragment} {ps qs : List (Expr × Option Nat)}

theorem start (used : Nat) : (Fragment.start used).Keeps [] := ⟨nofun, nofun, by simp⟩

theorem append (h : f.Keeps ps) (h' : g.Keeps qs) : (f.append g).Keeps (ps ++ qs) := by
  refine ⟨fun e used he => ?_, fun r hr => ?_, fun e => ?_⟩
  · rcases List.mem_append.1 he with he | he
    · obtain ⟨x, lowered, within, recorded⟩ := h.lowered e used he
      exact ⟨x, lowered, within.trans (List.prefix_append _ _).isInfix, List.mem_append_left _ recorded⟩
    · obtain ⟨x, lowered, within, recorded⟩ := h'.lowered e used he
      exact ⟨x, lowered, within.trans (List.suffix_append _ _).isInfix,
        List.mem_append_right _ recorded⟩
  · rcases List.mem_append.1 hr with hr | hr
    · obtain ⟨e, used, x, mem, rest⟩ := h.only r hr
      exact ⟨e, used, x, List.mem_append_left _ mem, rest⟩
    · obtain ⟨e, used, x, mem, rest⟩ := h'.only r hr
      exact ⟨e, used, x, List.mem_append_right _ mem, rest⟩
  · simp only [List.mem_append, List.map_append, exists_or, h.targets, h'.targets]

/-- More steps change nothing of what is kept. -/
theorem extend (h : f.Keeps ps) (within : f.steps <:+: g.steps) (same : g.records = f.records) :
    g.Keeps ps := by
  refine ⟨fun e used he => ?_, fun r hr => h.only r (same ▸ hr), h.targets⟩
  obtain ⟨x, lowered, within', recorded⟩ := h.lowered e used he
  exact ⟨x, lowered, within'.trans within, same ▸ recorded⟩

theorem emit (h : f.Keeps ps) (instr : Instr) (span : Span) : (f.emit instr span).Keeps ps :=
  h.extend (List.prefix_append _ _).isInfix rfl

theorem emitResult (h : f.Keeps ps) (instr : Slot → Instr) (span : Span) :
    (f.emitResult instr span).Keeps ps :=
  h.extend (List.prefix_append _ _).isInfix rfl

/-- The value of an expression is recorded behind its parts; only an assignment has a target. -/
theorem recordTarget {e : Expr} {used : Nat} {value : Slot} (ts : List Expr) (h : f.Keeps ps)
    (lowered : e.lower used = .ok ⟨f.record e.span value, value⟩)
    (targets : ∀ t, t ∈ ts ↔ ∃ s v, e = .assign s t v)
    (names : ∀ s t v, .assign s t v ∉ ts) :
    (f.record e.span value).Keeps ((e, some used) :: (ts.map (·, none) ++ ps)) := by
  refine ⟨fun e' used' he => ?_, fun r hr => ?_, fun t => ?_⟩
  · rcases List.mem_cons.1 he with same | he
    · cases same
      exact ⟨_, lowered, List.infix_rfl, List.mem_append_right _ List.mem_cons_self⟩
    · obtain ⟨x, lowered', within, recorded⟩ := h.lowered e' used' (by simpa using he)
      exact ⟨x, lowered', within, List.mem_append_left _ recorded⟩
  · rcases List.mem_append.1 hr with hr | hr
    · obtain ⟨e', used', x, mem, rest⟩ := h.only r hr
      exact ⟨e', used', x, .tail _ (List.mem_append_right _ mem), rest⟩
    · exact ⟨e, used, _, List.mem_cons_self, lowered, List.mem_singleton.1 hr⟩
  · have added : (ts.map ((·, none) : Expr → Expr × Option Nat)).map Prod.fst = ts := by
      simp [Function.comp_def]
    have inner : (∃ s v, .assign s t v ∈ e :: (ts ++ ps.map Prod.fst)) ↔
        (∃ s v, e = .assign s t v) ∨ ∃ s v, .assign s t v ∈ ps.map Prod.fst := by
      simp only [List.mem_cons, List.mem_append, names, false_or, exists_or, eq_comm]
    rw [List.map_cons, List.map_append, added, inner, ← targets, ← h.targets]
    simp

theorem record {e : Expr} {used : Nat} {value : Slot} (h : f.Keeps ps)
    (lowered : e.lower used = .ok ⟨f.record e.span value, value⟩)
    (other : ∀ s t v, e ≠ .assign s t v) : (f.record e.span value).Keeps ((e, some used) :: ps) :=
  h.recordTarget [] lowered
    (fun t => ⟨nofun, fun ⟨s, v, same⟩ => absurd same (other s t v)⟩) nofun

end Fragment.Keeps

namespace Expr

mutual

theorem lower_slots {used : Nat} : ∀ {e : Expr} {x : ExprCode}, e.lower used = .ok x →
    x.code.used = used + e.slots
  | literal _ _, _, h => by cases h; rfl
  | name _ _, _, h => by cases h; rfl
  | self _, _, h => by cases h; rfl
  | unary _ _ _, _, h => by
    obtain ⟨y, hy, h⟩ := bind_eq_ok h
    cases h
    exact congrArg (· + 1) (lower_slots hy)
  | binary _ _ _ _, _, h => by
    obtain ⟨y, hy, h⟩ := bind_eq_ok h
    obtain ⟨z, hz, h⟩ := bind_eq_ok h
    cases h
    have := lower_slots hz
    rw [lower_slots hy, Nat.add_assoc] at this
    exact congrArg (· + 1) this
  | assign _ _ _, _, h => by
    obtain ⟨_, _, y, _, hy, rfl⟩ := lower_assign_eq_ok h
    have taken := lower_slots hy
    exact taken
  | call _ _ _, _, h => by
    obtain ⟨y, hy, h⟩ := bind_eq_ok h
    obtain ⟨z, hz, h⟩ := bind_eq_ok h
    cases h
    have := lowerList_slots hz
    rw [lower_slots hy, Nat.add_assoc] at this
    exact congrArg (· + 1) this
  | member _ _ _ _, _, h => by
    obtain ⟨y, hy, h⟩ := bind_eq_ok h
    cases h
    exact congrArg (· + 1) (lower_slots hy)
  | index _ _ _, _, h => by
    obtain ⟨y, hy, h⟩ := bind_eq_ok h
    obtain ⟨z, hz, h⟩ := bind_eq_ok h
    cases h
    have := lower_slots hz
    rw [lower_slots hy, Nat.add_assoc] at this
    exact congrArg (· + 1) this
  | group _ _, _, h => by
    obtain ⟨y, hy, h⟩ := bind_eq_ok h
    cases h
    have taken := lower_slots hy
    exact taken

theorem lowerList_slots {used : Nat} : ∀ {es : List Expr} {r : Fragment × List Slot},
    lowerList used es = .ok r → r.1.used = used + slotsList es
  | [], _, h => by cases h; rfl
  | _ :: _, _, h => by
    obtain ⟨y, hy, h⟩ := bind_eq_ok h
    obtain ⟨z, hz, h⟩ := bind_eq_ok h
    cases h
    have := lowerList_slots hz
    rwa [lower_slots hy, Nat.add_assoc] at this

end

mutual

/-- The code of an expression keeps what is within it. -/
theorem lower_keeps {used : Nat} : ∀ {e : Expr} {x : ExprCode}, e.lower used = .ok x →
    x.code.Keeps (e.places used)
  | literal _ _, _, h => by
    have whole := h
    cases h
    exact ((Fragment.Keeps.start used).emitResult _ _).record whole nofun
  | name _ _, _, h => by
    have whole := h
    cases h
    exact ((Fragment.Keeps.start used).emitResult _ _).record whole nofun
  | self _, _, h => by
    have whole := h
    cases h
    exact ((Fragment.Keeps.start used).emitResult _ _).record whole nofun
  | unary _ _ _, _, h => by
    have whole := h
    obtain ⟨y, hy, h⟩ := bind_eq_ok h
    cases h
    exact ((lower_keeps hy).emitResult _ _).record whole nofun
  | binary _ _ _ _, _, h => by
    have whole := h
    obtain ⟨y, hy, h⟩ := bind_eq_ok h
    obtain ⟨z, hz, h⟩ := bind_eq_ok h
    cases h
    have right := lower_keeps hz
    rw [lower_slots hy] at right
    exact (((lower_keeps hy).append right).emitResult _ _).record whole nofun
  | assign _ _ _, _, h => by
    have whole := h
    obtain ⟨ts, n, y, rfl, hy, rfl⟩ := lower_assign_eq_ok h
    exact ((lower_keeps hy).emit _ _).recordTarget [name ts n] whole
      (fun t => by simp [eq_comm]) (by simp)
  | call _ _ _, _, h => by
    have whole := h
    obtain ⟨y, hy, h⟩ := bind_eq_ok h
    obtain ⟨z, hz, h⟩ := bind_eq_ok h
    cases h
    have arguments := lowerList_keeps hz
    rw [lower_slots hy] at arguments
    exact (((lower_keeps hy).append arguments).emitResult _ _).record whole nofun
  | member _ _ _ _, _, h => by
    have whole := h
    obtain ⟨y, hy, h⟩ := bind_eq_ok h
    cases h
    exact ((lower_keeps hy).emitResult _ _).record whole nofun
  | index _ _ _, _, h => by
    have whole := h
    obtain ⟨y, hy, h⟩ := bind_eq_ok h
    obtain ⟨z, hz, h⟩ := bind_eq_ok h
    cases h
    have key := lower_keeps hz
    rw [lower_slots hy] at key
    exact (((lower_keeps hy).append key).emitResult _ _).record whole nofun
  | group _ _, _, h => by
    have whole := h
    obtain ⟨y, hy, h⟩ := bind_eq_ok h
    cases h
    exact (lower_keeps hy).record whole nofun

theorem lowerList_keeps {used : Nat} : ∀ {es : List Expr} {r : Fragment × List Slot},
    lowerList used es = .ok r → r.1.Keeps (placesList used es)
  | [], _, h => by cases h; exact .start used
  | _ :: _, _, h => by
    obtain ⟨y, hy, h⟩ := bind_eq_ok h
    obtain ⟨z, hz, h⟩ := bind_eq_ok h
    cases h
    have others := lowerList_keeps hz
    rw [lower_slots hy] at others
    exact (lower_keeps hy).append others

end

end Expr

/-! ## Statements -/

namespace Stmt

mutual

/-- The number of slots that the code of a statement takes. -/
def slots : Stmt → Nat
  | var _ _ e => e.slots
  | cond _ c a b =>
    c.slots + blockSlots a +
      (match b with
        | some b => blockSlots b
        | none => 0)
  | loop _ c b => c.slots + blockSlots b
  | ret _ (some e) => e.slots
  | ret _ none => 1
  | expr e => e.slots
termination_by structural s => s

def blockSlots : List Stmt → Nat
  | [] => 0
  | s :: rest => slots s + blockSlots rest
termination_by structural b => b

end

mutual

/-- Each expression of a statement, with the number of slots in use where it is lowered. -/
def places (used : Nat) : Stmt → List (Expr × Option Nat)
  | var _ _ e => e.places used
  | cond _ c a b =>
    c.places used ++ blockPlaces (used + c.slots) a ++
      (match b with
        | some b => blockPlaces (used + c.slots + blockSlots a) b
        | none => [])
  | loop _ c b => c.places used ++ blockPlaces (used + c.slots) b
  | ret _ (some e) => e.places used
  | ret _ none => []
  | expr e => e.places used
termination_by structural s => s

def blockPlaces (used : Nat) : List Stmt → List (Expr × Option Nat)
  | [] => []
  | s :: rest => places used s ++ blockPlaces (used + s.slots) rest
termination_by structural b => b

end

mutual

theorem map_fst_places (used : Nat) : ∀ s : Stmt, (s.places used).map Prod.fst = s.expressions
  | var _ _ e => e.map_fst_places used
  | cond _ c a none => by
    simp [places, expressions, c.map_fst_places, map_fst_blockPlaces]
  | cond _ c a (some b) => by
    simp [places, expressions, c.map_fst_places, map_fst_blockPlaces]
  | loop _ c b => by simp [places, expressions, c.map_fst_places, map_fst_blockPlaces]
  | ret _ (some e) => e.map_fst_places used
  | ret _ none => rfl
  | expr e => e.map_fst_places used

theorem map_fst_blockPlaces (used : Nat) :
    ∀ b : List Stmt, (blockPlaces used b).map Prod.fst = blockExpressions b
  | [] => rfl
  | s :: rest => by
    simp [blockPlaces, blockExpressions, map_fst_places used s, map_fst_blockPlaces _ rest]

end

mutual

theorem lower_slots {base used : Nat} : ∀ {s : Stmt} {f : Fragment},
    lower base used s = .ok f → f.used = used + s.slots
  | var _ _ e, _, h => by
    obtain ⟨x, hx, h⟩ := bind_eq_ok h
    cases h
    exact e.lower_slots hx
  | cond _ c a none, _, h => by
    obtain ⟨x, hx, h⟩ := bind_eq_ok h
    obtain ⟨y, hy, h⟩ := bind_eq_ok h
    cases h
    have := lowerBlock_slots hy
    rwa [c.lower_slots hx, Nat.add_assoc] at this
  | cond _ c a (some b), _, h => by
    obtain ⟨x, hx, h⟩ := bind_eq_ok h
    obtain ⟨y, hy, h⟩ := bind_eq_ok h
    obtain ⟨z, hz, h⟩ := bind_eq_ok h
    cases h
    have := lowerBlock_slots hz
    rwa [lowerBlock_slots hy, c.lower_slots hx, Nat.add_assoc, Nat.add_assoc, ← Nat.add_assoc c.slots]
      at this
  | loop _ c b, _, h => by
    obtain ⟨x, hx, h⟩ := bind_eq_ok h
    obtain ⟨y, hy, h⟩ := bind_eq_ok h
    cases h
    have := lowerBlock_slots hy
    rwa [c.lower_slots hx, Nat.add_assoc] at this
  | ret _ (some e), _, h => by
    obtain ⟨x, hx, h⟩ := bind_eq_ok h
    cases h
    exact e.lower_slots hx
  | ret _ none, _, h => by cases h; rfl
  | expr e, _, h => by
    obtain ⟨x, hx, h⟩ := bind_eq_ok h
    cases h
    exact e.lower_slots hx

theorem lowerBlock_slots {base used : Nat} : ∀ {b : List Stmt} {f : Fragment},
    lowerBlock base used b = .ok f → f.used = used + blockSlots b
  | [], _, h => by cases h; rfl
  | s :: rest, _, h => by
    obtain ⟨x, hx, h⟩ := bind_eq_ok h
    obtain ⟨y, hy, h⟩ := bind_eq_ok h
    cases h
    have := lowerBlock_slots hy
    rwa [lower_slots hx, Nat.add_assoc] at this

end

mutual

/-- The code of a statement keeps its expressions. -/
theorem lower_keeps {base used : Nat} : ∀ {s : Stmt} {f : Fragment},
    lower base used s = .ok f → f.Keeps (s.places used)
  | var _ _ e, _, h => by
    obtain ⟨x, hx, h⟩ := bind_eq_ok h
    cases h
    exact (e.lower_keeps hx).emit _ _
  | cond _ c a none, _, h => by
    obtain ⟨x, hx, h⟩ := bind_eq_ok h
    obtain ⟨y, hy, h⟩ := bind_eq_ok h
    cases h
    have inner := lowerBlock_keeps hy
    rw [c.lower_slots hx] at inner
    simpa [places] using ((c.lower_keeps hx).emit _ _).append inner
  | cond _ c a (some b), _, h => by
    obtain ⟨x, hx, h⟩ := bind_eq_ok h
    obtain ⟨y, hy, h⟩ := bind_eq_ok h
    obtain ⟨z, hz, h⟩ := bind_eq_ok h
    cases h
    have inner := lowerBlock_keeps hy
    have other := lowerBlock_keeps hz
    rw [c.lower_slots hx] at inner
    rw [lowerBlock_slots hy, c.lower_slots hx] at other
    exact (((c.lower_keeps hx).emit _ _).append (inner.emit _ _)).append other
  | loop _ c b, _, h => by
    obtain ⟨x, hx, h⟩ := bind_eq_ok h
    obtain ⟨y, hy, h⟩ := bind_eq_ok h
    cases h
    have inner := lowerBlock_keeps hy
    rw [c.lower_slots hx] at inner
    exact (((c.lower_keeps hx).emit _ _).append inner).emit _ _
  | ret _ (some e), _, h => by
    obtain ⟨x, hx, h⟩ := bind_eq_ok h
    cases h
    exact (e.lower_keeps hx).emit _ _
  | ret _ none, _, h => by
    cases h
    exact ((Fragment.Keeps.start used).emitResult _ _).emit _ _
  | expr e, _, h => by
    obtain ⟨x, hx, h⟩ := bind_eq_ok h
    cases h
    exact e.lower_keeps hx

theorem lowerBlock_keeps {base used : Nat} : ∀ {b : List Stmt} {f : Fragment},
    lowerBlock base used b = .ok f → f.Keeps (blockPlaces used b)
  | [], _, h => by cases h; exact .start used
  | s :: rest, _, h => by
    obtain ⟨x, hx, h⟩ := bind_eq_ok h
    obtain ⟨y, hy, h⟩ := bind_eq_ok h
    cases h
    have others := lowerBlock_keeps hy
    rw [lower_slots hx] at others
    exact (lower_keeps hx).append others

end

end Stmt

/-! ## Functions -/

def FunctionDecl.places (f : FunctionDecl) : List (Expr × Option Nat) := Stmt.blockPlaces 0 f.body

theorem FunctionDecl.toCode_keeps {f : FunctionDecl} {code : Code} (h : f.toCode = .ok code) :
    ∃ body : Fragment, code = ⟨body.steps, body.records⟩ ∧ body.Keeps f.places := by
  obtain ⟨body, lowered, h⟩ := bind_eq_ok h
  cases h
  have keeps := Stmt.lowerBlock_keeps lowered
  refine ⟨_, rfl, ?_⟩
  split
  · exact keeps
  · exact (keeps.emitResult _ _).emit _ _

namespace Fragment.Keeps

variable {f : Fragment} {ps : List (Expr × Option Nat)}

/-- What is found under the span of a place was recorded for it, if spans tell places apart. -/
theorem eq_of_slotFor? (h : f.Keeps ps) (apart : (ps.map (·.1.span)).Nodup)
    {p : Expr × Option Nat} (hp : p ∈ ps) {slot : Slot}
    (found : Code.slotFor? ⟨f.steps, f.records⟩ p.1.span = some slot) :
    ∃ used x, p.2 = some used ∧ p.1.lower used = .ok x ∧ slot = x.value := by
  obtain ⟨r, hr, rfl⟩ := Option.map_eq_some_iff.1 found
  have span : r.1 = p.1.span := by simpa using List.find?_some hr
  obtain ⟨e, used, x, mem, lowered, rfl⟩ :=
    h.only r (List.mem_reverse.1 (List.mem_of_find?_eq_some hr))
  cases List.inj_on_of_nodup_map apart mem hp span
  exact ⟨used, x, rfl, lowered, rfl⟩

theorem slotFor?_of_lowered (h : f.Keeps ps) (apart : (ps.map (·.1.span)).Nodup) {e : Expr}
    {used : Nat} {x : ExprCode} (he : (e, some used) ∈ ps) (lowered : e.lower used = .ok x) :
    Code.slotFor? ⟨f.steps, f.records⟩ e.span = some x.value := by
  cases found : Code.slotFor? ⟨f.steps, f.records⟩ e.span with
  | none =>
    obtain ⟨y, lowered', -, recorded⟩ := h.lowered e used he
    have missed := List.find?_eq_none.1 (Option.map_eq_none_iff.1 found) _
      (List.mem_reverse.2 recorded)
    simp at missed
  | some slot =>
    obtain ⟨_, y, ⟨⟩, lowered', rfl⟩ := h.eq_of_slotFor? apart he found
    cases lowered.symm.trans lowered'
    rfl

theorem slotFor?_of_target (h : f.Keeps ps) (apart : (ps.map (·.1.span)).Nodup) {e : Expr}
    (he : (e, none) ∈ ps) : Code.slotFor? ⟨f.steps, f.records⟩ e.span = none := by
  cases found : Code.slotFor? ⟨f.steps, f.records⟩ e.span with
  | none => rfl
  | some slot =>
    obtain ⟨_, _, ⟨⟩, _⟩ := h.eq_of_slotFor? apart he found

end Fragment.Keeps

/-- The code finds each expression of the function by its span: the slot that lowering left its
value in where it is lowered, or nothing for a target. -/
structure FunctionDecl.Finds (f : FunctionDecl) (code : Code) : Prop where
  produced : ∀ e ∈ f.expressions, (∀ s v, .assign s e v ∉ f.expressions) →
    ∃ used x, (e, some used) ∈ f.places ∧ e.lower used = .ok x ∧ x.code.steps <:+: code.steps ∧
      code.slotFor? e.span = some x.value
  target : ∀ s e v, .assign s e v ∈ f.expressions → code.slotFor? e.span = none

theorem FunctionDecl.finds_of_nodup {f : FunctionDecl} {code : Code} (h : f.toCode = .ok code)
    (apart : (f.expressions.map Expr.span).Nodup) : f.Finds code := by
  obtain ⟨body, rfl, keeps⟩ := toCode_keeps h
  have same : f.places.map Prod.fst = f.expressions := Stmt.map_fst_blockPlaces 0 f.body
  rw [← same, List.map_map] at apart
  refine ⟨fun e he notTarget => ?_, fun s e v he => ?_⟩
  · rw [← same] at he notTarget
    obtain ⟨⟨e, _ | used⟩, mem, rfl⟩ := List.mem_map.1 he
    · obtain ⟨s, v, target⟩ := (keeps.targets e).1 mem
      exact absurd target (notTarget s v)
    · obtain ⟨x, lowered, within, -⟩ := keeps.lowered e used mem
      exact ⟨used, x, mem, lowered, within, keeps.slotFor?_of_lowered apart mem lowered⟩
  · rw [← same] at he
    exact keeps.slotFor?_of_target apart ((keeps.targets e).2 ⟨s, v, he⟩)

/-! ## Spans of a text -/

/-- The span of each expression runs over tokens of the row that the expression sits on; the spans
of its parts lie within and are others; and no two of the expressions share a span. -/
structure Spans (row : TokenRow) (nodes : List Expr) : Prop where
  runs : ∀ e ∈ nodes, ∃ ts, ts <:+: row.tokens ∧ e.Sits ts ∧ e.span.Runs ts
  part : ∀ e ∈ nodes, ∀ p ∈ e.parts, p.span.Inside e.span ∧ p.span ≠ e.span
  apart : (nodes.map Expr.span).Nodup

theorem Rooms.spans {row : TokenRow} {es nodes : List Expr} (rooms : Rooms row.tokens es)
    (ordered : Ordered row.tokens) (same : (es.flatMap Expr.preorder).Perm nodes) :
    Spans row nodes := by
  have sits (e : Expr) (he : e ∈ nodes) : ∃ ts, ts <:+: row.tokens ∧ e.Sits ts := by
    obtain ⟨f, hf, he⟩ := List.mem_flatMap.1 (same.mem_iff.2 he)
    obtain ⟨us, inner, whole⟩ := rooms.exists_sits f hf
    obtain ⟨ts, inner', sits⟩ := whole.inner he
    exact ⟨ts, inner'.trans inner, sits⟩
  refine ⟨fun e he => ?_, fun e he p hp => ?_, ?_⟩
  · obtain ⟨ts, inner, sits⟩ := sits e he
    exact ⟨ts, inner, sits, sits.runs (ordered.within inner)⟩
  · obtain ⟨ts, inner, sits⟩ := sits e he
    exact sits.span_part (ordered.within inner) hp
  · refine (same.map Expr.span).nodup_iff.1 (rooms.nodup ordered fun e he => ?_)
    obtain ⟨us, inner, whole⟩ := rooms.exists_sits e he
    exact whole.nodup (ordered.within inner)

theorem Module.ofTokens_spans {row : TokenRow} {m : Module} {report : Report}
    (h : Module.ofTokens row = .ok (m, report)) (ordered : Ordered row.tokens) :
    Spans row m.expressions := by
  obtain ⟨⟨items, read⟩, parsed, h⟩ := bind_eq_ok h
  cases h
  obtain ⟨es, rooms, same⟩ := Reading.items_holds _ parsed
  exact rooms.spans ordered same

theorem Expr.ofTokens_spans {row : TokenRow} {e : Expr} {report : Report}
    (h : Expr.ofTokens row = .ok (e, report)) (ordered : Ordered row.tokens) :
    Spans row e.preorder := by
  obtain ⟨⟨e', c, bound⟩, read, h⟩ := bind_eq_ok h
  simp only at h
  split at h
  · cases h
    obtain ⟨ts, rest, sits⟩ := (Reading.expression_sits 0 _).holds read
    obtain ⟨front, whole⟩ := (Cursor.ofRow row).left_skipSeparators
    rw [rest] at whole
    have rooms : Rooms row.tokens [e] :=
      cast (congrArg (Rooms · [e]) whole) (((Rooms.one sits).before c.rest).behind front)
    exact rooms.spans ordered (by simp)
  · cases h

theorem sublist_flatMap_of_mem {α β : Type} {l : List α} {a : α} (f : α → List β) (h : a ∈ l) :
    (f a).Sublist (l.flatMap f) :=
  List.flatMap_def ▸ List.sublist_flatten_of_mem (List.mem_map_of_mem h)

theorem Module.sublist_expressions {m : Module} {f : String × FunctionDecl}
    (h : f ∈ m.functions) : f.2.expressions.Sublist m.expressions := by
  obtain ⟨i, hi, hf⟩ := List.mem_flatMap.1 h
  have own : f.2.expressions.Sublist f.2.allExpressions := List.sublist_append_right _ _
  refine List.Sublist.trans ?_ (sublist_flatMap_of_mem Item.expressions hi)
  cases i with
  | function g => cases List.mem_singleton.1 hf; exact own
  | class_ d =>
    obtain ⟨g, hg, rfl⟩ := List.mem_map.1 hf
    exact (own.trans (sublist_flatMap_of_mem _ hg)).trans (List.sublist_append_right _ _)
  | global g => cases hf

/-- Spans tell the expressions of a text apart, be it a module or an expression by itself, and the
code of each function of a module finds the slots of its expressions by them. -/
theorem spans_of_ofText (text : String) :
    (∀ m report, Module.ofText text = .ok (m, report) →
      ∃ row, TokenRow.ofText text = .ok row ∧ Spans row m.expressions ∧
        ∀ f ∈ m.functions, ∀ code, f.2.toCode = .ok code → f.2.Finds code) ∧
    ∀ e, Expr.ofText text = .ok e →
      ∃ row, TokenRow.ofText text = .ok row ∧ Spans row e.preorder := by
  refine ⟨fun m report h => ?_, fun e h => ?_⟩
  · unfold Module.ofText at h
    split at h
    · cases h
    · next row scanned =>
      split at h
      · cases h
      · next found parsed =>
        cases h
        have spans := Module.ofTokens_spans parsed (TokenRow.ordered scanned)
        refine ⟨row, scanned, spans, fun f hf code lowered => ?_⟩
        exact FunctionDecl.finds_of_nodup lowered
          (spans.apart.sublist ((Module.sublist_expressions hf).map Expr.span))
  · unfold Expr.ofText at h
    split at h
    · cases h
    · next row scanned =>
      split at h
      · cases h
      · next e report parsed =>
        cases h
        exact ⟨row, scanned, Expr.ofTokens_spans parsed (TokenRow.ordered scanned)⟩

/-- The string runs over the end of its line, the spans of the sum and of the assignment end on the
next. -/
def escapedText : String := "fn f(a) \x7b a = \"x\\\ny\" + a.b \x7d"

theorem spans_of_escapedText :
    ∃ m report, Module.ofText escapedText = .ok (m, report) ∧ m.expressions.length = 6 ∧
      (∃ row, TokenRow.ofText escapedText = .ok row ∧ Spans row m.expressions) ∧
      ∃ f ∈ m.functions, ∃ code, f.2.toCode = .ok code ∧ f.2.Finds code := by
  have read : ((Module.ofText escapedText).toOption.map fun found =>
      (found.1.expressions.length, found.1.functions.any (·.2.toCode.toOption.isSome))) =
      some (6, true) := by decide +kernel
  cases parsed : Module.ofText escapedText with
  | error e => rw [parsed] at read; cases read
  | ok found =>
    obtain ⟨m, report⟩ := found
    rw [parsed] at read
    obtain ⟨six, lowers⟩ := Prod.mk.inj (Option.some.inj read)
    obtain ⟨row, scanned, spans, finds⟩ := (spans_of_ofText escapedText).1 m report parsed
    obtain ⟨f, hf, some_⟩ := List.any_eq_true.1 lowers
    refine ⟨m, report, rfl, six, ⟨row, scanned, spans⟩, f, hf, ?_⟩
    cases lowered : f.2.toCode with
    | error e => rw [lowered] at some_; cases some_
    | ok code => exact ⟨code, rfl, finds f hf code lowered⟩

end PathTyping
