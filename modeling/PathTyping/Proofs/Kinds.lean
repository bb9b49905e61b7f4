import PathTyping.Compilation
import PathTyping.Proofs.Canonical
import PathTyping.Proofs.Lowering

/-!
# Findings outside of bodies

Diagnostics that carry a kind are findings of the analysis of bodies.  What is found while a text is
read, or while its declarations are filed, carries none.

1. `Plain` goes through the readers one by one: none of them reports anything with a kind.
2. `Module.kindless_ofText`: nor is there any in the report of a text that can be read.
3. `SymbolTable.kindless_ofModule`: nor among what is reported of the declarations.
-/

namespace PathTyping

/-! ## Reports -/

/-- No diagnostic of the report carries a kind. -/
def Report.Kindless (r : Report) : Prop := ∀ d ∈ r.entries, d.kind = none

theorem Report.mem_add {r : Report} {d d' : Diagnostic} (h : d ∈ (r.add d').entries) :
    d ∈ r.entries ∨ d = d' := by
  cases known : r.has d' with
  | true => exact .inl (add_of_has known ▸ h)
  | false =>
    rw [entries_add known] at h
    exact (List.mem_append.1 h).imp id List.mem_singleton.1

theorem Report.Kindless.add {r : Report} (h : r.Kindless) {d : Diagnostic} (none_ : d.kind = none) :
    (r.add d).Kindless := fun _ hd => (mem_add hd).elim (h _) fun same => same ▸ none_

/-! ## Readers -/

/-- Whatever `x` reads from `c` on, it reports nothing with a kind. -/
def Plain {α : Type} {n : Nat} (c : Cursor) (x : Reading α n) : Prop :=
  ∀ r, x = .ok r → c.report.Kindless → r.next.report.Kindless

section Plain

variable {α β : Type} {n m : Nat} {c c' : Cursor}

theorem plain_ok {v : α} {bound : c.size < n} : Plain c (.ok ⟨v, c, bound⟩ : Reading α n) := by
  rintro _ ⟨⟩
  exact id

theorem plain_error {e : ParseFailure} : Plain c (.error e : Reading α n) := nofun

theorem plain_bind {x : Reading α n} {f : Read α n → Reading β m} (hx : Plain c x)
    (hf : ∀ v next bound, Plain next (f ⟨v, next, bound⟩)) : Plain c (x >>= f) := by
  cases x with
  | error e => exact plain_error
  | ok r => exact fun r' read kindless => hf _ _ _ r' read (hx r rfl kindless)

/-- Tokens that are passed over leave the report as it is. -/
theorem Plain.behind {x : Reading α n} (h : Plain c' x) (same : c'.report = c.report) :
    Plain c x := fun r read kindless => h r read (same.symm ▸ kindless)

end Plain

namespace Cursor

variable {c : Cursor} {p : Token → Bool}

theorem report_of_pop? {r : Read Token c.size} (h : c.pop? = some r) :
    r.next.report = c.report := by
  unfold pop? at h
  split at h <;> cases h
  rfl

theorem report_of_read? {r : Read Token c.size} (h : c.read? p = some r) :
    r.next.report = c.report := by
  unfold read? at h
  split at h
  · next popped =>
    split at h <;> cases h
    exact report_of_pop? popped
  · cases h

theorem plain_expect (c : Cursor) (p : Token → Bool) (what : Expectation) :
    Plain c (c.expect p what) := by
  unfold expect
  split
  · next found =>
    rintro _ ⟨⟩ kindless
    exact (report_of_read? found).symm ▸ kindless
  · exact plain_error

theorem plain_expectMark (c : Cursor) (m : Mark) (what : Expectation) :
    Plain c (c.expectMark m what) := c.plain_expect _ what

theorem plain_expectName (c : Cursor) (what : Expectation) : Plain c (c.expectName what) :=
  c.plain_expect _ what

end Cursor

namespace Reading

open Cursor

/-! ### Expressions -/

mutual

theorem plain_operand (c : Cursor) : Plain c (operand c) := by
  rw [operand]
  split
  · exact plain_error
  · next t c₁ h₁ popped =>
    refine Plain.behind ?_ (report_of_pop? popped)
    split
    · exact plain_bind (plain_chain _ c₁) fun _ _ _ => plain_ok
    · split
      · exact plain_bind (plain_operand c₁) fun _ c₂ h₂ =>
          plain_bind (plain_chain _ c₂) fun _ _ _ => plain_ok
      · split
        · have hs := c₁.size_skipNewlines_le
          refine plain_bind ((plain_expression 0 c₁.skipNewlines).behind rfl) fun _ c₂ h₂ => ?_
          have hs₂ := c₂.size_skipNewlines_le
          refine plain_bind ((plain_expectMark _ _ _).behind rfl) fun _ c₃ h₃ => ?_
          exact plain_bind (plain_chain _ c₃) fun _ _ _ => plain_ok
        · exact plain_error
termination_by 4 * c.size
decreasing_by all_goals dsimp only at *; omega

theorem plain_expression (level : Nat) (c : Cursor) : Plain c (expression level c) := by
  rw [expression]
  exact plain_bind (plain_operand c) fun left c₁ h₁ =>
    plain_bind (plain_climb level left c₁) fun _ _ _ => plain_ok
termination_by 4 * c.size + 1
decreasing_by all_goals dsimp only at *; omega

theorem plain_climb (level : Nat) (left : Expr) (c : Cursor) : Plain c (climb level left c) := by
  rw [climb]
  split
  · exact plain_ok
  · next t c₁ h₁ popped =>
    split
    · exact plain_ok
    · split
      · exact plain_ok
      · refine Plain.behind ?_ (report_of_pop? popped)
        have hs := c₁.size_skipNewlines_le
        dsimp only
        split
        · refine plain_bind ((plain_expression 0 c₁.skipNewlines).behind rfl) fun _ c₂ h₂ => ?_
          dsimp only
          split
          · exact plain_bind (plain_climb level _ c₂) fun _ _ _ => plain_ok
          · exact plain_error
        · refine plain_bind ((plain_expression _ c₁.skipNewlines).behind rfl) fun _ c₂ h₂ => ?_
          exact plain_bind (plain_climb level _ c₂) fun _ _ _ => plain_ok
termination_by 4 * c.size
decreasing_by all_goals dsimp only at *; omega

theorem plain_chain (e : Expr) (c : Cursor) : Plain c (chain e c) := by
  rw [chain]
  split
  · exact plain_ok
  · next t c₁ h₁ popped =>
    have same : c₁.report = c.report := report_of_pop? popped
    have hs := c₁.size_skipNewlines_le
    split
    · refine Plain.behind ?_ same
      dsimp only
      split
      · refine plain_bind ((plain_expectMark _ _ _).behind rfl) fun _ c₂ h₂ => ?_
        exact plain_bind (plain_chain _ c₂) fun _ _ _ => plain_ok
      · refine plain_bind ((plain_argumentList c₁.skipNewlines).behind rfl) fun _ c₂ h₂ => ?_
        refine plain_bind (plain_expectMark _ _ _) fun _ c₃ h₃ => ?_
        exact plain_bind (plain_chain _ c₃) fun _ _ _ => plain_ok
    · split
      · refine plain_bind ((plain_expectName c₁ _).behind same) fun _ c₂ h₂ => ?_
        exact plain_bind (plain_chain _ c₂) fun _ _ _ => plain_ok
      · split
        · refine Plain.behind ?_ same
          refine plain_bind ((plain_expression 0 c₁.skipNewlines).behind rfl) fun _ c₂ h₂ => ?_
          have hs₂ := c₂.size_skipNewlines_le
          refine plain_bind ((plain_expectMark _ _ _).behind rfl) fun _ c₃ h₃ => ?_
          exact plain_bind (plain_chain _ c₃) fun _ _ _ => plain_ok
        · exact plain_ok
termination_by 4 * c.size + 3
decreasing_by all_goals dsimp only at *; omega

theorem plain_argumentList (c : Cursor) : Plain c (argumentList c) := by
  rw [argumentList]
  have hs := c.size_skipNewlines_le
  refine plain_bind ((plain_expression 0 c.skipNewlines).behind rfl) fun _ c₁ h₁ => ?_
  have hs₁ := c₁.size_skipNewlines_le
  dsimp only
  split
  · next t c₂ h₂ comma =>
    refine plain_bind ((plain_argumentList c₂).behind (report_of_read? comma)) fun _ _ _ => ?_
    exact plain_ok
  · exact Plain.behind plain_ok rfl
termination_by 4 * c.size + 2
decreasing_by all_goals dsimp only at *; omega

end

/-! ### Statements -/

theorem plain_statementEnd {α : Type} {n : Nat} {c : Cursor}
    {f : { next : Cursor // next.size ≤ c.size } → Reading α n}
    (hf : ∀ next bound, Plain next (f ⟨next, bound⟩)) : Plain c (statementEnd c >>= f) := by
  unfold statementEnd
  split
  · exact hf c _
  · split
    · exact (hf c.skipSeparators _).behind rfl
    · exact plain_error

mutual

theorem plain_block (c : Cursor) : Plain c (block c) := by
  rw [block]
  refine plain_bind (plain_expectMark _ _ _) fun _ c₁ h₁ => ?_
  exact plain_bind (plain_statements c₁) fun _ _ _ => plain_ok
termination_by 4 * c.size
decreasing_by all_goals dsimp only at *; omega

theorem plain_statements (c : Cursor) : Plain c (statements c) := by
  rw [statements]
  have hs := c.size_skipSeparators_le
  split
  · exact plain_error
  · next t c₁ h₁ popped =>
    split
    · exact Plain.behind plain_ok (report_of_pop? popped)
    · refine plain_bind ((plain_statement c.skipSeparators).behind rfl) fun _ c₂ h₂ => ?_
      exact plain_bind (plain_statements c₂) fun _ _ _ => plain_ok
termination_by 4 * c.size + 1
decreasing_by all_goals dsimp only at *; omega

theorem plain_statement (c : Cursor) : Plain c (statement c) := by
  rw [statement]
  split
  · exact plain_error
  · next t c₁ h₁ popped =>
    have same : c₁.report = c.report := report_of_pop? popped
    split
    · refine plain_bind ((plain_expectName c₁ _).behind same) fun _ c₂ h₂ => ?_
      refine plain_bind (plain_expectMark _ _ _) fun _ c₃ h₃ => ?_
      dsimp only
      refine plain_bind (plain_expression 0 c₃) fun _ c₄ h₄ => ?_
      exact plain_statementEnd fun _ _ => plain_ok
    · exact plain_bind ((plain_conditional _ c₁).behind same) fun _ _ _ => plain_ok
    · refine plain_bind ((plain_expression 0 c₁).behind same) fun _ c₂ h₂ => ?_
      exact plain_bind (plain_block c₂) fun _ _ _ => plain_ok
    · refine Plain.behind ?_ same
      split
      · exact plain_statementEnd fun _ _ => plain_ok
      · exact plain_bind (plain_expression 0 c₁) fun _ _ _ => plain_statementEnd fun _ _ => plain_ok
    · exact plain_bind (plain_expression 0 c) fun _ _ _ => plain_statementEnd fun _ _ => plain_ok
termination_by 4 * c.size
decreasing_by all_goals dsimp only at *; omega

theorem plain_conditional (start : Span) (c : Cursor) : Plain c (conditional start c) := by
  rw [conditional]
  refine plain_bind (plain_expression 0 c) fun _ c₁ h₁ => ?_
  dsimp only
  refine plain_bind (plain_block c₁) fun _ c₂ h₂ => ?_
  have hs := c₂.size_skipNewlines_le
  dsimp only
  split
  · exact plain_ok
  · next t c₃ h₃ otherwise =>
    have same : c₃.report = c₂.report := report_of_read? otherwise
    split
    · next t' c₄ h₄ again =>
      have same' : c₄.report = c₂.report := (report_of_read? again).trans same
      exact plain_bind ((plain_conditional _ c₄).behind same') fun _ _ _ => plain_ok
    · exact plain_bind ((plain_block c₃).behind same) fun _ _ _ => plain_ok
termination_by 4 * c.size
decreasing_by all_goals dsimp only at *; omega

end

/-! ### Declarations -/

theorem plain_typeName (c : Cursor) : Plain c (typeName c) := by
  unfold typeName
  split
  · next popped =>
    split
    · exact Plain.behind plain_ok (report_of_pop? popped)
    · exact Plain.behind plain_ok (report_of_pop? popped)
    · exact plain_error
  · exact plain_error

theorem plain_typeBehind? (mark : Mark) (c : Cursor) : Plain c (typeBehind? mark c) := by
  unfold typeBehind?
  split
  · next c₁ _ found =>
    refine Plain.behind ?_ (report_of_read? found)
    exact plain_bind (plain_typeName c₁) fun _ _ _ => plain_ok
  · exact plain_ok

theorem plain_valueBehind? (level : Nat) (c : Cursor) : Plain c (valueBehind? level c) := by
  unfold valueBehind?
  split
  · next c₁ _ found =>
    refine Plain.behind ?_ (report_of_read? found)
    exact plain_bind (plain_expression level c₁) fun _ _ _ => plain_ok
  · exact plain_ok

/-- The one finding of a reader that goes on: it carries no kind. -/
theorem plain_parameter (variadicSeen : Bool) (c : Cursor) :
    Plain c (parameter variadicSeen c) := by
  unfold parameter
  rcases dots : c.read? (·.isMark .dots) with _ | ⟨t, c₁, h₁⟩
  case' none => have same : c.report = c.report := rfl
  case' some => have same : c₁.report = c.report := report_of_read? dots
  all_goals
    refine plain_bind ((plain_expectName _ _).behind same) fun _ c₂ _ => ?_
    refine plain_bind (plain_typeBehind? _ c₂) fun _ c₃ _ => ?_
    refine plain_bind (plain_valueBehind? _ c₃) fun _ c₄ _ => ?_
    rintro _ ⟨⟩ kindless
    dsimp only
    split
    · exact kindless.add rfl
    · exact kindless

theorem plain_parameterList (variadicSeen : Bool) (c : Cursor) :
    Plain c (parameterList variadicSeen c) := by
  rw [parameterList]
  have hs := c.size_skipNewlines_le
  refine plain_bind ((plain_parameter _ c.skipNewlines).behind rfl) fun p c₁ h₁ => ?_
  have hs₁ := c₁.size_skipNewlines_le
  dsimp only
  split
  · next t c₂ h₂ popped =>
    have same : c₂.report = c₁.report := report_of_pop? popped
    split
    · exact plain_bind ((plain_parameterList _ c₂).behind same) fun _ _ _ => plain_ok
    · split
      · exact Plain.behind plain_ok same
      · exact plain_error
  · split
    · split
      · exact Plain.behind plain_ok rfl
      · exact plain_error
    · exact plain_error
termination_by c.size
decreasing_by all_goals dsimp only at *; omega

theorem plain_parameters (c : Cursor) : Plain c (parameters c) := by
  unfold parameters
  dsimp only
  split
  · next found => exact Plain.behind plain_ok (report_of_read? found)
  · exact plain_parameterList false c

theorem plain_function (start : Span) (c : Cursor) : Plain c (function start c) := by
  unfold function
  refine plain_bind (plain_expectName _ _) fun _ c₁ _ => ?_
  refine plain_bind (plain_expectMark _ _ _) fun _ c₂ _ => ?_
  refine plain_bind (plain_parameters c₂) fun _ c₃ _ => ?_
  refine plain_bind (plain_typeBehind? _ c₃) fun _ c₄ _ => ?_
  exact plain_bind (plain_block c₄) fun _ _ _ => plain_ok

theorem plain_field (c : Cursor) : Plain c (field c) := by
  unfold field
  refine plain_bind (plain_expectName _ _) fun _ c₁ _ => ?_
  refine plain_bind (plain_typeBehind? _ c₁) fun _ c₂ _ => ?_
  refine plain_bind (plain_valueBehind? _ c₂) fun _ _ _ => ?_
  exact plain_statementEnd fun _ _ => plain_ok

theorem plain_classBody (c : Cursor) : Plain c (classBody c) := by
  rw [classBody]
  have hs := c.size_skipSeparators_le
  split
  · exact plain_error
  · next t c₁ h₁ popped =>
    have same : c₁.report = c.report := report_of_pop? popped
    refine Plain.behind ?_ same
    split
    · exact plain_ok
    · split
      · refine plain_bind (plain_field c₁) fun _ c₂ h₂ => ?_
        exact plain_bind (plain_classBody c₂) fun _ _ _ => plain_ok
      · split
        · refine plain_bind (plain_function _ c₁) fun _ c₂ h₂ => ?_
          exact plain_bind (plain_classBody c₂) fun _ _ _ => plain_ok
        · exact plain_error
termination_by c.size
decreasing_by all_goals omega

theorem plain_classDecl (c : Cursor) : Plain c (classDecl c) := by
  unfold classDecl
  refine plain_bind (plain_expectName _ _) fun _ c₁ _ => ?_
  refine plain_bind (plain_expectMark _ _ _) fun _ c₂ _ => ?_
  exact plain_bind (plain_classBody c₂) fun _ _ _ => plain_ok

theorem plain_global (constant : Bool) (c : Cursor) : Plain c (global constant c) := by
  unfold global
  refine plain_bind (plain_expectName _ _) fun _ c₁ _ => ?_
  refine plain_bind (plain_typeBehind? _ c₁) fun _ c₂ _ => ?_
  refine plain_bind (plain_expectMark _ _ _) fun _ c₃ _ => ?_
  refine plain_bind (plain_expression 0 c₃) fun _ _ _ => ?_
  exact plain_statementEnd fun _ _ => plain_ok

theorem plain_item (c : Cursor) : Plain c (item c) := by
  unfold item
  split
  · exact plain_error
  · next t c₁ h₁ popped =>
    have same : c₁.report = c.report := report_of_pop? popped
    refine Plain.behind ?_ same
    split
    · exact plain_bind (plain_function _ c₁) fun _ _ _ => plain_ok
    · exact plain_bind (plain_classDecl c₁) fun _ _ _ => plain_ok
    · exact plain_bind (plain_global _ c₁) fun _ _ _ => plain_ok
    · exact plain_bind (plain_global _ c₁) fun _ _ _ => plain_ok
    · exact plain_error

theorem kindless_items (c : Cursor) {found : List Item} {report : Report}
    (h : items c = .ok (found, report)) (kindless : c.report.Kindless) : report.Kindless := by
  rw [items] at h
  have hs := c.size_skipSeparators_le
  split at h
  · cases h
    exact kindless
  · obtain ⟨⟨i, c₁, h₁⟩, read, h⟩ := bind_eq_ok h
    obtain ⟨⟨others, report'⟩, read', h⟩ := bind_eq_ok h
    cases h
    exact kindless_items c₁ read' (plain_item c.skipSeparators _ read kindless)
termination_by c.size

end Reading

theorem Module.kindless_ofText {text : String} {m : Module} {report : Report}
    (h : Module.ofText text = .ok (m, report)) : report.Kindless := by
  obtain ⟨row, -, parsed⟩ := Module.exists_tokens h
  obtain ⟨⟨items, report'⟩, read, made⟩ := bind_eq_ok parsed
  cases made
  exact Reading.kindless_items (Cursor.ofRow _) read nofun

/-! ## Declarations -/

namespace Filing

variable {s : Filing}

theorem kindless_note (h : s.report.Kindless) {ds : List Diagnostic}
    (none_ : ∀ d ∈ ds, d.kind = none) : (s.note ds).report.Kindless := by
  unfold note
  dsimp only
  generalize s.report = r at h ⊢
  induction ds generalizing r with
  | nil => exact h
  | cons d rest ih =>
    obtain ⟨first, others⟩ := List.forall_mem_cons.1 none_
    exact ih others _ (h.add first)

theorem kindless_unknownTypes (t : SymbolTable) (as : List TypeName) :
    ∀ d ∈ t.unknownTypes as, d.kind = none := fun d hd => by
  obtain ⟨a, -, rfl⟩ := List.mem_map.1 hd
  rfl

theorem kindless_addMethod (h : s.report.Kindless) (owner : Option Nat) (f : FunctionDecl) :
    (s.addMethod owner f).report.Kindless := kindless_note h (kindless_unknownTypes _ _)

theorem kindless_addField (h : s.report.Kindless) (className : String) (id : Nat) (f : FieldDecl) :
    (addField className id s f).report.Kindless := by
  unfold addField
  split
  · exact kindless_note h (List.forall_mem_singleton.2 rfl)
  · exact kindless_note h (kindless_unknownTypes _ _)

theorem kindless_addClassMethod (h : s.report.Kindless) (className : String) (id : Nat)
    (f : FunctionDecl) : (addClassMethod className id s f).report.Kindless := by
  refine kindless_addMethod (kindless_note h ?_) (some id) f
  split
  · exact List.forall_mem_singleton.2 rfl
  · nofun

theorem kindless_addClass (h : s.report.Kindless) (c : ClassDecl) :
    (s.addClass c).report.Kindless := by
  unfold addClass
  split
  · exact h
  · split
    · refine foldl_keeps (Q := fun s => s.report.Kindless)
        (fun s f _ h => kindless_addClassMethod h _ _ f) ?_
      refine foldl_keeps (Q := fun s => s.report.Kindless)
        (fun s f _ h => kindless_addField h _ _ f) ?_
      refine kindless_note h ?_
      split
      · exact List.forall_mem_singleton.2 rfl
      · nofun
    · exact h

theorem kindless_addItem (h : s.report.Kindless) (i : Item) : (s.addItem i).report.Kindless := by
  cases i with
  | function f =>
    simp only [addItem, addFunction]
    split
    · exact kindless_note h (List.forall_mem_singleton.2 rfl)
    · exact kindless_note h (List.forall_mem_singleton.2 rfl)
    · exact kindless_addMethod h none f
  | class_ c => exact kindless_addClass h c
  | global g =>
    simp only [addItem, addGlobal]
    split
    · exact kindless_note h (List.forall_mem_singleton.2 rfl)
    · exact kindless_note h (kindless_unknownTypes _ _)

theorem kindless_nameItem (h : s.report.Kindless) (i : Item) : (s.nameItem i).report.Kindless := by
  cases i with
  | class_ c =>
    simp only [nameItem, nameClass]
    split
    · exact kindless_note h (List.forall_mem_singleton.2 rfl)
    · exact h
  | function _ | global _ => exact h

end Filing

theorem SymbolTable.kindless_ofModule (m : Module) : (SymbolTable.ofModule m).2.Kindless := by
  refine Filing.foldl_keeps (Q := fun s => s.report.Kindless)
    (fun _ i _ h => Filing.kindless_addItem h i) ?_
  exact Filing.foldl_keeps (Q := fun s => s.report.Kindless)
    (fun _ i _ h => Filing.kindless_nameItem h i) nofun

end PathTyping
