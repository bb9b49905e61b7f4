import PathTyping.Proofs.Grammar

/-!
# Printed modules

Statements, fields and declarations are written with a newline behind each, blocks in braces.  The
written form is not unique: any number of newlines may stand in front of an `else`, a block of
one conditional may be written as an `else if`, and the fields and methods of a class may stand in
any order.

1. `Written` relates statements and blocks to their words, `WrittenItems` whole modules.
2. `Module.Writable` is what a module must keep to so that it is read as it was written.
3. `Module.exists_row`: every module can be written.
-/

namespace PathTyping

/-! ## Trees without their spans -/

namespace Stmt

mutual

def bare : Stmt → Stmt
  | var _ n e => var .absent n e.bare
  | cond _ c a b =>
    cond .absent c.bare (bareBlock a)
      (match b with
        | some b => some (bareBlock b)
        | none => none)
  | loop _ c b => loop .absent c.bare (bareBlock b)
  | ret _ (some e) => ret .absent (some e.bare)
  | ret _ none => ret .absent none
  | expr e => expr e.bare
termination_by structural s => s

def bareBlock : List Stmt → List Stmt
  | [] => []
  | s :: rest => bare s :: bareBlock rest
termination_by structural b => b

end

end Stmt

def TypeName.bare (t : TypeName) : TypeName := ⟨t.name, .absent⟩

def Parameter.bare (p : Parameter) : Parameter :=
  ⟨p.name, .absent, p.typeName.map TypeName.bare, p.default.map Expr.bare, p.variadic⟩

def FunctionDecl.bare (f : FunctionDecl) : FunctionDecl :=
  ⟨f.name, .absent, f.parameters.map Parameter.bare, f.returns.map TypeName.bare,
    Stmt.bareBlock f.body, .absent⟩

def FieldDecl.bare (f : FieldDecl) : FieldDecl :=
  ⟨f.name, .absent, f.typeName.map TypeName.bare, f.value.map Expr.bare⟩

def ClassDecl.bare (d : ClassDecl) : ClassDecl :=
  ⟨d.name, .absent, d.fields.map FieldDecl.bare, d.methods.map FunctionDecl.bare⟩

def GlobalDecl.bare (g : GlobalDecl) : GlobalDecl :=
  ⟨g.constant, g.name, .absent, g.typeName.map TypeName.bare, g.value.bare⟩

def Item.bare : Item → Item
  | function f => function f.bare
  | class_ d => class_ d.bare
  | global g => global g.bare

def Module.bare (m : Module) : Module := ⟨m.items.map Item.bare⟩

/-! ## Written forms -/

/-- The parts of a function body as they are written. -/
inductive Phrase
  | statement (s : Stmt)
  /-- What stands behind the `if` of a conditional. -/
  | conditional (s : Stmt)
  | block (b : List Stmt)
  /-- Statements up to the brace that closes their block. -/
  | statements (b : List Stmt)

inductive Written : Phrase → List TokenWord → Prop
  | var (s : Span) (n : String) (e : Expr) :
    Written (.statement (.var s n e))
      (.keyword .var :: .name n :: .mark .equal :: (e.words ++ [.newline]))
  | cond {s : Stmt} {ws : List TokenWord} (h : Written (.conditional s) ws) :
    Written (.statement s) (.keyword .if_ :: (ws ++ [.newline]))
  | loop (s : Span) (c : Expr) {b : List Stmt} {ws : List TokenWord} (h : Written (.block b) ws) :
    Written (.statement (.loop s c b)) (.keyword .while_ :: (c.words ++ ws ++ [.newline]))
  | leave (s : Span) : Written (.statement (.ret s none)) [.keyword .return_, .newline]
  | ret (s : Span) (e : Expr) :
    Written (.statement (.ret s (some e))) (.keyword .return_ :: (e.words ++ [.newline]))
  | expr (e : Expr) : Written (.statement (.expr e)) (e.words ++ [.newline])
  | alone (s : Span) (c : Expr) {a : List Stmt} {ws : List TokenWord} (h : Written (.block a) ws) :
    Written (.conditional (.cond s c a none)) (c.words ++ ws)
  | otherwise (s : Span) (c : Expr) {a b : List Stmt} {ws vs : List TokenWord} (newlines : Nat)
    (h : Written (.block a) ws) (h' : Written (.block b) vs) :
    Written (.conditional (.cond s c a (some b)))
      (c.words ++ ws ++ (List.replicate newlines .newline ++ .keyword .else_ :: vs))
  | otherwiseIf (s : Span) (c : Expr) {a : List Stmt} {t : Stmt} {ws vs : List TokenWord}
    (newlines : Nat) (h : Written (.block a) ws) (h' : Written (.conditional t) vs) :
    Written (.conditional (.cond s c a (some [t])))
      (c.words ++ ws ++
        (List.replicate newlines .newline ++ .keyword .else_ :: .keyword .if_ :: vs))
  | block {b : List Stmt} {ws : List TokenWord} (h : Written (.statements b) ws) :
    Written (.block b) (.mark .lbrace :: ws)
  | nil : Written (.statements []) [.mark .rbrace]
  | cons {s : Stmt} {b : List Stmt} {ws vs : List TokenWord} (h : Written (.statement s) ws)
    (h' : Written (.statements b) vs) : Written (.statements (s :: b)) (ws ++ vs)

/-- A type behind `mark`, if there is one. -/
def typeWords (mark : Mark) : Option TypeName → List TokenWord
  | some t => [.mark mark, .name t.name]
  | none => []

/-- A value behind `=`, if there is one. -/
def valueWords : Option Expr → List TokenWord
  | some e => .mark .equal :: e.words
  | none => []

def Parameter.words (p : Parameter) : List TokenWord :=
  (if p.variadic then [.mark .dots] else []) ++
    .name p.name :: (typeWords .colon p.typeName ++ valueWords p.default)

/-- What stands behind the `fn` of a function. -/
def FunctionDecl.Written (f : FunctionDecl) (ws : List TokenWord) : Prop :=
  ∃ body, PathTyping.Written (.block f.body) body ∧
    ws = .name f.name :: .mark .lparen ::
      ([.mark .comma].intercalate (f.parameters.map Parameter.words) ++
        .mark .rparen :: (typeWords .arrow f.returns ++ body))

/-- What stands behind the `var` of a field. -/
def FieldDecl.words (f : FieldDecl) : List TokenWord :=
  .name f.name :: (typeWords .colon f.typeName ++ (valueWords f.value ++ [.newline]))

/-- The fields and methods of a class, in any order, and the brace that closes it. -/
inductive WrittenBody : List FieldDecl → List FunctionDecl → List TokenWord → Prop
  | nil : WrittenBody [] [] [.mark .rbrace]
  | field (f : FieldDecl) {fields : List FieldDecl} {methods : List FunctionDecl}
    {ws : List TokenWord} (h : WrittenBody fields methods ws) :
    WrittenBody (f :: fields) methods (.keyword .var :: (f.words ++ ws))
  | method {f : FunctionDecl} {fields : List FieldDecl} {methods : List FunctionDecl}
    {ws vs : List TokenWord} (h : f.Written ws) (h' : WrittenBody fields methods vs) :
    WrittenBody fields (f :: methods) (.keyword .fn :: (ws ++ .newline :: vs))

inductive Item.Written : Item → List TokenWord → Prop
  | function {f : FunctionDecl} {ws : List TokenWord} (h : f.Written ws) :
    Written (.function f) (.keyword .fn :: (ws ++ [.newline]))
  | class_ (d : ClassDecl) {ws : List TokenWord} (h : WrittenBody d.fields d.methods ws) :
    Written (.class_ d)
      (.keyword .class_ :: .name d.name :: .mark .lbrace :: (ws ++ [.newline]))
  | global (g : GlobalDecl) :
    Written (.global g)
      (.keyword (if g.constant then .const else .var) :: .name g.name ::
        (typeWords .colon g.typeName ++ .mark .equal :: (g.value.words ++ [.newline])))

/-- The items of a module one after the other. -/
inductive WrittenItems : List Item → List TokenWord → Prop
  | nil : WrittenItems [] []
  | cons {i : Item} {is : List Item} {ws vs : List TokenWord} (h : i.Written ws)
    (h' : WrittenItems is vs) : WrittenItems (i :: is) (ws ++ vs)

/-! ### What can be written -/

def Expr.isAssign : Expr → Bool
  | assign _ _ _ => true
  | _ => false

theorem Expr.one_lt_binds {e : Expr} (h : e.isAssign = false) : 1 < e.binds := by
  cases e with
  | assign => cases h
  | binary s op l r => exact op.one_lt_level
  | _ => simp [binds]

/-- Expressions are stratified, defaults are no assignments, and nothing follows a parameter that
takes all arguments from its position on. -/
structure FunctionDecl.Writable (f : FunctionDecl) : Prop where
  body : ∀ e ∈ f.expressions, e.isStratified = true
  defaults : ∀ p ∈ f.parameters, ∀ e ∈ p.default, e.isStratified = true ∧ e.isAssign = false
  variadic : f.parameters.Pairwise fun p _ => p.variadic = false

def Item.Writable : Item → Prop
  | function f => f.Writable
  | class_ d =>
    (∀ f ∈ d.fields, ∀ e ∈ f.value, e.isStratified = true) ∧ ∀ f ∈ d.methods, f.Writable
  | global g => g.value.isStratified = true

def Module.Writable (m : Module) : Prop := ∀ i ∈ m.items, i.Writable

/-! ## Every module can be written -/

/-- There are tokens that spell the words. -/
def Spelled (ws : List TokenWord) : Prop := ∀ w ∈ ws, w.token.word = w

@[simp] theorem spelled_nil : Spelled [] := nofun

@[simp] theorem spelled_cons {w : TokenWord} {ws : List TokenWord} :
    Spelled (w :: ws) ↔ w.token.word = w ∧ Spelled ws := List.forall_mem_cons

@[simp] theorem spelled_append_iff {ws vs : List TokenWord} :
    Spelled (ws ++ vs) ↔ Spelled ws ∧ Spelled vs := List.forall_mem_append

@[simp] theorem token_word_newline : TokenWord.newline.token.word = .newline := rfl

@[simp] theorem token_word_mark (m : Mark) : (TokenWord.mark m).token.word = .mark m := rfl

@[simp] theorem token_word_name (n : String) : (TokenWord.name n).token.word = .name n := rfl

theorem token_word_keyword {k : Keyword} (other : k ≠ .not) :
    (TokenWord.keyword k).token.word = .keyword k := by
  cases k <;> first | rfl | exact absurd rfl other

@[simp] theorem Expr.spelled_words (e : Expr) : Spelled e.words :=
  fun w hw => TokenWord.word_token (e.isInner_words w hw)

theorem spelled_intercalate {w : TokenWord} (h : w.token.word = w) {wss : List (List TokenWord)}
    (all : ∀ ws ∈ wss, Spelled ws) : Spelled ([w].intercalate wss) := by
  induction wss with
  | nil => exact spelled_nil
  | cons ws wss ih =>
    obtain ⟨first, others⟩ := List.forall_mem_cons.1 all
    cases wss with
    | nil => simpa using first
    | cons vs wss =>
      rw [List.intercalate_cons_cons, spelled_append_iff, spelled_append_iff]
      exact ⟨⟨first, spelled_cons.2 ⟨h, spelled_nil⟩⟩, ih others⟩

theorem spelled_typeWords (m : Mark) (type : Option TypeName) : Spelled (typeWords m type) := by
  cases type <;> simp [typeWords]

theorem spelled_valueWords (value : Option Expr) : Spelled (valueWords value) := by
  cases value <;> simp [valueWords]

theorem Parameter.spelled_words (p : Parameter) : Spelled p.words := by
  unfold Parameter.words
  cases p.variadic <;> simp [spelled_typeWords, spelled_valueWords]

mutual

theorem exists_statement (s : Stmt) : ∃ ws, Written (.statement s) ws ∧ Spelled ws := by
  match s with
  | .var s n e => exact ⟨_, .var s n e, by simp [token_word_keyword]⟩
  | .cond s c a none =>
    obtain ⟨ws, written, spelled⟩ := exists_statements a
    exact ⟨_, .cond (.alone s c (.block written)), by simp [token_word_keyword, spelled]⟩
  | .cond s c a (some b) =>
    obtain ⟨ws, written, spelled⟩ := exists_statements a
    obtain ⟨vs, written', spelled'⟩ := exists_statements b
    refine ⟨_, .cond (.otherwise s c 0 (.block written) (.block written')), ?_⟩
    simp [token_word_keyword, spelled, spelled']
  | .loop s c b =>
    obtain ⟨ws, written, spelled⟩ := exists_statements b
    exact ⟨_, .loop s c (.block written), by simp [token_word_keyword, spelled]⟩
  | .ret s none => exact ⟨_, .leave s, by simp [token_word_keyword]⟩
  | .ret s (some e) => exact ⟨_, .ret s e, by simp [token_word_keyword]⟩
  | .expr e => exact ⟨_, .expr e, by simp⟩
termination_by structural s

theorem exists_statements (b : List Stmt) : ∃ ws, Written (.statements b) ws ∧ Spelled ws := by
  match b with
  | [] => exact ⟨_, .nil, by simp⟩
  | s :: b =>
    obtain ⟨ws, written, spelled⟩ := exists_statement s
    obtain ⟨vs, written', spelled'⟩ := exists_statements b
    exact ⟨_, .cons written written', spelled_append_iff.2 ⟨spelled, spelled'⟩⟩
termination_by structural b

end

theorem FunctionDecl.exists_written (f : FunctionDecl) : ∃ ws, f.Written ws ∧ Spelled ws := by
  obtain ⟨ws, written, spelled⟩ := exists_statements f.body
  refine ⟨_, ⟨_, .block written, rfl⟩, ?_⟩
  have given :
      Spelled ([TokenWord.mark .comma].intercalate (f.parameters.map Parameter.words)) := by
    refine spelled_intercalate rfl fun us hus => ?_
    obtain ⟨p, -, rfl⟩ := List.mem_map.1 hus
    exact p.spelled_words
  simp [given, spelled_typeWords, spelled]

theorem exists_body (fields : List FieldDecl) (methods : List FunctionDecl) :
    ∃ ws, WrittenBody fields methods ws ∧ Spelled ws := by
  induction fields with
  | nil =>
    induction methods with
    | nil => exact ⟨_, .nil, by simp⟩
    | cons f methods ih =>
      obtain ⟨ws, written, spelled⟩ := f.exists_written
      obtain ⟨vs, written', spelled'⟩ := ih
      exact ⟨_, .method written written', by simp [token_word_keyword, spelled, spelled']⟩
  | cons f fields ih =>
    obtain ⟨ws, written, spelled⟩ := ih
    refine ⟨_, .field f written, ?_⟩
    simp [FieldDecl.words, token_word_keyword, spelled_typeWords, spelled_valueWords, spelled]

theorem Item.exists_written (i : Item) : ∃ ws, i.Written ws ∧ Spelled ws := by
  cases i with
  | function f =>
    obtain ⟨ws, written, spelled⟩ := f.exists_written
    exact ⟨_, .function written, by simp [token_word_keyword, spelled]⟩
  | class_ d =>
    obtain ⟨ws, written, spelled⟩ := exists_body d.fields d.methods
    exact ⟨_, .class_ d written, by simp [token_word_keyword, spelled]⟩
  | global g =>
    refine ⟨_, .global g, ?_⟩
    cases g.constant <;> simp [token_word_keyword, spelled_typeWords]

theorem Module.exists_row (m : Module) :
    ∃ row : TokenRow, WrittenItems m.items (row.tokens.map Token.word) := by
  have written : ∃ ws, WrittenItems m.items ws ∧ Spelled ws := by
    induction m.items with
    | nil => exact ⟨_, .nil, spelled_nil⟩
    | cons i is ih =>
      obtain ⟨ws, written, spelled⟩ := i.exists_written
      obtain ⟨vs, written', spelled'⟩ := ih
      exact ⟨_, .cons written written', spelled_append_iff.2 ⟨spelled, spelled'⟩⟩
  obtain ⟨ws, written, spelled⟩ := written
  have back : (ws.map TokenWord.token).map Token.word = ws := by
    rw [List.map_map]
    exact (List.map_congr_left spelled).trans (List.map_id ws)
  exact ⟨⟨ws.map TokenWord.token, Place.start⟩, back.symm ▸ written⟩

end PathTyping
