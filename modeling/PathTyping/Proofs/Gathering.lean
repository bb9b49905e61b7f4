import PathTyping.Proofs.Failures
import PathTyping.Proofs.Refusals

/-!
# Reports gather what is reported

A report keeps, of all that is added to it and to the reports that are merged into it, the first of
each kind, span and message.  The level takes no part in that, so an error would be lost behind a
warning or a note with its words.  But the words of a diagnostic and its kind tell its level.

1. `Report.Collects.entries_eq`: what is left of all that is reported (`Diagnostic.distinct`).
2. `Report.mem_of_has`: among lawful diagnostics, those of which the report has one with the same
   words are entries themselves.
3. `Filing.report_eq`: what is reported while declarations are filed, note by note.
-/

namespace PathTyping

/-! ## The first of each -/

namespace Diagnostic

variable {d e : Diagnostic} {ds es : List Diagnostic}

/-- Of those that are the same, the first. -/
def distinct : List Diagnostic → List Diagnostic
  | [] => []
  | d :: rest => d :: (distinct rest).filter fun e => !d.same e

@[simp] theorem distinct_nil : distinct [] = [] := rfl

theorem distinct_cons (d : Diagnostic) (ds : List Diagnostic) :
    distinct (d :: ds) = d :: (distinct ds).filter fun e => !d.same e := rfl

theorem same_comm (d e : Diagnostic) : d.same e = e.same d := by
  rw [Bool.eq_iff_iff, same_iff, same_iff]
  exact ⟨fun ⟨k, s, m⟩ => ⟨k.symm, s.symm, m.symm⟩, fun ⟨k, s, m⟩ => ⟨k.symm, s.symm, m.symm⟩⟩

/-- What is the same as one of two that are the same is the same as the other. -/
theorem same_left (h : d.same e = true) : d.same = e.same := by
  obtain ⟨kind, span, message⟩ := same_iff.1 h
  funext f
  rw [same, same, kind, span, message]

/-- Some of the list is the same as `d`. -/
def isAmong (ds : List Diagnostic) (d : Diagnostic) : Bool := ds.any (·.same d)

theorem isAmong_distinct (ds : List Diagnostic) (d : Diagnostic) :
    isAmong (distinct ds) d = isAmong ds d := by
  induction ds with
  | nil => rfl
  | cons e rest ih =>
    simp only [isAmong, distinct_cons, List.any_cons, List.any_filter] at ih ⊢
    cases same : e.same d with
    | true => rfl
    | false =>
      rw [Bool.false_or, Bool.false_or, ← ih]
      congr 1
      funext f
      cases other : f.same d with
      | false => rw [Bool.and_false]
      | true => rw [same_comm e f, same_left other, same_comm d e, same]; rfl

theorem distinct_append (ds es : List Diagnostic) : distinct (ds ++ es) =
    distinct ds ++ (distinct es).filter fun e => !isAmong ds e := by
  induction ds with
  | nil => simp [isAmong]
  | cons d rest ih =>
    simp only [List.cons_append, distinct_cons, ih, List.filter_append, List.filter_filter, isAmong,
      List.any_cons, Bool.not_or]

theorem distinct_filter (p : Diagnostic → Bool) (alike : ∀ d e, d.same e = true → p d = p e)
    (ds : List Diagnostic) : distinct (ds.filter p) = (distinct ds).filter p := by
  induction ds with
  | nil => rfl
  | cons d rest ih =>
    cases kept : p d with
    | true =>
      rw [List.filter_cons_of_pos kept, distinct_cons, distinct_cons,
        List.filter_cons_of_pos kept, ih, List.filter_filter, List.filter_filter]
      simp only [Bool.and_comm]
    | false =>
      rw [List.filter_cons_of_neg (by simp [kept]), distinct_cons,
        List.filter_cons_of_neg (by simp [kept]), ih, List.filter_filter]
      refine (List.filter_congr fun e _ => ?_).symm
      cases same : d.same e with
      | false => simp
      | true => rw [← alike d e same, kept, Bool.false_and]

theorem distinct_distinct (ds : List Diagnostic) : distinct (distinct ds) = distinct ds := by
  induction ds with
  | nil => rfl
  | cons d rest ih =>
    have alike (e f : Diagnostic) (h : e.same f = true) : (!d.same e) = !d.same f := by
      rw [same_comm d e, same_left h, same_comm f d]
    rw [distinct_cons, distinct_cons, distinct_filter _ alike, ih, List.filter_filter]
    simp only [Bool.and_self]

end Diagnostic

namespace Report

open Diagnostic

variable {r r' : Report} {d : Diagnostic} {ds ds' : List Diagnostic}

/-- What is added to a report that keeps the first of each. -/
theorem entries_foldl_add (ds : List Diagnostic) {known : List Diagnostic}
    (h : r.entries = distinct known) : (ds.foldl add r).entries = distinct (known ++ ds) := by
  induction ds generalizing r known with
  | nil => rw [List.append_nil]; exact h
  | cons d rest ih =>
    have added : (r.add d).entries = distinct (known ++ [d]) := by
      have among : r.has d = isAmong known d :=
        (congrArg (isAmong · d) h).trans (isAmong_distinct known d)
      rw [distinct_append]
      cases has : r.has d with
      | true => simp [add_of_has has, h, distinct_cons, ← among, has]
      | false => simp [entries_add has, h, distinct_cons, ← among, has]
    rw [List.foldl_cons, ih added, List.append_assoc]
    rfl

/-- The report comes about by adding diagnostics and by merging other reports that have come about
so.  In all, `ds` have been reported, in this order. -/
inductive Collects : List Diagnostic → Report → Prop
  | empty : Collects [] .empty
  | add {ds : List Diagnostic} {r : Report} (h : Collects ds r) (d : Diagnostic) :
      Collects (ds ++ [d]) (r.add d)
  | merge {ds ds' : List Diagnostic} {r r' : Report} (h : Collects ds r) (h' : Collects ds' r') :
      Collects (ds ++ ds') (r.merge r')

theorem Collects.entries_eq (h : Collects ds r) : r.entries = distinct ds := by
  induction h with
  | empty => rfl
  | add _ d ih => exact entries_foldl_add [d] ih
  | @merge ds ds' r r' _ _ ih ih' =>
    rw [Report.merge, entries_foldl_add _ ih, ih', distinct_append, distinct_append,
      distinct_distinct]

theorem has_of_mem (h : d ∈ r.entries) : r.has d = true :=
  List.any_eq_true.2 ⟨d, h, same_iff.2 ⟨rfl, rfl, rfl⟩⟩

theorem has_foldl_add (h : r.has d = true ∨ d ∈ ds) : (ds.foldl add r).has d = true :=
  @has_merge r ⟨ds⟩ d (h.imp_right has_of_mem)

theorem mem_foldl_add (h : d ∈ (ds.foldl add r).entries) : d ∈ r.entries ∨ d ∈ ds :=
  @mem_merge r ⟨ds⟩ d h

end Report

/-! ## Levels -/

namespace Diagnostic

/-- The level of diagnostics of that kind with that message.  Without a kind, only the message that
a field hides a method is a warning. -/
def levelBy (kind : Option Kind) (message : String) : Level :=
  match kind with
  | some .loopCutoff | some .recursionCutoff => .note
  | some _ => .error
  | none => if message.toList.head? = some 'm' then .warning else .error

/-- The kind and the words of the diagnostic tell its level. -/
def Lawful (d : Diagnostic) : Prop := d.level = levelBy d.kind d.message

theorem lawful_finding (f : Finding) (span : Span) : (f.diagnostic span).Lawful := by
  cases f <;> rfl

theorem lawful_lowering (e : LowerError) : e.diagnostic.Lawful := rfl

-- Messages are opened at their first letter only: to spell out a literal is slow.

theorem head_literal {c : Char} {cs : List Char} :
    (String.ofList (c :: cs)).toList.head? = some c :=
  congrArg List.head? String.toList_ofList

theorem head_append {s : String} {c : Char} (h : s.toList.head? = some c) (s' : String) :
    (s ++ s').toList.head? = some c := by
  rw [String.toList_append, List.head?_append, h]
  rfl

theorem lawful_error {message : String} {c : Char} (head : message.toList.head? = some c)
    (other : c ≠ 'm') (span : Option Span) : (error message span).Lawful :=
  (if_neg fun same => other (Option.some.inj (head.symm.trans same))).symm

theorem lawful_scan (e : ScanError) (span : Option Span) : (error e.message span).Lawful := by
  cases e with
  | unexpectedCharacter | invalidNumber =>
    exact lawful_error (head_append (head_append (head_append head_literal _) _) _) (by decide) span
  | unterminatedString => exact lawful_error (head_append head_literal _) (by decide) span

theorem head_expectation (what : Expectation) :
    ∃ c, what.text.toList.head? = some c ∧ c ≠ 'm' := by
  cases what <;> exact ⟨_, head_literal, by decide⟩

theorem lawful_parse (e : ParseError) : e.diagnostic.Lawful := by
  cases e with
  | expected what found =>
    obtain ⟨c, head, other⟩ := head_expectation what
    exact lawful_error (head_append (head_append (head_append head _) _) _) other _
  | invalidTarget | nothingToRead => exact lawful_error head_literal (by decide) _

theorem lawful_followsVariadic (p : Parameter) : (Reading.followsVariadic p).Lawful :=
  lawful_error (head_append (head_append head_literal _) _) (by decide) _

theorem lawful_rejection (i : Item) : i.rejection.Lawful := by
  cases i <;> exact lawful_error (head_append (head_append head_literal _) _) (by decide) _

theorem lawful_duplicateField (className : String) (f : FieldDecl) :
    (duplicateField className f).Lawful :=
  lawful_error (head_append (head_append (head_append (head_append head_literal _) _) _) _)
    (by decide) _

theorem lawful_alreadyDeclared (name : String) (span : Span) :
    (Filing.alreadyDeclared name span).Lawful :=
  lawful_error (head_append (head_append head_literal _) _) (by decide) _

theorem lawful_unknownTypes (t : SymbolTable) (as : List TypeName) :
    ∀ d ∈ t.unknownTypes as, d.Lawful := by
  intro d hd
  obtain ⟨a, -, rfl⟩ := List.mem_map.1 hd
  exact lawful_error (head_append (head_append head_literal _) _) (by decide) _

end Diagnostic

/-- Of a lawful diagnostic, the report does not only have another with its words. -/
theorem Report.mem_of_has {r : Report} {d : Diagnostic} (lawful : ∀ e ∈ r.entries, e.Lawful)
    (hd : d.Lawful) (h : r.has d = true) : d ∈ r.entries := by
  obtain ⟨e, he, same⟩ := List.any_eq_true.1 h
  obtain ⟨kind, span, message⟩ := Diagnostic.same_iff.1 same
  have level : e.level = d.level := by rw [lawful e he, hd, kind, message]
  obtain rfl : e = d := by
    cases e
    cases d
    cases kind
    cases span
    cases message
    cases level
    rfl
  exact he

/-! ## Declarations -/

namespace Filing

/-- All that is reported while some are filed, one behind the other. -/
def notesOf {α : Type} (step : Filing → α → Filing) (notes : Filing → α → List Diagnostic) :
    Filing → List α → List Diagnostic
  | _, [] => []
  | s, x :: rest => notes s x ++ notesOf step notes (step s x) rest

def nameNotes (s : Filing) : Item → List Diagnostic
  | .class_ c => if (s.table.findClass? c.name).isSome then [duplicateClass c] else []
  | _ => []

def fieldNotes (className : String) (id : Nat) (s : Filing) (f : FieldDecl) : List Diagnostic :=
  if (s.table.class_ id).fields.any (·.name == f.name) then [duplicateField className f]
  else s.table.unknownTypes f.typeName.toList

def shadowed (className : String) (f : FunctionDecl) : Diagnostic :=
  .warning ("method '" ++ f.name ++ "' is shadowed by a field of class '" ++ className ++ "'")
    (some f.nameSpan)

def methodNotes (className : String) (id : Nat) (s : Filing) (f : FunctionDecl) :
    List Diagnostic :=
  (if (s.table.class_ id).fields.any (·.name == f.name) then [shadowed className f] else []) ++
    s.table.unknownTypes f.typeNames

def classNotes (s : Filing) (c : ClassDecl) : List Diagnostic :=
  match s.table.findClass? c.name with
  | none => []
  | some id =>
    if (s.table.class_ id).span = c.nameSpan then
      let named := if (s.table.getMember? c.name).isSome then
        [alreadyDeclared c.name c.nameSpan] else []
      let s := (s.note named).addMember c.name (.class_ id)
      named ++ notesOf (addField c.name id) (fieldNotes c.name id) s c.fields ++
        notesOf (addClassMethod c.name id) (methodNotes c.name id)
          (c.fields.foldl (addField c.name id) s) c.methods
    else []

def itemNotes (s : Filing) : Item → List Diagnostic
  | .function f =>
    match s.table.getMember? f.name with
    | some (.class_ _) | some (.global _) => [alreadyDeclared f.name f.nameSpan]
    | _ => s.table.unknownTypes f.typeNames
  | .class_ c => s.classNotes c
  | .global g =>
    if (s.table.getMember? g.name).isSome then [alreadyDeclared g.name g.span]
    else s.table.unknownTypes g.typeName.toList

/-- All that is reported while the declarations of a module are filed, in its order. -/
def notes (m : Module) : List Diagnostic :=
  notesOf nameItem nameNotes empty m.items ++
    notesOf addItem itemNotes (m.items.foldl nameItem empty) m.items

variable {α : Type} {step : Filing → α → Filing} {notes : Filing → α → List Diagnostic}

theorem report_foldl (h : ∀ s x, (step s x).report = (notes s x).foldl .add s.report) (xs : List α)
    (s : Filing) : (xs.foldl step s).report = (notesOf step notes s xs).foldl .add s.report := by
  induction xs generalizing s with
  | nil => rfl
  | cons x rest ih => rw [List.foldl_cons, ih, h, notesOf, List.foldl_append]

theorem report_addField (className : String) (id : Nat) (s : Filing) (f : FieldDecl) :
    (addField className id s f).report = (fieldNotes className id s f).foldl .add s.report := by
  unfold addField fieldNotes
  split <;> rfl

theorem report_addClassMethod (className : String) (id : Nat) (s : Filing) (f : FunctionDecl) :
    (addClassMethod className id s f).report =
      (methodNotes className id s f).foldl .add s.report := by
  rw [methodNotes, List.foldl_append]
  rfl

theorem report_addClass (s : Filing) (c : ClassDecl) :
    (s.addClass c).report = (s.classNotes c).foldl .add s.report := by
  unfold addClass classNotes
  rcases s.table.findClass? c.name with _ | id
  · rfl
  by_cases mine : (s.table.class_ id).span = c.nameSpan
  · simp only [if_pos mine]
    rw [report_foldl (report_addClassMethod c.name id), report_foldl (report_addField c.name id),
      List.foldl_append, List.foldl_append]
    rfl
  · simp only [if_neg mine]
    rfl

theorem report_addItem (s : Filing) (i : Item) :
    (s.addItem i).report = (s.itemNotes i).foldl .add s.report := by
  cases i with
  | function f =>
    simp only [addItem, addFunction, itemNotes]
    rcases s.table.getMember? f.name with _ | member
    · rfl
    · cases member <;> rfl
  | class_ c => exact s.report_addClass c
  | global g =>
    simp only [addItem, addGlobal, itemNotes]
    cases (s.table.getMember? g.name).isSome <;> rfl

theorem report_nameItem (s : Filing) (i : Item) :
    (s.nameItem i).report = (s.nameNotes i).foldl .add s.report := by
  cases i with
  | class_ c =>
    simp only [nameItem, nameClass, nameNotes]
    split <;> rfl
  | _ => rfl

/-- The report on the declarations of a module is what its notes are gathered to. -/
theorem report_eq (m : Module) :
    (SymbolTable.ofModule m).2 = (Filing.notes m).foldl .add .empty := by
  rw [Filing.notes, List.foldl_append]
  show (ofModule m).report = _
  rw [ofModule, report_foldl report_addItem, report_foldl report_nameItem]
  rfl

/-! ### Levels -/

theorem lawful_notesOf (h : ∀ s x, ∀ d ∈ notes s x, d.Lawful) (xs : List α) (s : Filing) :
    ∀ d ∈ notesOf step notes s xs, d.Lawful := by
  induction xs generalizing s with
  | nil => exact nofun
  | cons x rest ih => exact List.forall_mem_append.2 ⟨h s x, ih (step s x)⟩

theorem lawful_fieldNotes (className : String) (id : Nat) (s : Filing) (f : FieldDecl) :
    ∀ d ∈ fieldNotes className id s f, d.Lawful := by
  unfold fieldNotes
  split
  · exact List.forall_mem_singleton.2 (Diagnostic.lawful_duplicateField _ _)
  · exact Diagnostic.lawful_unknownTypes _ _

theorem lawful_methodNotes (className : String) (id : Nat) (s : Filing) (f : FunctionDecl) :
    ∀ d ∈ methodNotes className id s f, d.Lawful := by
  refine List.forall_mem_append.2 ⟨?_, Diagnostic.lawful_unknownTypes _ _⟩
  split
  · refine List.forall_mem_singleton.2 (if_pos ?_).symm
    simp [shadowed, Diagnostic.warning, String.toList_append]
  · exact List.forall_mem_nil _

theorem lawful_classNotes (s : Filing) (c : ClassDecl) : ∀ d ∈ s.classNotes c, d.Lawful := by
  unfold classNotes
  split
  · exact List.forall_mem_nil _
  · next id _ =>
    split
    · refine List.forall_mem_append.2 ⟨List.forall_mem_append.2 ⟨?_, ?_⟩, ?_⟩
      · split
        · exact List.forall_mem_singleton.2 (Diagnostic.lawful_alreadyDeclared _ _)
        · exact List.forall_mem_nil _
      · exact lawful_notesOf (lawful_fieldNotes c.name id) _ _
      · exact lawful_notesOf (lawful_methodNotes c.name id) _ _
    · exact List.forall_mem_nil _

theorem lawful_itemNotes (s : Filing) (i : Item) : ∀ d ∈ s.itemNotes i, d.Lawful := by
  have declared (name : String) (span : Span) : ∀ d ∈ [alreadyDeclared name span], d.Lawful :=
    List.forall_mem_singleton.2 (Diagnostic.lawful_alreadyDeclared name span)
  cases i with
  | function f =>
    simp only [itemNotes]
    split
    · exact declared _ _
    · exact declared _ _
    · exact Diagnostic.lawful_unknownTypes _ _
  | class_ c => exact s.lawful_classNotes c
  | global g =>
    simp only [itemNotes]
    split
    · exact declared _ _
    · exact Diagnostic.lawful_unknownTypes _ _

theorem lawful_nameNotes (s : Filing) (i : Item) : ∀ d ∈ s.nameNotes i, d.Lawful := by
  unfold nameNotes
  split
  · next c =>
    split
    · exact List.forall_mem_singleton.2 (Diagnostic.lawful_rejection (.class_ c))
    · exact List.forall_mem_nil _
  · exact List.forall_mem_nil _

theorem lawful_notes (m : Module) : ∀ d ∈ Filing.notes m, d.Lawful :=
  List.forall_mem_append.2
    ⟨lawful_notesOf lawful_nameNotes _ _, lawful_notesOf lawful_itemNotes _ _⟩

end Filing

end PathTyping
