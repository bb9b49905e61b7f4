import PathTyping.Proofs.Consistent
import PathTyping.Proofs.Identities
import PathTyping.Proofs.Kinds

/-!
# What is filed of a module

Declarations whose names clash are treated in three ways: functions overload one another, a second
class or field of one name is passed over, and what takes a name that is already taken is reported
and left out, except that a class is reported and filed all the same.  Through all of this no
declaration is lost: each is filed once, in its place, or is reported at its name.

1. Of the items with one key the first are kept (`firsts`); names of items stand at different places
   of a text (`Module.nodup_names`), so a class is told from another of its name by its span.
2. The first pass keeps the first class of each name (`named_eq`, `duplicates_reported`).
3. A class is given its members in two rows (`foldl_addField`, `foldl_addClassMethod`).
4. One lemma for each kind of item tells what filing it comes to (`addFunction_filed`,
   `addClass_filed`, `addGlobal_filed`), and by induction on the items that have been filed, what
   the table holds (`filed_items`).
5. The table of a module is complete (`SymbolTable.complete_ofModule`).
-/

namespace PathTyping

/-! ## What is kept of a list -/

section Firsts

variable {α : Type} {key : α → String} {xs ys kept dropped : List α} {x : α} {name : String}

/-- The list is parted into what is kept, in its order, and what is dropped. -/
structure Parts (kept dropped whole : List α) : Prop where
  order : kept.Sublist whole
  all : (kept ++ dropped).Perm whole

theorem parts_nil : Parts ([] : List α) [] [] := ⟨.slnil, .nil⟩

theorem Parts.keep (h : Parts kept dropped xs) (x : α) :
    Parts (kept ++ [x]) dropped (xs ++ [x]) where
  order := h.order.append (.refl [x])
  all := by
    have swap : (kept ++ [x] ++ dropped).Perm (kept ++ dropped ++ [x]) := by
      rw [List.append_assoc, List.append_assoc]
      exact List.perm_append_comm.append_left kept
    exact swap.trans (h.all.append_right [x])

theorem Parts.drop (h : Parts kept dropped xs) (x : α) :
    Parts kept (dropped ++ [x]) (xs ++ [x]) where
  order := h.order.trans (List.sublist_append_left xs [x])
  all := by
    rw [← List.append_assoc]
    exact h.all.append_right [x]

/-- Of those with one key, the first. -/
def firsts (key : α → String) (xs : List α) : List α :=
  xs.foldl (fun kept x => if kept.any (key · == key x) then kept else kept ++ [x]) []

theorem any_key_iff : xs.any (key · == name) = true ↔ name ∈ xs.map key := by
  rw [List.any_eq_true, List.mem_map]
  simp only [beq_iff_eq]

theorem firsts_snoc_of_mem (h : key x ∈ (firsts key xs).map key) :
    firsts key (xs ++ [x]) = firsts key xs := by
  rw [firsts, List.foldl_append, List.foldl_cons, List.foldl_nil]
  exact if_pos (any_key_iff.2 h)

theorem firsts_snoc_of_not_mem (h : key x ∉ (firsts key xs).map key) :
    firsts key (xs ++ [x]) = firsts key xs ++ [x] := by
  rw [firsts, List.foldl_append, List.foldl_cons, List.foldl_nil]
  exact if_neg fun taken => h (any_key_iff.1 taken)

theorem firsts_prefix (key : α → String) (xs ys : List α) :
    firsts key xs <+: firsts key (xs ++ ys) := by
  induction ys using List.reverseRecOn with
  | nil => exact (List.append_nil xs).symm ▸ List.prefix_refl _
  | append_singleton ys y ih =>
    rw [← List.append_assoc]
    by_cases taken : key y ∈ (firsts key (xs ++ ys)).map key
    · rw [firsts_snoc_of_mem taken]
      exact ih
    · rw [firsts_snoc_of_not_mem taken]
      exact ih.trans (List.prefix_append _ _)

theorem firsts_sublist (key : α → String) (xs : List α) : (firsts key xs).Sublist xs := by
  induction xs using List.reverseRecOn with
  | nil => exact .slnil
  | append_singleton xs x ih =>
    by_cases taken : key x ∈ (firsts key xs).map key
    · rw [firsts_snoc_of_mem taken]
      exact ih.trans (List.sublist_append_left xs [x])
    · rw [firsts_snoc_of_not_mem taken]
      exact ih.append (.refl [x])

theorem nodup_firsts (key : α → String) (xs : List α) : ((firsts key xs).map key).Nodup := by
  induction xs using List.reverseRecOn with
  | nil => exact List.nodup_nil
  | append_singleton xs x ih =>
    by_cases taken : key x ∈ (firsts key xs).map key
    · rw [firsts_snoc_of_mem taken]
      exact ih
    · rw [firsts_snoc_of_not_mem taken, List.map_append]
      refine ih.append (List.nodup_singleton _) ?_
      intro name there only
      exact taken (List.mem_singleton.1 only ▸ there)

/-- The first of a name is kept. -/
theorem find?_firsts (key : α → String) (xs : List α) (name : String) :
    (firsts key xs).find? (key · == name) = xs.find? (key · == name) := by
  induction xs using List.reverseRecOn with
  | nil => rfl
  | append_singleton xs x ih =>
    rw [List.find?_append, ← ih]
    by_cases taken : key x ∈ (firsts key xs).map key
    · rw [firsts_snoc_of_mem taken]
      by_cases named : key x = name
      · obtain ⟨y, there⟩ := Option.isSome_iff_exists.1
          (List.find?_isSome.2 (List.any_eq_true.1 (any_key_iff.2 (named ▸ taken))))
        rw [there]
        rfl
      · rw [List.find?_cons_of_neg (by simpa using named), List.find?_nil, Option.or_none]
    · rw [firsts_snoc_of_not_mem taken, List.find?_append]

end Firsts

/-! ## Names of a text -/

/-- Where the name of a declaration stands. -/
def Item.nameSpan : Item → Span
  | .function f => f.nameSpan
  | .class_ c => c.nameSpan
  | .global g => g.span

namespace Reading

open Cursor

/-- The span is that of a token between two cursors. -/
def Shows (c next : Cursor) (span : Span) : Prop :=
  c.Passes next fun ts => ∃ t ∈ ts, t.span = span

theorem Shows.ahead {c d next : Cursor} {span : Span} (left : d.rest <:+ c.rest)
    (h : Shows d next span) : Shows c next span := by
  obtain ⟨before, rest⟩ := left
  obtain ⟨used, rest', t, ht, same⟩ := h
  refine ⟨before ++ used, ?_, t, List.mem_append_right _ ht, same⟩
  rw [← rest, rest', List.append_assoc]

/-- A name is read first, and the rest of the declaration behind it. -/
theorem shows_of_expectName {c next : Cursor} {what : Expectation} {r : Read Token c.size}
    (read : c.expectName what = .ok r) (left : next.rest <:+ r.next.rest) :
    Shows c next r.value.span := by
  obtain ⟨used, rest⟩ := left
  refine ⟨r.value :: used, ?_, r.value, List.mem_cons_self, rfl⟩
  rw [(rest_of_expect read).1, ← rest, List.cons_append]

theorem Passes.left {c next : Cursor} {P : List Token → Prop} (h : c.Passes next P) :
    next.rest <:+ c.rest := by
  obtain ⟨used, rest, -⟩ := h
  exact ⟨used, rest.symm⟩

theorem function_shows (start : Span) (c : Cursor) :
    Brings (function start c) fun f next => Shows c next f.nameSpan := by
  unfold function
  refine brings_bind ?_
  rintro ⟨name, c₁, h₁⟩ read
  refine brings_bind ?_
  rintro ⟨_, c₂, h₂⟩ read₂
  refine brings_bind ?_
  rintro ⟨parameters, c₃, h₃⟩ read₃
  refine brings_bind ?_
  rintro ⟨returns, c₄, h₄⟩ read₄
  refine brings_bind ?_
  rintro ⟨⟨body, close⟩, c₅, h₅⟩ read₅
  refine brings_ok ?_
  have left₃ := (Passes.left ((parameters_lists c₂).holds read₃)).trans
    ((expectMark_reads _ _ _).left read₂)
  have left₅ := (Passes.left ((block_lists c₄).holds read₅)).trans
    ((typeBehind?_reads _ c₃).left read₄)
  exact shows_of_expectName read (left₅.trans left₃)

theorem classDecl_shows (c : Cursor) :
    Brings (classDecl c) fun d next => Shows c next d.nameSpan := by
  unfold classDecl
  refine brings_bind fun ⟨name, c₁, h₁⟩ read => brings_bind fun ⟨_, c₂, h₂⟩ read₂ => ?_
  refine brings_bind fun ⟨⟨fields, methods⟩, c₃, h₃⟩ read₃ => brings_ok ?_
  have left₃ := Passes.left ((classBody_holds c₂).holds read₃)
  exact shows_of_expectName read (left₃.trans ((expectMark_reads _ _ _).left read₂))

theorem global_shows (constant : Bool) (c : Cursor) :
    Brings (global constant c) fun g next => Shows c next g.span := by
  unfold global
  refine brings_bind ?_
  rintro ⟨name, c₁, h₁⟩ read
  refine brings_bind ?_
  rintro ⟨type, c₂, h₂⟩ read₂
  refine brings_bind ?_
  rintro ⟨_, c₃, h₃⟩ read₃
  refine brings_bind ?_
  rintro ⟨value, c₄, h₄⟩ read₄
  refine brings_bind ?_
  rintro ⟨c₅, h₅⟩ ended
  refine brings_ok ?_
  have left₃ := ((expectMark_reads _ _ _).left read₃).trans ((typeBehind?_reads _ c₁).left read₂)
  have left₅ := (left_statementEnd ended).trans
    (Passes.left ((expression_lists 0 c₃).holds read₄))
  exact shows_of_expectName read (left₅.trans left₃)

theorem item_shows (c : Cursor) : Brings (item c) fun i next => Shows c next i.nameSpan := by
  unfold item
  split
  · exact brings_error
  · next t c₁ h₁ popped =>
    have left := left_pop? popped
    split
    · refine brings_bind ?_
      rintro ⟨f, c₂, h₂⟩ read
      refine brings_ok ?_
      exact ((function_shows _ c₁).holds read).ahead left
    · refine brings_bind ?_
      rintro ⟨d, c₂, h₂⟩ read
      refine brings_ok ?_
      exact ((classDecl_shows c₁).holds read).ahead left
    · refine brings_bind ?_
      rintro ⟨g, c₂, h₂⟩ read
      refine brings_ok ?_
      exact ((global_shows _ c₁).holds read).ahead left
    · refine brings_bind ?_
      rintro ⟨g, c₂, h₂⟩ read
      refine brings_ok ?_
      exact ((global_shows _ c₁).holds read).ahead left
    · exact brings_error

/-- The names of items stand one behind the other. -/
theorem items_shows (c : Cursor) {found : List Item} {report : Report}
    (h : items c = .ok (found, report)) :
    (found.map Item.nameSpan).Sublist (c.rest.map Token.span) := by
  rw [items] at h
  have hs := c.size_skipSeparators_le
  split at h
  · cases h
    exact List.nil_sublist _
  · obtain ⟨⟨i, c₁, h₁⟩, read, h⟩ := bind_eq_ok h
    obtain ⟨⟨others, report'⟩, read', h⟩ := bind_eq_ok h
    cases h
    obtain ⟨used, rest, t, ht, same⟩ := ((item_shows _).holds read).ahead c.left_skipSeparators
    have first : [i.nameSpan].Sublist (used.map Token.span) :=
      List.singleton_sublist.2 (same ▸ List.mem_map_of_mem ht)
    rw [rest, List.map_append]
    exact first.append (items_shows c₁ read')
termination_by c.size
decreasing_by all_goals omega

end Reading

theorem Ordered.nodup_spans {ts : List Token} (h : Ordered ts) : (ts.map Token.span).Nodup := by
  refine List.pairwise_map.2 (h.behind.imp ?_)
  intro t u behind same
  have := t.first_le_last.trans_lt behind
  rw [same] at this
  exact lt_irrefl _ this

/-- No two declarations of a module that is read from a text have their names at one place. -/
theorem Module.nodup_names {text : String} {m : Module} {read : Report}
    (h : Module.ofText text = .ok (m, read)) : (m.items.map Item.nameSpan).Nodup := by
  obtain ⟨row, scanned, parsed⟩ := Module.exists_tokens h
  obtain ⟨⟨items, report⟩, read, done⟩ := bind_eq_ok parsed
  cases done
  exact (TokenRow.ordered scanned).nodup_spans.sublist (Reading.items_shows _ read)

/-! ## What declarations are filed as -/

namespace Member

def methodId? : Member → Option Nat
  | method id => some id
  | _ => none

def classId? : Member → Option Nat
  | class_ id => some id
  | _ => none

def globalId? : Member → Option Nat
  | global id => some id
  | _ => none

end Member

namespace SymbolTable

def fieldOf (t : SymbolTable) (f : FieldDecl) : FieldInfo :=
  ⟨f.name, t.bindingType f.typeName f.value, f.span⟩

def globalOf (t : SymbolTable) (g : GlobalDecl) : GlobalInfo where
  name := g.name
  constant := g.constant
  type := t.bindingType g.typeName (some g.value)
  value := if g.constant then g.value.literal? else none
  span := g.span

/-- The classes go by the same names. -/
def SameNames (t t' : SymbolTable) : Prop :=
  t'.classes.map ClassInfo.name = t.classes.map ClassInfo.name

namespace SameNames

variable {t t' : SymbolTable}

theorem findClass? (h : t.SameNames t') (name : String) :
    t'.findClass? name = t.findClass? name := by
  have byNames (t : SymbolTable) :
      t.findClass? name = (t.classes.map ClassInfo.name).findIdx? (· == name) := by
    rw [List.findIdx?_map]
    rfl
  rw [byNames, byNames, h]

theorem instanceType (h : t.SameNames t') (id : Nat) : t'.instanceType id = t.instanceType id := by
  have byNames (t : SymbolTable) : (t.class_ id).name =
      (t.classes.map ClassInfo.name)[id]?.getD (default : ClassInfo).name := by
    rw [class_, List.getElem?_map]
    cases t.classes[id]? <;> rfl
  rw [SymbolTable.instanceType, SymbolTable.instanceType, classRef, classRef, byNames, byNames, h]

/-- What an annotation stands for depends on the names of the classes. -/
theorem typeOf (h : t.SameNames t') : t'.typeOf = t.typeOf := by
  funext a
  rw [SymbolTable.typeOf, SymbolTable.typeOf, typeNamed?, typeNamed?, h.findClass?]
  cases t.findClass? a.name with
  | none => rfl
  | some id => rw [Option.map_some, Option.map_some, h.instanceType]

theorem bindingType (h : t.SameNames t') : t'.bindingType = t.bindingType := by
  funext a value
  unfold SymbolTable.bindingType
  rw [h.typeOf]

theorem methodOf (h : t.SameNames t') : t'.methodOf = t.methodOf := by
  funext owner f
  have params : t'.paramOf = t.paramOf := by
    funext p
    rw [paramOf, paramOf, h.bindingType]
  rw [SymbolTable.methodOf, SymbolTable.methodOf, params, h.typeOf]

theorem fieldOf (h : t.SameNames t') : t'.fieldOf = t.fieldOf := by
  funext f
  rw [SymbolTable.fieldOf, SymbolTable.fieldOf, h.bindingType]

theorem globalOf (h : t.SameNames t') : t'.globalOf = t.globalOf := by
  funext g
  rw [SymbolTable.globalOf, SymbolTable.globalOf, h.bindingType]

end SameNames

end SymbolTable

def duplicateClass (c : ClassDecl) : Diagnostic :=
  .error ("duplicate class '" ++ c.name ++ "'") (some c.nameSpan)

def duplicateField (className : String) (f : FieldDecl) : Diagnostic :=
  .error ("duplicate field '" ++ f.name ++ "' in class '" ++ className ++ "'") (some f.span)

/-- What is reported at the name of a declaration that is left out. -/
def Item.rejection : Item → Diagnostic
  | .function f => Filing.alreadyDeclared f.name f.nameSpan
  | .class_ c => duplicateClass c
  | .global g => Filing.alreadyDeclared g.name g.span

/-- The class is filed under the number `id` with all of its methods, and with the first of its
fields of each name; the others are reported. -/
structure ClassInfo.Holds (t : SymbolTable) (report : Report) (id : Nat) (c : ClassDecl)
    (info : ClassInfo) : Prop where
  name : info.name = c.name
  span : info.span = c.nameSpan
  methods : List.Forall₂ (fun f k => t.methods[k]? = some (t.methodOf (some id) f)) c.methods
    info.methods
  fields : ∃ kept dropped, Parts kept dropped c.fields ∧ info.fields = kept.map t.fieldOf ∧
    ∀ f ∈ dropped, duplicateField c.name f ∈ report.entries
  distinct : (info.fields.map FieldInfo.name).Nodup

/-- The entry is that of the item: it has its name, and what the table holds for it is read from
the item, with all types as the table knows them. -/
def SymbolTable.Enters (t : SymbolTable) (report : Report) : Item → String × Member → Prop
  | .function f, (name, .method id) => name = f.name ∧ t.methods[id]? = some (t.methodOf none f)
  | .class_ c, (name, .class_ id) =>
    name = c.name ∧ ∃ info, t.classes[id]? = some info ∧ info.Holds t report id c
  | .global g, (name, .global id) => name = g.name ∧ t.globals[id]? = some (t.globalOf g)
  | _, _ => False

/-- The methods that are filed with a member, each with its owner. -/
def SymbolTable.methodsOf (t : SymbolTable) : Member → List (Option Nat × Nat)
  | .method id => [(none, id)]
  | .class_ id => (t.class_ id).methods.map fun k => (some id, k)
  | _ => []

/-- A class by its name and the place where it stands. -/
def ClassInfo.head (info : ClassInfo) : String × Span := (info.name, info.span)

def ClassDecl.head (c : ClassDecl) : String × Span := (c.name, c.nameSpan)

/-- The table has grown; of the first `n` classes nothing has changed. -/
structure SymbolTable.Extends (n : Nat) (t t' : SymbolTable) : Prop where
  heads : t'.classes.map ClassInfo.head = t.classes.map ClassInfo.head
  methods : t.methods <+: t'.methods
  globals : t.globals <+: t'.globals
  classes : ∀ id < n, t'.classes[id]? = t.classes[id]?

section Extends

variable {t t' : SymbolTable} {n id : Nat} {r r' : Report} {i : Item} {p : String × Member}

theorem getElem?_of_prefix {α : Type} {xs ys : List α} {k : Nat} {x : α} (h : xs <+: ys)
    (found : xs[k]? = some x) : ys[k]? = some x := by
  obtain ⟨rest, rfl⟩ := h
  rw [List.getElem?_append_left (List.getElem?_eq_some_iff.1 found).1]
  exact found

theorem sameNames_of_heads
    (h : t'.classes.map ClassInfo.head = t.classes.map ClassInfo.head) : t.SameNames t' := by
  have byHeads (t : SymbolTable) :
      t.classes.map ClassInfo.name = (t.classes.map ClassInfo.head).map Prod.fst := by
    rw [List.map_map]
    rfl
  rw [SymbolTable.SameNames, byHeads, byHeads, h]

theorem SymbolTable.Extends.names (h : t.Extends n t') : t.SameNames t' :=
  sameNames_of_heads h.heads

theorem ClassInfo.Holds.extend {c : ClassDecl} {info : ClassInfo} (h : info.Holds t r id c)
    (grows : t.Extends n t') (reports : r.entries ⊆ r'.entries) : info.Holds t' r' id c where
  name := h.name
  span := h.span
  methods := by
    rw [grows.names.methodOf]
    exact h.methods.imp fun f k found => getElem?_of_prefix grows.methods found
  fields := by
    obtain ⟨kept, dropped, parts, fields, rejected⟩ := h.fields
    refine ⟨kept, dropped, parts, ?_, fun f hf => reports (rejected f hf)⟩
    rw [grows.names.fieldOf]
    exact fields
  distinct := h.distinct

/-- An entry stays that of its item while the table grows. -/
theorem SymbolTable.Enters.extend (h : t.Enters r i p)
    (old : ∀ id, p.2.classId? = some id → id < n) (grows : t.Extends n t')
    (reports : r.entries ⊆ r'.entries) : t'.Enters r' i p := by
  obtain ⟨name, member⟩ := p
  cases i with
  | function f =>
    cases member with
    | method id =>
      obtain ⟨same, found⟩ := h
      refine ⟨same, ?_⟩
      rw [grows.names.methodOf]
      exact getElem?_of_prefix grows.methods found
    | _ => exact h.elim
  | class_ c =>
    cases member with
    | class_ id =>
      obtain ⟨same, info, found, holds⟩ := h
      exact ⟨same, info, (grows.classes id (old id rfl)).trans found, holds.extend grows reports⟩
    | _ => exact h.elim
  | global g =>
    cases member with
    | global id =>
      obtain ⟨same, found⟩ := h
      refine ⟨same, ?_⟩
      rw [grows.names.globalOf]
      exact getElem?_of_prefix grows.globals found
    | _ => exact h.elim

theorem SymbolTable.Extends.methodsOf (grows : t.Extends n t') {m : Member}
    (old : ∀ id, m.classId? = some id → id < n) : t'.methodsOf m = t.methodsOf m := by
  cases m with
  | class_ id =>
    rw [SymbolTable.methodsOf, SymbolTable.methodsOf, SymbolTable.class_, SymbolTable.class_,
      grows.classes id (old id rfl)]
  | _ => rfl

end Extends

/-! ## Reports -/

/-- Errors do not read like warnings, so none is taken for a warning that was given before. -/
def Diagnostic.Filed (d : Diagnostic) : Prop :=
  d.level = .error ↔ d.message.toList.head? ≠ some 'm'

theorem Item.filed_rejection (i : Item) : i.rejection.Filed := by
  cases i <;> simp [rejection, Filing.alreadyDeclared, duplicateClass, Diagnostic.Filed,
    Diagnostic.error, String.toList_append]

theorem filed_duplicateField (className : String) (f : FieldDecl) :
    (duplicateField className f).Filed := by
  simp [duplicateField, Diagnostic.Filed, Diagnostic.error, String.toList_append]

namespace Report

variable {r : Report} {d e : Diagnostic}

theorem mem_add_of_mem (h : d ∈ r.entries) : d ∈ (r.add e).entries := by
  unfold add
  split
  · exact h
  · exact List.mem_append_left _ h

theorem filed_add (h : ∀ d ∈ r.entries, d.Filed) (he : e.Filed) :
    ∀ d ∈ (r.add e).entries, d.Filed := by
  intro d hd
  rcases mem_add hd with old | rfl
  · exact h d old
  · exact he

/-- An error is recorded: another diagnostic with its words is the same error. -/
theorem mem_add_error (h : ∀ d ∈ r.entries, d.Filed) (he : e.Filed) (error : e.level = .error) :
    e ∈ (r.add e).entries := by
  unfold add
  split
  · next known =>
    obtain ⟨d, hd, same⟩ := List.any_eq_true.1 known
    obtain ⟨kind, span, message⟩ := Diagnostic.same_iff.1 same
    have level : d.level = .error := (h d hd).2 (message ▸ he.1 error)
    have whole : d = e := by
      cases d
      cases e
      simp_all
    exact whole ▸ hd
  · exact List.mem_append_right _ (List.mem_singleton_self e)

end Report

namespace Filing

variable {s s' s'' : Filing} {d : Diagnostic} {ds : List Diagnostic}

/-- Filing goes on: what has been reported stays. -/
structure Reports (s s' : Filing) : Prop where
  keeps : s.report.entries ⊆ s'.report.entries
  filed : (∀ d ∈ s.report.entries, d.Filed) → ∀ d ∈ s'.report.entries, d.Filed

theorem reports_of_eq (same : s'.report = s.report) : s.Reports s' :=
  ⟨same ▸ List.Subset.refl _, fun h => same ▸ h⟩

theorem Reports.trans (h : s.Reports s') (h' : s'.Reports s'') : s.Reports s'' :=
  ⟨fun _ hd => h'.keeps (h.keeps hd), fun filed => h'.filed (h.filed filed)⟩

theorem reports_note (s : Filing) (h : ∀ d ∈ ds, d.Filed) : s.Reports (s.note ds) := by
  induction ds generalizing s with
  | nil => exact reports_of_eq rfl
  | cons d ds ih =>
    obtain ⟨first, rest⟩ := List.forall_mem_cons.1 h
    have added : s.Reports (s.note [d]) :=
      ⟨fun e he => Report.mem_add_of_mem he, fun filed => Report.filed_add filed first⟩
    exact added.trans (ih (s.note [d]) rest)

theorem reports_unknownTypes (s : Filing) (as : List TypeName) :
    s.Reports (s.note (s.table.unknownTypes as)) := by
  refine reports_note s fun d hd => ?_
  obtain ⟨a, -, rfl⟩ := List.mem_map.1 hd
  simp [Diagnostic.Filed, Diagnostic.error, String.toList_append]

theorem reports_addMethod (s : Filing) (owner : Option Nat) (f : FunctionDecl) :
    s.Reports (s.addMethod owner f) :=
  (s.reports_unknownTypes f.typeNames).trans (reports_of_eq rfl)

theorem reports_addField (className : String) (id : Nat) (s : Filing) (f : FieldDecl) :
    s.Reports (addField className id s f) := by
  unfold addField
  split
  · exact s.reports_note fun d hd => List.mem_singleton.1 hd ▸ filed_duplicateField className f
  · exact (s.reports_unknownTypes f.typeName.toList).trans (reports_of_eq rfl)

theorem reports_addClassMethod (className : String) (id : Nat) (s : Filing) (f : FunctionDecl) :
    s.Reports (addClassMethod className id s f) := by
  have shadowed : s.Reports (s.note (if (s.table.class_ id).fields.any (·.name == f.name) then
      [.warning ("method '" ++ f.name ++ "' is shadowed by a field of class '" ++ className ++ "'")
        (some f.nameSpan)]
    else [])) := by
    refine s.reports_note fun d hd => ?_
    split at hd
    · rw [List.mem_singleton.1 hd]
      simp [Diagnostic.Filed, Diagnostic.warning, String.toList_append]
    · cases hd
  exact (shadowed.trans (reports_addMethod _ (some id) f)).trans (reports_of_eq rfl)

theorem reports_foldl {α : Type} {step : Filing → α → Filing}
    (h : ∀ (s : Filing) x, s.Reports (step s x))
    (xs : List α) (s : Filing) : s.Reports (xs.foldl step s) := by
  induction xs generalizing s with
  | nil => exact reports_of_eq rfl
  | cons x xs ih => exact (h s x).trans (ih (step s x))

theorem reports_rejection (s : Filing) (i : Item) : s.Reports (s.note [i.rejection]) :=
  s.reports_note fun _ hd => List.mem_singleton.1 hd ▸ i.filed_rejection

theorem mem_note_rejection (filed : ∀ d ∈ s.report.entries, d.Filed) (i : Item) :
    i.rejection ∈ (s.note [i.rejection]).report.entries :=
  Report.mem_add_error filed i.filed_rejection (by cases i <;> rfl)

/-! ## Classes by name -/

/-- The classes among some items. -/
def classDecls (is : List Item) : List ClassDecl :=
  is.filterMap fun
    | .class_ c => some c
    | _ => none

/-- The classes that are filed: the first of each name. -/
def leading (is : List Item) : List ClassDecl := firsts ClassDecl.name (classDecls is)

theorem classDecls_append (is js : List Item) :
    classDecls (is ++ js) = classDecls is ++ classDecls js := List.filterMap_append

theorem leading_snoc_class {is : List Item} {c : ClassDecl}
    (anew : c.name ∉ (leading is).map ClassDecl.name) :
    leading (is ++ [.class_ c]) = leading is ++ [c] := by
  rw [leading, classDecls_append]
  exact firsts_snoc_of_not_mem anew

theorem leading_snoc_taken {is : List Item} {c : ClassDecl}
    (taken : c.name ∈ (leading is).map ClassDecl.name) :
    leading (is ++ [.class_ c]) = leading is := by
  rw [leading, classDecls_append]
  exact firsts_snoc_of_mem taken

theorem leading_snoc {is : List Item} {i : Item} (other : classDecls [i] = []) :
    leading (is ++ [i]) = leading is := by
  rw [leading, classDecls_append, other, List.append_nil, leading]

/-- In the first pass the leading classes are filed by their names. -/
theorem named_eq (is : List Item) : (is.foldl nameItem empty).table =
    ⟨[], (leading is).map fun c => ⟨c.name, c.nameSpan, [], []⟩, [], []⟩ := by
  induction is using List.reverseRecOn with
  | nil => rfl
  | append_singleton is i ih =>
    rw [List.foldl_append, List.foldl_cons, List.foldl_nil]
    cases i with
    | class_ c =>
      have known : ((is.foldl nameItem empty).table.findClass? c.name).isSome = true ↔
          c.name ∈ (leading is).map ClassDecl.name := by
        rw [SymbolTable.findClass?, ih, List.findIdx?_isSome, ← any_key_iff, List.any_map]
        rfl
      show (nameClass _ c).table = _
      unfold nameClass
      by_cases taken : c.name ∈ (leading is).map ClassDecl.name
      · rw [if_pos (known.2 taken), leading_snoc_taken taken]
        exact ih
      · rw [if_neg (fun there => taken (known.1 there)), leading_snoc_class taken, ih]
        simp
    | _ =>
      rw [leading_snoc rfl]
      exact ih

theorem reports_nameItem (s : Filing) (i : Item) : s.Reports (s.nameItem i) := by
  cases i with
  | class_ c =>
    show s.Reports (s.nameClass c)
    unfold nameClass
    split
    · exact s.reports_rejection (.class_ c)
    · exact reports_of_eq rfl
  | _ => exact reports_of_eq rfl

theorem filed_named (is : List Item) :
    ∀ d ∈ (is.foldl nameItem empty).report.entries, d.Filed :=
  (reports_foldl reports_nameItem is empty).filed nofun

/-- In the first pass the other classes are reported. -/
theorem duplicates_reported {before after : List Item} {c : ClassDecl}
    (taken : c.name ∈ (leading before).map ClassDecl.name) :
    duplicateClass c ∈
      ((before ++ .class_ c :: after).foldl nameItem empty).report.entries := by
  rw [List.foldl_append, List.foldl_cons]
  refine (reports_foldl reports_nameItem after _).keeps ?_
  show _ ∈ (nameClass _ c).report.entries
  unfold nameClass
  rw [if_pos]
  · exact mem_note_rejection (filed_named before) (.class_ c)
  · rw [SymbolTable.findClass?, named_eq, List.findIdx?_isSome, List.any_map]
    exact any_key_iff.2 taken

/-! ## Members of a class -/

/-- The table when the class `id` has been given some members. -/
def withMembers (t : SymbolTable) (id : Nat) (fields : List FieldInfo)
    (methods : List FunctionDecl) : SymbolTable :=
  { t with
    methods := t.methods ++ methods.map (t.methodOf (some id))
    classes := t.classes.modify id fun info =>
      { info with
        fields := info.fields ++ fields
        methods := info.methods ++ List.range' t.methods.length methods.length } }

section Members

variable {t : SymbolTable} {id : Nat} {info : ClassInfo} {fields : List FieldInfo}
  {methods : List FunctionDecl} {s : Filing} {className : String}

theorem withMembers_nil (t : SymbolTable) (id : Nat) : withMembers t id [] [] = t := by
  have same : t.classes.modify id (fun info => info) = t.classes := List.modify_id id t.classes
  simp [withMembers, same]

theorem heads_withMembers (t : SymbolTable) (id : Nat) (fields : List FieldInfo)
    (methods : List FunctionDecl) :
    (withMembers t id fields methods).classes.map ClassInfo.head =
      t.classes.map ClassInfo.head := by
  refine List.ext_getElem? fun k => ?_
  rw [List.getElem?_map, List.getElem?_map, withMembers, List.getElem?_modify]
  cases t.classes[k]? with
  | none => rfl
  | some info =>
    by_cases there : id = k
    · simp [there, ClassInfo.head]
    · simp [there]

theorem sameNames_withMembers (t : SymbolTable) (id : Nat) (fields : List FieldInfo)
    (methods : List FunctionDecl) : t.SameNames (withMembers t id fields methods) :=
  sameNames_of_heads (heads_withMembers t id fields methods)

theorem getElem?_withMembers (found : t.classes[id]? = some info) :
    (withMembers t id fields methods).classes[id]? =
      some { info with
        fields := info.fields ++ fields
        methods := info.methods ++ List.range' t.methods.length methods.length } := by
  rw [withMembers, List.getElem?_modify_eq, found]
  rfl

theorem fields_withMembers (found : t.classes[id]? = some info) (bare : info.fields = []) :
    ((withMembers t id fields methods).class_ id).fields = fields := by
  rw [SymbolTable.class_, getElem?_withMembers found, Option.getD_some, bare, List.nil_append]

theorem withMembers_snoc_field (t : SymbolTable) (id : Nat) (fields : List FieldInfo)
    (field : FieldInfo) :
    { withMembers t id fields [] with
      classes := (withMembers t id fields []).classes.modify id fun info =>
        { info with fields := info.fields ++ [field] } } =
      withMembers t id (fields ++ [field]) [] := by
  simp only [withMembers, List.modify_modify_eq]
  congr 2
  funext info
  simp

theorem withMembers_snoc_method (t : SymbolTable) (id : Nat) (fields : List FieldInfo)
    (methods : List FunctionDecl) (f : FunctionDecl) :
    { withMembers t id fields methods with
      methods := (withMembers t id fields methods).methods ++ [t.methodOf (some id) f]
      classes := (withMembers t id fields methods).classes.modify id fun info =>
        { info with methods := info.methods ++ [(withMembers t id fields methods).methods.length] }
      } = withMembers t id fields (methods ++ [f]) := by
  have filed : (withMembers t id fields methods).methods ++ [t.methodOf (some id) f] =
      t.methods ++ (methods ++ [f]).map (t.methodOf (some id)) := by
    rw [withMembers, List.map_append, List.append_assoc]
    rfl
  rw [filed, withMembers]
  simp only [withMembers, List.modify_modify_eq]
  congr 2
  funext info
  simp [List.range'_concat]

theorem addField_of_mem {f : FieldDecl}
    (taken : f.name ∈ (s.table.class_ id).fields.map FieldInfo.name) :
    addField className id s f = s.note [duplicateField className f] :=
  if_pos (any_key_iff.2 taken)

theorem table_addField {f : FieldDecl}
    (anew : f.name ∉ (s.table.class_ id).fields.map FieldInfo.name) :
    (addField className id s f).table =
      { s.table with
        classes := s.table.classes.modify id fun info =>
          { info with fields := info.fields ++ [s.table.fieldOf f] } } := by
  unfold addField
  rw [if_neg fun there => anew (any_key_iff.1 there)]
  rfl

/-- Of the fields of one name the first is filed, and the others are reported. -/
theorem foldl_addField (className : String) (found : s.table.classes[id]? = some info)
    (bare : info.fields = []) (filed : ∀ d ∈ s.report.entries, d.Filed) (fs : List FieldDecl) :
    (fs.foldl (addField className id) s).table =
        withMembers s.table id ((firsts FieldDecl.name fs).map s.table.fieldOf) [] ∧
      ∃ dropped, Parts (firsts FieldDecl.name fs) dropped fs ∧
        ∀ f ∈ dropped,
          duplicateField className f ∈ (fs.foldl (addField className id) s).report.entries := by
  induction fs using List.reverseRecOn with
  | nil => exact ⟨(withMembers_nil s.table id).symm, [], parts_nil, nofun⟩
  | append_singleton fs f ih =>
    obtain ⟨table, dropped, parts, reported⟩ := ih
    have filed' := (reports_foldl (reports_addField className id) fs s).filed filed
    rw [List.foldl_append, List.foldl_cons, List.foldl_nil]
    generalize fs.foldl (addField className id) s = s' at table reported filed'
    have goes := reports_addField className id s' f
    have names : (s'.table.class_ id).fields.map FieldInfo.name =
        (firsts FieldDecl.name fs).map FieldDecl.name := by
      rw [table, fields_withMembers found bare, List.map_map]
      rfl
    by_cases taken : f.name ∈ (firsts FieldDecl.name fs).map FieldDecl.name
    · rw [firsts_snoc_of_mem taken, addField_of_mem (names ▸ taken)]
      refine ⟨table, dropped ++ [f], parts.drop f, fun f' hf => ?_⟩
      rcases List.mem_append.1 hf with old | new
      · exact Report.mem_add_of_mem (reported f' old)
      · rw [List.mem_singleton.1 new]
        exact Report.mem_add_error filed' (filed_duplicateField className f) rfl
    · rw [firsts_snoc_of_not_mem taken, table_addField (names ▸ taken), table,
        (sameNames_withMembers _ _ _ _).fieldOf, List.map_append]
      exact ⟨withMembers_snoc_field _ _ _ _, dropped, parts.keep f,
        fun f' hf => goes.keeps (reported f' hf)⟩

/-- The methods of a class are all filed, with numbers in a row. -/
theorem foldl_addClassMethod (t : SymbolTable) (id : Nat) (fields : List FieldInfo)
    (start : s.table = withMembers t id fields []) (ms : List FunctionDecl) :
    (ms.foldl (addClassMethod className id) s).table = withMembers t id fields ms := by
  induction ms using List.reverseRecOn with
  | nil => exact start
  | append_singleton ms f ih =>
    rw [List.foldl_append, List.foldl_cons, List.foldl_nil]
    show { (ms.foldl (addClassMethod className id) s).table with
      methods := (ms.foldl (addClassMethod className id) s).table.methods ++
        [(ms.foldl (addClassMethod className id) s).table.methodOf (some id) f]
      classes := (ms.foldl (addClassMethod className id) s).table.classes.modify id fun info =>
        { info with
          methods := info.methods ++
            [(ms.foldl (addClassMethod className id) s).table.methods.length] } } = _
    rw [ih, (sameNames_withMembers _ _ _ _).methodOf]
    exact withMembers_snoc_method t id fields ms f

end Members

/-! ## What has been filed -/

/-- Of all items of a module, those that are done have been filed. -/
structure Filed (all done : List Item) (s : Filing) : Prop where
  heads : s.table.classes.map ClassInfo.head = (leading all).map ClassDecl.head
  classes : s.table.members.filterMap (·.2.classId?) = List.range (leading done).length
  globals : s.table.members.filterMap (·.2.globalId?) = List.range s.table.globals.length
  methods : s.table.members.flatMap (s.table.methodsOf ·.2) =
    s.table.methods.zipIdx.map fun (m, k) => (m.owner, k)
  /-- The other classes have their names only. -/
  bare : ∀ id, (leading done).length ≤ id → ∀ info, s.table.classes[id]? = some info →
    info.fields = [] ∧ info.methods = []
  report : ∀ d ∈ s.report.entries, d.Filed
  entries : ∃ kept dropped, Parts kept dropped done ∧
    List.Forall₂ (s.table.Enters s.report) kept s.table.members ∧
    ∀ i ∈ dropped, i.rejection ∈ s.report.entries
  passed : ∀ before c after, all = before ++ .class_ c :: after →
    c.name ∈ (leading before).map ClassDecl.name → duplicateClass c ∈ s.report.entries

section Filed

variable {all done rest : List Item} {i : Item} {s s' : Filing} {p : String × Member}
  {c : ClassDecl} {id : Nat}

theorem filed_named_items (all : List Item) : Filed all [] (all.foldl nameItem empty) where
  heads := by
    rw [named_eq, List.map_map]
    rfl
  classes := by
    rw [named_eq]
    rfl
  globals := by
    rw [named_eq]
    rfl
  methods := by
    rw [named_eq]
    rfl
  bare := by
    rintro id - info found
    rw [named_eq, List.getElem?_map] at found
    obtain ⟨c, -, rfl⟩ := Option.map_eq_some_iff.1 found
    exact ⟨rfl, rfl⟩
  report := filed_named all
  entries := by
    rw [named_eq]
    exact ⟨[], [], parts_nil, .nil, nofun⟩
  passed := by
    rintro before c after rfl taken
    exact duplicates_reported taken

theorem Filed.old (h : Filed all done s) (hp : p ∈ s.table.members)
    (is : p.2.classId? = some id) : id < (leading done).length := by
  refine List.mem_range.1 ?_
  rw [← h.classes]
  exact List.mem_filterMap.2 ⟨p, hp, is⟩

/-- An item is left out: it is reported, and the table stays as it is. -/
theorem Filed.drop (h : Filed all done s) (same : s'.table = s.table) (reports : s.Reports s')
    (rejected : i.rejection ∈ s'.report.entries) (led : leading (done ++ [i]) = leading done) :
    Filed all (done ++ [i]) s' where
  heads := same ▸ h.heads
  classes := by
    rw [same, led]
    exact h.classes
  globals := same ▸ h.globals
  methods := same ▸ h.methods
  bare := by
    rw [same, led]
    exact h.bare
  report := reports.filed h.report
  entries := by
    obtain ⟨kept, dropped, parts, entered, left⟩ := h.entries
    have grows : s.table.Extends (leading done).length s'.table := by
      rw [same]
      exact ⟨rfl, List.prefix_refl _, List.prefix_refl _, fun _ _ => rfl⟩
    refine ⟨kept, dropped ++ [i], parts.drop i, ?_, ?_⟩
    · obtain ⟨length, zipped⟩ := List.forall₂_iff_zip.1 entered
      rw [same]
      refine List.forall₂_iff_zip.2 ⟨length, fun hp => ?_⟩
      have there := (List.of_mem_zip hp).2
      exact same ▸ (zipped hp).extend (fun id is => h.old there is) grows reports.keeps
    · intro j hj
      rcases List.mem_append.1 hj with old | new
      · exact reports.keeps (left j old)
      · exact List.mem_singleton.1 new ▸ rejected
  passed before c after split taken := reports.keeps (h.passed before c after split taken)

theorem filterMap_snoc {α β : Type} (f : α → Option β) (xs : List α) (x : α) :
    (xs ++ [x]).filterMap f = xs.filterMap f ++ (f x).toList := by
  rw [List.filterMap_append, List.filterMap_cons]
  cases f x <;> rfl

/-- An item gets an entry, and the table grows by what is filed with it. -/
theorem Filed.keep (h : Filed all done s) (grows : s.table.Extends (leading done).length s'.table)
    (reports : s.Reports s') (members : s'.table.members = s.table.members ++ [p])
    (entered : s'.table.Enters s'.report i p)
    (classes : List.range (leading (done ++ [i])).length =
      List.range (leading done).length ++ p.2.classId?.toList)
    (globals : List.range s'.table.globals.length =
      List.range s.table.globals.length ++ p.2.globalId?.toList)
    (methods : (s'.table.methods.zipIdx.map fun (m, k) => (m.owner, k)) =
      (s.table.methods.zipIdx.map fun (m, k) => (m.owner, k)) ++ s'.table.methodsOf p.2)
    (bare : ∀ id, (leading (done ++ [i])).length ≤ id → ∀ info,
      s'.table.classes[id]? = some info → info.fields = [] ∧ info.methods = []) :
    Filed all (done ++ [i]) s' where
  heads := grows.heads.trans h.heads
  classes := by
    rw [members, filterMap_snoc, h.classes, classes]
  globals := by
    rw [members, filterMap_snoc, h.globals, globals]
  methods := by
    have before : s.table.members.flatMap (s'.table.methodsOf ·.2) =
        s.table.members.flatMap (s.table.methodsOf ·.2) :=
      List.flatMap_congr fun q hq => grows.methodsOf fun id is => h.old hq is
    rw [members, List.flatMap_append, before, h.methods, methods, List.flatMap_singleton]
  bare := bare
  report := reports.filed h.report
  entries := by
    obtain ⟨kept, dropped, parts, already, left⟩ := h.entries
    refine ⟨kept ++ [i], dropped, parts.keep i, ?_, fun j hj => reports.keeps (left j hj)⟩
    obtain ⟨length, zipped⟩ := List.forall₂_iff_zip.1 already
    rw [members]
    refine List.rel_append (List.forall₂_iff_zip.2 ⟨length, fun hp => ?_⟩) (.cons entered .nil)
    have there := (List.of_mem_zip hp).2
    exact (zipped hp).extend (fun id is => h.old there is) grows reports.keeps
  passed before c after split taken := reports.keeps (h.passed before c after split taken)

/-! ## Items -/

theorem addFunction_filed (h : Filed all done s) (f : FunctionDecl) :
    Filed all (done ++ [.function f]) (s.addFunction f) := by
  have reject : Filed all (done ++ [.function f]) (s.note [alreadyDeclared f.name f.nameSpan]) :=
    h.drop rfl (s.reports_rejection (.function f)) (mem_note_rejection h.report (.function f))
      (leading_snoc rfl)
  have enter : Filed all (done ++ [.function f])
      ((s.addMethod none f).addMember f.name (.method s.table.methods.length)) := by
    have grows : s.table.Extends (leading done).length
        ((s.addMethod none f).addMember f.name (.method s.table.methods.length)).table :=
      ⟨rfl, List.prefix_append _ _, List.prefix_refl _, fun _ _ => rfl⟩
    refine h.keep grows ((reports_addMethod s none f).trans (reports_of_eq rfl)) rfl
      ⟨rfl, ?_⟩ ?_ ?_ ?_ ?_
    · rw [grows.names.methodOf]
      exact List.getElem?_concat_length
    · rw [leading_snoc rfl]
      exact (List.append_nil _).symm
    · exact (List.append_nil _).symm
    · show ((s.table.methods ++ [s.table.methodOf none f]).zipIdx.map _) = _
      rw [List.zipIdx_append, List.map_append, Nat.zero_add]
      rfl
    · rw [leading_snoc rfl]
      exact h.bare
  unfold addFunction
  split
  · exact reject
  · exact reject
  · exact enter

theorem addGlobal_filed (h : Filed all done s) (g : GlobalDecl) :
    Filed all (done ++ [.global g]) (s.addGlobal g) := by
  have reports : s.Reports (s.addGlobal g) := by
    unfold addGlobal
    split
    · exact s.reports_rejection (.global g)
    · exact (s.reports_unknownTypes g.typeName.toList).trans (reports_of_eq rfl)
  by_cases taken : (s.table.getMember? g.name).isSome
  · have now : s.addGlobal g = s.note [alreadyDeclared g.name g.span] := if_pos taken
    rw [now] at reports ⊢
    exact h.drop rfl reports (mem_note_rejection h.report (.global g)) (leading_snoc rfl)
  · have now : (s.addGlobal g).table =
        { s.table with
          globals := s.table.globals ++ [s.table.globalOf g]
          members := s.table.members ++ [(g.name, .global s.table.globals.length)] } := by
      unfold addGlobal
      rw [if_neg taken]
      rfl
    have grows : s.table.Extends (leading done).length (s.addGlobal g).table := by
      rw [now]
      exact ⟨rfl, List.prefix_refl _, List.prefix_append _ _, fun _ _ => rfl⟩
    have members := congrArg SymbolTable.members now
    refine h.keep grows reports members ⟨rfl, ?_⟩ ?_ ?_ ?_ ?_
    · rw [grows.names.globalOf, now]
      exact List.getElem?_concat_length
    · rw [leading_snoc rfl]
      exact (List.append_nil _).symm
    · rw [now, List.length_append]
      exact List.range_succ
    · rw [now]
      exact (List.append_nil _).symm
    · rw [leading_snoc rfl, now]
      exact h.bare

theorem mem_classDecls {is : List Item} : c ∈ classDecls is ↔ .class_ c ∈ is := by
  rw [classDecls, List.mem_filterMap]
  constructor
  · rintro ⟨i, hi, is⟩
    cases i with
    | class_ c' => exact Option.some.inj is ▸ hi
    | _ => cases is
  · intro hc
    exact ⟨.class_ c, hc, rfl⟩

theorem mem_of_mem_leading {is : List Item} (h : c ∈ leading is) : .class_ c ∈ is :=
  mem_classDecls.1 ((firsts_sublist ClassDecl.name _).subset h)

theorem leading_prefix (is js : List Item) : leading is <+: leading (is ++ js) := by
  rw [leading, leading, classDecls_append]
  exact firsts_prefix ClassDecl.name _ _

/-- The number of a class is its place among the leading classes. -/
theorem Filed.findClass?_eq (h : Filed all done s) (name : String) :
    s.table.findClass? name = (leading all).findIdx? (·.name == name) := by
  have byHeads (classes : List ClassInfo) : classes.findIdx? (·.name == name) =
      (classes.map ClassInfo.head).findIdx? (·.1 == name) := by
    rw [List.findIdx?_map]
    rfl
  rw [SymbolTable.findClass?, byHeads, h.heads, List.findIdx?_map]
  rfl

theorem Filed.class_of_leading (h : Filed all done s) (led : (leading all)[id]? = some c) :
    ∃ info, s.table.classes[id]? = some info ∧ info.head = c.head := by
  have same : (s.table.classes.map ClassInfo.head)[id]? = some c.head := by
    rw [h.heads, List.getElem?_map, led]
    rfl
  rw [List.getElem?_map] at same
  exact Option.map_eq_some_iff.1 same

/-- A second class of one name stands at another place than the first, and is passed over. -/
theorem addClass_of_taken (h : Filed all done s) (here : all = done ++ .class_ c :: rest)
    (distinct : (all.map Item.nameSpan).Nodup)
    (taken : c.name ∈ (leading done).map ClassDecl.name) : s.addClass c = s := by
  obtain ⟨more, led⟩ := leading_prefix done (.class_ c :: rest)
  obtain ⟨k, first⟩ := Option.isSome_iff_exists.1 (List.findIdx?_isSome.trans (any_key_iff.2 taken))
  have number : s.table.findClass? c.name = some k := by
    rw [h.findClass?_eq, here, ← led, List.findIdx?_append, first]
    rfl
  obtain ⟨hk, named, -⟩ := List.findIdx?_eq_some_iff_getElem.1 first
  have before : (leading done)[k] ∈ leading done := List.getElem_mem hk
  have there : (leading all)[k]? = some (leading done)[k] := by
    rw [here, ← led, List.getElem?_append_left hk]
    exact List.getElem?_eq_getElem hk
  obtain ⟨info, found, head⟩ := h.class_of_leading there
  have elsewhere : info.span ≠ c.nameSpan := by
    rw [here, List.map_append, List.nodup_append] at distinct
    rw [show info.span = ((leading done)[k]).nameSpan from congrArg Prod.snd head]
    exact distinct.2.2 _ (List.mem_map_of_mem (mem_of_mem_leading before)) _ List.mem_cons_self
  unfold addClass
  rw [number]
  refine if_neg ?_
  rw [SymbolTable.class_, found]
  exact elsewhere

/-- The numbers of what is added to a list follow in a row. -/
theorem forall₂_range' {α β : Type} (before : List β) (g : α → β) (xs : List α) :
    List.Forall₂ (fun x k => (before ++ xs.map g)[k]? = some (g x)) xs
      (List.range' before.length xs.length) := by
  refine List.forall₂_of_length_eq_of_get (List.length_range' ..).symm fun k hk hk' => ?_
  simp [hk]

/-- The first class of a name has the number that comes next. -/
theorem Filed.next_class (h : Filed all done s) (here : all = done ++ .class_ c :: rest)
    (anew : c.name ∉ (leading done).map ClassDecl.name) :
    s.table.findClass? c.name = some (leading done).length ∧
      ∃ info, s.table.classes[(leading done).length]? = some info ∧ info.head = c.head := by
  have led : leading done ++ [c] <+: leading all := by
    have := leading_prefix (done ++ [.class_ c]) rest
    rwa [leading_snoc_class anew, List.append_assoc, List.singleton_append, ← here] at this
  obtain ⟨more, led⟩ := led
  constructor
  · have none_before : (leading done).findIdx? (·.name == c.name) = none := by
      rw [← Option.not_isSome_iff_eq_none, List.findIdx?_isSome]
      exact fun there => anew (any_key_iff.1 there)
    rw [h.findClass?_eq, ← led, List.append_assoc, List.findIdx?_append, none_before]
    simp [List.findIdx?_cons]
  · refine h.class_of_leading ?_
    rw [← led, List.append_assoc, List.getElem?_append_right (le_refl _), Nat.sub_self]
    rfl

/-- The first class of a name is filed with its members, and what is left out of them is
reported. -/
theorem addClass_of_number {n : Nat} {info : ClassInfo} (filed : ∀ d ∈ s.report.entries, d.Filed)
    (number : s.table.findClass? c.name = some n) (found : s.table.classes[n]? = some info)
    (head : info.head = c.head) (bare : info.fields = []) :
    s.Reports (s.addClass c) ∧
      (s.addClass c).table =
        withMembers (s.addMember c.name (.class_ n)).table n
          ((firsts FieldDecl.name c.fields).map s.table.fieldOf) c.methods ∧
      ∃ dropped, Parts (firsts FieldDecl.name c.fields) dropped c.fields ∧
        ∀ f ∈ dropped, duplicateField c.name f ∈ (s.addClass c).report.entries := by
  have span : (s.table.class_ n).span = c.nameSpan := by
    rw [SymbolTable.class_, found]
    exact congrArg Prod.snd head
  let entered : Filing := (s.note
    (if (s.table.getMember? c.name).isSome then [alreadyDeclared c.name c.nameSpan] else [])
    ).addMember c.name (.class_ n)
  have noted : s.Reports entered := by
    refine (s.reports_note fun d hd => ?_).trans (reports_of_eq rfl)
    split at hd
    · rw [List.mem_singleton.1 hd]
      simp [Diagnostic.Filed, alreadyDeclared, Diagnostic.error, String.toList_append]
    · cases hd
  have now : s.addClass c = c.methods.foldl (addClassMethod c.name n)
      (c.fields.foldl (addField c.name n) entered) := by
    unfold addClass
    rw [number]
    exact if_pos span
  obtain ⟨table, dropped, parts, reported⟩ :=
    foldl_addField c.name (s := entered) found bare (noted.filed filed) c.fields
  have methods := reports_foldl (reports_addClassMethod c.name n) c.methods
    (c.fields.foldl (addField c.name n) entered)
  rw [now]
  refine ⟨(noted.trans (reports_foldl (reports_addField c.name n) c.fields entered)).trans methods,
    ?_, dropped, parts, fun f hf => methods.keeps (reported f hf)⟩
  exact foldl_addClassMethod _ n _ table c.methods

theorem owners_append {α : Type} (before : List Method) (g : α → Method) (owner : Option Nat)
    (owned : ∀ x, (g x).owner = owner) (xs : List α) :
    ((before ++ xs.map g).zipIdx.map fun (m, k) => (m.owner, k)) =
      (before.zipIdx.map fun (m, k) => (m.owner, k)) ++
        (List.range' before.length xs.length).map fun k => (owner, k) := by
  rw [List.zipIdx_append, List.map_append, Nat.zero_add]
  congr 1
  refine List.ext_getElem (by simp) fun k hk hk' => ?_
  simp [owned]

theorem addClass_filed (h : Filed all done s) (here : all = done ++ .class_ c :: rest)
    (distinct : (all.map Item.nameSpan).Nodup) :
    Filed all (done ++ [.class_ c]) (s.addClass c) := by
  by_cases taken : c.name ∈ (leading done).map ClassDecl.name
  · rw [addClass_of_taken h here distinct taken]
    exact h.drop rfl (reports_of_eq rfl) (h.passed done c rest here taken)
      (leading_snoc_taken taken)
  · obtain ⟨number, info, found, head⟩ := h.next_class here taken
    obtain ⟨fields, methods⟩ := h.bare _ (le_refl _) info found
    obtain ⟨reports, table, dropped, parts, reported⟩ :=
      addClass_of_number h.report number found head fields
    set n := (leading done).length with hn
    have grows : s.table.Extends n (s.addClass c).table := by
      rw [table]
      refine ⟨heads_withMembers _ _ _ _, List.prefix_append _ _, List.prefix_refl _,
        fun id hid => List.getElem?_modify_ne _ _ (by omega)⟩
    have now : (s.addClass c).table.classes[n]? = some { info with
        fields := (firsts FieldDecl.name c.fields).map s.table.fieldOf
        methods := List.range' s.table.methods.length c.methods.length } := by
      rw [table]
      refine (getElem?_withMembers found).trans ?_
      rw [fields, methods]
      rfl
    refine h.keep grows reports (congrArg SymbolTable.members table) ⟨rfl, _, now, ?_⟩ ?_ ?_ ?_ ?_
    · refine ⟨congrArg Prod.fst head, congrArg Prod.snd head, ?_, ?_, ?_⟩
      · rw [grows.names.methodOf, table]
        exact forall₂_range' _ _ _
      · rw [grows.names.fieldOf]
        exact ⟨_, dropped, parts, rfl, reported⟩
      · rw [List.map_map]
        exact nodup_firsts FieldDecl.name c.fields
    · rw [leading_snoc_class taken, List.length_append]
      exact List.range_succ
    · rw [table]
      exact (List.append_nil _).symm
    · have owned := owners_append s.table.methods (s.table.methodOf (some n)) (some n) (fun _ => rfl)
        c.methods
      rw [SymbolTable.methodsOf, SymbolTable.class_, now]
      rw [table]
      exact owned
    · rw [leading_snoc_class taken, List.length_append]
      rintro id behind other there
      rw [table] at there
      have unchanged := List.getElem?_modify_ne (fun info : ClassInfo => { info with
          fields := info.fields ++ (firsts FieldDecl.name c.fields).map s.table.fieldOf
          methods := info.methods ++ List.range' s.table.methods.length c.methods.length })
        s.table.classes (show n ≠ id from (Nat.lt_of_succ_le behind).ne)
      exact h.bare id ((Nat.le_succ _).trans behind) other (unchanged.symm.trans there)

/-- When some items have been filed, they have their entries or are reported. -/
theorem filed_items (distinct : (all.map Item.nameSpan).Nodup) (done : List Item) :
    ∀ rest, all = done ++ rest →
      Filed all done (done.foldl addItem (all.foldl nameItem empty)) := by
  induction done using List.reverseRecOn with
  | nil => exact fun _ _ => filed_named_items all
  | append_singleton done i ih =>
    rintro rest here
    rw [List.append_assoc, List.singleton_append] at here
    have before := ih (i :: rest) here
    rw [List.foldl_append, List.foldl_cons, List.foldl_nil]
    cases i with
    | function f => exact addFunction_filed before f
    | class_ c => exact addClass_filed before here distinct
    | global g => exact addGlobal_filed before g

theorem filed_module {m : Module} (distinct : (m.items.map Item.nameSpan).Nodup) :
    Filed m.items m.items (Filing.ofModule m) :=
  filed_items distinct m.items [] (List.append_nil _).symm

/-- What is found in a list, and its place. -/
theorem rel_findIdx? {α : Type} {R : α → Nat → Prop} (p : α → Bool) {xs : List α}
    (h : ∀ x k, xs[k]? = some x → R x k) : Option.Rel R (xs.find? p) (xs.findIdx? p) := by
  induction xs generalizing R with
  | nil => exact .none
  | cons x xs ih =>
    rw [List.findIdx?_cons]
    by_cases here : p x = true
    · rw [List.find?_cons_of_pos here, if_pos here]
      exact .some (h x 0 rfl)
    · rw [List.find?_cons_of_neg here, if_neg here]
      have later := ih (R := fun x k => R x (k + 1)) fun x k there => h x (k + 1) there
      generalize xs.find? p = found, xs.findIdx? p = place at later
      cases later with
      | none => exact .none
      | some there => exact .some there

theorem exists_of_forall₂_right {α β : Type} {R : α → β → Prop} {xs : List α} {ys : List β} {y : β}
    (h : List.Forall₂ R xs ys) (hy : y ∈ ys) : ∃ x ∈ xs, R x y := by
  induction h with
  | nil => cases hy
  | cons first _ ih =>
    rcases List.mem_cons.1 hy with rfl | later
    · exact ⟨_, List.mem_cons_self, first⟩
    · obtain ⟨x, hx, there⟩ := ih later
      exact ⟨x, List.mem_cons_of_mem _ hx, there⟩

/-- Once all is filed, each leading class is there with its members. -/
theorem Filed.holds_of_leading (h : Filed all all s) (distinct : (all.map Item.nameSpan).Nodup)
    (led : (leading all)[id]? = some c) :
    ∃ info, s.table.classes[id]? = some info ∧ info.Holds s.table s.report id c := by
  obtain ⟨info, found, head⟩ := h.class_of_leading led
  refine ⟨info, found, ?_⟩
  have here : id ∈ s.table.members.filterMap (·.2.classId?) := by
    rw [h.classes]
    exact List.mem_range.2 (List.getElem?_eq_some_iff.1 led).1
  obtain ⟨⟨name, member⟩, hp, is⟩ := List.mem_filterMap.1 here
  obtain ⟨kept, dropped, parts, entered, -⟩ := h.entries
  obtain ⟨i, hi, enters⟩ := exists_of_forall₂_right entered hp
  cases member with
  | class_ id' =>
    cases is
    cases i with
    | class_ c' =>
      obtain ⟨-, info', found', holds⟩ := enters
      obtain rfl := Option.some.inj (found.symm.trans found')
      have one : Item.class_ c' = .class_ c :=
        List.inj_on_of_nodup_map distinct (parts.order.subset hi)
          (mem_of_mem_leading (List.mem_of_getElem? led))
          (holds.span.symm.trans (congrArg Prod.snd head))
      exact Item.class_.inj one ▸ holds
    | _ => exact enters.elim
  | _ => cases is

end Filed

end Filing

/-! ## The table of a module -/

/-- The methods among the members of the module, none of which has an owner. -/
def SymbolTable.moduleMethods (t : SymbolTable) : List (Option Nat × Nat) :=
  (t.members.filterMap (·.2.methodId?)).map fun k => (none, k)

/-- The methods that the classes list, each with its class. -/
def SymbolTable.classMethods (t : SymbolTable) : List (Option Nat × Nat) :=
  t.classes.zipIdx.flatMap fun (info, id) => info.methods.map fun k => (some id, k)

/-- All methods, each with its owner. -/
def SymbolTable.ownedMethods (t : SymbolTable) : List (Option Nat × Nat) :=
  t.methods.zipIdx.map fun (method, k) => (method.owner, k)

/-- Nothing that the module declares is lost, and nothing is filed twice. -/
structure SymbolTable.Complete (t : SymbolTable) (report : Report) (m : Module) : Prop where
  /-- Each method is found once, and where its owner is. -/
  methods : (t.moduleMethods ++ t.classMethods).Perm t.ownedMethods
  classes : t.members.filterMap (·.2.classId?) = List.range t.classes.length
  globals : t.members.filterMap (·.2.globalId?) = List.range t.globals.length
  names : (t.classes.map ClassInfo.name).Nodup
  /-- A name of a class is that of the first class that is declared under it. -/
  first : ∀ name, Option.Rel
    (fun c id => ∃ info, t.classes[id]? = some info ∧ info.Holds t report id c)
    ((Filing.classDecls m.items).find? (·.name == name)) (t.findClass? name)
  /-- An annotation with such a name stands for the instances of the class. -/
  annotations : ∀ (a : TypeName) id, Ty.ofName? a.name = none → t.findClass? a.name = some id →
    t.typeOf a = t.instanceType id
  fields : ∀ info ∈ t.classes, (info.fields.map FieldInfo.name).Nodup
  /-- The members of the module are those of its items that are kept, in their order; in what is
  filed with them all annotations are read by this table.  What is not kept is reported. -/
  entries : ∃ kept dropped, Parts kept dropped m.items ∧
    List.Forall₂ (t.Enters report) kept t.members ∧ ∀ i ∈ dropped, i.rejection ∈ report.entries

section Complete

variable {t : SymbolTable} {m : Module} {s : Filing}

/-- The methods of the members, taken apart by their owners. -/
theorem perm_methodsOf (t : SymbolTable) (members : List (String × Member)) :
    List.Perm ((members.filterMap fun p => p.2.methodId?).map (fun k => (none, k)) ++
        (members.filterMap fun p => p.2.classId?).flatMap fun id => t.methodsOf (.class_ id))
      (members.flatMap fun p => t.methodsOf p.2) := by
  induction members with
  | nil => exact .nil
  | cons p members ih =>
    obtain ⟨name, member⟩ := p
    cases member with
    | method id => exact ih.cons (none, id)
    | class_ id =>
      refine List.Perm.trans ?_ (ih.append_left (t.methodsOf (.class_ id)))
      show List.Perm (_ ++ (_ ++ _)) (_ ++ (_ ++ _))
      rw [← List.append_assoc, ← List.append_assoc]
      exact List.perm_append_comm.append_right _
    | _ => exact ih

theorem classMethods_eq (t : SymbolTable) :
    t.classMethods = (List.range t.classes.length).flatMap fun id => t.methodsOf (.class_ id) := by
  have numbers : List.range t.classes.length = t.classes.zipIdx.map Prod.snd := by
    rw [List.zipIdx_map_snd, List.range_eq_range']
  rw [numbers, List.flatMap_map]
  refine List.flatMap_congr fun p hp => ?_
  rw [SymbolTable.methodsOf, SymbolTable.class_, List.mem_zipIdx_iff_getElem?.1 hp]
  rfl

namespace Filing

theorem Filed.complete (h : Filed m.items m.items s)
    (distinct : (m.items.map Item.nameSpan).Nodup) : s.table.Complete s.report m := by
  have length : s.table.classes.length = (leading m.items).length := by
    simpa using congrArg List.length h.heads
  have classes : s.table.members.filterMap (·.2.classId?) =
      List.range s.table.classes.length := length ▸ h.classes
  refine ⟨?_, classes, h.globals, ?_, ?_, ?_, ?_, h.entries⟩
  · have parted := perm_methodsOf s.table s.table.members
    rwa [h.methods, classes, ← classMethods_eq] at parted
  · have names := congrArg (List.map Prod.fst) h.heads
    rw [List.map_map, List.map_map] at names
    show (s.table.classes.map (Prod.fst ∘ ClassInfo.head)).Nodup
    rw [names]
    exact nodup_firsts ClassDecl.name _
  · intro name
    rw [h.findClass?_eq, ← find?_firsts]
    exact rel_findIdx? _ fun c id led => h.holds_of_leading distinct led
  · intro a id free found
    rw [SymbolTable.typeOf, SymbolTable.typeNamed?, free, found]
    rfl
  · intro info hi
    obtain ⟨id, hid, rfl⟩ := List.mem_iff_getElem.1 hi
    obtain ⟨info, found, holds⟩ :=
      h.holds_of_leading distinct (List.getElem?_eq_getElem (length ▸ hid))
    obtain ⟨_, rfl⟩ := List.getElem?_eq_some_iff.1 found
    exact holds.distinct

end Filing

/-- No declaration is lost, and none is filed twice. -/
theorem SymbolTable.complete_ofModule {text : String} {read : Report}
    (parsed : Module.ofText text = .ok (m, read)) :
    (SymbolTable.ofModule m).1.Complete (SymbolTable.ofModule m).2 m :=
  (Filing.filed_module (Module.nodup_names parsed)).complete (Module.nodup_names parsed)

/-- Names of all kinds clash here, and two annotations come before the classes that they name. -/
def clashingText : String :=
  "const f: B = 1\nclass B \x7b\nvar x: C\nvar x\nfn x() \x7b\x7d\n\x7d\nfn C() \x7b\x7d\n" ++
  "class C \x7b\x7d\nclass B \x7b\x7d\nfn f() \x7b\x7d\nfn C(c: B) \x7b\x7d\nvar B = 1\n"

theorem complete_ofModule_clashing :
    ∃ m read, Module.ofText clashingText = .ok (m, read) ∧
      (SymbolTable.ofModule m).1.members =
        [("f", .global 0), ("B", .class_ 0), ("C", .method 1), ("C", .class_ 1),
          ("C", .method 2)] ∧
      (SymbolTable.ofModule m).2.entries.map Diagnostic.message =
        ["duplicate class 'B'", "duplicate field 'x' in class 'B'",
          "method 'x' is shadowed by a field of class 'B'", "'C' is already declared",
          "'f' is already declared", "'B' is already declared"] ∧
      (SymbolTable.ofModule m).1.Complete (SymbolTable.ofModule m).2 m := by
  have known : ((Module.ofText clashingText).toOption.map fun found =>
      ((SymbolTable.ofModule found.1).1.members,
        (SymbolTable.ofModule found.1).2.entries.map Diagnostic.message)) =
      some ([("f", .global 0), ("B", .class_ 0), ("C", .method 1), ("C", .class_ 1),
          ("C", .method 2)],
        ["duplicate class 'B'", "duplicate field 'x' in class 'B'",
          "method 'x' is shadowed by a field of class 'B'", "'C' is already declared",
          "'f' is already declared", "'B' is already declared"]) := by
    have row : TokenRow.ofText clashingText = _ :=
      TokenRow.ofText_of_eq_append (by unfold clashingText; with_reducible rfl)
    rw [Module.ofText, row]
    decide +kernel
  cases parsed : Module.ofText clashingText with
  | error e => rw [parsed] at known; cases known
  | ok found =>
    obtain ⟨m, read⟩ := found
    rw [parsed] at known
    obtain ⟨members, messages⟩ := Prod.mk.inj (Option.some.inj known)
    exact ⟨m, read, rfl, members, messages, SymbolTable.complete_ofModule parsed⟩

end Complete

end PathTyping
