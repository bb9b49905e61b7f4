import PathTyping.Proofs.Transport
import PathTyping.Invoke

/-!
# Renaming objects across calls

What a body returns is brought to the declared type, collapsed and given to the caller; the key of
the call decides whether results are kept already.  None of this sees labels, so calls that are
followed go through in step with the calls of renamed values.

1. A resolution of renamed variables is the renamed resolution (`renames_resolve`).
2. Calls go through in step, however deep they may be followed (`renames_invoke`).
-/

namespace PathTyping

open Value (rename)

/-! ## Calls that are followed -/

def Resolution.rename (f : Nat → Nat) (r : Resolution) : Resolution :=
  ⟨r.arena.rename f, r.terminals, r.code⟩

theorem returned_rename (f : Nat → Nat) (bs : List Branch) :
    (bs.map (Branch.rename f)).filterMap Branch.returned =
      (bs.filterMap Branch.returned).map (rename f) := by
  rw [List.filterMap_map, List.map_filterMap]
  rfl

theorem returnsOf_rename (f : Nat → Nat) (bs : List Branch) :
    Resolution.returnsOf (bs.map (Branch.rename f)) =
      (Resolution.returnsOf bs).map (rename f) := by
  have kept : (bs.map (Branch.rename f)).filter (fun b => !Resolution.isCutoff b) =
      (bs.filter fun b => !Resolution.isCutoff b).map (Branch.rename f) := by
    rw [List.filter_map]
    rfl
  unfold Resolution.returnsOf
  rw [kept, returned_rename, returned_rename]
  cases (bs.filter fun b => !Resolution.isCutoff b).filterMap Branch.returned <;> rfl

theorem returnValues_rename (f : Nat → Nat) (r : Resolution) :
    (r.rename f).returnValues = r.returnValues.map (rename f) := by
  have ends : (r.rename f).ends = r.ends.map (Branch.rename f) := by
    unfold Resolution.ends Resolution.rename
    rw [List.map_filterMap]
    exact congrArg (List.filterMap · _) (funext fun id => r.arena.branch?_rename f id)
  rw [Resolution.returnValues, ends, returnsOf_rename]
  rfl

namespace Value

theorem coerce_rename {f : Nat → Nat} {n : Nat} (r : Renaming f n) (declared : Option Ty)
    (v : Value) : (v.rename f).coerce declared = (v.coerce declared).rename f := by
  cases declared with
  | none => rfl
  | some type =>
    unfold coerce
    rw [type_rename]
    dsimp only
    split
    · rfl
    · exact (rename_ofType r type).symm

theorem alike_rename (f : Nat → Nat) (v w : Value) : (v.rename f).alike (w.rename f) = v.alike w := by
  simp only [alike, type_rename, constant_rename]

theorem distinctFrom_rename (f : Nat → Nat) (seen values : List Value) :
    distinctFrom (seen.map (rename f)) (values.map (rename f)) =
      (distinctFrom seen values).map (rename f) := by
  induction values generalizing seen with
  | nil => rfl
  | cons v rest ih =>
    have known : (seen.map (rename f)).any (·.alike (v.rename f)) = seen.any (·.alike v) := by
      simp only [List.any_map, Function.comp_def, alike_rename]
    have behind := ih (seen ++ [v])
    rw [List.map_append, List.map_singleton] at behind
    rw [List.map_cons]
    unfold distinctFrom
    rw [known]
    split
    · exact ih seen
    · rw [List.map_cons, behind]

end Value

namespace Analysis

variable {f : Nat → Nat} {n : Nat} {c c' : Context} (r : Renaming f n)
include r

theorem renames_resolve {invoke : Invoke} (steady : Steady f n invoke) (h : c.Renames f c')
    (code : Code) (scope : Scope) (locals : List (String × Value)) :
    Renames f n (Resolution.rename f) (resolve invoke c code scope locals)
      (resolve invoke c' code scope (Assoc.mapValues (rename f) locals)) := by
  have walked : Walk.Renames f n (fun _ => False) (fun ids => ids)
      (Walk.fromRoot invoke c code scope locals)
      (Walk.fromRoot invoke c' code scope (Assoc.mapValues (rename f) locals)) :=
    Walk.renames_bind (Walk.renames_openRoot r scope locals) fun _ =>
      Walk.renames_walk r steady code.steps.toArray (code.size + 1) h.renamesOver 0 0
  have rooted : Renames f n (Prod.map (fun ids => ids) (Arena.rename f))
      ((Walk.fromRoot invoke c code scope locals).run .empty)
      ((Walk.fromRoot invoke c' code scope (Assoc.mapValues (rename f) locals)).run .empty) := by
    intro m late
    obtain ⟨-, later, same⟩ := walked .empty m nofun late
    rw [show Arena.empty.rename f = .empty by simp [Arena.rename, Arena.empty]] at same
    exact ⟨later, same⟩
  refine renames_bind rooted fun p => ?_
  exact renames_pure rfl

theorem declared_rename (m : Method) : (declared m).rename f = declared m :=
  Value.rename_ofType r _

theorem resultsOf_rename (m : Method) (resolved : Resolution) :
    resultsOf m (resolved.rename f) = (resultsOf m resolved).map (rename f) := by
  have coerced : ((resolved.returnValues.map (rename f)).map (Value.coerce m.returns)) =
      (resolved.returnValues.map (Value.coerce m.returns)).map (rename f) := by
    simp only [List.map_map, Function.comp_def, Value.coerce_rename r]
  have collapsed := Value.distinctFrom_rename f [] (resolved.returnValues.map (Value.coerce m.returns))
  rw [List.map_nil] at collapsed
  unfold resultsOf Value.distinct
  rw [returnValues_rename, coerced, collapsed]
  cases Value.distinctFrom [] (resolved.returnValues.map (Value.coerce m.returns)) with
  | nil => exact congrArg (· :: []) (declared_rename r m).symm
  | cons v rest => rfl

omit r in
theorem callKey_rename (t : SymbolTable) (id : Nat) (receiver : Option Value)
    (arguments : List Value) :
    CallKey.of t id (receiver.map (rename f)) (arguments.map (rename f)) =
      CallKey.of t id receiver arguments := by
  unfold CallKey.of
  rw [map_type_rename]
  cases receiver <;> simp

omit r in
theorem memoKey_rename (t : SymbolTable) (id : Nat) (receiver : Option Value)
    (arguments : List Value) :
    MemoKey.of t id (receiver.map (rename f)) (arguments.map (rename f)) =
      MemoKey.of t id receiver arguments := by
  have key (v : Value) : ValueKey.of (v.rename f) = ValueKey.of v := by simp [ValueKey.of]
  unfold MemoKey.of
  rw [callKey_rename]
  simp only [Option.map_map, List.map_map, Function.comp_def, key]

theorem boundParams_rename (params : List Param) (arguments : List Value) :
    boundParams params (arguments.map (rename f)) =
      Assoc.mapValues (rename f) (boundParams params arguments) := by
  have bound (p : Param) (argument : Option Value) :
      p.bound (argument.map (rename f)) = (p.bound argument).rename f := by
    unfold Param.bound
    split
    · exact (Value.rename_any r).symm
    · cases argument with
      | some v =>
        simp only [Option.map_some, Value.type_rename]
        split
        · exact Value.copy_rename r v
        · exact (Value.rename_ofType r _).symm
      | none =>
        rw [Option.map_none]
        cases p.default with
        | none => exact (Value.rename_ofType r _).symm
        | some d =>
          cases d with
          | literal l =>
            dsimp only
            split
            · exact (Value.rename_ofLiteral r _).symm
            · exact (Value.rename_ofType r _).symm
          | _ => exact (Value.rename_ofType r _).symm
  simp only [boundParams, Assoc.mapValues, List.map_map, Function.comp_def, List.getElem?_map, bound]

theorem entryVariables_rename (t : SymbolTable) (m : Method) (receiver : Option Value)
    (arguments : List Value) :
    t.entryVariables m (receiver.map (rename f)) (arguments.map (rename f)) =
      Assoc.mapValues (rename f) (t.entryVariables m receiver arguments) := by
  have owned : t.receiver? m (receiver.map (rename f)) =
      (t.receiver? m receiver).map (rename f) := by
    unfold SymbolTable.receiver?
    cases m.owner with
    | none => rfl
    | some owner =>
      cases receiver with
      | some v => rfl
      | none => exact congrArg some (Value.rename_ofType r _).symm
  unfold SymbolTable.entryVariables
  rw [boundParams_rename r, owned]
  cases t.receiver? m receiver <;> simp [Assoc.mapValues]

theorem renames_leave (t : SymbolTable) (id : Nat) (receiver : Option Value)
    (arguments : List Value) (cutoffs : Nat) (resolved : Resolution) :
    Renames f n (List.map (rename f)) (leave t id receiver arguments cutoffs resolved)
      (leave t id (receiver.map (rename f)) (arguments.map (rename f)) cutoffs
        (resolved.rename f)) := by
  unfold leave
  refine renames_bind (renames_modify fun _ late => ⟨late, rfl⟩) fun _ => ?_
  rw [resultsOf_rename r, memoKey_rename]
  refine renames_bind (renames_all_fresh r _) fun values => renames_get fun m => ?_
  rw [show (m.rename f).cutoffs = m.cutoffs from rfl]
  split
  · refine renames_bind (renames_modify fun m late => ?_) fun _ => renames_pure rfl
    exact ⟨late, m.remember_rename f _ values⟩
  · exact renames_pure rfl

theorem renames_follow {deeper : Invoke} (steady : Steady f n deeper) (h : c.Renames f c')
    (id : Nat) (receiver : Option Value) (arguments : List Value) :
    Renames f n (List.map (rename f)) (follow deeper c id receiver arguments)
      (follow deeper c' id (receiver.map (rename f)) (arguments.map (rename f))) := by
  unfold follow
  rw [h.symbols]
  dsimp only
  refine renames_bind (renames_body _ id) fun code? => ?_
  cases code? with
  | none =>
    have stands := renames_fresh r (declared (c.symbols.method id))
    rw [declared_rename r] at stands
    exact renames_bind stands fun _ => renames_pure rfl
  | some code =>
    refine renames_get fun m => ?_
    rw [callKey_rename, entryVariables_rename r]
    refine renames_bind (renames_modify fun _ late => ⟨late, rfl⟩) fun _ => ?_
    exact renames_bind (renames_resolve r steady h code _ _) fun resolved =>
      renames_leave r _ id receiver arguments _ resolved

theorem renames_cutOff (t : SymbolTable) (id : Nat) (span : Span) :
    Renames f n (List.map (rename f)) (cutOff t id span) (cutOff t id span) := by
  have stands := renames_fresh r (declared (t.method id))
  rw [declared_rename r] at stands
  unfold cutOff
  refine renames_bind (renames_modify fun _ late => ⟨late, rfl⟩) fun _ => ?_
  exact renames_bind (renames_report _ span) fun _ => renames_bind stands fun _ => renames_pure rfl

theorem steady_invokeWith {deeper? : Option Invoke}
    (steady : ∀ deeper, deeper? = some deeper → Steady f n deeper) :
    Steady f n (invokeWith deeper?) := by
  intro c c' h id receiver arguments span
  unfold invokeWith
  refine renames_get fun m => ?_
  rw [h.symbols, memoKey_rename, callKey_rename, m.find?_rename]
  cases m.find? (.of c.symbols id receiver arguments) with
  | some values => exact renames_pure rfl
  | none =>
    cases deeper? with
    | none => exact renames_cutOff r _ id span
    | some deeper =>
      dsimp only
      rw [show (m.rename f).stack = m.stack from rfl]
      split
      · exact renames_cutOff r _ id span
      · exact renames_follow r (steady deeper rfl) h id receiver arguments

/-- Calls go through in step, however deep they may be followed. -/
theorem renames_invoke (depth : Nat) : Steady f n (invoke depth) := by
  induction depth with
  | zero => exact steady_invokeWith r nofun
  | succ depth ih =>
    refine steady_invokeWith r ?_
    rintro _ ⟨⟩
    exact ih

end Analysis

end PathTyping
