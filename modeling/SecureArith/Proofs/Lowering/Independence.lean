import SecureArith.Proofs.Lowering.Run

set_option autoImplicit false

/-!
# Functions on their own

A function depends on the others of its description only through variables that the functions before
it have declared by assigning them, and only through those that it names itself. With these
variables declared, it is lowered on its own to the same lines with the same types. Functions that
name no such variable need nothing but the variables of the description.
-/

namespace SecureArith

namespace Description

variable {d : Description} {l : Lowering} {decl : FunctionDecl}

/-- The variables that earlier functions have declared and that a function names. -/
def inherited (d : Description) (earlier : Program) (decl : FunctionDecl) : List VarDecl :=
  ((earlier.vars.toList.drop d.vars.length).filter (·.name ∈ decl.names)).map fun x =>
    ⟨x.name, x.type⟩

def alone (d : Description) (earlier : Program) (decl : FunctionDecl) : Description :=
  { d with vars := d.vars ++ d.inherited earlier decl, functions := [decl] }

theorem Lowered.exists_earlier (h : d.Lowered l) (i : Nat) :
    ∃ l', Description.lower { d with functions := d.functions.take i } = .ok l'.program ∧
      Lowered { d with functions := d.functions.take i } l' := by
  have inScope : ScopedFrom d.scope (d.functions.take i) := by
    intro j decl found
    rw [List.getElem?_take] at found
    split at found
    · rename_i lt
      rw [List.take_take, Nat.min_eq_left (Nat.le_of_lt lt)]
      exact h.inScope j decl found
    · cases found
  obtain ⟨p, lowered⟩ :=
    exists_lower (d := { d with functions := d.functions.take i }) h.distinct inScope
  obtain ⟨l', rfl, isLowered⟩ := exists_lowered lowered
  exact ⟨l', lowered, isLowered⟩

theorem Lowered.vars_eq (h : d.Lowered l) :
    l.program.vars.toList = (table d.vars).toList ++ l.program.vars.toList.drop d.vars.length := by
  obtain ⟨more, eq⟩ := h.grown.vars
  rw [eq, vars_registered]
  simp [table]

theorem table_inherited (earlier : Program) :
    table (d.inherited earlier decl) =
      ((earlier.vars.toList.drop d.vars.length).filter (·.name ∈ decl.names)).toArray := by
  rw [table, inherited, List.map_map]
  exact congrArg List.toArray (List.map_id' _)

theorem Lowered.distinct_alone (h : d.Lowered l) :
    ((d.alone l.program decl).vars.map (·.name)).Nodup := by
  have distinct := h.grown.ready.distinct
  rw [h.vars_eq, List.map_append] at distinct
  refine distinct.sublist ?_
  rw [alone, List.map_append, inherited, List.map_map]
  refine List.Sublist.append ?_ (List.filter_sublist.map _)
  simp [table, Function.comp_def]

/-- A function on its own finds all that it names as it would after the others. -/
theorem Lowered.agreeOn_alone (h : d.Lowered l) :
    l.program.scope.AgreeOn decl.names (d.alone l.program decl).scope := by
  constructor
  · intro name mem
    have own : (table (d.inherited l.program decl)).find? (·.name == name) =
        (l.program.vars.toList.drop d.vars.length).find? (·.name == name) := by
      rw [table_inherited, List.find?_toArray, List.find?_filter]
      congr 1
      funext x
      by_cases same : x.name = name
      · simp [same, mem]
      · simp [same]
    have known : l.program.vars.find? (·.name == name) =
        ((table d.vars).find? (·.name == name)).or
          ((l.program.vars.toList.drop d.vars.length).find? (·.name == name)) := by
      rw [← Array.find?_toList, ← Array.find?_toList, ← List.find?_append]
      exact congrArg (List.find? _) h.vars_eq
    have vars : table (d.alone l.program decl).vars =
        table d.vars ++ table (d.inherited l.program decl) := by
      simp [alone, table]
    rw [Description.scope, Program.vars_scope, Program.vars_scope, Program.declared?,
      Program.declared?, vars_registered, vars, Array.find?_append, own, known]
  · have result := h.grown.result_scope (d.ready_registered h.distinct)
    rw [← result, Description.scope, registered_eq, registered_eq (d.alone l.program decl)]
    rfl

theorem map_line_eq {s s' : Scope} (h : s.AgreeOn decl.names s') :
    decl.body.map (Statement.line s) = decl.body.map (Statement.line s') := by
  refine List.map_congr_left fun st mem => Statement.line_eq (h.of_subset ?_)
  intro name read
  exact List.mem_append_right _
    (List.mem_flatMap.mpr ⟨st, mem, List.mem_append_left _ read⟩)

theorem Lowered.inherited_eq_nil (h : d.Lowered l)
    (none : ∀ g ∈ d.functions, ∀ name ∈ g.targets, name ∈ decl.names →
      name ∈ d.vars.map (·.name)) : d.inherited l.program decl = [] := by
  rw [inherited, List.map_eq_nil_iff, List.filter_eq_nil_iff]
  intro x mem named
  have distinct := h.grown.ready.distinct
  rw [h.vars_eq, List.map_append] at distinct
  have names : (table d.vars).toList.map (·.name) = d.vars.map (·.name) := by
    simp [table, Function.comp_def]
  have declared : x.name ∈ d.vars.map (·.name) := by
    have inScope : (l.program.scope.vars x.name).isSome := by
      rw [Program.vars_scope, Option.isSome_map, Program.declared?, Array.find?_isSome]
      exact ⟨x, Array.mem_toList_iff.mp (List.mem_of_mem_drop mem), beq_self_eq_true _⟩
    rw [h.scope] at inScope
    rcases isSome_vars_foldl_after inScope with declared | ⟨g, isFunction, target⟩
    · rw [Description.scope, Program.vars_scope, Option.isSome_map, Program.declared?,
        vars_registered, Array.find?_isSome] at declared
      obtain ⟨y, isVar, same⟩ := declared
      rw [← names, ← beq_iff_eq.mp same]
      exact List.mem_map_of_mem (Array.mem_toList_iff.mpr isVar)
    · exact none g isFunction x.name target (decide_eq_true_iff.mp named)
  exact List.disjoint_of_nodup_append distinct (names ▸ declared) (List.mem_map_of_mem mem)

end Description

open Description in
/-- A function of a description that can be lowered can be lowered without the others, once the
variables are declared that it names and that the functions before it have declared by assigning
them. Its lines and the types of all values in them are the same. Where it names no such variable,
nothing has to be declared: all other functions can be removed. -/
theorem lower_function_alone (d : Description) (p : Program) (lowered : d.lower = .ok p) (i : Nat)
    (decl : FunctionDecl) (found : d.functions[i]? = some decl) :
    ∃ earlier f p' f' lines,
      Description.lower { d with functions := d.functions.take i } = .ok earlier ∧
      p.functions[i]? = some f ∧ p.lines? f = some lines ∧
      (d.alone earlier decl).lower = .ok p' ∧
      p'.functions[0]? = some f' ∧ p'.lines? f' = some lines ∧
      ((∀ g ∈ d.functions.take i, ∀ name ∈ g.targets, name ∈ decl.names →
        name ∈ d.vars.map (·.name)) →
          d.alone earlier decl = { d with functions := [decl] }) := by
  obtain ⟨l, rfl, isLowered⟩ := exists_lowered lowered
  obtain ⟨f, isFunction, lines⟩ := isLowered.lines found
  obtain ⟨l₀, loweredBefore, before⟩ := isLowered.exists_earlier i
  have agree : l₀.program.scope.AgreeOn decl.names (d.alone l₀.program decl).scope :=
    before.agreeOn_alone
  have start : l₀.program.scope = (d.functions.take i).foldl FunctionDecl.after d.scope :=
    before.scope
  have inScope : decl.Scoped l₀.program.scope := start ▸ isLowered.inScope i decl found
  obtain ⟨same, after⟩ := FunctionDecl.scoped_iff agree
  -- The function on its own is lowered, and leaves the scope that it leaves after the others.
  have inScope' : ScopedFrom (d.alone l₀.program decl).scope [decl] :=
    scopedFrom_cons.mpr ⟨same.mp inScope, by rintro _ _ ⟨⟩⟩
  obtain ⟨p', loweredAlone⟩ : ∃ p', (d.alone l₀.program decl).lower = .ok p' :=
    exists_lower before.distinct_alone inScope'
  obtain ⟨l', rfl, isLowered'⟩ := exists_lowered loweredAlone
  obtain ⟨f', isFunction', lines'⟩ := isLowered'.lines (List.getElem?_cons_zero : [decl][0]? = _)
  have scope' : l'.program.scope = decl.after (d.alone l₀.program decl).scope := isLowered'.scope
  -- The functions that follow leave it at that.
  have split : d.functions = d.functions.take i ++ decl :: d.functions.drop (i + 1) := by
    obtain ⟨lt, isDecl⟩ := List.getElem?_eq_some_iff.mp found
    rw [← isDecl, ← List.drop_eq_getElem_cons lt, List.take_append_drop]
  have scope : l.program.scope =
      (d.functions.drop (i + 1)).foldl FunctionDecl.after (decl.after l₀.program.scope) := by
    rw [start, isLowered.scope]
    conv_lhs => rw [split]
    rw [List.foldl_append, List.foldl_cons]
  have later : (decl.after l₀.program.scope).AgreeOn decl.names l.program.scope :=
    scope ▸ FunctionDecl.agreeOn_foldl_after_self _ inScope.inScope_after
  refine ⟨l₀.program, f, l'.program, f', _, loweredBefore, isFunction, lines, loweredAlone,
    isFunction', ?_, fun none => ?_⟩
  · rw [lines', scope', map_line_eq (later.symm.trans after)]
  · have nothing : d.inherited l₀.program decl = [] := before.inherited_eq_nil none
    rw [alone, nothing, List.append_nil]

namespace Description

def borrower : FunctionDecl := ⟨"g", none, [], {}, [.ret (.var "t")]⟩

def reuser : FunctionDecl := ⟨"h", none, [], {}, [.assign "t" (.call "u" []), .ret (.var "t")]⟩

/-- The first function declares a variable, which the others use. -/
def lending : Description where
  functions := [⟨"f", none, [], {}, [.assign "t" (.int 1)]⟩, borrower, reuser]

def lastType? (d : Description) (i : Nat) : Option (Option TypeName) := do
  let p ← d.lower.toOption
  let last ← (← p.functions[i]?).body.getLast?
  return (← p.values[last.value]?).type

end Description

open Description in
theorem lower_function_alone_lending :
    ∃ p earlier f p' f' lines, lending.lower = .ok p ∧
      Description.lower { lending with functions := lending.functions.take 1 } = .ok earlier ∧
      p.functions[1]? = some f ∧ p.lines? f = some lines ∧
      (lending.alone earlier borrower).lower = .ok p' ∧
      p'.functions[0]? = some f' ∧ p'.lines? f' = some lines := by
  have checked : lending.lower.toOption.isSome = true := by decide +kernel
  cases lowered : lending.lower with
  | error e =>
    rw [lowered] at checked
    cases checked
  | ok p =>
    obtain ⟨earlier, f, p', f', lines, before, isFunction, isLines, alone, isFunction', isLines',
      -⟩ := lower_function_alone lending p lowered 1 borrower rfl
    exact ⟨p, earlier, f, p', f', lines, rfl, before, isFunction, isLines, alone, isFunction',
      isLines'⟩

open Description in
/-- With the other functions removed, a function may not be lowered at all, or get other types. -/
theorem lending_not_independent :
    lending.lower.toOption.isSome ∧
      Description.lower { lending with functions := [borrower] } = .error (.undeclared "t" "g") ∧
      lending.lastType? 2 = some (some .int) ∧
      lastType? { lending with functions := [reuser] } 0 = some none := by
  refine ⟨by decide +kernel, by decide +kernel, by decide +kernel, by decide +kernel⟩

end SecureArith
