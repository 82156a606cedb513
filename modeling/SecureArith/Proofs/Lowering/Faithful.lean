import SecureArith.Proofs.Lowering.Run

set_option autoImplicit false

/-!
# Lowering is faithful

A description is refused only for a variable that is declared twice or for a name that is read
before it is known. What it is lowered to says the same: functions keep their statements, every node
of an expression has a value of its own, which is used in one place, and callees are those that the
declarations say.
-/

namespace SecureArith

namespace Program

/-- Where values are used: as operands and by instructions. -/
def uses (p : Program) : List ValueId :=
  p.values.toList.flatMap Value.operands ++
    p.functions.toList.flatMap fun f => f.body.map (·.value)

end Program

namespace Description

section Scopes

variable {s : Scope} {name : String}

theorem isSome_vars_body_iff {body : List Statement} :
    ((body.foldl Statement.after s).vars name).isSome ↔
      (s.vars name).isSome ∨ name ∈ body.filterMap Statement.target? := by
  refine ⟨isSome_vars_body, fun h => ?_⟩
  induction body generalizing s with
  | nil => exact h.resolve_right List.not_mem_nil
  | cons st rest ih =>
    refine ih ?_
    rw [Statement.vars_after, Option.isSome_or, Bool.or_eq_true]
    rcases h with known | assigned
    · exact .inl (.inl known)
    · obtain ⟨st', mem, isTarget⟩ := List.mem_filterMap.mp assigned
      rcases List.mem_cons.mp mem with rfl | later
      · exact .inl (.inr (by rw [if_pos isTarget]; rfl))
      · exact .inr (List.mem_filterMap.mpr ⟨st', later, isTarget⟩)

theorem isSome_vars_functions_iff {fs : List FunctionDecl} :
    ((fs.foldl FunctionDecl.after s).vars name).isSome ↔
      (s.vars name).isSome ∨ ∃ d ∈ fs, name ∈ d.targets := by
  refine ⟨isSome_vars_foldl_after, fun h => ?_⟩
  induction fs generalizing s with
  | nil => exact h.resolve_right (by rintro ⟨_, ⟨⟩, -⟩)
  | cons d rest ih =>
    refine ih ?_
    rw [FunctionDecl.after, isSome_vars_body_iff]
    rcases h with known | ⟨d', mem, target⟩
    · exact .inl (.inl known)
    · rcases List.mem_cons.mp mem with rfl | later
      · exact .inl (.inr target)
      · exact .inr ⟨d', later, target⟩

theorem bodyInScope_iff_forall {body : List Statement} :
    BodyInScope s body ↔ ∀ done st rest, body = done ++ st :: rest →
      InScope (done.foldl Statement.after s) st.value.names := by
  induction body generalizing s with
  | nil => simp [BodyInScope]
  | cons st rest ih =>
    rw [BodyInScope, ih]
    constructor
    · rintro ⟨first, others⟩ done st' rest' eq
      rcases List.cons_eq_append_iff.mp eq with ⟨rfl, split⟩ | ⟨done, rfl, split⟩
      · cases split
        exact first
      · exact others done st' rest' split
    · intro all
      refine ⟨all [] st rest rfl, fun done st' rest' eq => ?_⟩
      exact all (st :: done) st' rest' (congrArg (st :: ·) eq)

theorem scopedFrom_iff_forall {fs : List FunctionDecl} :
    ScopedFrom s fs ↔ ∀ before decl after, fs = before ++ decl :: after →
      decl.Scoped (before.foldl FunctionDecl.after s) := by
  constructor
  · rintro h before decl after rfl
    have inScope := h before.length decl (by simp)
    rwa [List.take_left] at inScope
  · intro h i decl found
    obtain ⟨lt, rfl⟩ := List.getElem?_eq_some_iff.mp found
    refine h _ _ (fs.drop (i + 1)) ?_
    rw [List.cons_getElem_drop_succ, List.take_append_drop]

end Scopes

variable {d : Description}

/-- Some function reads a name that is no declared variable and that no statement before has
assigned: as its environment, as a parameter, or in an expression. -/
def ReadsUnknown (d : Description) : Prop :=
  ∃ before decl after name, d.functions = before ++ decl :: after ∧
    name ∉ d.vars.map (·.name) ∧ (∀ earlier ∈ before, name ∉ earlier.targets) ∧
    (name ∈ decl.mpc.toList ++ decl.params ∨
      ∃ done st rest, decl.body = done ++ st :: rest ∧ name ∈ st.value.names ∧
        name ∉ done.filterMap Statement.target?)

theorem isSome_vars_scope_iff {name : String} :
    (d.scope.vars name).isSome ↔ name ∈ d.vars.map (·.name) := by
  have named : (d.registered.varNamed? name).isSome ↔ name ∈ d.vars.map (·.name) := by
    rw [Program.isSome_varNamed?_iff, vars_registered]
    simp [table]
  rw [← named, ← Option.ne_none_iff_isSome, ← Option.ne_none_iff_isSome, scope, Ne,
    Program.vars_scope_eq_none_iff]

theorem scopedFrom_scope_iff : ScopedFrom d.scope d.functions ↔ ¬ d.ReadsUnknown := by
  simp only [scopedFrom_iff_forall, FunctionDecl.Scoped, bodyInScope_iff_forall, InScope,
    isSome_vars_body_iff, isSome_vars_functions_iff, isSome_vars_scope_iff]
  constructor
  · rintro h ⟨before, decl, after, name, split, undeclared, unassigned, reads⟩
    have unknown : ¬ (name ∈ d.vars.map (·.name) ∨ ∃ d ∈ before, name ∈ d.targets) := by
      rintro (declared | ⟨earlier, mem, assigned⟩)
      · exact undeclared declared
      · exact unassigned earlier mem assigned
    obtain ⟨names, body⟩ := h before decl after split
    rcases reads with first | ⟨done, st, rest, split', read, new⟩
    · exact unknown (names name first)
    · exact (body done st rest split' name read).elim unknown new
  · intro h before decl after split
    have known (name : String) (reads : name ∈ decl.mpc.toList ++ decl.params ∨
        ∃ done st rest, decl.body = done ++ st :: rest ∧ name ∈ st.value.names ∧
          name ∉ done.filterMap Statement.target?) :
        name ∈ d.vars.map (·.name) ∨ ∃ d ∈ before, name ∈ d.targets := by
      by_contra unknown
      rw [not_or] at unknown
      exact h ⟨before, decl, after, name, split, unknown.1,
        fun earlier mem assigned => unknown.2 ⟨earlier, mem, assigned⟩, reads⟩
    refine ⟨fun name mem => known name (.inl mem), fun done st rest split' name read => ?_⟩
    by_cases assigned : name ∈ done.filterMap Statement.target?
    · exact .inr assigned
    · exact .inl (known name (.inr ⟨done, st, rest, split', read, assigned⟩))

/-- What a description is refused for. -/
theorem lower_eq_error_iff :
    (∃ e, d.lower = .error e) ↔ ¬ (d.vars.map (·.name)).Nodup ∨ d.ReadsUnknown := by
  rw [← not_iff_not, not_or, not_not, ← scopedFrom_scope_iff]
  constructor
  · intro h
    cases lowered : d.lower with
    | error e => exact absurd ⟨e, lowered⟩ h
    | ok p =>
      obtain ⟨l, -, isLowered⟩ := exists_lowered lowered
      exact ⟨isLowered.distinct, isLowered.inScope⟩
  · rintro ⟨distinct, inScope⟩ ⟨e, fails⟩
    obtain ⟨p, lowered⟩ := exists_lower distinct inScope
    cases fails.symm.trans lowered

section Tables

def OperatorDecl.signature (o : OperatorDecl) : Signature := ⟨o.receiver, o.operator, o.operands⟩

/-- The signatures of operators in the order in which they are first registered. -/
def signaturesOf (operators : List OperatorDecl) : List Signature :=
  (operators.map OperatorDecl.signature).eraseDups

def resultIn? (operators : List OperatorDecl) (sig : Signature) : Option TypeName :=
  (operators.reverse.find? (·.signature == sig)).map (·.result)

theorem signaturesOf_concat (operators : List OperatorDecl) (o : OperatorDecl) :
    signaturesOf (operators ++ [o]) = signaturesOf operators ++
      if o.signature ∈ signaturesOf operators then [] else [o.signature] := by
  have known : (operators.map OperatorDecl.signature).elem o.signature =
      decide (o.signature ∈ signaturesOf operators) := by
    rw [List.elem_eq_mem, signaturesOf]
    simp only [List.mem_eraseDups]
  rw [signaturesOf, List.map_append, List.map_singleton, List.eraseDups_append, ← signaturesOf,
    List.removeAll, List.filter_singleton, known]
  by_cases mem : o.signature ∈ signaturesOf operators <;> simp [mem, List.eraseDups_cons]

theorem resultIn?_concat (operators : List OperatorDecl) (o : OperatorDecl) (sig : Signature) :
    resultIn? (operators ++ [o]) sig =
      if o.signature = sig then some o.result else resultIn? operators sig := by
  rw [resultIn?, List.reverse_append]
  change Option.map _ (List.find? _ (o :: operators.reverse)) = _
  rw [List.find?_cons]
  by_cases here : o.signature = sig
  · rw [beq_iff_eq.mpr here, if_pos here]
    rfl
  · rw [beq_false_of_ne here, if_neg here]
    rfl

theorem OperatorDecl.register_of_known {p : Program} {o : OperatorDecl} {func : FuncId}
    (known : p.operators.lookup o.signature = some func) :
    o.register p = { p with
      funcs := p.funcs.modify func fun f => { f with result := some o.result } } := by
  rw [register, Program.registerOperator, Program.resolve?, ← signature, known]

theorem OperatorDecl.register_of_new {p : Program} {o : OperatorDecl}
    (new : p.operators.lookup o.signature = none) :
    o.register p = { p with
      funcs := p.funcs.push ⟨o.operator, some o.result⟩
      operators := (o.signature, p.funcs.size) :: p.operators } := by
  rw [register, Program.registerOperator, Program.resolve?, ← signature, new]
  rfl

def operatorIn (operators : List OperatorDecl) (sig : Signature) : Func :=
  ⟨sig.operator, resultIn? operators sig⟩

/-- Each signature has one callee, with the result type that was registered last. -/
theorem foldl_register_operators (vars : Array Var) (operators : List OperatorDecl) :
    (signaturesOf operators).Nodup ∧ operators.foldl OperatorDecl.register { vars } =
      { vars
        funcs := ((signaturesOf operators).map (operatorIn operators)).toArray
        operators := (signaturesOf operators).zipIdx.reverse } := by
  induction operators using List.reverseRecOn with
  | nil => exact ⟨.nil, rfl⟩
  | append_singleton operators o ih =>
    obtain ⟨distinct, before⟩ := ih
    rw [List.foldl_append, before, List.foldl_cons, List.foldl_nil, signaturesOf_concat]
    cases lookup : (signaturesOf operators).zipIdx.reverse.lookup o.signature with
    | some func =>
      obtain ⟨k, rfl, found, -⟩ := lookup_zipIdx_eq_some_iff.mp lookup
      rw [OperatorDecl.register_of_known lookup, if_pos (List.mem_of_getElem? found),
        List.append_nil]
      have funcs : ((signaturesOf operators).map (operatorIn operators)).modify k
          (fun f => { f with result := some o.result }) =
          (signaturesOf operators).map (operatorIn (operators ++ [o])) := by
        refine List.ext_getElem? fun j => ?_
        rw [List.getElem?_modify, List.getElem?_map, List.getElem?_map]
        cases other : (signaturesOf operators)[j]? with
        | none => rfl
        | some sig =>
          have same : o.signature = sig ↔ k = j := by
            rw [← List.getElem?_inj (List.getElem?_eq_some_iff.mp found).1 distinct, found, other,
              Option.some_inj]
          simp only [Option.map_some, Option.map_eq_map, operatorIn, resultIn?_concat, same]
          split <;> rfl
      simp [distinct, funcs]
    | none =>
      have new := lookup_zipIdx_eq_none_iff.mp lookup
      rw [OperatorDecl.register_of_new lookup, if_neg new]
      have funcs : (signaturesOf operators).map (operatorIn operators) ++
          [⟨o.operator, some o.result⟩] =
          (signaturesOf operators ++ [o.signature]).map (operatorIn (operators ++ [o])) := by
        rw [List.map_append, List.map_singleton, operatorIn, resultIn?_concat, if_pos rfl]
        refine congrArg (· ++ _) (List.map_congr_left fun sig mem => ?_)
        rw [operatorIn, operatorIn, resultIn?_concat, if_neg]
        rintro rfl
        exact new mem
      refine ⟨?_, ?_⟩
      · refine List.nodup_append.mpr ⟨distinct, List.nodup_singleton _, ?_⟩
        rintro sig mem _ isNew rfl
        exact new (List.mem_singleton.mp isNew ▸ mem)
      · simp [← funcs, List.zipIdx_append]

theorem foldl_register_helpers (p : Program) (helpers : List HelperDecl) :
    helpers.foldl HelperDecl.register p = { p with
      funcs := p.funcs ++ (helpers.map fun h => Func.mk h.name h.result).toArray
      helpers := ((helpers.map (·.name)).zipIdx p.funcs.size).reverse ++ p.helpers } := by
  induction helpers generalizing p with
  | nil => simp
  | cons h rest ih =>
    rw [List.foldl_cons, ih]
    simp [HelperDecl.register, Program.registerHelper, Program.addFunc]

variable (d) in
def signatures : List Signature := signaturesOf d.operators

variable (d) in
def declaredFuncs : List Func :=
  d.signatures.map (operatorIn d.operators) ++ d.helpers.map fun h => ⟨h.name, h.result⟩

theorem registered_tables : d.registered =
    { vars := table d.vars
      funcs := d.declaredFuncs.toArray
      operators := d.signatures.zipIdx.reverse
      helpers := ((d.helpers.map (·.name)).zipIdx d.signatures.length).reverse } := by
  rw [registered, (foldl_register_operators (table d.vars) d.operators).2, foldl_register_helpers]
  simp [declaredFuncs, signatures]

end Tables

section Callees

variable {shared : List String} {name : String} {types : List (Option TypeName)}

variable (d) in
/-- No operator is declared for these types, or not all of the arguments have one. -/
def NoOperator (name : String) (types : List (Option TypeName)) : Prop :=
  ∀ receiver operands, types = (receiver :: operands).map some →
    ⟨receiver, name, receiver :: operands⟩ ∉ d.operators.map OperatorDecl.signature

/-- The callee of a call: the operator that is declared for the types of its arguments, else the
last helper of its name, else the callee of the name that all such calls share. -/
inductive Callee (d : Description) (shared : List String) (name : String)
    (types : List (Option TypeName)) : FuncId → Prop
  | operator {receiver : TypeName} {operands : List TypeName} {func : Nat}
      (typed : types = (receiver :: operands).map some)
      (declared : d.signatures[func]? = some ⟨receiver, name, receiver :: operands⟩) :
      Callee d shared name types func
  | helper {k : Nat} (other : d.NoOperator name types)
      (declared : (d.helpers.map (·.name))[k]? = some name)
      (last : ∀ j, k < j → (d.helpers.map (·.name))[j]? ≠ some name) :
      Callee d shared name types (d.signatures.length + k)
  | shared {k : Nat} (other : d.NoOperator name types) (noHelper : name ∉ d.helpers.map (·.name))
      (found : shared[k]? = some name) :
      Callee d shared name types (d.signatures.length + d.helpers.length + k)

/-- The tables of a description with the callees that are shared. -/
structure Lowering.Lists (l : Lowering) (d : Description) (shared : List String) : Prop where
  operators : l.program.operators = d.signatures.zipIdx.reverse
  helpers : l.program.helpers = ((d.helpers.map (·.name)).zipIdx d.signatures.length).reverse
  funcs : l.program.funcs.toList = d.declaredFuncs ++ shared.map fun name => ⟨name, none⟩
  unknown : l.unknown = (shared.zipIdx (d.signatures.length + d.helpers.length)).reverse
  distinct : shared.Nodup

theorem lists_of_extends {l : Lowering} (h : Lowering.Extends ⟨d.registered, []⟩ l) :
    ∃ shared, l.Lists d shared := by
  obtain ⟨shared, shares⟩ := h.shares
  refine ⟨shared, ?_, ?_, ?_, ?_, shares.distinct⟩
  · rw [h.operators, registered_tables]
  · rw [h.helpers, registered_tables]
  · rw [shares.funcs, registered_tables]
    simp
  · rw [shares.unknown, registered_tables]
    simp [declaredFuncs]

variable {l : Lowering}

theorem Lowering.Lists.operator_iff (h : l.Lists d shared) {func : FuncId} :
    l.program.operatorFor? name types = some func ↔ ∃ receiver operands,
      types = (receiver :: operands).map some ∧
        d.signatures[func]? = some ⟨receiver, name, receiver :: operands⟩ := by
  have found (sig : Signature) :
      l.program.operators.lookup sig = some func ↔ d.signatures[func]? = some sig := by
    have distinct := (foldl_register_operators #[] d.operators).1
    rw [h.operators, lookup_zipIdx_eq_some_iff]
    constructor
    · rintro ⟨k, rfl, found, -⟩
      rwa [Nat.zero_add]
    · intro found
      refine ⟨func, (Nat.zero_add func).symm, found, fun j later other => ?_⟩
      have same := (List.getElem?_inj (List.getElem?_eq_some_iff.mp found).1 distinct).mp
        (found.trans other.symm)
      exact absurd same (Nat.ne_of_lt later)
  simp only [Program.operatorFor?_eq_some_iff, found]

theorem Lowering.Lists.noOperator_iff (h : l.Lists d shared) :
    l.program.operatorFor? name types = none ↔ d.NoOperator name types := by
  have declared (sig : Signature) :
      sig ∈ d.operators.map OperatorDecl.signature ↔ ∃ func : Nat, d.signatures[func]? = some sig := by
    rw [← List.mem_iff_getElem?, signatures, signaturesOf, List.mem_eraseDups]
  rw [Option.eq_none_iff_forall_ne_some]
  constructor
  · intro none receiver operands typed mem
    obtain ⟨func, found⟩ := (declared _).mp mem
    exact none func (h.operator_iff.mpr ⟨receiver, operands, typed, found⟩)
  · intro none func found
    obtain ⟨receiver, operands, typed, found⟩ := h.operator_iff.mp found
    exact none receiver operands typed ((declared _).mpr ⟨func, found⟩)

theorem Lowering.Lists.callee?_iff (h : l.Lists d shared) {args : List ValueId} {func : FuncId} :
    l.callee? name args = some func ↔
      d.Callee shared name (args.map l.program.typeOf?) func := by
  rw [Lowering.callee?, Program.helper?, h.helpers, h.unknown]
  generalize args.map l.program.typeOf? = types
  simp only [Option.or_eq_some_iff, Option.or_eq_none_iff, h.noOperator_iff, h.operator_iff,
    lookup_zipIdx_eq_some_iff, lookup_zipIdx_eq_none_iff]
  constructor
  · rintro ((⟨receiver, operands, typed, found⟩ | ⟨other, k, rfl, found, last⟩) |
      ⟨⟨other, noHelper⟩, k, rfl, found, -⟩)
    · exact .operator typed found
    · exact .helper other found last
    · exact .shared other noHelper found
  · intro callee
    cases callee with
    | operator typed found => exact .inl (.inl ⟨_, _, typed, found⟩)
    | helper other found last => exact .inl (.inr ⟨other, _, rfl, found, last⟩)
    | shared other noHelper found =>
      refine .inr ⟨⟨other, noHelper⟩, _, rfl, found, fun j later again => ?_⟩
      have same := (List.getElem?_inj (List.getElem?_eq_some_iff.mp found).1 h.distinct).mp
        (found.trans again.symm)
      exact absurd same (Nat.ne_of_lt later)

end Callees

/-- The tables say what the description says. `shared` are the names of the callees that neither an
operator nor a helper is declared for. -/
structure Faithful (d : Description) (l : Lowering) (shared : List String) : Prop where
  /-- Functions are in order, and so are their statements. -/
  functions : List.Forall₂ l.Realizes d.functions l.program.functions.toList
  texts : List.Forall₂ (fun decl f => List.Forall₂ (fun st i =>
    l.program.render? i.value = some st.value.text) decl.body f.body) d.functions
    l.program.functions.toList
  vars : (l.program.vars.toList.map (·.name)).Nodup
  /-- Every node of an expression has a value. -/
  size : l.program.values.size = FunctionDecl.sizeAll d.functions
  before : ∀ (id : Nat) v, l.program.values[id]? = some v → ∀ x : Nat, x ∈ v.operands → x < id
  /-- Every value is used in one place. -/
  uses : l.program.uses.Perm (List.range l.program.values.size)
  callees : ∀ name args func, l.callee? name args = some func ↔
    d.Callee shared name (args.map l.program.typeOf?) func
  funcs : l.program.funcs.toList = d.declaredFuncs ++ shared.map fun name => ⟨name, none⟩
  shared : shared.Nodup

/-- Lowering fails exactly where a variable is declared twice or a name is read that is not known by
then. Where it succeeds the program is faithful to the description. -/
theorem lower_faithful (d : Description) :
    ((∃ e, d.lower = .error e) ↔ ¬ (d.vars.map (·.name)).Nodup ∨ d.ReadsUnknown) ∧
    ∀ p, d.lower = .ok p → ∃ l shared, l.program = p ∧ d.Faithful l shared := by
  refine ⟨lower_eq_error_iff, fun p lowered => ?_⟩
  obtain ⟨l, rfl, isLowered⟩ := exists_lowered lowered
  obtain ⟨shared, lists⟩ := lists_of_extends isLowered.grown
  obtain ⟨new, values, length, perm, before⟩ := isLowered.accounts
  have start : Lowering.size ⟨d.registered, []⟩ = 0 := by
    rw [registered_tables]
    rfl
  have all : l.program.values = new.toArray := by
    rw [values, registered_tables]
    simp
  rw [start] at perm before
  refine ⟨l, shared, rfl, isLowered.functions, ?_, isLowered.grown.ready.distinct, ?_, ?_, ?_,
    fun name args func => lists.callee?_iff, lists.funcs, lists.distinct⟩
  · exact isLowered.functions.imp fun decl f realizes =>
      realizes.body.imp fun st i => isLowered.grown.ready.render_of_holds
  · rw [all, ← length]
    rfl
  · intro id v found x mem
    have less := before id v (by simpa [all] using found) x mem
    rwa [Nat.zero_add] at less
  · rw [Program.uses, all, List.size_toArray, length, List.range_eq_range']
    exact perm

/-- Operators and helpers are declared twice, a callee is not declared at all, and the second
function reads what the first one assigns. -/
def wired : Description where
  vars := [⟨"x", some .int⟩]
  operators := [⟨.int, "__add__", [.int, .int], .int⟩, ⟨.int, "__add__", [.int, .int], "big"⟩]
  helpers := [⟨"h", none⟩, ⟨"h", some "big"⟩]
  functions :=
    [⟨"first", none, ["x"], { minimize := true },
        [.assign "t" (.call "__add__" [.var "x", .int 1]), .eval (.call "g" [.var "t"]),
          .ret (.call "h" [.call "g" [], .var "t"])]⟩,
      ⟨"second", some "t", [], {}, [.ret (.call "__add__" [.var "t", .var "x"])]⟩]

theorem lower_faithful_wired :
    ∃ (p : Program) (l : Lowering) (shared : List String), wired.lower = .ok p ∧ l.program = p ∧
      p.values.size = 11 ∧
      p.funcs.toList = [⟨"__add__", some "big"⟩, ⟨"h", none⟩, ⟨"h", some "big"⟩, ⟨"g", none⟩,
        ⟨"__add__", none⟩] ∧
      wired.Faithful l shared ∧
      ∃ e, lower { wired with functions := wired.functions.reverse } = .error e := by
  have checked : (wired.first?.any fun (p, _) =>
      decide (p.values.size = 11 ∧ p.funcs.toList = [⟨"__add__", some "big"⟩, ⟨"h", none⟩,
        ⟨"h", some "big"⟩, ⟨"g", none⟩, ⟨"__add__", none⟩])) = true := by
    decide +kernel
  obtain ⟨⟨p, f⟩, isFirst, checked⟩ := Option.any_eq_true _ _ |>.mp checked
  obtain ⟨size, funcs⟩ := of_decide_eq_true checked
  obtain ⟨lowered, -⟩ := lower_of_first? isFirst
  obtain ⟨l, shared, same, isFaithful⟩ := (lower_faithful wired).2 p lowered
  refine ⟨p, l, shared, lowered, same, size, funcs, isFaithful, ?_⟩
  refine (lower_faithful _).1.mpr (.inr ⟨[], _, _, "t", rfl, ?_, ?_, .inl ?_⟩)
  · decide
  · exact fun _ mem => absurd mem List.not_mem_nil
  · decide

end Description

end SecureArith
