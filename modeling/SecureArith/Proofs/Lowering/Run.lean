import SecureArith.Proofs.Lowering.Elaboration

set_option autoImplicit false

/-!
# How lowering ends

Lowering fails exactly where a name is read that is not in scope. Where it succeeds, what it appends
is the values of the expressions, and the scope is what the statements make of it.

Each step of lowering has one lemma, which says how it ends from tables that are ready.
-/

namespace SecureArith.Description

namespace Lowering

variable {l l' l'' : Lowering}

/-- Values and callees were appended, and nothing else happened. -/
structure Evaluates (l l' : Lowering) : Prop extends l.Extends l' where
  vars_eq : l'.program.vars = l.program.vars
  functions_eq : l'.program.functions = l.program.functions

theorem Evaluates.refl (ready : l.Ready) : l.Evaluates l := ⟨.refl ready, rfl, rfl⟩

theorem Evaluates.trans (h : l.Evaluates l') (h' : l'.Evaluates l'') : l.Evaluates l'' :=
  ⟨h.toExtends.trans h'.toExtends, h'.vars_eq.trans h.vars_eq,
    h'.functions_eq.trans h.functions_eq⟩

theorem Evaluates.scope_eq (ready : l.Ready) (h : l.Evaluates l') :
    l'.program.scope = l.program.scope := by
  have vars : l'.program.scope.vars = l.program.scope.vars := by
    funext name
    rw [Program.vars_scope, Program.vars_scope, Program.declared?, Program.declared?, h.vars_eq]
  exact Scope.ext vars (h.result_scope ready).symm

theorem Ready.evaluates_push (ready : l.Ready) (type : Option TypeName) (kind : ValueKind) :
    l.Evaluates ⟨(l.program.push type kind).2, l.unknown⟩ :=
  ⟨⟨.push _ _, .refl _, .refl _, rfl, rfl, ⟨[], .nil rfl rfl⟩,
    ready.distinct, ready.operators, ready.helpers, ready.unknown⟩, rfl, rfl⟩

theorem Ready.evaluates_addFunc (ready : l.Ready) {name : String}
    (unknown : l.unknown.lookup name = none) :
    l.Evaluates ⟨(l.program.addFunc name none).2, (name, l.program.funcs.size) :: l.unknown⟩ := by
  have kept {id : Nat} {f : Func} (found : l.program.funcs[id]? = some f) :=
    Program.getElem?_addFunc name none found
  have shares : l.Shares ⟨(l.program.addFunc name none).2, (name, l.program.funcs.size) :: l.unknown⟩
      [name] :=
    ⟨Array.push_eq_append, rfl, List.forall_mem_singleton.mpr unknown, List.nodup_singleton name⟩
  refine ⟨⟨.refl _, .refl _, .refl _, rfl, rfl, ⟨_, shares⟩, ready.distinct,
    fun sig func mem => ?_, fun helper func mem => ?_, fun other func known => ?_⟩, rfl, rfl⟩
  · obtain ⟨f, found, named⟩ := ready.operators sig func mem
    exact ⟨f, kept found, named⟩
  · obtain ⟨f, found, named⟩ := ready.helpers helper func mem
    exact ⟨f, kept found, named⟩
  · rw [List.lookup_cons] at known
    by_cases same : other = name
    · rw [same, beq_self_eq_true] at known
      cases known
      rw [same]
      exact l.program.getElem?_addFunc_self name none
    · rw [beq_false_of_ne same] at known
      exact kept (ready.unknown other func known)

theorem Ready.extends_addVar (ready : l.Ready) {name : String}
    (missing : l.program.varNamed? name = none) (type : Option TypeName) :
    l.Extends ⟨(l.program.addVar name type).2, l.unknown⟩ := by
  refine ⟨.refl _, .push _ _, .refl _, rfl, rfl, ⟨[], .nil rfl rfl⟩,
    ?_, ready.operators, ready.helpers, ready.unknown⟩
  have new : name ∉ l.program.vars.toList.map (·.name) := by
    rw [← Program.isSome_varNamed?_iff, missing]
    exact Bool.false_ne_true
  simpa [Program.addVar, List.nodup_append] using ⟨ready.distinct, by simpa using new⟩

theorem Ready.extends_addFunction (ready : l.Ready) (f : Function) :
    l.Extends ⟨l.program.addFunction f, l.unknown⟩ :=
  ⟨.refl _, .refl _, .push _ _, rfl, rfl, ⟨[], .nil rfl rfl⟩,
    ready.distinct, ready.operators, ready.helpers, ready.unknown⟩

/-- Values were appended, as many as `count`, with their operands before them. Each is used once: as
an operand of one of them, or among `used`. -/
def Accounts (l l' : Lowering) (count : Nat) (used : List ValueId) : Prop :=
  ∃ new : List Value, l'.program.values = l.program.values ++ new.toArray ∧ new.length = count ∧
    (new.flatMap Value.operands ++ used).Perm (List.range' l.size count) ∧
    ∀ (k : Nat) v, new[k]? = some v → ∀ x : Nat, x ∈ v.operands → x < l.size + k

section Accounts

variable {m n : Nat} {us vs : List ValueId}

theorem Accounts.refl (l : Lowering) : l.Accounts l 0 [] :=
  ⟨[], by simp, rfl, .nil, by rintro _ _ ⟨⟩⟩

theorem Accounts.size_eq (h : l.Accounts l' n us) : l'.size = l.size + n := by
  obtain ⟨new, values, rfl, -⟩ := h
  simp [size, values]

theorem Accounts.congr (h : l.Accounts l' n us) (same : l''.program.values = l'.program.values) :
    l.Accounts l'' n us := by
  obtain ⟨new, values, rest⟩ := h
  exact ⟨new, same.trans values, rest⟩

theorem Accounts.trans (h : l.Accounts l' m us) (h' : l'.Accounts l'' n vs) :
    l.Accounts l'' (m + n) (us ++ vs) := by
  have size := h.size_eq
  obtain ⟨new, values, rfl, perm, before⟩ := h
  obtain ⟨new', values', rfl, perm', before'⟩ := h'
  rw [size] at perm' before'
  refine ⟨new ++ new', by simp [values', values], List.length_append, ?_, fun k v found => ?_⟩
  · rw [List.flatMap_append, List.append_assoc, ← List.range'_append_1]
    refine ((List.perm_append_comm_assoc _ us vs).append_left _).trans ?_
    rw [← List.append_assoc]
    exact perm.append perm'
  · rw [List.getElem?_append] at found
    split at found
    · exact before k v found
    · have later := before' _ v found
      rwa [Nat.add_assoc, Nat.add_sub_of_le (by omega)] at later

theorem Accounts.push {type : Option TypeName} {kind : ValueKind}
    (h : l.Accounts l' n (Value.operands ⟨l'.size, type, kind⟩)) :
    l.Accounts ⟨(l'.program.push type kind).2, l'.unknown⟩ (n + 1) [l'.size] := by
  have size := h.size_eq
  obtain ⟨new, values, rfl, perm, before⟩ := h
  refine ⟨new ++ [⟨l'.size, type, kind⟩], ?_, by simp, ?_, fun k v found x mem => ?_⟩
  · simp [Program.push, Lowering.size, values]
  · rw [List.flatMap_append, List.flatMap_singleton, List.range'_1_concat, size]
    exact perm.append_right _
  · rw [List.getElem?_append] at found
    split at found
    · exact before k v found x mem
    · have last : k = new.length ∧ v = ⟨l'.size, type, kind⟩ := by
        rw [List.getElem?_singleton] at found
        split at found
        · exact ⟨by omega, (Option.some.inj found).symm⟩
        · cases found
      obtain ⟨rfl, rfl⟩ := last
      have inside := perm.subset (List.mem_append_right _ mem)
      exact (List.mem_range'_1.mp inside).2

end Accounts

theorem callee?_addFunc {name : String} {args : List ValueId}
    (missing : l.callee? name args = none) :
    Lowering.callee? ⟨(l.program.addFunc name none).2, (name, l.program.funcs.size) :: l.unknown⟩
      name args = some l.program.funcs.size := by
  have known : (l.program.operatorFor? name (args.map l.program.typeOf?)).or
      (l.program.helper? name) = none := (Option.or_eq_none_iff.mp missing).1
  change ((l.program.operatorFor? name (args.map l.program.typeOf?)).or
    (l.program.helper? name)).or (List.lookup name ((name, l.program.funcs.size) :: l.unknown)) = _
  rw [known, Option.none_or, List.lookup_cons, beq_self_eq_true]

end Lowering

namespace Lower

variable {α β : Type} {l : Lowering}

/-- Lowering ends with a result and tables of which `ok` holds, or fails where `failed` holds. -/
def Gives (x : Lower α) (l : Lowering) (ok : α → Lowering → Prop) (failed : Prop) : Prop :=
  (∀ a l', x.run l = .ok (a, l') → ok a l') ∧ ∀ e, x.run l = .error e → failed

section Gives

variable {x : Lower α} {ok ok' : α → Lowering → Prop} {failed failed' : Prop}

theorem Gives.bind {f : α → Lower β} {ok' : β → Lowering → Prop} (h : Gives x l ok failed)
    (weaken : failed → failed') (next : ∀ a l', ok a l' → Gives (f a) l' ok' failed') :
    Gives (x >>= f) l ok' failed' := by
  have run := StateT.run_bind x f l
  cases first : x.run l with
  | error e =>
    rw [first] at run
    exact ⟨fun a l' eq => (by cases run.symm.trans eq), fun _ _ => weaken (h.2 e first)⟩
  | ok out =>
    obtain ⟨a, l'⟩ := out
    rw [first] at run
    have rest := next a l' (h.1 a l' first)
    exact ⟨fun b l'' eq => rest.1 b l'' (run.symm.trans eq),
      fun e eq => rest.2 e (run.symm.trans eq)⟩

theorem Gives.imp (h : Gives x l ok failed) (hok : ∀ a l', ok a l' → ok' a l')
    (hfailed : failed → failed') : Gives x l ok' failed' :=
  ⟨fun a l' run => hok a l' (h.1 a l' run), fun e run => hfailed (h.2 e run)⟩

theorem gives_pure {a : α} (h : ok a l) : Gives (pure a) l ok failed :=
  ⟨by rintro _ _ ⟨⟩; exact h, by rintro _ ⟨⟩⟩

theorem gives_get_bind {f : Lowering → Lower α} :
    Gives (get >>= f) l ok failed ↔ Gives (f l) l ok failed := Iff.rfl

theorem gives_throw {e : Error} (h : failed) : Gives (throw e) l ok failed :=
  ⟨by rintro _ _ ⟨⟩, fun _ _ => h⟩

theorem gives_extend {f : Program → α × Program}
    (h : ok (f l.program).1 ⟨(f l.program).2, l.unknown⟩) : Gives (extend f) l ok failed :=
  ⟨by rintro _ _ ⟨⟩; exact h, by rintro _ ⟨⟩⟩

theorem gives_extend_bind {f : Program → β × Program} {g : β → Lower α} :
    Gives (extend f >>= g) l ok failed ↔
      Gives (g (f l.program).1) ⟨(f l.program).2, l.unknown⟩ ok failed := Iff.rfl

end Gives

theorem gives_declared (name function : String) :
    Gives (declared name function) l
      (fun v l' => l' = l ∧ l.program.varNamed? name = some v ∧ InScope l.program.scope [name])
      (¬ InScope l.program.scope [name]) := by
  rw [declared, gives_get_bind]
  split
  · rename_i v named
    obtain ⟨x, -, declared⟩ := Program.exists_of_varNamed? named
    refine gives_pure ⟨rfl, named, List.forall_mem_singleton.mpr ?_⟩
    rw [Program.vars_scope, declared]
    rfl
  · rename_i missing
    refine gives_throw fun inScope => ?_
    have known := inScope name (List.mem_singleton_self name)
    rw [Program.vars_scope_eq_none_iff.mpr missing] at known
    cases known

theorem gives_push (ready : l.Ready) (type : Program → Option TypeName) (kind : ValueKind)
    {failed : Prop} :
    Gives (extend fun p => p.push (type p) kind) l
      (fun a l' => l.Evaluates l' ∧ a = l.size ∧
        l'.program.values[a]? = some ⟨a, type l.program, kind⟩ ∧
        ∀ l₀ n, Lowering.Accounts l₀ l n (Value.operands ⟨l.size, type l.program, kind⟩) →
          l₀.Accounts l' (n + 1) [a]) failed :=
  gives_extend ⟨ready.evaluates_push _ _, rfl, by simp [Program.push], fun _ _ => .push⟩

theorem gives_addCall (ready : l.Ready) {name : String} {args : List Expr} {values : List ValueId}
    {func : FuncId} {failed : Prop} (all : l.StandAll args values)
    (known : l.callee? name values = some func) :
    Gives (extend (·.addCall func values)) l
      (fun a l' => l.Evaluates l' ∧ l'.Stands (.call name args) a ∧
        ∀ l₀ n, Lowering.Accounts l₀ l n values → l₀.Accounts l' (n + 1) [a]) failed := by
  obtain ⟨f, isFunc⟩ := ready.exists_callee known
  refine (gives_push ready (fun p => p.funcs[func]?.bind (·.result)) (.call func values)).imp
    ?_ id
  rintro a l' ⟨evaluates, rfl, found, accounts⟩
  rw [isFunc, Option.bind_some] at found
  refine ⟨evaluates, ⟨func, f, values, evaluates.callee? all.exists_value known,
    evaluates.funcs.getElem? isFunc, found, fun x mem => ?_, evaluates.standAll args all⟩,
    accounts⟩
  obtain ⟨v, present⟩ := all.exists_value x mem
  exact (Array.getElem?_eq_some_iff.mp present).1

theorem gives_call (ready : l.Ready) (name : String) {args : List Expr} {values : List ValueId}
    {failed : Prop} (all : l.StandAll args values) :
    Gives (call name values) l
      (fun a l' => l.Evaluates l' ∧ l'.Stands (.call name args) a ∧
        ∀ l₀ n, Lowering.Accounts l₀ l n values → l₀.Accounts l' (n + 1) [a]) failed := by
  rw [call, callee, bind_assoc, gives_get_bind]
  dsimp only
  rw [Program.operator?_eq, ← Lowering.callee?]
  split
  · rename_i func known
    exact gives_addCall ready all known
  · rename_i missing
    have evaluates := ready.evaluates_addFunc (Option.or_eq_none_iff.mp missing).2
    have known := Lowering.callee?_addFunc missing
    refine (gives_addCall evaluates.ready (evaluates.standAll args all) known).imp ?_ id
    rintro a l' ⟨evaluates', stands, accounts⟩
    exact ⟨evaluates.trans evaluates', stands, fun l₀ n before => accounts l₀ n (before.congr rfl)⟩

mutual

/-- Expressions fail exactly where they read a name that is not in scope. -/
theorem gives_expr (function : String) (e : Expr) {l : Lowering} (ready : l.Ready) :
    Gives (expr function e) l
      (fun a l' => l.Evaluates l' ∧ l'.Stands e a ∧ l.Accounts l' e.size [a] ∧
        InScope l.program.scope e.names)
      (¬ InScope l.program.scope e.names) := by
  cases e with
  | int n =>
    refine (gives_push ready (fun _ => some .int) (.int n)).imp ?_ id
    rintro a l' ⟨evaluates, -, found, accounts⟩
    exact ⟨evaluates, found, accounts l 0 (.refl l), by rintro _ ⟨⟩⟩
  | float x =>
    refine (gives_push ready (fun _ => some .float) (.float x)).imp ?_ id
    rintro a l' ⟨evaluates, -, found, accounts⟩
    exact ⟨evaluates, found, accounts l 0 (.refl l), by rintro _ ⟨⟩⟩
  | var name =>
    rw [expr]
    refine (gives_declared name function).bind id fun v l' h => ?_
    obtain ⟨rfl, named, inScope⟩ := h
    obtain ⟨x, isVar, -⟩ := Program.exists_of_varNamed? named
    refine (gives_push ready (fun p => p.vars[v]?.bind (·.type)) (.var v)).imp ?_ id
    rintro a l'' ⟨evaluates, -, found, accounts⟩
    rw [isVar, Option.bind_some] at found
    exact ⟨evaluates, ⟨v, x, evaluates.varNamed? named, evaluates.vars.getElem? isVar, found⟩,
      accounts _ 0 (.refl _), inScope⟩
  | call name args =>
    rw [expr]
    refine (gives_exprs function args ready).bind id fun values l' h => ?_
    obtain ⟨evaluates, all, accounts, inScope⟩ := h
    refine (gives_call evaluates.ready name all).imp ?_ id
    rintro a l'' ⟨evaluates', stands, accounts'⟩
    exact ⟨evaluates.trans evaluates', stands, accounts' l _ accounts, inScope⟩

theorem gives_exprs (function : String) (es : List Expr) {l : Lowering} (ready : l.Ready) :
    Gives (exprs function es) l
      (fun values l' => l.Evaluates l' ∧ l'.StandAll es values ∧
        l.Accounts l' (Expr.sizeAll es) values ∧ InScope l.program.scope (Expr.namesAll es))
      (¬ InScope l.program.scope (Expr.namesAll es)) := by
  cases es with
  | nil => exact gives_pure ⟨.refl ready, rfl, .refl l, by rintro _ ⟨⟩⟩
  | cons e rest =>
    rw [exprs]
    refine (gives_expr function e ready).bind ?_ fun a l₁ h => ?_
    · exact fun missing inScope => missing fun name mem => inScope name (List.mem_append_left _ mem)
    · obtain ⟨evaluates, stands, accounts, inScope⟩ := h
      -- The other arguments find the scope as it was.
      have scope := evaluates.scope_eq ready
      refine (gives_exprs function rest evaluates.ready).bind ?_
        fun values l₂ h => gives_pure ?_
      · rw [scope]
        exact fun missing inScope => missing fun name mem =>
          inScope name (List.mem_append_right _ mem)
      · obtain ⟨evaluates', all, accounts', inScope'⟩ := h
        rw [scope] at inScope'
        exact ⟨evaluates.trans evaluates', ⟨a, values, rfl, evaluates'.stands e stands, all⟩,
          accounts.trans accounts', List.forall_mem_append.mpr ⟨inScope, inScope'⟩⟩

end

theorem gives_target (ready : l.Ready) (name : String) (e : Expr) {a : ValueId} {failed : Prop}
    (type : l.program.typeOf? a = (e.reading l.program.scope).type) :
    Gives (target name a) l
      (fun v l' => l.Extends l' ∧ l'.program.functions = l.program.functions ∧
        l'.program.values = l.program.values ∧ l'.program.varNamed? name = some v ∧
        l'.program.scope = (Statement.assign name e).after l.program.scope) failed := by
  rw [target, gives_get_bind]
  dsimp only
  split
  · rename_i v named
    refine gives_pure ⟨.refl ready, rfl, rfl, named, (Statement.after_eq_self ?_).symm⟩
    rintro _ ⟨⟩
    obtain ⟨x, -, declared⟩ := Program.exists_of_varNamed? named
    rw [Program.vars_scope, declared]
    rfl
  · rename_i missing
    refine gives_extend ⟨ready.extends_addVar missing _, rfl, rfl, ?_, Scope.ext ?_ rfl⟩
    · exact Program.varNamed?_addVar missing _
    · funext other
      rw [Statement.vars_after, Program.vars_scope, Program.declared?_addVar, Option.map_or,
        ← Program.vars_scope]
      refine congrArg (Option.or _) ?_
      by_cases same : name = other
      · simpa [Statement.target?, Statement.value, same, Program.typeOf?] using type
      · simp [Statement.target?, same]

theorem gives_statement (function : String) (st : Statement) (ready : l.Ready) :
    Gives (statement function st) l
      (fun i l' => l.Extends l' ∧ l'.program.functions = l.program.functions ∧
        l'.program.scope = st.after l.program.scope ∧ l'.Holds st i ∧
        l.Accounts l' st.value.size [i.value] ∧ InScope l.program.scope st.value.names)
      (¬ InScope l.program.scope st.value.names) := by
  cases st with
  | ret e | eval e =>
    refine (gives_expr function e ready).bind id fun a l' h => gives_pure ?_
    obtain ⟨evaluates, stands, accounts, inScope⟩ := h
    exact ⟨evaluates.toExtends, evaluates.functions_eq,
      (evaluates.scope_eq ready).trans (Statement.after_eq_self (by rintro _ ⟨⟩)).symm,
      ⟨a, rfl, stands⟩, accounts, inScope⟩
  | assign name e =>
    refine (gives_expr function e ready).bind id fun a l₁ h => ?_
    obtain ⟨evaluates, stands, accounts, inScope⟩ := h
    obtain ⟨v, found⟩ := stands.exists_value
    have type := (evaluates.ready.reading_of_stands e stands (Nat.lt_succ_self a)).2.2
    refine (gives_target evaluates.ready name e type).bind id fun x l₂ h => gives_pure ?_
    obtain ⟨grown, functions, values, named, scope⟩ := h
    rw [evaluates.scope_eq ready] at scope
    exact ⟨evaluates.toExtends.trans grown, functions.trans evaluates.functions_eq, scope,
      ⟨x, a, rfl, named, grown.stands e stands⟩, accounts.congr values, inScope⟩

theorem gives_body (function : String) (body : List Statement) (ready : l.Ready) :
    Gives (body.mapM (statement function)) l
      (fun is l' => l.Extends l' ∧ l'.program.functions = l.program.functions ∧
        l'.program.scope = body.foldl Statement.after l.program.scope ∧
        List.Forall₂ l'.Holds body is ∧
        l.Accounts l' (Expr.sizeAll (body.map (·.value))) (is.map (·.value)) ∧
        BodyInScope l.program.scope body)
      (¬ BodyInScope l.program.scope body) := by
  induction body generalizing l with
  | nil => exact gives_pure ⟨.refl ready, rfl, rfl, .nil, .refl l, trivial⟩
  | cons st rest ih =>
    rw [List.mapM_cons]
    refine (gives_statement function st ready).bind ?_ fun i l₁ h => ?_
    · exact fun missing inScope => missing inScope.1
    · obtain ⟨grown, functions, scope, holds, accounts, inScope⟩ := h
      have others := ih grown.ready
      rw [scope] at others
      refine others.bind ?_ fun is l₂ h => gives_pure ?_
      · exact fun missing inScope => missing inScope.2
      · obtain ⟨grown', functions', scope', holds', accounts', inScope'⟩ := h
        rw [List.map_cons, Expr.sizeAll]
        exact ⟨grown.trans grown', functions'.trans functions, scope',
          .cons (grown'.holds holds) holds', accounts.trans accounts', inScope, inScope'⟩

theorem gives_declareds (function : String) (names : List String) :
    Gives (names.mapM (declared · function)) l
      (fun vs l' => l' = l ∧ InScope l.program.scope names ∧
        List.Forall₂ (fun name v => l.program.varNamed? name = some v) names vs)
      (¬ InScope l.program.scope names) := by
  induction names with
  | nil => exact gives_pure ⟨rfl, by rintro _ ⟨⟩, .nil⟩
  | cons name rest ih =>
    rw [List.mapM_cons]
    refine (gives_declared name function).bind ?_ fun v l' h => ?_
    · exact fun missing inScope => missing (List.forall_mem_singleton.mpr
        (inScope name List.mem_cons_self))
    · obtain ⟨rfl, named, known⟩ := h
      refine ih.bind ?_ fun vs l'' h => gives_pure ?_
      · exact fun missing inScope => missing fun other mem =>
          inScope other (List.mem_cons_of_mem name mem)
      · obtain ⟨rfl, inScope, others⟩ := h
        exact ⟨rfl, List.forall_mem_cons.mpr ⟨known name (List.mem_singleton_self name), inScope⟩,
          .cons named others⟩

theorem gives_function (d : FunctionDecl) (ready : l.Ready) :
    Gives (function d) l
      (fun _ l' => l.Extends l' ∧ l'.program.scope = d.after l.program.scope ∧
        d.Scoped l.program.scope ∧
        ∃ f, l'.program.functions = l.program.functions.push f ∧ l'.Realizes d f ∧
          l.Accounts l' d.size (f.body.map (·.value)))
      (¬ d.Scoped l.program.scope) := by
  have environment : Gives (d.mpc.mapM (declared · d.name)) l
      (fun mpc l' => l' = l ∧ InScope l.program.scope d.mpc.toList ∧
        List.Forall₂ (fun name v => l.program.varNamed? name = some v) d.mpc.toList mpc.toList)
      (¬ InScope l.program.scope d.mpc.toList) := by
    cases d.mpc with
    | none => exact gives_pure ⟨rfl, by rintro _ ⟨⟩, .nil⟩
    | some name =>
      exact (gives_declared name d.name).bind id fun v l' h =>
        gives_pure ⟨h.1, h.2.2, .cons h.2.1 .nil⟩
  rw [function]
  refine environment.bind ?_ fun mpc l₀ h => ?_
  · exact fun missing inScope => missing fun name mem =>
      inScope.1 name (List.mem_append_left _ mem)
  obtain ⟨rfl, inScope, isMpc⟩ := h
  refine (gives_declareds d.name d.params).bind ?_ fun params l₁ h => ?_
  · exact fun missing inScope => missing fun name mem =>
      inScope.1 name (List.mem_append_right _ mem)
  obtain ⟨rfl, inScope', isParams⟩ := h
  refine (gives_body d.name d.body ready).bind ?_ fun body l₂ h => ?_
  · exact fun missing inScope => missing inScope.2
  obtain ⟨grown, functions, scope, holds, accounts, bodyInScope⟩ := h
  let f : Function := ⟨d.name, mpc, params, body, d.attributes⟩
  have realizes : l₂.Realizes d f :=
    ⟨rfl, rfl, isMpc.imp fun _ _ => grown.varNamed?, isParams.imp fun _ _ => grown.varNamed?, holds⟩
  have added := grown.ready.extends_addFunction f
  exact gives_extend ⟨grown.trans added, scope,
    ⟨List.forall_mem_append.mpr ⟨inScope, inScope'⟩, bodyInScope⟩, f,
    congrArg (·.push f) functions, added.realizes realizes, accounts.congr rfl⟩

theorem gives_functions (fs : List FunctionDecl) (ready : l.Ready) :
    Gives (fs.forM function) l
      (fun _ l' => l.Extends l' ∧ l'.program.scope = fs.foldl FunctionDecl.after l.program.scope ∧
        ScopedFrom l.program.scope fs ∧
        ∃ new, l'.program.functions = l.program.functions ++ new.toArray ∧
          List.Forall₂ l'.Realizes fs new ∧
          l.Accounts l' (FunctionDecl.sizeAll fs) (new.flatMap fun f => f.body.map (·.value)))
      (¬ ScopedFrom l.program.scope fs) := by
  induction fs generalizing l with
  | nil =>
    exact gives_pure ⟨.refl ready, rfl, by rintro _ _ ⟨⟩, [], by simp, .nil, .refl l⟩
  | cons d rest ih =>
    rw [List.forM_eq_forM, List.forM_cons]
    refine (gives_function d ready).bind ?_ fun _ l₁ h => ?_
    · exact fun missing all => missing (scopedFrom_cons.mp all).1
    · obtain ⟨grown, scope, inScope, f, functions, realizes, accounts⟩ := h
      have others := ih grown.ready
      rw [scope] at others
      refine others.imp ?_ ?_
      · rintro _ l₂ ⟨grown', scope', inScope', new, functions', realizes', accounts'⟩
        refine ⟨grown.trans grown', scope', scopedFrom_cons.mpr ⟨inScope, inScope'⟩, f :: new, ?_,
          .cons (grown'.realizes realizes) realizes', ?_⟩
        · rw [functions', functions]
          simp
        · rw [FunctionDecl.sizeAll, List.flatMap_cons]
          exact accounts.trans accounts'
      · exact fun missing all => missing (scopedFrom_cons.mp all).2

end Lower

def table (vars : List VarDecl) : Array Var := (vars.map fun v => ⟨v.name, v.type⟩).toArray

def OperatorDecl.register (p : Program) (o : OperatorDecl) : Program :=
  (p.registerOperator ⟨o.receiver, o.operator, o.operands⟩ o.result).2

def HelperDecl.register (p : Program) (h : HelperDecl) : Program :=
  (p.registerHelper h.name h.result).2

def registered (d : Description) : Program :=
  d.helpers.foldl HelperDecl.register
    (d.operators.foldl OperatorDecl.register { vars := table d.vars })

def scope (d : Description) : Scope := d.registered.scope

section Registered

variable (d : Description)

theorem registered_eq :
    d.registered = { registered { d with vars := [] } with vars := table d.vars } := by
  let withVars (p : Program) : Program := { p with vars := table d.vars }
  have operators (p : Program) (o : OperatorDecl) :
      OperatorDecl.register (withVars p) o = withVars (OperatorDecl.register p o) := by
    rw [OperatorDecl.register, OperatorDecl.register, Program.registerOperator,
      Program.registerOperator, Program.resolve?, Program.resolve?]
    cases List.lookup (⟨o.receiver, o.operator, o.operands⟩ : Signature) p.operators <;> rfl
  have helpers (p : Program) (h : HelperDecl) :
      HelperDecl.register (withVars p) h = withVars (HelperDecl.register p h) := rfl
  calc d.registered
      = d.helpers.foldl HelperDecl.register
          (d.operators.foldl OperatorDecl.register (withVars {})) := rfl
    _ = d.helpers.foldl HelperDecl.register
          (withVars (d.operators.foldl OperatorDecl.register {})) := by
        rw [List.foldl_hom withVars operators]
    _ = withVars (d.helpers.foldl HelperDecl.register
          (d.operators.foldl OperatorDecl.register {})) := List.foldl_hom withVars helpers

theorem vars_registered : d.registered.vars = table d.vars := by
  rw [registered_eq]

theorem sound_registered : d.registered.Sound ∧ d.registered.functions = #[] := by
  have start : ({ vars := table d.vars } : Program).Sound := by
    refine ⟨⟨?_, ?_, ⟨fun _ => 0, ?_⟩, ?_, ?_⟩, ⟨?_, ?_, ?_⟩, ?_, ?_⟩ <;>
      simp [Program.RankedBy, Program.NamesHelpers]
  refine List.foldlRecOn (motive := fun p : Program => p.Sound ∧ p.functions = #[]) _ _ ?_
    fun p h helper _ => ⟨h.1.registerHelper _ _, h.2⟩
  refine List.foldlRecOn (motive := fun p : Program => p.Sound ∧ p.functions = #[]) _ _ ⟨start, rfl⟩
    fun p h operator _ => ⟨h.1.registerOperator _ _, ?_⟩
  obtain ⟨funcs, operators, eq⟩ := p.registerOperator_eq
    ⟨operator.receiver, operator.operator, operator.operands⟩ operator.result
  rw [OperatorDecl.register, eq]
  exact h.2

theorem ready_registered (distinct : (d.vars.map (·.name)).Nodup) :
    Lowering.Ready ⟨d.registered, []⟩ where
  distinct := by simpa [vars_registered, table, Function.comp_def] using distinct
  operators := d.sound_registered.1.operators
  helpers := d.sound_registered.1.helpers
  unknown := by rintro _ _ ⟨⟩

end Registered

namespace Lower

variable {l : Lowering}

theorem gives_vars (vars : List VarDecl) (distinct : (l.program.vars.toList.map (·.name)).Nodup) :
    Gives (vars.forM var) l
      (fun _ l' => l' = ⟨{ l.program with vars := l.program.vars ++ table vars }, l.unknown⟩ ∧
        (l.program.vars.toList.map (·.name) ++ vars.map (·.name)).Nodup)
      (¬ (l.program.vars.toList.map (·.name) ++ vars.map (·.name)).Nodup) := by
  induction vars generalizing l with
  | nil => exact gives_pure (by simpa [table] using distinct)
  | cons v rest ih =>
    rw [List.forM_eq_forM, List.forM_cons, var, bind_assoc, gives_get_bind]
    split
    · rename_i twice
      refine gives_throw fun nodup => ?_
      exact List.disjoint_of_nodup_append nodup (Program.isSome_varNamed?_iff.mp twice)
        List.mem_cons_self
    · rename_i new
      rw [Program.isSome_varNamed?_iff] at new
      have distinct' : ((l.program.addVar v.name v.type).2.vars.toList.map (·.name)).Nodup := by
        simpa [Program.addVar, List.nodup_append] using ⟨distinct, by simpa using new⟩
      let l' : Lowering := ⟨(l.program.addVar v.name v.type).2, l.unknown⟩
      have others := ih (l := l') distinct'
      have names : l'.program.vars.toList.map (·.name) ++ rest.map (·.name) =
          l.program.vars.toList.map (·.name) ++ (v :: rest).map (·.name) := by
        simp [l', Program.addVar]
      have vars : l'.program.vars ++ table rest = l.program.vars ++ table (v :: rest) := by
        simp [l', Program.addVar, table]
      rw [names, vars] at others
      exact others

theorem gives_operators (operators : List OperatorDecl) {failed : Prop} :
    Gives (operators.forM operator) l
      (fun _ l' => l' = ⟨operators.foldl OperatorDecl.register l.program, l.unknown⟩) failed := by
  induction operators generalizing l with
  | nil => exact gives_pure rfl
  | cons o rest ih =>
    rw [List.forM_eq_forM, List.forM_cons, operator, bind_assoc, gives_extend_bind]
    exact ih

theorem gives_helpers (helpers : List HelperDecl) {failed : Prop} :
    Gives (helpers.forM helper) l
      (fun _ l' => l' = ⟨helpers.foldl HelperDecl.register l.program, l.unknown⟩) failed := by
  induction helpers generalizing l with
  | nil => exact gives_pure rfl
  | cons h rest ih =>
    rw [List.forM_eq_forM, List.forM_cons, helper, bind_assoc, gives_extend_bind]
    exact ih

/-- What a description says is decided by its scopes. -/
theorem gives_description (d : Description) :
    Gives (description d) {}
      (fun _ l => ((d.vars.map (·.name)).Nodup ∧ ScopedFrom d.scope d.functions) ∧
        Lowering.Extends ⟨d.registered, []⟩ l ∧
        l.program.scope = d.functions.foldl FunctionDecl.after d.scope ∧
        List.Forall₂ l.Realizes d.functions l.program.functions.toList ∧
        Lowering.Accounts ⟨d.registered, []⟩ l (FunctionDecl.sizeAll d.functions)
          (l.program.functions.toList.flatMap fun f => f.body.map (·.value)))
      (¬ ((d.vars.map (·.name)).Nodup ∧ ScopedFrom d.scope d.functions)) := by
  rw [description]
  have vars := gives_vars (l := {}) d.vars List.nodup_nil
  refine vars.bind ?_ fun _ l₁ h => ?_
  · exact fun twice all => twice all.1
  obtain ⟨rfl, distinct⟩ := h
  refine (gives_operators d.operators).bind id fun _ l₂ h => ?_
  obtain rfl := h
  refine (gives_helpers d.helpers).bind id fun _ l₃ h => ?_
  obtain rfl := h
  have start : d.helpers.foldl HelperDecl.register (d.operators.foldl OperatorDecl.register
      { vars := #[] ++ table d.vars }) = d.registered := by
    rw [Array.empty_append]
    rfl
  rw [start]
  refine (gives_functions d.functions (d.ready_registered distinct)).imp ?_ ?_
  · rintro _ l ⟨grown, scope, inScope, new, functions, realizes, accounts⟩
    have all : l.program.functions.toList = new := by simp [functions, d.sound_registered.2]
    rw [all]
    exact ⟨⟨distinct, inScope⟩, grown, scope, realizes, accounts⟩
  · exact fun missing all => missing all.2

end Lower

section Lowered

variable {d : Description} {p : Program}

/-- The tables that a description is lowered to. -/
structure Lowered (d : Description) (l : Lowering) : Prop where
  distinct : (d.vars.map (·.name)).Nodup
  inScope : ScopedFrom d.scope d.functions
  grown : Lowering.Extends ⟨d.registered, []⟩ l
  scope : l.program.scope = d.functions.foldl FunctionDecl.after d.scope
  functions : List.Forall₂ l.Realizes d.functions l.program.functions.toList
  accounts : Lowering.Accounts ⟨d.registered, []⟩ l (FunctionDecl.sizeAll d.functions)
    (l.program.functions.toList.flatMap fun f => f.body.map (·.value))

theorem exists_lowered (h : d.lower = .ok p) : ∃ l, l.program = p ∧ d.Lowered l := by
  rw [lower] at h
  cases run : (Lower.description d).run {} with
  | error e =>
    rw [run] at h
    cases h
  | ok out =>
    obtain ⟨_, l⟩ := out
    rw [run] at h
    cases h
    obtain ⟨⟨distinct, inScope⟩, grown, scope, functions, accounts⟩ :=
      (Lower.gives_description d).1 _ _ run
    exact ⟨l, rfl, distinct, inScope, grown, scope, functions, accounts⟩

/-- Variables are declared once and functions are in scope: that is all that it takes. -/
theorem exists_lower (distinct : (d.vars.map (·.name)).Nodup)
    (inScope : ScopedFrom d.scope d.functions) : ∃ p, d.lower = .ok p := by
  rw [lower]
  cases run : (Lower.description d).run {} with
  | error e => exact absurd ⟨distinct, inScope⟩ ((Lower.gives_description d).2 e run)
  | ok out => exact ⟨_, rfl⟩

theorem Lowered.lines {l : Lowering} (h : d.Lowered l) {i : Nat} {decl : FunctionDecl}
    (found : d.functions[i]? = some decl) :
    ∃ f, l.program.functions[i]? = some f ∧
      l.program.lines? f = some (decl.body.map (Statement.line l.program.scope)) := by
  obtain ⟨length, each⟩ := List.forall₂_iff_get.mp h.functions
  obtain ⟨lt, rfl⟩ := List.getElem?_eq_some_iff.mp found
  have lt' : i < l.program.functions.toList.length := length ▸ lt
  refine ⟨_, ?_, h.grown.ready.lines_of_holds (each i lt lt').body⟩
  rw [← Array.getElem?_toList]
  exact List.getElem?_eq_getElem lt'

end Lowered

end SecureArith.Description
