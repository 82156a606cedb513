import SecureArith.Proofs.Lowering
import SecureArith.Proofs.Lowering.Scope

set_option autoImplicit false

/-!
# Values of expressions

The tables of a program are a scope. `Lowering.Stands` says that a value is that of an expression,
whatever way lowering took to get there. Such a value has the text of the expression, and its parts
have the types of the scope. This is not changed by what lowering appends to its tables.
-/

namespace SecureArith

namespace Program

variable {p : Program} {name : String}

def declared? (p : Program) (name : String) : Option Var := p.vars.find? (·.name == name)

def operatorFor? (p : Program) (name : String) (types : List (Option TypeName)) : Option FuncId :=
  (types.mapM id).bind fun operands =>
    operands.head?.bind fun receiver => p.resolve? ⟨receiver, name, operands⟩

/-- What a program knows of names. -/
def scope (p : Program) : Scope where
  vars name := (p.declared? name).map (·.type)
  result name types := ((p.operatorFor? name types).or (p.helper? name)).bind fun func =>
    p.funcs[func]?.bind (·.result)

def typeOf? (p : Program) (a : ValueId) : Option TypeName := p.values[a]?.bind (·.type)

theorem declared?_eq (p : Program) (name : String) :
    p.declared? name = (p.varNamed? name).bind (p.vars[·]?) :=
  Array.find?_eq_bind_findIdx?_getElem?

theorem exists_of_varNamed? {v : VarId} (h : p.varNamed? name = some v) :
    ∃ x, p.vars[v]? = some x ∧ p.declared? name = some x := by
  have found : p.vars[v]? = some _ :=
    Array.getElem?_eq_getElem (Array.findIdx?_eq_some_iff_findIdx_eq.mp h).1
  exact ⟨_, found, by rw [declared?_eq, h, Option.bind_some, found]⟩

theorem isSome_varNamed?_iff :
    (p.varNamed? name).isSome ↔ name ∈ p.vars.toList.map (·.name) := by
  rw [varNamed?, Array.findIdx?_isSome, Array.any_eq_true']
  simp

theorem vars_scope (p : Program) (name : String) :
    p.scope.vars name = (p.declared? name).map (·.type) := rfl

theorem result_scope (p : Program) (name : String) (types : List (Option TypeName)) :
    p.scope.result name types = ((p.operatorFor? name types).or (p.helper? name)).bind fun func =>
      p.funcs[func]?.bind (·.result) := rfl

theorem vars_scope_eq_none_iff : p.scope.vars name = none ↔ p.varNamed? name = none := by
  rw [vars_scope, Option.map_eq_none_iff, declared?_eq]
  constructor
  · intro missing
    by_contra named
    obtain ⟨v, named⟩ := Option.ne_none_iff_exists'.mp named
    obtain ⟨x, found, -⟩ := exists_of_varNamed? named
    rw [named, Option.bind_some, found] at missing
    cases missing
  · intro missing
    rw [missing, Option.bind_none]

theorem name_of_declared? {x : Var} (h : p.declared? name = some x) : x.name = name := by
  simpa using Array.find?_some h

theorem varNamed?_addVar (missing : p.varNamed? name = none) (type : Option TypeName) :
    (p.addVar name type).2.varNamed? name = some (p.addVar name type).1 := by
  rw [varNamed?] at missing ⊢
  simp [addVar, Array.findIdx?_push, missing]

theorem declared?_addVar (p : Program) (name : String) (type : Option TypeName) (other : String) :
    (p.addVar name type).2.declared? other =
      (p.declared? other).or (if name = other then some ⟨name, type⟩ else none) := by
  simp [declared?, addVar, Array.find?_push]

theorem mapM_id_eq_some_iff {types : List (Option TypeName)} {operands : List TypeName} :
    types.mapM id = some operands ↔ types = operands.map some := by
  induction types generalizing operands with
  | nil => cases operands <;> simp
  | cons type rest ih =>
    cases type <;> cases operands <;> simp [Option.bind_eq_some_iff, ih, and_comm]

theorem operatorFor?_eq_some_iff {types : List (Option TypeName)} {func : FuncId} :
    p.operatorFor? name types = some func ↔ ∃ receiver operands,
      types = (receiver :: operands).map some ∧
        p.operators.lookup ⟨receiver, name, receiver :: operands⟩ = some func := by
  simp only [operatorFor?, Option.bind_eq_some_iff, mapM_id_eq_some_iff, resolve?]
  constructor
  · rintro ⟨operands, rfl, receiver, isHead, found⟩
    obtain ⟨rest, rfl⟩ := List.head?_eq_some_iff.mp isHead
    exact ⟨receiver, rest, rfl, found⟩
  · rintro ⟨receiver, rest, rfl, found⟩
    exact ⟨_, rfl, receiver, rfl, found⟩

theorem operator?_eq (p : Program) (name : String) (args : List ValueId) :
    Description.Lower.operator? p name args = p.operatorFor? name (args.map p.typeOf?) := by
  have types : (args.map p.typeOf?).mapM id = Description.Lower.types? p args := by
    rw [Description.Lower.types?, List.mapM_map]
    rfl
  rw [Description.Lower.operator?, operatorFor?, types]
  cases Description.Lower.types? p args with
  | none => rfl
  | some operands => cases operands <;> rfl

end Program

def Appended {α : Type} (xs ys : Array α) : Prop := ∃ more, ys = xs ++ more

namespace Appended

variable {α : Type} {xs ys zs : Array α}

theorem refl (xs : Array α) : Appended xs xs := ⟨#[], Array.append_empty.symm⟩

theorem push (xs : Array α) (a : α) : Appended xs (xs.push a) := ⟨#[a], Array.push_eq_append⟩

theorem trans (h : Appended xs ys) (h' : Appended ys zs) : Appended xs zs := by
  obtain ⟨more, rfl⟩ := h
  obtain ⟨more', rfl⟩ := h'
  exact ⟨more ++ more', Array.append_assoc⟩

theorem getElem? (h : Appended xs ys) {i : Nat} {a : α} (found : xs[i]? = some a) :
    ys[i]? = some a := by
  obtain ⟨more, rfl⟩ := h
  rw [Array.getElem?_append_left (Array.getElem?_eq_some_iff.mp found).1, found]

end Appended

section Lookup

variable {α : Type} [BEq α] [LawfulBEq α] {keys : List α} {key : α} {base : Nat}

/-- Among numbered entries, the last one of a key is found first. -/
theorem lookup_zipIdx_eq_some_iff {func : Nat} :
    (keys.zipIdx base).reverse.lookup key = some func ↔
      ∃ k, func = base + k ∧ keys[k]? = some key ∧ ∀ j, k < j → keys[j]? ≠ some key := by
  induction keys using List.reverseRecOn with
  | nil => simp
  | append_singleton keys last ih =>
    rw [List.zipIdx_append, List.reverse_append]
    change List.lookup key ((last, base + keys.length) :: (keys.zipIdx base).reverse) = _ ↔ _
    rw [List.lookup_cons]
    have final : (keys ++ [last])[keys.length]? = some last := List.getElem?_concat_length
    have beyond {j : Nat} (lt : keys.length < j) : (keys ++ [last])[j]? = none :=
      List.getElem?_eq_none (by simp; omega)
    by_cases here : key = last
    · subst here
      rw [beq_self_eq_true]
      constructor
      · rintro ⟨⟩
        exact ⟨keys.length, rfl, final, fun j lt found =>
          Option.some_ne_none key (found.symm.trans (beyond lt))⟩
      · rintro ⟨k, rfl, found, isLast⟩
        rcases Nat.lt_trichotomy k keys.length with less | rfl | greater
        · exact absurd final (isLast _ less)
        · rfl
        · exact absurd (found.symm.trans (beyond greater)) (Option.some_ne_none key)
    · have same (j : Nat) : (keys ++ [last])[j]? = some key ↔ keys[j]? = some key := by
        rcases Nat.lt_trichotomy j keys.length with less | rfl | greater
        · rw [List.getElem?_append_left less]
        · rw [final, List.getElem?_eq_none (Nat.le_refl _)]
          exact ⟨fun eq => absurd (Option.some.inj eq).symm here,
            fun absent => absurd absent.symm (Option.some_ne_none key)⟩
        · rw [beyond greater, List.getElem?_eq_none (Nat.le_of_lt greater)]
      rw [beq_false_of_ne here]
      simp only [ih, same, ne_eq]

theorem lookup_zipIdx_eq_none_iff : (keys.zipIdx base).reverse.lookup key = none ↔ key ∉ keys := by
  have isKey : key ∈ keys ↔ ∃ pair ∈ keys.zipIdx base, key = pair.1 := by
    simp only [eq_comm (a := key)]
    rw [← List.mem_map, List.zipIdx_map_fst]
  simp only [List.lookup_eq_none_iff, List.mem_reverse, bne_iff_ne, ne_eq, isKey, not_exists,
    not_and]

end Lookup

namespace Description

namespace Lowering

/-- The callee of a call with these arguments, when there is one already. -/
def callee? (l : Lowering) (name : String) (args : List ValueId) : Option FuncId :=
  ((l.program.operatorFor? name (args.map l.program.typeOf?)).or (l.program.helper? name)).or
    (l.unknown.lookup name)

/-- Names are those of one variable each, and callees have the names that they are known by. -/
structure Ready (l : Lowering) : Prop where
  distinct : (l.program.vars.toList.map (·.name)).Nodup
  operators : ∀ (sig : Signature) (func : FuncId), (sig, func) ∈ l.program.operators →
    ∃ f, l.program.funcs[func]? = some f ∧ f.name = sig.operator
  helpers : l.program.NamesHelpers
  unknown : ∀ (name : String) (func : FuncId), l.unknown.lookup name = some func →
    l.program.funcs[func]? = some ⟨name, none⟩

/-- Callees without result type were added for these names, each of which has none yet. -/
structure Shares (l l' : Lowering) (names : List String) : Prop where
  funcs : l'.program.funcs = l.program.funcs ++ (names.map fun name => Func.mk name none).toArray
  unknown : l'.unknown = (names.zipIdx l.program.funcs.size).reverse ++ l.unknown
  new : ∀ name ∈ names, l.unknown.lookup name = none
  distinct : names.Nodup

/-- Tables have grown, and what was found in them still is. -/
structure Extends (l l' : Lowering) : Prop where
  values : Appended l.program.values l'.program.values
  vars : Appended l.program.vars l'.program.vars
  functions : Appended l.program.functions l'.program.functions
  operators : l'.program.operators = l.program.operators
  helpers : l'.program.helpers = l.program.helpers
  shares : ∃ names, l.Shares l' names
  ready : l'.Ready

mutual

/-- The value is that of an expression: its operands are those of the arguments and come before
it. -/
def Stands (l : Lowering) : Expr → ValueId → Prop
  | .int n, a => l.program.values[a]? = some ⟨a, some .int, .int n⟩
  | .float x, a => l.program.values[a]? = some ⟨a, some .float, .float x⟩
  | .var name, a => ∃ v x, l.program.varNamed? name = some v ∧ l.program.vars[v]? = some x ∧
      l.program.values[a]? = some ⟨a, x.type, .var v⟩
  | .call name args, a => ∃ func f operands, l.callee? name operands = some func ∧
      l.program.funcs[func]? = some f ∧
      l.program.values[a]? = some ⟨a, f.result, .call func operands⟩ ∧
      (∀ x : Nat, x ∈ operands → x < a) ∧ StandAll l args operands

def StandAll (l : Lowering) : List Expr → List ValueId → Prop
  | [], values => values = []
  | e :: rest, values => ∃ a more, values = a :: more ∧ Stands l e a ∧ StandAll l rest more

end

variable {l l' l'' : Lowering}

section Shares

variable {names more : List String} {name : String}

theorem Shares.nil (funcs : l'.program.funcs = l.program.funcs) (unknown : l'.unknown = l.unknown) :
    l.Shares l' [] :=
  ⟨by simpa using funcs, unknown, by rintro _ ⟨⟩, .nil⟩

theorem Shares.lookup (h : l.Shares l' names) (name : String) :
    l'.unknown.lookup name =
      ((names.zipIdx l.program.funcs.size).reverse.lookup name).or (l.unknown.lookup name) := by
  rw [h.unknown, List.lookup_append]

theorem Shares.trans (h : l.Shares l' names) (h' : l'.Shares l'' more) :
    l.Shares l'' (names ++ more) := by
  have unused (name : String) (mem : name ∈ more) :
      name ∉ names ∧ l.unknown.lookup name = none := by
    have none := h'.new name mem
    rwa [h.lookup, Option.or_eq_none_iff, lookup_zipIdx_eq_none_iff] at none
  have size : l'.program.funcs.size = l.program.funcs.size + names.length := by
    simp [h.funcs]
  refine ⟨?_, ?_, fun name mem => ?_, ?_⟩
  · rw [h'.funcs, h.funcs]
    simp
  · rw [h'.unknown, h.unknown, size, List.zipIdx_append, List.reverse_append, List.append_assoc]
  · rcases List.mem_append.mp mem with first | later
    · exact h.new name first
    · exact (unused name later).2
  · refine List.nodup_append.mpr ⟨h.distinct, h'.distinct, ?_⟩
    rintro name first _ later rfl
    exact (unused name later).1 first

end Shares

theorem Extends.refl (ready : l.Ready) : l.Extends l :=
  ⟨.refl _, .refl _, .refl _, rfl, rfl, ⟨[], .nil rfl rfl⟩, ready⟩

theorem Extends.trans (h : l.Extends l') (h' : l'.Extends l'') : l.Extends l'' := by
  obtain ⟨names, shares⟩ := h.shares
  obtain ⟨more, shares'⟩ := h'.shares
  exact ⟨h.values.trans h'.values, h.vars.trans h'.vars, h.functions.trans h'.functions,
    h'.operators.trans h.operators, h'.helpers.trans h.helpers, ⟨_, shares.trans shares'⟩,
    h'.ready⟩

theorem Extends.funcs (h : l.Extends l') : Appended l.program.funcs l'.program.funcs := by
  obtain ⟨names, shares⟩ := h.shares
  exact ⟨_, shares.funcs⟩

theorem Extends.unknown (h : l.Extends l') (name : String) (func : FuncId)
    (known : l.unknown.lookup name = some func) : l'.unknown.lookup name = some func := by
  obtain ⟨names, shares⟩ := h.shares
  have old : name ∉ names := fun mem => by
    rw [shares.new name mem] at known
    cases known
  rw [shares.lookup, lookup_zipIdx_eq_none_iff.mpr old, Option.none_or, known]

section Stands

theorem Stands.exists_value {e : Expr} {a : ValueId} (h : l.Stands e a) :
    ∃ v, l.program.values[a]? = some v := by
  cases e with
  | int | float => exact ⟨_, h⟩
  | var name =>
    obtain ⟨_, _, -, -, found⟩ := h
    exact ⟨_, found⟩
  | call name args =>
    obtain ⟨_, _, _, -, -, found, -⟩ := h
    exact ⟨_, found⟩

theorem StandAll.exists_value {es : List Expr} {values : List ValueId} (h : l.StandAll es values) :
    ∀ a ∈ values, ∃ v, l.program.values[a]? = some v := by
  induction es generalizing values with
  | nil =>
    cases (h : values = [])
    rintro _ ⟨⟩
  | cons e rest ih =>
    obtain ⟨a, more, rfl, head, tail⟩ := h
    exact List.forall_mem_cons.mpr ⟨head.exists_value, ih tail⟩

theorem Extends.callee? (h : l.Extends l') {name : String} {args : List ValueId} {func : FuncId}
    (present : ∀ a ∈ args, ∃ v, l.program.values[a]? = some v)
    (known : l.callee? name args = some func) : l'.callee? name args = some func := by
  have types : args.map l'.program.typeOf? = args.map l.program.typeOf? := by
    refine List.map_congr_left fun a mem => ?_
    obtain ⟨v, found⟩ := present a mem
    rw [Program.typeOf?, Program.typeOf?, found, h.values.getElem? found]
  have same : (l'.program.operatorFor? name (args.map l'.program.typeOf?)).or
      (l'.program.helper? name) = (l.program.operatorFor? name (args.map l.program.typeOf?)).or
      (l.program.helper? name) := by
    simp only [types, Program.operatorFor?, Program.resolve?, Program.helper?, h.operators,
      h.helpers]
  rw [Lowering.callee?] at known ⊢
  rw [same]
  rcases Option.or_eq_some_iff.mp known with found | ⟨missing, shared⟩
  · rw [found, Option.some_or]
  · rw [missing, Option.none_or, h.unknown name func shared]

theorem Extends.varNamed? (h : l.Extends l') {name : String} {v : VarId}
    (found : l.program.varNamed? name = some v) : l'.program.varNamed? name = some v := by
  obtain ⟨more, eq⟩ := h.vars
  rw [Program.varNamed?] at found ⊢
  rw [eq, Array.findIdx?_append, found, Option.some_or]

mutual

theorem Extends.stands (h : l.Extends l') (e : Expr) {a : ValueId} (stands : l.Stands e a) :
    l'.Stands e a := by
  cases e with
  | int | float => exact h.values.getElem? stands
  | var name =>
    obtain ⟨v, x, named, isVar, found⟩ := stands
    exact ⟨v, x, h.varNamed? named, h.vars.getElem? isVar, h.values.getElem? found⟩
  | call name args =>
    obtain ⟨func, f, operands, known, isFunc, found, before, all⟩ := stands
    exact ⟨func, f, operands, h.callee? all.exists_value known, h.funcs.getElem? isFunc,
      h.values.getElem? found, before, h.standAll args all⟩

theorem Extends.standAll (h : l.Extends l') (es : List Expr) {values : List ValueId}
    (stand : l.StandAll es values) : l'.StandAll es values := by
  cases es with
  | nil => exact stand
  | cons e rest =>
    obtain ⟨a, more, rfl, head, tail⟩ := stand
    exact ⟨a, more, rfl, h.stands e head, h.standAll rest tail⟩

end

theorem Ready.exists_func (ready : l.Ready) {name : String} {types : List (Option TypeName)}
    {func : FuncId}
    (known : (l.program.operatorFor? name types).or (l.program.helper? name) = some func) :
    ∃ f, l.program.funcs[func]? = some f ∧ f.name = name := by
  rcases Option.or_eq_some_iff.mp known with isOperator | ⟨-, isHelper⟩
  · obtain ⟨operands, -, isOperator⟩ := Option.bind_eq_some_iff.mp isOperator
    obtain ⟨receiver, -, isOperator⟩ := Option.bind_eq_some_iff.mp isOperator
    exact ready.operators _ _ (mem_of_lookup isOperator)
  · exact ready.helpers _ _ (mem_of_lookup isHelper)

theorem Ready.exists_callee (ready : l.Ready) {name : String} {args : List ValueId} {func : FuncId}
    (known : l.callee? name args = some func) : ∃ f, l.program.funcs[func]? = some f := by
  rcases Option.or_eq_some_iff.mp known with found | ⟨-, shared⟩
  · obtain ⟨f, isFunc, -⟩ := ready.exists_func found
    exact ⟨f, isFunc⟩
  · exact ⟨_, ready.unknown name func shared⟩

theorem Ready.callee (ready : l.Ready) {name : String} {args : List ValueId} {func : FuncId}
    {f : Func} (known : l.callee? name args = some func)
    (isFunc : l.program.funcs[func]? = some f) :
    f.name = name ∧ f.result = l.program.scope.result name (args.map l.program.typeOf?) := by
  rw [Program.result_scope]
  rcases Option.or_eq_some_iff.mp known with found | ⟨missing, shared⟩
  · obtain ⟨g, isFunc', named⟩ := ready.exists_func found
    cases isFunc.symm.trans isFunc'
    rw [found, Option.bind_some, isFunc, Option.bind_some]
    exact ⟨named, rfl⟩
  · cases isFunc.symm.trans (ready.unknown name func shared)
    rw [missing, Option.bind_none]
    exact ⟨rfl, rfl⟩

mutual

/-- The value of an expression reads like it. -/
theorem Ready.reading_of_stands (ready : l.Ready) (e : Expr) {a depth : Nat}
    (stands : l.Stands e a) (deep : a < depth) :
    l.program.readingTo? depth a = some (e.reading l.program.scope) ∧
      l.program.renderTo? depth a = some e.text ∧
      l.program.typeOf? a = (e.reading l.program.scope).type := by
  obtain ⟨depth, rfl⟩ : ∃ n, depth = n + 1 := ⟨depth - 1, by omega⟩
  rw [Program.readingTo?, Program.renderTo?, Program.typeOf?]
  cases e with
  | int | float =>
    rw [show l.program.values[a]? = some _ from stands]
    exact ⟨rfl, rfl, rfl⟩
  | var name =>
    obtain ⟨v, x, named, isVar, found⟩ := stands
    obtain ⟨x', isVar', declared⟩ := Program.exists_of_varNamed? named
    cases isVar.symm.trans isVar'
    have isName := Program.name_of_declared? declared
    rw [found]
    simp [Program.head?, Program.varName?, isVar, isName, Expr.reading, Expr.text, Reading.type,
      Program.vars_scope, declared, Value.operands]
  | call name args =>
    obtain ⟨func, f, operands, known, isFunc, found, before, all⟩ := stands
    have deep' (x : Nat) (mem : x ∈ operands) : x < depth :=
      Nat.lt_of_lt_of_le (before x mem) (Nat.le_of_lt_succ deep)
    obtain ⟨readings, texts, types⟩ := ready.readings_of_standAll args all deep'
    obtain ⟨isName, result⟩ := ready.callee known isFunc
    rw [types] at result
    rw [found]
    simp [Program.head?, Program.funcName?, isFunc, isName, Expr.reading, Expr.text, Reading.type,
      Value.operands, readings, texts, result]

theorem Ready.readings_of_standAll (ready : l.Ready) (es : List Expr) {values : List ValueId}
    {depth : Nat} (stand : l.StandAll es values) (deep : ∀ a : Nat, a ∈ values → a < depth) :
    values.mapM (l.program.readingTo? depth) = some (Expr.readings l.program.scope es) ∧
      values.mapM (l.program.renderTo? depth) = some (Expr.texts es) ∧
      values.map l.program.typeOf? = (Expr.readings l.program.scope es).map Reading.type := by
  cases es with
  | nil =>
    cases (stand : values = [])
    exact ⟨rfl, rfl, rfl⟩
  | cons e rest =>
    obtain ⟨a, more, rfl, head, tail⟩ := stand
    obtain ⟨reading, text, type⟩ :=
      ready.reading_of_stands e head (deep a List.mem_cons_self)
    obtain ⟨readings, texts, types⟩ :=
      ready.readings_of_standAll rest tail fun x mem => deep x (List.mem_cons_of_mem a mem)
    simp [reading, text, type, readings, texts, types, Expr.readings, Expr.texts]

end

end Stands

/-- The instruction is that of a statement. -/
def Holds (l : Lowering) : Statement → Instruction → Prop
  | .ret e, i => ∃ a, i = .ret a ∧ l.Stands e a
  | .assign name e, i =>
    ∃ v a, i = .assign v a ∧ l.program.varNamed? name = some v ∧ l.Stands e a
  | .eval e, i => ∃ a, i = .eval a ∧ l.Stands e a

theorem Extends.holds (h : l.Extends l') {st : Statement} {i : Instruction} (holds : l.Holds st i) :
    l'.Holds st i := by
  cases st with
  | ret e | eval e =>
    obtain ⟨a, rfl, stands⟩ := holds
    exact ⟨a, rfl, h.stands e stands⟩
  | assign name e =>
    obtain ⟨v, a, rfl, named, stands⟩ := holds
    exact ⟨v, a, rfl, h.varNamed? named, h.stands e stands⟩

/-- The function is that of a declaration. -/
structure Realizes (l : Lowering) (d : FunctionDecl) (f : Function) : Prop where
  name : f.name = d.name
  attributes : f.attributes = d.attributes
  mpc : List.Forall₂ (fun name v => l.program.varNamed? name = some v) d.mpc.toList f.mpc.toList
  params : List.Forall₂ (fun name v => l.program.varNamed? name = some v) d.params f.params
  body : List.Forall₂ l.Holds d.body f.body

theorem Extends.realizes (h : l.Extends l') {d : FunctionDecl} {f : Function}
    (realizes : l.Realizes d f) : l'.Realizes d f where
  name := realizes.name
  attributes := realizes.attributes
  mpc := realizes.mpc.imp fun _ _ => h.varNamed?
  params := realizes.params.imp fun _ _ => h.varNamed?
  body := realizes.body.imp fun _ _ => h.holds

theorem Ready.read_of_stands (ready : l.Ready) {e : Expr} {a : ValueId} (stands : l.Stands e a) :
    l.program.reading? a = some (e.reading l.program.scope) ∧ l.program.render? a = some e.text := by
  obtain ⟨v, found⟩ := stands.exists_value
  obtain ⟨reading, text, -⟩ :=
    ready.reading_of_stands e stands (Array.getElem?_eq_some_iff.mp found).1
  exact ⟨reading, text⟩

theorem Ready.render_of_holds (ready : l.Ready) {st : Statement} {i : Instruction}
    (holds : l.Holds st i) : l.program.render? i.value = some st.value.text := by
  cases st with
  | ret e | eval e =>
    obtain ⟨a, rfl, stands⟩ := holds
    exact (ready.read_of_stands stands).2
  | assign name e =>
    obtain ⟨v, a, rfl, -, stands⟩ := holds
    exact (ready.read_of_stands stands).2

theorem Ready.line_of_holds (ready : l.Ready) {st : Statement} {i : Instruction}
    (holds : l.Holds st i) : l.program.line? i = some (st.line l.program.scope) := by
  cases st with
  | ret e | eval e =>
    obtain ⟨a, rfl, stands⟩ := holds
    obtain ⟨reading, text⟩ := ready.read_of_stands stands
    simp [Program.line?, Program.instructionText?, Instruction.value, reading, text,
      Statement.line, Statement.text, Statement.value]
  | assign name e =>
    obtain ⟨v, a, rfl, named, stands⟩ := holds
    obtain ⟨reading, text⟩ := ready.read_of_stands stands
    obtain ⟨x, isVar, declared⟩ := Program.exists_of_varNamed? named
    have isName := Program.name_of_declared? declared
    simp [Program.line?, Program.instructionText?, Program.varName?, Instruction.value, isVar,
      isName, reading, text, Statement.line, Statement.text, Statement.value]

theorem Ready.lines_of_holds (ready : l.Ready) {body : List Statement} {is : List Instruction}
    (holds : List.Forall₂ l.Holds body is) :
    is.mapM l.program.line? = some (body.map (Statement.line l.program.scope)) := by
  induction holds with
  | nil => rfl
  | cons head _ ih =>
    rw [List.mapM_cons, ready.line_of_holds head, ih]
    rfl

theorem Extends.result_scope (ready : l.Ready) (h : l.Extends l') :
    l.program.scope.result = l'.program.scope.result := by
  funext name types
  have same : (l'.program.operatorFor? name types).or (l'.program.helper? name) =
      (l.program.operatorFor? name types).or (l.program.helper? name) := by
    simp only [Program.operatorFor?, Program.resolve?, Program.helper?, h.operators, h.helpers]
  rw [Program.result_scope, Program.result_scope, same]
  cases known : (l.program.operatorFor? name types).or (l.program.helper? name) with
  | none => rfl
  | some func =>
    obtain ⟨f, isFunc, -⟩ := ready.exists_func known
    rw [Option.bind_some, Option.bind_some, isFunc, h.funcs.getElem? isFunc]

end Lowering

end Description

end SecureArith
