import SecureArith.Description.Lowering
import SecureArith.Program.Text

set_option autoImplicit false

/-!
# Descriptions by scope

What a description says can be read off without a program: a scope knows the types of variables and
the result types of calls, and in a scope every expression has a text and a type for each of its
parts. An assignment to a name that is not in scope puts it there, with the type of the value.

Of a scope an expression or a function sees only what it names.
-/

namespace SecureArith

/-- What a value is apart from its operands. -/
inductive Head where
  | int (n : Int)
  | float (x : Double)
  | var (name : String)
  | call (callee : String)
  | tuple
  deriving DecidableEq, Repr

/-- A value with the types of all its parts. -/
inductive Reading where
  | node (head : Head) (type : Option TypeName) (operands : List Reading)

def Reading.type : Reading → Option TypeName
  | .node _ type _ => type

/-- A line of a body, and its value with all types. -/
structure Line where
  text : String
  reading : Reading

namespace Program

def head? (p : Program) : ValueKind → Option Head
  | .int n => some (.int n)
  | .float x => some (.float x)
  | .var v => (p.varName? v).map .var
  | .call func _ => (p.funcName? func).map .call
  | .tuple _ => some .tuple

/-- The first number bounds the depth. -/
def readingTo? (p : Program) : Nat → ValueId → Option Reading
  | 0, _ => none
  | depth + 1, id => do
    let v ← p.values[id]?
    return .node (← p.head? v.kind) v.type (← v.operands.mapM (p.readingTo? depth))

def reading? (p : Program) (id : ValueId) : Option Reading := p.readingTo? p.values.size id

def line? (p : Program) (i : Instruction) : Option Line := do
  return ⟨← p.instructionText? i, ← p.reading? i.value⟩

def lines? (p : Program) (f : Function) : Option (List Line) := f.body.mapM p.line?

end Program

/-- What is known of names. -/
@[ext] structure Scope where
  /-- The variables and their types. -/
  vars : String → Option (Option TypeName)
  /-- The result type of a call with arguments of these types. -/
  result : String → List (Option TypeName) → Option TypeName

namespace Description

namespace Expr

mutual

def names : Expr → List String
  | .int _ | .float _ => []
  | .var name => [name]
  | .call _ args => namesAll args

def namesAll : List Expr → List String
  | [] => []
  | e :: rest => e.names ++ namesAll rest

end

mutual

def size : Expr → Nat
  | .int _ | .float _ | .var _ => 1
  | .call _ args => sizeAll args + 1

def sizeAll : List Expr → Nat
  | [] => 0
  | e :: rest => e.size + sizeAll rest

end

mutual

def text : Expr → String
  | .int n => toString n
  | .float x => floatText x
  | .var name => name
  | .call callee args => "(" ++ " ".intercalate (callee :: texts args) ++ ")"

def texts : List Expr → List String
  | [] => []
  | e :: rest => e.text :: texts rest

end

mutual

def reading (s : Scope) : Expr → Reading
  | .int n => .node (.int n) (some .int) []
  | .float x => .node (.float x) (some .float) []
  | .var name => .node (.var name) (s.vars name).join []
  | .call callee args =>
    .node (.call callee) (s.result callee ((readings s args).map Reading.type)) (readings s args)

def readings (s : Scope) : List Expr → List Reading
  | [] => []
  | e :: rest => e.reading s :: readings s rest

end

end Expr

namespace Statement

def value : Statement → Expr
  | .ret e | .assign _ e | .eval e => e

def target? : Statement → Option String
  | .assign name _ => some name
  | _ => none

def names (st : Statement) : List String := st.value.names ++ st.target?.toList

def text : Statement → String
  | .ret e => "return " ++ e.text
  | .assign name e => name ++ " = " ++ e.text
  | .eval e => e.text

def line (s : Scope) (st : Statement) : Line := ⟨st.text, st.value.reading s⟩

def after (s : Scope) (st : Statement) : Scope :=
  { s with vars := fun name =>
      (s.vars name).or (if st.target? = some name then some (st.value.reading s).type else none) }

theorem vars_after (s : Scope) (st : Statement) (name : String) :
    (st.after s).vars name =
      (s.vars name).or (if st.target? = some name then some (st.value.reading s).type else none) :=
  rfl

theorem after_eq_self {s : Scope} {st : Statement}
    (h : ∀ name, st.target? = some name → (s.vars name).isSome) : st.after s = s := by
  refine Scope.ext (funext fun name => ?_) rfl
  rw [vars_after]
  split
  · rename_i isTarget
    obtain ⟨type, known⟩ := Option.isSome_iff_exists.mp (h name isTarget)
    rw [known, Option.some_or]
  · exact Option.or_none

end Statement

def InScope (s : Scope) (names : List String) : Prop := ∀ name ∈ names, (s.vars name).isSome

/-- What each statement reads is in the scope before it. -/
def BodyInScope : Scope → List Statement → Prop
  | _, [] => True
  | s, st :: rest => InScope s st.value.names ∧ BodyInScope (st.after s) rest

namespace FunctionDecl

def names (d : FunctionDecl) : List String :=
  d.mpc.toList ++ d.params ++ d.body.flatMap Statement.names

def size (d : FunctionDecl) : Nat := Expr.sizeAll (d.body.map (·.value))

def sizeAll : List FunctionDecl → Nat
  | [] => 0
  | d :: rest => d.size + sizeAll rest

def Scoped (s : Scope) (d : FunctionDecl) : Prop :=
  InScope s (d.mpc.toList ++ d.params) ∧ BodyInScope s d.body

def after (s : Scope) (d : FunctionDecl) : Scope := d.body.foldl Statement.after s

end FunctionDecl

/-- Each function is in the scope that those before it leave. -/
def ScopedFrom (s : Scope) (fs : List FunctionDecl) : Prop :=
  ∀ (i : Nat) d, fs[i]? = some d → d.Scoped ((fs.take i).foldl FunctionDecl.after s)

theorem scopedFrom_cons {s : Scope} {d : FunctionDecl} {fs : List FunctionDecl} :
    ScopedFrom s (d :: fs) ↔ d.Scoped s ∧ ScopedFrom (d.after s) fs := by
  constructor
  · exact fun h => ⟨h 0 d rfl, fun i d' found => h (i + 1) d' found⟩
  · rintro ⟨first, rest⟩ i d' found
    cases i with
    | zero =>
      cases found
      exact first
    | succ i => exact rest i d' found

end Description

/-- Two scopes know the same of some names. -/
structure Scope.AgreeOn (names : List String) (s s' : Scope) : Prop where
  vars : ∀ name ∈ names, s.vars name = s'.vars name
  result : s.result = s'.result

namespace Scope.AgreeOn

variable {names more : List String} {s s' : Scope}

theorem refl (s : Scope) : s.AgreeOn names s := ⟨fun _ _ => rfl, rfl⟩

theorem symm (h : s.AgreeOn names s') : s'.AgreeOn names s :=
  ⟨fun name mem => (h.vars name mem).symm, h.result.symm⟩

theorem trans {s'' : Scope} (h : s.AgreeOn names s') (h' : s'.AgreeOn names s'') :
    s.AgreeOn names s'' :=
  ⟨fun name mem => (h.vars name mem).trans (h'.vars name mem), h.result.trans h'.result⟩

theorem of_subset (h : s.AgreeOn names s') (subset : more ⊆ names) : s.AgreeOn more s' :=
  ⟨fun name mem => h.vars name (subset mem), h.result⟩

theorem inScope_iff (h : s.AgreeOn names s') :
    Description.InScope s names ↔ Description.InScope s' names :=
  forall₂_congr fun name mem => by rw [h.vars name mem]

end Scope.AgreeOn

namespace Description

variable {s s' : Scope}

mutual

/-- An expression sees only the variables that it names. -/
theorem Expr.reading_eq (e : Expr) (h : s.AgreeOn e.names s') : e.reading s = e.reading s' := by
  cases e with
  | int | float => rfl
  | var name => rw [Expr.reading, Expr.reading, h.vars name (List.mem_singleton_self name)]
  | call callee args => rw [Expr.reading, Expr.reading, Expr.readings_eq args h, h.result]

theorem Expr.readings_eq (es : List Expr) (h : s.AgreeOn (Expr.namesAll es) s') :
    Expr.readings s es = Expr.readings s' es := by
  cases es with
  | nil => rfl
  | cons e rest =>
    rw [Expr.readings, Expr.readings,
      Expr.reading_eq e (h.of_subset (List.subset_append_left _ _)),
      Expr.readings_eq rest (h.of_subset (List.subset_append_right _ _))]

end

section Statements

variable {names : List String}

theorem Statement.agreeOn_after (st : Statement) (h : s.AgreeOn names s')
    (subset : st.names ⊆ names) : (st.after s).AgreeOn names (st.after s') := by
  have known := h.of_subset (List.Subset.trans (List.subset_append_left _ _) subset)
  refine ⟨fun name mem => ?_, h.result⟩
  rw [Statement.vars_after, Statement.vars_after, st.value.reading_eq known, h.vars name mem]

theorem Statement.agreeOn_after_self (st : Statement) (h : InScope s names) :
    s.AgreeOn names (st.after s) := by
  refine ⟨fun name mem => ?_, rfl⟩
  obtain ⟨type, known⟩ := Option.isSome_iff_exists.mp (h name mem)
  rw [Statement.vars_after, known, Option.some_or]

theorem agreeOn_foldl_after_self (body : List Statement) (h : InScope s names) :
    s.AgreeOn names (body.foldl Statement.after s) := by
  induction body generalizing s with
  | nil => exact .refl s
  | cons st rest ih =>
    have first := st.agreeOn_after_self h
    exact first.trans (ih (first.inScope_iff.mp h))

/-- Whether statements are in scope and what they put there is decided by the variables that they
name. -/
theorem bodyInScope_iff {body : List Statement} (h : s.AgreeOn names s')
    (subset : body.flatMap Statement.names ⊆ names) :
    (BodyInScope s body ↔ BodyInScope s' body) ∧
      (body.foldl Statement.after s).AgreeOn names (body.foldl Statement.after s') := by
  induction body generalizing s s' with
  | nil => exact ⟨Iff.rfl, h⟩
  | cons st rest ih =>
    rw [List.flatMap_cons, List.append_subset] at subset
    have known := h.of_subset (List.Subset.trans (List.subset_append_left _ _) subset.1)
    obtain ⟨inScope, agree⟩ := ih (st.agreeOn_after h subset.1) subset.2
    exact ⟨by rw [BodyInScope, BodyInScope, inScope, known.inScope_iff], agree⟩

theorem inScope_foldl_after {body : List Statement} (h : BodyInScope s body) :
    InScope (body.foldl Statement.after s) (body.flatMap Statement.names) := by
  induction body generalizing s with
  | nil => rintro _ ⟨⟩
  | cons st rest ih =>
    have own : InScope (st.after s) st.names := by
      intro name mem
      rcases List.mem_append.mp mem with read | target
      · exact (st.agreeOn_after_self h.1).inScope_iff.mp h.1 name read
      · have isTarget : st.target? = some name := Option.mem_toList.mp target
        rw [Statement.vars_after, if_pos isTarget]
        cases s.vars name <;> rfl
    intro name mem
    rcases List.mem_append.mp (List.flatMap_cons ▸ mem) with mem | mem
    · exact (agreeOn_foldl_after_self rest own).inScope_iff.mp own name mem
    · exact ih h.2 name mem

end Statements

namespace FunctionDecl

variable {d : FunctionDecl}

/-- Whether a function is in scope and what it puts there is decided by the variables that it
names. -/
theorem scoped_iff (h : s.AgreeOn d.names s') :
    (d.Scoped s ↔ d.Scoped s') ∧ (d.after s).AgreeOn d.names (d.after s') := by
  obtain ⟨inScope, agree⟩ := bodyInScope_iff h (List.subset_append_right _ _)
  refine ⟨?_, agree⟩
  rw [Scoped, Scoped, inScope, (h.of_subset (List.subset_append_left _ _)).inScope_iff]

theorem Scoped.inScope_after (h : d.Scoped s) : InScope (d.after s) d.names := by
  intro name mem
  rcases List.mem_append.mp mem with mem | mem
  · exact (agreeOn_foldl_after_self d.body h.1).inScope_iff.mp h.1 name mem
  · exact inScope_foldl_after h.2 name mem

theorem agreeOn_foldl_after_self {names : List String} (fs : List FunctionDecl)
    (h : InScope s names) : s.AgreeOn names (fs.foldl FunctionDecl.after s) := by
  induction fs generalizing s with
  | nil => exact .refl s
  | cons d rest ih =>
    have first := Description.agreeOn_foldl_after_self d.body h
    exact first.trans (ih (first.inScope_iff.mp h))

end FunctionDecl

theorem Statement.line_eq {st : Statement} (h : s.AgreeOn st.value.names s') :
    st.line s = st.line s' := by
  rw [Statement.line, Statement.line, st.value.reading_eq h]

def FunctionDecl.targets (d : FunctionDecl) : List String := d.body.filterMap Statement.target?

theorem isSome_vars_body {body : List Statement} {name : String}
    (h : ((body.foldl Statement.after s).vars name).isSome) :
    (s.vars name).isSome ∨ name ∈ body.filterMap Statement.target? := by
  induction body generalizing s with
  | nil => exact .inl h
  | cons st rest ih =>
    rcases ih h with known | later
    · rw [Statement.vars_after, Option.isSome_or, Bool.or_eq_true] at known
      refine known.imp id fun isTarget => ?_
      split at isTarget
      · rename_i eq
        rw [List.filterMap_cons_some eq]
        exact List.mem_cons_self
      · cases isTarget
    · obtain ⟨st', mem, eq⟩ := List.mem_filterMap.mp later
      exact .inr (List.mem_filterMap.mpr ⟨st', List.mem_cons_of_mem st mem, eq⟩)

theorem isSome_vars_foldl_after {fs : List FunctionDecl} {name : String}
    (h : ((fs.foldl FunctionDecl.after s).vars name).isSome) :
    (s.vars name).isSome ∨ ∃ d ∈ fs, name ∈ d.targets := by
  induction fs generalizing s with
  | nil => exact .inl h
  | cons d rest ih =>
    rcases ih h with known | ⟨d', mem, target⟩
    · exact (isSome_vars_body known).imp id fun target => ⟨d, List.mem_cons_self, target⟩
    · exact .inr ⟨d', List.mem_cons_of_mem d mem, target⟩

end Description

end SecureArith
