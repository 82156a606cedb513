import SecureArith.Proofs.Emission
import SecureArith.Proofs.Rendering

set_option autoImplicit false

/-!
# What emission appends

Emission of a tree with kept types appends one call for each operation, operands first, and each
call reads as its operation does over the old values. It succeeds where the signatures of all
operations are registered, and otherwise stops at the first one that is not.
-/

namespace SecureArith

/-- There is no operator of a signature. -/
def Program.unregistered (p : Program) (s : Signature) : Bool := (p.resolve? s).isNone

theorem Program.unregistered_eq_false {p : Program} {s : Signature} :
    p.unregistered s = false ↔ (p.resolve? s).isSome := Option.isNone_eq_false_iff

namespace Tree

variable {c : Classifier} {p : Program} {id : NodeId} {label : Label} {l r : Tree}

def opName : Tree → String
  | .nil | .missing _ => ""
  | .node _ label _ => label.opName

def calls : Tree → List Tree
  | .nil | .missing _ => []
  | .node id label child =>
    if childless child then []
    else (child .left).calls ++ (child .right).calls ++ [.node id label child]

/-- What the operations of a tree are linked by, each before those below it. -/
def signatures (c : Classifier) : Tree → List Signature
  | .nil | .missing _ => []
  | .node _ label child =>
    if childless child then []
    else signature c label child :: ((child .left).signatures c ++ (child .right).signatures c)

/-- The text of a tree whose leaves are values of a program. -/
def rendering? (p : Program) : Tree → Option String
  | .nil | .missing _ => none
  | .node _ label child =>
    if childless child then label.origin.bind fun o => p.render? o.id
    else ((present child ((child .left).rendering? p) ((child .right).rendering? p)).mapM
      fun text => text).map fun texts => "(" ++ " ".intercalate (label.opName :: texts) ++ ")"

def renderings (p : Program) (t : Tree) : List (Option String) :=
  if t.isNil then [] else [t.rendering? p]

theorem calls_inner (inner : childless (pair l r) = false) :
    (Tree.node id label (pair l r)).calls =
      l.calls ++ r.calls ++ [.node id label (pair l r)] := by
  simp [calls, inner]

theorem signatures_inner (inner : childless (pair l r) = false) :
    (Tree.node id label (pair l r)).signatures c =
      signature c label (pair l r) :: (l.signatures c ++ r.signatures c) := by
  simp [signatures, inner]

theorem length_calls (inner : childless (pair l r) = false) :
    (Tree.node id label (pair l r)).calls.length = l.calls.length + r.calls.length + 1 := by
  simp [calls_inner inner, Nat.add_assoc]

theorem find?_signatures (inner : childless (pair l r) = false)
    (registered : p.unregistered (signature c label (pair l r)) = false) :
    ((Tree.node id label (pair l r)).signatures c).find? p.unregistered =
      ((l.signatures c).find? p.unregistered).or ((r.signatures c).find? p.unregistered) := by
  rw [signatures_inner inner, List.find?_cons_of_neg (Bool.eq_false_iff.mp registered),
    List.find?_append]

theorem rendering?_inner (inner : childless (pair l r) = false) :
    (Tree.node id label (pair l r)).rendering? p =
      ((l.renderings p ++ r.renderings p).mapM fun text => text).map fun texts =>
        "(" ++ " ".intercalate (label.opName :: texts) ++ ")" := by
  rw [rendering?, inner, if_neg Bool.false_ne_true]
  rfl

theorem isSome_rendering? {t : Tree} (wf : p.WellFormed) (declared : p.Declared)
    (emittable : t.emittable p = true) (there : t.isNil = false) (whole : t.complete = true) :
    (t.rendering? p).isSome := by
  induction t with
  | nil => simp at there
  | missing => simp [complete] at whole
  | node id label child ih =>
    simp only [complete, Bool.and_eq_true] at whole
    rw [rendering?]
    split
    · rename_i leaf
      simp only [Tree.emittable, leaf, if_true, Bool.and_eq_true, Option.any_eq_true,
        decide_eq_true_eq] at emittable
      obtain ⟨⟨⟨o, origin, lt⟩, -⟩, -⟩ := emittable
      rw [origin]
      exact wf.isSome_render? declared lt
    · rw [Option.isSome_map]
      apply Program.isSome_mapM
      intro text mem
      simp only [present, List.mem_append] at mem
      rcases mem with mem | mem
      · split at mem
        · cases mem
        · rename_i there
          rw [List.mem_singleton.mp mem]
          exact ih .left (emittable_child emittable .left) (Bool.eq_false_iff.mpr there) whole.1
      · split at mem
        · cases mem
        · rename_i there
          rw [List.mem_singleton.mp mem]
          exact ih .right (emittable_child emittable .right) (Bool.eq_false_iff.mpr there) whole.2

end Tree

namespace Program

variable {c : Classifier} {p q q' : Program} {v : Nat} {t : Tree}

/-- A value is a call of the operation at the root of a tree, and it reads as the tree does. -/
def IsCallFor (p q : Program) (id : Nat) (t : Tree) : Prop :=
  ∃ (type : Option TypeName) (func : FuncId) (args : List ValueId),
    q.values[id]? = some ⟨id, type, .call func args⟩ ∧ q.funcName? func = some t.opName ∧
      q.render? id = t.rendering? p

theorem IsCallFor.mono (h : p.IsCallFor q v t) (ext : q.Extends q') (wf : q.WellFormed) :
    p.IsCallFor q' v t := by
  obtain ⟨type, func, args, found, name, text⟩ := h
  have lt := (Array.getElem?_eq_some_iff.mp found).1
  refine ⟨type, func, args, (ext.kept v lt).trans found, ?_, (ext.render?_eq wf lt).trans text⟩
  rw [funcName?, ext.funcs_eq]
  exact name

/-- Calls of some operations were appended, one for each of them, and nothing else happened. -/
structure Appends (p q : Program) (ts : List Tree) : Prop where
  grown : p.Extends q
  size : q.values.size = p.values.size + ts.length
  calls : ∀ (i : Nat) (t : Tree), ts[i]? = some t → p.IsCallFor q (p.values.size + i) t

theorem appends_nil (p : Program) : p.Appends p [] := ⟨.refl p, rfl, fun _ _ h => (by simp at h)⟩

theorem Appends.append {ts : List Tree} (h : p.Appends q ts) (wf : q.WellFormed)
    (ext : q.Extends q') (size : q'.values.size = q.values.size + 1)
    (call : p.IsCallFor q' q.values.size t) : p.Appends q' (ts ++ [t]) := by
  refine ⟨h.grown.trans ext, ?_, fun i u found => ?_⟩
  · rw [size, h.size, List.length_append, List.length_singleton, Nat.add_assoc]
  · rcases Nat.lt_trichotomy i ts.length with lt | rfl | gt
    · rw [List.getElem?_append_left lt] at found
      exact (h.calls i u found).mono ext wf
    · rw [List.getElem?_concat_length] at found
      cases Option.some.inj found
      rw [← h.size]
      exact call
    · rw [List.getElem?_eq_none (by simp; omega)] at found
      cases found

/-- Emission of a tree, from a program on: all its operations are registered, calls of them were
appended to those before, and the resulting value reads as the tree does. -/
structure Emits (c : Classifier) (p q : Program) (before : List Tree) (t : Tree) (q' : Program)
    (values : List ValueId) : Prop where
  resolved : ∀ s ∈ t.signatures c, (p.resolve? s).isSome
  wellFormed : q'.WellFormed
  grown : q.Extends q'
  appends : p.Appends q' (before ++ t.calls)
  inside : ∀ v : Nat, v ∈ values → v < q'.values.size
  texts : values.mapM q'.render? = (t.renderings p).mapM fun text => text

/-- Emission of a tree stopped at the first operation that is not registered; calls were appended
of operations before it. -/
structure Stops (c : Classifier) (p : Program) (before : List Tree) (t : Tree) (e : Failure)
    (q : Program) : Prop where
  failure : ∃ s, (t.signatures c).find? p.unregistered = some s ∧
    e = .unlinked s.operator s.receiver s.operands
  appends : ∃ k < t.calls.length, p.Appends q (before ++ t.calls.take k)

section Steps

variable {before : List Tree} {l r : Tree} {id : NodeId} {label : Label}

theorem emits_nil (appends : p.Appends q before) (wf : q.WellFormed) :
    Emits c p q before .nil q [] where
  resolved _ mem := (by cases mem)
  wellFormed := wf
  grown := .refl q
  appends := by rwa [Tree.calls, List.append_nil]
  inside _ mem := (by cases mem)
  texts := rfl

theorem emits_leaf {o : Origin} (appends : p.Appends q before) (wf : p.WellFormed)
    (wf' : q.WellFormed) (leaf : Tree.childless (Tree.pair l r) = true)
    (origin : label.origin = some o) (lt : o.id < p.values.size) :
    Emits c p q before (.node id label (Tree.pair l r)) q [o.id] where
  resolved _ mem := (by simp [Tree.signatures, leaf] at mem)
  wellFormed := wf'
  grown := .refl q
  appends := by simpa [Tree.calls, leaf] using appends
  inside v mem := by
    rw [List.mem_singleton.mp mem]
    exact Nat.lt_of_lt_of_le lt appends.grown.grows
  texts := by
    simp [Tree.renderings, Tree.rendering?, leaf, origin, appends.grown.render?_eq wf lt]

section Operands

variable {before' : List Tree} {q₁ q₂ : Program} {xs ys : List ValueId}

theorem Emits.inside_append (left : Emits c p q before l q₁ xs)
    (right : Emits c p q₁ before' r q₂ ys) : ∀ v : Nat, v ∈ xs ++ ys → v < q₂.values.size := by
  intro v mem
  rcases List.mem_append.mp mem with mem | mem
  · exact Nat.lt_of_lt_of_le (left.inside v mem) right.grown.grows
  · exact right.inside v mem

theorem Emits.texts_append (left : Emits c p q before l q₁ xs)
    (right : Emits c p q₁ before' r q₂ ys) (ext : q₂.Extends q') :
    (xs ++ ys).mapM q'.render? = (l.renderings p ++ r.renderings p).mapM fun text => text := by
  have old : xs.mapM q'.render? = xs.mapM q₁.render? :=
    mapM_congr fun v mem => (right.grown.trans ext).render?_eq left.wellFormed (left.inside v mem)
  have new : ys.mapM q'.render? = ys.mapM q₂.render? :=
    mapM_congr fun v mem => ext.render?_eq right.wellFormed (right.inside v mem)
  rw [List.mapM_append, List.mapM_append, old, new, left.texts, right.texts]

theorem Emits.call {func : FuncId} (wf : p.WellFormed)
    (left : Emits c p q before l q₁ xs) (inner : Tree.childless (Tree.pair l r) = false)
    (right : Emits c p q₁ (before ++ l.calls) r q₂ ys)
    (callee : p.resolve? (Tree.signature c label (Tree.pair l r)) = some func) :
    Emits c p q before (.node id label (Tree.pair l r)) (q₂.addCall func (xs ++ ys)).2
      [q₂.values.size] := by
  have name : q₂.funcName? func = some label.opName := right.appends.grown.callee_name wf callee
  obtain ⟨f, isFunc, -⟩ := Option.map_eq_some_iff.mp name
  have ext : q₂.Extends (q₂.addCall func (xs ++ ys)).2 := extends_push q₂ _ _
  have wf' : (q₂.addCall func (xs ++ ys)).2.WellFormed := by
    refine right.wellFormed.push _ _ (left.inside_append right) ?_
    rintro _ _ ⟨⟩
    exact ⟨f, isFunc⟩
  have found := getElem?_push_self q₂ (q₂.funcs[func]?.bind (·.result)) (.call func (xs ++ ys))
  have text : (q₂.addCall func (xs ++ ys)).2.render? q₂.values.size =
      (Tree.node id label (Tree.pair l r)).rendering? p := by
    rw [wf'.render?_call found name, left.texts_append right ext, Tree.rendering?_inner inner]
  refine ⟨?_, wf', (left.grown.trans right.grown).trans ext, ?_, ?_, ?_⟩
  · rw [Tree.signatures_inner inner]
    refine List.forall_mem_cons.mpr ⟨Option.isSome_of_eq_some callee, ?_⟩
    exact List.forall_mem_append.mpr ⟨left.resolved, right.resolved⟩
  · rw [Tree.calls_inner inner, ← List.append_assoc, ← List.append_assoc]
    exact right.appends.append right.wellFormed ext (by simp [addCall, push])
      ⟨_, func, _, found, name, text⟩
  · intro v mem
    rw [List.mem_singleton.mp mem]
    simp [addCall, push]
  · simp [Tree.renderings, text]

end Operands

/-- The value of a tree reads as the tree does. -/
theorem Emits.render?_eq (h : Emits c p q before t q' [v]) (there : t.isNil = false) :
    q'.render? v = t.rendering? p := by
  have texts := h.texts
  rw [Tree.renderings, there, if_neg Bool.false_ne_true] at texts
  cases left : q'.render? v <;> cases right : t.rendering? p <;> simp_all

theorem stops_here (inner : Tree.childless (Tree.pair l r) = false)
    (absent : p.resolve? (Tree.signature c label (Tree.pair l r)) = none)
    (appends : p.Appends q before) :
    Stops c p before (.node id label (Tree.pair l r))
      (.unlinked label.opName (Tree.signature c label (Tree.pair l r)).receiver
        (Tree.signature c label (Tree.pair l r)).operands) q := by
  refine ⟨⟨Tree.signature c label (Tree.pair l r), ?_, rfl⟩, 0, ?_, ?_⟩
  · rw [Tree.signatures_inner inner, List.find?_cons_of_pos]
    rw [unregistered, absent]
    rfl
  · rw [Tree.length_calls inner]
    exact Nat.succ_pos _
  · rwa [List.take_zero, List.append_nil]

variable {e : Failure}

theorem Stops.left (h : Stops c p before l e q) (inner : Tree.childless (Tree.pair l r) = false)
    (resolved : (p.resolve? (Tree.signature c label (Tree.pair l r))).isSome) :
    Stops c p before (.node id label (Tree.pair l r)) e q := by
  obtain ⟨⟨s, first, failure⟩, k, lt, appends⟩ := h
  refine ⟨⟨s, ?_, failure⟩, k, ?_, ?_⟩
  · rw [Tree.find?_signatures inner (unregistered_eq_false.mpr resolved), first, Option.some_or]
  · rw [Tree.length_calls inner]
    omega
  · rw [Tree.calls_inner inner, List.append_assoc, List.take_append_of_le_length (by omega)]
    exact appends

theorem Stops.right (h : Stops c p (before ++ l.calls) r e q)
    (inner : Tree.childless (Tree.pair l r) = false)
    (resolved : (p.resolve? (Tree.signature c label (Tree.pair l r))).isSome)
    (left : ∀ s ∈ l.signatures c, (p.resolve? s).isSome) :
    Stops c p before (.node id label (Tree.pair l r)) e q := by
  obtain ⟨⟨s, first, failure⟩, k, lt, appends⟩ := h
  have passed : (l.signatures c).find? p.unregistered = none :=
    List.find?_eq_none.mpr fun s mem =>
      Bool.eq_false_iff.mp (unregistered_eq_false.mpr (left s mem))
  refine ⟨⟨s, ?_, failure⟩, l.calls.length + k, ?_, ?_⟩
  · rw [Tree.find?_signatures inner (unregistered_eq_false.mpr resolved), passed, first,
      Option.none_or]
  · rw [Tree.length_calls inner]
    omega
  · rw [Tree.calls_inner inner, List.append_assoc, List.take_length_add_append,
      List.take_append_of_le_length (by omega), ← List.append_assoc]
    exact appends

end Steps

/-- Emission makes the calls of the operations. The calls in `before` stand there already, so those
of the right operand follow the left one's. -/
theorem Emission.emits {before : List Tree} {vs : List ValueId} (h : Emission c q t q' vs)
    (wf : p.WellFormed) (wf' : q.WellFormed) (appends : p.Appends q before)
    (emittable : t.emittable p = true) : Emits c p q before t q' vs := by
  induction h generalizing before with
  | nil => exact emits_nil appends wf'
  | leaf _ _ leaf origin =>
    simp only [Tree.emittable, leaf, if_true, Bool.and_eq_true, Option.any_eq_true,
      decide_eq_true_eq] at emittable
    obtain ⟨⟨⟨o, isOrigin, lt⟩, -⟩, -⟩ := emittable
    cases origin.symm.trans isOrigin
    exact emits_leaf appends wf wf' leaf origin lt
  | call _ inner callee _ _ left right =>
    have emitsLeft := left wf' appends (Tree.emittable_child emittable .left)
    have emitsRight := right emitsLeft.wellFormed emitsLeft.appends
      (Tree.emittable_child emittable .right)
    rw [resolve?, appends.grown.operators_eq] at callee
    exact emitsLeft.call wf inner emitsRight callee

theorem Interruption.stops {before : List Tree} {e : Failure} (h : Interruption c q t e q')
    (wf : p.WellFormed) (wf' : q.WellFormed) (appends : p.Appends q before)
    (emittable : t.emittable p = true) : Stops c p before t e q' := by
  induction h generalizing before with
  | here _ inner absent =>
    rw [resolve?, appends.grown.operators_eq] at absent
    exact stops_here inner absent appends
  | left _ inner resolved _ below =>
    rw [resolve?, appends.grown.operators_eq] at resolved
    exact (below wf' appends (Tree.emittable_child emittable .left)).left inner resolved
  | right _ inner resolved left _ below =>
    rw [resolve?, appends.grown.operators_eq] at resolved
    have emitsLeft := left.emits wf wf' appends (Tree.emittable_child emittable .left)
    exact (below emitsLeft.wellFormed emitsLeft.appends
      (Tree.emittable_child emittable .right)).right inner resolved emitsLeft.resolved

end Program

variable {c : Classifier} {b : Bench} {root : Nat} {t : Tree}

/-- A tree of values of a program, with operators, first operands and the types that are found for
it, is emitted where an operator is registered for each of its operations and the types of its
operands. Then one call for each operation is appended, with a callee of its operator's name, and
the resulting value reads as the tree does. Otherwise the failure names the first operation in
preorder that has no operator, and calls of some operations have been appended. Either way nothing
else in the program changes. -/
theorem emit_faithful (wf : b.program.WellFormed) (h : b.forest.store.Owned (some root) t)
    (emittable : t.emittable b.program = true) (realized : t.Realized c) :
    ((∃ v b', Work.emit c root b = .ok v b') ↔
      ∀ s ∈ t.signatures c, (b.program.resolve? s).isSome) ∧
    Ends (Work.emit c root) b
      (fun v b' => b.program.Appends b'.program t.calls ∧
        b'.program.render? v = t.rendering? b.program ∧
        (b.program.Declared → (t.rendering? b.program).isSome))
      fun e b' => (∃ k < t.calls.length, b.program.Appends b'.program (t.calls.take k)) ∧
        ∃ s, (t.signatures c).find? b.program.unregistered = some s ∧
          e = .unlinked s.operator s.receiver s.operands := by
  have there : t.isNil = false := by
    obtain ⟨n, l, r, rfl, -⟩ := h.split
    rfl
  have ends : Ends (Work.emit c root) b
      (fun v b' => Program.Emits c b.program b.program [] t b'.program [v])
      fun e b' => Program.Stops c b.program [] t e b'.program := by
    rw [Work.emit, Ends.bind_iff, Ends.get_iff]
    have appends := b.program.appends_nil
    exact (Work.ends_emitTo wf (.refl _) h h.height_le emittable realized).imp
      (fun _ _ emits => emits.1.emits wf wf appends emittable)
      fun _ _ stops => stops.1.stops wf wf appends emittable
  refine ⟨Ends.exists_ok_iff (ends.imp (fun _ _ emits => emits.resolved) ?_), ends.imp ?_ ?_⟩
  · rintro e b' ⟨⟨s, first, -⟩, -⟩ resolved
    have absent := List.find?_some first
    rw [Program.unregistered_eq_false.mpr (resolved s (List.mem_of_find?_eq_some first))] at absent
    cases absent
  · rintro v b' emits
    refine ⟨emits.appends, emits.render?_eq there, fun declared => ?_⟩
    exact Tree.isSome_rendering? wf declared emittable there h.spans.complete
  · rintro e b' ⟨failure, appends⟩
    exact ⟨appends, failure⟩

/-- The values `x` and `2`. Products are registered twice, at last with another type. -/
def Program.negating : Program :=
  let p := (Program.addVar {} "x" (some .int)).2
  let p := (p.push (some .int) (.var 0)).2
  let p := (p.push (some .int) (.int 2)).2
  let p := (p.registerOperator ⟨.int, "__mul__", [.int, .int]⟩ .int).2
  let p := (p.registerOperator ⟨.int, "__neg__", [.int]⟩ .int).2
  (p.registerOperator ⟨.int, "__mul__", [.int, .int]⟩ .float).2

theorem Program.sound_negating : Program.negating.Sound := by
  have read : ((Program.addVar {} "x" (some .int)).2.push (some .int) (.var 0)).2.Sound :=
    (sound_empty.addVar _ _).push _ _ (by simp [Value.operands]) (by simp)
      (by simp [Program.addVar])
  have values := read.push (some .int) (.int 2) (by simp [Value.operands]) (by simp) (by simp)
  exact ((values.registerOperator _ _).registerOperator _ _).registerOperator _ _

namespace Store

def intNode (op : Operator) (left : NodeId) (right : Option NodeId) : Node :=
  { op := some op, left := some left, right, memo := some .int }

def intRead : Node := { origin := some ⟨0, some .int, .var 0⟩, memo := some .int }

def intTwo : Node := { origin := some ⟨1, some .int, .int 2⟩, memo := some .int }

def negated : Store :=
  ⟨#[intNode (.other "__neg__") 1 none, intNode .mul 2 (some 3), intRead, intTwo]⟩

def subtracted : Store :=
  ⟨#[intNode .mul 1 (some 2), intNode .mul 3 (some 4), intNode .sub 5 (some 6), intRead, intTwo,
    intRead, intTwo]⟩

end Store

theorem emit_faithful_negating :
    ∃ c : Classifier,
    (∃ (b b' : Bench) (v : ValueId) (t : Tree), b.program = .negating ∧
      b.program.WellFormed ∧ b.forest.store = .negated ∧ b.forest.store.Owned (some 0) t ∧
      t.emittable b.program = true ∧ t.Realized c ∧ Work.emit c 0 b = .ok v b' ∧
      b.program.Appends b'.program t.calls ∧ t.calls.length = 2 ∧
      b'.program.render? v = some "(__neg__ (__mul__ x 2))") ∧
    ∃ (b b' : Bench) (e : Failure) (t : Tree), b.program = .negating ∧
      b.program.WellFormed ∧ b.forest.store = .subtracted ∧ b.forest.store.Owned (some 0) t ∧
      t.emittable b.program = true ∧ t.Realized c ∧ Work.emit c 0 b = .error e b' ∧
      e = .unlinked "__sub__" .int [.int, .int] ∧
      ∃ k < t.calls.length, b.program.Appends b'.program (t.calls.take k) := by
  let c : Classifier := ⟨fun _ => false, fun _ => false, fun _ => false⟩
  have wf {b : Bench} (program : b.program = .negating) : b.program.WellFormed :=
    program ▸ Program.sound_negating.toWellFormed
  refine ⟨c, ?_, ?_⟩
  · obtain ⟨b, program, store⟩ : ∃ b : Bench, b.program = .negating ∧ b.forest.store = .negated :=
      ⟨⟨.negating, { store := .negated }, {}⟩, rfl, rfl⟩
    have owned : b.forest.store.Owned (some 0) (Store.negated.tree 0) := by
      rw [store]
      exact Store.owned_tree (by decide +kernel) (by decide +kernel)
    have emittable : (Store.negated.tree 0).emittable b.program = true := by
      rw [program]
      decide +kernel
    have realized : (Store.negated.tree 0).Realized c :=
      ⟨rfl, rfl, ⟨rfl, rfl, ⟨rfl, rfl, trivial, trivial⟩, rfl, rfl, trivial, trivial⟩, trivial⟩
    obtain ⟨succeeds, ends⟩ := emit_faithful (wf program) owned emittable realized
    obtain ⟨v, b', run⟩ := succeeds.mpr (by rw [program]; decide +kernel)
    obtain ⟨appends, text, -⟩ := ends.of_ok run
    exact ⟨b, b', v, _, program, wf program, store, owned, emittable, realized, run, appends, rfl,
      text.trans (by rw [program]; decide +kernel)⟩
  · obtain ⟨b, program, store⟩ :
        ∃ b : Bench, b.program = .negating ∧ b.forest.store = .subtracted :=
      ⟨⟨.negating, { store := .subtracted }, {}⟩, rfl, rfl⟩
    have owned : b.forest.store.Owned (some 0) (Store.subtracted.tree 0) := by
      rw [store]
      exact Store.owned_tree (by decide +kernel) (by decide +kernel)
    have emittable : (Store.subtracted.tree 0).emittable b.program = true := by
      rw [program]
      decide +kernel
    have realized : (Store.subtracted.tree 0).Realized c :=
      ⟨rfl, rfl, ⟨rfl, rfl, ⟨rfl, rfl, trivial, trivial⟩, rfl, rfl, trivial, trivial⟩,
        rfl, rfl, ⟨rfl, rfl, trivial, trivial⟩, rfl, rfl, trivial, trivial⟩
    obtain ⟨succeeds, ends⟩ := emit_faithful (wf program) owned emittable realized
    have first : ((Store.subtracted.tree 0).signatures c).find? b.program.unregistered =
        some ⟨.int, "__sub__", [.int, .int]⟩ := by
      rw [program]
      decide +kernel
    cases run : Work.emit c 0 b with
    | ok v b' =>
      have registered := succeeds.mp ⟨v, b', run⟩ _ (List.mem_of_find?_eq_some first)
      have absent := List.find?_some first
      rw [Program.unregistered_eq_false.mpr registered] at absent
      cases absent
    | error e b' =>
      obtain ⟨appends, s, found, rfl⟩ := ends.of_error run
      cases found.symm.trans first
      exact ⟨b, b', _, _, program, wf program, store, owned, emittable, realized, run, rfl, appends⟩

end SecureArith
