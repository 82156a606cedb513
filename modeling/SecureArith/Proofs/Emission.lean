import SecureArith.Pass.Emission
import SecureArith.Proofs.Ends.Work
import SecureArith.Proofs.Graft
import SecureArith.Proofs.Linking
import SecureArith.Proofs.Meaning.Leaves

set_option autoImplicit false

/-!
# Values of trees

Where the types of a tree have just been found, emitting it appends calls that are linked for these
types, and the last of them computes what the tree does. Emission fails only where an operation
cannot be linked, and what it appended until then is linked too.
-/

namespace SecureArith

namespace Tree

variable {c : Classifier} {p : Program} {id : NodeId} {label : Label} {l r : Tree}

/-- Each node keeps the type that is found for it anew. -/
def Realized (c : Classifier) : Tree → Prop
  | .nil | .missing _ => True
  | .node id label child =>
    label.memo.isSome ∧ label.memo = (Tree.node id label child).type? c true ∧
      (child .left).Realized c ∧ (child .right).Realized c

/-- Operations have an operator and a first operand, and leaves a value of the program. -/
def emittable (p : Program) : Tree → Bool
  | .nil | .missing _ => true
  | .node _ label child =>
    (if childless child then label.origin.any fun o => decide (o.id < p.values.size)
      else label.op.isSome && !(child .left).isNil) &&
      (child .left).emittable p && (child .right).emittable p

def signature (c : Classifier) (label : Label) (child : Side → Tree) : Signature where
  receiver := ((child .left).type? c true).getD ""
  operator := label.opName
  operands := ((child .left).type? c true).toList ++ ((child .right).type? c true).toList

theorem type?_leaf (leaf : childless (pair l r) = true) :
    (Tree.node id label (pair l r)).type? c true = label.type? := by
  simp [type?, leaf]

theorem type?_both (left : l.isNil = false) (right : r.isNil = false) :
    (Tree.node id label (pair l r)).type? c true =
      (l.type? c true).bind fun x => (r.type? c true).map (c.combine x) := by
  simp [type?, childless, left, right]

theorem type?_eq_of_untyped {t u : Tree} (h : t.untyped = u.untyped) :
    t.type? c true = u.type? c true := by
  have go (t : Tree) : t.untyped.type? c true = t.type? c true := by
    induction t with
    | nil | missing => rfl
    | node id label child ih =>
      simp only [untyped, type?, ih, isNil_untyped, if_true, Option.none_or]
      rw [childless_congr fun side => isNil_untyped (child side)]
      rfl
  rw [← go t, h, go u]

theorem isSome_type?_child {child : Side → Tree}
    (h : ((Tree.node id label child).type? c true).isSome) (side : Side)
    (there : (child side).isNil = false) : ((child side).type? c true).isSome := by
  have inner : childless child = false := by
    cases side <;> simp [childless, there]
  simp only [type?, if_true, Option.none_or, inner, Bool.false_eq_true, if_false] at h
  cases left : (child .left).isNil <;> cases right : (child .right).isNil <;>
    simp only [left, right, Bool.false_eq_true, if_true, if_false] at h
  · obtain ⟨type, found⟩ := Option.isSome_iff_exists.mp h
    obtain ⟨x, hx, found⟩ := Option.bind_eq_some_iff.mp found
    obtain ⟨y, hy, -⟩ := Option.map_eq_some_iff.mp found
    cases side with
    | left => exact Option.isSome_of_eq_some hx
    | right => exact Option.isSome_of_eq_some hy
  all_goals cases side <;> simp_all [childless]

theorem realized_typed {t : Tree} (h : (t.type? c true).isSome) : (t.typed c true).Realized c := by
  induction t with
  | nil | missing => trivial
  | node id label child ih =>
    have below (side : Side) : ((child side).typed c true).Realized c := by
      by_cases there : (child side).isNil = true
      · rw [eq_nil_of_isNil there]
        trivial
      · exact ih side (isSome_type?_child h side (Bool.eq_false_iff.mpr there))
    have same : ((Tree.node id label child).typed c true).type? c true = _ :=
      type?_eq_of_untyped (untyped_typed _)
    rw [typed] at same ⊢
    simp only [Bool.not_true, Bool.false_and, Bool.false_eq_true, if_false] at same ⊢
    exact ⟨h, same.symm, below .left, below .right⟩

theorem Realized.isSome_type? {t : Tree} (h : t.Realized c) (there : t.isNil = false)
    (whole : t.complete = true) : (t.type? c true).isSome := by
  cases t with
  | nil => simp at there
  | missing => simp [complete] at whole
  | node => exact h.2.1 ▸ h.1

theorem emittable_child {child : Side → Tree}
    (h : (Tree.node id label child).emittable p = true) (side : Side) :
    (child side).emittable p = true := by
  simp only [emittable, Bool.and_eq_true] at h
  cases side with
  | left => exact h.1.2
  | right => exact h.2

theorem emittable_of_proper {t : Tree} (proper : t.proper = true) (grounds : p.Grounds t) :
    t.emittable p = true := by
  induction t with
  | nil | missing => rfl
  | node id label child ih =>
    rw [emittable]
    cases leaf : childless child with
    | true =>
      obtain ⟨v, origin, found⟩ := grounds label.origin (by simp [leaves, leaf])
      have lt : v.id < p.values.size := (Array.getElem?_eq_some_iff.mp found).1
      simp only [childless, Bool.and_eq_true] at leaf
      rw [eq_nil_of_isNil leaf.1, eq_nil_of_isNil leaf.2, origin]
      simpa [emittable, Origin.ofValue] using lt
    | false =>
      obtain ⟨isOp, there⟩ := operands_of_proper proper leaf
      have below (side : Side) := ih side (proper_child proper side) (grounds.child leaf side)
      simp [isOp, there .left, below]

end Tree

namespace Program

universe u

/-- A value of the second program has the meaning and the type of a tree of the first one. -/
structure Computes {R : Type u} [Zero R] (I : Interpretation R) (c : Classifier)
    (p q : Program) (v : ValueId) (t : Tree) : Prop where
  there : v < q.values.size
  type : q.linkType? c p.values.size v = t.type? c true
  meaning : ∀ env, q.eval? I env v = some (p.evalTree I env t)

variable {R : Type u} [Zero R] {I : Interpretation R} {c : Classifier} {p q q' : Program}
  {v : ValueId} {t : Tree}

theorem Extends.callee_name {s : Signature} {func : FuncId} (ext : p.Extends q) (wf : p.WellFormed)
    (callee : p.resolve? s = some func) : q.funcName? func = some s.operator := by
  rw [funcName?, ext.funcs_eq]
  exact wf.resolve_name callee

theorem Computes.mono (h : Computes I c p q v t) (ext : q.Extends q') (wf : q.WellFormed) :
    Computes I c p q' v t where
  there := Nat.lt_of_lt_of_le h.there ext.grows
  type := (ext.linkType?_eq wf _ h.there).trans h.type
  meaning env := (ext.eval?_eq wf h.there).trans (h.meaning env)

theorem computes_leaf {l r : Tree} {id : NodeId} {label : Label} {o : Origin}
    (wf : p.WellFormed) (ext : p.Extends q) (leaf : Tree.childless (Tree.pair l r) = true)
    (origin : label.origin = some o) (holds : p.Holds (some o)) :
    Computes I c p q o.id (.node id label (Tree.pair l r)) := by
  obtain ⟨v, eq, found⟩ := holds
  cases eq
  have lt := (Array.getElem?_eq_some_iff.mp found).1
  refine ⟨Nat.lt_of_lt_of_le lt ext.grows, ?_, fun env => ?_⟩
  · rw [Tree.type?_leaf leaf, Label.type?, origin]
    exact linkType?_of_lt lt ((ext.kept _ lt).trans found)
  · rw [evalTree, Tree.eval_leaf leaf]
    exact (ext.eval?_eq wf lt).trans (wf.eval?_eq_label found origin)

theorem computes_call {l r : Tree} {id : NodeId} {label : Label} {op : Operator} {func : FuncId}
    {x y : ValueId} {a b : TypeName} (wf : p.WellFormed) (linked : p.Linked c q)
    (isOp : label.op = some op) (left : l.isNil = false) (right : r.isNil = false)
    (computesLeft : Computes I c p q x l) (computesRight : Computes I c p q y r)
    (typeLeft : l.type? c true = some a) (typeRight : r.type? c true = some b)
    (callee : q.resolve? ⟨a, op.name, [a, b]⟩ = some func) :
    p.Linked c (q.addCall func [x, y]).2 ∧
      Computes I c p (q.addCall func [x, y]).2 q.values.size
        (.node id label (Tree.pair l r)) := by
  have wfq := linked.wellFormed wf
  have there : ∀ a : Nat, a ∈ [x, y] → a < q.values.size :=
    List.forall_mem_cons.mpr ⟨computesLeft.there, List.forall_mem_singleton.mpr computesRight.there⟩
  have ext : q.Extends (q.addCall func [x, y]).2 := extends_push q _ _
  have linked' : p.Linked c (q.addCall func [x, y]).2 :=
    linked.call there (computesLeft.type.trans typeLeft) (computesRight.type.trans typeRight) callee
  have computesLeft' := computesLeft.mono ext wfq
  have computesRight' := computesRight.mono ext wfq
  have found := getElem?_push_self q (q.funcs[func]?.bind (·.result)) (.call func [x, y])
  refine ⟨linked', by simp [addCall, size_push], ?_, fun env => ?_⟩
  · rw [linked'.linkType?_eq linked.extends.grows found, Tree.type?_both left right]
    simp only [Value.linkType?, computesLeft'.type, computesRight'.type]
  · rw [(linked'.wellFormed wf).eval?_eq found]
    have name : (q.addCall func [x, y]).2.funcName? func = some label.opName := by
      rw [Label.opName, isOp]
      exact wfq.resolve_name callee
    have values : [x, y].mapM ((q.addCall func [x, y]).2.eval? I env) =
        some [p.evalTree I env l, p.evalTree I env r] := by
      rw [List.mapM_cons, List.mapM_cons, computesLeft'.meaning, computesRight'.meaning]
      rfl
    simp only [evalWith, name, values, Option.bind_some, Option.map_some]
    simp [evalTree, Tree.eval, Tree.childless, Tree.present, left, right]

/-- A tree is emitted: for each operation a call is appended after those of its operands. The values
are those of the tree, one or none. -/
inductive Emission (c : Classifier) : Program → Tree → Program → List ValueId → Prop
  | nil (q : Program) : Emission c q .nil q []
  | leaf {l r : Tree} {label : Label} {o : Origin} (q : Program) (id : NodeId)
      (leaf : Tree.childless (Tree.pair l r) = true) (origin : label.origin = some o) :
      Emission c q (.node id label (Tree.pair l r)) q [o.id]
  | call {q q₁ q₂ : Program} {l r : Tree} {label : Label} {func : FuncId} {xs ys : List ValueId}
      (id : NodeId) (inner : Tree.childless (Tree.pair l r) = false)
      (callee : q.resolve? (Tree.signature c label (Tree.pair l r)) = some func)
      (left : Emission c q l q₁ xs) (right : Emission c q₁ r q₂ ys) :
      Emission c q (.node id label (Tree.pair l r)) (q₂.addCall func (xs ++ ys)).2
        [q₂.values.size]

/-- Emission comes to an operation without callee. -/
inductive Interruption (c : Classifier) : Program → Tree → Failure → Program → Prop
  | here {q : Program} {l r : Tree} {label : Label} (id : NodeId)
      (inner : Tree.childless (Tree.pair l r) = false)
      (absent : q.resolve? (Tree.signature c label (Tree.pair l r)) = none) :
      Interruption c q (.node id label (Tree.pair l r))
        (.unlinked label.opName (Tree.signature c label (Tree.pair l r)).receiver
          (Tree.signature c label (Tree.pair l r)).operands) q
  | left {q q' : Program} {l r : Tree} {label : Label} {e : Failure} (id : NodeId)
      (inner : Tree.childless (Tree.pair l r) = false)
      (resolved : (q.resolve? (Tree.signature c label (Tree.pair l r))).isSome)
      (below : Interruption c q l e q') :
      Interruption c q (.node id label (Tree.pair l r)) e q'
  | right {q q₁ q' : Program} {l r : Tree} {label : Label} {e : Failure} {xs : List ValueId}
      (id : NodeId) (inner : Tree.childless (Tree.pair l r) = false)
      (resolved : (q.resolve? (Tree.signature c label (Tree.pair l r))).isSome)
      (left : Emission c q l q₁ xs) (below : Interruption c q₁ r e q') :
      Interruption c q (.node id label (Tree.pair l r)) e q'

theorem Emission.extends {vs : List ValueId} (h : Emission c q t q' vs) : q.Extends q' := by
  induction h with
  | nil | leaf => exact .refl _
  | call _ _ _ _ _ left right => exact (left.trans right).trans (extends_push _ _ _)

theorem Emission.exists_value {vs : List ValueId} (h : Emission c q t q' vs)
    (there : t.isNil = false) : ∃ v, vs = [v] := by
  cases h with
  | nil => cases there
  | leaf | call => exact ⟨_, rfl⟩

/-- What is emitted is linked and computes the tree. -/
theorem Emission.computes {vs : List ValueId} (h : Emission c q t q' vs) (wf : p.WellFormed)
    (linked : p.Linked c q) (proper : t.proper = true) (grounds : p.Grounds t)
    (realized : t.Realized c) : p.Linked c q' ∧ ∀ v ∈ vs, Computes I c p q' v t := by
  induction h with
  | nil => exact ⟨linked, fun _ mem => absurd mem List.not_mem_nil⟩
  | leaf q id leaf origin =>
    refine ⟨linked, fun v mem => ?_⟩
    rw [List.mem_singleton.mp mem]
    exact computes_leaf wf linked.extends leaf origin
      (origin ▸ grounds _ (by simp [Tree.leaves, leaf]))
  | @call q q₁ q₂ l r label func xs ys id inner callee left right ihl ihr =>
    obtain ⟨isOp, there⟩ := Tree.operands_of_proper proper inner
    obtain ⟨op, isOp⟩ := Option.isSome_iff_exists.mp isOp
    obtain ⟨x, rfl⟩ := left.exists_value (there .left)
    obtain ⟨y, rfl⟩ := right.exists_value (there .right)
    obtain ⟨kept, memo, realizedLeft, realizedRight⟩ := realized
    have typed := memo ▸ kept
    obtain ⟨linked₁, computesLeft⟩ := ihl linked (Tree.proper_child proper .left)
      (grounds.child inner .left) realizedLeft
    obtain ⟨linked₂, computesRight⟩ := ihr linked₁ (Tree.proper_child proper .right)
      (grounds.child inner .right) realizedRight
    have computesLeft := (computesLeft x List.mem_cons_self).mono right.extends
      (linked₁.wellFormed wf)
    obtain ⟨a, typeLeft⟩ : ∃ a, l.type? c true = some a :=
      Option.isSome_iff_exists.mp (Tree.isSome_type?_child typed .left (there .left))
    obtain ⟨b, typeRight⟩ : ∃ b, r.type? c true = some b :=
      Option.isSome_iff_exists.mp (Tree.isSome_type?_child typed .right (there .right))
    have name : label.opName = op.name := by simp [Label.opName, isOp]
    rw [Tree.signature, name, Tree.pair_left, Tree.pair_right, typeLeft, typeRight, resolve?,
      ← (left.extends.trans right.extends).operators_eq] at callee
    obtain ⟨linked', computes⟩ := computes_call wf linked₂ isOp (there .left) (there .right)
      computesLeft (computesRight y List.mem_cons_self) typeLeft typeRight callee
    refine ⟨linked', fun v mem => ?_⟩
    rw [List.mem_singleton.mp mem]
    exact computes

theorem Interruption.linked (I : Interpretation R) {e : Failure} (h : Interruption c q t e q')
    (wf : p.WellFormed) (linked : p.Linked c q) (proper : t.proper = true) (grounds : p.Grounds t)
    (realized : t.Realized c) : p.Linked c q' ∧ e.kind = .link := by
  induction h with
  | here => exact ⟨linked, rfl⟩
  | left _ inner _ _ ih =>
    exact ih linked (Tree.proper_child proper .left) (grounds.child inner .left) realized.2.2.1
  | right _ inner _ left _ ih =>
    obtain ⟨linked₁, -⟩ : _ ∧ ∀ v ∈ _, Computes I c p _ v _ :=
      left.computes wf linked (Tree.proper_child proper .left) (grounds.child inner .left)
        realized.2.2.1
    exact ih linked₁ (Tree.proper_child proper .right) (grounds.child inner .right) realized.2.2.2

end Program

namespace Work

universe u

variable {R : Type u} [Zero R] {I : Interpretation R} {c : Classifier} {p : Program} {b : Bench}
  {id : Nat} {n : Node} {t l r : Tree}

theorem ends_typeAt_kept {type : TypeName} (found : b.forest.store.get? id = some n)
    (kept : n.memo = some type) {ok : TypeName → Bench → Prop} {failed : Failure → Bench → Prop}
    (h : ok type b) : Ends (typeAt c false id) b ok failed := by
  obtain ⟨size, eq⟩ : ∃ k, b.forest.store.size = k + 1 :=
    ⟨b.forest.store.size - 1, by have := Store.lt_size_of_get? found; omega⟩
  rw [typeAt, ends_onStore, Store.typeAt, Ends.bind_iff, Ends.get_iff, eq, Store.realize,
    Ends.bind_iff]
  refine Store.ends_read found ?_
  simp only [Bool.false_eq_true, if_false, kept]
  exact h

theorem ends_typeAt_realized (h : b.forest.store.Owned (some id) t) (realized : t.Realized c) :
    Ends (typeAt c false id) b (fun type b' => b' = b ∧ t.type? c true = some type)
      fun _ _ => False := by
  obtain ⟨n, l, r, rfl, split⟩ := h.split
  obtain ⟨kept, found, -⟩ := realized
  obtain ⟨type, memo⟩ := Option.isSome_iff_exists.mp kept
  exact ends_typeAt_kept split.found memo ⟨rfl, found.symm.trans memo⟩

theorem ends_link {op : Operator} {receiver : TypeName} {others : List TypeName} :
    Ends (link op (receiver :: others)) b
      (fun func b' => b' = b ∧
        b.program.resolve? ⟨receiver, op.name, receiver :: others⟩ = some func)
      fun e b' => b' = b ∧
        b.program.resolve? ⟨receiver, op.name, receiver :: others⟩ = none ∧
        e = .unlinked op.name receiver (receiver :: others) := by
  rw [link, Ends.bind_iff]
  apply ends_demand
  · intro first isFirst
    cases isFirst
    rw [Ends.bind_iff, Ends.get_iff]
    split
    · rename_i func found
      exact ⟨rfl, found⟩
    · rename_i absent
      exact ⟨rfl, absent, rfl⟩
  · exact fun absent => by cases absent

theorem ends_onProgram {α : Type} {f : Program → α × Program} {ok : α → Bench → Prop}
    {failed : Failure → Bench → Prop} :
    Ends (onProgram f) b ok failed ↔
      ok (f b.program).1 { b with program := (f b.program).2 } := Iff.rfl

/-- The new call is remembered in its node, which still computes the same. -/
theorem ends_emitCall {func : FuncId} {f : Func} {args : List ValueId}
    (split : b.forest.store.Split id n l r) (inner : n.isLeaf = false)
    (callee : b.program.funcs[func]? = some f) :
    Ends (emitCall id func args) b
      (fun v b' => v = b.program.values.size ∧ b'.program = (b.program.addCall func args).2 ∧
        ∃ u, b.Turned (some id) (.node id n.toLabel (Tree.pair l r)) b' u ∧
          u.bare = (Tree.node id n.toLabel (Tree.pair l r)).bare)
      fun _ _ => False := by
  rw [emitCall, Ends.bind_iff, Work.addCall, Ends.bind_iff, Ends.get_iff, Ends.bind_iff, callee]
  change Ends (pure f) b _ _
  rw [Ends.pure_iff, ends_onProgram, Ends.bind_iff]
  refine ends_value (Program.getElem?_push_self b.program _ _) ?_
  rw [Ends.bind_iff, ends_onStore]
  refine Store.ends_write (Store.lt_size_of_get? split.found) ?_
  rw [Ends.pure_iff]
  generalize Origin.ofValue _ = origin
  obtain ⟨split', turns⟩ :=
    split.update (f := fun n => { n with origin := some origin }) rfl rfl
  refine ⟨rfl, rfl, _, ⟨rfl, split'.owned, turns⟩, ?_⟩
  have childless := split.childless_eq.trans inner
  simp [Tree.bare, childless]

/-- Emission stopped at an operation that cannot be linked. What was appended until then is linked,
and only nodes of the tree have changed. -/
structure Unlinked (c : Classifier) (p : Program) (b : Bench) (t : Tree) (e : Failure)
    (b' : Bench) : Prop where
  linked : p.Linked c b'.program
  confined : b.Confined t b'
  kind : e.kind = .link

theorem ends_typeAt_place {place : Option NodeId} (h : b.forest.store.Owned place t)
    (realized : t.Realized c) :
    Ends (place.toList.mapM (typeAt c false)) b
      (fun types b' => b' = b ∧ types = (t.type? c true).toList) fun _ _ => False := by
  cases place with
  | none =>
    cases h.spans
    exact ⟨rfl, rfl⟩
  | some id =>
    rw [Option.toList_some, Ends.mapM_singleton_iff]
    refine (ends_typeAt_realized h realized).imp ?_ fun _ _ h => h
    rintro type b' ⟨rfl, found⟩
    exact ⟨rfl, by rw [found]; rfl⟩

/-- An operation is linked by the types that its operands keep. -/
theorem ends_link_operands {α : Type} {rest : FuncId → Work α} {op : Operator}
    {ok : α → Bench → Prop} {failed : Failure → Bench → Prop}
    (split : b.forest.store.Split id n l r) (isOp : n.op = some op) (there : l.isNil = false)
    (realizedLeft : l.Realized c) (realizedRight : r.Realized c)
    (linked : ∀ func, b.program.resolve? (Tree.signature c n.toLabel (Tree.pair l r)) = some func →
      Ends (rest func) b ok failed)
    (absent : b.program.resolve? (Tree.signature c n.toLabel (Tree.pair l r)) = none →
      failed (.unlinked n.toLabel.opName (Tree.signature c n.toLabel (Tree.pair l r)).receiver
        (Tree.signature c n.toLabel (Tree.pair l r)).operands) b) :
    Ends (n.children.mapM (typeAt c false) >>= fun types => link op types >>= rest) b ok
      failed := by
  have name : n.toLabel.opName = op.name := by
    have isOp : n.toLabel.op = some op := isOp
    simp [Label.opName, isOp]
  obtain ⟨type, typed⟩ := Option.isSome_iff_exists.mp
    (realizedLeft.isSome_type? there split.left.spans.complete)
  have signature : Tree.signature c n.toLabel (Tree.pair l r) =
      ⟨type, op.name, type :: (r.type? c true).toList⟩ := by
    rw [Tree.signature, name, Tree.pair_left, Tree.pair_right, typed]
    rfl
  rw [signature] at linked absent
  rw [name] at absent
  simp only [Node.children, List.mapM_append, Ends.bind_iff, Ends.pure_iff]
  refine (ends_typeAt_place split.left realizedLeft).imp ?_ fun _ _ h => h.elim
  rintro _ b₁ ⟨rfl, rfl⟩
  refine (ends_typeAt_place split.right realizedRight).imp ?_ fun _ _ h => h.elim
  rintro _ b₁ ⟨rfl, rfl⟩
  rw [typed, Option.toList_some, List.singleton_append]
  refine ends_link.imp ?_ ?_
  · rintro func b₁ ⟨rfl, callee⟩
    exact linked func callee
  · rintro _ b₁ ⟨rfl, unknown, rfl⟩
    exact absent unknown

/-- The tree at a place was emitted, and its nodes compute what they did. -/
def Emitted (c : Classifier) (b : Bench) (place : Option NodeId) (t : Tree) (values : List ValueId)
    (b' : Bench) : Prop :=
  Program.Emission c b.program t b'.program values ∧ ∃ u, b.Turned place t b' u ∧ u.bare = t.bare

def Interrupted (c : Classifier) (b : Bench) (t : Tree) (e : Failure) (b' : Bench) : Prop :=
  Program.Interruption c b.program t e b'.program ∧ b.Confined t b'

/-- The operands of an operation are emitted one after the other, and then its call. -/
theorem ends_emitOperands {emitAt : NodeId → Work ValueId} {func : FuncId} (wf : p.WellFormed)
    (ext : p.Extends b.program) (split : b.forest.store.Split id n l r) (inner : n.isLeaf = false)
    (callee : b.program.resolve? (Tree.signature c n.toLabel (Tree.pair l r)) = some func)
    (left : Ends (n.left.toList.mapM emitAt) b (Emitted c b n.left l) (Interrupted c b l))
    (right : ∀ b' : Bench, p.Extends b'.program → b'.forest.store.Owned n.right r →
      Ends (n.right.toList.mapM emitAt) b' (Emitted c b' n.right r) (Interrupted c b' r)) :
    Ends (n.children.mapM emitAt >>= emitCall id func) b
      (fun v b' => Emitted c b (some id) (.node id n.toLabel (Tree.pair l r)) [v] b')
      (Interrupted c b (.node id n.toLabel (Tree.pair l r))) := by
  have childless := split.childless_eq.trans inner
  have resolved := Option.isSome_of_eq_some callee
  simp only [Node.children, List.mapM_append, Ends.bind_iff, Ends.pure_iff]
  refine left.imp ?_ fun _ _ stops => ⟨.left id childless resolved stops.1,
    stops.2.mono fun i mem => (Tree.mem_preorder_node .left).mpr (.inr (.inl mem))⟩
  rintro xs b₁ ⟨emitsLeft, l', turnedLeft, bareLeft⟩
  have ext₁ := ext.trans emitsLeft.extends
  obtain ⟨split₁, turned₁⟩ := turnedLeft.child split .left rfl
  refine (right b₁ ext₁ split₁.right).imp ?_ fun _ _ stops =>
    ⟨.right id childless resolved emitsLeft stops.1, turned₁.confined_after
      (stops.2.mono fun i mem => (Tree.mem_preorder_node .right).mpr (.inr (.inl mem)))⟩
  rintro ys b₂ ⟨emitsRight, r', turnedRight, bareRight⟩
  obtain ⟨split₂, turned₂⟩ := turnedRight.child split₁ .right rfl
  have callee₀ := callee
  rw [Program.resolve?, ext.operators_eq] at callee₀
  obtain ⟨f, isFunc, -⟩ := Option.map_eq_some_iff.mp
    ((ext₁.trans emitsRight.extends).callee_name wf callee₀)
  refine (ends_emitCall split₂ inner isFunc).imp ?_ fun _ _ h => h.elim
  rintro _ b₃ ⟨rfl, program, u, turned₃, bare⟩
  refine ⟨?_, u, (turned₁.trans turned₂).trans turned₃,
    bare.trans (Tree.bare_node bareLeft bareRight id id n.toLabel)⟩
  rw [program]
  exact .call id childless callee emitsLeft emitsRight

/-- Emission of a tree with kept types goes on until an operation has no callee. Only nodes of the
tree change, and they compute the same. -/
theorem ends_emitTo {depth : Nat} (wf : p.WellFormed) (ext : p.Extends b.program)
    (h : b.forest.store.Owned (some id) t) (deep : t.height ≤ depth)
    (emittable : t.emittable p = true) (realized : t.Realized c) :
    Ends (emitTo c depth id) b (fun v b' => Emitted c b (some id) t [v] b')
      (Interrupted c b t) := by
  induction depth generalizing b id t with
  | zero =>
    obtain ⟨n, l, r, rfl, -⟩ := h.split
    simp [Tree.height] at deep
  | succ depth ih =>
    -- Operations may have one operand only, which is on the left.
    have place {b : Bench} {place : Option NodeId} {t : Tree} (ext : p.Extends b.program)
        (h : b.forest.store.Owned place t) (deep : t.height ≤ depth)
        (emittable : t.emittable p = true) (realized : t.Realized c) :
        Ends (place.toList.mapM (emitTo c depth)) b (Emitted c b place t) (Interrupted c b t) := by
      cases place with
      | none =>
        cases h.spans
        exact ⟨.nil _, .nil, .refl h, rfl⟩
      | some id =>
        rw [Option.toList_some, Ends.mapM_singleton_iff]
        exact ih ext h deep emittable realized
    obtain ⟨n, l, r, rfl, split⟩ := h.split
    simp only [Tree.height, Tree.pair_left, Tree.pair_right] at deep
    have emittableLeft : l.emittable p = true := Tree.emittable_child emittable .left
    have emittableRight : r.emittable p = true := Tree.emittable_child emittable .right
    simp only [Tree.emittable, Bool.and_eq_true] at emittable
    have realizedLeft : l.Realized c := realized.2.2.1
    have realizedRight : r.Realized c := realized.2.2.2
    rw [emitTo, Ends.bind_iff]
    refine ends_node split.found ?_
    rw [Ends.ite_iff]
    refine ⟨fun leaf => ?_, fun inner => ?_⟩
    · have childless := split.childless_eq.trans leaf
      rw [if_pos childless, Option.any_eq_true] at emittable
      obtain ⟨⟨⟨o, origin, -⟩, -⟩, -⟩ := emittable
      have origin' : n.origin = some o := origin
      rw [origin']
      exact ⟨.leaf _ id childless origin, _, .refl h, rfl⟩
    · have inner := Bool.eq_false_iff.mpr inner
      have childless := split.childless_eq.trans inner
      simp only [childless, Bool.false_eq_true, if_false, Bool.and_eq_true, Bool.not_eq_true',
        Tree.pair_left] at emittable
      obtain ⟨⟨⟨isOp, there⟩, -⟩, -⟩ := emittable
      obtain ⟨op, isOp⟩ := Option.isSome_iff_exists.mp isOp
      have isOp' : n.op = some op := isOp
      obtain ⟨left, isLeft⟩ := split.left.spans.exists_id there
      rw [isOp', isLeft]
      apply ends_link_operands split isOp' there realizedLeft realizedRight
      · intro func callee
        exact ends_emitOperands wf ext split inner callee
          (place ext split.left (by omega) emittableLeft realizedLeft)
          fun _ ext' owned => place ext' owned (by omega) emittableRight realizedRight
      · exact fun absent => ⟨.here id childless absent, .refl _ _⟩

variable (I) in
theorem ends_emit (wf : p.WellFormed) (linked : p.Linked c b.program)
    (h : b.forest.store.Owned (some id) t) (proper : t.proper = true) (grounds : p.Grounds t)
    (realized : t.Realized c) :
    Ends (emit c id) b
      (fun v b' => p.Linked c b'.program ∧ b.program.Extends b'.program ∧
        Program.Computes I c p b'.program v t ∧
        ∃ u, b.Turned (some id) t b' u ∧ u.bare = t.bare)
      fun e b' => Unlinked c p b t e b' := by
  rw [emit, Ends.bind_iff, Ends.get_iff]
  apply (ends_emitTo wf linked.extends h h.height_le (Tree.emittable_of_proper proper grounds)
    realized).imp
  · rintro v b' ⟨emission, turned⟩
    obtain ⟨linked', computes⟩ : _ ∧ ∀ v ∈ _, Program.Computes I c p _ v _ :=
      emission.computes wf linked proper grounds realized
    exact ⟨linked', emission.extends, computes v List.mem_cons_self, turned⟩
  · rintro e b' ⟨stops, confined⟩
    obtain ⟨linked', kind⟩ := Program.Interruption.linked I stops wf linked proper grounds realized
    exact ⟨linked', confined, kind⟩

end Work

end SecureArith
