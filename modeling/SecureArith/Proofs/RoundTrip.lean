import Mathlib.Data.List.Pairwise
import SecureArith.Proofs.Encode
import SecureArith.Proofs.Expansion
import SecureArith.Proofs.Series
import SecureArith.Proofs.Unfolding

set_option autoImplicit false

/-!
# Encoding and decoding

The roots of an encoded forest are those of the forest, since a node is recorded as a child exactly
where it stands below a root. The records of a tree unfold from its root to nothing but trees of the
same shape with the operators and types that were recorded. A leaf is the value of its number, or
the variable that was recorded.
-/

namespace SecureArith

def Record.Fits (r : Record) : Prop := r.id < indexLimit ∧ r.var < indexLimit

instance (r : Record) : Decidable r.Fits := inferInstanceAs (Decidable (_ ∧ _))

/-- What a leaf is known to be from its record. -/
def Label.recalled (label : Label) : Atom := (label.var?.map Atom.var).getD .other

/-- What a leaf is decoded to: the value of its number, or what its record says if there is none. -/
def Label.decoded (values : Array Value) (number : Nat) (label : Label) : Atom :=
  ((values[number]?).map fun v => Atom.ofKind v.kind).getD label.recalled

namespace Tree

/-- A tree of the same shape with the types that the nodes have, where operators without a name are
left out and the leaves are the given ones. -/
def DecodedAs (c : Classifier) (leaf : NodeId → Label → Atom) : Tree → Tree → Prop
  | .nil, .nil => True
  | .node id label child, .node _ label' child' =>
    label'.op = label.op.filter (·.name != "") ∧ label'.memo.isSome ∧
      label'.memo = (Tree.node id label child).type? c false ∧
      (childless child = true → label'.atom? = some (leaf id label)) ∧
      ∀ side, (child side).DecodedAs c leaf (child' side)
  | _, _ => False

/-- A tree of the same shape with the same operators and the types that the nodes have. Leaves read
the same variables, and all else in them is unknown. -/
def RestoredAs (c : Classifier) : Tree → Tree → Prop
  | .nil, .nil => True
  | .node id label child, .node _ label' child' =>
    label'.op = label.op ∧ label'.memo.isSome ∧
      label'.memo = (Tree.node id label child).type? c false ∧
      (childless child = true → label'.atom? = some label.recalled) ∧
      ∀ side, (child side).RestoredAs c (child' side)
  | _, _ => False

theorem DecodedAs.isNil_eq {c : Classifier} {leaf : NodeId → Label → Atom} {t u : Tree}
    (h : t.DecodedAs c leaf u) : u.isNil = t.isNil := by
  cases t with
  | nil => cases u <;> first | rfl | exact h.elim
  | missing => cases u <;> exact h.elim
  | node => cases u <;> first | rfl | exact h.elim

theorem DecodedAs.restoredAs {c : Classifier} {p : Program} {t u : Tree}
    (named : ∀ g ∈ p.funcs, g.name ≠ "") (made : t.MadeFrom p)
    (h : t.DecodedAs c (fun _ label => label.recalled) u) : t.RestoredAs c u := by
  induction t generalizing u with
  | nil => cases u <;> trivial
  | missing => exact made.elim
  | node id label child ih =>
    cases u with
    | nil | missing => exact h.elim
    | node id' label' child' =>
      obtain ⟨op, isSome, memo, leaf, below⟩ := h
      obtain ⟨-, operator, parts⟩ := made
      refine ⟨?_, isSome, memo, leaf, fun side => ih side (parts side) (below side)⟩
      rw [op]
      split at operator
      · rw [operator]
        rfl
      · obtain ⟨g, callee, isOp⟩ := operator
        rw [isOp, Option.filter_some, Operator.name_ofName, if_pos (bne_iff_ne.mpr (named g callee))]

end Tree

namespace Store

variable {s : Store} {p : Option NodeId} {t : Tree} {n : Node} {i j k : NodeId} {side : Side}

theorem Spans.exists_parent (h : s.Spans p t) (mem : j ∈ t.preorder.tail) :
    ∃ k ∈ t.preorder, ∃ n side, s.get? k = some n ∧ n.child side = some j := by
  induction h with
  | nil => exact absurd mem List.not_mem_nil
  | @node id n child found children ih =>
    have place (side : Side) (mem : j ∈ (child side).preorder) :
        ∃ k ∈ (Tree.node id n.toLabel child).preorder, ∃ n side,
          s.get? k = some n ∧ n.child side = some j := by
      rw [(children side).preorder_eq, List.mem_append, Option.mem_toList] at mem
      rcases mem with isChild | mem
      · exact ⟨id, List.mem_cons_self, n, side, found, isChild⟩
      · obtain ⟨k, inside, parent⟩ := ih side mem
        exact ⟨k, List.mem_of_mem_tail (mem_preorder_child inside), parent⟩
    rw [Tree.preorder, List.tail_cons, List.mem_append] at mem
    exact mem.elim (place .left) (place .right)

end Store

theorem filter_flatMap_eq_heads {α β : Type} {l : List α} {f : α → List β} {head : α → β}
    {isHead : β → Bool} (heads : ∀ a ∈ l, f a = head a :: (f a).tail)
    (nodup : (l.flatMap f).Nodup)
    (iff : ∀ b ∈ l.flatMap f, isHead b = true ↔ ∀ a ∈ l, b ∉ (f a).tail) :
    (l.flatMap f).filter isHead = l.map head := by
  obtain ⟨each, apart⟩ := List.nodup_flatMap.mp nodup
  have : Std.Symm (Function.onFun List.Disjoint f) := ⟨fun _ _ h _ left right => h right left⟩
  have member {a : α} {b : β} (mem : a ∈ l) (inside : b ∈ f a) : b ∈ l.flatMap f :=
    List.mem_flatMap.mpr ⟨a, mem, inside⟩
  have one (a : α) (mem : a ∈ l) : (f a).filter isHead = [head a] := by
    have isMem : head a ∈ f a := by
      rw [heads a mem]
      exact List.mem_cons_self
    have first : isHead (head a) = true := by
      refine (iff _ (member mem isMem)).mpr fun a' mem' below => ?_
      by_cases eq : a' = a
      · subst eq
        have := each a' mem
        rw [heads a' mem] at this
        exact (List.nodup_cons.mp this).1 below
      · exact apart.forall mem' mem eq (List.mem_of_mem_tail below) isMem
    have rest : (f a).tail.filter isHead = [] := by
      refine List.filter_eq_nil_iff.mpr fun b below isHead => ?_
      exact (iff b (member mem (List.mem_of_mem_tail below))).mp isHead a mem below
    rw [heads a mem, List.filter_cons_of_pos first, rest]
  rw [List.filter_flatMap]
  calc l.flatMap (fun a => (f a).filter isHead)
    _ = l.flatMap (fun a => [head a]) := List.flatMap_congr one
    _ = l.map head := List.map_eq_flatMap.symm

theorem Node.child_toRecord (n : Node) (names : List (NodeId × Int)) (params : List VarId)
    (id : NodeId) (type : TypeName) (side : Side) :
    (n.toRecord names params id type).child side = Encoding.identity names (n.child side) := by
  cases side <;> rfl

namespace Encoding

variable {e : Encoding} {r : Record} {x : Int}

theorem record?_eq (distinct : (e.map (·.id)).Nodup) (mem : r ∈ e) : e.record? r.id = some r := by
  induction e with
  | nil => exact absurd mem List.not_mem_nil
  | cons r' rest ih =>
    rw [List.map_cons, List.nodup_cons] at distinct
    rw [record?, List.find?_cons]
    rcases List.mem_cons.mp mem with rfl | mem
    · rw [beq_self_eq_true]
    · have other : r'.id ≠ r.id := fun eq => distinct.1 (eq ▸ List.mem_map_of_mem mem)
      rw [beq_eq_false_iff_ne.mpr other]
      exact ih distinct.2 mem

theorem exists_of_identity {names : List (NodeId × Int)} {q : Option NodeId}
    (named : identity names q ≠ Record.absent) : ∃ j, q = some j := by
  cases q with
  | none => exact absurd rfl named
  | some j => exact ⟨j, rfl⟩

theorem eraseDups_eq_self {l : List Int} (distinct : l.Nodup) : l.eraseDups = l := by
  induction l with
  | nil => rfl
  | cons x rest ih =>
    rw [List.nodup_cons] at distinct
    have other : rest.filter (fun y => !y == x) = rest := by
      refine List.filter_eq_self.mpr fun y mem => ?_
      have ne : y ≠ x := fun eq => distinct.1 (eq ▸ mem)
      simp [ne]
    rw [List.eraseDups_cons, other, ih distinct.2]

end Encoding

namespace Forest

variable {c : Classifier} {params : List VarId} {names : List (NodeId × Int)} {f : Forest}
  {e : Encoding} {p : Program} {id j k : NodeId} {n : Node} {r : Record} {side : Side}

/-- Every node of the forest is recorded in order, with a number of its own. -/
structure EncodedAs (c : Classifier) (params : List VarId) (names : List (NodeId × Int))
    (f : Forest) (e : Encoding) : Prop where
  recorded : List.Forall₂ (f.store.Recorded c names params) f.nodes e
  distinct : Encoding.Distinguishes names f.nodes

theorem Planted.below_iff (h : f.Planted (Tree.MadeFrom p)) :
    (∃ entry ∈ f.roots, j ∈ (f.store.tree entry.2).preorder.tail) ↔
      ∃ k ∈ f.nodes, ∃ n side, f.store.get? k = some n ∧ n.child side = some j := by
  constructor
  · rintro ⟨entry, isRoot, below⟩
    obtain ⟨t, owned, made⟩ := h.trees entry isRoot
    rw [owned.tree_eq] at below
    obtain ⟨k, inside, parent⟩ := owned.spans.exists_parent below
    exact ⟨k, h.mem_nodes.mpr ⟨entry, isRoot, t, owned, made, inside⟩, parent⟩
  · rintro ⟨k, mem, n, side, found, isChild⟩
    obtain ⟨entry, isRoot, t, owned, made, inside⟩ := h.mem_nodes.mp mem
    refine ⟨entry, isRoot, ?_⟩
    rw [owned.tree_eq]
    exact owned.spans.mem_below inside found isChild

namespace EncodedAs

theorem ids_eq (h : f.EncodedAs c params names e) :
    e.map (·.id) = f.nodes.map fun id => Encoding.identity names (some id) := by
  have same : List.Forall₂ (· = ·) (f.nodes.map fun id => Encoding.identity names (some id))
      (e.map (·.id)) := by
    rw [List.forall₂_map_left_iff, List.forall₂_map_right_iff]
    refine h.recorded.imp ?_
    rintro id r ⟨n, t, type, -, -, -, rfl⟩
    rfl
  rw [List.forall₂_eq_eq_eq] at same
  exact same.symm

theorem nodup_ids (h : f.EncodedAs c params names e) (planted : f.Planted (Tree.MadeFrom p)) :
    (e.map (·.id)).Nodup := by
  rw [h.ids_eq]
  exact planted.nodup.map_on h.distinct.injective

theorem exists_record (h : f.EncodedAs c params names e) (mem : id ∈ f.nodes) :
    ∃ r ∈ e, f.store.Recorded c names params id r :=
  exists_of_mem_left h.recorded mem

theorem exists_node (h : f.EncodedAs c params names e) (mem : r ∈ e) :
    ∃ id ∈ f.nodes, f.store.Recorded c names params id r :=
  exists_of_mem_right h.recorded mem

theorem identity_ne_absent (h : f.EncodedAs c params names e) (mem : j ∈ f.nodes) :
    Encoding.identity names (some j) ≠ Record.absent := by
  intro eq
  have := h.distinct.nonneg j mem
  rw [eq] at this
  exact absurd this (by decide)

theorem mem_childIds_iff (h : f.EncodedAs c params names e)
    (planted : f.Planted (Tree.MadeFrom p)) (mem : j ∈ f.nodes) :
    Encoding.identity names (some j) ∈ e.childIds ↔
      ∃ entry ∈ f.roots, j ∈ (f.store.tree entry.2).preorder.tail := by
  rw [planted.below_iff, Encoding.mem_childIds]
  constructor
  · rintro ⟨⟨r, inside, side, eq⟩, named⟩
    obtain ⟨k, isNode, n, t, type, found, -, -, rfl⟩ := h.exists_node inside
    rw [Node.child_toRecord] at eq
    obtain ⟨j', isChild⟩ := Encoding.exists_of_identity (eq ▸ named)
    rw [isChild] at eq
    cases h.distinct.injective j' (planted.child_mem isNode found isChild) j mem eq
    exact ⟨k, isNode, n, side, found, isChild⟩
  · rintro ⟨k, isNode, n, side, found, isChild⟩
    obtain ⟨r, inside, n', t, type, found', -, -, rfl⟩ := h.exists_record isNode
    cases found.symm.trans found'
    refine ⟨⟨_, inside, side, ?_⟩, h.identity_ne_absent mem⟩
    rw [Node.child_toRecord, isChild]

/-- The roots of the encoding are those of the forest. -/
theorem rootIds_eq (h : f.EncodedAs c params names e) (planted : f.Planted (Tree.MadeFrom p)) :
    e.rootIds = f.roots.map fun entry => Encoding.identity names (some entry.2) := by
  have roots : f.nodes.filter (fun j =>
      !e.childIds.contains (Encoding.identity names (some j))) = f.roots.map (·.2) := by
    rw [nodes_eq]
    apply filter_flatMap_eq_heads
    · intro entry mem
      obtain ⟨t, owned, -⟩ := planted.trees entry mem
      rw [owned.tree_eq]
      exact owned.spans.preorder_eq
    · rw [← nodes_eq]
      exact planted.nodup
    · intro j mem
      rw [← nodes_eq] at mem
      rw [Bool.not_eq_true', ← Bool.not_eq_true, List.contains_iff_mem,
        h.mem_childIds_iff planted mem]
      simp
  have ids : (e.map (·.id)).filter (fun id => !e.childIds.contains id) =
      f.roots.map fun entry => Encoding.identity names (some entry.2) := by
    rw [h.ids_eq, List.filter_map]
    simp only [Function.comp_def, roots, List.map_map]
  have distinct := (h.nodup_ids planted).filter fun id => !e.childIds.contains id
  rw [← ids]
  exact Encoding.eraseDups_eq_self distinct

end EncodedAs

end Forest

namespace Record

theorem toIndex?_natCast {k : Nat} (fits : (k : Int) < indexLimit) : toIndex? k = some k := by
  rw [toIndex?, if_pos ⟨Int.natCast_nonneg k, fits⟩]
  rfl

theorem op_node {n : Node} {names : List (NodeId × Int)} {params : List VarId} {id : NodeId}
    {type : TypeName} (normal : n.op = none ∨ ∃ name, n.op = some (.ofName name))
    (values : Array Value) (index : ValueId) (left right : Option NodeId) :
    ((n.toRecord names params id type).node values index left right).op =
      n.op.filter (·.name != "") := by
  rcases normal with none | ⟨name, some⟩
  · simp [node, Node.toRecord, none]
  · by_cases empty : name = "" <;> simp [node, Node.toRecord, some, empty, Option.filter_some]

theorem atom_node {n : Node} {names : List (NodeId × Int)} {params : List VarId} {id : NodeId}
    {type : TypeName} {values : Array Value} (leaf : n.isLeaf = true)
    (fits : (n.toRecord names params id type).var < indexLimit) (index : ValueId)
    (right : Option NodeId) :
    ((n.toRecord names params id type).node values index none right).atom? =
      some (n.decoded values index) := by
  rw [Label.decoded]
  cases found : values[index]? with
  | some v => simp [Label.atom?, node, origin, found, Origin.ofValue]
  | none =>
    rw [Option.map_none, Option.getD_none, Label.recalled, ← Node.var?_eq_of_isLeaf leaf]
    cases isVar : n.var? with
    | none => simp [Label.atom?, node, origin, found, Node.toRecord, isVar, toIndex?, absent]
    | some v =>
      have fits : (v : Int) < indexLimit := by simpa [Node.toRecord, isVar] using fits
      simp [Label.atom?, node, origin, found, Node.toRecord, isVar, toIndex?_natCast fits]

end Record

namespace Forest.EncodedAs

variable {c : Classifier} {params : List VarId} {names : List (NodeId × Int)} {f : Forest}
  {e : Encoding} {p : Program} {id : NodeId} {t : Tree} {s : Store} {depth : Nat} {path : List Int}
  {values : Array Value}

def leafAt (values : Array Value) (names : List (NodeId × Int)) (id : NodeId) (label : Label) :
    Atom :=
  label.decoded values (Encoding.identity names (some id)).toNat

theorem exists_record? {n : Node} {l r : Tree} (h : f.EncodedAs c params names e)
    (planted : f.Planted (Tree.MadeFrom p)) (fit : ∀ r ∈ e, r.Fits) (mem : id ∈ f.nodes)
    (split : f.store.Split id n l r) :
    ∃ type, (Tree.node id n.toLabel (Tree.pair l r)).type? c false = some type ∧
      e.record? (Encoding.identity names (some id)) = some (n.toRecord names params id type) ∧
      (n.toRecord names params id type).Fits := by
  obtain ⟨record, inside, n', t', type, found, spans, isType, rfl⟩ := h.exists_record mem
  cases split.found.symm.trans found
  cases split.owned.spans.unique spans
  exact ⟨type, isType, Encoding.record?_eq (h.nodup_ids planted) inside, fit _ inside⟩

theorem decodedAs_node {n : Node} {l r : Tree} {child : Side → Tree} {type : TypeName} {k : NodeId}
    (split : f.store.Split id n l r) (made : (Tree.node id n.toLabel (Tree.pair l r)).MadeFrom p)
    (isType : (Tree.node id n.toLabel (Tree.pair l r)).type? c false = some type)
    (fits : (n.toRecord names params id type).Fits)
    (decoded : ∀ side, (Tree.pair l r side).DecodedAs c (leafAt values names) (child side)) :
    (Tree.node id n.toLabel (Tree.pair l r)).DecodedAs c (leafAt values names)
      (.node k ((n.toRecord names params id type).node values
        (Encoding.identity names (some id)).toNat (child .left).id? (child .right).id?).toLabel
        child) := by
  obtain ⟨-, operator, -⟩ := made
  refine ⟨Record.op_node ?_ _ _ _ _, rfl, isType.symm, fun leaf => ?_, decoded⟩
  · split at operator
    · exact .inl operator
    · obtain ⟨g, -, isOp⟩ := operator
      exact .inr ⟨g.name, isOp⟩
  · have noLeft : (child .left).isNil = true := by
      rw [(decoded .left).isNil_eq]
      simp only [Tree.childless, Bool.and_eq_true] at leaf
      exact leaf.1
    rw [Tree.eq_nil_of_isNil noLeft]
    exact Record.atom_node (split.childless_eq.symm.trans leaf) fits.2 _ _

/-- The records of a tree unfold, and to nothing but what the tree is decoded to. -/
theorem unfolds (h : f.EncodedAs c params names e) (planted : f.Planted (Tree.MadeFrom p))
    (fit : ∀ r ∈ e, r.Fits) (owned : f.store.Owned (some id) t) (made : t.MadeFrom p)
    (part : ∀ i ∈ t.preorder, i ∈ f.nodes) :
    (∃ u, e.Unfolds values (Encoding.identity names (some id)) u) ∧
      ∀ u, e.Unfolds values (Encoding.identity names (some id)) u →
        t.DecodedAs c (leafAt values names) u := by
  induction t generalizing id with
  | nil | missing => cases owned.spans
  | node root _ _ ih =>
    obtain ⟨n, l, r, eq, split⟩ := owned.split
    cases eq
    have mem : root ∈ f.nodes := part root List.mem_cons_self
    obtain ⟨type, isType, isRecord, fits⟩ := h.exists_record? planted fit mem split
    have isIndex : Record.toIndex? (Encoding.identity names (some root)) =
        some (Encoding.identity names (some root)).toNat := if_pos ⟨h.distinct.nonneg root mem, fits.1⟩
    have below (side : Side) :
        (∃ u, e.UnfoldsChild values ((n.toRecord names params root type).child side) u) ∧
          ∀ u, e.UnfoldsChild values ((n.toRecord names params root type).child side) u →
            (Tree.pair l r side).DecodedAs c (leafAt values names) u := by
      have owned := split.children side
      have inside (i : NodeId) (mem : i ∈ (Tree.pair l r side).preorder) : i ∈ f.nodes :=
        part i (List.mem_of_mem_tail (Store.mem_preorder_child mem))
      rw [Node.child_toRecord]
      cases place : n.child side with
      | none =>
        rw [place] at owned
        rw [Tree.eq_nil_of_isNil owned.spans.isNil_eq]
        refine ⟨⟨.nil, fun _ => rfl, fun there => absurd rfl there⟩, fun u unfolds => ?_⟩
        rw [unfolds.1 rfl]
        trivial
      | some j =>
        rw [place] at owned
        have there : Encoding.identity names (some j) ≠ Record.absent := by
          refine h.identity_ne_absent (inside j ?_)
          rw [owned.spans.preorder_eq]
          exact List.mem_cons_self
        obtain ⟨⟨u, unfolds⟩, decoded⟩ := ih side owned (made.2.2 side) inside
        exact ⟨⟨u, fun none => absurd none there, fun _ => unfolds⟩,
          fun u unfolds => decoded u (unfolds.2 there)⟩
    obtain ⟨left, isLeft⟩ := (below .left).1
    obtain ⟨right, isRight⟩ := (below .right).1
    refine ⟨⟨_, .of_children isRecord isIndex isLeft isRight 0⟩, fun u unfolds => ?_⟩
    cases unfolds with
    | @node _ _ _ k child found isIndex' absent present =>
      cases isRecord.symm.trans found
      cases isIndex.symm.trans isIndex'
      exact decodedAs_node split made isType fits fun side =>
        (below side).2 (child side) ⟨absent side, present side⟩

/-- Decoding succeeds, with the trees of the forest in order. -/
theorem exists_decoded (h : f.EncodedAs c params names e) (planted : f.Planted (Tree.MadeFrom p))
    (fit : ∀ r ∈ e, r.Fits) (values : Array Value) :
    ∃ s roots, e.toTrees values = .ok (s, roots) ∧ List.Forall₂ (fun entry root =>
      (f.store.tree entry.2).DecodedAs c (leafAt values names) (s.tree root)) f.roots roots := by
  have unfolds (entry : TreeKey × NodeId) (isRoot : entry ∈ f.roots) :
      (∃ u, e.Unfolds values (Encoding.identity names (some entry.2)) u) ∧
        ∀ u, e.Unfolds values (Encoding.identity names (some entry.2)) u →
          (f.store.tree entry.2).DecodedAs c (leafAt values names) u := by
    obtain ⟨t, owned, made⟩ := planted.trees entry isRoot
    rw [owned.tree_eq]
    exact h.unfolds planted fit owned made fun i mem =>
      planted.mem_nodes.mpr ⟨entry, isRoot, t, owned, made, mem⟩
  have builds : Ends (e.rootIds.mapM (e.build values (e.length + 1) [])) {}
      (e.Built values {} e.rootIds) fun _ _ => False := by
    refine (Encoding.ends_builds e values e.rootIds {}).imp (fun _ _ built => built) ?_
    rintro fault _ ⟨id, mem, x, reaches, fails⟩
    rw [h.rootIds_eq planted] at mem
    obtain ⟨entry, isRoot, rfl⟩ := List.mem_map.mp mem
    obtain ⟨u, whole⟩ := (unfolds entry isRoot).1
    exact whole.not_fault reaches fails
  obtain ⟨roots, s, run, built⟩ := builds.exists_ok
  have trees := built.trees
  rw [h.rootIds_eq planted, List.forall₂_map_left_iff] at trees
  refine ⟨s, roots, by rw [Encoding.toTrees, EStateM.run, run], ?_⟩
  exact forall₂_imp_of_mem trees fun entry isRoot root tree =>
    (unfolds entry isRoot).2 _ tree.2

theorem exists_toTrees (h : f.EncodedAs c params names e) (planted : f.Planted (Tree.MadeFrom p))
    (named : ∀ g ∈ p.funcs, g.name ≠ "") (fit : ∀ r ∈ e, r.Fits) :
    ∃ s roots, e.toTrees #[] = .ok (s, roots) ∧ List.Forall₂ (fun entry root =>
      (f.store.tree entry.2).RestoredAs c (s.tree root)) f.roots roots := by
  obtain ⟨s, roots, run, decoded⟩ := h.exists_decoded planted fit #[]
  refine ⟨s, roots, run, forall₂_imp_of_mem decoded fun entry isRoot root decoded => ?_⟩
  obtain ⟨t, owned, made⟩ := planted.trees entry isRoot
  rw [owned.tree_eq] at decoded ⊢
  exact decoded.restoredAs named made

end Forest.EncodedAs

namespace Forest

variable {c : Classifier} {params : List VarId} {f : Forest} {p : Program}

theorem Planted.ends_encode_kind {good : Tree → Prop} (h : f.Planted good) (values : Nat) :
    Ends (f.encode c values params) f.store
      (fun e _ => List.Forall₂ (f.store.Recorded c
        (Encoding.identities f.store values f.nodes) params) f.nodes e)
      fun e _ => e.kind = .type := by
  rw [encode, nodes?_eq, if_pos h.complete]
  apply Store.ends_records (.refl c f.store)
  · intro id mem
    obtain ⟨entry, -, t, owned, -, inside⟩ := h.mem_nodes.mp mem
    exact owned.exists_at inside
  · intro id mem n found k isNamed
    apply Encoding.isSome_lookup_identities.mpr
    rcases List.mem_cons.mp isNamed with rfl | isChild
    · exact mem
    · obtain ⟨side, isChild⟩ := Node.mem_children isChild
      exact h.child_mem mem found isChild

theorem Planted.exists_origin {id : NodeId} {n : Node} (h : f.Planted (Tree.MadeFrom p))
    (ids : ∀ (id : Nat) v, p.values[id]? = some v → v.id = id) (mem : id ∈ f.nodes)
    (found : f.store.get? id = some n) :
    ∃ v, p.values[v.id]? = some v ∧ n.origin = some (.ofValue v) := by
  obtain ⟨entry, -, t, owned, made, inside⟩ := h.mem_nodes.mp mem
  obtain ⟨v, isValue, origin⟩ := owned.spans.exists_origin made inside found
  obtain ⟨index, isIndex⟩ := Array.mem_iff_getElem?.mp isValue
  refine ⟨v, ?_, origin⟩
  rw [ids index v isIndex, isIndex]

theorem Planted.ends_encode (h : f.Planted (Tree.MadeFrom p))
    (ids : ∀ (id : Nat) v, p.values[id]? = some v → v.id = id) :
    Ends (f.encode c p.values.size params) f.store
      (fun e _ => f.EncodedAs c params (Encoding.identities f.store p.values.size f.nodes) e)
      fun _ _ => True := by
  have distinct : Encoding.Distinguishes (Encoding.identities f.store p.values.size f.nodes)
      f.nodes := by
    refine Encoding.distinguishes_identities h.nodup fun id mem n found o isOrigin => ?_
    obtain ⟨v, isValue, origin⟩ := h.exists_origin ids mem found
    cases isOrigin.symm.trans origin
    exact (Array.getElem?_eq_some_iff.mp isValue).1
  exact (h.ends_encode_kind p.values.size).imp (fun _ _ recorded => ⟨recorded, distinct⟩)
    fun _ _ _ => trivial

end Forest

/-- Where the variable first stands among the parameters, if it does. -/
def Record.IsPosition (params : List VarId) (v : VarId) (x : Int) : Prop :=
  (∃ k : Nat, x = k ∧ params[k]? = some v ∧ ∀ j < k, params[j]? ≠ some v) ∨
    (x = Record.absent ∧ v ∉ params)

theorem Record.isPosition_idxOf? (params : List VarId) (v : VarId) :
    IsPosition params v (((params.idxOf? v).map Int.ofNat).getD Record.absent) := by
  cases found : params.idxOf? v with
  | none => exact .inr ⟨rfl, List.idxOf?_eq_none_iff.mp found⟩
  | some k =>
    obtain ⟨lt, here, first⟩ := List.idxOf?_eq_some_iff.mp found
    refine .inl ⟨k, rfl, by rw [List.getElem?_eq_getElem lt, here], fun j before => ?_⟩
    rw [List.getElem?_eq_getElem (Nat.lt_trans before lt)]
    exact fun eq => first j before (Option.some.inj eq)

namespace Forest.EncodedAs

variable {c : Classifier} {params : List VarId} {names : List (NodeId × Int)} {f : Forest}
  {e : Encoding} {p : Program}

theorem count_child (h : f.EncodedAs c params names e) (planted : f.Planted (Tree.MadeFrom p))
    {r : Record} (mem : r ∈ e) {side : Side} (named : r.child side ≠ Record.absent) :
    (e.map (·.id)).count (r.child side) = 1 := by
  obtain ⟨k, isNode, n, t, type, found, -, -, rfl⟩ := h.exists_node mem
  rw [Node.child_toRecord] at named ⊢
  obtain ⟨j, isChild⟩ := Encoding.exists_of_identity named
  refine List.count_eq_one_of_mem (h.nodup_ids planted) ?_
  rw [h.ids_eq, isChild]
  exact List.mem_map_of_mem (planted.child_mem isNode found isChild)

theorem positions (h : f.EncodedAs c params names e) :
    List.Forall₂ (fun id r => ∀ n v, f.store.get? id = some n → n.var? = some v →
      r.var = (v : Int) ∧ Record.IsPosition params v r.param) f.nodes e := by
  refine h.recorded.imp ?_
  rintro id r ⟨n', t, type, found', -, -, rfl⟩ n v found isVar
  cases found.symm.trans found'
  simp only [Node.toRecord, isVar]
  exact ⟨rfl, Record.isPosition_idxOf? params v⟩

end Forest.EncodedAs

/-- What is encoded from the forest of a body has records with numbers of their own, among them
those of all children, and decoding it restores the registered trees in order. Such a forest can be
built for every body of a well-formed program. -/
theorem toTrees_encodeForest {p : Program} {body : List Instruction}
    (ids : ∀ (id : Nat) v, p.values[id]? = some v → v.id = id)
    (named : ∀ g ∈ p.funcs, g.name ≠ "") (journal : Journal) :
    (p.WellFormed → (∀ i ∈ body, i.value < p.values.size) →
      ∃ b, Work.buildSeries body ⟨p, {}, journal⟩ = .ok () b) ∧
    ∀ (b b' : Bench) (c : Classifier) (params : List VarId) (e : Encoding),
      Work.buildSeries body ⟨p, {}, journal⟩ = .ok () b →
      Work.encodeForest c params b = .ok e b' → (∀ r ∈ e, r.Fits) →
        (e.map (·.id)).Nodup ∧
        (∀ r ∈ e, ∀ side, r.child side ≠ Record.absent →
          (e.map (·.id)).count (r.child side) = 1) ∧
        List.Forall₂ (fun id r => ∀ n v, b.forest.store.get? id = some n → n.var? = some v →
          r.var = (v : Int) ∧ Record.IsPosition params v r.param) b.forest.nodes e ∧
        ∃ s roots, e.toTrees #[] = .ok (s, roots) ∧ List.Forall₂ (fun entry root =>
          (b.forest.store.tree entry.2).RestoredAs c (s.tree root)) b.forest.roots roots := by
  have series : Ends (Work.buildSeries body) ⟨p, {}, journal⟩ _ _ :=
    Work.ends_buildSeries rfl (Forest.planted_empty _)
  constructor
  · intro wf inside
    have total := series.imp (fun _ _ h => h) fun _ _ fails => fails ⟨wf, inside⟩
    obtain ⟨_, b, run, -⟩ := total.exists_ok
    exact ⟨b, run⟩
  · intro b b' c params e built encoded fit
    obtain ⟨program, planted⟩ := series.of_ok built
    have encodes : Ends (Work.encodeForest c params) b (fun e _ => b.forest.EncodedAs c params
        (Encoding.identities b.forest.store p.values.size b.forest.nodes) e) fun _ _ => True := by
      rw [Work.encodeForest, Ends.bind_iff, Ends.get_iff, Work.ends_onStore, program]
      exact planted.ends_encode ids
    have done := encodes.of_ok encoded
    exact ⟨done.nodup_ids planted, fun r mem side child => done.count_child planted mem child,
      done.positions, done.exists_toTrees planted named fit⟩

/-- The double of a negated variable, which is shared, and the sum of the variable and a
constant. -/
def Program.sharing : Program where
  values := #[
    ⟨0, some .int, .var 0⟩, ⟨1, some .int, .call 0 [0]⟩, ⟨2, some .int, .call 1 [1, 1]⟩,
    ⟨3, some .int, .int 7⟩, ⟨4, some .int, .call 1 [0, 3]⟩]
  vars := #[⟨"x", some .int⟩, ⟨"y", some .int⟩]
  funcs := #[⟨"__neg__", some .int⟩, ⟨"__add__", some .int⟩]

theorem toTrees_encodeForest_sharing :
    ∃ (b b' : Bench) (e : Encoding) (s : Store) (roots : List NodeId),
      Work.buildSeries [.assign 1 2, .ret 4] ⟨.sharing, {}, {}⟩ = .ok () b ∧
      Work.encodeForest (.ofPrefixes []) [1, 0] b = .ok e b' ∧
      e.map (·.id) = [4, 0, 3, 2, 1, 5, 6, 7] ∧ (e.map (·.id)).Nodup ∧
      e.toTrees #[] = .ok (s, roots) ∧ List.Forall₂ (fun entry root =>
        (b.forest.store.tree entry.2).RestoredAs (.ofPrefixes []) (s.tree root))
        b.forest.roots roots := by
  have ids (id : Nat) (v : Value) (found : Program.sharing.values[id]? = some v) : v.id = id := by
    have each : ∀ i : Fin 5, Program.sharing.values[i].id = i := by decide
    obtain ⟨lt, rfl⟩ := Array.getElem?_eq_some_iff.mp found
    exact each ⟨id, lt⟩
  have named : ∀ g ∈ Program.sharing.funcs, g.name ≠ "" := by decide
  have checked : ((result? (Work.buildSeries [.assign 1 2, .ret 4])
      ⟨.sharing, {}, {}⟩).any fun (_, b) =>
        (result? (Work.encodeForest (.ofPrefixes []) [1, 0]) b).any fun (e, _) =>
          decide (e.map (·.id) = [4, 0, 3, 2, 1, 5, 6, 7] ∧
            ∀ r ∈ e, r.Fits)) = true := by
    decide +kernel
  obtain ⟨⟨_, b⟩, built, checked⟩ := Option.any_eq_true _ _ |>.mp checked
  obtain ⟨⟨e, b'⟩, encoded, checked⟩ := Option.any_eq_true _ _ |>.mp checked
  obtain ⟨numbers, fit⟩ := of_decide_eq_true checked
  have built := eq_ok_of_result? built
  have encoded := eq_ok_of_result? encoded
  obtain ⟨nodup, -, -, s, roots, decoded, restored⟩ :=
    (toTrees_encodeForest ids named {}).2 b b' _ _ e built encoded fit
  exact ⟨b, b', e, s, roots, built, encoded, numbers, nodup, decoded, restored⟩

end SecureArith
