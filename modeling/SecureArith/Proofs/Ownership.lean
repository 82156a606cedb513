import Mathlib.Data.List.Pairwise
import Mathlib.Logic.Relation
import SecureArith.Proofs.Planted
import SecureArith.Proofs.Preservation

set_option autoImplicit false

/-!
# Who owns a node

A node is held by a slot: it is the root of a key, or the child of a node on a side. The nodes that
are reached from the registered roots form a forest where none of them is below itself, each is held
by one slot only, and no two keys reach the same node. Registered trees form a forest after every
instruction of a body, and minimizing the next instruction leaves their nodes as they are, also
where it fails.
-/

namespace SecureArith

/-- Where a node may be held. -/
inductive Slot where
  | root (key : TreeKey)
  | child (parent : NodeId) (side : Side)
  deriving DecidableEq, Repr

namespace Store

def Above (s : Store) (k j : NodeId) : Prop := ∃ n side, s.get? k = some n ∧ n.child side = some j

end Store

namespace Forest

/-- The nodes of the trees of a key. -/
def Reaches (f : Forest) (key : TreeKey) (id : NodeId) : Prop :=
  ∃ root, (key, root) ∈ f.roots ∧ Relation.ReflTransGen f.store.Above root id

def Live (f : Forest) (id : NodeId) : Prop := ∃ key, f.Reaches key id

/-- The node is the root of the key, or the child of a live node on the side. -/
def Holds (f : Forest) (slot : Slot) (id : NodeId) : Prop :=
  match slot with
  | .root key => (key, id) ∈ f.roots
  | .child k side => f.Live k ∧ ∃ n, f.store.get? k = some n ∧ n.child side = some id

/-- Live nodes are in the store, none of them is below itself, each is held by one slot only, and
keys reach nodes of their own, each of them from one root. -/
structure Owning (f : Forest) : Prop where
  keys : (f.roots.map (·.1)).Nodup
  inside : ∀ id : Nat, f.Live id → id < f.store.size
  acyclic : ∀ id, f.Live id → ¬ Relation.TransGen f.store.Above id id
  slots : ∀ id, f.Live id → ∃! slot, f.Holds slot id
  apart : ∀ key key' id, f.Reaches key id → f.Reaches key' id → key = key'

end Forest

namespace Tree

variable {id i : NodeId} {label : Label} {child : Side → Tree}

theorem side_eq_of_nodup (nodup : (Tree.node id label child).preorder.Nodup) {side side' : Side}
    (mem : i ∈ (child side).preorder) (mem' : i ∈ (child side').preorder) : side = side' := by
  rw [preorder, List.nodup_cons, List.nodup_append] at nodup
  have apart := nodup.2.2.2
  cases side <;> cases side'
  · rfl
  · exact absurd rfl (apart i mem i mem')
  · exact absurd rfl (apart i mem' i mem)
  · rfl

theorem nodup_child (nodup : (Tree.node id label child).preorder.Nodup) (side : Side) :
    (child side).preorder.Nodup :=
  nodup.sublist (Sub.child side .refl).sublist

end Tree

namespace Store

variable {s : Store} {p : Option NodeId} {root j k k' : NodeId} {n n' : Node} {side side' : Side}
  {t : Tree}

theorem Spans.notMem_tail (h : s.Spans (some root) t) (nodup : t.preorder.Nodup) :
    root ∉ t.preorder.tail := by
  rw [h.preorder_eq] at nodup
  exact (List.nodup_cons.mp nodup).1

theorem Spans.root_mem (h : s.Spans (some root) t) : root ∈ t.preorder := by
  rw [h.preorder_eq]
  exact List.mem_cons_self

theorem Spans.mem_of_above (h : s.Spans p t) (mem : k ∈ t.preorder) (above : s.Above k j) :
    j ∈ t.preorder := by
  obtain ⟨n, side, found, isChild⟩ := above
  exact List.mem_of_mem_tail (h.mem_below mem found isChild)

theorem Spans.mem_of_reached (h : s.Spans (some root) t)
    (reached : Relation.ReflTransGen s.Above root j) : j ∈ t.preorder := by
  induction reached with
  | refl => exact h.root_mem
  | tail _ above ih => exact h.mem_of_above ih above

theorem Spans.height_lt (h : s.Spans (some k) t) (above : s.Above k j) :
    ∃ u, s.Spans (some j) u ∧ u.height < t.height := by
  obtain ⟨n, side, found, isChild⟩ := above
  cases h with
  | @node _ n' child found' children =>
    cases found.symm.trans found'
    refine ⟨child side, isChild ▸ children side, ?_⟩
    rw [Tree.height]
    cases side <;> omega

theorem Spans.height_lt_of_transGen (h : s.Spans (some k) t)
    (below : Relation.TransGen s.Above k j) :
    ∃ u, s.Spans (some j) u ∧ u.height < t.height := by
  induction below with
  | single above => exact h.height_lt above
  | tail _ above ih =>
    obtain ⟨u, spans, lower⟩ := ih
    obtain ⟨v, spans', lower'⟩ := spans.height_lt above
    exact ⟨v, spans', Nat.lt_trans lower' lower⟩

theorem Spans.not_transGen (h : s.Spans (some k) t) : ¬ Relation.TransGen s.Above k k := by
  intro below
  obtain ⟨u, spans, lower⟩ := h.height_lt_of_transGen below
  cases h.unique spans
  exact Nat.lt_irrefl _ lower

/-- Where no node occurs twice, a node has one parent, on one side. -/
theorem Spans.parent_unique (h : s.Spans p t) (nodup : t.preorder.Nodup) (mem : k ∈ t.preorder)
    (found : s.get? k = some n) (isChild : n.child side = some j) (mem' : k' ∈ t.preorder)
    (found' : s.get? k' = some n') (isChild' : n'.child side' = some j) :
    k = k' ∧ side = side' := by
  induction h with
  | nil => exact absurd mem List.not_mem_nil
  | @node id m child foundRoot children ih =>
    have inner := Tree.nodup_child nodup
    -- A child of the root is the root of a subtree, so it is below nothing in there.
    have top {k₀ : NodeId} {n₀ : Node} {side₀ side₁ : Side} (isTop : m.child side₁ = some j)
        (mem₀ : k₀ ∈ (child side₀).preorder) (found₀ : s.get? k₀ = some n₀) {side₂ : Side}
        (isChild₀ : n₀.child side₂ = some j) : False := by
      have below := (children side₀).mem_below mem₀ found₀ isChild₀
      have spans : s.Spans (some j) (child side₁) := isTop ▸ children side₁
      have same := Tree.side_eq_of_nodup nodup spans.root_mem (List.mem_of_mem_tail below)
      subst same
      exact spans.notMem_tail (inner side₁) below
    rw [Tree.mem_preorder_node .left] at mem mem'
    have sides {i : NodeId} (mem : i ∈ (child .left).preorder ∨
        i ∈ (child Side.left.flip).preorder) : ∃ side, i ∈ (child side).preorder :=
      mem.elim (fun h => ⟨.left, h⟩) fun h => ⟨.right, h⟩
    rcases mem with rfl | mem
    · cases found.symm.trans foundRoot
      rcases mem' with rfl | mem'
      · cases found'.symm.trans foundRoot
        have spans : s.Spans (some j) (child side) := isChild ▸ children side
        have spans' : s.Spans (some j) (child side') := isChild' ▸ children side'
        exact ⟨rfl, Tree.side_eq_of_nodup nodup spans.root_mem spans'.root_mem⟩
      · obtain ⟨side₀, mem'⟩ := sides mem'
        exact (top isChild mem' found' isChild').elim
    · obtain ⟨side₀, mem⟩ := sides mem
      rcases mem' with rfl | mem'
      · cases found'.symm.trans foundRoot
        exact (top isChild' mem found isChild).elim
      · obtain ⟨side₁, mem'⟩ := sides mem'
        have below := List.mem_of_mem_tail ((children side₀).mem_below mem found isChild)
        have below' := List.mem_of_mem_tail ((children side₁).mem_below mem' found' isChild')
        cases Tree.side_eq_of_nodup nodup below below'
        exact ih side₀ (inner side₀) mem mem'

end Store

namespace Forest

variable {good : Tree → Prop} {f : Forest} {key key' : TreeKey} {root root' id j : NodeId}
  {t t' : Tree}

theorem Planted.entry_eq (h : f.Planted good) (mem : (key, root) ∈ f.roots)
    (mem' : (key', root') ∈ f.roots) (owned : f.store.Owned (some root) t)
    (owned' : f.store.Owned (some root') t') (inside : id ∈ t.preorder)
    (inside' : id ∈ t'.preorder) : key = key' ∧ root = root' := by
  have nodup := h.nodup
  rw [nodes_eq, List.nodup_flatMap] at nodup
  have : Std.Symm (Function.onFun List.Disjoint fun entry : TreeKey × NodeId =>
      (f.store.tree entry.2).preorder) := ⟨fun _ _ h _ left right => h right left⟩
  by_contra other
  have ne : (key, root) ≠ (key', root') := fun eq => other (Prod.mk.inj eq)
  have disjoint := nodup.2.forall mem mem' ne
  simp only [Function.onFun, owned.tree_eq, owned'.tree_eq] at disjoint
  exact disjoint inside inside'

theorem Planted.exists_tree (h : f.Planted good) (reaches : f.Reaches key id) :
    ∃ root t, (key, root) ∈ f.roots ∧ f.store.Owned (some root) t ∧ id ∈ t.preorder := by
  obtain ⟨root, mem, reached⟩ := reaches
  obtain ⟨t, owned, -⟩ := h.trees _ mem
  exact ⟨root, t, mem, owned, owned.spans.mem_of_reached reached⟩

theorem exists_holds (live : f.Live id) : ∃ slot, f.Holds slot id := by
  obtain ⟨key, root, mem, reached⟩ := live
  cases reached with
  | refl => exact ⟨.root key, mem⟩
  | @tail k _ above isChild =>
    obtain ⟨n, side, found, isChild⟩ := isChild
    exact ⟨.child k side, ⟨key, root, mem, above⟩, n, found, isChild⟩

/-- The slot holds the node in the tree of a key: as the root, or below some node. -/
def HoldsIn (key : TreeKey) (root : NodeId) (t : Tree) (slot : Slot) (id : NodeId) : Prop :=
  match slot with
  | .root key' => key' = key ∧ id = root
  | .child k _ => k ∈ t.preorder ∧ id ∈ t.preorder.tail

theorem Planted.exists_holdsIn (h : f.Planted good) {slot : Slot} (holds : f.Holds slot id) :
    ∃ key root t, (key, root) ∈ f.roots ∧ f.store.Owned (some root) t ∧ id ∈ t.preorder ∧
      HoldsIn key root t slot id := by
  cases slot with
  | root key =>
    obtain ⟨t, owned, -⟩ := h.trees _ holds
    exact ⟨key, id, t, holds, owned, owned.spans.root_mem, rfl, rfl⟩
  | child k side =>
    obtain ⟨⟨key, reaches⟩, n, found, isChild⟩ := holds
    obtain ⟨root, t, mem, owned, inside⟩ := h.exists_tree reaches
    have below := owned.spans.mem_below inside found isChild
    exact ⟨key, root, t, mem, owned, List.mem_of_mem_tail below, inside, below⟩

theorem Planted.slot_unique (h : f.Planted good) {slot slot' : Slot} (holds : f.Holds slot id)
    (holds' : f.Holds slot' id) : slot = slot' := by
  obtain ⟨key, root, t, mem, owned, inside, place⟩ := h.exists_holdsIn holds
  obtain ⟨key', root', t', mem', owned', inside', place'⟩ := h.exists_holdsIn holds'
  obtain ⟨rfl, rfl⟩ := h.entry_eq mem mem' owned owned' inside inside'
  cases owned.spans.unique owned'.spans
  have notBelow := owned.spans.notMem_tail owned.nodup
  cases slot with
  | root =>
    obtain ⟨rfl, rfl⟩ := place
    cases slot' with
    | root =>
      obtain ⟨rfl, -⟩ := place'
      rfl
    | child => exact absurd place'.2 notBelow
  | child k side =>
    obtain ⟨-, n, found, isChild⟩ := holds
    cases slot' with
    | root =>
      obtain ⟨-, rfl⟩ := place'
      exact absurd place.2 notBelow
    | child k' side' =>
      obtain ⟨-, n', found', isChild'⟩ := holds'
      obtain ⟨rfl, rfl⟩ := owned.spans.parent_unique owned.nodup place.1 found isChild place'.1
        found' isChild'
      rfl

/-- The live nodes of a planted forest form a forest. -/
theorem Planted.owning (h : f.Planted good) : f.Owning where
  keys := h.keys
  inside id live := by
    obtain ⟨key, reaches⟩ := live
    obtain ⟨root, t, -, owned, inside⟩ := h.exists_tree reaches
    exact owned.spans.lt_size id inside
  acyclic id live := by
    obtain ⟨key, reaches⟩ := live
    obtain ⟨root, t, -, owned, inside⟩ := h.exists_tree reaches
    obtain ⟨u, spans, -⟩ := owned.spans.exists_at inside
    exact spans.not_transGen
  slots id live := by
    obtain ⟨slot, holds⟩ := exists_holds live
    exact ⟨slot, holds, fun slot' holds' => h.slot_unique holds' holds⟩
  apart key key' id reaches reaches' := by
    obtain ⟨root, t, mem, owned, inside⟩ := h.exists_tree reaches
    obtain ⟨root', t', mem', owned', inside'⟩ := h.exists_tree reaches'
    exact (h.entry_eq mem mem' owned owned' inside inside').1

/-- The nodes of the registered trees are the same in another store. -/
def KeptIn (f : Forest) (s : Store) : Prop := ∀ id, f.Live id → s.get? id = f.store.get? id

theorem Planted.keptIn (h : f.Planted good) {s : Store} (turns : f.store.Turns .nil s t) :
    f.KeptIn s :=
  fun id live => turns.frame id (h.owning.inside id live) List.not_mem_nil

end Forest

namespace Work

variable {s : Settings} {p : Program} {b : Bench} {i : Instruction} {trees : VarId → Option Tree}

/-- A bench on which a body is minimized. -/
def Ready (s : Settings) (p : Program) (b : Bench) : Prop :=
  b.forest.Planted (fun _ => True) ∧ ∃ trees, b.Keeps s.classifier p trees

theorem ends_minimizeInstruction_ready (wf : p.WellFormed) (ready : Ready s p b)
    (lt : i.value < p.values.size) :
    Ends (minimizeInstruction s i) b
      (fun _ b' => Ready s p b' ∧ b.forest.KeptIn b'.forest.store)
      fun _ b' => b.forest.KeptIn b'.forest.store := by
  obtain ⟨planted, trees, keeps⟩ := ready
  apply (ends_minimizeInstruction Interpretation.arithmetic_integers wf keeps lt).imp
  · rintro m b' ⟨tree, registers⟩
    have forest := registers.forest
    cases tree with
    | none =>
      have same : b'.forest = { b.forest with store := b'.forest.store } := by
        simp only [← Registry.eq_of_roots forest.roots]
      refine ⟨⟨?_, _, registers.keeps⟩, planted.keptIn forest.turns⟩
      rw [same]
      exact planted.mono forest.turns
    | some t =>
      obtain ⟨root, added, owned, turns⟩ := forest
      refine ⟨⟨?_, _, registers.keeps⟩, planted.keptIn turns⟩
      rw [added]
      exact planted.add trivial owned turns (.ofInstruction i)
  · intro e b' abandons
    exact planted.keptIn abandons.kept.turns

theorem ends_minimizeBody_ready {body : List Instruction} (wf : p.WellFormed)
    (ready : Ready s p b) (inside : ∀ i ∈ body, i.value < p.values.size) :
    Ends (minimizeBody s body) b (fun _ b' => Ready s p b') fun _ _ => True := by
  induction body generalizing b with
  | nil => exact ready
  | cons i rest ih =>
    rw [minimizeBody, Ends.bind_iff]
    apply (ends_minimizeInstruction_ready wf ready (inside i List.mem_cons_self)).imp
    · rintro m b₁ ⟨ready₁, _⟩
      rw [Ends.bind_iff]
      exact ih ready₁ fun j mem => inside j (List.mem_cons_of_mem i mem)
    · exact fun _ _ _ => trivial

end Work

/-- After any number of instructions of a body the registered trees form a forest, and minimizing
the next one, whether it succeeds or fails, leaves all their nodes as they are. -/
theorem owning_minimizeBody {s : Settings} {p : Program} {f : Function} {journal : Journal}
    {before after : List Instruction} {out : List Instruction × Nat} {b : Bench}
    (described : p.Described) (mem : f ∈ p.functions) (split : f.body = before ++ after)
    (run : Work.minimizeBody s before ⟨p, {}, journal⟩ = .ok out b) :
    b.forest.Owning ∧ ∀ i ∈ after.head?,
      Ends (Work.minimizeInstruction s i) b (fun _ b' => b.forest.KeptIn b'.forest.store)
        fun _ b' => b.forest.KeptIn b'.forest.store := by
  have sound := described.sound
  have inside := sound.bodies f mem
  rw [split] at inside
  have start : Work.Ready s p ⟨p, {}, journal⟩ :=
    ⟨Forest.planted_empty _, _, Bench.keeps_empty s.classifier p journal⟩
  have ready := (Work.ends_minimizeBody_ready sound.toWellFormed start fun i inBefore =>
    inside i (List.mem_append_left _ inBefore)).of_ok run
  refine ⟨ready.1.owning, fun i next => ?_⟩
  have inAfter : i ∈ after := List.mem_of_mem_head? next
  apply (Work.ends_minimizeInstruction_ready sound.toWellFormed ready
    (inside i (List.mem_append_right _ inAfter))).imp
  · exact fun _ _ h => h.2
  · exact fun _ _ h => h

/-- Two variables with trees, the second one computed from the first, and a power that cannot be
expanded. -/
def Description.unexpandable : Description where
  vars := ["x", "y", "z"].map fun name => ⟨name, some .int⟩
  operators := ["__add__", "__mul__", "__pow__"].map fun name => ⟨.int, name, [.int, .int], .int⟩
  functions := [{
    name := "f"
    mpc := none
    params := ["x", "y", "z"]
    attributes := { minimize := true }
    body := [
      .assign "s" (.call "__add__" [.call "__mul__" [.var "x", .var "y"],
        .call "__mul__" [.var "x", .var "z"]]),
      .assign "t" (.call "__pow__" [.var "s", .int 2]),
      .ret (.call "__mul__" [.var "t", .call "__pow__" [.var "s", .var "x"]])] }]

theorem owning_minimizeBody_unexpandable :
    ∃ (p : Program) (f : Function) (before : List Instruction) (i : Instruction)
      (out : List Instruction × Nat) (b b' : Bench) (e : Failure),
      Description.unexpandable.lower = .ok p ∧ f ∈ p.functions ∧ f.body = before ++ [i] ∧
      Work.minimizeBody (.ofPreset .basic) before ⟨p, {}, {}⟩ = .ok out b ∧
      b.forest.nodes.length = 16 ∧ b.forest.Owning ∧
      Work.minimizeInstruction (.ofPreset .basic) i b = .error e b' ∧
      b.forest.store.size < b'.forest.store.size ∧ b.forest.KeptIn b'.forest.store := by
  have checked : (Description.unexpandable.first?.any fun (p, f) =>
      (result? (Work.minimizeBody (.ofPreset .basic) (f.body.take 2)) ⟨p, {}, {}⟩).any fun (_, b) =>
        f.body[2]?.any fun i =>
          match Work.minimizeInstruction (.ofPreset .basic) i b with
          | .ok _ _ => false
          | .error _ b' => decide (f.body = f.body.take 2 ++ [i] ∧ b.forest.nodes.length = 16 ∧
              b.forest.store.size < b'.forest.store.size)) = true := by
    decide +kernel
  obtain ⟨⟨p, f⟩, isFirst, checked⟩ := Option.any_eq_true _ _ |>.mp checked
  obtain ⟨⟨out, b⟩, result, checked⟩ := Option.any_eq_true _ _ |>.mp checked
  obtain ⟨i, -, checked⟩ := Option.any_eq_true _ _ |>.mp checked
  obtain ⟨lowered, mem⟩ := Description.lower_of_first? isFirst
  cases fails : Work.minimizeInstruction (.ofPreset .basic) i b with
  | ok m b' => simp [fails] at checked
  | error e b' =>
    simp only [fails] at checked
    obtain ⟨split, nodes, grown⟩ := of_decide_eq_true checked
    have run := eq_ok_of_result? result
    obtain ⟨owning, next⟩ := owning_minimizeBody ⟨_, lowered⟩ mem split run
    have kept := (next i rfl).of_error fails
    exact ⟨p, f, _, i, out, b, b', e, lowered, mem, split, run, nodes, owning, fails, grown, kept⟩

end SecureArith
