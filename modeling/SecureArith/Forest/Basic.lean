import SecureArith.Expr.Edit

set_option autoImplicit false

/-!
# Forests

A forest is a store with the trees that compute the variables of a function, its return value and
its last bare statement. Trees are kept with the most recently registered one first.
-/

namespace SecureArith

inductive TreeKey where
  /-- A statement that assigns nothing. -/
  | none
  | ret
  | var (v : VarId)
  deriving DecidableEq, Repr

namespace TreeKey

def toInt : TreeKey → Int
  | .none => -1
  | .ret => -2
  | .var v => v

def ofInstruction : Instruction → TreeKey
  | .ret _ => .ret
  | .assign target _ => .var target
  | .eval _ => .none

end TreeKey

theorem Registry.listed_nil :
    ([] : List (TreeKey × NodeId)).map (·.1) = ([] : List TreeKey).reverse := rfl

/-- The roots of the trees by their keys, and the keys in the order of registration. Each key is
listed once. -/
structure Registry where
  roots : List (TreeKey × NodeId) := []
  order : List TreeKey := []
  listed : roots.map (·.1) = order.reverse := by first | exact Registry.listed_nil | rfl
  once : order.Nodup := by first | exact List.nodup_nil | decide
  deriving DecidableEq, Repr

namespace Registry

def root? (r : Registry) (key : TreeKey) : Option NodeId := r.roots.lookup key

/-- The keys that stay where they are when a key is registered. -/
def others (r : Registry) (key : TreeKey) : List TreeKey :=
  if (r.root? key).isSome then r.order.filter (· != key) else r.order

theorem mem_order {r : Registry} {key : TreeKey} (mem : key ∈ r.order) :
    (r.root? key).isSome := by
  rw [← List.mem_reverse, ← r.listed] at mem
  obtain ⟨entry, inside, rfl⟩ := List.mem_map.mp mem
  rw [root?, List.lookup_isSome_iff]
  exact ⟨entry, inside, BEq.rfl⟩

theorem others_eq (r : Registry) (key : TreeKey) : r.others key = r.order.filter (· != key) := by
  unfold others
  split
  · rfl
  · rename_i unknown
    refine (List.filter_eq_self.mpr fun k mem => ?_).symm
    rw [bne_iff_ne]
    rintro rfl
    exact unknown (mem_order mem)

/-- Registers a tree as the most recent one, in place of the key's tree. -/
def add (r : Registry) (key : TreeKey) (root : NodeId) : Registry where
  roots := (key, root) :: r.roots.filter (·.1 != key)
  order := r.others key ++ [key]
  listed := by
    rw [others_eq, List.reverse_append, List.map_cons, ← List.filter_reverse, ← r.listed,
      List.filter_map]
    rfl
  once := by
    rw [others_eq, List.nodup_append]
    exact ⟨r.once.filter _, by simp, by simp⟩

/-- The roots with their keys, the most recent first. There is no answer when a key has no root. -/
def entries? (r : Registry) : Option (List (TreeKey × NodeId)) :=
  r.order.reverse.mapM fun key => (r.root? key).map (key, ·)

end Registry

structure Forest extends Registry where
  store : Store := {}
  deriving DecidableEq, Repr

namespace Forest

def add (f : Forest) (key : TreeKey) (root : NodeId) : Forest :=
  { f with toRegistry := f.toRegistry.add key root }

/-- The trees with their keys, the most recent first. There is no answer when one is not all
there. -/
def trees? (f : Forest) : Option (List (TreeKey × Tree)) := do
  (← f.entries?).mapM fun (key, root) =>
    let t := f.store.tree root
    if t.complete then some (key, t) else none

def nodes? (f : Forest) : Option (List NodeId) := f.trees?.map (·.flatMap (·.2.preorder))

def total (trees : List (TreeKey × Tree)) (count : Tree → Nat) : Nat :=
  trees.foldr (fun entry n => count entry.2 + n) 0

def counts? (f : Forest) : Option (Nat × Nat) :=
  f.trees?.map fun trees => (total trees Tree.size, total trees Tree.edges)

end Forest

namespace Store

/-- Puts a copy of the variable's tree, if it has one, in the place of a leaf. -/
def substitute (roots : List (TreeKey × NodeId)) (id : NodeId) (n : Node) : StoreM Unit := do
  match n.var?.bind fun v => roots.lookup (.var v) with
  | some root => overwrite id (← copy root)
  | none => return

/-- Replaces the variables of a tree by copies of their trees, once. The number bounds the
depth. -/
def expandTo (roots : List (TreeKey × NodeId)) : Nat → NodeId → StoreM Unit
  | 0, _ => throw .outOfRange
  | depth + 1, id => do
    let n ← read id
    if n.expanded then return
    if n.isLeaf then substitute roots id n else n.children.forM (expandTo roots depth)
    write id fun n => { n with expanded := true }

def expand (roots : List (TreeKey × NodeId)) (id : NodeId) : StoreM Unit := do
  expandTo roots (← get).size id

end Store

end SecureArith
