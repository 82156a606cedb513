import Mathlib.Data.List.Nodup
import SecureArith.Forest.Basic

set_option autoImplicit false

/-!
# Registered trees

The registry has a root for each key that it lists, so reading the roots key by key has an answer:
the roots from the latest registration to the earliest. The trees, their nodes and the numbers of
these have one where no index is missing.
-/

namespace SecureArith

theorem lookup_of_mem {α β : Type} [DecidableEq α] {l : List (α × β)} {entry : α × β}
    (keys : (l.map (·.1)).Nodup) (mem : entry ∈ l) : l.lookup entry.1 = some entry.2 := by
  induction l with
  | nil => cases mem
  | cons first l ih =>
    rw [List.map_cons, List.nodup_cons] at keys
    rcases List.mem_cons.mp mem with rfl | mem
    · rw [List.lookup_cons, beq_self_eq_true]
    · have other : entry.1 ≠ first.1 := fun same => keys.1 (same ▸ List.mem_map_of_mem mem)
      rw [List.lookup_cons, beq_false_of_ne other]
      exact ih keys.2 mem

namespace Registry

theorem nodup_keys (r : Registry) : (r.roots.map (·.1)).Nodup := by
  rw [r.listed]
  exact List.nodup_reverse.mpr r.once

theorem eq_of_roots {r r' : Registry} (roots : r.roots = r'.roots) : r = r' := by
  have order : r.order = r'.order := by
    rw [← List.reverse_inj, ← r.listed, roots, r'.listed]
  cases r
  cases r'
  cases roots
  cases order
  rfl

/-- Every key that is listed has a root. -/
theorem entries?_eq (r : Registry) : r.entries? = some r.roots := by
  have each (l : List (TreeKey × NodeId)) (sub : ∀ entry ∈ l, entry ∈ r.roots) :
      (l.map (·.1)).mapM (fun key => (r.root? key).map (key, ·)) = some l := by
    induction l with
    | nil => rfl
    | cons entry l ih =>
      have mem := sub entry List.mem_cons_self
      rw [List.map_cons, List.mapM_cons, ih fun e inside => sub e (List.mem_cons_of_mem _ inside),
        root?, lookup_of_mem r.nodup_keys mem]
      rfl
  rw [entries?, ← r.listed]
  exact each r.roots fun _ mem => mem

end Registry

namespace Forest

variable {f : Forest}

@[simp] theorem roots_add (f : Forest) (key : TreeKey) (root : NodeId) :
    (f.add key root).roots = (key, root) :: f.roots.filter (·.1 != key) := rfl

@[simp] theorem store_add (f : Forest) (key : TreeKey) (root : NodeId) :
    (f.add key root).store = f.store := rfl

/-- The trees of the roots, as far as they are there. -/
def trees (f : Forest) : List (TreeKey × Tree) :=
  f.roots.map fun (key, root) => (key, f.store.tree root)

def nodes (f : Forest) : List NodeId := f.trees.flatMap (·.2.preorder)

def counts (f : Forest) : Nat × Nat := (total f.trees Tree.size, total f.trees Tree.edges)

def complete (f : Forest) : Bool := f.trees.all (·.2.complete)

theorem trees?_eq (f : Forest) : f.trees? = if f.complete then some f.trees else none := by
  have each (l : List (TreeKey × NodeId)) :
      (l.mapM fun entry => if (f.store.tree entry.2).complete
        then some (entry.1, f.store.tree entry.2) else none) =
      if (l.map fun entry => (entry.1, f.store.tree entry.2)).all (·.2.complete)
        then some (l.map fun entry => (entry.1, f.store.tree entry.2)) else none := by
    induction l with
    | nil => rfl
    | cons entry l ih =>
      rw [List.mapM_cons, ih, List.map_cons, List.all_cons]
      cases (f.store.tree entry.2).complete with
      | false => rfl
      | true =>
        cases (l.map fun entry => (entry.1, f.store.tree entry.2)).all (·.2.complete) <;> rfl
  rw [trees?, f.entries?_eq]
  exact each f.roots

theorem nodes?_eq (f : Forest) : f.nodes? = if f.complete then some f.nodes else none := by
  rw [nodes?, trees?_eq]
  split <;> rfl

theorem counts?_eq (f : Forest) : f.counts? = if f.complete then some f.counts else none := by
  rw [counts?, trees?_eq]
  split <;> rfl

end Forest

end SecureArith
