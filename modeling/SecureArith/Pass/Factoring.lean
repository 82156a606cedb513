import SecureArith.Work

set_option autoImplicit false

/-!
# Factoring sums

`a * x + b * x` becomes `x * (b + a)`, which saves a multiplication. Below an addition the sum goes
on through additions, and the products that are its terms go on through multiplications; the
operands of a product that are no multiplications are its factors. The first factor that equals a
factor of another product is taken out of both.
-/

namespace SecureArith

structure Factor where
  id : NodeId
  tree : Tree
  parent : NodeId
  sibling : NodeId
  /-- The product. -/
  product : NodeId
  /-- The addition that the product is a term of, and the other term of that. -/
  sum : NodeId
  tail : NodeId

/-- The nodes that were visited as factors, and where each of them was met last. -/
structure FactorSearch where
  visited : List NodeId := []
  places : List (NodeId × Factor) := []

inductive SearchEnd where
  | found (later earlier : NodeId)
  | outOfRange

abbrev Search := EStateM SearchEnd FactorSearch

def Factor.matches? (f g : Factor) : Option Bool :=
  pure (g.product != f.product) <&&> f.tree.same? g.tree

namespace FactorSearch

def place? (m : FactorSearch) (id : NodeId) : Option Factor := m.places.lookup id

def met (f : Factor) (m : FactorSearch) : FactorSearch :=
  { m with places := (f.id, f) :: m.places }

/-- The first visited node that is an equal factor of another product. There is no answer when a
visited node has no place or a comparison comes upon a missing index. -/
def twin? (f : Factor) (m : FactorSearch) : Option (Option NodeId) :=
  m.visited.findM? fun id => do f.matches? (← m.place? id)

end FactorSearch

def Factor.visit (f : Factor) : Search Unit := do
  modify (·.met f)
  match (← get).twin? f with
  | none => throw .outOfRange
  | some (some id) => throw (.found f.id id)
  | some none => modify fun m => { m with visited := m.visited ++ [f.id] }

namespace Tree

def visitFactor (parent sibling product sum tail : NodeId) : Tree → Search Unit
  | .nil => return
  | .missing _ => throw .outOfRange
  | .node id label child =>
    if label.isOp .mul then return
    else Factor.visit ⟨id, .node id label child, parent, sibling, product, sum, tail⟩

/-- Visits the factors of a product, those of a multiplication before those further down. -/
def searchProduct (product sum tail : NodeId) : Tree → Search Unit
  | .node id label child => do
    match (child .left).id?, (child .right).id? with
    | some left, some right =>
      if label.isOp .mul then
        (child .left).visitFactor id right product sum tail
        (child .right).visitFactor id left product sum tail
        (child .left).searchProduct product sum tail
        (child .right).searchProduct product sum tail
    | _, _ => return
  | .missing _ => throw .outOfRange
  | .nil => return

def searchSum : Tree → Search Unit
  | .node id label child => do
    match (child .left).id?, (child .right).id? with
    | some left, some right =>
      if label.isOp .add then
        (child .left).searchProduct left id right
        (child .left).searchSum
        (child .right).searchProduct right id left
        (child .right).searchSum
    | _, _ => return
  | _ => return

/-- Equal factors in a sum, the later one first. There is no answer when the search comes upon a
missing index or a factor has no place. -/
def matchingFactors? (t : Tree) : Option (Option (Factor × Factor)) :=
  match t.searchSum {} with
  | .ok _ _ => some none
  | .error (.found later earlier) m => do return some (← m.place? later, ← m.place? earlier)
  | .error .outOfRange _ => none

end Tree

structure Factoring where
  sum : NodeId
  later : Factor
  earlier : Factor

namespace Tree

/-- What can be factored in the first of the topmost sums of a tree. There is no answer when the
search comes upon a missing index. -/
def factoring? : Tree → Option (Option Factoring)
  | .nil => some none
  | .missing _ => none
  | .node id label child => do
    if label.isOp .add then
      let found ← (Tree.node id label child).matchingFactors?
      return found.map fun (later, earlier) => ⟨id, later, earlier⟩
    else
      match ← (child .left).factoring? with
      | some f => return some f
      | none => (child .right).factoring?

end Tree

namespace Store

def takeOut (f : Factor) : StoreM Unit := overwrite f.parent f.sibling

/-- Turns the later product into the factor times the sum of both products. -/
def rejoin (later earlier : Factor) : StoreM Unit := do
  let rest ← copy later.product
  let sum ← append { op := some .add, left := some rest, right := some earlier.product }
  write later.product fun n =>
    { n with op := some .mul, left := some later.id, right := some sum, origin := none,
             memo := none }

/-- Takes the factor out of both products, turns the later product into the factor times the sum of
what is left of both, and drops the earlier product from its addition. -/
def factorOut (f : Factoring) : StoreM Unit := do
  takeOut f.earlier
  takeOut f.later
  rejoin f.later f.earlier
  overwrite f.earlier.sum f.earlier.tail

end Store

namespace Work

def matchingFactors (id : NodeId) : Work (Option (Factor × Factor)) := do
  if !(← node id).isOp .add then throw (.notSum (← shown id))
  demand (← tree id).matchingFactors?

/-- One factoring, in the first of the topmost sums that allows one. -/
def factorOnce (root : NodeId) : Work Bool := do
  match ← demand (← tree root).factoring? with
  | none => return false
  | some f =>
    noteAt .debug do return .factoring (← shown f.later.id) (← shown f.sum)
    onStore (Store.factorOut f)
    noteAt .debug do return .factored (← shown f.sum)
    return true

def factorUpTo (root : NodeId) : Nat → Bool → Work Bool
  | 0, changed => return changed
  | n + 1, changed => do
    if ← factorOnce root then factorUpTo root n true else return changed

/-- Factors until nothing is left to factor; every factoring saves a multiplication, and there are
fewer of these than the bound (`Store.size_unfold_lt`). Types are found again when something
changed. -/
def factorAll (c : Classifier) (root : NodeId) : Work Bool := do
  let changed ← factorUpTo root (1 <<< ((← get).forest.store.size + 1)) false
  if changed then
    let _ ← typeAt c true root
  return changed

end Work

end SecureArith
