import SecureArith.Work

set_option autoImplicit false

/-!
# Expanding powers

`x ^ k` becomes `k - 1` multiplications of copies of `x`, for integer constants `k` from one to
`Failure.maxExponent`. Bases are expanded before their powers.
-/

namespace SecureArith

namespace Store

/-- A product of copies of a tree, nested to the right; `extra` factors besides the first two. -/
def product (base : NodeId) : Nat → StoreM NodeId
  | 0 => do
    let left ← copy base
    let right ← copy base
    append { op := some .mul, left := some left, right := some right }
  | extra + 1 => do
    let right ← product base extra
    let left ← copy base
    append { op := some .mul, left := some left, right := some right }

end Store

namespace Work

def replacePower (id base : NodeId) (k : Nat) : Work Unit := do
  match k with
  | extra + 2 =>
    let product ← onStore (Store.product base extra)
    onStore (Store.overwrite id product)
    noteAt .debug do return .powerExpanded (← shown id)
  | _ => onStore (Store.overwrite id base)

def exponent (power exponent : NodeId) : Work Nat := do
  match (← node exponent).int? with
  | some k =>
    if Failure.maxExponent < k then throw (.exponentTooLarge k (← shown power))
    if k ≤ 0 then throw (.exponentNotPositive k (← shown power))
    return k.toNat
  | none => throw (.exponentNotInteger (← shown power))

/-- Expands every power but those in exponents. The number bounds the depth. -/
def expandPowersTo : Nat → NodeId → Work Bool
  | 0, _ => throw .outOfRange
  | depth + 1, id => do
    let n ← node id
    if n.isLeaf then return false
    if n.isOp .pow then
      match n.left, n.right with
      | some base, some power =>
        let _ ← expandPowersTo depth base
        let k ← exponent id power
        replacePower id base k
        return true
      | _, _ => throw (.noExponent (← shown id))
    else
      let changed ← n.children.mapM (expandPowersTo depth)
      return changed.or

/-- A node with two parents is met again when it has become a product, which is no deeper than the
largest exponent. -/
def expandPowers (id : NodeId) : Work Bool := do
  expandPowersTo ((← get).forest.store.size * Failure.maxExponent.toNat) id

end Work

end SecureArith
