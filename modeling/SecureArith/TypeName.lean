set_option autoImplicit false

/-!
# Type names

Types are known by their names only. A `Classifier` says which types are costly to combine and
which encrypted tensors hold ciphertexts or plaintexts.
-/

namespace SecureArith

abbrev TypeName := String

namespace TypeName

def int : TypeName := "int"

def float : TypeName := "float"

/-- Secret-shared tensors. -/
def isShared (name : TypeName) : Bool :=
  name.startsWith "std.sequre.types.sharetensor.Sharetensor"

/-- Homomorphically encrypted tensors. -/
def isEncrypted (name : TypeName) : Bool :=
  name.startsWith "std.sequre.types.ciphertensor.Ciphertensor"

/-- Partitions, aggregates and unions held by several parties. -/
def isMultiparty (name : TypeName) : Bool :=
  name.startsWith "std.sequre.types.multiparty_partition.MPP" ||
    name.startsWith "std.sequre.types.multiparty_aggregate.MPA" ||
    name.startsWith "std.sequre.types.multiparty_union.MPU"

def holdsCiphertext (name : TypeName) : Bool :=
  name.isEncrypted && name.contains "std.sequre.lattiseq.ckks.Ciphertext"

def holdsPlaintext (name : TypeName) : Bool :=
  name.isEncrypted && name.contains "std.sequre.lattiseq.ckks.Plaintext"

end TypeName

structure Classifier where
  /-- Values of this type are costly to combine. -/
  secure : TypeName → Bool
  ciphertext : TypeName → Bool
  plaintext : TypeName → Bool

namespace Classifier

/-- The known containers and every type whose name starts with one of `extra` are secure. -/
def ofPrefixes (extra : List String) : Classifier where
  secure name :=
    name.isShared || name.isEncrypted || name.isMultiparty || extra.any fun p => name.startsWith p
  ciphertext := TypeName.holdsCiphertext
  plaintext := TypeName.holdsPlaintext

/-- The type of an operation on two operands: a ciphertext operand decides first, then a plaintext
operand, then the left one. -/
def combine (c : Classifier) (left right : TypeName) : TypeName :=
  if c.ciphertext left then left
  else if c.ciphertext right then right
  else if c.plaintext left then left
  else if c.plaintext right then right
  else left

end Classifier

end SecureArith
