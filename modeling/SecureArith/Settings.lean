import SecureArith.Json.Decoder
import SecureArith.Json.Writer
import SecureArith.TypeName

set_option autoImplicit false

/-!
# Settings

Which transformations are made. A function has to ask for a transformation as well.
-/

namespace SecureArith

open Json (Decoder Fields)

structure Settings where
  factorize : Bool
  reorderPriorities : Bool
  expandPowers : Bool
  reorderMatmuls : Bool
  encodeTrees : Bool
  /-- Types whose names start like this are secure too. -/
  extraSecure : List String
  deriving DecidableEq, Repr

/-- Named settings. -/
inductive Preset where
  | none
  | basic
  | aggressive
  deriving DecidableEq, Repr

namespace Preset

def name : Preset → String
  | .none => "none"
  | .basic => "basic"
  | .aggressive => "aggressive"

def ofName? (name : String) : Option Preset :=
  [Preset.none, .basic, .aggressive].find? (·.name == name)

def toJson (p : Preset) : Json := .str p.name

/-- A name, or an object with that name and nothing. -/
def decode : Decoder Preset
  | _, .str name => ofName? name
  | room, j => Decoder.tagged (fun name _ j =>
      match j with
      | .null => ofName? name
      | _ => Option.none) room j

end Preset

namespace Settings

def ofPreset : Preset → Settings
  | .none => ⟨false, false, false, false, false, []⟩
  | .basic => ⟨true, false, true, false, false, []⟩
  | .aggressive => ⟨true, true, true, true, true, []⟩

def default : Settings := ofPreset .basic

/-- Some transformation changes expressions. -/
def changesTrees (s : Settings) : Bool := s.factorize || s.reorderPriorities || s.expandPowers

def classifier (s : Settings) : Classifier := .ofPrefixes s.extraSecure

def toJson (s : Settings) : Json :=
  .obj [("factorize", .bool s.factorize), ("reorder_priorities", .bool s.reorderPriorities),
    ("expand_powers", .bool s.expandPowers), ("reorder_matmuls", .bool s.reorderMatmuls),
    ("encode_trees", .bool s.encodeTrees), ("extra_secure_prefixes", .ofList .str s.extraSecure)]

def decode : Decoder Settings := fun room j => do
  let f ← Fields.read ["factorize", "reorder_priorities", "expand_powers", "reorder_matmuls",
    "encode_trees", "extra_secure_prefixes"] room j
  return ⟨← f.withDefault 0 default.factorize Decoder.bool,
    ← f.withDefault 1 default.reorderPriorities Decoder.bool,
    ← f.withDefault 2 default.expandPowers Decoder.bool,
    ← f.withDefault 3 default.reorderMatmuls Decoder.bool,
    ← f.withDefault 4 default.encodeTrees Decoder.bool,
    ← f.withDefault 5 default.extraSecure Decoder.string.list⟩

/-- The settings that a saved text holds. What it leaves out is as in `default`. -/
def load (text : String) : Option Settings := decode.ofText text

def save (s : Settings) : String := s.toJson.pretty

end Settings

end SecureArith
