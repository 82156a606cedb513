import SecureArith.Encoding.Basic
import SecureArith.Json.Writer

set_option autoImplicit false

/-!
# Outcomes

What a run over a program has done: counters, a report for each optimized function, and the
encodings by function name.
-/

namespace SecureArith

open Json (Decoder Fields)

structure Stats where
  total : Nat := 0
  optimized : Nat := 0
  encoded : Nat := 0
  failed : Nat := 0
  /-- Values that were computed anew from a changed tree. -/
  regenerated : Nat := 0
  chains : Nat := 0
  deriving DecidableEq, Repr

structure Report where
  name : String
  regenerated : Nat
  chains : Nat
  /-- Size of the forest at the end. -/
  nodes : Nat
  edges : Nat
  deriving DecidableEq, Repr

structure Outcome where
  stats : Stats := {}
  reports : List Report := []
  /-- In the order of their names, each name once. -/
  encodings : List (String × Encoding) := []
  deriving DecidableEq, Repr

namespace Stats

def toJson (s : Stats) : Json :=
  .obj [("total_functions", .nat s.total), ("optimized_functions", .nat s.optimized),
    ("encoded_functions", .nat s.encoded), ("failed_functions", .nat s.failed),
    ("rewritten_instructions", .nat s.regenerated), ("matmul_chains", .nat s.chains)]

def decode : Decoder Stats := fun room j => do
  let f ← Fields.read ["total_functions", "optimized_functions", "encoded_functions",
    "failed_functions", "rewritten_instructions", "matmul_chains"] room j
  return ⟨← f.required 0 Decoder.counter, ← f.required 1 Decoder.counter,
    ← f.required 2 Decoder.counter, ← f.required 3 Decoder.counter,
    ← f.required 4 Decoder.counter, ← f.required 5 Decoder.counter⟩

end Stats

namespace Report

def toJson (r : Report) : Json :=
  .obj [("name", .str r.name), ("rewritten_instructions", .nat r.regenerated),
    ("matmul_chains", .nat r.chains), ("nodes", .nat r.nodes), ("edges", .nat r.edges)]

def decode : Decoder Report := fun room j => do
  let f ← Fields.read ["name", "rewritten_instructions", "matmul_chains", "nodes", "edges"] room j
  return ⟨← f.required 0 Decoder.string, ← f.required 1 Decoder.counter,
    ← f.required 2 Decoder.counter, ← f.required 3 Decoder.counter,
    ← f.required 4 Decoder.counter⟩

end Report

namespace Outcome

/-- Puts an encoding in its place, instead of one of the same name. -/
def insert (name : String) (e : Encoding) : List (String × Encoding) → List (String × Encoding)
  | [] => [(name, e)]
  | (other, e') :: rest =>
    if name < other then (name, e) :: (other, e') :: rest
    else if name = other then (name, e) :: rest
    else (other, e') :: insert name e rest

def toJson (o : Outcome) : Json :=
  .obj [("stats", o.stats.toJson), ("reports", .ofList Report.toJson o.reports),
    ("encodings", .obj (o.encodings.map fun (name, e) => (name, e.toJson)))]

/-- Of encodings of the same name the last one counts. -/
def decodeEncodings : Decoder (List (String × Encoding))
  | room + 1, .obj fields => do
    let pairs ← fields.mapM fun (name, j) => (Encoding.decode room j).map (name, ·)
    return pairs.foldl (fun acc (name, e) => insert name e acc) []
  | _, _ => none

def decode : Decoder Outcome := fun room j => do
  let f ← Fields.read ["stats", "reports", "encodings"] room j
  return ⟨← f.required 0 Stats.decode, ← f.required 1 Report.decode.list,
    ← f.required 2 decodeEncodings⟩

end Outcome

end SecureArith
