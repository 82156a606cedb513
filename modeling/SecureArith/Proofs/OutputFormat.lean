import Mathlib.Tactic.MkIffOfInductiveProp
import SecureArith.Outcome
import SecureArith.Proofs.Json.Reading

set_option autoImplicit false

/-!
# The output format

The outcome of a run is written as JSON, compact or laid out, and read back from either text. The
records of an encoding stand there as arrays of seven items. Every encoding that some text holds
is read back from its own text, too.

`Json.Codes` says of one value that its JSON is written without loss and decoded to the value; it
is established from the scalars upwards, one lemma for each level of the format.
-/

namespace SecureArith

namespace Json

def IsSigned (n : Int) : Prop := Numeral.minSigned ≤ n ∧ n ≤ Numeral.maxSigned
  deriving Decidable

/-- A number that fits an unsigned machine word: it is less than the 64th power of two. -/
def IsUnsigned (n : Nat) : Prop := n ≤ Numeral.maxUnsigned
  deriving Decidable

theorem isSigned_of_decode {room : Nat} {j : Json} {n : Int}
    (h : Decoder.signed room j = some n) : IsSigned n := by
  rw [Decoder.signed, Decoder.integer.eq_def] at h
  split at h
  · split at h
    · rename_i inside
      cases h
      exact inside
    · cases h
  · cases h

/-- A decoder that may open a number of levels finds a value in the JSON that stands for it, and
this JSON survives being written. -/
structure Codes {α : Type} (toJson : α → Json) (d : Decoder α) (levels : Nat) (a : α) : Prop where
  writable : (toJson a).Writable
  decodes : ∀ room, levels ≤ room → d room (toJson a) = some a

namespace Codes

variable {α : Type} {toJson : α → Json} {d : Decoder α} {levels : Nat} {a : α}

theorem ofText_written (h : Codes toJson d levels a) (le : levels ≤ maxDepth)
    {write : Json → String} (hw : write ∈ [compact, pretty]) :
    d.ofText (write (toJson a)) = some a := by
  rw [Decoder.ofText, parse_written hw h.writable, Option.bind_some, h.decodes maxDepth le]

theorem string (s : String) : Codes .str Decoder.string 0 s := ⟨trivial, fun _ _ => rfl⟩

theorem signed {n : Int} (h : IsSigned n) : Codes .int Decoder.signed 0 n where
  writable := ⟨h.1, Int.le_trans h.2 (by decide)⟩
  decodes _ _ := if_pos h

theorem counter {n : Nat} (h : IsUnsigned n) : Codes .nat Decoder.counter 0 n where
  writable := by
    constructor
    · exact Int.le_trans (by decide : Numeral.minSigned ≤ 0) (Int.natCast_nonneg n)
    · exact Int.ofNat_le.mpr h
  decodes room _ := by
    have inside : (0 : Int) ≤ n ∧ (n : Int) ≤ ((1 <<< 64 : Nat) - 1) :=
      ⟨Int.natCast_nonneg n, Int.ofNat_le.mpr h⟩
    rw [Decoder.counter, Decoder.natural, Json.nat, Decoder.integer, if_pos inside]
    rfl

theorem list {items : List α} (h : ∀ a ∈ items, Codes toJson d levels a) :
    Codes (.ofList toJson) d.list (levels + 1) items where
  writable := by
    show WritableItems (items.map toJson)
    induction items with
    | nil => trivial
    | cons a items ih =>
      exact ⟨(h a List.mem_cons_self).writable, ih fun b hb => h b (List.mem_cons_of_mem a hb)⟩
  decodes room le := by
    obtain ⟨room, rfl⟩ := Nat.exists_eq_add_of_le' (Nat.le_trans (Nat.le_add_left 1 levels) le)
    show (items.map toJson).mapM (d room) = some items
    induction items with
    | nil => rfl
    | cons a items ih =>
      have head := (h a List.mem_cons_self).decodes room (Nat.le_of_succ_le_succ le)
      rw [List.map_cons, List.mapM_cons, head, ih fun b hb => h b (List.mem_cons_of_mem a hb)]
      rfl

end Codes

end Json

open Json (IsSigned IsUnsigned isSigned_of_decode Codes Decoder Fields)

@[mk_iff] structure Record.InRange (r : Record) : Prop where
  id : IsSigned r.id
  left : IsSigned r.left
  right : IsSigned r.right
  param : IsSigned r.param
  var : IsSigned r.var

@[mk_iff] structure Stats.InRange (s : Stats) : Prop where
  total : IsUnsigned s.total
  optimized : IsUnsigned s.optimized
  encoded : IsUnsigned s.encoded
  failed : IsUnsigned s.failed
  regenerated : IsUnsigned s.regenerated
  chains : IsUnsigned s.chains

@[mk_iff] structure Report.InRange (r : Report) : Prop where
  regenerated : IsUnsigned r.regenerated
  chains : IsUnsigned r.chains
  nodes : IsUnsigned r.nodes
  edges : IsUnsigned r.edges

/-- All numbers fit their machine words, and the encodings are a map in the order of its names. -/
@[mk_iff] structure Outcome.InRange (o : Outcome) : Prop where
  stats : o.stats.InRange
  reports : ∀ r ∈ o.reports, r.InRange
  records : ∀ p ∈ o.encodings, ∀ r ∈ p.2, r.InRange
  ascending : o.encodings.Pairwise (·.1 < ·.1)

instance (r : Record) : Decidable r.InRange := decidable_of_iff _ r.inRange_iff.symm

instance (s : Stats) : Decidable s.InRange := decidable_of_iff _ s.inRange_iff.symm

instance (r : Report) : Decidable r.InRange := decidable_of_iff _ r.inRange_iff.symm

instance (o : Outcome) : Decidable o.InRange := decidable_of_iff _ o.inRange_iff.symm

theorem Record.InRange.codes {r : Record} (h : r.InRange) :
    Codes Record.toJson Record.decode 1 r where
  writable := ⟨(Codes.signed h.id).writable, (Codes.signed h.left).writable,
    (Codes.signed h.right).writable, (Codes.signed h.param).writable,
    (Codes.signed h.var).writable, trivial, trivial, trivial⟩
  decodes room le := by
    obtain ⟨room, rfl⟩ := Nat.exists_eq_add_of_le' le
    have decodes {n : Int} (signed : IsSigned n) : Decoder.signed room (.int n) = some n :=
      (Codes.signed signed).decodes room (Nat.zero_le room)
    simp only [Record.toJson, Record.decode, decodes h.id, decodes h.left, decodes h.right,
      decodes h.param, decodes h.var]
    rfl

theorem Record.inRange_of_decode {room : Nat} {j : Json} {r : Record}
    (h : Record.decode room j = some r) : r.InRange := by
  rw [Record.decode.eq_def] at h
  split at h
  · simp only [Option.pure_def, Option.bind_eq_bind, Option.bind_eq_some_iff,
      Option.some.injEq] at h
    obtain ⟨id, hid, left, hleft, right, hright, param, hparam, var, hvar, -, -, -, -, rfl⟩ := h
    exact ⟨isSigned_of_decode hid, isSigned_of_decode hleft, isSigned_of_decode hright,
      isSigned_of_decode hparam, isSigned_of_decode hvar⟩
  · cases h

theorem Stats.InRange.codes {s : Stats} (h : s.InRange) : Codes Stats.toJson Stats.decode 1 s where
  writable := ⟨(Codes.counter h.total).writable, (Codes.counter h.optimized).writable,
    (Codes.counter h.encoded).writable, (Codes.counter h.failed).writable,
    (Codes.counter h.regenerated).writable, (Codes.counter h.chains).writable, trivial⟩
  decodes room le := by
    obtain ⟨room, rfl⟩ := Nat.exists_eq_add_of_le' le
    have decodes {n : Nat} (small : IsUnsigned n) : Decoder.counter room (.nat n) = some n :=
      (Codes.counter small).decodes room (Nat.zero_le room)
    simp [Stats.toJson, Stats.decode, Fields.read, Fields.lookup, Fields.required, Fields.value?,
      decodes h.total, decodes h.optimized, decodes h.encoded, decodes h.failed,
      decodes h.regenerated, decodes h.chains]

theorem Report.InRange.codes {r : Report} (h : r.InRange) :
    Codes Report.toJson Report.decode 1 r where
  writable := ⟨trivial, (Codes.counter h.regenerated).writable, (Codes.counter h.chains).writable,
    (Codes.counter h.nodes).writable, (Codes.counter h.edges).writable, trivial⟩
  decodes room le := by
    obtain ⟨room, rfl⟩ := Nat.exists_eq_add_of_le' le
    have decodes {n : Nat} (small : IsUnsigned n) : Decoder.counter room (.nat n) = some n :=
      (Codes.counter small).decodes room (Nat.zero_le room)
    simp [Report.toJson, Report.decode, Fields.read, Fields.lookup, Fields.required, Fields.value?,
      Decoder.string, decodes h.regenerated, decodes h.chains, decodes h.nodes, decodes h.edges]

theorem Encoding.codes {e : Encoding} (h : ∀ r ∈ e, r.InRange) :
    Codes Encoding.toJson Encoding.decode 2 e :=
  Codes.list fun r hr => (h r hr).codes

theorem Encoding.inRange_of_decode {room : Nat} {j : Json} {e : Encoding}
    (h : Encoding.decode room j = some e) : ∀ r ∈ e, r.InRange := by
  unfold Encoding.decode Decoder.list at h
  split at h
  · rename_i room items
    induction items generalizing e with
    | nil =>
      cases h
      rintro _ ⟨⟩
    | cons item items ih =>
      simp only [List.mapM_cons, Option.pure_def, Option.bind_eq_bind, Option.bind_eq_some_iff,
        Option.some.injEq] at h
      obtain ⟨r, head, e, tail, rfl⟩ := h
      intro r' hr'
      rcases List.mem_cons.mp hr' with rfl | hr'
      · exact Record.inRange_of_decode head
      · exact ih tail r' hr'
  · cases h

namespace Outcome

variable {name : String} {e : Encoding} {acc encodings : List (String × Encoding)}

theorem insert_of_forall_lt (h : ∀ p ∈ encodings, p.1 < name) :
    insert name e encodings = encodings ++ [(name, e)] := by
  induction encodings with
  | nil => rfl
  | cons p encodings ih =>
    have lt : p.1 < name := h p List.mem_cons_self
    have ne : name ≠ p.1 := fun eq => String.lt_irrefl _ (eq ▸ lt)
    rw [insert, if_neg (String.lt_asymm lt), if_neg ne,
      ih fun q hq => h q (List.mem_cons_of_mem p hq)]
    rfl

/-- Encodings in the order of their names are kept as they are. -/
theorem foldl_insert_of_ascending (h : (acc ++ encodings).Pairwise (·.1 < ·.1)) :
    encodings.foldl (fun acc p => insert p.1 p.2 acc) acc = acc ++ encodings := by
  induction encodings generalizing acc with
  | nil => exact (List.append_nil acc).symm
  | cons p encodings ih =>
    have lt : ∀ q ∈ acc, q.1 < p.1 := fun q hq =>
      (List.pairwise_append.mp h).2.2 q hq p List.mem_cons_self
    have eq : acc ++ p :: encodings = acc ++ [p] ++ encodings := (List.append_cons _ _ _)
    rw [List.foldl_cons, insert_of_forall_lt lt, eq, ih (eq ▸ h)]

theorem codes_encodings (records : ∀ p ∈ encodings, ∀ r ∈ p.2, r.InRange)
    (ascending : encodings.Pairwise (·.1 < ·.1)) :
    Codes (fun encodings => .obj (encodings.map fun p => (p.1, p.2.toJson))) decodeEncodings 3
      encodings where
  writable := by
    clear ascending
    show Json.WritableFields (encodings.map fun p => (p.1, p.2.toJson))
    induction encodings with
    | nil => trivial
    | cons p encodings ih =>
      exact ⟨(Encoding.codes (records p List.mem_cons_self)).writable,
        ih fun q hq => records q (List.mem_cons_of_mem p hq)⟩
  decodes room le := by
    obtain ⟨room, rfl⟩ := Nat.exists_eq_add_of_le' (Nat.le_trans (by decide : 1 ≤ 3) le)
    have found : (encodings.map fun p => (p.1, p.2.toJson)).mapM
        (fun p => (Encoding.decode room p.2).map (p.1, ·)) = some encodings := by
      clear ascending
      induction encodings with
      | nil => rfl
      | cons p encodings ih =>
        have head := (Encoding.codes (records p List.mem_cons_self)).decodes room
          (Nat.le_of_succ_le_succ le)
        rw [List.map_cons, List.mapM_cons, head,
          ih fun q hq => records q (List.mem_cons_of_mem p hq)]
        rfl
    have kept : encodings.foldl (fun acc p => insert p.1 p.2 acc) [] = encodings :=
      foldl_insert_of_ascending ascending
    exact (congrArg (·.bind fun pairs => some (pairs.foldl (fun acc p => insert p.1 p.2 acc) []))
      found).trans (congrArg some kept)

theorem InRange.codes {o : Outcome} (h : o.InRange) : Codes toJson decode 4 o where
  writable := ⟨h.stats.codes.writable,
    (Codes.list fun r hr => (h.reports r hr).codes).writable,
    (codes_encodings h.records h.ascending).writable, trivial⟩
  decodes room le := by
    obtain ⟨room, rfl⟩ := Nat.exists_eq_add_of_le' (Nat.le_trans (by decide : 1 ≤ 4) le)
    have le := Nat.le_of_succ_le_succ le
    have stats := h.stats.codes.decodes room (Nat.le_trans (by decide) le)
    have reports := (Codes.list fun r hr => (h.reports r hr).codes).decodes room
      (Nat.le_trans (by decide) le)
    have encodings := (codes_encodings h.records h.ascending).decodes room le
    simp [toJson, decode, Fields.read, Fields.lookup, Fields.required, Fields.value?, stats,
      reports, encodings]

end Outcome

/-- An outcome is read back from its text, compact or laid out. The text holds each record as an
array of its seven fields in order. An encoding that any text holds is read back from its own text,
compact or laid out. -/
theorem output_round_trips (o : Outcome) (h : o.InRange) (write : Json → String)
    (hw : write ∈ [Json.compact, Json.pretty]) :
    Outcome.decode.ofText (write o.toJson) = some o ∧
    Json.parse (write o.toJson) = some (.obj [
      ("stats", o.stats.toJson),
      ("reports", .arr (o.reports.map Report.toJson)),
      ("encodings", .obj (o.encodings.map fun p => (p.1, .arr (p.2.map fun r =>
        .arr [.int r.id, .int r.left, .int r.right, .int r.param, .int r.var,
          .str r.operator, .str r.type]))))]) ∧
    ∀ text e, Encoding.decode.ofText text = some e →
      Encoding.decode.ofText (write e.toJson) = some e := by
  refine ⟨h.codes.ofText_written (by decide) hw, Json.parse_written hw h.codes.writable, ?_⟩
  intro text e decoded
  obtain ⟨j, -, decoded⟩ := Option.bind_eq_some_iff.mp decoded
  exact (Encoding.codes (Encoding.inRange_of_decode decoded)).ofText_written (by decide) hw

/-- Names with a quote, a backslash, control characters and letters beyond ASCII, and numbers at
the ends of their ranges. -/
def Outcome.extreme : Outcome where
  stats := { total := Json.Numeral.maxUnsigned }
  reports := [⟨"a\"\\\n", 0, 1, Json.Numeral.maxUnsigned, 3⟩]
  encodings := [("", []),
    ("a\"\\\n", [⟨0, -1, -1, -1, Json.Numeral.minSigned, "", "mpc\u0001"⟩,
      ⟨Json.Numeral.maxSigned, 0, 0, -1, -1, "é😀", "/"⟩])]

theorem output_round_trips_extreme :
    Outcome.extreme.InRange ∧
      Outcome.decode.ofText Outcome.extreme.toJson.compact = some Outcome.extreme ∧
      Outcome.decode.ofText Outcome.extreme.toJson.pretty = some Outcome.extreme := by
  have inRange : Outcome.extreme.InRange := by decide
  exact ⟨inRange, (output_round_trips Outcome.extreme inRange Json.compact (by simp)).1,
    (output_round_trips Outcome.extreme inRange Json.pretty (by simp)).1⟩

end SecureArith
