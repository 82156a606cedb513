import SecureArith.Proofs.Encode

set_option autoImplicit false

/-!
# Numbers of nodes

The first node that was made from a value has the number of that value. The nodes that repeat a
value are numbered one after the other from the first number that no value has.
-/

namespace SecureArith

namespace Encoding

variable {s : Store} {values : Nat} {order done rest : List NodeId} {id : NodeId} {m : Naming}

def valueAt (s : Store) (id : NodeId) : Option ValueId := ((s.get? id).bind (·.origin)).map (·.id)

def before (order : List NodeId) (id : NodeId) : List NodeId := order.takeWhile (· != id)

/-- A node that comes before was made from the same value. -/
def repeated (s : Store) (order : List NodeId) (id : NodeId) : Bool :=
  (before order id).any fun j => valueAt s j == valueAt s id

/-- How many nodes that come before repeat a value. -/
def repetitions (s : Store) (order : List NodeId) (id : NodeId) : Nat :=
  (before order id).countP (repeated s order)

/-- The number of a node, where no value has a number from `values` on. -/
def number (s : Store) (values : Nat) (order : List NodeId) (id : NodeId) : Nat :=
  if repeated s order id then values + repetitions s order id else (valueAt s id).getD values

theorem valueAt_eq {n : Node} {v : Value} (found : s.get? id = some n)
    (origin : n.origin = some (.ofValue v)) : valueAt s id = some v.id := by
  rw [valueAt, found, Option.bind_some, origin]
  rfl

theorem before_eq (nodup : (done ++ id :: rest).Nodup) : before (done ++ id :: rest) id = done := by
  have other (j : NodeId) (mem : j ∈ done) : (j != id) = true :=
    bne_iff_ne.mpr ((List.nodup_append.mp nodup).2.2 j mem id List.mem_cons_self)
  rw [before, List.takeWhile_append_of_pos other, List.takeWhile_cons_of_neg (by simp),
    List.append_nil]

/-- What naming has come to after some of the nodes. -/
structure NumberedTo (s : Store) (values : Nat) (order : List NodeId) (m : Naming)
    (done : List NodeId) : Prop where
  names : ∀ id ∈ done, m.names.lookup id = some (number s values order id : Int)
  others : ∀ id ∉ done, m.names.lookup id = none
  taken : ∀ a < values, (a : Int) ∈ m.taken ↔ ∃ j ∈ done, valueAt s j = some a
  free : m.free = (values + done.countP (repeated s order) : Nat)

theorem NumberedTo.give {free : Int} (h : NumberedTo s values order m done) (new : id ∉ done)
    (taken : ∀ a < values, (a : Int) = number s values order id ∨ (a : Int) ∈ m.taken ↔
      ∃ j ∈ done ++ [id], valueAt s j = some a)
    (isFree : free = (values + (done ++ [id]).countP (repeated s order) : Nat)) :
    NumberedTo s values order { m.give id (number s values order id) with free }
      (done ++ [id]) := by
  have unnamed : (m.names.lookup id).isSome = false := by rw [h.others id new, Option.isSome_none]
  refine ⟨fun j mem => ?_, fun j away => ?_, fun a lt => ?_, isFree⟩
  · dsimp only
    rw [Naming.lookup_give unnamed]
    split
    · rename_i same
      rw [same]
    · rename_i other
      exact h.names j ((List.mem_append.mp mem).resolve_right fun last =>
        other (List.mem_singleton.mp last))
  · rw [List.mem_append, List.mem_singleton, not_or] at away
    dsimp only
    rw [Naming.lookup_give unnamed, if_neg away.2, h.others j away.1]
  · rw [← taken a lt]
    exact List.mem_cons

theorem NumberedTo.step (h : NumberedTo s values order m done) (split : order = done ++ id :: rest)
    (nodup : order.Nodup) (origin : ∃ a < values, valueAt s id = some a) :
    NumberedTo s values order (Naming.step s m id) (done ++ [id]) := by
  obtain ⟨a, lt, isValue⟩ := origin
  obtain ⟨o, isOrigin, rfl⟩ := Option.map_eq_some_iff.mp isValue
  have here : before order id = done := split ▸ before_eq (split ▸ nodup)
  have new : id ∉ done := fun mem =>
    (List.nodup_append.mp (split ▸ nodup)).2.2 id mem id List.mem_cons_self rfl
  have isTaken : m.taken.contains (o.id : Int) = repeated s order id := by
    rw [Bool.eq_iff_iff, List.contains_iff_mem, h.taken o.id lt, repeated, here, isValue]
    simp
  have values' (b : Nat) : (∃ j ∈ done ++ [id], valueAt s j = some b) ↔
      (∃ j ∈ done, valueAt s j = some b) ∨ b = o.id := by
    simp [or_and_right, exists_or, isValue, eq_comm]
  rw [Naming.step, isOrigin]
  dsimp only
  rw [isTaken]
  cases again : repeated s order id with
  | true =>
    have isNumber : m.free = number s values order id := by
      rw [number, again, if_pos rfl, repetitions, here, h.free]
    have known : ∃ j ∈ done, valueAt s j = some o.id :=
      (h.taken o.id lt).mp (List.contains_iff_mem.mp (isTaken.trans again))
    have beyond : values ≤ number s values order id := by
      rw [number, again, if_pos rfl]
      exact Nat.le_add_right _ _
    rw [if_pos rfl, isNumber]
    refine h.give new (fun b below => ?_) ?_
    · rw [values', h.taken b below]
      constructor
      · rintro (same | old)
        · omega
        · exact .inl old
      · rintro (old | rfl)
        · exact .inr old
        · exact .inr known
    · rw [List.countP_append, List.countP_singleton, again, if_pos rfl, ← isNumber, h.free]
      omega
  | false =>
    have isNumber : (o.id : Int) = number s values order id := by
      rw [number, again, if_neg Bool.false_ne_true, isValue]
      rfl
    rw [if_neg Bool.false_ne_true, isNumber]
    refine h.give new (fun b below => ?_) ?_
    · rw [values', h.taken b below, ← isNumber, or_comm]
      exact or_congr_right Int.natCast_inj
    · rw [List.countP_append, List.countP_singleton, again, if_neg Bool.false_ne_true, h.free]
      rfl

theorem NumberedTo.foldl (h : NumberedTo s values order m done) (split : order = done ++ rest)
    (nodup : order.Nodup) (origins : ∀ id ∈ order, ∃ a < values, valueAt s id = some a) :
    NumberedTo s values order (rest.foldl (Naming.step s) m) order := by
  induction rest generalizing m done with
  | nil =>
    rw [List.append_nil] at split
    exact split ▸ h
  | cons id rest ih =>
    have mem : id ∈ order := split ▸ List.mem_append_right _ List.mem_cons_self
    exact ih (h.step split nodup (origins id mem)) (by rw [split, List.append_cons])

theorem identity_eq (nodup : order.Nodup)
    (origins : ∀ id ∈ order, ∃ a < values, valueAt s id = some a) (mem : id ∈ order) :
    identity (identities s values order) (some id) = number s values order id := by
  have start : NumberedTo s values order { free := values } [] := by
    refine ⟨?_, ?_, ?_, ?_⟩ <;> simp
  have named := (start.foldl (List.nil_append order).symm nodup origins).names id mem
  rw [identity, Option.bind_some, identities, named]
  rfl

end Encoding

end SecureArith
