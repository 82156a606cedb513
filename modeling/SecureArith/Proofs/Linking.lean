import SecureArith.Operator
import SecureArith.Proofs.Meaning.Program

set_option autoImplicit false

/-!
# Calls that are linked

`Program.Linked` says how a program has grown: by calls that are linked for the types of their
operands, and by calls that were made again with other operands. The types that count are those of
`Program.linkType?`: a value that was there before has its own type, and a new operation the one
that its operands combine to.
-/

namespace SecureArith

/-- The type of a new value whose operands have the types that `operand` gives them. -/
def Value.linkType? (c : Classifier) (operand : ValueId → Option TypeName) (v : Value) :
    Option TypeName :=
  match v.kind with
  | .call _ [a, b] => (operand a).bind fun left => (operand b).map (c.combine left)
  | _ => v.type

theorem Value.linkType?_congr {c : Classifier} {f g : ValueId → Option TypeName} {v : Value}
    (same : ∀ a ∈ v.operands, f a = g a) : v.linkType? c f = v.linkType? c g := by
  obtain ⟨_, _, kind⟩ := v
  cases kind with
  | int | float | var | tuple => rfl
  | call func args =>
    match args with
    | [] | [_] | _ :: _ :: _ :: _ => rfl
    | [a, b] =>
      have left : f a = g a := same a List.mem_cons_self
      have right : f b = g b := same b (List.mem_cons_of_mem a List.mem_cons_self)
      simp only [linkType?, left, right]

namespace Program

variable {c : Classifier} {p q r : Program} {id : Nat}

/-- The type that an operand is linked by, down to a depth. Values from `base` on are new. -/
def linkTypeTo? (c : Classifier) (base : Nat) (q : Program) : Nat → ValueId → Option TypeName
  | 0, _ => none
  | depth + 1, id => q.values[id]?.bind fun v =>
    if id < base then v.type else v.linkType? c (q.linkTypeTo? c base depth)

/-- Operands of new values stand before them, so that the depth is bounded by the index. -/
def linkType? (c : Classifier) (base : Nat) (q : Program) (id : ValueId) : Option TypeName :=
  q.linkTypeTo? c base (id + 1) id

/-- Calls were appended, those of an operator with the callee for the types of their operands. -/
inductive Linked (c : Classifier) (p : Program) : Program → Prop
  | refl : Linked c p p
  | call {q : Program} {func : FuncId} {x y : ValueId} {t u : TypeName} {op : Operator}
      (h : Linked c p q) (there : ∀ a : Nat, a ∈ [x, y] → a < q.values.size)
      (left : q.linkType? c p.values.size x = some t)
      (right : q.linkType? c p.values.size y = some u)
      (linked : q.resolve? ⟨t, op.name, [t, u]⟩ = some func) :
      Linked c p (q.addCall func [x, y]).2
  | again {q : Program} {id : ValueId} {v : Value} {func : FuncId} {args args' : List ValueId}
      (h : Linked c p q) (found : p.values[id]? = some v) (kind : v.kind = .call func args)
      (other : args'.length ≠ 2) (there : ∀ a : Nat, a ∈ args' → a < q.values.size) :
      Linked c p (q.push v.type (.call func args')).2

theorem size_push (p : Program) (type : Option TypeName) (kind : ValueKind) :
    (p.push type kind).2.values.size = p.values.size + 1 := by
  simp [push]

namespace Linked

theorem «extends» (h : p.Linked c q) : p.Extends q := by
  induction h with
  | refl => exact .refl p
  | call _ _ _ _ _ ih => exact ih.trans (extends_push _ _ _)
  | again _ _ _ _ _ ih => exact ih.trans (extends_push _ _ _)

theorem wellFormed (wf : p.WellFormed) (h : p.Linked c q) : q.WellFormed := by
  induction h with
  | refl => exact wf
  | @call q func x y t u op _ there _ _ linked ih =>
    refine ih.push _ _ (fun a mem => there a mem) fun func' args' eq => ?_
    obtain ⟨f, found, -⟩ := Option.map_eq_some_iff.mp (ih.resolve_name linked)
    cases eq
    exact ⟨f, found⟩
  | @again q id v func args args' h found kind _ there ih =>
    refine ih.push _ _ (fun a mem => there a mem) fun func' args'' eq => ?_
    cases eq
    rw [h.extends.funcs_eq]
    exact wf.callees id v func args found kind

theorem ordered (h : p.Linked c q) {v : Value} (new : p.values.size ≤ id)
    (found : q.values[id]? = some v) : ∀ a : Nat, a ∈ v.operands → a < id := by
  induction h with
  | refl =>
    have := (Array.getElem?_eq_some_iff.mp found).1
    omega
  | call _ there _ _ _ ih =>
    rcases getElem?_push_cases found with ⟨rfl, rfl⟩ | old
    · exact there
    · exact ih old
  | again _ _ _ _ there ih =>
    rcases getElem?_push_cases found with ⟨rfl, rfl⟩ | old
    · exact there
    · exact ih old

end Linked

theorem linkType?_of_lt {base : Nat} {v : Value} (old : id < base)
    (found : q.values[id]? = some v) : q.linkType? c base id = v.type := by
  simp [linkType?, linkTypeTo?, found, old]

theorem Extends.linkType?_eq (ext : q.Extends r) (wf : q.WellFormed) (base : Nat)
    (lt : id < q.values.size) : r.linkType? c base id = q.linkType? c base id := by
  have agree (depth id : Nat) (lt : id < q.values.size) :
      r.linkTypeTo? c base depth id = q.linkTypeTo? c base depth id := by
    induction depth generalizing id with
    | zero => rfl
    | succ depth ih =>
      have found := Array.getElem?_eq_getElem lt
      have below : q.values[id].linkType? c (r.linkTypeTo? c base depth) =
          q.values[id].linkType? c (q.linkTypeTo? c base depth) :=
        Value.linkType?_congr fun a mem => ih a (wf.closed id _ found a mem)
      simp only [linkTypeTo?, ext.kept id lt, found, Option.bind_some, below]
  exact agree _ id lt

namespace Linked

/-- Above the index, the bound on the depth does not matter. -/
theorem linkTypeTo?_eq (h : p.Linked c q) {depth depth' : Nat} (enough : id < depth)
    (enough' : id < depth') :
    q.linkTypeTo? c p.values.size depth id = q.linkTypeTo? c p.values.size depth' id := by
  induction depth generalizing id depth' with
  | zero => omega
  | succ depth ih =>
    obtain ⟨depth', rfl⟩ : ∃ k, depth' = k + 1 := ⟨depth' - 1, by omega⟩
    cases found : q.values[id]? with
    | none => simp [linkTypeTo?, found]
    | some v =>
      simp only [linkTypeTo?, found, Option.bind_some]
      split
      · rfl
      · rename_i new
        refine Value.linkType?_congr fun a mem => ?_
        have less := h.ordered (Nat.not_lt.mp new) found a mem
        exact ih (by omega) (by omega)

theorem linkType?_eq (h : p.Linked c q) {v : Value} (new : p.values.size ≤ id)
    (found : q.values[id]? = some v) :
    q.linkType? c p.values.size id = v.linkType? c (q.linkType? c p.values.size) := by
  rw [linkType?, linkTypeTo?, found, Option.bind_some, if_neg (Nat.not_lt.mpr new)]
  refine Value.linkType?_congr fun a mem => ?_
  exact h.linkTypeTo?_eq (h.ordered new found a mem) (Nat.lt_succ_self a)

end Linked

end Program

end SecureArith
