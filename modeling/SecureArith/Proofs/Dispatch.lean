import SecureArith.Proofs.MatrixChain
import SecureArith.Proofs.Preservation

set_option autoImplicit false

/-!
# Dispatch

What minimizing a body appends are calls of operators, whose callees are resolved for the types that
their operands are linked by, and calls that are made again. Where operators yield the types that
their operands combine to, these are the types that the operands have. The chains that are replaced
afterwards leave no other call of two operands than those of the helper.
-/

namespace SecureArith

/-- The type that two operands combine to. -/
def Signature.combined? (c : Classifier) : Signature → Option TypeName
  | ⟨_, _, [t, u]⟩ => some (c.combine t u)
  | _ => none

namespace Program

variable {c : Classifier} {p q r : Program} {id : Nat} {v : Value}

def type? (p : Program) (id : ValueId) : Option TypeName := p.values[id]?.bind (·.type)

/-- A call whose callee is, of the operators of its name, the one for these types of its
operands. -/
def Dispatched (p : Program) (typeOf : ValueId → Option TypeName) (v : Value) : Prop :=
  ∃ (name : String) (func : FuncId) (x y : ValueId) (t u : TypeName),
    v.kind = .call func [x, y] ∧ typeOf x = some t ∧ typeOf y = some u ∧
      p.funcName? func = some name ∧ p.resolve? ⟨t, name, [t, u]⟩ = some func

/-- A call of the program with other operands, of which there are not two. -/
def Repeated (p : Program) (v : Value) : Prop :=
  ∃ (id : ValueId) (w : Value) (func : FuncId) (args args' : List ValueId),
    p.values[id]? = some w ∧ w.kind = .call func args ∧ v.kind = .call func args' ∧
      v.type = w.type ∧ args'.length ≠ 2

/-- Operators yield the type that their two operands combine to. -/
def Combines (c : Classifier) (p : Program) : Prop :=
  ∀ entry ∈ p.operators, ∀ type ∈ entry.1.combined? c,
    p.funcs[entry.2]?.bind (·.result) = some type

instance (c : Classifier) (p : Program) : Decidable (p.Combines c) :=
  inferInstanceAs (Decidable (∀ entry ∈ p.operators, _))

theorem Combines.result {t u : TypeName} {op : Operator} {func : FuncId} (h : p.Combines c)
    (callee : p.resolve? ⟨t, op.name, [t, u]⟩ = some func) :
    p.funcs[func]?.bind (·.result) = some (c.combine t u) :=
  h _ (mem_of_lookup callee) _ rfl

theorem Dispatched.congr {f g : ValueId → Option TypeName} (h : p.Dispatched f v)
    (same : ∀ a ∈ v.operands, f a = g a) : p.Dispatched g v := by
  obtain ⟨name, func, x, y, t, u, kind, left, right, callee⟩ := h
  rw [Value.operands, kind] at same
  refine ⟨name, func, x, y, t, u, kind, ?_, ?_, callee⟩
  · rw [← same x (by simp), left]
  · rw [← same y (by simp), right]

namespace Linked

theorem dispatched_or_repeated (wf : p.WellFormed) (h : p.Linked c q) (new : p.values.size ≤ id)
    (found : q.values[id]? = some v) :
    p.Dispatched (q.linkType? c p.values.size) v ∨ p.Repeated v := by
  induction h with
  | refl =>
    have := (Array.getElem?_eq_some_iff.mp found).1
    omega
  | @call q func x y t u op h there left right linked ih =>
    have wfq := h.wellFormed wf
    have ext : q.Extends (q.addCall func [x, y]).2 := extends_push q _ _
    have kept (a : Nat) (lt : a < q.values.size) := (ext.linkType?_eq wfq p.values.size lt :
      _ = q.linkType? c p.values.size a)
    rcases getElem?_push_cases found with ⟨rfl, rfl⟩ | old
    · left
      have callee : p.resolve? ⟨t, op.name, [t, u]⟩ = some func := by
        rw [← linked, resolve?, resolve?, h.extends.operators_eq]
      refine ⟨op.name, func, x, y, t, u, rfl, ?_, ?_, wf.resolve_name callee, callee⟩
      · rw [kept x (there x (by simp)), left]
      · rw [kept y (there y (by simp)), right]
    · refine (ih old).imp_left fun dispatched => ?_
      exact dispatched.congr fun a mem => (kept a (wfq.closed id v old a mem)).symm
  | @again q id' w func args args' h found' kind other there ih =>
    have wfq := h.wellFormed wf
    rcases getElem?_push_cases found with ⟨rfl, rfl⟩ | old
    · exact .inr ⟨id', w, func, args, args', found', kind, rfl, rfl, other⟩
    · refine (ih old).imp_left fun dispatched => dispatched.congr fun a mem => ?_
      exact ((extends_push q _ _).linkType?_eq wfq _ (wfq.closed id v old a mem)).symm

/-- Where operators yield the combined types, values are linked by the types that they have. -/
theorem linkType?_eq_type? (wf : p.WellFormed) (h : p.Linked c q) (combines : p.Combines c)
    (lt : id < q.values.size) : q.linkType? c p.values.size id = q.type? id := by
  have old {q : Program} {id : Nat} (lt : id < p.values.size) (ext : p.Extends q) :
      q.linkType? c p.values.size id = q.type? id := by
    have found := (ext.kept id lt).trans (Array.getElem?_eq_getElem lt)
    rw [linkType?_of_lt lt found, type?, found]
    rfl
  induction h with
  | refl => exact old lt (.refl p)
  | @call q func x y t u op h there left right linked ih =>
    have wfq := h.wellFormed wf
    have ext : q.Extends (q.addCall func [x, y]).2 := extends_push q _ _
    rw [addCall, size_push] at lt
    rcases Nat.lt_succ_iff_lt_or_eq.mp lt with before | rfl
    · rw [ext.linkType?_eq wfq _ before, ih before, type?, type?, ext.kept id before]
    · have found := getElem?_push_self q (q.funcs[func]?.bind (·.result)) (.call func [x, y])
      have callee : p.resolve? ⟨t, op.name, [t, u]⟩ = some func := by
        rw [← linked, resolve?, resolve?, h.extends.operators_eq]
      have result := combines.result callee
      rw [← h.extends.funcs_eq] at result
      have leftType := (ext.linkType?_eq wfq _ (there x (by simp))).trans left
      have rightType := (ext.linkType?_eq wfq _ (there y (by simp))).trans right
      have isLinked := (h.call there left right linked).linkType?_eq h.extends.grows found
      have isTyped : (q.addCall func [x, y]).2.type? q.values.size = some (c.combine t u) := by
        rw [type?, addCall, found, Option.bind_some, result]
      rw [isLinked, isTyped]
      simp only [Value.linkType?, leftType, rightType, Option.bind_some, Option.map_some]
  | @again q id' w func args args' h found' kind other there ih =>
    have wfq := h.wellFormed wf
    have ext : q.Extends (q.push w.type (.call func args')).2 := extends_push q _ _
    rw [size_push] at lt
    rcases Nat.lt_succ_iff_lt_or_eq.mp lt with before | rfl
    · rw [ext.linkType?_eq wfq _ before, ih before, type?, type?, ext.kept id before]
    · have found := getElem?_push_self q w.type (.call func args')
      rw [(h.again found' kind other there).linkType?_eq h.extends.grows found, type?, found,
        Option.bind_some]
      rcases args' with _ | ⟨x, _ | ⟨y, _ | ⟨z, rest⟩⟩⟩
      · rfl
      · rfl
      · exact absurd rfl other
      · rfl

end Linked

/-- The helper for chains is the only one that calls of two operands may have come to call. -/
structure Rechained (p q : Program) : Prop where
  helpers : q.helpers = p.helpers
  calls : ∀ (id : Nat) (v : Value) (func : FuncId) (x y : ValueId), q.values[id]? = some v →
    v.kind = .call func [x, y] →
      p.values[id]? = some v ∨ p.helper? MatrixChain.helperName = some func

namespace Rechained

theorem refl (p : Program) : p.Rechained p := ⟨rfl, fun _ _ _ _ _ found _ => .inl found⟩

theorem trans (h : p.Rechained q) (h' : q.Rechained r) : p.Rechained r where
  helpers := h'.helpers.trans h.helpers
  calls id v func x y found kind := by
    rcases h'.calls id v func x y found kind with old | helper
    · exact h.calls id v func x y old kind
    · rw [helper?, h.helpers] at helper
      exact .inr helper

theorem push (p : Program) (type : Option TypeName) {kind : ValueKind}
    (other : ∀ func x y, kind ≠ .call func [x, y]) : p.Rechained (p.push type kind).2 where
  helpers := rfl
  calls id v func x y found call := by
    rcases getElem?_push_cases found with ⟨rfl, rfl⟩ | old
    · exact absurd call (other func x y)
    · exact .inl old

theorem replaceValue (p : Program) (chain : ValueId) (type : Option TypeName) {func : FuncId}
    {args : List ValueId} (helper : p.helper? MatrixChain.helperName = some func) :
    p.Rechained (p.replaceValue chain (.call func args) type) where
  helpers := rfl
  calls id v func' x y found call := by
    simp only [Program.replaceValue, Array.getElem?_modify] at found
    split at found
    · obtain ⟨w, -, rfl⟩ := Option.map_eq_some_iff.mp found
      cases call
      exact .inr helper
    · exact .inl found

theorem of_contracts {mpc : VarId} {environment : Option ValueId} {chain read : ValueId}
    (h : p.Contracts mpc environment chain q read) : p.Rechained q := by
  obtain ⟨-, -, isHelper, reads⟩ := h
  rename_i r helper operands type
  have first : p.Rechained r := by
    cases reads with
    | known => exact .refl p
    | new => exact .push p _ nofun
  have tuple : r.Rechained (r.addTuple operands).2 := .push r _ nofun
  have both := first.trans tuple
  apply both.trans
  apply Rechained.replaceValue
  rw [helper?, both.helpers]
  exact isHelper

theorem of_contracted {mpc : VarId} {environment environment' : Option ValueId}
    (h : Contracted mpc p environment q environment') : p.Rechained q := by
  induction h with
  | refl => exact .refl _
  | step first _ ih => exact (of_contracts first).trans ih

end Rechained

end Program

namespace Work

variable {s : Settings} {p : Program} {f : Function} {b : Bench}

def programAfter {α : Type} (x : Work α) (b : Bench) : Program :=
  match x b with
  | .ok _ b' | .error _ b' => b'.program

theorem ends_programAfter {α : Type} (x : Work α) (b : Bench) :
    Ends x b (fun _ b' => b'.program = programAfter x b) fun _ b' =>
      b'.program = programAfter x b := by
  unfold Ends programAfter
  cases x b with
  | ok a b' => rfl
  | error e b' => rfl

theorem programAfter_of_ends {α : Type} {x : Work α} {P : Program → Prop}
    (h : Ends x b (fun _ b' => P b'.program) fun _ b' => P b'.program) : P (programAfter x b) := by
  unfold Ends at h
  unfold programAfter
  cases run : x b with
  | ok a b' => simpa only [run] using h
  | error e b' => simpa only [run] using h

/-- What the optimizer does after a body was minimized makes no new call of an operator. -/
theorem rechained_optimizeFunction (wf : p.WellFormed) (helpers : p.NamesHelpers)
    (inside : ∀ i ∈ f.body, i.value < p.values.size) (forest : Forest) (journal : Journal) :
    (programAfter (minimizeFunction s f) ⟨p, {}, journal⟩).Rechained
      (programAfter (optimizeFunction s f) ⟨p, forest, journal⟩) := by
  apply programAfter_of_ends
  rw [optimizeFunction, ends_aside, Ends.bind_iff]
  apply ((ends_minimizeFunction Interpretation.arithmetic_integers wf inside).and
    (ends_programAfter (minimizeFunction s f) _)).imp
  · rintro ⟨body, regenerated⟩ b' ⟨⟨linked, inside', _⟩, same⟩
    have ready := (linked.wellFormed wf).chainable (linked.extends.namesHelpers helpers)
    rw [← same]
    dsimp only
    rw [Ends.bind_iff]
    apply (ends_replaceChainsOf ready inside').imp
    · rintro _ _ ⟨⟨mpc, environment, contracted⟩, _⟩
      rw [Ends.bind_iff]
      exact ends_counts (.of_contracted contracted) fun _ => .of_contracted contracted
    · rintro _ b'' ⟨same, _⟩
      rw [same]
      exact .refl _
  · rintro e b' ⟨_, same⟩
    rw [← same]
    exact .refl _

end Work

/-- Minimizing a body appends calls of operators, whose callees are resolved for the types that
their operands are linked by, and calls that are made again. Where operators yield the combined
types, the operands have these types. The optimizer makes no other call of two operands, but for the
helper. -/
theorem dispatched_optimizeFunction {s : Settings} {p : Program} {f : Function} {id : Nat}
    {v : Value} (described : p.Described) (mem : f ∈ p.functions) (new : p.values.size ≤ id)
    (forest : Forest) (journal : Journal) :
    let q := Work.programAfter (Work.minimizeFunction s f) ⟨p, {}, journal⟩
    let r := Work.programAfter (Work.optimizeFunction s f) ⟨p, forest, journal⟩
    (q.values[id]? = some v →
      p.Dispatched (q.linkType? s.classifier p.values.size) v ∨ p.Repeated v) ∧
    (p.Combines s.classifier → q.values[id]? = some v → p.Dispatched q.type? v ∨ p.Repeated v) ∧
    ∀ func x y, r.values[id]? = some v → v.kind = .call func [x, y] →
      q.values[id]? = some v ∨ p.helper? MatrixChain.helperName = some func := by
  intro q r
  have sound := described.sound
  have wf := sound.toWellFormed
  have linked : p.Linked s.classifier q := by
    apply Work.programAfter_of_ends
    apply (Work.ends_minimizeFunction Interpretation.arithmetic_integers wf
      (sound.bodies f mem)).imp
    · exact fun _ _ h => h.1
    · exact fun _ _ h => h.1
  have rechained : q.Rechained r :=
    Work.rechained_optimizeFunction wf sound.helpers (sound.bodies f mem) forest journal
  refine ⟨fun found => linked.dispatched_or_repeated wf new found, fun combines found => ?_, ?_⟩
  · refine (linked.dispatched_or_repeated wf new found).imp_left fun dispatched => ?_
    apply dispatched.congr
    intro a operand
    exact linked.linkType?_eq_type? wf combines
      ((linked.wellFormed wf).closed id v found a operand)
  · intro func x y found call
    refine (rechained.calls id v func x y found call).imp_right fun helper => ?_
    rw [Program.helper?, ← linked.extends.helpers_eq]
    exact helper

def TypeName.sharetensor : TypeName := "std.sequre.types.sharetensor.Sharetensor"

def Description.squaredSum (left right : TypeName) : Description where
  vars := [⟨"x", some left⟩, ⟨"y", some right⟩]
  operators := [
    ⟨left, "__add__", [left, right], .sharetensor⟩,
    ⟨.int, "__mul__", [.int, .int], .int⟩,
    ⟨.sharetensor, "__mul__", [.sharetensor, .sharetensor], .sharetensor⟩,
    ⟨.sharetensor, "__pow__", [.sharetensor, .int], .sharetensor⟩]
  functions := [{
    name := "f"
    mpc := none
    params := ["x", "y"]
    attributes := { minimize := true }
    body := [.ret (.call "__pow__" [.call "__add__" [.var "x", .var "y"], .int 2])] }]

theorem dispatched_optimizeFunction_squaredSum :
    ∃ (p q : Program) (f : Function) (v : Value),
      (Description.squaredSum .sharetensor .int).lower = .ok p ∧ f ∈ p.functions ∧
      p.Combines (Settings.ofPreset .basic).classifier ∧
      q = Work.programAfter (Work.minimizeFunction (.ofPreset .basic) f) ⟨p, {}, {}⟩ ∧
      q.values[p.values.size + 2]? = some v ∧ v.isBinary = true ∧
      (p.Dispatched q.type? v ∨ p.Repeated v) := by
  have checked : ((Description.squaredSum .sharetensor .int).first?.any fun (p, f) =>
      ((Work.programAfter (Work.minimizeFunction (.ofPreset .basic) f) ⟨p, {}, {}⟩).values[
        p.values.size + 2]?).any fun v =>
          decide (p.Combines (Settings.ofPreset .basic).classifier) && v.isBinary) = true := by
    decide +kernel
  obtain ⟨⟨p, f⟩, isFirst, checked⟩ := Option.any_eq_true _ _ |>.mp checked
  obtain ⟨v, found, checked⟩ := Option.any_eq_true _ _ |>.mp checked
  obtain ⟨combines, binary⟩ := Bool.and_eq_true _ _ |>.mp checked
  obtain ⟨lowered, mem⟩ := Description.lower_of_first? isFirst
  have combines := of_decide_eq_true combines
  refine ⟨p, _, f, v, lowered, mem, combines, rfl, found, binary, ?_⟩
  have new : p.values.size ≤ p.values.size + 2 := Nat.le_add_right ..
  exact (dispatched_optimizeFunction ⟨_, lowered⟩ mem new {} {}).2.1 combines found

/-- With the integer on the left, the square is linked for integers, though the sum is none. -/
theorem not_dispatched_squaredSum :
    ∃ (p q : Program) (f : Function) (v : Value),
      (Description.squaredSum .int .sharetensor).lower = .ok p ∧ f ∈ p.functions ∧
      q = Work.programAfter (Work.minimizeFunction (.ofPreset .basic) f) ⟨p, {}, {}⟩ ∧
      q.values[p.values.size + 2]? = some v ∧ v.isBinary = true ∧ ¬ p.Dispatched q.type? v := by
  have checked : ((Description.squaredSum .int .sharetensor).first?.any fun (p, f) =>
      let q := Work.programAfter (Work.minimizeFunction (.ofPreset .basic) f) ⟨p, {}, {}⟩
      (q.values[p.values.size + 2]?).any fun v =>
        decide (v.isBinary = true ∧ (∀ a ∈ v.operands, q.type? a = some .sharetensor) ∧
          ∀ entry ∈ p.operators, entry.1.operands = [.sharetensor, .sharetensor] →
            v.kind ≠ .call entry.2 v.operands)) = true := by
    decide +kernel
  obtain ⟨⟨p, f⟩, isFirst, checked⟩ := Option.any_eq_true _ _ |>.mp checked
  obtain ⟨v, found, checked⟩ := Option.any_eq_true _ _ |>.mp checked
  obtain ⟨lowered, mem⟩ := Description.lower_of_first? isFirst
  obtain ⟨binary, types, others⟩ := of_decide_eq_true checked
  refine ⟨p, _, f, v, lowered, mem, rfl, found, binary, ?_⟩
  rintro ⟨name, func, x, y, t, u, kind, left, right, -, callee⟩
  have operands : v.operands = [x, y] := by rw [Value.operands, kind]
  cases left.symm.trans (types x (by simp [operands]))
  cases right.symm.trans (types y (by simp [operands]))
  refine others _ (mem_of_lookup callee) rfl ?_
  rw [operands, kind]

end SecureArith
