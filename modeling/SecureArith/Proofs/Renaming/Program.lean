import SecureArith.Proofs.Build
import SecureArith.Proofs.Renaming.Passes
import SecureArith.Proofs.WellFormed

set_option autoImplicit false

/-!
# Programs under other names

Two programs hold the same values, as far as these are owned, by different names, and each has other
values of its own. Minimizing a body appends the same values to both and leaves the other values as
they are.
-/

namespace SecureArith

variable {ρ : Renaming}

/-- The value is owned, and this is its other name. -/
structure Renaming.Names (ρ : Renaming) (a b : ValueId) : Prop where
  owns : ρ.owns a
  eq : b = ρ.name a

theorem Renaming.map_of_names {l l' : List ValueId} (h : List.Forall₂ ρ.Names l l') :
    l' = l.map ρ.name ∧ ∀ a ∈ l, ρ.owns a := by
  induction h with
  | nil => exact ⟨rfl, fun _ mem => absurd mem List.not_mem_nil⟩
  | cons head _ ih =>
    refine ⟨?_, List.forall_mem_cons.mpr ⟨head.owns, ih.2⟩⟩
    rw [List.map_cons, ← ih.1, head.eq]

def ValueKind.rename (ρ : Renaming) : ValueKind → ValueKind
  | .int n => .int n
  | .float x => .float x
  | .var v => .var v
  | .call func args => .call func (args.map ρ.name)
  | .tuple elements => .tuple (elements.map ρ.name)

def Value.rename (ρ : Renaming) (v : Value) : Value := ⟨ρ.name v.id, v.type, v.kind.rename ρ⟩

theorem Value.operands_rename (v : Value) : (v.rename ρ).operands = v.operands.map ρ.name := by
  obtain ⟨_, _, kind⟩ := v
  cases kind <;> rfl

theorem Value.rename_eq_self {v : Value} (id : ρ.name v.id = v.id)
    (operands : ∀ a ∈ v.operands, ρ.name a = a) : v.rename ρ = v := by
  have each (l : List ValueId) (same : ∀ a ∈ l, ρ.name a = a) : l.map ρ.name = l :=
    (List.map_congr_left same).trans (List.map_id' l)
  unfold rename
  rw [id]
  obtain ⟨_, _, kind⟩ := v
  cases kind with
  | int | float | var => rfl
  | call func args => rw [ValueKind.rename, each args operands]
  | tuple elements => rw [ValueKind.rename, each elements operands]

theorem Value.isRead_rename (v : Value) : (v.rename ρ).isRead = v.isRead := by
  obtain ⟨_, _, kind⟩ := v
  cases kind <;> rfl

theorem Value.isBinary_rename (v : Value) : (v.rename ρ).isBinary = v.isBinary := by
  obtain ⟨_, _, kind⟩ := v
  cases kind with
  | int | float | var | tuple => rfl
  | call func args => exact congrArg (· == 2) (List.length_map ρ.name)

theorem Origin.ofValue_rename (v : Value) :
    Origin.ofValue (v.rename ρ) = (Origin.ofValue v).rename ρ := by
  obtain ⟨_, _, kind⟩ := v
  cases kind <;> rfl

/-- The instruction does the same with the other name of its value. -/
structure Instruction.Renamed (ρ : Renaming) (i j : Instruction) : Prop where
  owns : ρ.owns i.value
  eq : j = i.withValue (ρ.name i.value)

theorem Instruction.renamed_self {i : Instruction} (owns : ρ.owns i.value)
    (same : ρ.name i.value = i.value) : i.Renamed ρ i := by
  refine ⟨owns, ?_⟩
  rw [same]
  cases i <;> rfl

theorem Instruction.Renamed.names {i j : Instruction} (h : i.Renamed ρ j) :
    ρ.Names i.value j.value where
  owns := h.owns
  eq := by rw [h.eq, Instruction.value_withValue]

namespace Program

variable {others : ValueId → Option Value} {p q : Program}

/-- Owned values are the same up to their names, and so are values that are appended. What is no
name of an owned value is known. -/
structure Renamed (ρ : Renaming) (others : ValueId → Option Value) (p q : Program) : Prop where
  tables : { q with values := p.values, functions := p.functions } = p
  injective : ∀ a b, ρ.owns a → ρ.owns b → ρ.name a = ρ.name b → a = b
  values : ∀ a : Nat, ρ.owns a → q.values[ρ.name a]? = p.values[a]?.map (·.rename ρ)
  others : ∀ b : Nat, (∀ a, ρ.owns a → ρ.name a ≠ b) → q.values[b]? = others b
  ids : ∀ (a : Nat) (v : Value), ρ.owns a → p.values[a]? = some v → v.id = a
  closed : ∀ (a : Nat) (v : Value), ρ.owns a → p.values[a]? = some v → ∀ x ∈ v.operands, ρ.owns x
  new : ∀ n, ρ.Names (p.values.size + n) (q.values.size + n)

namespace Renamed

theorem vars_eq (h : p.Renamed ρ others q) : q.vars = p.vars := by
  simpa only using congrArg Program.vars h.tables

theorem funcs_eq (h : p.Renamed ρ others q) : q.funcs = p.funcs := by
  simpa only using congrArg Program.funcs h.tables

theorem operators_eq (h : p.Renamed ρ others q) : q.operators = p.operators := by
  simpa only using congrArg Program.operators h.tables

theorem helpers_eq (h : p.Renamed ρ others q) : q.helpers = p.helpers := by
  simpa only using congrArg Program.helpers h.tables

theorem names_size (h : p.Renamed ρ others q) : ρ.Names p.values.size q.values.size := h.new 0

theorem value (h : p.Renamed ρ others q) {id : Nat} {v : Value} (owns : ρ.owns id)
    (found : p.values[id]? = some v) : q.values[ρ.name id]? = some (v.rename ρ) := by
  rw [h.values id owns, found]
  rfl

theorem map_inj (h : p.Renamed ρ others q) {l l' : List ValueId} (owns : ∀ a ∈ l, ρ.owns a)
    (owns' : ∀ a ∈ l', ρ.owns a) : l.map ρ.name = l'.map ρ.name ↔ l = l' := by
  refine ⟨fun same => ?_, fun eq => by rw [eq]⟩
  induction l generalizing l' with
  | nil =>
    cases l' with
    | nil => rfl
    | cons => cases same
  | cons a l ih =>
    cases l' with
    | nil => cases same
    | cons b l' =>
      obtain ⟨head, tail⟩ := List.cons.inj same
      have first := h.injective a b (owns a List.mem_cons_self) (owns' b List.mem_cons_self) head
      have rest := ih (fun x mem => owns x (List.mem_cons_of_mem a mem))
        (fun x mem => owns' x (List.mem_cons_of_mem b mem)) tail
      rw [first, rest]

theorem push (h : p.Renamed ρ others q) (type : Option TypeName) {kind : ValueKind}
    (owns : ∀ a ∈ Value.operands ⟨p.values.size, type, kind⟩, ρ.owns a) :
    (p.push type kind).2.Renamed ρ others (q.push type (kind.rename ρ)).2 := by
  have last := h.names_size
  constructor
  case tables =>
    exact congrArg (fun r : Program => { r with values := (p.push type kind).2.values }) h.tables
  case injective => exact h.injective
  case values =>
    intro a own
    by_cases new : a = p.values.size
    · subst new
      rw [← last.eq, getElem?_push_self, getElem?_push_self]
      simp only [Option.map_some, Value.rename, ← last.eq]
    · have old : ρ.name a ≠ q.values.size := by
        intro eq
        exact new (h.injective a _ own last.owns (eq.trans last.eq))
      simp only [Program.push, Array.getElem?_push, new, old, if_false]
      exact h.values a own
  case others =>
    intro b unnamed
    have old : b ≠ q.values.size := fun eq => unnamed _ last.owns (last.eq.symm.trans eq.symm)
    simp only [Program.push, Array.getElem?_push, old, if_false]
    exact h.others b unnamed
  case ids =>
    intro a v own found
    rcases getElem?_push_cases found with ⟨rfl, rfl⟩ | old
    · rfl
    · exact h.ids a v own old
  case closed =>
    intro a v own found
    rcases getElem?_push_cases found with ⟨rfl, rfl⟩ | old
    · exact owns
    · exact h.closed a v own old
  case new =>
    intro n
    have next := h.new (n + 1)
    simpa [Program.push, Nat.add_assoc, Nat.add_comm 1] using next

end Renamed

/-- The same while values are appended to a program. -/
structure Abreast (ρ : Renaming) (others : ValueId → Option Value) (start p q : Program) : Prop
    extends Renamed ρ others p q where
  appended : start.Extends p
  room : start.values.size ≤ q.values.size

variable {start : Program}

theorem Abreast.push (h : Abreast ρ others start p q) (type : Option TypeName) {kind : ValueKind}
    (owns : ∀ a ∈ Value.operands ⟨p.values.size, type, kind⟩, ρ.owns a) :
    Abreast ρ others start (p.push type kind).2 (q.push type (kind.rename ρ)).2 where
  toRenamed := h.toRenamed.push type owns
  appended := h.appended.trans (extends_push p type kind)
  room := Nat.le_trans h.room (extends_push q type _).grows

theorem Abreast.exists_value (h : Abreast ρ others start p q) {id : Nat} (owns : ρ.owns id)
    (lt : id < start.values.size) :
    ∃ v, start.values[id]? = some v ∧ p.values[id]? = some v ∧
      q.values[ρ.name id]? = some (v.rename ρ) := by
  have found : start.values[id]? = some _ := Array.getElem?_eq_getElem lt
  have kept := (h.appended.kept id lt).trans found
  exact ⟨_, found, kept, h.value owns kept⟩

end Program

namespace Store

variable {others : ValueId → Option Value} {start p q : Program} {id depth depth' : Nat}

theorem renamed_leaf {v : Value} (owns : ρ.owns v.id) (expanded : Bool) :
    Node.Renamed ρ { origin := some (.ofValue v), expanded }
      { origin := some (.ofValue (v.rename ρ)), expanded } where
  eq := by
    rw [Origin.ofValue_rename]
    rfl
  owns := by
    rintro _ ⟨⟩
    exact owns

/-- The tree of a value that was there from the start, built to two depths that suffice. -/
theorem agrees_buildBinaryTo {rank : Nat → Nat} (h : Program.Abreast ρ others start p q)
    (wf : start.WellFormed) (ranked : start.RankedBy rank) (owns : ρ.owns id)
    (lt : id < start.values.size) (deep : rank id < depth) (deep' : rank id < depth') :
    Agrees (Renamed ρ) Failure.Like Eq (buildBinaryTo p depth id)
      (buildBinaryTo q depth' (ρ.name id)) := by
  induction depth generalizing depth' id with
  | zero => exact absurd deep (Nat.not_lt_zero _)
  | succ depth ih =>
    cases depth' with
    | zero => exact absurd deep' (Nat.not_lt_zero _)
    | succ depth' =>
      obtain ⟨v, first, found, found'⟩ := h.exists_value owns lt
      have own : ρ.owns v.id := by rwa [h.ids id v owns found]
      have operand {a : Nat} (mem : a ∈ v.operands) :
          Agrees (Renamed ρ) Failure.Like Eq (buildBinaryTo p depth a)
            (buildBinaryTo q depth' (ρ.name a)) := by
        have less := ranked id v first a mem
        exact ih (h.closed id v owns found a mem) (wf.closed id v first a mem) (by omega) (by omega)
      cases binary : v.isBinary with
      | false =>
        rw [buildBinaryTo_leaf found binary,
          buildBinaryTo_leaf found' ((Value.isBinary_rename v).trans binary), Value.isRead_rename]
        exact agrees_append (renamed_leaf own _)
      | true =>
        obtain ⟨func, a, b, kind⟩ := Value.exists_of_isBinary binary
        have kind' : (v.rename ρ).kind = .call func [ρ.name a, ρ.name b] := by
          rw [Value.rename, kind]
          rfl
        have callee : operatorOf q func = operatorOf p func := by
          rw [operatorOf, operatorOf, Program.funcName?, Program.funcName?, h.funcs_eq]
        rw [buildBinaryTo_call found kind, buildBinaryTo_call found' kind', callee, operatorOf]
        cases p.funcName? func with
        | none => exact .throw_bind rfl
        | some name =>
          apply (operand (by simp [Value.operands, kind])).bind
          rintro left _ rfl
          apply (operand (by simp [Value.operands, kind])).bind
          rintro right _ rfl
          apply agrees_append
          constructor
          · rw [Origin.ofValue_rename]
            rfl
          · rintro _ ⟨⟩
            exact own

end Store

namespace Work

variable {others : ValueId → Option Value} {start : Program} {level : Option Level}
  {P : Program → Program → Prop} {α β : Type} {Q : α → β → Prop}

theorem agrees_onProgram {f : Program → α × Program} {g : Program → β × Program}
    (h : ∀ p q, P p q → Q (f p).1 (g q).1 ∧ P (f p).2 (g q).2) :
    Agrees (Bench.Renamed ρ level P) Failure.Like Q (onProgram f) (onProgram g) := by
  intro b c related
  obtain ⟨result, program⟩ := h b.program c.program related.program
  exact ⟨result, program, related.store, related.roots, related.level_left, related.level_right⟩

theorem agrees_link (op : Operator) (types : List TypeName) :
    Agrees (Bench.Renamed ρ level (Program.Abreast ρ others start)) Failure.Like Eq (link op types)
      (link op types) := by
  unfold link
  cases types[0]? with
  | none => exact .throw_bind rfl
  | some receiver =>
    rw [demand, pure_bind]
    apply Agrees.get.bind
    intro b c related
    rw [Program.resolve?, Program.resolve?, related.program.operators_eq]
    cases b.program.operators.lookup _ with
    | none => exact .throw rfl
    | some func => exact .pure rfl

theorem agrees_value {P : Program → Program → Prop} (renamed : ∀ p q, P p q → p.Renamed ρ others q)
    {id : ValueId} (own : ρ.owns id) :
    Agrees (Bench.Renamed ρ level P) Failure.Like (fun v w => w = v.rename ρ ∧ v.id = id)
      (value id) (value (ρ.name id)) := by
  apply Agrees.get.bind
  intro b c related
  have program := renamed _ _ related.program
  apply agrees_demand
  rw [program.values id own]
  cases found : b.program.values[id]? with
  | none => exact .none
  | some v => exact .some ⟨rfl, program.ids id v own found⟩

theorem agrees_emitCall (id : NodeId) (func : FuncId) {args args' : List ValueId}
    (names : List.Forall₂ ρ.Names args args') :
    Agrees (Bench.Renamed ρ level (Program.Abreast ρ others start)) Failure.Like ρ.Names
      (emitCall id func args) (emitCall id func args') := by
  obtain ⟨rfl, owns⟩ := Renaming.map_of_names names
  have call : Agrees (Bench.Renamed ρ level (Program.Abreast ρ others start)) Failure.Like ρ.Names
      (addCall func args) (addCall func (args.map ρ.name)) := by
    apply Agrees.get.bind
    intro b c related
    rw [related.program.funcs_eq]
    have callee : Option.Rel Eq b.program.funcs[func]? b.program.funcs[func]? := by
      cases b.program.funcs[func]? with
      | none => exact .none
      | some f => exact .some rfl
    apply (agrees_demand callee).bind
    intro _ _ _
    apply agrees_onProgram
    intro p q abreast
    refine ⟨abreast.names_size, ?_⟩
    rw [Program.addCall, Program.addCall, abreast.funcs_eq]
    exact abreast.push _ owns
  apply call.bind
  rintro call _ ⟨own, rfl⟩
  apply (agrees_value (fun _ _ h => h.toRenamed) own).bind
  rintro v _ ⟨rfl, isCall⟩
  have node : Agrees (Bench.Renamed ρ level (Program.Abreast ρ others start)) Failure.Like
      (fun _ _ => True)
      (onStore (Store.write id fun n => { n with origin := some (.ofValue v) }))
      (onStore (Store.write id fun n => { n with origin := some (.ofValue (v.rename ρ)) })) := by
    apply agrees_onStore
    apply Store.agrees_write
    · intro n
      rw [Origin.ofValue_rename]
      rfl
    · intro n _ o mem
      cases mem
      rw [Origin.ofValue, isCall]
      exact own
  exact node.bind fun _ _ _ => .pure ⟨own, rfl⟩

theorem agrees_emitTo (c : Classifier) (depth : Nat) (id : NodeId) :
    Agrees (Bench.Renamed ρ level (Program.Abreast ρ others start)) Failure.Like ρ.Names
      (emitTo c depth id) (emitTo c depth id) := by
  induction depth generalizing id with
  | zero => exact .throw rfl
  | succ depth ih =>
    rw [emitTo]
    apply (agrees_node id).bind
    rintro ⟨⟨origin, memo, op, expanded⟩, left, right⟩ _ ⟨rfl, owns⟩
    apply Agrees.ite Iff.rfl
    · intro _
      cases origin with
      | none => exact .throw rfl
      | some o => exact .pure ⟨owns o rfl, rfl⟩
    · intro _
      cases op with
      | none => exact .throw rfl
      | some op =>
        cases left with
        | none => exact .throw rfl
        | some first =>
          apply (Agrees.mapM_eq (agrees_typeAt c false)).bind
          rintro types _ rfl
          apply (agrees_link op types).bind
          rintro func _ rfl
          have same (l : List NodeId) : List.Forall₂ Eq l l := List.forall₂_same.mpr fun _ _ => rfl
          apply (Agrees.mapM (same _) fun child child' eq => by cases eq; exact ih child).bind
          intro args args' names
          exact agrees_emitCall id func names

theorem agrees_emit (c : Classifier) (id : NodeId) :
    Agrees (Bench.Renamed ρ level (Program.Abreast ρ others start)) Failure.Like ρ.Names (emit c id)
      (emit c id) := by
  apply Agrees.get.bind
  intro b d related
  rw [related.store.size_eq]
  exact agrees_emitTo c _ id

end Work

/-- The same tree for a value and its other name. -/
structure Minimized.Renamed (ρ : Renaming) (m m' : Minimized) : Prop where
  value : ρ.Names m.value m'.value
  tree : m'.tree = m.tree
  regenerated : m'.regenerated = m.regenerated

theorem Minimized.values_renamed {done done' : List Minimized}
    (h : List.Forall₂ (Minimized.Renamed ρ) done done') :
    List.Forall₂ ρ.Names (done.map (·.value)) (done'.map (·.value)) := by
  induction h with
  | nil => exact .nil
  | cons head _ ih => exact .cons head.value ih

theorem Minimized.regenerated_renamed {done done' : List Minimized}
    (h : List.Forall₂ (Minimized.Renamed ρ) done done') :
    done'.foldr (·.regenerated + ·) 0 = done.foldr (·.regenerated + ·) 0 := by
  induction h with
  | nil => rfl
  | cons head _ ih => rw [List.foldr_cons, List.foldr_cons, head.regenerated, ih]

namespace Work

variable {others : ValueId → Option Value} {start : Program} {level : Option Level} {id : Nat}
  {rank : Nat → Nat}

theorem agrees_minimizeBinary (s : Settings) (wf : start.WellFormed) (ranked : start.RankedBy rank)
    (bounded : rank id < start.values.size) (owns : ρ.owns id) (lt : id < start.values.size) :
    Agrees (Bench.Renamed ρ level (Program.Abreast ρ others start)) Failure.Like (Minimized.Renamed ρ)
      (minimizeBinary s id) (minimizeBinary s (ρ.name id)) := by
  apply Agrees.get.bind
  intro b c related
  have abreast := related.program
  have build := Store.agrees_buildBinaryTo abreast wf ranked owns lt
    (Nat.lt_of_lt_of_le bounded abreast.appended.grows) (Nat.lt_of_lt_of_le bounded abreast.room)
  apply (agrees_onStore build).bind
  rintro root _ rfl
  apply (agrees_expand root).bind
  intro _ _ _
  apply (agrees_shown root).bind
  intro before before' _
  apply (agrees_transform s root).bind
  rintro changed _ rfl
  apply Agrees.ite Iff.rfl
  · intro _
    apply (agrees_typeAt s.classifier true root).bind
    intro _ _ _
    apply (agrees_emit s.classifier root).bind
    intro value value' names
    apply (agrees_noteAt .debug (agrees_event root)).bind
    intro _ _ _
    exact .pure ⟨names, rfl, rfl⟩
  · exact fun _ => .pure ⟨⟨owns, rfl⟩, rfl, rfl⟩

theorem agrees_minimizeLeaf {v : Value} (owns : ρ.owns id) (own : ρ.owns v.id) :
    Agrees (Bench.Renamed ρ level (Program.Abreast ρ others start)) Failure.Like (Minimized.Renamed ρ)
      (minimizeLeaf id v) (minimizeLeaf (ρ.name id) (v.rename ρ)) := by
  apply (agrees_onStore (Store.agrees_append (Store.renamed_leaf own false))).bind
  rintro leaf _ rfl
  apply (agrees_expand leaf).bind
  intro _ _ _
  exact .pure ⟨⟨owns, rfl⟩, rfl, rfl⟩

theorem agrees_withArgs {args args' : List ValueId} (owns : ρ.owns id)
    (names : List.Forall₂ ρ.Names args args') :
    Agrees (Bench.Renamed ρ level (Program.Abreast ρ others start)) Failure.Like ρ.Names
      (withArgs id args) (withArgs (ρ.name id) args') := by
  obtain ⟨rfl, own⟩ := Renaming.map_of_names names
  apply (agrees_value (fun _ _ h => h.toRenamed) owns).bind
  intro _ _ _
  apply agrees_onProgram
  intro p q abreast
  unfold Program.withArgs
  rw [abreast.values id owns]
  cases p.values[id]? with
  | none => exact ⟨⟨owns, rfl⟩, abreast⟩
  | some v =>
    obtain ⟨self, type, kind⟩ := v
    cases kind with
    | int | float | var | tuple => exact ⟨⟨owns, rfl⟩, abreast⟩
    | call func old => exact ⟨abreast.names_size, abreast.push type own⟩

theorem agrees_minimizeArgs {f g : ValueId → Work Minimized} {args : List ValueId}
    (owns : ρ.owns id) (owned : ∀ a ∈ args, ρ.owns a)
    (step : ∀ a ∈ args, Agrees (Bench.Renamed ρ level (Program.Abreast ρ others start)) Failure.Like
      (Minimized.Renamed ρ) (f a) (g (ρ.name a))) :
    Agrees (Bench.Renamed ρ level (Program.Abreast ρ others start)) Failure.Like (Minimized.Renamed ρ)
      (do
        let done ← args.mapM f
        let regenerated := done.foldr (·.regenerated + ·) 0
        let values := done.map (·.value)
        if values = args then return ⟨id, none, regenerated⟩
        let value ← withArgs id values
        return ⟨value, none, regenerated⟩)
      (do
        let done ← (args.map ρ.name).mapM g
        let regenerated := done.foldr (·.regenerated + ·) 0
        let values := done.map (·.value)
        if values = args.map ρ.name then return ⟨ρ.name id, none, regenerated⟩
        let value ← withArgs (ρ.name id) values
        return ⟨value, none, regenerated⟩) := by
  have related : List.Forall₂ (fun a b => a ∈ args ∧ b = ρ.name a) args (args.map ρ.name) :=
    List.forall₂_map_right_iff.mpr (List.forall₂_same.mpr fun _ mem => ⟨mem, rfl⟩)
  apply (Agrees.mapM related fun a b mem => mem.2 ▸ step a mem.1).bind
  intro done done' renamed
  have values := Minimized.values_renamed renamed
  obtain ⟨map, own⟩ := Renaming.map_of_names values
  dsimp only
  rw [Minimized.regenerated_renamed renamed]
  intro b c start
  refine Agrees.ite ?_ ?_ ?_ b c start
  · rw [map]
    exact (start.program.map_inj own owned).symm
  · exact fun _ => .pure ⟨⟨owns, rfl⟩, rfl, rfl⟩
  · intro _
    apply (agrees_withArgs owns values).bind
    intro value value' names
    exact .pure ⟨names, rfl, rfl⟩

theorem agrees_minimizeTo (s : Settings) {depth depth' : Nat} (wf : start.WellFormed)
    (ranked : start.RankedBy rank) (bounded : ∀ id < start.values.size, rank id < start.values.size)
    (owns : ρ.owns id) (lt : id < start.values.size) (deep : rank id < depth)
    (deep' : rank id < depth') :
    Agrees (Bench.Renamed ρ level (Program.Abreast ρ others start)) Failure.Like (Minimized.Renamed ρ)
      (minimizeTo s depth id) (minimizeTo s depth' (ρ.name id)) := by
  induction depth generalizing depth' id with
  | zero => exact absurd deep (Nat.not_lt_zero _)
  | succ depth ih =>
    cases depth' with
    | zero => exact absurd deep' (Nat.not_lt_zero _)
    | succ depth' =>
      rw [minimizeTo, minimizeTo, value, value, bind_assoc, bind_assoc]
      apply Agrees.get.bind
      intro b c related
      obtain ⟨v, first, found, found'⟩ := related.program.exists_value owns lt
      have own : ρ.owns v.id := by rwa [related.program.ids id v owns found]
      have leaf : Agrees (Bench.Renamed ρ level (Program.Abreast ρ others start)) Failure.Like
          (Minimized.Renamed ρ) (minimizeLeaf id v) (minimizeLeaf (ρ.name id) (v.rename ρ)) :=
        agrees_minimizeLeaf owns own
      have operand {a : Nat} (mem : a ∈ v.operands) :
          Agrees (Bench.Renamed ρ level (Program.Abreast ρ others start)) Failure.Like
            (Minimized.Renamed ρ) (minimizeTo s depth a) (minimizeTo s depth' (ρ.name a)) := by
        have less := ranked id v first a mem
        exact ih (related.program.closed id v owns found a mem) (wf.closed id v first a mem)
          (by omega) (by omega)
      rw [found, found']
      obtain ⟨self, type, kind⟩ := v
      cases kind with
      | int | float | var | tuple => exact leaf
      | call func args =>
        have owned : ∀ a ∈ args, ρ.owns a := related.program.closed id _ owns found
        have again := agrees_minimizeArgs owns owned fun a mem => operand mem
        match args with
        | [a, b] => exact agrees_minimizeBinary s wf ranked (bounded id lt) owns lt
        | [] | [_] | _ :: _ :: _ :: _ => exact again

theorem agrees_minimize (s : Settings) (wf : start.WellFormed) (owns : ρ.owns id)
    (lt : id < start.values.size) :
    Agrees (Bench.Renamed ρ level (Program.Abreast ρ others start)) Failure.Like (Minimized.Renamed ρ)
      (minimize s id) (minimize s (ρ.name id)) := by
  obtain ⟨rank, ranked, bounded⟩ := wf.exists_rank
  apply Agrees.get.bind
  intro b c related
  have abreast := related.program
  exact agrees_minimizeTo s wf ranked bounded owns lt
    (Nat.lt_of_lt_of_le (bounded id lt) abreast.appended.grows)
    (Nat.lt_of_lt_of_le (bounded id lt) abreast.room)

theorem agrees_minimizeInstruction (s : Settings) {i j : Instruction} (wf : start.WellFormed)
    (h : i.Renamed ρ j) (lt : i.value < start.values.size) :
    Agrees (Bench.Renamed ρ level (Program.Abreast ρ others start)) Failure.Like (Minimized.Renamed ρ)
      (minimizeInstruction s i) (minimizeInstruction s j) := by
  have key : TreeKey.ofInstruction j = TreeKey.ofInstruction i := by
    rw [h.eq]
    cases i <;> rfl
  unfold minimizeInstruction
  rw [key, h.eq, Instruction.value_withValue]
  apply (agrees_minimize s wf h.owns lt).bind
  intro m m' renamed
  rw [renamed.tree]
  cases m.tree with
  | none => exact .pure renamed
  | some root => exact (agrees_register _ root).bind fun _ _ _ => .pure renamed

theorem agrees_minimizeBody (s : Settings) {body body' : List Instruction} (wf : start.WellFormed)
    (h : List.Forall₂ (Instruction.Renamed ρ) body body')
    (inside : ∀ i ∈ body, i.value < start.values.size) :
    Agrees (Bench.Renamed ρ level (Program.Abreast ρ others start)) Failure.Like
      (fun out out' => List.Forall₂ (Instruction.Renamed ρ) out.1 out'.1 ∧ out'.2 = out.2)
      (minimizeBody s body) (minimizeBody s body') := by
  induction h with
  | nil => exact .pure ⟨.nil, rfl⟩
  | @cons i j rest rest' head _ ih =>
    rw [minimizeBody, minimizeBody]
    apply (agrees_minimizeInstruction s wf head (inside i List.mem_cons_self)).bind
    intro m m' renamed
    apply (ih fun k mem => inside k (List.mem_cons_of_mem i mem)).bind
    rintro ⟨body, n⟩ ⟨body', n'⟩ ⟨below, rfl⟩
    refine .pure ⟨.cons ⟨?_, ?_⟩ below, ?_⟩
    · rw [Instruction.value_withValue]
      exact renamed.value.owns
    · rw [head.eq, renamed.value.eq, Instruction.value_withValue]
      cases i <;> rfl
    · rw [renamed.regenerated]

/-- A body is minimized in the same way by any names. -/
theorem agrees_minimizeFunction (s : Settings) {f : Function} (wf : start.WellFormed)
    (h : List.Forall₂ (Instruction.Renamed ρ) f.body f.body)
    (inside : ∀ i ∈ f.body, i.value < start.values.size) :
    Agrees (Bench.Renamed ρ level (Program.Abreast ρ others start)) Failure.Like
      (fun out out' => List.Forall₂ (Instruction.Renamed ρ) out.1 out'.1 ∧ out'.2 = out.2)
      (minimizeFunction s f) (minimizeFunction s f) := by
  unfold minimizeFunction
  apply Agrees.ite Iff.rfl
  · exact fun _ => agrees_minimizeBody s wf h inside
  · exact fun _ => .pure ⟨h, rfl⟩

end Work

end SecureArith
