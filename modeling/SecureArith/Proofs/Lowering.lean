import SecureArith.Description.Lowering
import SecureArith.Proofs.WellFormed

set_option autoImplicit false

/-!
# Programs of descriptions are well-formed

Lowering a description keeps its tables sound: what it appends refers to what is there already. So
every program that it accepts is well-formed, and the bodies of its functions are in range. Each
function has values of its own, since its expressions are lowered to new ones.
-/

namespace SecureArith

def Instruction.target? : Instruction → Option VarId
  | .assign v _ => some v
  | _ => none

namespace Program

variable {p q : Program}

theorem WellFormed.of_tables (wf : p.WellFormed) (values : q.values = p.values)
    (funcs : ∀ (id : Nat) f, p.funcs[id]? = some f → ∃ f', q.funcs[id]? = some f' ∧ f'.name = f.name)
    (operators : ∀ entry ∈ q.operators, entry ∈ p.operators ∨
      ∃ f, q.funcs[entry.2]? = some f ∧ f.name = entry.1.operator) : q.WellFormed where
  ids := values ▸ wf.ids
  closed := values ▸ wf.closed
  acyclic := by
    obtain ⟨rank, ranked⟩ := wf.acyclic
    exact ⟨rank, fun id v found => ranked id v (values ▸ found)⟩
  callees id v func args found kind := by
    obtain ⟨f, present⟩ := wf.callees id v func args (values ▸ found) kind
    obtain ⟨f', present', -⟩ := funcs func f present
    exact ⟨f', present'⟩
  operators sig func mem := by
    rcases operators (sig, func) mem with old | new
    · obtain ⟨f, present, name⟩ := wf.operators sig func old
      obtain ⟨f', present', name'⟩ := funcs func f present
      exact ⟨f', present', name'.trans name⟩
    · exact new

/-- Variables that are read, assigned or environments are declared. -/
structure Declared (p : Program) : Prop where
  reads : ∀ (id : Nat) (v : Value) (x : Nat), p.values[id]? = some v → v.kind = .var x →
    x < p.vars.size
  targets : ∀ f ∈ p.functions, ∀ i ∈ f.body, ∀ x : Nat, x ∈ i.target? → x < p.vars.size
  environments : ∀ f ∈ p.functions, ∀ x : Nat, x ∈ f.mpc → x < p.vars.size

theorem Declared.of_tables (h : p.Declared) (values : q.values = p.values)
    (functions : q.functions = p.functions) (vars : p.vars.size ≤ q.vars.size) : q.Declared where
  reads id v x found kind := Nat.lt_of_lt_of_le (h.reads id v x (values ▸ found) kind) vars
  targets f mem i inBody x isTarget :=
    Nat.lt_of_lt_of_le (h.targets f (functions ▸ mem) i inBody x isTarget) vars
  environments f mem x isMpc := Nat.lt_of_lt_of_le (h.environments f (functions ▸ mem) x isMpc) vars

theorem Declared.push (h : p.Declared) (type : Option TypeName) {kind : ValueKind}
    (read : ∀ x : Nat, kind = .var x → x < p.vars.size) : (p.push type kind).2.Declared := by
  refine ⟨fun id v x found isRead => ?_, h.targets, h.environments⟩
  rcases getElem?_push_cases found with ⟨rfl, rfl⟩ | old
  · exact read x isRead
  · exact h.reads id v x old isRead

/-- Each value belongs to one function: its operands do too, and so do the instructions that hold
it. -/
structure Divided (p : Program) (owner : Nat → Nat) : Prop where
  operands : ∀ (id : Nat) (v : Value), p.values[id]? = some v →
    ∀ a : Nat, a ∈ v.operands → owner a = owner id
  bodies : ∀ (index : Nat) f, p.functions[index]? = some f → ∀ i ∈ f.body, owner i.value = index

theorem Divided.of_tables {owner : Nat → Nat} (h : p.Divided owner)
    (values : q.values = p.values) (functions : q.functions = p.functions) : q.Divided owner :=
  ⟨values ▸ h.operands, functions ▸ h.bodies⟩

/-- Every helper has a callee of its name, and bodies and variables are in range. -/
structure Sound (p : Program) : Prop extends WellFormed p, Declared p where
  helpers : p.NamesHelpers
  bodies : ∀ f ∈ p.functions, ∀ i ∈ f.body, i.value < p.values.size

theorem sound_empty : ({} : Program).Sound := by
  refine ⟨⟨?_, ?_, ⟨fun _ => 0, ?_⟩, ?_, ?_⟩, ⟨?_, ?_, ?_⟩, ?_, ?_⟩ <;>
    simp [RankedBy, NamesHelpers]

theorem Sound.addVar (h : p.Sound) (name : String) (type : Option TypeName) :
    (p.addVar name type).2.Sound :=
  ⟨h.toWellFormed.of_tables rfl (fun _ f found => ⟨f, found, rfl⟩) fun _ => .inl,
    h.toDeclared.of_tables rfl rfl (by simp [Program.addVar]), h.helpers, h.bodies⟩

theorem getElem?_addFunc {func : Nat} {f : Func} (name : String) (result : Option TypeName)
    (found : p.funcs[func]? = some f) : (p.addFunc name result).2.funcs[func]? = some f := by
  have lt := (Array.getElem?_eq_some_iff.mp found).1
  simpa [addFunc, Array.getElem?_push, Nat.ne_of_lt lt] using found

theorem getElem?_addFunc_self (p : Program) (name : String) (result : Option TypeName) :
    (p.addFunc name result).2.funcs[(p.addFunc name result).1]? = some ⟨name, result⟩ := by
  simp [addFunc]

theorem Sound.addFunc (h : p.Sound) (name : String) (result : Option TypeName) :
    (p.addFunc name result).2.Sound := by
  refine ⟨h.toWellFormed.of_tables rfl
    (fun _ f found => ⟨f, getElem?_addFunc name result found, rfl⟩) fun _ => .inl,
    h.toDeclared.of_tables rfl rfl (Nat.le_refl _), ?_, h.bodies⟩
  intro helper func mem
  obtain ⟨f, found, isNamed⟩ := h.helpers helper func mem
  exact ⟨f, getElem?_addFunc name result found, isNamed⟩

theorem registerOperator_eq (p : Program) (sig : Signature) (result : TypeName) :
    ∃ funcs operators, (p.registerOperator sig result).2 = { p with funcs, operators } := by
  rw [registerOperator]
  split <;> exact ⟨_, _, rfl⟩

theorem getElem?_registerOperator {id : Nat} {f : Func} (sig : Signature) (result : TypeName)
    (found : p.funcs[id]? = some f) :
    ∃ f', (p.registerOperator sig result).2.funcs[id]? = some f' ∧ f'.name = f.name := by
  rw [registerOperator]
  split
  · dsimp only
    rw [Array.getElem?_modify, found]
    split
    · exact ⟨_, rfl, rfl⟩
    · exact ⟨f, rfl, rfl⟩
  · exact ⟨f, getElem?_addFunc sig.operator (some result) found, rfl⟩

theorem Sound.registerOperator (h : p.Sound) (sig : Signature) (result : TypeName) :
    (p.registerOperator sig result).2.Sound := by
  obtain ⟨funcs, operators, eq⟩ := p.registerOperator_eq sig result
  have values : (p.registerOperator sig result).2.values = p.values := by rw [eq]
  have functions : (p.registerOperator sig result).2.functions = p.functions := by rw [eq]
  have helpers : (p.registerOperator sig result).2.helpers = p.helpers := by rw [eq]
  have kept (id : Nat) (f : Func) (found : p.funcs[id]? = some f) :=
    getElem?_registerOperator sig result found
  refine ⟨h.toWellFormed.of_tables values kept ?_,
    h.toDeclared.of_tables values functions (by rw [eq]), ?_, ?_⟩
  · rw [Program.registerOperator]
    split
    · exact fun _ => .inl
    · intro entry mem
      rcases List.mem_cons.mp mem with rfl | old
      · exact .inr ⟨_, p.getElem?_addFunc_self _ _, rfl⟩
      · exact .inl old
  · intro name func mem
    obtain ⟨f, found, isNamed⟩ := h.helpers name func (helpers ▸ mem)
    obtain ⟨f', found', same⟩ := kept func f found
    exact ⟨f', found', same.trans isNamed⟩
  · rw [functions, values]
    exact h.bodies

theorem Sound.registerHelper (h : p.Sound) (name : String) (result : Option TypeName) :
    (p.registerHelper name result).2.Sound := by
  have added := h.addFunc name result
  refine ⟨added.toWellFormed.of_tables rfl (fun _ f found => ⟨f, found, rfl⟩) fun _ => .inl,
    added.toDeclared.of_tables rfl rfl (Nat.le_refl _), fun helper func mem => ?_, added.bodies⟩
  rcases List.mem_cons.mp mem with eq | old
  · cases eq
    exact ⟨_, p.getElem?_addFunc_self _ _, rfl⟩
  · exact added.helpers helper func old

theorem Sound.push (h : p.Sound) (type : Option TypeName) (kind : ValueKind)
    (closed : ∀ a : Nat, a ∈ Value.operands ⟨p.values.size, type, kind⟩ → a < p.values.size)
    (callee : ∀ func args, kind = .call func args → ∃ f, p.funcs[func]? = some f)
    (read : ∀ x : Nat, kind = .var x → x < p.vars.size) : (p.push type kind).2.Sound := by
  refine ⟨h.toWellFormed.push type kind closed callee, h.toDeclared.push type read, h.helpers,
    fun f mem i inBody => ?_⟩
  exact Nat.lt_of_lt_of_le (h.bodies f mem i inBody) (extends_push p type kind).grows

theorem Sound.addFunction (h : p.Sound) {f : Function}
    (inside : ∀ i ∈ f.body, i.value < p.values.size)
    (targets : ∀ i ∈ f.body, ∀ x : Nat, x ∈ i.target? → x < p.vars.size)
    (environment : ∀ x : Nat, x ∈ f.mpc → x < p.vars.size) : (p.addFunction f).Sound := by
  have each {good : Function → Prop} (old : ∀ g ∈ p.functions, good g) (new : good f) :
      ∀ g ∈ (p.addFunction f).functions, good g := by
    intro g mem
    rcases Array.mem_push.mp mem with known | rfl
    · exact old g known
    · exact new
  exact ⟨h.toWellFormed.of_tables rfl (fun _ f found => ⟨f, found, rfl⟩) fun _ => .inl,
    ⟨h.reads, each h.targets targets, each h.environments environment⟩, h.helpers,
    each h.bodies inside⟩

end Program

namespace Description

def Lowering.size (l : Lowering) : Nat := l.program.values.size

/-- The program is sound and so are the callees that are shared. Values from `base` on belong to the
function that is lowered at present. -/
structure Lowering.Sound (base : Nat) (l : Lowering) : Prop where
  program : l.program.Sound
  unknown : ∀ (name : String) (func : FuncId), (name, func) ∈ l.unknown →
    ∃ f, l.program.funcs[func]? = some f
  base_le : base ≤ l.size
  divided : ∃ owner, l.program.Divided owner ∧
    ∀ a, base ≤ a → owner a = l.program.functions.size

/-- The tables are sound between two functions. -/
def Lowering.Settled (l : Lowering) : Prop := l.Sound l.size

structure Lowering.Grows (l l' : Lowering) : Prop where
  values : l.size ≤ l'.size
  vars : l.program.vars.size ≤ l'.program.vars.size

namespace Lower

variable {α β : Type} {l : Lowering} {base : Nat}

/-- The tables end up as `inv` says and the result is good for them. -/
def Keeps (inv : Lowering → Prop) (x : Lower α) (l : Lowering)
    (good : α → Lowering → Prop) : Prop :=
  ∀ a l', x.run l = .ok (a, l') → inv l' ∧ l.Grows l' ∧ good a l'

section Keeps

variable {inv inv' : Lowering → Prop}

theorem Keeps.bind {x : Lower α} {f : α → Lower β} {good : α → Lowering → Prop}
    {good' : β → Lowering → Prop} (h : Keeps inv x l good)
    (next : ∀ a l', inv l' → l.Grows l' → good a l' → Keeps inv' (f a) l' good') :
    Keeps inv' (x >>= f) l good' := by
  intro b l'' run
  rw [StateT.run_bind] at run
  cases first : x.run l with
  | error e =>
    rw [first] at run
    cases run
  | ok out =>
    obtain ⟨a, l'⟩ := out
    rw [first] at run
    obtain ⟨holds, grows, isGood⟩ := h a l' first
    obtain ⟨holds', grows', isGood'⟩ := next a l' holds grows isGood b l'' run
    exact ⟨holds', ⟨Nat.le_trans grows.values grows'.values, Nat.le_trans grows.vars grows'.vars⟩,
      isGood'⟩

theorem keeps_pure (holds : inv l) {a : α} {good : α → Lowering → Prop} (isGood : good a l) :
    Keeps inv (pure a) l good := by
  rintro _ _ ⟨⟩
  exact ⟨holds, ⟨Nat.le_refl _, Nat.le_refl _⟩, isGood⟩

theorem keeps_throw {e : Error} {good : α → Lowering → Prop} : Keeps inv (throw e) l good := nofun

theorem keeps_get_bind {f : Lowering → Lower β} {good : β → Lowering → Prop} :
    Keeps inv (get >>= f) l good ↔ Keeps inv (f l) l good := Iff.rfl

theorem keeps_mapM {f : α → Lower β} {good : β → Lowering → Prop} {as : List α}
    (mono : ∀ b l l', l.Grows l' → good b l → good b l') (holds : inv l)
    (step : ∀ a ∈ as, ∀ l : Lowering, inv l → Keeps inv (f a) l good) :
    Keeps inv (as.mapM f) l fun bs l' => ∀ b ∈ bs, good b l' := by
  induction as generalizing l with
  | nil => exact keeps_pure holds nofun
  | cons a as ih =>
    rw [List.mapM_cons]
    refine (step a List.mem_cons_self l holds).bind fun b l₁ holds₁ _ isGood => ?_
    refine (ih holds₁ fun a mem => step a (List.mem_cons_of_mem _ mem)).bind
      fun bs l₂ holds₂ grows rest => keeps_pure holds₂ ?_
    exact List.forall_mem_cons.mpr ⟨mono b _ _ grows isGood, rest⟩

theorem keeps_forM {f : α → Lower Unit} {as : List α} (holds : inv l)
    (step : ∀ a ∈ as, ∀ l : Lowering, inv l → Keeps inv (f a) l fun _ _ => True) :
    Keeps inv (as.forM f) l fun _ _ => True := by
  induction as generalizing l with
  | nil => exact keeps_pure holds trivial
  | cons a as ih =>
    rw [List.forM_eq_forM, List.forM_cons]
    refine (step a List.mem_cons_self l holds).bind fun _ l₁ holds₁ _ _ => ?_
    exact ih holds₁ fun a mem => step a (List.mem_cons_of_mem _ mem)

end Keeps

theorem keeps_extend {f : Program → α × Program} {good : α → Lowering → Prop} (sound : l.Sound base)
    (program : (f l.program).2.Sound)
    (funcs : ∀ (id : Nat) g, l.program.funcs[id]? = some g →
      ∃ g', (f l.program).2.funcs[id]? = some g')
    (functions : (f l.program).2.functions = l.program.functions)
    (divided : ∀ owner, l.program.Divided owner →
      (∀ a, base ≤ a → owner a = l.program.functions.size) → (f l.program).2.Divided owner)
    (grows : l.Grows ⟨(f l.program).2, l.unknown⟩)
    (isGood : good (f l.program).1 ⟨(f l.program).2, l.unknown⟩) :
    Keeps (Lowering.Sound base) (extend f) l good := by
  rintro _ _ ⟨⟩
  refine ⟨⟨program, fun name func mem => ?_, Nat.le_trans sound.base_le grows.values, ?_⟩, grows,
    isGood⟩
  · obtain ⟨g, found⟩ := sound.unknown name func mem
    exact funcs func g found
  · obtain ⟨owner, isOwner, current⟩ := sound.divided
    exact ⟨owner, divided owner isOwner current, fun a le => functions ▸ current a le⟩

theorem keeps_declare {f : Program → α × Program} {good : α → Lowering → Prop}
    (sound : l.Sound base) (program : (f l.program).2.Sound)
    (funcs : ∀ (id : Nat) g, l.program.funcs[id]? = some g →
      ∃ g', (f l.program).2.funcs[id]? = some g')
    (values : (f l.program).2.values = l.program.values)
    (functions : (f l.program).2.functions = l.program.functions)
    (vars : l.program.vars.size ≤ (f l.program).2.vars.size)
    (isGood : good (f l.program).1 ⟨(f l.program).2, l.unknown⟩) :
    Keeps (Lowering.Sound base) (extend f) l good := by
  refine keeps_extend sound program funcs functions
    (fun owner divided _ => divided.of_tables values functions) ⟨?_, vars⟩ isGood
  rw [Lowering.size, Lowering.size, values]

theorem keeps_declare_settled {f : Program → α × Program} (settled : l.Settled)
    (program : (f l.program).2.Sound)
    (funcs : ∀ (id : Nat) g, l.program.funcs[id]? = some g →
      ∃ g', (f l.program).2.funcs[id]? = some g')
    (values : (f l.program).2.values = l.program.values)
    (functions : (f l.program).2.functions = l.program.functions)
    (vars : l.program.vars.size ≤ (f l.program).2.vars.size) :
    Keeps Lowering.Settled (extend f >>= fun _ => pure ()) l fun _ _ => True := by
  have extended : Keeps (Lowering.Sound l.size) (extend f) l fun _ l' => l'.size = l.size :=
    keeps_declare settled program funcs values functions vars (congrArg Array.size values)
  refine extended.bind fun _ l' sound' _ same => keeps_pure ?_ trivial
  unfold Lowering.Settled
  rwa [same]

theorem keeps_declared (name function : String) {inv : Lowering → Prop} (holds : inv l) :
    Keeps inv (declared name function) l fun v l' => v < l'.program.vars.size := by
  rw [declared, keeps_get_bind]
  split
  · rename_i v named
    exact keeps_pure holds (Array.findIdx?_eq_some_iff_findIdx_eq.mp named).1
  · exact keeps_throw

/-- A new value, which belongs to the present function if its operands do. -/
theorem keeps_push (type : Program → Option TypeName) (kind : ValueKind) (sound : l.Sound base)
    (inside : ∀ a : Nat, a ∈ Value.operands ⟨l.size, type l.program, kind⟩ → base ≤ a ∧ a < l.size)
    (callee : ∀ func args, kind = .call func args → ∃ f, l.program.funcs[func]? = some f)
    (read : ∀ x : Nat, kind = .var x → x < l.program.vars.size) :
    Keeps (Lowering.Sound base) (extend fun p => p.push (type p) kind) l
      fun v l' => base ≤ v ∧ v < l'.size := by
  refine keeps_extend sound (sound.program.push _ _ (fun a mem => (inside a mem).2) callee read)
    (fun _ g found => ⟨g, found⟩) rfl (fun owner divided current => ⟨?_, divided.bodies⟩)
    ⟨(Program.extends_push _ _ _).grows, Nat.le_refl _⟩ ⟨sound.base_le, ?_⟩
  · intro id v found a mem
    rcases Program.getElem?_push_cases found with ⟨rfl, rfl⟩ | old
    · exact (current a (inside a mem).1).trans (current _ sound.base_le).symm
    · exact divided.operands id v old a mem
  · simp [Program.push, Lowering.size]

theorem exists_callee {name : String} {args : List ValueId} {func : FuncId} (sound : l.Sound base)
    (known : ((operator? l.program name args).or (l.program.helper? name)).or
      (l.unknown.lookup name) = some func) : ∃ f, l.program.funcs[func]? = some f := by
  rcases Option.or_eq_some_iff.mp known with known | ⟨-, shared⟩
  · rcases Option.or_eq_some_iff.mp known with isOperator | ⟨-, isHelper⟩
    · rw [operator?] at isOperator
      split at isOperator
      · obtain ⟨f, found, -⟩ := sound.program.operators _ _ (mem_of_lookup isOperator)
        exact ⟨f, found⟩
      · cases isOperator
    · obtain ⟨f, found, -⟩ := sound.program.helpers name func (mem_of_lookup isHelper)
      exact ⟨f, found⟩
  · exact sound.unknown name func (mem_of_lookup shared)

theorem keeps_call (name : String) {args : List ValueId} (sound : l.Sound base)
    (inside : ∀ a : Nat, a ∈ args → base ≤ a ∧ a < l.size) :
    Keeps (Lowering.Sound base) (call name args) l fun v l' => base ≤ v ∧ v < l'.size := by
  have append {l' : Lowering} {func : FuncId} (sound : l'.Sound base) (same : l'.size = l.size)
      (callee : ∃ f, l'.program.funcs[func]? = some f) :
      Keeps (Lowering.Sound base) (extend (·.addCall func args)) l'
        fun v l' => base ≤ v ∧ v < l'.size :=
    keeps_push (fun p => p.funcs[func]?.bind (·.result)) (.call func args) sound
      (fun a mem => same ▸ inside a mem) (by rintro _ _ ⟨⟩; exact callee) (by simp)
  rw [call, callee, bind_assoc, keeps_get_bind]
  dsimp only
  split
  · rename_i func known
    exact append sound rfl (exists_callee sound known)
  · -- A new callee is shared from now on.
    let func := l.program.addFunc name none
    have new : ∃ f, func.2.funcs[func.1]? = some f := ⟨_, l.program.getElem?_addFunc_self _ _⟩
    have sound' : Lowering.Sound base ⟨func.2, (name, func.1) :: l.unknown⟩ := by
      refine ⟨sound.program.addFunc name none, fun other id mem => ?_, sound.base_le, ?_⟩
      · rcases List.mem_cons.mp mem with eq | old
        · cases eq
          exact new
        · obtain ⟨f, found⟩ := sound.unknown other id old
          exact ⟨f, Program.getElem?_addFunc name none found⟩
      · obtain ⟨owner, divided, current⟩ := sound.divided
        exact ⟨owner, divided.of_tables rfl rfl, current⟩
    intro v l' run
    obtain ⟨sound'', grows, isGood⟩ := append sound' rfl new v l' run
    exact ⟨sound'', ⟨grows.values, grows.vars⟩, isGood⟩

mutual

theorem keeps_expr (function : String) (e : Expr) {l : Lowering} (sound : l.Sound base) :
    Keeps (Lowering.Sound base) (expr function e) l fun v l' => base ≤ v ∧ v < l'.size := by
  cases e with
  | int n =>
    exact keeps_push (fun _ => some .int) (.int n) sound (by simp [Value.operands]) (by simp)
      (by simp)
  | float x =>
    exact keeps_push (fun _ => some .float) (.float x) sound (by simp [Value.operands]) (by simp)
      (by simp)
  | var name =>
    rw [expr]
    refine (keeps_declared name function sound).bind fun v l' sound' _ isVar => ?_
    refine keeps_push (fun p => p.vars[v]?.bind (·.type)) (.var v) sound'
      (by simp [Value.operands]) (by simp) ?_
    rintro _ ⟨⟩
    exact isVar
  | call name args =>
    rw [expr]
    exact (keeps_exprs function args sound).bind fun values l' sound' _ inside =>
      keeps_call name sound' inside

theorem keeps_exprs (function : String) (es : List Expr) {l : Lowering} (sound : l.Sound base) :
    Keeps (Lowering.Sound base) (exprs function es) l
      fun vs l' => ∀ v : Nat, v ∈ vs → base ≤ v ∧ v < l'.size := by
  cases es with
  | nil => exact keeps_pure sound nofun
  | cons e rest =>
    rw [exprs]
    refine (keeps_expr function e sound).bind fun v l₁ sound₁ _ inside => ?_
    refine (keeps_exprs function rest sound₁).bind fun vs l₂ sound₂ grows insideRest =>
      keeps_pure sound₂ ?_
    exact List.forall_mem_cons.mpr
      ⟨⟨inside.1, Nat.lt_of_lt_of_le inside.2 grows.values⟩, insideRest⟩

end

theorem keeps_target (name : String) (value : ValueId) (sound : l.Sound base) :
    Keeps (Lowering.Sound base) (target name value) l fun v l' => v < l'.program.vars.size := by
  rw [target, keeps_get_bind]
  dsimp only
  split
  · rename_i v named
    exact keeps_pure sound (Array.findIdx?_eq_some_iff_findIdx_eq.mp named).1
  · exact keeps_declare sound (sound.program.addVar _ _) (fun _ g found => ⟨g, found⟩) rfl rfl
      (by simp [Program.addVar]) (by simp [Program.addVar])

/-- The instruction holds a value of the present function, and what it assigns is declared. -/
def Placed (base : Nat) (i : Instruction) (l : Lowering) : Prop :=
  (base ≤ i.value ∧ i.value < l.size) ∧ ∀ x : Nat, x ∈ i.target? → x < l.program.vars.size

theorem keeps_statement (function : String) (st : Statement) (sound : l.Sound base) :
    Keeps (Lowering.Sound base) (statement function st) l (Placed base) := by
  cases st with
  | ret e =>
    exact (keeps_expr function e sound).bind fun v l' sound' _ inside =>
      keeps_pure sound' ⟨inside, by simp [Instruction.target?]⟩
  | assign name e =>
    refine (keeps_expr function e sound).bind fun v l' sound' _ inside => ?_
    refine (keeps_target name v sound').bind fun x l'' sound'' grows isVar =>
      keeps_pure sound'' ⟨⟨inside.1, Nat.lt_of_lt_of_le inside.2 grows.values⟩, ?_⟩
    rintro _ ⟨⟩
    exact isVar
  | eval e =>
    exact (keeps_expr function e sound).bind fun v l' sound' _ inside =>
      keeps_pure sound' ⟨inside, by simp [Instruction.target?]⟩

/-- The function owns its values, and what is appended from now on belongs to the next one. -/
theorem keeps_addFunction {f : Function} (sound : l.Sound base)
    (placed : ∀ i ∈ f.body, Placed base i l)
    (environment : ∀ x : Nat, x ∈ f.mpc → x < l.program.vars.size) :
    Keeps Lowering.Settled (extend fun p => ((), p.addFunction f)) l fun _ _ => True := by
  rintro _ _ ⟨⟩
  refine ⟨⟨?_, sound.unknown, Nat.le_refl _, ?_⟩, ⟨Nat.le_refl _, Nat.le_refl _⟩, trivial⟩
  · exact sound.program.addFunction (fun i mem => (placed i mem).1.2)
      (fun i mem => (placed i mem).2) environment
  · obtain ⟨owner, divided, current⟩ := sound.divided
    let next (a : Nat) := if a < l.size then owner a else l.program.functions.size + 1
    have old {a : Nat} (lt : a < l.size) : next a = owner a := if_pos lt
    refine ⟨next, ⟨fun id v found a mem => ?_, fun index g found i mem => ?_⟩, fun a le => ?_⟩
    · have lt : id < l.size := (Array.getElem?_eq_some_iff.mp found).1
      rw [old lt, old (sound.program.closed id v found a mem)]
      exact divided.operands id v found a mem
    · rw [Program.addFunction, Array.getElem?_push] at found
      split at found
      · rename_i last
        cases found
        rw [old (placed i mem).1.2, last, current _ (placed i mem).1.1]
      · rw [old (sound.program.bodies g (Array.mem_of_getElem? found) i mem)]
        exact divided.bodies index g found i mem
    · have new : next a = l.program.functions.size + 1 := if_neg (Nat.not_lt.mpr le)
      simpa [Program.addFunction] using new

theorem keeps_function (d : FunctionDecl) (settled : l.Settled) :
    Keeps Lowering.Settled (function d) l fun _ _ => True := by
  have start : l.Sound l.size := settled
  have environment : Keeps (Lowering.Sound l.size) (d.mpc.mapM (declared · d.name)) l
      fun mpc l' => ∀ x : Nat, x ∈ mpc → x < l'.program.vars.size := by
    cases d.mpc with
    | none => exact keeps_pure start nofun
    | some name =>
      refine (keeps_declared name d.name start).bind fun v l' sound' _ isVar =>
        keeps_pure sound' ?_
      rintro _ ⟨⟩
      exact isVar
  rw [function]
  refine environment.bind fun mpc l₁ sound₁ _ isMpc => ?_
  have params : Keeps (Lowering.Sound l.size) (d.params.mapM (declared · d.name)) l₁
      fun params l' => ∀ x : Nat, x ∈ params → x < l'.program.vars.size :=
    keeps_mapM (fun _ _ _ grows lt => Nat.lt_of_lt_of_le lt grows.vars) sound₁
      fun name _ l sound => keeps_declared name d.name sound
  refine params.bind fun params l₂ sound₂ grows _ => ?_
  have body : Keeps (Lowering.Sound l.size) (d.body.mapM (statement d.name)) l₂
      fun body l' => ∀ i ∈ body, Placed l.size i l' := by
    refine keeps_mapM (fun i l l' grows placed => ⟨⟨placed.1.1, ?_⟩, fun x isTarget => ?_⟩) sound₂
      fun st _ l sound => keeps_statement d.name st sound
    · exact Nat.lt_of_lt_of_le placed.1.2 grows.values
    · exact Nat.lt_of_lt_of_le (placed.2 x isTarget) grows.vars
  refine body.bind fun body l₃ sound₃ grows' placed => ?_
  exact keeps_addFunction sound₃ placed fun x mem =>
    Nat.lt_of_lt_of_le (isMpc x mem) (Nat.le_trans grows.vars grows'.vars)

theorem keeps_var (d : VarDecl) (settled : l.Settled) :
    Keeps Lowering.Settled (var d) l fun _ _ => True := by
  rw [var, keeps_get_bind]
  split
  · rintro _ _ ⟨⟩
  · exact keeps_declare_settled settled (settled.program.addVar _ _) (fun _ g found => ⟨g, found⟩)
      rfl rfl (by simp [Program.addVar])

theorem keeps_operator (d : OperatorDecl) (settled : l.Settled) :
    Keeps Lowering.Settled (operator d) l fun _ _ => True := by
  rw [operator]
  obtain ⟨funcs, operators, eq⟩ :=
    l.program.registerOperator_eq ⟨d.receiver, d.operator, d.operands⟩ d.result
  refine keeps_declare_settled settled (settled.program.registerOperator _ _) (fun id g found => ?_)
    (by rw [eq]) (by rw [eq]) (by rw [eq])
  obtain ⟨g', found', -⟩ := Program.getElem?_registerOperator _ d.result found
  exact ⟨g', found'⟩

theorem keeps_helper (d : HelperDecl) (settled : l.Settled) :
    Keeps Lowering.Settled (helper d) l fun _ _ => True := by
  rw [helper]
  exact keeps_declare_settled settled (settled.program.registerHelper _ _)
    (fun _ g found => ⟨g, Program.getElem?_addFunc _ _ found⟩) rfl rfl (Nat.le_refl _)

theorem keeps_description (d : Description) (settled : l.Settled) :
    Keeps Lowering.Settled (description d) l fun _ _ => True := by
  rw [description]
  refine (keeps_forM settled fun v _ l settled => keeps_var v settled).bind
    fun _ l₁ settled₁ _ _ => ?_
  refine (keeps_forM settled₁ fun o _ l settled => keeps_operator o settled).bind
    fun _ l₂ settled₂ _ _ => ?_
  refine (keeps_forM settled₂ fun h _ l settled => keeps_helper h settled).bind
    fun _ l₃ settled₃ _ _ => ?_
  exact keeps_forM settled₃ fun f _ l settled => keeps_function f settled

end Lower

theorem settled_of_lower {d : Description} {p : Program} (h : d.lower = .ok p) :
    p.Sound ∧ ∃ owner, p.Divided owner := by
  rw [lower] at h
  cases run : (Lower.description d).run {} with
  | error e =>
    rw [run] at h
    cases h
  | ok out =>
    rw [run] at h
    cases h
    have start : Lowering.Settled {} := by
      refine ⟨Program.sound_empty, nofun, Nat.le_refl _, fun _ => 0, ⟨?_, ?_⟩, fun _ _ => rfl⟩
      · simp
      · simp
    have settled := (Lower.keeps_description d start _ _ run).1
    obtain ⟨owner, divided, -⟩ := settled.divided
    exact ⟨settled.program, owner, divided⟩

theorem sound_of_lower {d : Description} {p : Program} (h : d.lower = .ok p) : p.Sound :=
  (settled_of_lower h).1

def first? (d : Description) : Option (Program × Function) :=
  match d.lower with
  | .ok p => p.functions[0]?.map (p, ·)
  | .error _ => none

theorem lower_of_first? {d : Description} {p : Program} {f : Function}
    (h : d.first? = some (p, f)) : d.lower = .ok p ∧ f ∈ p.functions := by
  unfold first? at h
  split at h
  · rename_i q lowered
    obtain ⟨g, found, eq⟩ := Option.map_eq_some_iff.mp h
    cases eq
    exact ⟨lowered, Array.mem_of_getElem? found⟩
  · cases h

end Description

namespace Program

variable {p : Program}

/-- The program is what some description says. -/
def Described (p : Program) : Prop := ∃ d : Description, d.lower = .ok p

theorem Described.sound (h : p.Described) : p.Sound := by
  obtain ⟨d, lowered⟩ := h
  exact Description.sound_of_lower lowered

theorem Described.divided (h : p.Described) : ∃ owner, p.Divided owner := by
  obtain ⟨d, lowered⟩ := h
  exact (Description.settled_of_lower lowered).2

theorem described_of_ofText {text : String} (h : Program.ofText text = .ok p) : p.Described := by
  rw [ofText] at h
  split at h
  · cases h
  · rename_i d _
    cases lowered : d.lower with
    | error e =>
      rw [lowered] at h
      cases h
    | ok q =>
      rw [lowered] at h
      cases h
      exact ⟨d, lowered⟩

end Program

end SecureArith
