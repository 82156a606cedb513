import SecureArith.Proofs.MatrixChain
import SecureArith.Proofs.Renaming.Program

set_option autoImplicit false

/-!
# Chains under other names

Chains that are owned are found and replaced in the same way by any names. Each replacement leaves
one product less, so the numbers of replacements that are allowed for do not matter.
-/

namespace SecureArith

variable {ρ : Renaming}

namespace Program

variable {others : ValueId → Option Value} {p q : Program} {a chain depth : Nat}
  {operands : List ValueId}

/-! ## Searches -/

theorem findSomeM?_congr {α β : Type} {f g : α → Option (Option β)} {l : List α}
    (same : ∀ a ∈ l, f a = g a) : l.findSomeM? f = l.findSomeM? g := by
  induction l with
  | nil => rfl
  | cons a l ih =>
    rw [List.findSomeM?, List.findSomeM?, same a List.mem_cons_self,
      ih fun b mem => same b (List.mem_cons_of_mem a mem)]

theorem mapM_map_eq {α β γ δ : Type} {f : α → β} {g : β → Option δ} {k : α → Option γ} {h : γ → δ}
    {l : List α} (same : ∀ a ∈ l, g (f a) = (k a).map h) :
    (l.map f).mapM g = (l.mapM k).map (·.map h) := by
  induction l with
  | nil => rfl
  | cons a l ih =>
    rw [List.map_cons, List.mapM_cons, List.mapM_cons, same a List.mem_cons_self,
      ih fun b mem => same b (List.mem_cons_of_mem a mem)]
    cases k a with
    | none => rfl
    | some c => cases l.mapM k <;> rfl

theorem WellFormed.firstChain?_eq (wf : p.WellFormed) (lt : a < p.values.size)
    (deep : p.values.size ≤ depth) : p.first? p.isChain? depth a = p.firstChain? a := by
  apply wf.eq_of_depth _ lt deep
  intro n m id v found same
  rw [first?, first?, found]
  change (p.isChain? id).bind _ = (p.isChain? id).bind _
  congr 1
  funext isChain
  cases isChain with
  | true => rfl
  | false => exact findSomeM?_congr same

theorem chainOperands?_succ {v : Value} (found : p.values[a]? = some v) (depth : Nat) :
    p.chainOperands? (depth + 1) a = ((v.operands.take 2).mapM fun x =>
      (p.isMatmul? x).bind fun isMatmul =>
        if isMatmul then p.chainOperands? depth x else some [x]).map List.flatten := by
  rw [chainOperands?, found, Option.map_eq_bind]
  rfl

theorem WellFormed.chainOperands?_eq (wf : p.WellFormed) (lt : a < p.values.size)
    (deep : p.values.size ≤ depth) :
    p.chainOperands? depth a = p.chainOperands? p.values.size a := by
  apply wf.eq_of_depth _ lt deep
  intro n m id v found same
  rw [chainOperands?_succ found, chainOperands?_succ found]
  congr 1
  apply mapM_congr
  intro x mem
  rw [same x (List.mem_of_mem_take mem)]

namespace Renamed

theorem isMatmul?_eq (h : p.Renamed ρ others q) (own : ρ.owns a) :
    q.isMatmul? (ρ.name a) = p.isMatmul? a := by
  unfold isMatmul? isCallOf?
  rw [h.values a own]
  cases p.values[a]? with
  | none => rfl
  | some v =>
    obtain ⟨_, _, kind⟩ := v
    cases kind with
    | int | float | var | tuple => rfl
    | call func args =>
      cases args with
      | nil => rfl
      | cons x rest =>
        change (q.funcName? func).bind _ = (p.funcName? func).bind _
        rw [funcName?, funcName?, h.funcs_eq]

theorem isChain?_eq (h : p.Renamed ρ others q) (own : ρ.owns a) :
    q.isChain? (ρ.name a) = p.isChain? a := by
  have each (l : List ValueId) (owns : ∀ x ∈ l, ρ.owns x) :
      (l.map ρ.name).anyM q.isMatmul? = l.anyM p.isMatmul? := by
    induction l with
    | nil => rfl
    | cons x l ih =>
      rw [List.map_cons, List.anyM, List.anyM, h.isMatmul?_eq (owns x List.mem_cons_self),
        ih fun y mem => owns y (List.mem_cons_of_mem x mem)]
  unfold isChain?
  rw [h.values a own, h.isMatmul?_eq own]
  cases found : p.values[a]? with
  | none => rfl
  | some v =>
    change (p.isMatmul? a <&&> (v.rename ρ).operands.anyM q.isMatmul?) =
      (p.isMatmul? a <&&> v.operands.anyM p.isMatmul?)
    rw [Value.operands_rename, each _ (h.closed a v own found)]

theorem first?_eq_map (h : p.Renamed ρ others q) (own : ρ.owns a) (depth : Nat) :
    q.first? q.isChain? depth (ρ.name a) = (p.first? p.isChain? depth a).map (·.map ρ.name) := by
  induction depth generalizing a with
  | zero => rfl
  | succ depth ih =>
    have each (l : List ValueId) (owns : ∀ x ∈ l, ρ.owns x) :
        (l.map ρ.name).findSomeM? (q.first? q.isChain? depth) =
          (l.findSomeM? (p.first? p.isChain? depth)).map (·.map ρ.name) := by
      induction l with
      | nil => rfl
      | cons x l below =>
        rw [List.map_cons, List.findSomeM?, List.findSomeM?, ih (owns x List.mem_cons_self),
          below fun y mem => owns y (List.mem_cons_of_mem x mem)]
        cases p.first? p.isChain? depth x with
        | none => rfl
        | some found => cases found <;> rfl
    rw [first?, first?, h.isChain?_eq own, h.values a own]
    cases p.isChain? a with
    | none => rfl
    | some isChain =>
      cases isChain with
      | true => rfl
      | false =>
        cases found : p.values[a]? with
        | none => rfl
        | some v =>
          change (v.rename ρ).operands.findSomeM? (q.first? q.isChain? depth) =
            (v.operands.findSomeM? (p.first? p.isChain? depth)).map (·.map ρ.name)
          rw [Value.operands_rename]
          exact each _ (h.closed a v own found)

theorem chainOperands?_eq_map (h : p.Renamed ρ others q) (own : ρ.owns a) (depth : Nat) :
    q.chainOperands? depth (ρ.name a) = (p.chainOperands? depth a).map (·.map ρ.name) := by
  induction depth generalizing a with
  | zero => rfl
  | succ depth ih =>
    cases found : p.values[a]? with
    | none =>
      have found' := h.values a own
      rw [found] at found'
      rw [chainOperands?, chainOperands?, found, found']
      rfl
    | some v =>
      rw [chainOperands?_succ found, chainOperands?_succ (h.value own found), Value.operands_rename,
        ← List.map_take, mapM_map_eq (h := List.map ρ.name), Option.map_map, Option.map_map]
      · congr 1
        funext parts
        exact List.map_flatten.symm
      · intro x mem
        have owns := h.closed a v own found x (List.mem_of_mem_take mem)
        rw [h.isMatmul?_eq owns, ih owns]
        cases p.isMatmul? x with
        | none => rfl
        | some isMatmul => cases isMatmul <;> rfl

theorem owns_first? {test : ValueId → Option Bool} (h : p.Renamed ρ others q) (own : ρ.owns a)
    (found : p.first? test depth a = some (some chain)) : ρ.owns chain := by
  induction depth generalizing a with
  | zero => cases found
  | succ depth ih =>
    rw [first?] at found
    obtain ⟨passes, -, found⟩ := Option.bind_eq_some_iff.mp found
    cases passes with
    | true =>
      cases found
      exact own
    | false =>
      obtain ⟨v, there, found⟩ := Option.bind_eq_some_iff.mp found
      obtain ⟨x, mem, below⟩ := exists_of_findSomeM? found
      exact ih (h.closed a v own there x mem) below

theorem owns_chainOperands? (h : p.Renamed ρ others q) (own : ρ.owns a)
    (flattened : p.chainOperands? depth a = some operands) : ∀ x ∈ operands, ρ.owns x := by
  induction depth generalizing a operands with
  | zero => cases flattened
  | succ depth ih =>
    obtain ⟨v, parts, found, rfl, isPart⟩ := exists_parts flattened
    intro x mem
    obtain ⟨part, inParts, inPart⟩ := List.mem_flatten.mp mem
    obtain ⟨y, isOperand, isPart⟩ := exists_of_mem_right isPart inParts
    have owns := h.closed a v own found y (List.mem_of_mem_take isOperand)
    rcases isPart with ⟨-, below⟩ | ⟨-, rfl⟩
    · exact ih owns below x inPart
    · cases List.mem_singleton.mp inPart
      exact owns

theorem firstChain?_eq (h : p.Renamed ρ others q) (wf : p.WellFormed) (wf' : q.WellFormed)
    (own : ρ.owns a) (lt : a < p.values.size) :
    q.firstChain? (ρ.name a) = (p.firstChain? a).map (·.map ρ.name) := by
  have lt' := (Array.getElem?_eq_some_iff.mp (h.value own (Array.getElem?_eq_getElem lt))).1
  rw [← wf.firstChain?_eq lt (Nat.le_max_left p.values.size q.values.size),
    ← wf'.firstChain?_eq lt' (Nat.le_max_right p.values.size q.values.size)]
  exact h.first?_eq_map own _

theorem chainOperands?_eq (h : p.Renamed ρ others q) (wf : p.WellFormed) (wf' : q.WellFormed)
    (own : ρ.owns a) (lt : a < p.values.size) :
    q.chainOperands? q.values.size (ρ.name a) =
      (p.chainOperands? p.values.size a).map (·.map ρ.name) := by
  have lt' := (Array.getElem?_eq_some_iff.mp (h.value own (Array.getElem?_eq_getElem lt))).1
  rw [← wf.chainOperands?_eq lt (Nat.le_max_left p.values.size q.values.size),
    ← wf'.chainOperands?_eq lt' (Nat.le_max_right p.values.size q.values.size)]
  exact h.chainOperands?_eq_map own _

theorem replaceValue (h : p.Renamed ρ others q) (own : ρ.owns a) {kind : ValueKind}
    (type : Option TypeName) (owns : ∀ x ∈ Value.operands ⟨a, type, kind⟩, ρ.owns x) :
    (p.replaceValue a kind type).Renamed ρ others
      (q.replaceValue (ρ.name a) (kind.rename ρ) type) := by
  constructor
  case tables =>
    exact congrArg (fun r : Program => { r with values := (p.replaceValue a kind type).values })
      h.tables
  case injective => exact h.injective
  case values =>
    intro x owned
    simp only [Program.replaceValue, Array.getElem?_modify]
    by_cases same : a = x
    · subst same
      rw [if_pos rfl, if_pos rfl, h.values a own, Option.map_map, Option.map_map]
      rfl
    · have other : ρ.name a ≠ ρ.name x := fun eq => same (h.injective a x own owned eq)
      rw [if_neg same, if_neg other]
      exact h.values x owned
  case others =>
    intro b unnamed
    simp only [Program.replaceValue, Array.getElem?_modify, if_neg (unnamed a own)]
    exact h.others b unnamed
  case ids =>
    intro x v owned found
    simp only [Program.replaceValue, Array.getElem?_modify] at found
    split at found
    · obtain ⟨w, there, rfl⟩ := Option.map_eq_some_iff.mp found
      exact h.ids x w owned there
    · exact h.ids x v owned found
  case closed =>
    intro x v owned found
    simp only [Program.replaceValue, Array.getElem?_modify] at found
    split at found
    · obtain ⟨w, there, rfl⟩ := Option.map_eq_some_iff.mp found
      exact owns
    · exact h.closed x v owned found
  case new =>
    intro n
    simpa [Program.replaceValue] using h.new n

end Renamed

end Program

/-! ## Replacing chains -/

namespace Work

variable {others : ValueId → Option Value} {level : Option Level} {b c : Bench} {mpc : VarId}
  {environment environment' : Option ValueId} {chain root n n' : Nat} {roots roots' : List ValueId}
  {marks marks' : Marks}

theorem agrees_readEnvironment (names : Option.Rel ρ.Names environment environment') :
    Agrees (Bench.Renamed ρ level (Program.Renamed ρ others)) Failure.Like ρ.Names
      (readEnvironment mpc environment) (readEnvironment mpc environment') := by
  cases names with
  | some names => exact .pure names
  | none =>
    apply Agrees.get.bind
    intro b c related
    rw [related.program.vars_eq]
    have known : Option.Rel Eq b.program.vars[mpc]? b.program.vars[mpc]? := by
      cases b.program.vars[mpc]? with
      | none => exact .none
      | some x => exact .some rfl
    apply (agrees_demand known).bind
    intro _ _ _
    apply agrees_onProgram
    intro p q renamed
    refine ⟨renamed.names_size, ?_⟩
    rw [Program.addRead, Program.addRead, renamed.vars_eq]
    exact renamed.push _ fun _ mem => absurd mem List.not_mem_nil

theorem agrees_callHelper {operands : List ValueId} {helper : FuncId} {type : Option TypeName}
    (own : ρ.owns chain) (owns : ∀ x ∈ operands, ρ.owns x)
    (names : Option.Rel ρ.Names environment environment') :
    Agrees (Bench.Renamed ρ level (Program.Renamed ρ others)) Failure.Like ρ.Names
      (do
        let environment ← readEnvironment mpc environment
        let tuple ← onProgram (·.addTuple operands)
        replaceValue chain (.call helper [environment, tuple]) type
        note (.chainReplaced operands.length chain)
        return environment)
      (do
        let environment ← readEnvironment mpc environment'
        let tuple ← onProgram (·.addTuple (operands.map ρ.name))
        replaceValue (ρ.name chain) (.call helper [environment, tuple]) type
        note (.chainReplaced (operands.map ρ.name).length (ρ.name chain))
        return environment) := by
  apply (agrees_readEnvironment names).bind
  intro read read' reads
  have tuple : Agrees (Bench.Renamed ρ level (Program.Renamed ρ others)) Failure.Like ρ.Names
      (onProgram (·.addTuple operands)) (onProgram (·.addTuple (operands.map ρ.name))) := by
    apply agrees_onProgram
    intro p q renamed
    exact ⟨renamed.names_size, renamed.push none owns⟩
  apply tuple.bind
  intro tuple tuple' elements
  have replace : Agrees (Bench.Renamed ρ level (Program.Renamed ρ others)) Failure.Like
      (fun _ _ => True)
      (replaceValue chain (.call helper [read, tuple]) type)
      (replaceValue (ρ.name chain) (.call helper [read', tuple']) type) := by
    apply (agrees_value (fun _ _ h => h) own).bind
    intro _ _ _
    apply agrees_onProgram
    intro p q renamed
    refine ⟨trivial, ?_⟩
    rw [reads.eq, elements.eq]
    apply renamed.replaceValue own type
    intro x mem
    simp only [Value.operands, List.mem_cons, List.not_mem_nil, or_false] at mem
    rcases mem with rfl | rfl
    · exact reads.owns
    · exact elements.owns
  apply replace.bind
  intro _ _ _
  apply (agrees_note _ _).bind
  intro _ _ _
  exact .pure reads

theorem alike_replaceChain (related : Bench.Renamed ρ level (Program.Renamed ρ others) b c)
    (wf : b.program.WellFormed) (wf' : c.program.WellFormed) (own : ρ.owns chain)
    (lt : chain < b.program.values.size) (names : Option.Rel ρ.Names environment environment') :
    Alike (replaceChain mpc environment chain) (replaceChain mpc environment' (ρ.name chain)) b c
      (fun read read' b c =>
        ρ.Names read read' ∧ Bench.Renamed ρ level (Program.Renamed ρ others) b c)
      fun e e' b c => e.Like e' ∧ Bench.Renamed ρ level (Program.Renamed ρ others) b c := by
  have program := related.program
  obtain ⟨operands, flattened⟩ := Option.isSome_iff_exists.mp (wf.isSome_chainOperands? lt)
  have flattened' := program.chainOperands?_eq wf wf' own lt
  have owns := program.owns_chainOperands? own flattened
  unfold replaceChain
  apply Alike.get_bind
  dsimp only
  rw [flattened', flattened, Program.helper?, Program.helper?, program.helpers_eq]
  cases b.program.helpers.lookup MatrixChain.helperName with
  | none => exact ⟨rfl, related⟩
  | some helper =>
    have type : c.program.values[ρ.name chain]?.bind (·.type) =
        b.program.values[chain]?.bind (·.type) := by
      rw [program.values chain own]
      cases b.program.values[chain]? <;> rfl
    dsimp only
    rw [type, program.funcs_eq]
    cases b.program.funcs[helper]? with
    | none => exact ⟨rfl, related⟩
    | some callee =>
      dsimp only [demand, pure_bind]
      exact agrees_callHelper own owns names b c related

/-- The chains of one value, however many are allowed for and whatever has been marked. -/
theorem alike_replaceChainsAt (related : Bench.Renamed ρ level (Program.Renamed ρ others) b c)
    (ready : b.program.Chainable environment) (ready' : c.program.Chainable environment')
    (marked : b.program.Marked marks) (marked' : c.program.Marked marks')
    (own : ρ.owns root) (lt : root < b.program.values.size)
    (names : Option.Rel ρ.Names environment environment')
    (enough : b.program.matmuls.card < n) (enough' : c.program.matmuls.card < n') :
    Alike (replaceChainsAt mpc root n marks environment)
      (replaceChainsAt mpc (ρ.name root) n' marks' environment') b c
      (fun out out' b c => out'.1 = out.1 ∧ Option.Rel ρ.Names out.2 out'.2 ∧
        Bench.Renamed ρ level (Program.Renamed ρ others) b c)
      fun e e' b c => e.Like e' ∧ Bench.Renamed ρ level (Program.Renamed ρ others) b c := by
  induction n generalizing n' b c marks marks' environment environment' with
  | zero => exact absurd enough (Nat.not_lt_zero _)
  | succ n ih =>
    cases n' with
    | zero => exact absurd enough' (Nat.not_lt_zero _)
    | succ n' =>
      have program := related.program
      have defined := ready.isSome_firstChain? lt
      have first' := program.firstChain?_eq ready.toWellFormed ready'.toWellFormed own lt
      obtain ⟨marks₁, next, marked₁⟩ := ready.nextChain?_eq marked root
      obtain ⟨marks₁', next', marked₁'⟩ := ready'.nextChain?_eq marked' (ρ.name root)
      rw [replaceChainsAt, replaceChainsAt]
      apply Alike.get_bind
      dsimp only
      rw [next, next', first']
      cases first : b.program.firstChain? root with
      | none =>
        rw [first] at defined
        cases defined
      | some found =>
        cases found with
        | none => exact ⟨rfl, names, related⟩
        | some chain =>
          have isChain := Program.isChain?_of_firstChain? first
          have owned := program.owns_first? own first
          obtain ⟨w, there⟩ := Program.exists_of_isChain? isChain
          have chainLt := (Array.getElem?_eq_some_iff.mp there).1
          have isChain' := (program.isChain?_eq owned).trans isChain
          change Alike (replaceChain mpc environment chain >>= _)
            (replaceChain mpc environment' (ρ.name chain) >>= _) b c _ _
          apply Alike.bind
          apply (((alike_replaceChain related ready.toWellFormed ready'.toWellFormed owned chainLt
            names).and_left (ends_replaceChain ready isChain)).and_right
            (ends_replaceChain ready' isChain')).imp
          · rintro read read' b₁ c₁ ⟨⟨⟨reads, related₁⟩, contracts⟩, contracts'⟩
            apply Alike.bind
            have fewer := contracts.card_matmuls_lt ready
            have fewer' := contracts'.card_matmuls_lt ready'
            apply (ih related₁ (contracts.chainable ready) (contracts'.chainable ready')
              (contracts.marked ready marked₁) (contracts'.marked ready' marked₁')
              (Nat.lt_of_lt_of_le lt contracts.grows) (.some reads) (by omega) (by omega)).imp
            · rintro ⟨count, last⟩ ⟨count', last'⟩ b₂ c₂ ⟨rfl, lasts, related₂⟩
              exact ⟨rfl, lasts, related₂⟩
            · exact fun _ _ _ _ fails => fails
          · exact fun _ _ _ _ fails => fails.1.1

theorem alike_replaceChains (related : Bench.Renamed ρ level (Program.Renamed ρ others) b c)
    (ready : b.program.Chainable environment) (ready' : c.program.Chainable environment')
    (rooted : List.Forall₂ ρ.Names roots roots')
    (inside : ∀ root : Nat, root ∈ roots → root < b.program.values.size)
    (names : Option.Rel ρ.Names environment environment') :
    Alike (replaceChains mpc roots environment) (replaceChains mpc roots' environment') b c
      (fun count count' b c => count' = count ∧
        Bench.Renamed ρ level (Program.Renamed ρ others) b c)
      fun e e' b c => e.Like e' ∧ Bench.Renamed ρ level (Program.Renamed ρ others) b c := by
  induction rooted generalizing b c environment environment' with
  | nil => exact ⟨rfl, related⟩
  | @cons root root' rest rest' head _ ih =>
    have enough := Nat.lt_succ_of_le b.program.card_matmuls_le
    have enough' := Nat.lt_succ_of_le c.program.card_matmuls_le
    rw [replaceChains, replaceChains, head.eq]
    apply Alike.get_bind
    apply Alike.bind
    have marked := b.program.marked_replicate
    have marked' := c.program.marked_replicate
    apply (((alike_replaceChainsAt related ready ready' marked marked' head.owns
      (inside root List.mem_cons_self) names enough enough').and_left
      (ends_replaceChainsAt ready marked enough)).and_right
      (ends_replaceChainsAt ready' marked' enough')).imp
    · rintro ⟨count, last⟩ ⟨count', last'⟩ b₁ c₁ ⟨⟨⟨rfl, lasts, related₁⟩, exhausts⟩, exhausts'⟩
      have contracted := exhausts.contracted
      have contracted' := exhausts'.contracted
      apply Alike.bind
      apply (ih related₁ (contracted.chainable ready) (contracted'.chainable ready')
        (fun a mem =>
          Nat.lt_of_lt_of_le (inside a (List.mem_cons_of_mem root mem)) contracted.grows)
        lasts).imp
      · rintro more _ b₂ c₂ ⟨rfl, related₂⟩
        exact ⟨rfl, related₂⟩
      · exact fun _ _ _ _ fails => fails
    · exact fun _ _ _ _ fails => fails.1.1

theorem alike_replaceChainsOf {s : Settings} {f : Function} {body body' : List Instruction}
    (related : Bench.Renamed ρ level (Program.Renamed ρ others) b c)
    (ready : b.program.Chainable none) (ready' : c.program.Chainable none)
    (renamed : List.Forall₂ (Instruction.Renamed ρ) body body')
    (inside : ∀ i ∈ body, i.value < b.program.values.size) :
    Alike (replaceChainsOf s f body) (replaceChainsOf s f body') b c
      (fun count count' b c => count' = count ∧
        Bench.Renamed ρ level (Program.Renamed ρ others) b c)
      fun e e' b c => e.Like e' ∧ Bench.Renamed ρ level (Program.Renamed ρ others) b c := by
  have rooted : List.Forall₂ ρ.Names (body.map (·.value)) (body'.map (·.value)) := by
    induction renamed with
    | nil => exact .nil
    | @cons i j rest rest' head _ ih =>
      exact .cons head.names (ih fun k mem => inside k (List.mem_cons_of_mem i mem))
  unfold replaceChainsOf
  cases s.replacesChainsOf f with
  | false => exact ⟨rfl, related⟩
  | true =>
    cases f.mpc with
    | none =>
      apply Alike.bind
      apply (agrees_note _ _ b c related).imp
      · exact fun _ _ _ _ noted => ⟨rfl, noted.2⟩
      · exact fun _ _ _ _ fails => fails
    | some mpc =>
      apply alike_replaceChains related ready ready' rooted _ .none
      intro root mem
      obtain ⟨i, inBody, rfl⟩ := List.mem_map.mp mem
      exact inside i inBody

end Work

end SecureArith
