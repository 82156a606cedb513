import SecureArith.Proofs.Power.Exactness
import SecureArith.Proofs.Safety

set_option autoImplicit false

/-!
# What optimizing refuses

A function is not optimized where a leaf has no type, an operation no callee or a chain no helper.
Beyond that only an exponent can stand in the way: the failures that guard against other trees than
the transformations make are never met.
-/

namespace SecureArith

/-- Why a search that checks its trees ends early. -/
inductive CheckedEnd where
  | ended (e : SearchEnd)
  /-- A tree that is no addition was to be searched for products. -/
  | notSum (id : NodeId)
  /-- A tree that is no multiplication was to be searched for factors. -/
  | notProduct (id : NodeId)

abbrev CheckedSearch := EStateM CheckedEnd FactorSearch

/-- A search that checks nothing. -/
def Search.unchecked {α : Type} (x : Search α) : CheckedSearch α := fun m =>
  match x m with
  | .ok a m => .ok a m
  | .error e m => .error (.ended e) m

namespace Search

variable {α β : Type}

theorem unchecked_pure (a : α) : unchecked (pure a) = pure a := rfl

theorem unchecked_bind (x : Search α) (f : α → Search β) :
    unchecked (x >>= f) = unchecked x >>= fun a => unchecked (f a) := by
  funext m
  simp only [unchecked, bind, EStateM.bind]
  cases x m <;> rfl

end Search

namespace Tree

/-- `searchProduct` for a tree that is checked to be a multiplication. -/
def checkedProduct (product sum tail : NodeId) : Tree → CheckedSearch Unit
  | .node id label child => do
    if !label.isOp .mul then throw (.notProduct id)
    match (child .left).id?, (child .right).id? with
    | some left, some right =>
      Search.unchecked ((child .left).visitFactor id right product sum tail)
      Search.unchecked ((child .right).visitFactor id left product sum tail)
      if (child .left).isOp .mul then (child .left).checkedProduct product sum tail
      if (child .right).isOp .mul then (child .right).checkedProduct product sum tail
    | _, _ => return
  | _ => throw (.ended .outOfRange)

/-- `searchSum` for a tree that is checked to be an addition. -/
def checkedSum : Tree → CheckedSearch Unit
  | .node id label child => do
    if !label.isOp .add then throw (.notSum id)
    match (child .left).id?, (child .right).id? with
    | some left, some right =>
      if (child .left).isOp .mul then (child .left).checkedProduct left id right
      else if (child .left).isOp .add then (child .left).checkedSum
      if (child .right).isOp .mul then (child .right).checkedProduct right id left
      else if (child .right).isOp .add then (child .right).checkedSum
    | _, _ => return
  | _ => throw (.ended .outOfRange)

variable {t u : Tree} {product sum tail : NodeId}

theorem searchProduct_of_other (whole : t.complete = true) (other : t.isOp .mul = false) :
    t.searchProduct product sum tail = pure () := by
  cases t with
  | nil => rfl
  | missing => cases whole
  | node id label child =>
    have other : label.isOp .mul = false := other
    simp only [searchProduct, other]
    split <;> rfl

theorem searchSum_of_other (other : t.isOp .add = false) : t.searchSum = pure () := by
  cases t with
  | nil | missing => rfl
  | node id label child =>
    have other : label.isOp .add = false := other
    simp only [searchSum, other]
    split <;> rfl

theorem not_isOp_add (isMul : t.isOp .mul = true) : t.isOp .add = false := by
  cases t with
  | nil | missing => rfl
  | node id label child =>
    simp only [isOp, Label.isOp, beq_iff_eq] at isMul
    simp [isOp, Label.isOp, isMul]

theorem checkedProduct_eq (whole : t.complete = true) (isMul : t.isOp .mul = true) :
    t.checkedProduct product sum tail = Search.unchecked (t.searchProduct product sum tail) := by
  induction t with
  | nil | missing => cases isMul
  | node id label child ih =>
    have isMul : label.isOp .mul = true := isMul
    simp only [complete, Bool.and_eq_true] at whole
    have other (side : Side) (whole : (child side).complete = true)
        (isOther : (child side).isOp .mul = false) :
        (child side).searchProduct product sum tail = pure () := searchProduct_of_other whole isOther
    rw [checkedProduct, searchProduct]
    cases (child .left).id? with
    | none => simp [isMul, Search.unchecked_pure]
    | some i =>
      cases (child .right).id? with
      | none => simp [isMul, Search.unchecked_pure]
      | some j =>
        simp only [isMul, Bool.not_true, Bool.false_eq_true, if_false, if_true, Search.unchecked_bind]
        cases left : (child .left).isOp .mul <;> cases right : (child .right).isOp .mul <;>
          simp [ih, other, left, right, whole, Search.unchecked_pure]

/-- No other tree than an addition is searched for products, and no other than a multiplication for
factors. -/
theorem checkedSum_eq (whole : t.complete = true) (isAdd : t.isOp .add = true) :
    t.checkedSum = Search.unchecked t.searchSum := by
  induction t with
  | nil | missing => cases isAdd
  | node id label child ih =>
    have isAdd : label.isOp .add = true := isAdd
    simp only [complete, Bool.and_eq_true] at whole
    have below (side : Side) (product sum tail : NodeId) (whole : (child side).complete = true) :
        (if (child side).isOp .mul then (child side).checkedProduct product sum tail
          else if (child side).isOp .add then (child side).checkedSum else pure ()) =
        Search.unchecked (do
          (child side).searchProduct product sum tail
          (child side).searchSum) := by
      rw [Search.unchecked_bind]
      split
      · rename_i isMul
        rw [searchSum_of_other (not_isOp_add isMul), checkedProduct_eq whole isMul,
          Search.unchecked_pure]
        exact (bind_pure _).symm
      · rename_i other
        rw [searchProduct_of_other whole (Bool.eq_false_iff.mpr other)]
        split
        · exact ih side whole (by assumption)
        · rename_i other
          rw [searchSum_of_other (Bool.eq_false_iff.mpr other)]
          rfl
    rw [checkedSum, searchSum]
    cases (child .left).id? with
    | none => simp [isAdd, Search.unchecked_pure]
    | some i =>
      cases (child .right).id? with
      | none => simp [isAdd, Search.unchecked_pure]
      | some j =>
        have apart : (do
            (child .left).searchProduct i id j
            (child .left).searchSum
            (child .right).searchProduct j id i
            (child .right).searchSum) =
          ((child .left).searchProduct i id j >>= fun _ => (child .left).searchSum) >>= fun _ =>
            (child .right).searchProduct j id i >>= fun _ => (child .right).searchSum :=
          (bind_assoc _ _ _).symm
        simp only [isAdd, Bool.not_true, Bool.false_eq_true, if_false, if_true]
        rw [apart, Search.unchecked_bind, ← below .left i id j whole.1, ← below .right j id i whole.2]
        split
        · rfl
        · split <;> rfl

theorem exponent?_bare (t : Tree) : t.bare.exponent? = t.exponent? := by
  cases t with
  | nil | missing => rfl
  | node id label child =>
    simp only [bare, exponent?, childless_bare]
    split
    · simp [Label.atom?]
    · rfl

theorem isSome_expandPowers?_bare (t : Tree) :
    t.bare.expandPowers?.isSome = t.expandPowers?.isSome := by
  induction t with
  | nil | missing => rfl
  | node id label child ih =>
    have isOp : Label.isOp { origin := if childless child then label.origin else none, op := label.op }
        .pow = label.isOp .pow := rfl
    have both {a b : Option Tree} {f g : Tree → Option Tree} (same : a.isSome = b.isSome)
        (after : ∀ l l', (f l).isSome = (g l').isSome) : (a.bind f).isSome = (b.bind g).isSome := by
      cases a <;> cases b
      · rfl
      · cases same
      · cases same
      · exact after _ _
    simp only [bare, expandPowers?, childless_bare, isNil_bare, exponent?_bare, isOp]
    split
    · rfl
    · split
      · split
        · rfl
        · exact both (ih .left) fun _ _ => by simp only [Option.isSome_map]
      · exact both (ih .left) fun _ _ => by simp only [Option.isSome_map, ih .right]

theorem expandPowers?_none_of_bare (h : u.bare = t.bare) (refused : t.expandPowers? = none) :
    u.expandPowers? = none := by
  rw [← Option.isNone_iff_eq_none, ← Option.not_isSome, ← isSome_expandPowers?_bare, h,
    isSome_expandPowers?_bare, refused]
  rfl

theorem Visited.sub (h : u.Visited t) : u.Sub t := by
  induction h with
  | root => exact .refl
  | child side _ _ ih => exact .child side ih
  | base _ _ ih => exact .child .left ih

/-- The tree has a power whose exponent is no integer constant from one to 1024. -/
def HasBadPower (t : Tree) : Prop :=
  ∃ (id : NodeId) (label : Label) (child : Side → Tree), Sub (.node id label child) t ∧
    label.isOp .pow = true ∧ (child .right).isNil = false ∧
    ∀ k : Int, 1 ≤ k → k ≤ 1024 → ¬ (child .right).IsConstant k

theorem hasBadPower_of_refused (whole : t.complete = true) (proper : t.proper = true)
    (refused : t.expandPowers? = none) : t.HasBadPower := by
  obtain ⟨u, visited, power, not⟩ := (expandPowers?_eq_none_iff whole).mp refused
  cases u with
  | nil | missing => cases power
  | node id label child =>
    simp only [isPower, Bool.and_eq_true, Bool.not_eq_true'] at power
    have there := (operands_of_proper (visited.sub.proper proper) power.2).2
    refine ⟨id, label, child, visited.sub, power.1, there .right, fun k low high constant => ?_⟩
    exact not ⟨there .left, k, low, high, constant⟩

theorem bare_expandWith_leaf_eq {i : NodeId} {label : Label} {v : Value}
    (origin : label.origin = some (.ofValue v)) (plain : label.op = none)
    (fresh : v.isRead = true → label.expanded = false) (trees : VarId → Option Tree) :
    ((Tree.node i label (pair .nil .nil)).expandWith trees).bare =
      ((({ origin := some (.ofValue v) } : Label).var?.bind trees).elim
        (Tree.node 0 { origin := some (.ofValue v) } (pair .nil .nil)) fun u => u).bare := by
  have leaf : childless (pair .nil .nil) = true := rfl
  have stays : (Tree.node i label (pair .nil .nil)).bare =
      (Tree.node 0 { origin := some (.ofValue v) } (pair .nil .nil)).bare := by
    simp only [bare, origin, plain]
  have read : label.var? = ({ origin := some (.ofValue v) } : Label).var? := by
    simp only [Label.var?, Label.atom?, origin]
  rw [expandWith, if_pos leaf, read]
  cases tree : ({ origin := some (.ofValue v) } : Label).var?.bind trees with
  | none =>
    split
    · exact stays
    · exact (bare_marked _).trans stays
  | some u =>
    obtain ⟨x, var, -⟩ := Option.bind_eq_some_iff.mp tree
    have isRead : v.isRead = true := by
      obtain ⟨_, _, kind⟩ := v
      cases kind with
      | int | float | call | tuple => simp [Label.var?, Label.atom?, Origin.ofValue, Atom.ofKind] at var
      | var => rfl
    rw [fresh isRead, if_neg Bool.false_ne_true]
    exact (bare_marked _).trans (bare_withId i u)

end Tree

namespace Program

variable {p : Program} {id : Nat} {t u : Tree}

theorem Shows.lt (h : p.Shows id t) : id < p.values.size := by
  cases h with
  | leaf _ found | call _ found => exact (Array.getElem?_eq_some_iff.mp found).1

theorem Shows.bare_expandWith_eq (h : p.Shows id t) (h' : p.Shows id u)
    (trees : VarId → Option Tree) : (t.expandWith trees).bare = (u.expandWith trees).bare := by
  induction h generalizing u with
  | @leaf id v label i found atomic origin plain fresh =>
    cases h' with
    | @leaf _ v' label' i' found' atomic' origin' plain' fresh' =>
      cases found.symm.trans found'
      rw [Tree.bare_expandWith_leaf_eq origin plain fresh,
        Tree.bare_expandWith_leaf_eq origin' plain' fresh']
    | call _ found' kind =>
      cases found.symm.trans found'
      simp [Value.isBinary, kind] at atomic
  | @call id a b v func f l r i found kind callee left right ihl ihr =>
    cases h' with
    | leaf _ found' atomic =>
      cases found.symm.trans found'
      simp [Value.isBinary, kind] at atomic
    | @call _ a' b' v' func' f' l' r' i' found' kind' callee' left' right' =>
      cases found.symm.trans found'
      cases kind.symm.trans kind'
      cases callee.symm.trans callee'
      have inner := left.childless_eq right
      have inner' := left'.childless_eq right'
      have sides (l r : Tree) : (fun side => (Tree.pair l r side).expandWith trees) =
          Tree.pair (l.expandWith trees) (r.expandWith trees) := (Tree.pair_eta _).symm
      simp only [Tree.expandWith, inner, inner', Bool.false_eq_true, if_false, Tree.bare_marked, sides]
      exact Tree.bare_node (ihl left') (ihr right') _ _ _

end Program

namespace Work

variable {s : Settings} {p : Program} {f : Function} {b : Bench} {trees : VarId → Option Tree}
  {id : Nat} {e : Failure}

/-- The tree that the minimization of an operation starts from: the registered trees stand in the
place of the variables. -/
def expandedTree (id : ValueId) : Work Tree := do
  let p := (← get).program
  let root ← onStore (Store.buildBinary p id)
  expand root
  tree root

theorem ends_expandedTree {c : Classifier} (wf : p.WellFormed) (keeps : b.Keeps c p trees)
    (lt : id < p.values.size) :
    Ends (expandedTree id) b
      (fun u _ => u.complete = true ∧ u.proper = true ∧
        ∃ t, p.Shows id t ∧ u.anonymous = (t.expandWith trees).anonymous)
      fun _ _ => False := by
  have ext := keeps.linked.extends
  rw [expandedTree, Ends.bind_iff, Ends.get_iff, Ends.bind_iff, ends_onStore]
  apply (Store.ends_buildBinary (keeps.linked.wellFormed wf)
    (Nat.lt_of_lt_of_le lt ext.grows)).imp
  · rintro root s₁ ⟨t, shows, owned, turns⟩
    have shows := ext.shows wf lt shows
    rw [Ends.bind_iff]
    apply (ends_expand_alike keeps (b.roots_withStore s₁) owned turns).imp
    · rintro _ b₂ ⟨u, reworked, alike⟩
      have stands : p.Stands Interpretation.integers trees id u :=
        Program.stands_of_shows wf keeps shows alike
      rw [ends_tree, reworked.owned.tree_eq]
      exact ⟨reworked.owned.spans.complete, stands.proper, t, shows, alike⟩
    · exact fun _ _ fails => fails
  · exact fun _ _ fails => fails

/-- The powers of an operation cannot be expanded because its expanded tree has a bad one. -/
theorem exists_badPower {t u : Tree} (wf : p.WellFormed) (keeps : b.Keeps s.classifier p trees)
    (shows : p.Shows id t) (alike : u.anonymous = (t.expandWith trees).anonymous)
    (refused : u.expandPowers? = none) :
    ∃ v, answer? (expandedTree id) b = some v ∧ v.HasBadPower := by
  obtain ⟨v, b', run, whole, proper, t', shows', alike'⟩ :=
    (ends_expandedTree wf keeps shows.lt).exists_ok
  have bare : v.bare = u.bare := by
    rw [Tree.bare_eq_of_anonymous alike', Tree.bare_eq_of_anonymous alike]
    exact shows'.bare_expandWith_eq shows trees
  refine ⟨v, ?_, ?_⟩
  · rw [answer?, result?, run]
    rfl
  · exact Tree.hasBadPower_of_refused whole proper (Tree.expandPowers?_none_of_bare bare refused)

theorem ends_minimizeBody_stops {body : List Instruction} (wf : p.WellFormed)
    (keeps : b.Keeps s.classifier p trees) (inside : ∀ i ∈ body, i.value < p.values.size) :
    Ends (minimizeBody s body) b (fun _ _ => True) fun e _ =>
      ∃ before i after out b₀ trees₀ x, body = before ++ i :: after ∧
        minimizeBody s before b = .ok out b₀ ∧ b₀.Keeps s.classifier p trees₀ ∧
        p.Descends i.value x ∧ Prevents s p trees₀ e x := by
  induction body generalizing b trees with
  | nil => trivial
  | cons i rest ih =>
    rw [minimizeBody, Ends.bind_iff]
    apply ((ends_minimizeInstruction Interpretation.arithmetic_integers wf keeps
      (inside i List.mem_cons_self)).and (Ends.run _ _)).imp
    · rintro m b₁ ⟨⟨tree, registers⟩, first⟩
      rw [Ends.bind_iff]
      apply (ih registers.keeps fun j mem => inside j (List.mem_cons_of_mem i mem)).imp
      · exact fun _ _ _ => trivial
      · rintro e b₂ ⟨before, j, after, out, b₀, trees₀, x, rfl, run, cause⟩
        refine ⟨i :: before, j, after, (i.withValue m.value :: out.1, m.regenerated + out.2), b₀,
          trees₀, x, rfl, ?_, cause⟩
        rw [minimizeBody, bind_eq_of_ok first, bind_eq_of_ok run]
        rfl
    · rintro e b₁ ⟨⟨-, -, x, below, prevents⟩, -⟩
      exact ⟨[], i, rest, ([], 0), b, trees, x, rfl, rfl, keeps, below, prevents⟩

/-- Some statement of the function is come to, and a value that is minimized for it expands to a
tree with a bad power. -/
def MeetsBadPower (s : Settings) (b : Bench) (f : Function) : Prop :=
  ∃ before i after out b₀ x t, f.body = before ++ i :: after ∧
    minimizeBody s before ⟨b.program, {}, b.journal⟩ = .ok out b₀ ∧
    b.program.Descends i.value x ∧ answer? (expandedTree x) b₀ = some t ∧ t.HasBadPower

/-- Why a function is not optimized: a type, a callee or a helper is missing, or powers are to be
expanded and one is bad. -/
inductive Refuses (s : Settings) (b : Bench) (f : Function) (e : Failure) : Prop
  | untyped (kind : e.kind = .type)
  | unlinked (kind : e.kind = .link)
  | helpless (kind : e.kind = .helper)
  | powered (on : s.expandPowers = true) (cause : e.ofExponent = true) (met : MeetsBadPower s b f)

theorem ends_minimizeFunction_refuses (sound : b.program.Sound) (mem : f ∈ b.program.functions) :
    Ends (minimizeFunction s f) ⟨b.program, {}, b.journal⟩ (fun _ _ => True)
      fun e _ => Refuses s b f e := by
  rw [minimizeFunction, Ends.ite_iff]
  refine ⟨fun _ => ?_, fun _ => trivial⟩
  have start := Bench.keeps_empty s.classifier b.program b.journal
  apply (ends_minimizeBody_stops sound.toWellFormed start (sound.bodies f mem)).imp
  · exact fun _ _ _ => trivial
  · rintro e _ ⟨before, i, after, out, b₀, trees, x, eq, run, keeps, below, prevents⟩
    cases prevents with
    | untyped kind => exact .untyped kind
    | unlinked kind => exact .unlinked kind
    | unexpanded on shows alike refused =>
      obtain ⟨v, answer, bad⟩ := exists_badPower sound.toWellFormed keeps shows alike refused.2
      exact .powered on refused.1 ⟨before, i, after, out, b₀, x, v, eq, run, below, answer, bad⟩

theorem ends_optimizeFunction_refuses (sound : b.program.Sound) (mem : f ∈ b.program.functions) :
    Ends (optimizeFunction s f) b (fun _ _ => True) fun e _ => Refuses s b f e := by
  have wf := sound.toWellFormed
  have inside := sound.bodies f mem
  have inRange : Ends (optimizeFunction s f) b _ _ :=
    ends_optimizeFunction_sound sound mem b.forest b.journal
  have refuses : Ends (optimizeFunction s f) b (fun _ _ => True)
      fun e _ => e.kind = .range ∨ Refuses s b f e := by
    rw [optimizeFunction, ends_aside, Ends.bind_iff]
    apply ((ends_minimizeFunction Interpretation.arithmetic_integers wf inside).and
      (ends_minimizeFunction_refuses sound mem)).imp
    · rintro ⟨body, regenerated⟩ b₁ ⟨⟨linked, inside', -⟩, -⟩
      have ready := (linked.wellFormed wf).chainable (linked.extends.namesHelpers sound.helpers)
      dsimp only
      rw [Ends.bind_iff]
      apply (ends_replaceChainsOf ready inside').imp
      · intro count b₂ _
        rw [Ends.bind_iff]
        exact ends_counts trivial fun _ => .inl rfl
      · rintro e b₂ ⟨-, mpc, -, ⟨rfl, -⟩ | ⟨rfl, -⟩⟩
        · exact .inr (.helpless rfl)
        · exact .inl rfl
    · exact fun e _ fails => .inr fails.2
  apply (inRange.and refuses).imp
  · exact fun _ _ _ => trivial
  · exact fun e _ fails => fails.2.resolve_left fails.1.2.2.1

end Work

/-- Only a bad exponent keeps the optimizer from its work besides missing types, callees and
helpers: a constraint is violated only where powers are to be expanded and the expanded tree of a
value that is minimized has a bad power. All other trees are as the transformations need them, so no
search for factors meets a tree that it cannot search. This is so for the functions of a described
program, and also when functions before them have been run. -/
theorem optimizeFunction_refuses_powers {s : Settings} {p : Program} {n : Nat} {o : Outcome}
    {b b' : Bench} {f : Function} {e : Failure} {forest : Forest} {journal : Journal}
    (described : p.Described) (le : n ≤ p.functions.size)
    (ran : (List.range n).foldlM (Work.runAt s) {} ⟨p, forest, journal⟩ = .ok o b)
    (mem : f ∈ b.program.functions) (fails : Work.optimizeFunction s f b = .error e b') :
    (e.kind = .constraint →
      s.expandPowers = true ∧ e.ofExponent = true ∧ Work.MeetsBadPower s b f) ∧
    (s.expandPowers = false → e.kind = .type ∨ e.kind = .link ∨ e.kind = .helper) ∧
    e.kind ≠ .range ∧
    ∀ (b : Bench) (root : NodeId) (t : Tree), b.forest.store.Owned (some root) t →
      (∃ changed b', Work.factorOnce root b = .ok changed b') ∧
      ∀ u : Tree, u.Sub t → u.isOp .add = true → u.checkedSum = Search.unchecked u.searchSum := by
  have inside (index : Nat) (mem : index ∈ List.range n) : index < p.functions.size :=
    Nat.lt_of_lt_of_le (List.mem_range.mp mem) le
  have sound : b.program.Sound :=
    ((Work.ends_foldlM_runAt (b := ⟨p, forest, journal⟩) described.sound inside).of_ok ran).sound
  have refuses := (Work.ends_optimizeFunction_refuses sound mem).of_error fails
  refine ⟨fun constraint => ?_, fun off => ?_, ?_, fun b root t owned => ⟨?_, fun u sub isAdd => ?_⟩⟩
  · cases refuses with
    | untyped kind | unlinked kind | helpless kind => exact absurd (constraint.symm.trans kind) nofun
    | powered on cause met => exact ⟨on, cause, met⟩
  · cases refuses with
    | untyped kind => exact .inl kind
    | unlinked kind => exact .inr (.inl kind)
    | helpless kind => exact .inr (.inr kind)
    | powered on => exact absurd (off.symm.trans on) nofun
  · cases refuses with
    | untyped kind | unlinked kind | helpless kind => rw [kind]; nofun
    | powered _ cause => rw [Failure.kind_of_ofExponent cause]; nofun
  · obtain ⟨changed, b', run, -⟩ := (Work.ends_factorOnce owned).exists_ok
    exact ⟨changed, b', run⟩
  · exact Tree.checkedSum_eq (sub.complete owned.spans.complete) isAdd

/-- A sum that is factored, and then an exponent that is read from a variable with a tree. -/
def Description.powered : Description where
  vars := [⟨"x", some .int⟩, ⟨"y", some .int⟩]
  operators := ["__add__", "__mul__", "__pow__"].map fun name => ⟨.int, name, [.int, .int], .int⟩
  functions :=
    [⟨"sum", none, [], { minimize := true },
        [.ret (.call "__add__" [.call "__mul__" [.var "x", .var "y"],
          .call "__mul__" [.var "x", .var "x"]])]⟩,
      ⟨"power", none, [], { minimize := true },
        [.assign "t" (.call "__add__" [.var "y", .int 1]),
          .ret (.call "g" [.call "__pow__" [.var "x", .var "t"]])]⟩]

theorem optimizeFunction_refuses_powers_powered :
    ∃ (p : Program) (o : Outcome) (b b' : Bench) (f : Function) (e : Failure), p.Described ∧
      (List.range 1).foldlM (Work.runAt (.ofPreset .aggressive)) {} ⟨p, {}, {}⟩ = .ok o b ∧
      p.values.size < b.program.values.size ∧ f ∈ b.program.functions ∧
      Work.optimizeFunction (.ofPreset .aggressive) f b = .error e b' ∧
      e = .exponentNotInteger "(__pow__ $0 (__add__ $1 1))" ∧
      Work.MeetsBadPower (.ofPreset .aggressive) b f := by
  have checked : (Description.powered.first?.any fun (p, _) =>
      (result? ((List.range 1).foldlM (Work.runAt (.ofPreset .aggressive)) {}) ⟨p, {}, {}⟩).any
        fun (_, b) => b.program.functions[1]?.any fun f =>
          (failed? (Work.optimizeFunction (.ofPreset .aggressive) f) b).any fun (e, _) =>
            decide (1 ≤ p.functions.size ∧ p.values.size < b.program.values.size ∧
              e = .exponentNotInteger "(__pow__ $0 (__add__ $1 1))")) = true := by
    decide +kernel
  obtain ⟨⟨p, f₀⟩, isFirst, checked⟩ := Option.any_eq_true _ _ |>.mp checked
  obtain ⟨⟨o, b⟩, ran, checked⟩ := Option.any_eq_true _ _ |>.mp checked
  obtain ⟨f, found, checked⟩ := Option.any_eq_true _ _ |>.mp checked
  obtain ⟨⟨e, b'⟩, fails, checked⟩ := Option.any_eq_true _ _ |>.mp checked
  obtain ⟨lowered, -⟩ := Description.lower_of_first? isFirst
  obtain ⟨le, grown, rfl⟩ := of_decide_eq_true checked
  have ran := eq_ok_of_result? ran
  have fails := eq_error_of_failed? fails
  have mem := Array.mem_of_getElem? found
  obtain ⟨refused, -⟩ := optimizeFunction_refuses_powers ⟨_, lowered⟩ le ran mem fails
  exact ⟨p, o, b, b', f, _, ⟨_, lowered⟩, ran, grown, mem, fails, rfl, (refused rfl).2.2⟩

end SecureArith
