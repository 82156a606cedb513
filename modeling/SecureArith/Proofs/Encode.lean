import SecureArith.Encoding.Encode
import SecureArith.Proofs.Typing

set_option autoImplicit false

/-!
# Records of nodes

The identities of nodes that occur once are numbers, none of them given twice. Looking for types
settles a store: nothing changes but kept types, and every tree has the type that it had. So each
node is recorded with the type that it has to begin with.
-/

namespace SecureArith

namespace Encoding

structure Distinguishes (names : List (NodeId × Int)) (nodes : List NodeId) : Prop where
  nonneg : ∀ id ∈ nodes, 0 ≤ identity names (some id)
  injective : ∀ id ∈ nodes, ∀ id' ∈ nodes,
    identity names (some id) = identity names (some id') → id = id'

namespace Naming

variable {m : Naming} {values : Nat} {nodes : List NodeId} {id : NodeId} {s : Store}

theorem lookup_give (unnamed : (m.names.lookup id).isSome = false) (k : Int) (id' : NodeId) :
    (m.give id k).names.lookup id' = if id' = id then some k else m.names.lookup id' := by
  rw [Naming.give, unnamed, if_neg Bool.false_ne_true, List.lookup_cons]
  by_cases eq : id' = id
  · rw [beq_iff_eq.mpr eq, if_pos eq]
  · rw [beq_eq_false_iff_ne.mpr eq, if_neg eq]

/-- The nodes have names of their own below the next free one. -/
structure Names (values : Nat) (m : Naming) (nodes : List NodeId) : Prop where
  isSome_iff : ∀ id, (m.names.lookup id).isSome ↔ id ∈ nodes
  taken : ∀ id k, m.names.lookup id = some k → k ∈ m.taken
  injective : ∀ id id' k, m.names.lookup id = some k → m.names.lookup id' = some k → id = id'
  bounds : ∀ k ∈ m.taken, 0 ≤ k ∧ k < m.free
  free : values ≤ m.free

theorem Names.give (h : m.Names values nodes) (new : id ∉ nodes) {k free : Int}
    (untaken : k ∉ m.taken) (nonneg : 0 ≤ k) (below : k < free) (grows : m.free ≤ free) :
    Names values { m.give id k with free } (nodes ++ [id]) := by
  have unnamed : (m.names.lookup id).isSome = false :=
    Bool.eq_false_iff.mpr fun named => new ((h.isSome_iff id).mp named)
  have lookup := lookup_give unnamed k
  have own {id' : NodeId} (named : m.names.lookup id' = some k) : False :=
    untaken (h.taken id' k named)
  refine ⟨fun id' => ?_, fun id' k' named => ?_, fun id₁ id₂ k' named₁ named₂ => ?_,
    fun k' mem => ?_, h.free.trans grows⟩
  · dsimp only
    rw [lookup]
    by_cases eq : id' = id
    · simp [eq]
    · simp [eq, h.isSome_iff id']
  · dsimp only at named
    rw [lookup] at named
    split at named
    · cases named
      exact List.mem_cons_self
    · exact List.mem_cons_of_mem _ (h.taken id' k' named)
  · dsimp only at named₁ named₂
    rw [lookup] at named₁ named₂
    by_cases first : id₁ = id <;> by_cases second : id₂ = id
    · rw [first, second]
    · rw [if_pos first] at named₁
      rw [if_neg second] at named₂
      cases named₁
      exact (own named₂).elim
    · rw [if_neg first] at named₁
      rw [if_pos second] at named₂
      cases named₂
      exact (own named₁).elim
    · rw [if_neg first] at named₁
      rw [if_neg second] at named₂
      exact h.injective id₁ id₂ k' named₁ named₂
  · rcases List.mem_cons.mp mem with rfl | old
    · exact ⟨nonneg, below⟩
    · have := h.bounds k' old
      exact ⟨this.1, Int.lt_of_lt_of_le this.2 grows⟩

theorem Names.step (h : m.Names values nodes) (new : id ∉ nodes)
    (origin : ∀ n ∈ s.get? id, ∀ o ∈ n.origin, o.id < values) :
    Names values (step s m id) (nodes ++ [id]) := by
  have fresh : m.free ∉ m.taken := fun mem => Int.lt_irrefl _ (h.bounds _ mem).2
  have nonneg : (0 : Int) ≤ m.free := (Int.natCast_nonneg values).trans h.free
  have free : Names values { m.give id m.free with free := m.free + 1 } (nodes ++ [id]) :=
    h.give new fresh nonneg (Int.lt_succ m.free) (Int.le_of_lt (Int.lt_succ m.free))
  rw [Naming.step]
  split
  · rename_i o isOrigin
    split
    · exact free
    · rename_i untaken
      obtain ⟨n, found, isOrigin⟩ := Option.bind_eq_some_iff.mp isOrigin
      have lt : (o.id : Int) < values := Int.ofNat_lt.mpr (origin n found o isOrigin)
      exact h.give new (by simpa using untaken) (Int.natCast_nonneg _) (Int.lt_of_lt_of_le lt h.free)
        (Int.le_refl _)
  · exact free

theorem Names.foldl {rest : List NodeId} (h : m.Names values nodes) (nodup : (nodes ++ rest).Nodup)
    (origins : ∀ id ∈ rest, ∀ n ∈ s.get? id, ∀ o ∈ n.origin, o.id < values) :
    Names values (rest.foldl (Naming.step s) m) (nodes ++ rest) := by
  induction rest generalizing m nodes with
  | nil => simpa using h
  | cons id rest ih =>
    have new : id ∉ nodes := fun mem =>
      (List.nodup_append.mp nodup).2.2 id mem id List.mem_cons_self rfl
    have step := h.step new (origins id List.mem_cons_self)
    have split : nodes ++ id :: rest = nodes ++ [id] ++ rest := by simp
    rw [split] at nodup ⊢
    exact ih step nodup fun j mem => origins j (List.mem_cons_of_mem _ mem)

theorem isSome_lookup_give {j : NodeId} {k : Int} :
    ((m.give id k).names.lookup j).isSome ↔ j = id ∨ (m.names.lookup j).isSome := by
  rw [Naming.give]
  split
  · rename_i named
    refine ⟨.inr, fun h => ?_⟩
    rcases h with rfl | known
    · exact named
    · exact known
  · rw [List.lookup_cons]
    split
    · rename_i same
      exact ⟨fun _ => .inl (beq_iff_eq.mp same), fun _ => rfl⟩
    · rename_i other
      exact ⟨.inr, fun h => h.resolve_left (beq_eq_false_iff_ne.mp other)⟩

theorem isSome_lookup_step {j : NodeId} :
    ((step s m id).names.lookup j).isSome ↔ j = id ∨ (m.names.lookup j).isSome := by
  rw [Naming.step]
  split
  · split
    · exact isSome_lookup_give
    · exact isSome_lookup_give
  · exact isSome_lookup_give

theorem isSome_lookup_foldl {j : NodeId} :
    ((nodes.foldl (Naming.step s) m).names.lookup j).isSome ↔
      j ∈ nodes ∨ (m.names.lookup j).isSome := by
  induction nodes generalizing m with
  | nil => simp
  | cons id rest ih =>
    rw [List.foldl_cons, ih, isSome_lookup_step, List.mem_cons]
    tauto

end Naming

theorem isSome_lookup_identities {s : Store} {nodes : List NodeId} {id : NodeId} {values : Nat} :
    ((identities s values nodes).lookup id).isSome ↔ id ∈ nodes := by
  rw [identities, Naming.isSome_lookup_foldl]
  simp

/-- Where the nodes are made from values of the program, each gets a number of its own. -/
theorem distinguishes_identities {s : Store} {values : Nat} {nodes : List NodeId}
    (nodup : nodes.Nodup) (origins : ∀ id ∈ nodes, ∀ n ∈ s.get? id, ∀ o ∈ n.origin, o.id < values) :
    Distinguishes (identities s values nodes) nodes := by
  have start : Naming.Names values { free := values } [] := by
    refine ⟨?_, ?_, ?_, ?_, Int.le_refl _⟩ <;> simp
  have named := start.foldl (by simpa using nodup) origins
  rw [List.nil_append] at named
  have name (id : NodeId) (mem : id ∈ nodes) : ∃ k, (identities s values nodes).lookup id = some k ∧
      identity (identities s values nodes) (some id) = k := by
    obtain ⟨k, found⟩ := Option.isSome_iff_exists.mp ((named.isSome_iff id).mpr mem)
    exact ⟨k, found, by rw [identity, Option.bind_some, identities, found]; rfl⟩
  constructor
  · intro id mem
    obtain ⟨k, found, eq⟩ := name id mem
    rw [eq]
    exact (named.bounds k (named.taken id k found)).1
  · intro id mem id' mem' same
    obtain ⟨k, found, eq⟩ := name id mem
    obtain ⟨k', found', eq'⟩ := name id' mem'
    rw [eq, eq'] at same
    subst same
    exact named.injective id id' k found found'

end Encoding

namespace Store

variable {s s' s'' : Store} {c : Classifier} {id : Nat} {p : Option NodeId} {n : Node} {t u : Tree}

/-- Nothing has changed but kept types, and every tree has the type that it had. -/
def Settles (c : Classifier) (s s' : Store) : Prop :=
  ∀ p t, s.Spans p t →
    ∃ t', s'.Spans p t' ∧ t'.untyped = t.untyped ∧ t'.type? c false = t.type? c false

namespace Settles

theorem refl (c : Classifier) (s : Store) : s.Settles c s := fun _ t h => ⟨t, h, rfl, rfl⟩

theorem trans (h : s.Settles c s') (h' : s'.Settles c s'') : s.Settles c s'' := by
  intro p t spans
  obtain ⟨t', spans', untyped', type'⟩ := h p t spans
  obtain ⟨t'', spans'', untyped'', type''⟩ := h' p t' spans'
  exact ⟨t'', spans'', untyped''.trans untyped', type''.trans type'⟩

theorem withMemo {type : TypeName} (h : s.Spans (some id) u) (found : u.type? c false = some type) :
    s.Settles c (s.withMemo id (some type)) := by
  intro p t spans
  induction spans with
  | nil => exact ⟨.nil, .nil, rfl, rfl⟩
  | @node j n child isNode children ih =>
    choose child' spans' untyped' type' using ih
    have isNil (side : Side) : (child' side).isNil = (child side).isNil := by
      rw [← Tree.isNil_untyped, untyped', Tree.isNil_untyped]
    by_cases eq : j = id
    · subst eq
      cases h.unique (.node isNode children)
      refine ⟨.node j { n.toLabel with memo := some type } child', ?_, ?_, ?_⟩
      · exact .node (n := { n with memo := some type }) (by simp [Store.withMemo, isNode]) spans'
      · simp only [Tree.untyped, untyped']
      · rw [found]
        rfl
    · refine ⟨.node j n.toLabel child', ?_, ?_, ?_⟩
      · exact .node (by simp [Store.withMemo, isNode, Ne.symm eq]) spans'
      · simp only [Tree.untyped, untyped']
      · simp only [Tree.type?, type', isNil, Tree.childless_congr isNil]

end Settles

/-- Looking for the type of a node settles the store. -/
theorem Realizes.settles {type : Option TypeName} (h : Realizes c false s p type s')
    (spans : s.Spans p t) :
    type = t.type? c false ∧ (t.isNil = false → type.isSome) ∧ s.Settles c s' := by
  induction h generalizing t with
  | none s =>
    cases spans
    exact ⟨rfl, nofun, .refl c s⟩
  | @kept s id n type isNode memo =>
    cases spans with
    | node found =>
      cases isNode.symm.trans found
      refine ⟨?_, fun _ => rfl, .refl c s⟩
      simp only [Tree.type?, memo, Option.some_or]
  | @found s s₁ s₂ id n left right type isNode forgotten _ _ isType ihLeft ihRight =>
    have whole := spans
    cases spans with
    | @node _ _ child found children =>
      cases isNode.symm.trans found
      obtain ⟨rfl, leftKnown, settles₁⟩ := ihLeft (children .left)
      obtain ⟨r, spans₁, untyped₁, type₁⟩ := settles₁ _ _ (children .right)
      obtain ⟨rfl, rightKnown, settles₂⟩ := ihRight spans₁
      have isNil : r.isNil = (child .right).isNil := by
        rw [← Tree.isNil_untyped, untyped₁, Tree.isNil_untyped]
      rw [isNil] at rightKnown
      rw [type₁] at rightKnown isType
      have value := Tree.type?_eq_combine? id forgotten leftKnown rightKnown
      rw [Tree.pair_eta, isType] at value
      have settled := settles₁.trans settles₂
      obtain ⟨t₂, spans₂, -, type₂⟩ := settled _ _ whole
      exact ⟨value.symm, fun _ => rfl, settled.trans (.withMemo spans₂ (type₂.trans value))⟩

theorem ends_typeAt_settles (h : s.Spans (some id) t) :
    Ends (typeAt c false id) s
      (fun type s' => t.type? c false = some type ∧ s.Settles c s') fun _ _ => True := by
  apply (ends_typeAt_realizes h).imp
  · intro type s' realizes
    obtain ⟨found, -, settles⟩ := realizes.settles h
    exact ⟨found.symm, settles⟩
  · exact fun _ _ _ => trivial

theorem Settles.exists_node (settled : s.Settles c s') (h : s.Spans (some id) t)
    (found : s.get? id = some n) :
    ∃ n', s'.get? id = some n' ∧ { n' with memo := none } = { n with memo := none } := by
  obtain ⟨t', spans', untyped, -⟩ := settled _ _ h
  cases h with
  | @node _ n₀ child isNode children =>
    cases isNode.symm.trans found
    cases spans' with
    | @node _ n' child' isNode' children' =>
      simp only [Tree.untyped, Tree.node.injEq, true_and] at untyped
      obtain ⟨label, below⟩ := untyped
      have place (side : Side) : n'.child side = n.child side := by
        rw [← (children' side).id?_eq, ← (children side).id?_eq, ← Tree.id?_untyped,
          congrFun below side, Tree.id?_untyped]
      refine ⟨n', isNode', ?_⟩
      have left : n'.left = n.left := place .left
      have right : n'.right = n.right := place .right
      calc { n' with memo := none }
        _ = Node.mk { n'.toLabel with memo := none } n'.left n'.right := rfl
        _ = Node.mk { n.toLabel with memo := none } n.left n.right := by rw [label, left, right]
        _ = { n with memo := none } := rfl

/-- The record is that of the node and the type that its tree has. -/
def Recorded (s : Store) (c : Classifier) (names : List (NodeId × Int)) (params : List VarId)
    (id : NodeId) (r : Record) : Prop :=
  ∃ n t type, s.get? id = some n ∧ s.Spans (some id) t ∧ t.type? c false = some type ∧
    r = n.toRecord names params id type

variable {names : List (NodeId × Int)} {params : List VarId}

theorem Settles.owned (settled : s.Settles c s') (h : s.Owned p t) :
    ∃ t', s'.Owned p t' ∧ t'.type? c false = t.type? c false := by
  obtain ⟨t', spans', untyped', type'⟩ := settled p t h.spans
  refine ⟨t', ⟨spans', ?_⟩, type'⟩
  rw [← Tree.preorder_untyped, untyped', Tree.preorder_untyped]
  exact h.nodup

theorem ends_record (settled : s.Settles c s') (h : s.Owned (some id) t)
    (named : ∀ n, s.get? id = some n → ∀ k ∈ id :: n.children, (names.lookup k).isSome) :
    Ends (record c names params id) s'
      (fun r s'' => s.Recorded c names params id r ∧ s.Settles c s'')
      fun e _ => e.kind = .type := by
  obtain ⟨t', owned', type'⟩ := settled.owned h
  obtain ⟨n, found⟩ : ∃ n, s.get? id = some n := by
    cases h.spans with
    | node found _ => exact ⟨_, found⟩
  rw [record, Ends.bind_iff]
  refine ((ends_typeAt_settles owned'.spans).and (ends_typeAt owned')).imp ?_
    fun _ _ fails => fails.2.2.1
  rintro type s'' ⟨⟨isType, settles⟩, -⟩
  have settled' := settled.trans settles
  obtain ⟨n', found', same⟩ := settled'.exists_node h.spans found
  rw [Ends.bind_iff]
  refine ends_read found' ?_
  have record : n'.toRecord names params id type = n.toRecord names params id type :=
    calc n'.toRecord names params id type
      _ = Node.toRecord { n' with memo := none } names params id type := rfl
      _ = Node.toRecord { n with memo := none } names params id type := by rw [same]
      _ = n.toRecord names params id type := rfl
  have children : n'.children = n.children :=
    calc n'.children
      _ = Node.children { n' with memo := none } := rfl
      _ = Node.children { n with memo := none } := by rw [same]
      _ = n.children := rfl
  rw [record, if_pos (List.all_eq_true.mpr (children ▸ named n found))]
  exact ⟨⟨n, t, type, found, h.spans, type'.symm.trans isType, rfl⟩, settled'⟩

theorem ends_records {nodes : List NodeId} (settled : s.Settles c s')
    (h : ∀ id ∈ nodes, ∃ t, s.Owned (some id) t)
    (named : ∀ id ∈ nodes, ∀ n, s.get? id = some n →
      ∀ k ∈ id :: n.children, (names.lookup k).isSome) :
    Ends (nodes.mapM (record c names params)) s'
      (fun e _ => List.Forall₂ (s.Recorded c names params) nodes e) fun e _ => e.kind = .type := by
  induction nodes generalizing s' with
  | nil => exact .nil
  | cons id rest ih =>
    obtain ⟨t, owned⟩ := h id List.mem_cons_self
    rw [List.mapM_cons, Ends.bind_iff]
    refine (ends_record settled owned (named id List.mem_cons_self)).imp ?_ fun _ _ h => h
    rintro r s₁ ⟨recorded, settled₁⟩
    rw [Ends.bind_iff]
    refine (ih settled₁ (fun id mem => h id (List.mem_cons_of_mem _ mem)) fun id mem =>
      named id (List.mem_cons_of_mem _ mem)).imp ?_ fun _ _ h => h
    intro e s₂ rest
    exact .cons recorded rest

end Store

end SecureArith
