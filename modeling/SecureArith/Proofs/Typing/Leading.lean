import SecureArith.Proofs.Graft
import SecureArith.Proofs.Planted
import SecureArith.Proofs.Typing

set_option autoImplicit false

/-!
# The leaf that decides the type

Types are combined node by node. Where kept types are not trusted, this comes to a choice among all
leaves of a tree: the first ciphertext decides, else the first plaintext, else the leftmost leaf.
The nodes of a tree may have several parents here.
-/

namespace SecureArith

namespace Classifier

/-- The first ciphertext, else the first plaintext, else the first type. -/
def leading? (c : Classifier) (types : List TypeName) : Option TypeName :=
  (types.find? c.ciphertext).or ((types.find? c.plaintext).or types.head?)

theorem leading?_cases (c : Classifier) (types : List TypeName) :
    (∃ a, types.find? c.ciphertext = some a ∧ c.leading? types = some a ∧ c.ciphertext a = true) ∨
      types.find? c.ciphertext = none ∧
        ((∃ a, types.find? c.plaintext = some a ∧ c.leading? types = some a ∧
            c.ciphertext a = false ∧ c.plaintext a = true) ∨
          types.find? c.plaintext = none ∧
            ((∃ a, types.head? = some a ∧ c.leading? types = some a ∧ c.ciphertext a = false ∧
                c.plaintext a = false) ∨ types = [])) := by
  cases cipher : types.find? c.ciphertext with
  | some a => exact .inl ⟨a, rfl, by rw [leading?, cipher]; rfl, List.find?_some cipher⟩
  | none =>
    have noCipher (a : TypeName) (mem : a ∈ types) : c.ciphertext a = false := by
      simpa using List.find?_eq_none.mp cipher a mem
    refine .inr ⟨rfl, ?_⟩
    cases plain : types.find? c.plaintext with
    | some a =>
      exact .inl ⟨a, rfl, by rw [leading?, cipher, plain]; rfl,
        noCipher a (List.mem_of_find?_eq_some plain), List.find?_some plain⟩
    | none =>
      refine .inr ⟨rfl, ?_⟩
      cases types with
      | nil => exact .inr rfl
      | cons a rest =>
        refine .inl ⟨a, rfl, by rw [leading?, cipher, plain]; rfl, noCipher a List.mem_cons_self, ?_⟩
        simpa using List.find?_eq_none.mp plain a List.mem_cons_self

/-- What decides among all decides between what decides on either side. -/
theorem leading?_append (c : Classifier) (l r : List TypeName) :
    c.leading? (l ++ r) = c.combine? (c.leading? l) (c.leading? r) := by
  rw [leading?, List.find?_append, List.find?_append, List.head?_append]
  rcases c.leading?_cases l with ⟨a, cipher, eq, isCipher⟩ |
    ⟨cipher, ⟨a, plain, eq, notCipher, isPlain⟩ | ⟨plain, ⟨a, head, eq, notCipher, notPlain⟩ | rfl⟩⟩
  all_goals
    rcases c.leading?_cases r with ⟨b, cipher', eq', isCipher'⟩ |
      ⟨cipher', ⟨b, plain', eq', notCipher', isPlain'⟩ |
        ⟨plain', ⟨b, head', eq', notCipher', notPlain'⟩ | rfl⟩⟩
  all_goals simp [*, combine?, combine, leading?]

theorem isSome_leading? {c : Classifier} {types : List TypeName} (some : types ≠ []) :
    (c.leading? types).isSome := by
  cases types with
  | nil => exact absurd rfl some
  | cons => simp [leading?]

end Classifier

namespace Tree

variable {id : NodeId} {label : Label} {child : Side → Tree}

/-- The types of the values that the leaves were made from, from left to right. Leaves without one
are passed over. -/
def leafTypes (t : Tree) : List TypeName := t.leaves.filterMap fun o => o.bind (·.type)

/-- The value of every leaf has a type. -/
def LeavesTyped (t : Tree) : Prop := ∀ o ∈ t.leaves, (o.bind (·.type)).isSome

theorem leafTypes_node (inner : childless child = false) :
    (Tree.node id label child).leafTypes = (child .left).leafTypes ++ (child .right).leafTypes := by
  rw [leafTypes, leaves_node inner, List.filterMap_append]
  rfl

theorem leavesTyped_node (inner : childless child = false) :
    (Tree.node id label child).LeavesTyped ↔
      (child .left).LeavesTyped ∧ (child .right).LeavesTyped := by
  rw [LeavesTyped, leaves_node inner]
  exact List.forall_mem_append

theorem leaves_leaf (leaf : childless child = true) :
    (Tree.node id label child).leaves = [label.origin] := if_pos leaf

theorem leavesTyped_leaf (leaf : childless child = true) :
    (Tree.node id label child).LeavesTyped ↔ label.type?.isSome := by
  rw [LeavesTyped, leaves_leaf leaf]
  exact List.forall_mem_singleton

theorem leafTypes_leaf (leaf : childless child = true) :
    (Tree.node id label child).leafTypes = label.type?.toList := by
  rw [leafTypes, leaves_leaf leaf]
  change List.filterMap _ [label.origin] = (label.origin.bind (·.type)).toList
  cases type : label.origin.bind (·.type) <;> simp [type]

theorem Sub.untyped {t u : Tree} (h : u.Sub t) : u.untyped.Sub t.untyped := by
  induction h with
  | refl => exact .refl
  | child side _ ih => exact .child side ih

theorem leading?_node (c : Classifier) :
    c.leading? (Tree.node id label child).leafTypes =
      if childless child then label.type?
      else c.combine? (c.leading? (child .left).leafTypes) (c.leading? (child .right).leafTypes) := by
  split
  · rename_i leaf
    rw [leafTypes_leaf leaf]
    cases label.type? with
    | none => rfl
    | some type =>
      simp only [Option.toList_some, Classifier.leading?, List.find?_singleton, List.head?_cons]
      cases c.ciphertext type <;> cases c.plaintext type <;> rfl
  · rename_i inner
    rw [leafTypes_node (Bool.eq_false_iff.mpr inner), Classifier.leading?_append]

end Tree

namespace Store

variable {s s' s'' : Store} {c : Classifier} {id : Nat} {p : Option NodeId} {t : Tree}

/-- Nothing has changed but types that are kept in the nodes of a tree. -/
structure Retypes (s : Store) (t : Tree) (s' : Store) : Prop where
  nodes : s'.untyped = s.untyped
  frame : ∀ i : Nat, i ∉ t.preorder → s'.get? i = s.get? i

/-- Every node of a tree keeps the type that its own leaves decide. -/
def KeepsLeading (c : Classifier) (s : Store) (t : Tree) : Prop :=
  ∀ u : Tree, u.Sub t → ∀ i : Nat, u.id? = some i → (s.get? i).bind (·.memo) = c.leading? u.leafTypes

theorem Spans.leaves_ne_nil (h : s.Spans (some id) t) : t.leaves ≠ [] := by
  induction t generalizing id with
  | nil | missing => cases h
  | node _ label child ih =>
    by_cases leaf : Tree.childless child = true
    · rw [Tree.leaves_leaf leaf]
      exact List.cons_ne_nil _ _
    · rw [Tree.leaves_node (Bool.eq_false_iff.mpr leaf)]
      cases h with
      | @node _ n _ found children =>
        have below (side : Side) (there : (child side).isNil = false) :
            (child side).leaves ≠ [] := by
          have spans := children side
          cases place : n.child side with
          | none => simp [spans.isNil_eq, place] at there
          | some j => exact ih side (place ▸ spans)
        cases noLeft : (child .left).isNil with
        | false => exact List.append_ne_nil_of_left_ne_nil (below .left noLeft) _
        | true =>
          refine List.append_ne_nil_of_right_ne_nil _ (below .right ?_)
          simpa [Tree.childless, noLeft] using leaf

theorem Spans.isSome_leading? (h : s.Spans (some id) t) (typed : t.LeavesTyped) :
    (c.leading? t.leafTypes).isSome := by
  obtain ⟨o, mem⟩ := List.exists_mem_of_ne_nil _ h.leaves_ne_nil
  obtain ⟨type, isType⟩ := Option.isSome_iff_exists.mp (typed o mem)
  exact Classifier.isSome_leading? (List.ne_nil_of_mem (List.mem_filterMap.mpr ⟨o, mem, isType⟩))

section Node

variable {label : Label} {child : Side → Tree} (h : s.Spans (some id) (.node id label child))
  (typed : ∀ side, (child side).LeavesTyped)

include h typed

theorem Spans.isSome_leading?_iff :
    (c.leading? (Tree.node id label child).leafTypes).isSome ↔
      (Tree.node id label child).LeavesTyped := by
  refine ⟨fun known => ?_, h.isSome_leading?⟩
  by_cases leaf : Tree.childless child = true
  · rw [Tree.leading?_node, if_pos leaf] at known
    exact (Tree.leavesTyped_leaf leaf).mpr known
  · exact (Tree.leavesTyped_node (Bool.eq_false_iff.mpr leaf)).mpr ⟨typed .left, typed .right⟩

theorem Spans.combine?_or :
    (c.combine? (c.leading? (child .left).leafTypes) (c.leading? (child .right).leafTypes)).or
        label.type? =
      c.leading? (Tree.node id label child).leafTypes := by
  by_cases leaf : Tree.childless child = true
  · rw [Tree.leading?_node, if_pos leaf, Tree.children_of_childless leaf .left,
      Tree.children_of_childless leaf .right]
    exact Option.none_or
  · have known := h.isSome_leading? (c := c)
      ((Tree.leavesTyped_node (Bool.eq_false_iff.mpr leaf)).mpr ⟨typed .left, typed .right⟩)
    rw [Tree.leading?_node, if_neg leaf] at known ⊢
    exact Option.or_eq_left_of_isSome known

end Node

namespace Retypes

theorem refl (s : Store) (t : Tree) : s.Retypes t s := ⟨rfl, fun _ _ => rfl⟩

theorem trans (h : s.Retypes t s') (h' : s'.Retypes t s'') : s.Retypes t s'' :=
  ⟨h'.nodes.trans h.nodes, fun i other => (h'.frame i other).trans (h.frame i other)⟩

theorem withMemo (s : Store) (mem : id ∈ t.preorder) (memo : Option TypeName) :
    s.Retypes t (s.withMemo id memo) := by
  refine ⟨untyped_withMemo s id memo, fun i other => ?_⟩
  rw [Store.withMemo, get?_update, if_neg]
  rintro rfl
  exact other mem

theorem mono {u : Tree} (h : s.Retypes u s') (sub : u.Sub t) : s.Retypes t s' :=
  ⟨h.nodes, fun i other => h.frame i fun mem => other (sub.mem mem)⟩

end Retypes

/-- Types that are found later agree with those of shared nodes. -/
theorem KeepsLeading.retypes {f : Store} {u : Tree} {q : Option NodeId} (h : s.KeepsLeading c t)
    (left : f.Spans p t) (right : f.Spans q u) (retypes : s.Retypes u s')
    (later : s'.KeepsLeading c u) : s'.KeepsLeading c t := by
  intro v sub i isRoot
  by_cases mem : i ∈ u.preorder
  · obtain ⟨w, inside, isRoot'⟩ := Tree.exists_sub_of_mem mem
    have spans := left.sub sub
    have spans' := right.sub inside
    rw [isRoot] at spans
    rw [isRoot'] at spans'
    rw [spans.unique spans']
    exact later w inside i isRoot'
  · rw [retypes.frame i mem]
    exact h v sub i isRoot

theorem KeepsLeading.withMemo {f : Store} {label : Label} {child : Side → Tree} {type : TypeName}
    (h : ∀ side, s.KeepsLeading c (child side)) (spans : f.Spans (some id) (.node id label child))
    (found : c.leading? (Tree.node id label child).leafTypes = some type)
    (there : (s.get? id).isSome) :
    (s.withMemo id (some type)).KeepsLeading c (.node id label child) := by
  intro u sub i isRoot
  have part := spans.sub sub
  rw [isRoot] at part
  by_cases here : id = i
  · subst here
    obtain ⟨n, isNode⟩ := Option.isSome_iff_exists.mp there
    rw [← spans.unique part, found]
    simp [Store.withMemo, isNode]
  · rw [Store.withMemo, get?_update, if_neg here]
    cases sub with
    | refl => exact absurd (Option.some.inj isRoot) here
    | child side sub => exact h side u sub i isRoot

/-- The type of a tree is found anew: its leaves have types, and every node comes to keep the type
that its own leaves decide. -/
structure Decides (c : Classifier) (s : Store) (t : Tree) (type : Option TypeName) (s' : Store) :
    Prop where
  typed : t.LeavesTyped
  found : c.leading? t.leafTypes = type
  retypes : s.Retypes t s'
  keeps : s'.KeepsLeading c t

/-- The type of a tree is not found because that of a leaf is missing. -/
structure Misses (s : Store) (t : Tree) (e : Failure) (s' : Store) : Prop where
  untyped : ¬ t.LeavesTyped
  kind : e.kind = .type
  retypes : s.Retypes t s'

section Children

variable {label : Label} {child : Side → Tree}

theorem Misses.above {e : Failure} {side : Side} (h : s'.Misses (child side) e s'')
    (before : s.Retypes (.node id label child) s') : s.Misses (.node id label child) e s'' where
  untyped typed := h.untyped fun o mem => typed o (Tree.Sub.leaves (.child side .refl) o mem)
  kind := h.kind
  retypes := before.trans (h.retypes.mono (.child side .refl))

theorem Decides.children {f : Store} {q : Option NodeId} {left right : Option TypeName}
    (spans : f.Spans p (child .left)) (spans' : f.Spans q (child .right))
    (h : s.Decides c (child .left) left s') (h' : s'.Decides c (child .right) right s'') :
    s.Retypes (.node id label child) s'' ∧ (∀ side, (child side).LeavesTyped) ∧
      ∀ side, s''.KeepsLeading c (child side) := by
  refine ⟨(h.retypes.mono (.child .left .refl)).trans (h'.retypes.mono (.child .right .refl)),
    fun side => ?_, fun side => ?_⟩
  · cases side with
    | left => exact h.typed
    | right => exact h'.typed
  · cases side with
    | left => exact h.keeps.retypes spans spans' h'.retypes h'.keeps
    | right => exact h'.keeps

end Children

/-- Where kept types are not trusted, the leaves decide. -/
theorem Realizes.decides {f : Store} {type : Option TypeName} (h : Realizes c true s p type s')
    (spans : f.Spans p t) (same : s.untyped = f) : s.Decides c t type s' := by
  induction h generalizing t with
  | none s =>
    cases spans
    refine ⟨fun o mem => absurd mem List.not_mem_nil, rfl, .refl s .nil, fun u sub i isRoot => ?_⟩
    cases sub
    cases isRoot
  | kept _ memo => cases memo
  | @found s s₁ s₂ id n left right type isNode _ first _ isType ihLeft ihRight =>
    obtain ⟨label, child, rfl, whole, children, isLabel⟩ := spans.exists_children same isNode
    have decides := ihLeft (children .left) same
    have decides' := ihRight (children .right) (first.untyped_eq.trans same)
    obtain ⟨retypes, typed, keeps⟩ : s.Retypes (.node id label child) s₂ ∧ _ :=
      decides.children (children .left) (children .right) decides'
    rw [← decides.found, ← decides'.found, ← isLabel, whole.combine?_or typed] at isType
    have known := whole.isSome_leading?_iff typed (c := c)
    rw [isType] at known
    have there : (s₂.untyped.get? id).isSome := by
      rw [retypes.nodes, get?_untyped, isNode]
      rfl
    rw [get?_untyped, Option.isSome_map] at there
    exact ⟨known.mp rfl, isType, retypes.trans (.withMemo s₂ List.mem_cons_self (some type)),
      .withMemo keeps whole isType there⟩

theorem Untypeable.misses {f : Store} {e : Failure} (h : Untypeable c true s p s')
    (kind : e.kind = .type) (spans : f.Spans p t) (same : s.untyped = f) : s.Misses t e s' := by
  induction h generalizing t with
  | left isNode _ _ ih =>
    obtain ⟨label, child, rfl, -, children, -⟩ := spans.exists_children same isNode
    exact (ih (children .left) same).above (.refl _ _)
  | right isNode _ first _ ih =>
    obtain ⟨label, child, rfl, -, children, -⟩ := spans.exists_children same isNode
    have decides := first.decides (children .left) same
    exact (ih (children .right) (first.untyped_eq.trans same)).above
      (decides.retypes.mono (.child .left .refl))
  | @here s s₁ s₂ id n left right isNode _ first second absent =>
    obtain ⟨label, child, rfl, whole, children, isLabel⟩ := spans.exists_children same isNode
    have decides := first.decides (children .left) same
    have decides' := second.decides (children .right) (first.untyped_eq.trans same)
    obtain ⟨retypes, typed, -⟩ : s.Retypes (.node id label child) s₂ ∧ _ :=
      decides.children (children .left) (children .right) decides'
    rw [← decides.found, ← decides'.found, ← isLabel, whole.combine?_or typed] at absent
    have known := whole.isSome_leading?_iff typed (c := c)
    rw [absent] at known
    exact ⟨fun typed => Bool.false_ne_true (known.mpr typed), kind, retypes⟩

theorem typeAt_eq_of_memo (c : Classifier) {type : TypeName}
    (kept : (s.get? id).bind (·.memo) = some type) : typeAt c false id s = .ok type s := by
  obtain ⟨n, found, memo⟩ := Option.bind_eq_some_iff.mp kept
  obtain ⟨size, eq⟩ := Nat.exists_eq_succ_of_ne_zero (Nat.ne_zero_of_lt (lt_size_of_get? found))
  have answer : Ends (typeAt c false id) s (fun a s' => a = type ∧ s' = s) fun _ _ => False := by
    rw [typeAt, Ends.bind_iff, Ends.get_iff, eq, realize, Ends.bind_iff]
    refine ends_read found ?_
    rw [memo]
    exact ⟨rfl, rfl⟩
  obtain ⟨_, _, run, rfl, rfl⟩ := answer.exists_ok
  exact run

theorem ends_typeAt_leading (h : s.Spans (some id) t) :
    Ends (typeAt c true id) s (fun type s' => s.Decides c t (some type) s')
      fun e s' => s.Misses t e s' := by
  have leaves (t : Tree) : t.untyped.leaves = t.leaves :=
    Tree.leaves_eq_of_bare (Tree.bare_untyped t)
  have types (t : Tree) : t.untyped.leafTypes = t.leafTypes := by
    rw [Tree.leafTypes, leaves]
    rfl
  have typed : t.untyped.LeavesTyped ↔ t.LeavesTyped := by
    rw [Tree.LeavesTyped, leaves]
    rfl
  have retypes (s' : Store) (h : s.Retypes t.untyped s') : s.Retypes t s' :=
    ⟨h.nodes, fun i other => h.frame i (by rwa [Tree.preorder_untyped])⟩
  refine (ends_typeAt_realizes h).imp ?_ ?_
  · intro type s' realizes
    obtain ⟨known, found, changed, keeps⟩ := realizes.decides h.untyped rfl
    rw [types] at found
    refine ⟨typed.mp known, found, retypes s' changed, fun u sub i isRoot => ?_⟩
    rw [← types]
    exact keeps u.untyped sub.untyped i ((Tree.id?_untyped u).trans isRoot)
  · rintro e s' ⟨kind, fails⟩
    have misses := fails.misses kind h.untyped rfl
    exact ⟨fun known => misses.untyped (typed.mpr known), kind, retypes s' misses.retypes⟩

end Store

/-- Finding the type of a tree anew fails exactly where the value of a leaf has no type. Else the
first ciphertext among the leaves decides, or the first plaintext, or the leftmost leaf, whatever
types were kept before. Then every node of the tree keeps the type that its own leaves decide, which
is the answer to every later question. Nothing but types kept in the tree ever changes. -/
theorem typeAt_eq_leading? {s : Store} {id : Nat} {t : Tree} (c : Classifier)
    (h : s.Spans (some id) t) :
    ((∃ e s', Store.typeAt c true id s = .error e s') ↔
        ∃ o ∈ t.leaves, Option.bind o Origin.type = none) ∧
      (∀ e s', Store.typeAt c true id s = .error e s' → e.kind = .type ∧ s.Retypes t s') ∧
      ((∀ o ∈ t.leaves, Option.bind o Origin.type ≠ none) →
        ∃ type s', Store.typeAt c true id s = .ok type s' ∧
          c.leading? t.leafTypes = some type ∧ s.Retypes t s' ∧
          ∀ u : Tree, u.Sub t → ∀ i : Nat, u.id? = some i →
            ∃ type', c.leading? u.leafTypes = some type' ∧
              (s'.get? i).bind (·.memo) = some type' ∧
              ∀ c' : Classifier, Store.typeAt c' false i s' = .ok type' s') := by
  have ends : Ends (Store.typeAt c true id) s _ _ := Store.ends_typeAt_leading h
  have untyped : (∃ o ∈ t.leaves, Option.bind o Origin.type = none) ↔ ¬ t.LeavesTyped := by
    simp [Tree.LeavesTyped]
  refine ⟨?_, fun e s' run => ?_, fun typed => ?_⟩
  · rw [untyped]
    exact (ends.imp (fun _ _ h => not_not.mpr h.typed) fun _ _ h => h.untyped).exists_error_iff
  · have misses := ends.of_error run
    exact ⟨misses.kind, misses.retypes⟩
  · have typed : t.LeavesTyped := fun o mem => Option.isSome_iff_ne_none.mpr (typed o mem)
    obtain ⟨type, s', run, -, found, retypes, keeps⟩ :=
      (ends.imp (fun _ _ h => h) fun _ _ misses => misses.untyped typed).exists_ok
    refine ⟨type, s', run, found, retypes, fun u sub i isRoot => ?_⟩
    have spans := h.sub sub
    rw [isRoot] at spans
    obtain ⟨type', found'⟩ := Option.isSome_iff_exists.mp
      (spans.isSome_leading? (c := c) fun o mem => typed o (sub.leaves o mem))
    have kept := (keeps u sub i isRoot).trans found'
    exact ⟨type', found', kept, fun c' => Store.typeAt_eq_of_memo c' kept⟩

/-- A ciphertext times the sum of an integer and a plaintext, plus that sum again, which is shared.
The types that are kept are wrong. -/
def Store.staleTypes : Store :=
  let read (v : VarId) (type memo : TypeName) : Node :=
    { origin := some ⟨v, some type, .var v⟩, memo := some memo }
  let op (op : Operator) (left right : NodeId) (memo : TypeName) : Node :=
    { op := some op, left := some left, right := some right, memo := some memo }
  ⟨#[read 0 .int "cipher", read 1 "plain" .int, op .add 0 1 "cipher", read 2 "cipher" "plain",
    op .mul 2 3 .float, op .add 4 2 .float]⟩

def Classifier.ofMarks : Classifier := ⟨fun _ => false, (· == "cipher"), (· == "plain")⟩

theorem typeAt_eq_leading?_staleTypes :
    ∃ (t u : Tree) (s' : Store), Store.staleTypes.Spans (some 5) t ∧ u.Sub t ∧ u.id? = some 2 ∧
      (∀ o ∈ t.leaves, Option.bind o Origin.type ≠ none) ∧
      Store.typeAt .ofMarks true 5 .staleTypes = .ok "cipher" s' ∧
      Store.staleTypes.Retypes t s' ∧ Store.typeAt .ofMarks false 2 s' = .ok "plain" s' := by
  have spans (id : Nat) (whole : (Store.staleTypes.tree id).complete = true) :
      Store.staleTypes.Spans (some id) (Store.staleTypes.tree id) := Store.spans_unfold whole
  have root := spans 5 (by decide +kernel)
  obtain ⟨u, sub, isRoot⟩ : ∃ u : Tree, u.Sub (Store.staleTypes.tree 5) ∧ u.id? = some 2 :=
    Tree.exists_sub_of_mem (by decide +kernel)
  have typed : ∀ o ∈ (Store.staleTypes.tree 5).leaves, Option.bind o Origin.type ≠ none := by
    decide +kernel
  obtain ⟨type, s', run, found, retypes, keeps⟩ := (typeAt_eq_leading? .ofMarks root).2.2 typed
  obtain ⟨type', found', -, later⟩ := keeps u sub 2 isRoot
  have isCipher : Classifier.ofMarks.leading? (Store.staleTypes.tree 5).leafTypes = some "cipher" := by
    decide +kernel
  have isPlain : Classifier.ofMarks.leading? (Store.staleTypes.tree 2).leafTypes = some "plain" := by
    decide +kernel
  have part := root.sub sub
  rw [isRoot] at part
  rw [part.unique (spans 2 (by decide +kernel)), isPlain] at found'
  rw [isCipher] at found
  cases found
  cases found'
  exact ⟨_, u, s', root, sub, isRoot, typed, run, retypes, later _⟩

end SecureArith
