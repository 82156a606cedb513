import SecureArith.Pass.Priority
import SecureArith.Proofs.Ends.Work
import SecureArith.Proofs.Priority.Order

set_option autoImplicit false

/-!
# Reordering priorities

A swap exchanges an operand of an operation with an operand of the operation below it, and the store
then holds the tree with the two exchanged. An attempt makes a swap unless the tree is in order, and
it fails only where a type is not found. An attempt that fails or makes no swap changes nothing but
kept types.
-/

namespace SecureArith

theorem Node.toLabel_withChild (n : Node) (old new : NodeId) :
    (n.withChild old new).toLabel = n.toLabel := by
  unfold Node.withChild
  split <;> rfl

theorem Node.mem_children_of_child {n : Node} {a : NodeId} {side : Side}
    (h : n.child side = some a) : a ∈ n.children := by
  cases side with
  | left => exact List.mem_append_left _ (Option.mem_toList.mpr h)
  | right => exact List.mem_append_right _ (Option.mem_toList.mpr h)

theorem Node.hasChild_iff {n : Node} {a : NodeId} :
    n.hasChild a = true ↔ ∃ side, n.child side = some a := by
  rw [Node.hasChild, Bool.or_eq_true, beq_iff_eq, beq_iff_eq]
  refine ⟨fun h => h.elim (fun left => ⟨.left, left⟩) fun right => ⟨.right, right⟩, ?_⟩
  rintro ⟨_ | _, h⟩
  · exact .inl h
  · exact .inr h

theorem Node.child_withChild {n : Node} {side : Side} {old : NodeId} (new : NodeId)
    (at_ : n.child side = some old) (other : n.child side.flip ≠ some old) :
    (n.withChild old new).child side = some new ∧
      (n.withChild old new).child side.flip = n.child side.flip := by
  cases side with
  | left =>
    have left : n.left = some old := at_
    simp [Node.withChild, left, Node.child, Side.flip]
  | right =>
    have left : ¬ n.left = some old := other
    simp [Node.withChild, left, Node.child, Side.flip]

namespace Store

variable {s : Store} {id : Nat} {n : Node} {t : Tree}

theorem Owned.child {below : Side → Tree} (h : s.Owned (some id) (.node id n.toLabel below))
    (found : s.get? id = some n) (side : Side) : s.Owned (n.child side) (below side) := by
  have sub : (below side).Sub (.node id n.toLabel below) := .child side .refl
  refine ⟨?_, h.nodup.sublist sub.sublist⟩
  generalize eq : n.toLabel = label at h
  cases h.spans with
  | node found' children =>
    cases Option.some.inj (found.symm.trans found')
    exact children side

theorem Owned.exists_node {label : Label} {below : Side → Tree}
    (h : s.Owned (some id) (.node id label below)) :
    ∃ n : Node, n.toLabel = label ∧ s.get? id = some n := by
  obtain ⟨n, l, r, eq, split⟩ := h.split
  injection eq with _ isLabel _
  exact ⟨n, isLabel.symm, split.found⟩

theorem Owned.side_eq {label : Label} {child : Side → Tree} {a : NodeId} {side side' : Side}
    (h : s.Owned (some id) (.node id label child)) (isA : (child side).id? = some a)
    (isA' : (child side').id? = some a) : side = side' := by
  have once := List.nodup_iff_count_le_one.mp h.nodup a
  have here := List.count_pos_iff.mpr (Tree.mem_preorder_of_id? isA)
  have there := List.count_pos_iff.mpr (Tree.mem_preorder_of_id? isA')
  rw [Tree.count_preorder_node .left] at once
  cases side <;> cases side' <;> first | rfl | (simp only [Side.flip] at once; omega)

theorem Owned.typeable_eq_false {c : Classifier} (h : s.Owned (some id) t)
    (absent : t.type? c false = none) : t.typeable c = false := by
  obtain ⟨n, l, r, rfl, -⟩ := h.split
  rw [Tree.typeable, absent]
  rfl

theorem Owned.exists_above {label : Label} {side : Side} {x y : Tree}
    (h : s.Owned (some id) (.node id label (Tree.place side x y))) :
    ∃ n : Node, n.toLabel = label ∧ s.get? id = some n ∧ s.Owned (n.child side) x ∧
      s.Owned (n.child side.flip) y := by
  obtain ⟨n, rfl, found⟩ := h.exists_node
  have below := h.child found side
  have beside := h.child found side.flip
  rw [Tree.place_same] at below
  rw [Tree.place_flip] at beside
  exact ⟨n, rfl, found, below, beside⟩

theorem Spans.place {side : Side} {x y : Tree} (found : s.get? id = some n)
    (hx : s.Spans (n.child side) x) (hy : s.Spans (n.child side.flip) y) :
    s.Spans (some id) (.node id n.toLabel (Tree.place side x y)) := by
  refine .node found fun side' => ?_
  cases side <;> cases side' <;> assumption

section Exchanged

variable {root k sibling operand : Nat}

/-- An operand of the operation `root` and one of the operation `k` below it have changed places,
and no type is kept for `k`. -/
def exchanged (s : Store) (root k sibling operand : NodeId) : Store :=
  ((s.update k (·.withChild operand sibling)).update root
    (·.withChild sibling operand)).withMemo k none

theorem get?_exchanged_of_ne {i : Nat} (notRoot : i ≠ root) (notK : i ≠ k) :
    (s.exchanged root k sibling operand).get? i = s.get? i := by
  rw [exchanged, withMemo, get?_update_of_ne notK, get?_update_of_ne notRoot, get?_update_of_ne notK]

theorem get?_exchanged_root (ne : root ≠ k) (found : s.get? root = some n) :
    (s.exchanged root k sibling operand).get? root = some (n.withChild sibling operand) := by
  rw [exchanged, withMemo, get?_update_of_ne ne, get?_update, if_pos rfl, get?_update_of_ne ne, found]
  rfl

theorem get?_exchanged_below (ne : root ≠ k) (found : s.get? k = some n) :
    (s.exchanged root k sibling operand).get? k =
      some { n.withChild operand sibling with memo := none } := by
  rw [exchanged, withMemo, get?_update, if_pos rfl, get?_update_of_ne ne.symm, get?_update,
    if_pos rfl, found]
  rfl

/-- Where the links of an operation and of the operation below it have changed places, so have the
trees. -/
theorem Owned.exchange {label label' : Label} {side side' : Side} {a o c : Tree}
    (h : s.Owned (some root)
      (.node root label (Tree.place side (.node k label' (Tree.place side' a o)) c)))
    (isA : a.id? = some operand) (isC : c.id? = some sibling) :
    (s.exchanged root k sibling operand).Owned (some root)
      (.node root label (Tree.place side
        (.node k { label' with memo := none } (Tree.place side' c o)) a)) ∧
    s.Turns (.node root label (Tree.place side (.node k label' (Tree.place side' a o)) c))
      (s.exchanged root k sibling operand)
      (.node root label (Tree.place side
        (.node k { label' with memo := none } (Tree.place side' c o)) a)) := by
  obtain ⟨n, rfl, found, below, beside⟩ := h.exists_above
  have isK : n.child side = some k := below.spans.id?_eq.symm
  have isSibling : n.child side.flip = some sibling := beside.spans.id?_eq.symm.trans isC
  rw [isK] at below
  obtain ⟨m, rfl, found', moving, kept⟩ := below.exists_above
  have isOperand : m.child side' = some operand := moving.spans.id?_eq.symm.trans isA
  -- The nodes are the same ones before and after, and each of them occurs once.
  have before := Tree.preorder_place_place root k n.toLabel m.toLabel side side' a o c
  have after := Tree.preorder_place_place root k n.toLabel { m.toLabel with memo := none } side side'
    c o a
  have operands : (c.preorder ++ (o.preorder ++ a.preorder)).Perm
      (a.preorder ++ (o.preorder ++ c.preorder)) := by
    rw [← List.append_assoc a.preorder]
    exact List.perm_append_comm.trans (List.perm_append_comm.append_right c.preorder)
  have nodes := after.trans (((operands.cons k).cons root).trans before.symm)
  obtain ⟨notRoot, notK, -⟩ := List.nodup_cons.mp (before.nodup_iff.mp h.nodup) |>.imp_right
    List.nodup_cons.mp
  have ne : root ≠ k := fun eq => notRoot (eq ▸ List.mem_cons_self)
  have keep {p : Option NodeId} {u : Tree} (spans : s.Spans p u)
      (inside : u.preorder ⊆ a.preorder ++ (o.preorder ++ c.preorder)) :
      (s.exchanged root k sibling operand).Spans p u :=
    spans.congr fun i mem => get?_exchanged_of_ne
      (fun eq => notRoot (eq ▸ List.mem_cons_of_mem k (inside mem))) fun eq => notK (eq ▸ inside mem)
  have notSibling : n.child side.flip.flip ≠ some sibling := by
    rw [Side.flip_flip, isK]
    rintro ⟨⟩
    exact notK (by simp [Tree.mem_preorder_of_id? isC])
  have notOperand : m.child side'.flip ≠ some operand := by
    rw [← kept.spans.id?_eq]
    intro eq
    have same : side' = side'.flip := below.side_eq (by rw [Tree.place_same]; exact isA)
      (by rw [Tree.place_flip]; exact eq)
    exact side'.ne_flip same
  obtain ⟨linked, rest⟩ := Node.child_withChild operand isSibling notSibling
  obtain ⟨linked', rest'⟩ := Node.child_withChild sibling isOperand notOperand
  rw [Side.flip_flip, isK] at rest
  rw [isSibling, ← linked'] at beside
  rw [isOperand, ← linked] at moving
  rw [← rest'] at kept
  refine ⟨⟨?_, nodes.nodup_iff.mpr h.nodup⟩,
    ⟨by simp [exchanged, withMemo], fun i _ other => ?_, fun i mem => .inl (nodes.mem_iff.mp mem)⟩⟩
  · have lower := Spans.place (get?_exchanged_below ne found') (keep beside.spans (by simp))
      (keep kept.spans (by simp))
    rw [← Node.toLabel_withChild n sibling operand, ← Node.toLabel_withChild m operand sibling]
    exact .place (get?_exchanged_root ne found) (rest ▸ lower) (keep moving.spans (by simp))
  · rw [before.mem_iff] at other
    exact get?_exchanged_of_ne (fun eq => other (by simp [eq])) fun eq => other (by simp [eq])

end Exchanged

end Store

namespace Bench

variable {b b' : Bench} {id : Nat} {label : Label} {x y u : Tree} {side : Side}

theorem Reworked.below (side : Side)
    (owned : b.forest.store.Owned (some id) (.node id label (Tree.place side x y)))
    (h : b.Reworked x.id? x b' u) :
    b.Reworked (some id) (.node id label (Tree.place side x y)) b'
      (.node id label (Tree.place side u y)) := by
  obtain ⟨n, l, r, eq, split⟩ := owned.split
  injection eq with _ isLabel children
  subst isLabel
  cases side with
  | left =>
    have left : x = l := congrFun children .left
    have right : y = r := congrFun children .right
    subst left right
    rw [split.left.spans.id?_eq] at h
    exact (Reworked.child split .left h rfl).2
  | right =>
    have left : y = l := congrFun children .left
    have right : x = r := congrFun children .right
    subst left right
    rw [split.right.spans.id?_eq] at h
    exact (Reworked.child split .right h rfl).2

theorem Reworked.beside (side : Side)
    (owned : b.forest.store.Owned (some id) (.node id label (Tree.place side x y)))
    (h : b.Reworked y.id? y b' u) :
    b.Reworked (some id) (.node id label (Tree.place side x y)) b'
      (.node id label (Tree.place side x u)) := by
  rw [Tree.place_swap] at owned
  rw [Tree.place_swap side x y, Tree.place_swap side x u]
  exact Reworked.below side.flip owned h

end Bench

namespace Work

variable {b b₁ b' : Bench} {c : Classifier} {id root k : Nat} {label label' : Label}
  {t u x y : Tree} {side : Side} {still : Prop} {changed : Bool} {e : Failure}

def Kept (c : Classifier) (b : Bench) (root : NodeId) (t : Tree) (b' : Bench) : Prop :=
  ∃ u, b.Reworked (some root) t b' u ∧ t.Learns c u

def Moved (c : Classifier) (b : Bench) (root : NodeId) (t : Tree) (b' : Bench) : Prop :=
  ∃ u, b.Reworked (some root) t b' u ∧ t.Swapped c u

/-- What an attempt to swap leaves, where `still` says that no swap is possible. -/
def Attempted (c : Classifier) (b : Bench) (root : NodeId) (t : Tree) (still : Prop)
    (changed : Bool) (b' : Bench) : Prop :=
  if changed then ¬ still ∧ Moved c b root t b' else still ∧ Kept c b root t b'

/-- What a swap leaves, where `still` says that none is possible. Swaps of other operators, or where
the operation is cheap, are none that reordering makes. -/
def Tried (c : Classifier) (b : Bench) (root : NodeId) (t : Tree) (lawful still : Prop)
    (changed : Bool) (b' : Bench) : Prop :=
  if changed then ¬ still ∧ (lawful → Moved c b root t b') else still ∧ Kept c b root t b'

/-- A type was not found, and nothing but kept types has changed. -/
def Untyped (c : Classifier) (b : Bench) (root : NodeId) (t : Tree) (e : Failure) (b' : Bench) :
    Prop :=
  e.kind = .type ∧ t.typeable c = false ∧ ∃ u, b.Reworked (some root) t b' u ∧ u.untyped = t.untyped

theorem Kept.after (h : b.Reworked (some root) t b₁ u) (learns : t.Learns c u)
    (h' : Kept c b₁ root u b') : Kept c b root t b' := by
  obtain ⟨v, reworked, learns'⟩ := h'
  exact ⟨v, h.trans reworked, learns.trans learns'⟩

theorem Moved.after (h : b.Reworked (some root) t b₁ u) (learns : t.Learns c u)
    (h' : Moved c b₁ root u b') : Moved c b root t b' := by
  obtain ⟨v, reworked, swapped⟩ := h'
  exact ⟨v, h.trans reworked, learns.swapped swapped⟩

theorem Attempted.after (h : b.Reworked (some root) t b₁ u) (learns : t.Learns c u)
    (h' : Attempted c b₁ root u still changed b') : Attempted c b root t still changed b' := by
  cases changed with
  | true => exact ⟨h'.1, h'.2.after h learns⟩
  | false => exact ⟨h'.1, h'.2.after h learns⟩

theorem Tried.after {lawful : Prop} (h : b.Reworked (some root) t b₁ u) (learns : t.Learns c u)
    (h' : Tried c b₁ root u lawful still changed b') : Tried c b root t lawful still changed b' := by
  cases changed with
  | true => exact ⟨h'.1, fun holds => (h'.2 holds).after h learns⟩
  | false => exact ⟨h'.1, h'.2.after h learns⟩

theorem Tried.attempted {lawful : Prop} (h : Tried c b root t lawful still changed b')
    (holds : lawful) : Attempted c b root t still changed b' := by
  cases changed with
  | true => exact ⟨h.1, h.2 holds⟩
  | false => exact h

theorem Untyped.after (h : b.Reworked (some root) t b₁ u) (learns : t.Learns c u)
    (h' : Untyped c b₁ root u e b') : Untyped c b root t e b' := by
  obtain ⟨kind, untypeable, v, reworked, same⟩ := h'
  exact ⟨kind, learns.typeable_eq ▸ untypeable, v, h.trans reworked, same.trans learns.untyped_eq⟩

section Below

variable (side) (owned : b.forest.store.Owned (some root) (.node root label (Tree.place side x y)))
  (isX : x.id? = some k)
include owned isX

theorem Kept.below (h : Kept c b k x b') :
    Kept c b root (.node root label (Tree.place side x y)) b' := by
  obtain ⟨u, reworked, learns⟩ := h
  exact ⟨_, .below side owned (isX ▸ reworked), learns.place (.refl c y) root label side⟩

theorem Moved.below (kept : label.KeepsSecure c) (h : Moved c b k x b') :
    Moved c b root (.node root label (Tree.place side x y)) b' := by
  obtain ⟨u, reworked, swapped⟩ := h
  exact ⟨_, .below side owned (isX ▸ reworked), .below kept swapped⟩

theorem Attempted.below (kept : label.KeepsSecure c) (h : Attempted c b k x still changed b') :
    Attempted c b root (.node root label (Tree.place side x y)) still changed b' := by
  cases changed with
  | true => exact ⟨h.1, h.2.below side owned isX kept⟩
  | false => exact ⟨h.1, h.2.below side owned isX⟩

theorem Untyped.below (h : Untyped c b k x e b') :
    Untyped c b root (.node root label (Tree.place side x y)) e b' := by
  obtain ⟨kind, untypeable, u, reworked, same⟩ := h
  refine ⟨kind, ?_, _, .below side owned (isX ▸ reworked),
    Tree.untyped_congr root label side same rfl⟩
  rw [Tree.typeable_place, untypeable, Bool.and_false, Bool.false_and]

end Below

theorem ends_isSecure (h : b.forest.store.Owned (some id) t) :
    Ends (isSecure c id) b
      (fun secure b' => t.secure? c = some secure ∧ b.Reworked (some id) t b' (t.typed c false))
      fun e b' => t.secure? c = none ∧ Untyped c b id t e b' := by
  rw [isSecure, Ends.bind_iff]
  refine (ends_typeAt h).imp ?_ ?_
  · rintro type b' ⟨found, -, typed⟩
    exact ⟨congrArg (Option.map c.secure) found, typed⟩
  · rintro e b' ⟨absent, kind, retyped⟩
    exact ⟨congrArg (Option.map c.secure) absent, kind, h.typeable_eq_false absent, retyped⟩

theorem ends_isSecure_operand (side' : Side) {i : Nat} {a o s : Tree}
    (h : b.forest.store.Owned (some root)
      (.node root label (Tree.place side (.node k label' (Tree.place side' a o)) s)))
    (isA : a.id? = some i) :
    Ends (isSecure c i) b
      (fun secure b' => a.secure? c = some secure ∧ b.Reworked (some root)
        (.node root label (Tree.place side (.node k label' (Tree.place side' a o)) s)) b'
        (.node root label
          (Tree.place side (.node k label' (Tree.place side' (a.typed c false) o)) s)))
      fun e b' => a.secure? c = none ∧ Untyped c b root
        (.node root label (Tree.place side (.node k label' (Tree.place side' a o)) s)) e b' := by
  have lower := h.sub (Tree.sub_place root label side _ s)
  have owned := lower.sub (Tree.sub_place k label' side' a o)
  rw [isA] at owned
  refine (ends_isSecure owned).imp ?_ ?_
  · rintro secure b' ⟨type, reworked⟩
    exact ⟨type, .below side h (.below side' lower (isA ▸ reworked))⟩
  · rintro e b' ⟨untypeable, untyped⟩
    exact ⟨untypeable, (untyped.below side' lower isA).below side h rfl⟩

theorem ends_exchange (side' : Side) {sibling operand : Nat} {op : Operator} {a o s : Tree}
    (h : b.forest.store.Owned (some root)
      (.node root label (Tree.place side (.node k label' (Tree.place side' a o)) s)))
    (isA : a.id? = some operand) (isS : s.id? = some sibling) (upper : label.op = some op)
    (lower : label'.op = some op) (secure : a.secure? c = some true)
    (cheap : o.secure? c = some false) (cheapS : s.secure? c = some false) :
    Ends (exchange c root k sibling operand) b
      (fun _ b' => op.commutes = true ∧ label.KeepsSecure c → Moved c b root
        (.node root label (Tree.place side (.node k label' (Tree.place side' a o)) s)) b')
      fun _ _ => False := by
  obtain ⟨owned, turns⟩ := h.exchange isA isS
  have start := Bench.reworked_withStore owned turns
  have lowered := owned.sub (Tree.sub_place root label side _ a)
  have rootLt := h.spans.lt_size root List.mem_cons_self
  have belowLt := (h.sub (Tree.sub_place root label side _ s)).spans.lt_size k List.mem_cons_self
  rw [exchange, Ends.bind_iff, ends_onStore]
  refine Store.ends_write belowLt ?_
  rw [Ends.bind_iff, ends_onStore]
  refine Store.ends_write (by rwa [Bench.store_withStore, Store.size_update]) ?_
  rw [Ends.bind_iff, ends_onStore]
  refine Store.ends_write (by rwa [Bench.store_withStore, Store.size_update,
    Bench.store_withStore, Store.size_update]) ?_
  rw [Ends.bind_iff]
  refine (ends_typeAt (b := b.withStore _) lowered).imp ?_ ?_
  · rintro _ b₂ ⟨-, -, typed⟩
    have whole := Bench.Reworked.below (b := b.withStore _) side owned typed
    refine ends_noteAt ?_ fun journal => ?_
    · rw [Ends.bind_iff]
      exact ends_shown whole.owned.spans whole.owned.height_le rfl
    · rintro ⟨commutes, kept⟩
      exact ⟨_, (start.trans whole).note journal, k, op, _, _, commutes, .refl c _,
        .here upper lower kept secure cheap cheapS,
        (Tree.Learns.typed c _).place (.refl c a) root label side⟩
  · rintro e b₂ ⟨absent, -⟩
    have typed : (Tree.node k { label' with memo := none } (Tree.place side' s o)).secure? c =
        some false := Tree.secure?_place rfl cheapS cheap
    rw [Tree.secure?, absent] at typed
    cases typed

/-- Of two operands, the secure one is exchanged with a cheap sibling. -/
theorem ends_exchange_differing {i j sibling : Nat} {op : Operator} {secure : Bool} {l r s : Tree}
    (h : b.forest.store.Owned (some root)
      (.node root label (Tree.place side (.node k label' (Tree.pair l r)) s)))
    (isL : l.id? = some i) (isR : r.id? = some j) (isS : s.id? = some sibling)
    (upper : label.op = some op) (lower : label'.op = some op)
    (typeL : l.secure? c = some secure) (typeR : r.secure? c = some !secure)
    (cheap : s.secure? c = some false) :
    Ends (exchange c root k sibling (if secure then i else j)) b
      (fun _ b' => op.commutes = true ∧ label.KeepsSecure c → Moved c b root
        (.node root label (Tree.place side (.node k label' (Tree.pair l r)) s)) b')
      fun _ _ => False := by
  cases secure with
  | true => exact ends_exchange .left h isL isS upper lower typeL typeR cheap
  | false => exact ends_exchange .right h isR isS upper lower typeR typeL cheap

/-- The types of two operands are looked for, and where they differ in being secure, the secure one
is exchanged with a cheap sibling. -/
theorem ends_exchangeOperands {i j sibling : Nat} {op : Operator} {l r s : Tree}
    (h : b.forest.store.Owned (some root)
      (.node root label (Tree.place side (.node k label' (Tree.pair l r)) s)))
    (isL : l.id? = some i) (isR : r.id? = some j) (isS : s.id? = some sibling)
    (upper : label.op = some op) (lower : label'.op = some op)
    (cheap : s.secure? c = some false) :
    Ends (do
        let secureA ← isSecure c i
        let secureB ← isSecure c j
        if secureA = secureB then return false
        exchange c root k sibling (if secureA then i else j)
        return true) b
      (Tried c b root (.node root label (Tree.place side (.node k label' (Tree.pair l r)) s))
        (op.commutes = true ∧ label.KeepsSecure c)
        (∃ secure, l.secure? c = some secure ∧ r.secure? c = some secure))
      fun e b' => ¬ (∃ secure, l.secure? c = some secure ∧ r.secure? c = some secure) ∧
        Untyped c b root
          (.node root label (Tree.place side (.node k label' (Tree.pair l r)) s)) e b' := by
  rw [Ends.bind_iff]
  refine (ends_isSecure_operand .left h isL).imp ?_ ?_
  · rintro secureL b₁ ⟨typeL, whole₁⟩
    have learnsL := Tree.Learns.typed c l
    have learns₁ := (learnsL.place (.refl c r) k label' .left).place (.refl c s) root label side
    rw [Ends.bind_iff]
    refine (ends_isSecure_operand .right whole₁.owned isR).imp ?_ ?_
    · rintro secureR b₂ ⟨typeR, whole₂⟩
      have learnsR := Tree.Learns.typed c r
      have learns₂ := (learnsR.place learnsL k label' .right).place (.refl c s) root label side
      have whole := whole₁.trans whole₂
      rw [Ends.ite_iff]
      refine ⟨fun same => ⟨⟨secureL, typeL, same ▸ typeR⟩, _, whole, learns₂⟩, fun differ => ?_⟩
      have other : secureR = !secureL := by
        cases secureL <;> cases secureR <;> first | rfl | exact absurd rfl differ
      rw [Ends.bind_iff]
      refine (ends_exchange_differing whole.owned (learnsL.id?_eq.trans isL)
        (learnsR.id?_eq.trans isR) isS upper lower (learnsL.secure?_eq.trans typeL)
        (learnsR.secure?_eq.trans (other ▸ typeR)) cheap).imp ?_ fun _ _ h => h.elim
      refine fun _ _ moved => ⟨?_, fun lawful => (moved lawful).after whole learns₂⟩
      rintro ⟨secure, isSecure, isSecure'⟩
      exact differ (Option.some.inj ((typeL.symm.trans isSecure).trans (isSecure'.symm.trans typeR)))
    · rintro e b₂ ⟨untypeable, untyped⟩
      refine ⟨?_, untyped.after whole₁ learns₁⟩
      rintro ⟨secure, -, typeR⟩
      cases untypeable.symm.trans typeR
  · rintro e b₁ ⟨untypeable, untyped⟩
    refine ⟨?_, untyped⟩
    rintro ⟨secure, typeL, -⟩
    cases untypeable.symm.trans typeL

/-- A secure operand is exchanged with the sibling, if it is the only one and the sibling is
cheap. -/
theorem ends_exchangeSecure {sibling : Nat} {op : Operator} {l r s : Tree} {m : Node}
    (h : b.forest.store.Owned (some root)
      (.node root label (Tree.place side (.node k label' (Tree.pair l r)) s)))
    (isL : l.id? = m.left) (isR : r.id? = m.right) (isS : s.id? = some sibling)
    (upper : label.op = some op) (lower : label'.op = some op) :
    Ends (exchangeSecure c root k sibling m) b
      (Tried c b root (.node root label (Tree.place side (.node k label' (Tree.pair l r)) s))
        (op.commutes = true ∧ label.KeepsSecure c)
        (Tree.Steady c op s (.node k label' (Tree.pair l r))))
      fun e b' => ¬ Tree.Steady c op s (.node k label' (Tree.pair l r)) ∧ Untyped c b root
        (.node root label (Tree.place side (.node k label' (Tree.pair l r)) s)) e b' := by
  have ownedS : b.forest.store.Owned (some sibling) s := by
    rw [Tree.place_swap] at h
    exact isS ▸ h.sub (Tree.sub_place root label side.flip s _)
  rw [exchangeSecure, Ends.bind_iff]
  refine (ends_isSecure ownedS).imp ?_ ?_
  · rintro secure b₁ ⟨typeS, belowS⟩
    have whole := Bench.Reworked.beside side h (isS ▸ belowS)
    have learnsS := Tree.Learns.typed c s
    have learns := (Tree.Learns.refl c (.node k label' (Tree.pair l r))).place learnsS root label side
    cases secure with
    | true => exact ⟨fun _ _ => .inl typeS, _, whole, learns⟩
    | false =>
      cases left : m.left with
      | none =>
        have nil := Tree.isNil_of_id?_none (isL.trans left)
        exact ⟨Tree.steady_of_isNil typeS (.inl nil), _, whole, learns⟩
      | some i =>
        cases right : m.right with
        | none =>
          have nil := Tree.isNil_of_id?_none (isR.trans right)
          exact ⟨Tree.steady_of_isNil typeS (.inr nil), _, whole, learns⟩
        | some j =>
          rw [left] at isL
          rw [right] at isR
          rw [Tree.steady_pair_iff lower typeS (Tree.isNil_of_id? isL) (Tree.isNil_of_id? isR)]
          refine (ends_exchangeOperands whole.owned isL isR (learnsS.id?_eq.trans isS) upper lower
            (learnsS.secure?_eq.trans typeS)).imp ?_ ?_
          · exact fun changed b' tried => tried.after whole learns
          · exact fun e b' failed => ⟨failed.1, failed.2.after whole learns⟩
  · rintro e b₁ ⟨untypeable, untyped⟩
    refine ⟨fun steady => ?_, ?_⟩
    · rcases steady lower (Tree.isNil_of_id? isS) with secure | ⟨cheap, -⟩
      · cases untypeable.symm.trans secure
      · cases untypeable.symm.trans cheap
    · rw [Tree.place_swap] at h ⊢
      exact untyped.below side.flip h isS

theorem ends_swap {op : Operator} {l r s : Tree}
    (h : b.forest.store.Owned (some root)
      (.node root label (Tree.place side (.node k label' (Tree.pair l r)) s)))
    (upper : label.op = some op) (lower : label'.op = some op) :
    Ends (swap c root k) b
      (Tried c b root (.node root label (Tree.place side (.node k label' (Tree.pair l r)) s))
        (op.commutes = true ∧ label.KeepsSecure c)
        (Tree.Steady c op s (.node k label' (Tree.pair l r))))
      fun e b' => ¬ Tree.Steady c op s (.node k label' (Tree.pair l r)) ∧ Untyped c b root
        (.node root label (Tree.place side (.node k label' (Tree.pair l r)) s)) e b' := by
  obtain ⟨n, rfl, found, below, beside⟩ := h.exists_above
  have isK : n.child side = some k := below.spans.id?_eq.symm
  have isS : s.id? = n.child side.flip := beside.spans.id?_eq
  rw [isK] at below
  obtain ⟨m, rfl, found'⟩ := below.exists_node
  have hasChild := Node.hasChild_iff.mpr ⟨side, isK⟩
  have sameOp : (n.op.isNone || n.op != m.op) = false := by simp [upper, lower]
  have unchanged (nil : s.id? = none) : Tried c b root
      (.node root n.toLabel (Tree.place side (.node k m.toLabel (Tree.pair l r)) s))
      (op.commutes = true ∧ n.toLabel.KeepsSecure c)
      (Tree.Steady c op s (.node k m.toLabel (Tree.pair l r))) false b :=
    ⟨fun _ there => absurd ((Tree.isNil_of_id?_none nil).symm.trans there) Bool.true_eq_false.mp,
      _, .refl h, .refl c _⟩
  rw [swap, Ends.bind_iff]
  refine ends_node found ?_
  simp only [hasChild, Bool.not_true, Bool.false_eq_true, if_false]
  rw [Ends.bind_iff]
  refine ends_node found' ?_
  simp only [sameOp, Bool.false_eq_true, if_false]
  have exchange {sibling : Nat} (isSibling : s.id? = some sibling) :=
    ends_exchangeSecure (c := c) h (below.child found' .left).spans.id?_eq
      (below.child found' .right).spans.id?_eq isSibling upper lower
  cases side with
  | left =>
    have left : n.left = some k := isK
    have right : s.id? = n.right := isS
    rw [left]
    cases isRight : n.right with
    | none => exact unchanged (right.trans isRight)
    | some j =>
      change Ends (exchangeSecure c root k (if k = k then j else k) m) b _ _
      rw [if_pos rfl]
      exact exchange (right.trans isRight)
  | right =>
    have left : s.id? = n.left := isS
    have right : n.right = some k := isK
    rw [right]
    cases isLeft : n.left with
    | none => exact unchanged (left.trans isLeft)
    | some i =>
      have ne : i ≠ k := by
        rintro rfl
        have same : Side.left = .right := h.side_eq (left.trans isLeft) rfl
        cases same
      change Ends (exchangeSecure c root k (if i = k then k else i) m) b _ _
      rw [if_neg ne]
      exact exchange (left.trans isLeft)

theorem ends_children {f : NodeId → Work Bool} {child : Side → Tree} {n : Node}
    (calm : Side → Prop) (h : b.forest.store.Owned (some id) (.node id label child))
    (kept : label.KeepsSecure c) (children : ∀ side, n.child side = (child side).id?)
    (nil : ∀ side, (child side).isNil = true → calm side)
    (step : ∀ side a memo x y b₁, (child side).id? = some a → (child side).Learns c x →
      (child side.flip).Learns c y → ({ label with memo } : Label).KeepsSecure c →
      b₁.forest.store.Owned (some id) (.node id { label with memo } (Tree.place side x y)) →
      Ends (f a) b₁
        (Attempted c b₁ id (.node id { label with memo } (Tree.place side x y)) (calm side))
        fun e b' => ¬ calm side ∧
          Untyped c b₁ id (.node id { label with memo } (Tree.place side x y)) e b') :
    Ends (n.children.anyM f) b
      (Attempted c b id (.node id label child) (∀ side, calm side))
      fun e b' => ¬ (∀ side, calm side) ∧ Untyped c b id (.node id label child) e b' := by
  have calm_iff (side : Side) {a : NodeId} (isA : (child side).id? = some a) :
      (∀ side', (child side').id? = some a → calm side') ↔ calm side := by
    refine ⟨fun all => all side isA, fun here side' isA' => ?_⟩
    rwa [h.side_eq isA' isA]
  have all_iff : (∀ a ∈ n.children, ∀ side, (child side).id? = some a → calm side) ↔
      ∀ side, calm side := by
    refine ⟨fun all side => ?_, fun all _ _ side _ => all side⟩
    cases place : (child side).id? with
    | none => exact nil side (Tree.isNil_of_id?_none place)
    | some a => exact all a (n.mem_children_of_child ((children side).trans place)) side place
  rw [← all_iff]
  refine Ends.anyM _ (Kept c b id (.node id label child)) _ ⟨_, .refl h, .refl c _⟩ ?_
  rintro a mem b₁ ⟨u, reworked, learns⟩
  obtain ⟨side, isA⟩ := n.mem_children mem
  rw [children side] at isA
  obtain ⟨memo, child', rfl, learned, secure⟩ := learns.exists_node
  rw [← Tree.place_eta side child'] at reworked learns
  rw [calm_iff side isA]
  refine (step side a memo _ _ b₁ isA (learned side) (learned side.flip) (secure kept)
    reworked.owned).imp ?_ ?_
  · exact fun changed b' attempted => Attempted.after reworked learns attempted
  · exact fun e b' failed => ⟨failed.1, failed.2.after reworked learns⟩

theorem ends_isConsecutive {child : Side → Tree}
    (h : b.forest.store.Owned (some id) (.node id label child)) :
    Ends (isConsecutive id) b
      (fun consecutive b' => b' = b ∧
        if consecutive then ∃ op, label.op = some op ∧ op.commutes = true
        else Tree.SteadyBelow c label child)
      fun _ _ => False := by
  obtain ⟨n, rfl, found⟩ := h.exists_node
  rw [isConsecutive, Ends.bind_iff]
  refine ends_node found ?_
  cases isOp : n.op with
  | none => exact ⟨rfl, by simp [Tree.SteadyBelow, isOp]⟩
  | some op =>
    change Ends (if _ then _ else _) b _ _
    rw [Ends.ite_iff]
    refine ⟨fun commutes => ?_, fun not => ⟨rfl, ?_⟩⟩
    · refine Ends.imp (Ends.anyM (fun a => ∀ m, b.forest.store.get? a = some m → m.op ≠ some op)
        (· = b) (· = b) rfl ?_) ?_ fun _ _ (h : _ ∧ False) => h.2
      · rintro a mem _ rfl
        obtain ⟨side, isA⟩ := n.mem_children mem
        have owned := h.child found side
        rw [isA] at owned
        obtain ⟨m, _, _, -, split⟩ := owned.split
        rw [Ends.bind_iff]
        refine ends_node split.found ?_
        change if m.isOp op then _ else _
        by_cases same : m.isOp op = true
        · rw [if_pos same]
          exact ⟨fun differ => differ m split.found (Label.op_eq_of_isOp same), rfl⟩
        · rw [if_neg same]
          refine ⟨fun m' found' eq => same ?_, rfl⟩
          cases Option.some.inj (split.found.symm.trans found')
          simp [Label.isOp, eq]
      · rintro consecutive b' result
        cases consecutive with
        | true => exact ⟨result.2, op, rfl, commutes⟩
        | false =>
          refine ⟨result.2, fun op' same _ side => ?_⟩
          cases isOp.symm.trans same
          have owned := h.child found side
          cases place : n.child side with
          | none =>
            rw [place] at owned
            rw [Tree.eq_nil_of_isNil (Tree.isNil_of_id?_none owned.spans.id?_eq)]
            trivial
          | some a =>
            rw [place] at owned
            obtain ⟨m, l, r, eq, split⟩ := owned.split
            rw [eq]
            intro isOp
            exact absurd isOp (result.1 a (n.mem_children_of_child place) m split.found)
    · rintro op' same commutes
      cases isOp.symm.trans same
      exact absurd commutes not

theorem ends_swapChildren {child : Side → Tree} {n : Node} {op : Operator}
    (h : b.forest.store.Owned (some id) (.node id label child)) (kept : label.KeepsSecure c)
    (children : ∀ side, n.child side = (child side).id?) (upper : label.op = some op)
    (sameOp : n.op = some op) (commutes : op.commutes = true) :
    Ends (n.children.anyM (swapChild c id n.op)) b
      (Attempted c b id (.node id label child)
        (∀ side, Tree.Steady c op (child side.flip) (child side)))
      fun e b' => ¬ (∀ side, Tree.Steady c op (child side.flip) (child side)) ∧
        Untyped c b id (.node id label child) e b' := by
  refine ends_children (fun side => Tree.Steady c op (child side.flip) (child side)) h kept children
    (fun side nil => ?_) ?_
  · rw [Tree.eq_nil_of_isNil nil]
    trivial
  · intro side a memo x y b₁ isA learnsX learnsY kept' owned
    have ownedX := owned.sub (Tree.sub_place id { label with memo } side x y)
    rw [learnsX.id?_eq, isA] at ownedX
    rw [← Tree.Learns.steady_iff op learnsX learnsY]
    obtain ⟨m, l, r, rfl, split⟩ := ownedX.split
    rw [swapChild, Ends.bind_iff]
    refine ends_node split.found ?_
    rw [Ends.ite_iff, sameOp]
    refine ⟨fun lower => (ends_swap owned upper lower).imp
      (fun _ _ tried => tried.attempted ⟨commutes, kept'⟩) fun _ _ failed => failed, fun differ => ?_⟩
    exact ⟨fun lower => absurd lower differ, _, .refl owned, .refl c _⟩

section Reorder

variable {child : Side → Tree} {n : Node} {depth : Nat}
  (ih : ∀ {b : Bench} {id : Nat} {t : Tree}, b.forest.store.Owned (some id) t →
    t.height ≤ depth → Ends (reorderOnceTo c depth id) b (Attempted c b id t (t.InOrder c))
      fun e b' => ¬ t.InOrder c ∧ Untyped c b id t e b')
  (kept : label.KeepsSecure c) (children : ∀ side, n.child side = (child side).id?)
  (low : ∀ side, (child side).height ≤ depth)
include ih kept children low

theorem ends_reorderChildren (h : Kept c b id (.node id label child) b₁) :
    Ends (n.children.anyM (reorderOnceTo c depth)) b₁
      (Attempted c b id (.node id label child) (∀ side, (child side).InOrder c))
      fun e b' => ¬ (∀ side, (child side).InOrder c) ∧
        Untyped c b id (.node id label child) e b' := by
  obtain ⟨u, reworked, learns⟩ := h
  obtain ⟨memo, child', rfl, learned, secure⟩ := learns.exists_node
  have inOrder (side : Side) := (learned side).inOrder_iff
  simp only [← inOrder]
  refine (ends_children (fun side => (child' side).InOrder c) reworked.owned (secure kept)
    (fun side => (children side).trans (learned side).id?_eq.symm) (fun side nil => ?_) ?_).imp ?_ ?_
  · rw [Tree.eq_nil_of_isNil nil]
    trivial
  · intro side a memo' x y b₂ isA learnsX learnsY kept' owned
    have isX := learnsX.id?_eq.trans isA
    have ownedX := owned.sub (Tree.sub_place id _ side x y)
    rw [isX] at ownedX
    rw [← learnsX.inOrder_iff]
    refine (ih ownedX (((learned side).trans learnsX).height_eq ▸ low side)).imp ?_ ?_
    · exact fun changed b' attempted => attempted.below side owned isX kept'
    · exact fun e b' failed => ⟨failed.1, failed.2.below side owned isX⟩
  · exact fun changed b' attempted => attempted.after reworked learns
  · exact fun e b' failed => ⟨failed.1, failed.2.after reworked learns⟩

/-- In an operation that keeps a secure type, the swaps with its children come before those
below. -/
theorem ends_reorderSecure (h : b.forest.store.Owned (some id) (.node id label child))
    (sameOp : n.op = label.op) :
    Ends (do
        if ← isConsecutive id then
          if ← n.children.anyM (swapChild c id n.op) then return true
        n.children.anyM (reorderOnceTo c depth)) b
      (Attempted c b id (.node id label child)
        (Tree.SteadyBelow c label child ∧ ∀ side, (child side).InOrder c))
      fun e b' => ¬ (Tree.SteadyBelow c label child ∧ ∀ side, (child side).InOrder c) ∧
        Untyped c b id (.node id label child) e b' := by
  rw [Ends.bind_iff]
  refine (ends_isConsecutive (c := c) h).imp ?_ fun _ _ h => h.elim
  rintro consecutive _ ⟨rfl, swappable⟩
  cases consecutive with
  | false =>
    have steady : Tree.SteadyBelow c label child := swappable
    rw [and_iff_right steady]
    exact ends_reorderChildren ih kept children low ⟨_, .refl h, .refl c _⟩
  | true =>
    obtain ⟨op, isOp, commutes⟩ := swappable
    have steadyBelow_iff : Tree.SteadyBelow c label child ↔
        ∀ side, Tree.Steady c op (child side.flip) (child side) := by
      refine ⟨fun all => all op isOp commutes, fun all op' isOp' _ => ?_⟩
      cases isOp.symm.trans isOp'
      exact all
    rw [steadyBelow_iff]
    change Ends (n.children.anyM (swapChild c id n.op) >>= _) _ _ _
    rw [Ends.bind_iff]
    refine (ends_swapChildren h kept children isOp (sameOp.trans isOp) commutes).imp ?_ ?_
    · rintro hit b₂ attempted
      cases hit with
      | true => exact ⟨fun all => attempted.1 all.1, attempted.2⟩
      | false =>
        rw [and_iff_right attempted.1]
        exact ends_reorderChildren ih kept children low attempted.2
    · exact fun e b₂ failed => ⟨fun all => failed.1 all.1, failed.2⟩

end Reorder

theorem ends_reorderOnceTo {depth : Nat} (h : b.forest.store.Owned (some id) t)
    (deep : t.height ≤ depth) :
    Ends (reorderOnceTo c depth id) b (Attempted c b id t (t.InOrder c))
      fun e b' => ¬ t.InOrder c ∧ Untyped c b id t e b' := by
  induction depth generalizing b id t with
  | zero =>
    obtain ⟨n, l, r, rfl, -⟩ := h.split
    simp [Tree.height] at deep
  | succ depth ih =>
    obtain ⟨n, l, r, rfl, split⟩ := h.split
    simp only [Tree.height, Tree.pair_left, Tree.pair_right] at deep
    rw [reorderOnceTo, Ends.bind_iff]
    refine ends_node split.found ?_
    have leaf : n.isLeaf = Tree.childless (Tree.pair l r) := by
      rw [Node.isLeaf, ← split.left.spans.isNil_eq, ← split.right.spans.isNil_eq]
      rfl
    have low (side : Side) : (Tree.pair l r side).height ≤ depth := by
      cases side with
      | left => exact Nat.le_trans (Nat.le_max_left _ _) (Nat.le_of_succ_le_succ deep)
      | right => exact Nat.le_trans (Nat.le_max_right _ _) (Nat.le_of_succ_le_succ deep)
    rw [Ends.ite_iff]
    refine ⟨fun isLeaf => ⟨.inl (leaf.symm.trans isLeaf), _, .refl h, .refl c _⟩, fun inner => ?_⟩
    rw [leaf] at inner
    rw [Ends.bind_iff]
    refine (ends_isSecure h).imp ?_ ?_
    · rintro secure b₁ ⟨type, reworked⟩
      have learns := Tree.Learns.typed c (.node id n.toLabel (Tree.pair l r))
      cases secure with
      | false => exact ⟨.inr (.inl type), _, reworked, learns⟩
      | true =>
        obtain ⟨label, child, eq, op, kept⟩ := Tree.Learns.exists_typed type
        rw [eq] at reworked learns
        obtain ⟨memo, _, eq', learned, -⟩ := learns.exists_node
        cases eq'
        have children (side : Side) : n.child side = (child side).id? := by
          rw [(learned side).id?_eq]
          exact (h.child split.found side).spans.id?_eq.symm
        have inOrder_iff : (Tree.node id { n.toLabel with memo } child).InOrder c ↔
            Tree.SteadyBelow c n.toLabel child ∧ ∀ side, (child side).InOrder c := by
          have type' := learns.secure?_eq.trans type
          have inner' := (Tree.Learns.childless_eq learned).trans (Bool.eq_false_iff.mpr inner)
          simp [Tree.InOrder, Tree.SteadyBelow, type', inner']
        rw [← learns.inOrder_iff, inOrder_iff]
        refine (ends_reorderSecure ih kept children (fun side => (learned side).height_eq ▸ low side)
          reworked.owned rfl).imp ?_ ?_
        · exact fun changed b' attempted => attempted.after reworked learns
        · exact fun e b' failed => ⟨failed.1, failed.2.after reworked learns⟩
    · rintro e b₁ ⟨untypeable, untyped⟩
      refine ⟨?_, untyped⟩
      rintro (isLeaf | cheap | ⟨secure, -⟩)
      · exact inner isLeaf
      · cases untypeable.symm.trans cheap
      · cases untypeable.symm.trans secure

theorem ends_reorderOnce (h : b.forest.store.Owned (some id) t) :
    Ends (reorderOnce c id) b (Attempted c b id t (t.InOrder c))
      fun e b' => ¬ t.InOrder c ∧ Untyped c b id t e b' := by
  rw [reorderOnce, Ends.bind_iff, Ends.get_iff]
  exact ends_reorderOnceTo h h.height_le

/-- A number of swaps is made, and the next attempt makes none. -/
structure Swaps (c : Classifier) (root : NodeId) (b : Bench) (t : Tree) (n : Nat) (b' : Bench)
    (u : Tree) : Prop where
  repeats : Repeats (reorderOnce c root) n b b'
  reworked : b.Reworked (some root) t b' u
  swapped : Relation.ReflTransGen (Tree.Swapped c) t u
  saved : u.costly c + n ≤ t.costly c
  last : Ends (reorderOnce c root) b'
    (fun again b'' => again = false ∧ u.InOrder c ∧ Kept c b' root u b'') (Untyped c b' root u)

/-- Every swap leaves one costly operation less, so there is a last one. -/
theorem exists_swaps (c : Classifier) (h : b.forest.store.Owned (some root) t) :
    ∃ n b' u, Swaps c root b t n b' u := by
  let left (n : Nat) (b' : Bench) : Prop := ∃ u, b.Reworked (some root) t b' u ∧
    Relation.ReflTransGen (Tree.Swapped c) t u ∧ u.costly c = n
  have step (n : Nat) (b' : Bench) (h' : left n b') :
      Ends (reorderOnce c root) b' (fun again b'' => again = true → ∃ m < n, left m b'')
        fun _ _ => True := by
    obtain ⟨u, reworked, steps, rfl⟩ := h'
    refine (ends_reorderOnce reworked.owned).imp ?_ fun _ _ _ => trivial
    rintro _ b'' attempted rfl
    obtain ⟨-, v, reworked', swapped⟩ := attempted
    have fewer := swapped.costly_eq
    exact ⟨_, by omega, v, reworked.trans reworked', steps.tail swapped, rfl⟩
  obtain ⟨n, m, b', bound, repeats, ⟨u, reworked, steps, rfl⟩, done⟩ :=
    Repeats.exists_last step ⟨t, .refl h, .refl, rfl⟩
  refine ⟨n, b', u, repeats, reworked, steps, by omega, ?_⟩
  refine ((ends_reorderOnce reworked.owned).and done).imp ?_ fun _ _ h => h.1.2
  rintro again b'' ⟨attempted, rfl⟩
  exact ⟨rfl, attempted⟩

theorem ends_reorderUpTo {n limit k : Nat} {ok : Bench → Prop} {failed : Failure → Bench → Prop}
    (repeats : Repeats (reorderOnce c root) n b b₁) (enough : n < k)
    (last : Ends (reorderOnce c root) b₁ (fun again b' => again = false ∧ ok b') failed) :
    Ends (reorderUpTo c root limit k) b (fun swaps b' => swaps = limit - (k - n) ∧ ok b')
      failed := by
  induction repeats generalizing k with
  | zero b =>
    obtain ⟨k, rfl⟩ : ∃ j, k = j + 1 := ⟨k - 1, by omega⟩
    rw [reorderUpTo, Ends.bind_iff]
    refine last.imp ?_ fun _ _ h => h
    rintro _ b' ⟨rfl, h⟩
    exact ⟨rfl, h⟩
  | @succ n b b₁ b₂ first rest ih =>
    obtain ⟨k, rfl⟩ : ∃ j, k = j + 1 := ⟨k - 1, by omega⟩
    have next := ih (by omega : n < k) last
    rw [reorderUpTo, Ends.bind_iff, Ends, first]
    refine next.imp ?_ fun _ _ h => h
    rintro swaps b' ⟨rfl, h⟩
    exact ⟨by omega, h⟩

theorem operations_lt_limit (t : Tree) : t.operations < max (t.size * t.size) 16 := by
  have small := t.operations_le_size
  by_cases few : t.size < 16
  · omega
  · have : 16 * t.size ≤ t.size * t.size := Nat.mul_le_mul_right _ (by omega)
    omega

theorem ends_reorderAll_of_repeats {n : Nat} {ok : Bench → Prop} {failed : Failure → Bench → Prop}
    (h : b.forest.store.Owned (some root) t) (repeats : Repeats (reorderOnce c root) n b b₁)
    (few : n ≤ t.operations)
    (last : Ends (reorderOnce c root) b₁ (fun again b' => again = false ∧ ok b') failed) :
    Ends (reorderAll c root) b (fun changed b' => changed = decide (0 < n) ∧ ok b') failed := by
  have enough := Nat.lt_of_le_of_lt few (operations_lt_limit t)
  rw [reorderAll, Ends.bind_iff, completeTree, Ends.bind_iff, ends_tree, h.tree_eq,
    if_pos h.spans.complete, Ends.pure_iff, Ends.bind_iff]
  refine (ends_reorderUpTo repeats enough last).imp ?_ fun _ _ h => h
  rintro made b' ⟨rfl, h⟩
  have counted : max (t.size * t.size) 16 - (max (t.size * t.size) 16 - n) = n := by omega
  rw [counted]
  exact ⟨rfl, h⟩

theorem Swaps.le_operations {n : Nat} (h : Swaps c root b t n b₁ u) : n ≤ t.operations := by
  have saved := h.saved
  have bound := t.costly_le_operations c
  omega

/-- Operands were exchanged a number of times, and kept types may have changed. -/
def Reorders (b : Bench) (root : NodeId) (t : Tree) (b' : Bench) : Prop :=
  ∃ u v, b.Reworked (some root) t b' v ∧ Relation.ReflTransGen Tree.Reordered t u ∧
    v.untyped = u.untyped

theorem ends_reorderAll (h : b.forest.store.Owned (some root) t) :
    Ends (reorderAll c root) b (fun _ b' => Reorders b root t b')
      fun e b' => e.kind = .type ∧ Reorders b root t b' := by
  obtain ⟨n, b₁, u, swaps⟩ := exists_swaps c h
  have steps : Relation.ReflTransGen Tree.Reordered t u :=
    Relation.ReflTransGen.mono (fun _ _ => Tree.Swapped.reordered) _ _ swaps.swapped
  refine (ends_reorderAll_of_repeats h swaps.repeats swaps.le_operations swaps.last).imp ?_ ?_
  · rintro changed b' ⟨-, -, v, reworked, learns⟩
    exact ⟨u, v, swaps.reworked.trans reworked, steps, learns.untyped_eq⟩
  · rintro e b' ⟨kind, -, v, reworked, same⟩
    exact ⟨kind, u, v, swaps.reworked.trans reworked, steps, same⟩

end Work

end SecureArith
