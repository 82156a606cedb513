import SecureArith.Proofs.Ends
import SecureArith.Proofs.Meaning.Tree

set_option autoImplicit false

/-!
# Appending, copying and overwriting

A copy is a new tree that differs from the old one in its indices only. Overwriting a node by the
root of a tree puts that tree in its place.
-/

namespace SecureArith

namespace Tree

/-- The tree with another index at its root. -/
def withId (id : NodeId) : Tree → Tree
  | .node _ label child => .node id label child
  | t => t

@[simp] theorem bare_withId (id : NodeId) (t : Tree) : (t.withId id).bare = t.bare := by
  cases t <;> rfl

@[simp] theorem anonymous_withId (id : NodeId) (t : Tree) :
    (t.withId id).anonymous = t.anonymous := by
  cases t <;> rfl

@[simp] theorem isNil_withId (id : NodeId) (t : Tree) : (t.withId id).isNil = t.isNil := by
  cases t <;> rfl

theorem mem_preorder_withId {id i : NodeId} {t : Tree} (h : i ∈ (t.withId id).preorder) :
    i = id ∨ i ∈ t.preorder := by
  cases t with
  | nil | missing => exact .inr h
  | node =>
    simp only [withId, preorder, List.mem_cons] at h ⊢
    exact h.imp_right .inr

end Tree

namespace Store

variable {s s' s'' : Store} {id target source : Nat} {p : Option NodeId} {n m : Node}
  {t u l r : Tree}

theorem Split.child_isNil_iff (h : s.Split id n l r) :
    l.isNil = n.left.isNone ∧ r.isNil = n.right.isNone :=
  ⟨h.left.spans.isNil_eq, h.right.spans.isNil_eq⟩

theorem Split.childless_eq (h : s.Split id n l r) :
    Tree.childless (Tree.pair l r) = n.isLeaf := by
  obtain ⟨left, right⟩ := h.child_isNil_iff
  simp [Tree.childless, Node.isLeaf, left, right]

theorem ends_read {ok : Node → Store → Prop} {failed : Failure → Store → Prop}
    (found : s.get? id = some n) (h : ok n s) : Ends (read id) s ok failed := by
  rw [read, Ends.bind_iff, Ends.get_iff, found]
  exact h

theorem ends_write {f : Node → Node} {ok : Unit → Store → Prop} {failed : Failure → Store → Prop}
    (lt : id < s.size) (h : ok () (s.update id f)) : Ends (write id f) s ok failed := by
  rw [write, Ends.bind_iff]
  exact ends_read (Array.getElem?_eq_getElem lt) h

theorem ends_append {ok : NodeId → Store → Prop} {failed : Failure → Store → Prop} :
    Ends (append n) s ok failed ↔ ok s.size (s.alloc n).2 := Iff.rfl

theorem get?_alloc_of_lt (lt : id < s.size) : (s.alloc n).2.get? id = s.get? id := by
  rw [get?_alloc, if_neg (Nat.ne_of_lt lt)]

theorem turns_alloc (s : Store) (n : Node) (t : Tree) : s.Turns t (s.alloc n).2 t :=
  ⟨by rw [size_alloc]; exact Nat.le_succ _, fun _ lt _ => get?_alloc_of_lt lt,
    fun _ mem => .inl mem⟩

theorem split_alloc (left : s.Owned n.left l) (right : s.Owned n.right r)
    (apart : ∀ i ∈ l.preorder, i ∉ r.preorder) : (s.alloc n).2.Split s.size n l r := by
  have children : ∀ side, s.Owned (n.child side) (Tree.pair l r side) := by
    rintro (_ | _)
    · exact left
    · exact right
  refine ⟨by rw [get?_alloc, if_pos rfl], fun side => ?_, fun side mem => ?_, ?_⟩
  · exact (turns_alloc s n .nil).keeps (children side) fun _ _ => List.not_mem_nil
  · exact Nat.lt_irrefl _ ((children side).spans.lt_size _ mem)
  · rintro (_ | _)
    · exact apart
    · exact fun i hr hl => apart i hl hr

theorem Turns.apart_of_new (h : s.Turns .nil s' u) (old : s.Spans p l) :
    ∀ i ∈ l.preorder, i ∉ u.preorder := by
  intro i memOld memNew
  rcases h.within i memNew with none | new
  · exact List.not_mem_nil none
  · exact absurd (old.lt_size i memOld) (Nat.not_lt.mpr new)

theorem Turns.keeps_old (h : s.Turns .nil s' u) (old : s.Owned p l) : s'.Owned p l :=
  h.keeps old fun _ _ => List.not_mem_nil

theorem Turns.spans_old (h : s.Turns .nil s' u) (old : s.Spans p l) : s'.Spans p l :=
  h.keeps_spans old fun _ _ => List.not_mem_nil

theorem Turns.nil_trans {s₀ : Store} (h : s₀.Turns .nil s t)
    (h' : s.Turns .nil s' u) : s₀.Turns .nil s' t ∧ s₀.Turns .nil s' u := by
  have frame (i : Nat) (lt : i < s₀.size) : s'.get? i = s₀.get? i := by
    rw [h'.frame i (Nat.lt_of_lt_of_le lt h.grows) List.not_mem_nil,
      h.frame i lt List.not_mem_nil]
  refine ⟨⟨Nat.le_trans h.grows h'.grows, fun i lt _ => frame i lt, h.within⟩,
    ⟨Nat.le_trans h.grows h'.grows, fun i lt _ => frame i lt, fun i mem => .inr ?_⟩⟩
  exact Nat.le_trans h.grows ((h'.within i mem).resolve_left List.not_mem_nil)

theorem ends_append_new {s₀ : Store} (left : s.Owned n.left l)
    (right : s.Owned n.right r) (turnsLeft : s₀.Turns .nil s l) (turnsRight : s₀.Turns .nil s r)
    (apart : ∀ i ∈ l.preorder, i ∉ r.preorder) {ok : NodeId → Store → Prop}
    {failed : Failure → Store → Prop}
    (h : ∀ i s', s'.Owned (some i) (.node i n.toLabel (Tree.pair l r)) →
      s₀.Turns .nil s' (.node i n.toLabel (Tree.pair l r)) → s'.size = s.size + 1 → ok i s') :
    Ends (append n) s ok failed := by
  refine h s.size (s.alloc n).2 (split_alloc left right apart).owned
    ⟨?_, fun i lt _ => ?_, fun i mem => .inr ?_⟩ (size_alloc s n)
  · rw [size_alloc]
    exact Nat.le_succ_of_le turnsLeft.grows
  · rw [get?_alloc_of_lt (Nat.lt_of_lt_of_le lt turnsLeft.grows)]
    exact turnsLeft.frame i lt List.not_mem_nil
  · simp only [Tree.preorder, Tree.pair_left, Tree.pair_right, List.mem_cons,
      List.mem_append] at mem
    rcases mem with rfl | mem | mem
    · exact turnsLeft.grows
    · exact (turnsLeft.within i mem).resolve_left List.not_mem_nil
    · exact (turnsRight.within i mem).resolve_left List.not_mem_nil

/-- A copy is new, has as many nodes as the tree, and differs from it in its indices only. -/
structure Copied (s : Store) (t : Tree) (s' : Store) (p : Option NodeId) (u : Tree) : Prop where
  owned : s'.Owned p u
  alike : u.anonymous = t.anonymous
  turns : s.Turns .nil s' u
  size : s'.size = s.size + t.size

theorem ends_copyTo {depth : Nat} (h : s.Spans (some id) t) (deep : t.height ≤ depth) :
    Ends (copyTo depth id) s (fun c s' => ∃ u, s.Copied t s' (some c) u) fun _ _ => False := by
  induction depth generalizing s id t with
  | zero =>
    cases h
    simp [Tree.height] at deep
  | succ depth ih =>
    have place {s : Store} {p : Option NodeId} {t : Tree} (h : s.Spans p t)
        (deep : t.height ≤ depth) :
        Ends (p.mapM (copyTo depth)) s (fun c s' => ∃ u, s.Copied t s' c u)
          fun _ _ => False := by
      cases h with
      | nil => exact ⟨.nil, owned_nil s, rfl, .refl s .nil, rfl⟩
      | node found children =>
        rw [Option.mapM_some, Ends.map_iff]
        exact ih (.node found children) deep
    cases h with
    | @node _ n child found children =>
      simp only [Tree.height] at deep
      rw [copyTo, Ends.bind_iff]
      refine ends_read found ?_
      rw [Ends.bind_iff]
      refine (place (children .left) (by omega)).imp ?_ fun _ _ h => h
      rintro left s₁ ⟨l, copyLeft⟩
      rw [Ends.bind_iff]
      have right₁ : s₁.Spans n.right (child .right) := copyLeft.turns.spans_old (children .right)
      refine (place right₁ (by omega)).imp ?_ fun _ _ h => h
      rintro right s₂ ⟨r, copyRight⟩
      obtain ⟨leftTurns, rightTurns⟩ := copyLeft.turns.nil_trans copyRight.turns
      refine ends_append_new (n := { n with left, right })
        (copyRight.turns.keeps_old copyLeft.owned) copyRight.owned leftTurns rightTurns
        (copyRight.turns.apart_of_new copyLeft.owned.spans)
        fun i s' owned turns size => ⟨_, owned, ?_, turns, ?_⟩
      · exact Tree.anonymous_node copyLeft.alike copyRight.alike id i n.toLabel
      · rw [size, copyRight.size, copyLeft.size, Tree.size]
        omega

theorem ends_copy (h : s.Owned (some id) t) :
    Ends (copy id) s (fun c s' => ∃ u, s.Copied t s' (some c) u) fun _ _ => False := by
  rw [copy, Ends.bind_iff, Ends.get_iff]
  exact ends_copyTo h.spans h.height_le

theorem ends_overwrite (found : s.get? source = some n) (there : s.get? target = some m)
    (ne : target ≠ source) :
    Ends (overwrite target source) s (fun _ s' => s' = s.update target fun _ => n)
      fun _ _ => False := by
  rw [overwrite, if_neg ne, Ends.bind_iff]
  refine ends_read found ?_
  exact ends_write (lt_size_of_get? there) rfl

/-- The tree at `source` also stands at `target`, once the root is written there. -/
theorem Spans.overwrite (h : s.Spans (some source) u) (found : s.get? source = some n)
    (there : target < s.size) (other : target ∉ u.preorder) :
    (s.update target fun _ => n).Spans (some target) (u.withId target) := by
  have keep (i : Nat) (ne : i ≠ target) : (s.update target fun _ => n).get? i = s.get? i := by
    rw [get?_update, if_neg ne.symm]
  cases h with
  | @node _ n' child found' children =>
    cases Option.some.inj (found.symm.trans found')
    have written : (s.update target fun _ => n).get? target = some n := by
      obtain ⟨m, there⟩ : ∃ m, s.get? target = some m :=
        ⟨s.nodes[target], Array.getElem?_eq_getElem there⟩
      simp [there]
    refine .node written fun side => (children side).congr fun i mem => keep i ?_
    rintro rfl
    refine other ?_
    simp only [Tree.preorder, List.mem_cons, List.mem_append]
    cases side with
    | left => exact .inr (.inl mem)
    | right => exact .inr (.inr mem)

theorem Owned.overwrite (h : s.Owned (some source) u) (found : s.get? source = some n)
    (there : target < s.size) (other : target ∉ u.preorder) :
    (s.update target fun _ => n).Owned (some target) (u.withId target) := by
  refine ⟨h.spans.overwrite found there other, ?_⟩
  obtain ⟨m, l, r, rfl, -⟩ := h.split
  have nodup := h.nodup
  simp only [Tree.withId, Tree.preorder, List.nodup_cons, List.mem_cons, not_or] at nodup other ⊢
  exact ⟨other.2, nodup.2⟩

theorem Turns.mono {t' : Tree} (h : s.Turns t s' u) (sub : ∀ i ∈ t.preorder, i ∈ t'.preorder) :
    s.Turns t' s' u :=
  ⟨h.grows, fun i lt other => h.frame i lt fun mem => other (sub i mem),
    fun i mem => (h.within i mem).imp_left (sub i)⟩

/-- A tree made from another one is put in the place of a node of that. -/
theorem Turns.overwrite (h : s.Turns t s' u) (mem : target ∈ t.preorder) (f : Node → Node) :
    s.Turns t (s'.update target f) (u.withId target) := by
  refine ⟨by simpa using h.grows, fun i lt other => ?_, fun i mem' => ?_⟩
  · have ne : target ≠ i := fun eq => other (eq ▸ mem)
    rw [get?_update, if_neg ne, h.frame i lt other]
  · rcases Tree.mem_preorder_withId mem' with rfl | old
    · exact .inl mem
    · exact h.within i old

end Store

end SecureArith
