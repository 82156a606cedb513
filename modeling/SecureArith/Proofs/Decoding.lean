import SecureArith.Proofs.Numbering
import SecureArith.Proofs.Serving

set_option autoImplicit false

/-!
# Decoding the encodings of a run

A run puts the encodings of its functions aside while it goes on with other functions. What a
function is made of stays as it is, so the trees of its encoding have the shape and the operators of
those that can be built from it in the end. Leaves that are the first of their value are restored as
well. The others are numbered after the values that there were, and are taken for whatever values
have come to have those numbers.
-/

namespace SecureArith

namespace Store

theorem Spans.decodedAs_congr {s : Store} {p : Option NodeId} {t u : Tree} {c : Classifier}
    {leaf leaf' : NodeId → Label → Atom} (h : s.Spans p t)
    (same : ∀ id ∈ t.preorder, ∀ n, s.get? id = some n → leaf id n.toLabel = leaf' id n.toLabel)
    (decoded : t.DecodedAs c leaf u) : t.DecodedAs c leaf' u := by
  induction h generalizing u with
  | nil => cases u <;> exact decoded
  | @node id n child found children ih =>
    cases u with
    | nil | missing => exact decoded.elim
    | node id' label' child' =>
      obtain ⟨op, isSome, memo, atom, below⟩ := decoded
      refine ⟨op, isSome, memo, fun isLeaf => ?_, fun side => ih side (fun j mem => ?_) (below side)⟩
      · rw [atom isLeaf, same id List.mem_cons_self n found]
      · exact same j (List.mem_of_mem_tail (mem_preorder_child mem))

end Store

namespace Forest

variable {f : Forest} {p q : Program} {id : NodeId} {n : Node}

/-- What a leaf is decoded to, where the forest was encoded when a program had `n` values. It is
itself where no node before it was made from its value. -/
def decodedLeaf (f : Forest) (n : Nat) (values : Array Value) (id : NodeId) (label : Label) : Atom :=
  if Encoding.repeated f.store f.nodes id then
    label.decoded values (n + Encoding.repetitions f.store f.nodes id)
  else label.atom?.getD .other

theorem Planted.exists_valueAt (h : f.Planted (Tree.MadeFrom p)) (wf : p.WellFormed)
    (mem : id ∈ f.nodes) : ∃ a < p.values.size, Encoding.valueAt f.store id = some a := by
  obtain ⟨entry, -, t, owned, -, inside⟩ := h.mem_nodes.mp mem
  obtain ⟨u, part⟩ := owned.exists_at inside
  obtain ⟨n, found⟩ := part.spans.exists_get?
  obtain ⟨v, isValue, origin⟩ := h.exists_origin wf.ids mem found
  exact ⟨v.id, (Array.getElem?_eq_some_iff.mp isValue).1, Encoding.valueAt_eq found origin⟩

/-- The forest can be built from the program that it is encoded with, and from the one that it is
decoded with. -/
theorem Planted.leafAt_eq (h : f.Planted (Tree.MadeFrom p)) (wf : p.WellFormed)
    (h' : f.Planted (Tree.MadeFrom q)) (wf' : q.WellFormed) (mem : id ∈ f.nodes)
    (found : f.store.get? id = some n) :
    EncodedAs.leafAt q.values (Encoding.identities f.store p.values.size f.nodes) id n.toLabel =
      f.decodedLeaf p.values.size q.values id n.toLabel := by
  rw [EncodedAs.leafAt, Encoding.identity_eq h.nodup (fun _ mem => h.exists_valueAt wf mem) mem,
    Int.toNat_natCast, Encoding.number, decodedLeaf]
  cases Encoding.repeated f.store f.nodes id with
  | true => rfl
  | false =>
    obtain ⟨v, isValue, origin⟩ := h'.exists_origin wf'.ids mem found
    rw [if_neg Bool.false_ne_true, if_neg Bool.false_ne_true, Encoding.valueAt_eq found origin,
      Label.decoded, Label.atom?, origin, Option.getD_some, isValue]
    rfl

end Forest

namespace Work

variable {s : Settings} {c : Classifier} {p q : Program} {f : Function} {e : Encoding}
  {S : Nat → Prop}

theorem ends_encodeFunction_built (wf : p.WellFormed)
    (inside : ∀ i ∈ f.body, i.value < p.values.size) (forest : Forest) (journal : Journal) :
    Ends (encodeFunction c f) ⟨p, forest, journal⟩
      (fun e _ => ∃ b, buildSeries f.body ⟨p, {}, journal⟩ = .ok () b ∧
        b.forest.Planted (Tree.MadeFrom p) ∧ b.forest.EncodedAs c f.params
          (Encoding.identities b.forest.store p.values.size b.forest.nodes) e)
      fun _ _ => True := by
  have series : Ends (buildSeries f.body) ⟨p, {}, journal⟩ _ _ :=
    ends_buildSeries rfl (Forest.planted_empty _)
  obtain ⟨_, b, built, program, planted⟩ :=
    (series.imp (fun _ _ h => h) fun _ _ fails => fails ⟨wf, inside⟩).exists_ok
  rw [encodeFunction, ends_aside, Ends, bind_eq_of_ok built]
  change Ends (encodeForest c f.params) b _ _
  rw [encodeForest, Ends.bind_iff, Ends.get_iff, ends_onStore, program]
  exact (planted.ends_encode wf.ids).imp (fun _ _ encoded => ⟨b, built, planted, encoded⟩)
    fun _ _ _ => trivial

/-- The function was encoded when what it is made of was as it is now. -/
def Archived (c : Classifier) (S : Nat → Prop) (q : Program) (f : Function) (e : Encoding) : Prop :=
  ∃ (p : Program) (forest : Forest) (journal : Journal) (b : Bench), p.WellFormed ∧
    p.Retains S q ∧ (∀ i ∈ f.body, S i.value) ∧
    encodeFunction c f ⟨p, forest, journal⟩ = .ok e b

/-- Decoding restores the trees of the function, but for leaves that repeat a value. -/
theorem Archived.exists_decoded (h : Archived c S q f e) (wf : q.WellFormed) (journal : Journal) :
    ∃ n ≤ q.values.size, ∃ b, buildSeries f.body ⟨q, {}, journal⟩ = .ok () b ∧
      e.map (·.id) = b.forest.nodes.map (fun id =>
        (Encoding.number b.forest.store n b.forest.nodes id : Int)) ∧
      ((∀ r ∈ e, r.Fits) → ∃ store roots, e.toTrees q.values = .ok (store, roots) ∧
        List.Forall₂ (fun entry root => (b.forest.store.tree entry.2).DecodedAs c
          (b.forest.decodedLeaf n q.values) (store.tree root)) b.forest.roots roots) := by
  obtain ⟨p, forest, journal', b', wf', retains, inside, encoded⟩ := h
  obtain ⟨b, built, planted, encodedAs⟩ := (ends_encodeFunction_built wf'
    (fun i mem => retains.inside i.value (inside i mem)) forest journal').of_ok encoded
  have start : Beside p q ⟨p, {}, journal'⟩ ⟨q, {}, journal⟩ := ⟨rfl, rfl, rfl⟩
  have again := ((agrees_buildSeries retains wf' inside) _ _ start).of_ok built
  obtain ⟨_, b₁, built', -, -, -, same⟩ := again.exists_ok
  have series : Ends (buildSeries f.body) ⟨q, {}, journal⟩ _ _ :=
    ends_buildSeries rfl (Forest.planted_empty _)
  obtain ⟨-, planted'⟩ := series.of_ok built'
  have numbers : e.map (·.id) = b.forest.nodes.map fun id =>
      (Encoding.number b.forest.store p.values.size b.forest.nodes id : Int) := by
    rw [encodedAs.ids_eq]
    exact List.map_congr_left fun id mem =>
      Encoding.identity_eq planted.nodup (fun _ mem => planted.exists_valueAt wf' mem) mem
  refine ⟨p.values.size, retains.grows, b₁, built', ?_⟩
  rw [same] at planted' ⊢
  refine ⟨numbers, fun fit => ?_⟩
  obtain ⟨store, roots, decodes, decoded⟩ := encodedAs.exists_decoded planted fit q.values
  refine ⟨store, roots, decodes, forall₂_imp_of_mem decoded fun entry isRoot root decoded => ?_⟩
  obtain ⟨t, owned, made⟩ := planted.trees entry isRoot
  rw [owned.tree_eq] at decoded ⊢
  refine owned.spans.decodedAs_congr (fun id mem n found => ?_) decoded
  exact planted.leafAt_eq wf' planted' wf
    (planted.mem_nodes.mpr ⟨entry, isRoot, t, owned, made, mem⟩) found

theorem Archived.later {T : Nat → Prop} {r : Program} (h : Archived c S q f e)
    (retains : q.Retains T r) (sub : ∀ a, S a → T a) : Archived c S r f e := by
  obtain ⟨p, forest, journal, b, wf, earlier, inside, encoded⟩ := h
  exact ⟨p, forest, journal, b, wf, earlier.trans retains sub, inside, encoded⟩

theorem Archived.lt_size (h : Archived c S q f e) {a : Nat} (mem : S a) : a < q.values.size := by
  obtain ⟨_, _, _, _, _, retains, -⟩ := h
  exact Nat.lt_of_lt_of_le (retains.inside a mem) retains.grows

section Run

open Program (Advances)

variable {start b b' : Bench} {owner : Nat → Nat} {index : Nat} {o o' : Outcome}

theorem Underway.ends_advances (h : Underway s start owner index o b)
    (sound : start.program.Sound) (divided : start.program.Divided owner)
    (found : start.program.functions[index]? = some f) :
    Ends (optimizeFunction s f) b
      (fun _ b' => ∃ p', Advances owner index start.program b.program p' b'.program)
      fun _ b' => ∃ p', Advances owner index start.program b.program p' b'.program := by
  have alike := alike_optimizeFunction_start h sound divided found
  cases run : optimizeFunction s f start with
  | ok out c =>
    refine (alike.of_ok run).imp ?_ fun _ _ fails => fails.elim
    rintro out' b' ⟨-, -, -, -, advances, -⟩
    exact ⟨c.program, advances⟩
  | error e c =>
    refine (alike.of_error run).imp (fun _ _ fails => fails.elim) ?_
    rintro e' b' ⟨-, -, -, advances, -⟩
    exact ⟨c.program, advances⟩

theorem Underway.retains (h : Underway s start owner index o b) (sound : start.program.Sound)
    (divided : start.program.Divided owner) (found : start.program.functions[index]? = some f)
    (served : Served s index f o b o' b') :
    b.program.Retains (fun a => (a < start.program.values.size → owner a < index) ∧
      a < b.program.values.size) b'.program := by
  have noted : Underway s start owner index o
      { b with journal := b.journal.note (.optimizing f.name) } := h.congr rfl (level_note _ _) rfl
  have optimizes := noted.ends_advances sound divided found
  cases served with
  | rewritten _ run program =>
    obtain ⟨p', advances⟩ := optimizes.of_ok run
    rw [program]
    exact (h.halfway.retains advances).withFunctions _
  | failed _ run program =>
    obtain ⟨p', advances⟩ := optimizes.of_error run
    rw [program]
    exact h.halfway.retains advances
  | declined _ program =>
    rw [program]
    exact h.halfway.retains (h.halfway.advances sound.toWellFormed divided)

theorem mem_insert {name name' : String} {e' : Encoding} {es : List (String × Encoding)}
    (mem : (name, e) ∈ Outcome.insert name' e' es) :
    (name, e) = (name', e') ∨ (name, e) ∈ es := by
  induction es with
  | nil => exact .inl (List.mem_singleton.mp mem)
  | cons entry rest ih =>
    obtain ⟨other, _⟩ := entry
    rw [Outcome.insert] at mem
    split at mem
    · exact List.mem_cons.mp mem
    · split at mem
      · exact (List.mem_cons.mp mem).imp_right (List.mem_cons_of_mem _)
      · rcases List.mem_cons.mp mem with first | later
        · exact .inr (first ▸ List.mem_cons_self)
        · exact (ih later).imp_right (List.mem_cons_of_mem _)

/-- The encoding belongs to a function of the name that is done. -/
def FiledAs (s : Settings) (start : Bench) (owner : Nat → Nat) (index : Nat) (p : Program)
    (name : String) (e : Encoding) : Prop :=
  ∃ k f S, k < index ∧ p.functions[k]? = some f ∧ f.name = name ∧
    (∀ a, S a → a < start.program.values.size → owner a < index) ∧ Archived s.classifier S p f e

theorem FiledAs.next {name : String} (h : FiledAs s start owner index p name e)
    (retains : p.Retains (fun a => (a < start.program.values.size → owner a < index) ∧
      a < p.values.size) q)
    (others : ∀ k ≠ index, q.functions[k]? = p.functions[k]?) :
    FiledAs s start owner (index + 1) q name e := by
  obtain ⟨k, f, S, before, isFunction, isName, done, archived⟩ := h
  refine ⟨k, f, S, Nat.lt_succ_of_lt before, ?_, isName,
    fun a mem lt => Nat.lt_succ_of_lt (done a mem lt), ?_⟩
  · rw [others k (Nat.ne_of_lt before), isFunction]
  · exact archived.later retains fun a mem => ⟨done a mem, archived.lt_size mem⟩

structure Filed (s : Settings) (start : Bench) (owner : Nat → Nat) (index : Nat) (o : Outcome)
    (b : Bench) : Prop extends Underway s start owner index o b where
  sound : b.program.Sound
  filed : ∀ name e, (name, e) ∈ o.encodings → FiledAs s start owner index b.program name e

theorem Filed.ends_runAt (h : Filed s start owner index o b) (sound : start.program.Sound)
    (divided : start.program.Divided owner) (lt : index < start.program.functions.size) :
    Ends (runAt s o index) b (fun o' b' => Filed s start owner (index + 1) o' b')
      fun _ _ => False := by
  obtain ⟨f, isStart⟩ : ∃ f, start.program.functions[index]? = some f :=
    ⟨_, Array.getElem?_eq_getElem lt⟩
  have found := (h.waiting index (Nat.le_refl index)).trans isStart
  have underway := Work.ends_runAt h.toUnderway sound divided lt
  obtain ⟨o', b', run, served, sound'⟩ := exists_runAt_served (s := s) (o := o) h.sound found
  have next := underway.of_ok run
  have retains := h.toUnderway.retains sound divided isStart served
  obtain ⟨body, functions, files⟩ := served.exists_body h.sound found
  rw [Ends, run]
  refine ⟨next, sound', fun name e mem => ?_⟩
  have others (k : Nat) (ne : k ≠ index) :
      b'.program.functions[k]? = b.program.functions[k]? := by
    rw [functions, Array.getElem?_modify, if_neg ne.symm]
  have old (mem : (name, e) ∈ o.encodings) := (h.filed name e mem).next retains others
  rcases files with same | ⟨e', c, c', encoded, program, inserted⟩
  · exact old (same ▸ mem)
  · rw [inserted] at mem
    rcases mem_insert mem with new | mem
    · have isFunction : b'.program.functions[index]? = some { f with body } := by
        rw [functions, Array.getElem?_modify, if_pos rfl, found]
        rfl
      obtain ⟨body', here, placed, -⟩ := next.finished index f (Nat.lt_succ_self index) isStart
      cases isFunction.symm.trans here
      cases new
      obtain ⟨_, forest, journal⟩ := c
      cases program
      exact ⟨index, _, _, Nat.lt_succ_self index, isFunction, rfl, fun a done => done.1,
        b'.program, forest, journal, c', next.halfway.toWellFormed,
        next.halfway.retains (next.halfway.advances sound.toWellFormed divided), placed, encoded⟩
    · exact old mem

theorem Filed.ends_runAll {n : Nat} (h : Filed s start owner index o b)
    (sound : start.program.Sound) (divided : start.program.Divided owner)
    (le : index + n ≤ start.program.functions.size) :
    Ends ((List.range' index n).foldlM (runAt s) o) b
      (fun o' b' => Filed s start owner (index + n) o' b') fun _ _ => False := by
  induction n generalizing index o b with
  | zero => exact h
  | succ n ih =>
    rw [List.range'_succ, List.foldlM_cons, Ends.bind_iff]
    apply (h.ends_runAt sound divided (by omega)).imp
    · intro o' b' done
      have next := ih done (by omega)
      rwa [Nat.add_assoc, Nat.add_comm 1 n] at next
    · exact fun _ _ fails => fails

/-- The encodings of a run belong to functions of the program. -/
theorem ends_run_filed (s : Settings) (sound : start.program.Sound)
    (divided : start.program.Divided owner) :
    Ends (run s) start
      (fun o b => Filed s start owner start.program.functions.size o b) fun _ _ => False := by
  have begun : Filed s start owner 0 {}
      { start with journal := start.journal.note .starting } := by
    refine ⟨⟨sound.toWellFormed.halfway owner, level_note _ _, rfl, fun _ _ => rfl,
      fun k _ before => absurd before (Nat.not_lt_zero k), rfl⟩, sound, ?_⟩
    exact fun _ _ mem => absurd mem List.not_mem_nil
  apply ends_run_of_foldlM
  rw [List.range_eq_range']
  apply (begun.ends_runAll sound divided (Nat.le_of_eq (Nat.zero_add _))).imp
  · intro o b done
    rw [Nat.zero_add] at done
    exact ⟨done.toUnderway.congr rfl (level_note _ _) rfl, done.sound, done.filed⟩
  · exact fun _ _ fails => fails

end Run

end Work

/-- Every encoding that a run puts out belongs to a function of its name. Decoding it with the
values of the program yields one tree for each tree of the function's body, of the same shape and
with the same operators, if they have names. A leaf is the same if it is the first that was made
from its value. The others are taken for the values that have come to have their numbers. -/
theorem toTrees_run {p : Program} (described : p.Described) (s : Settings) (forest : Forest)
    (journal : Journal) :
    ∃ o b, Work.run s ⟨p, forest, journal⟩ = .ok o b ∧
      ∀ name e, (name, e) ∈ o.encodings → ∃ f ∈ b.program.functions, f.name = name ∧
        ∃ n ≤ b.program.values.size, ∃ c,
          Work.buildSeries f.body ⟨b.program, {}, journal⟩ = .ok () c ∧
          e.map (·.id) = c.forest.nodes.map (fun id =>
            (Encoding.number c.forest.store n c.forest.nodes id : Int)) ∧
          ((∀ r ∈ e, r.Fits) → ∃ store roots, e.toTrees b.program.values = .ok (store, roots) ∧
            List.Forall₂ (fun entry root => (c.forest.store.tree entry.2).DecodedAs s.classifier
              (c.forest.decodedLeaf n b.program.values) (store.tree root)) c.forest.roots roots) := by
  have sound := described.sound
  obtain ⟨owner, divided⟩ := described.divided
  obtain ⟨o, b, run, filed⟩ := (Work.ends_run_filed s sound divided).exists_ok
    (s := ⟨p, forest, journal⟩)
  refine ⟨o, b, run, fun name e mem => ?_⟩
  obtain ⟨k, f, S, -, isFunction, isName, -, archived⟩ := filed.filed name e mem
  exact ⟨f, Array.mem_of_getElem? isFunction, isName,
    archived.exists_decoded filed.sound.toWellFormed journal⟩

def Program.decodedTexts? (p : Program) (body : List Instruction) (e : Encoding) :
    Option (List String × List String) :=
  (result? (Work.buildSeries body) ⟨p, {}, {}⟩).bind fun (_, c) =>
    (e.toTrees p.values).toOption.map fun (store, roots) =>
      (c.forest.roots.map fun entry => (c.forest.store.tree entry.2).text,
        roots.map fun root => (store.tree root).text)

/-- A square that is encoded before a chain of another function is replaced. -/
def Description.overtaken : Description where
  vars := ["x", "y", "z", "m"].map fun name => ⟨name, some .int⟩
  operators := ["__mul__", "__pow__", "__matmul__"].map fun name => ⟨.int, name, [.int, .int], .int⟩
  helpers := [⟨MatrixChain.helperName, some .int⟩]
  functions := [
    ⟨"squared", none, [], { minimize := true, encode := true },
      [.ret (.call "__pow__" [.var "x", .int 2])]⟩,
    ⟨"chained", some "m", [], { reorderMatmuls := true },
      [.ret (.call "__matmul__" [.call "__matmul__" [.var "x", .var "y"], .var "z"])]⟩]

/-- The second `x` is numbered before `m` is read, and is taken for it. -/
theorem toTrees_run_overtaken :
    ∃ (p : Program) (o : Outcome) (b c : Bench) (e : Encoding) (f : Function) (n : Nat)
      (store : Store) (roots : List NodeId), p.Described ∧
      Work.run (.ofPreset .aggressive) ⟨p, {}, {}⟩ = .ok o b ∧ ("squared", e) ∈ o.encodings ∧
      f ∈ b.program.functions ∧ f.name = "squared" ∧
      Work.buildSeries f.body ⟨b.program, {}, {}⟩ = .ok () c ∧
      e.map (·.id) = [8, 0, 9] ∧ e.map (·.id) = c.forest.nodes.map (fun id =>
        (Encoding.number c.forest.store n c.forest.nodes id : Int)) ∧
      e.toTrees b.program.values = .ok (store, roots) ∧
      List.Forall₂ (fun entry root => (c.forest.store.tree entry.2).DecodedAs
        (Settings.ofPreset .aggressive).classifier (c.forest.decodedLeaf n b.program.values)
        (store.tree root)) c.forest.roots roots ∧
      b.program.decodedTexts? f.body e = some (["(__mul__ $0 $0)"], ["(__mul__ $0 $3)"]) := by
  have checked : (Description.overtaken.first?.any fun (p, _) =>
      (result? (Work.run (.ofPreset .aggressive)) ⟨p, {}, {}⟩).any fun (o, b) =>
        o.encodings.head?.any fun entry =>
          decide (entry.1 = "squared" ∧ entry.2.map (·.id) = [8, 0, 9] ∧ (∀ r ∈ entry.2, r.Fits) ∧
            ∀ f ∈ b.program.functions, f.name = entry.1 →
              b.program.decodedTexts? f.body entry.2 =
                some (["(__mul__ $0 $0)"], ["(__mul__ $0 $3)"]))) = true := by
    decide +kernel
  obtain ⟨⟨p, _⟩, isFirst, checked⟩ := Option.any_eq_true _ _ |>.mp checked
  obtain ⟨⟨o, b⟩, result, checked⟩ := Option.any_eq_true _ _ |>.mp checked
  obtain ⟨⟨name, e⟩, head, checked⟩ := Option.any_eq_true _ _ |>.mp checked
  obtain ⟨lowered, -⟩ := Description.lower_of_first? isFirst
  obtain ⟨rfl, ids, fit, texts⟩ := of_decide_eq_true checked
  have mem := List.mem_of_mem_head? head
  obtain ⟨o', b', run, each⟩ := toTrees_run ⟨_, lowered⟩ (.ofPreset .aggressive) {} {}
  cases (eq_ok_of_result? result).symm.trans run
  obtain ⟨f, isFunction, isName, n, -, c, built, numbers, decodes⟩ := each _ e mem
  obtain ⟨store, roots, decoded, trees⟩ := decodes fit
  exact ⟨p, o, b, c, e, f, n, store, roots, ⟨_, lowered⟩, run, mem, isFunction, isName, built, ids,
    numbers, decoded, trees, texts f isFunction isName⟩

def Description.squaredTwo : Description where
  operators := ["__mul__", "__pow__"].map fun name => ⟨.int, name, [.int, .int], .int⟩
  functions := [⟨"f", none, [], { minimize := true, encode := true },
    [.ret (.call "__pow__" [.int 2, .int 2])]⟩]

def Settings.expandingAndEncoding : Settings := ⟨false, false, true, false, true, []⟩

/-- The second factor repeats a value, and its number is that of no value. -/
theorem decodedTexts?_squaredTwo :
    ∃ (p : Program) (o : Outcome) (b : Bench) (e : Encoding) (f : Function), p.Described ∧
      Work.run .expandingAndEncoding ⟨p, {}, {}⟩ = .ok o b ∧ ("f", e) ∈ o.encodings ∧
      f ∈ b.program.functions ∧ f.name = "f" ∧ b.program.functions.size = 1 ∧
      b.program.decodedTexts? f.body e = some (["(__mul__ 2 2)"], ["(__mul__ 2 ?4)"]) := by
  have checked : (Description.squaredTwo.first?.any fun (p, _) =>
      (result? (Work.run .expandingAndEncoding) ⟨p, {}, {}⟩).any fun (o, b) =>
        o.encodings.head?.any fun entry => b.program.functions[0]?.any fun f =>
          decide (entry.1 = "f" ∧ f.name = "f" ∧ b.program.functions.size = 1 ∧
            b.program.decodedTexts? f.body entry.2 =
              some (["(__mul__ 2 2)"], ["(__mul__ 2 ?4)"]))) = true := by
    decide +kernel
  obtain ⟨⟨p, _⟩, isFirst, checked⟩ := Option.any_eq_true _ _ |>.mp checked
  obtain ⟨⟨o, b⟩, result, checked⟩ := Option.any_eq_true _ _ |>.mp checked
  obtain ⟨⟨name, e⟩, head, checked⟩ := Option.any_eq_true _ _ |>.mp checked
  obtain ⟨f, found, checked⟩ := Option.any_eq_true _ _ |>.mp checked
  obtain ⟨lowered, -⟩ := Description.lower_of_first? isFirst
  obtain ⟨rfl, isName, one, texts⟩ := of_decide_eq_true checked
  exact ⟨p, o, b, e, f, ⟨_, lowered⟩, eq_ok_of_result? result, List.mem_of_mem_head? head,
    Array.mem_of_getElem? found, isName, one, texts⟩

end SecureArith
