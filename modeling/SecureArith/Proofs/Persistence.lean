import Mathlib.Tactic.IntervalCases
import SecureArith.Proofs.OutputFormat
import SecureArith.Settings

set_option autoImplicit false

/-!
# Saved settings

Settings are saved as an object with all fields and read from less: an object may leave fields out,
have them in any order and have others besides, and an array may end early. What is left out is as
in the default. Whatever text settings come from, they are read back from the text that they are
saved as.
-/

namespace SecureArith

namespace Json

variable {names : List String} {fields : List (String × Json)} {values : List (Option Json)}

def present (names : List String) (values : List (Option Json)) : List (String × Json) :=
  (names.zip values).filterMap fun field => field.2.map (field.1, ·)

theorem present_cons (name : String) (value : Option Json) :
    present (name :: names) (value :: values) =
      (value.map (name, ·)).toList ++ present names values := by
  rw [present, List.zip_cons_cons]
  cases value <;> rfl

theorem mem_names_of_mem_present {field : String × Json} (mem : field ∈ present names values) :
    field.1 ∈ names := by
  obtain ⟨⟨name, value⟩, pair, isField⟩ := List.mem_filterMap.mp mem
  obtain ⟨j, -, rfl⟩ := Option.map_eq_some_iff.mp isField
  exact (List.of_mem_zip pair).1

/-- A record that gives some of its fields: an object that has these once, in any order and with
other fields between them, or an array that ends before the fields that are left out. -/
inductive HasFields (names : List String) (values : List (Option Json)) : Json → Prop
  | object {fields : List (String × Json)}
      (known : (fields.filter (·.1 ∈ names)).Perm (present names values)) :
      HasFields names values (.obj fields)
  | array {items : List Json} (le : items.length ≤ names.length)
      (first : values = items.map some ++ List.replicate (names.length - items.length) none) :
      HasFields names values (.arr items)

namespace Fields

theorem lookup_eq_some_iff {name : String} {value : Option Json} :
    lookup fields name = some value ↔
      fields.filter (·.1 == name) = (value.map (name, ·)).toList := by
  have named (field : String × Json) (mem : field ∈ fields.filter (·.1 == name)) :
      field.1 = name := by simpa using (List.mem_filter.mp mem).2
  rw [lookup]
  split
  · rename_i none
    rw [none]
    cases value <;> simp
  · rename_i other j one
    have eq : other = name := named (other, j) (one ▸ List.mem_singleton_self _)
    rw [one, eq]
    cases value <;> simp
  · rename_i noField several
    constructor
    · intro found
      cases found
    · intro eq
      cases value with
      | none => exact absurd eq noField
      | some j => exact absurd eq (several name j)

theorem perm_filter_cons {name : String} {own others : List (String × Json)} (new : name ∉ names)
    (isOwn : ∀ field ∈ own, field.1 = name) (isOther : ∀ field ∈ others, field.1 ∈ names) :
    (fields.filter (·.1 ∈ name :: names)).Perm (own ++ others) ↔
      (fields.filter (·.1 == name)).Perm own ∧ (fields.filter (·.1 ∈ names)).Perm others := by
  have ofName : (fields.filter (·.1 ∈ name :: names)).filter (·.1 == name) =
      fields.filter (·.1 == name) := by
    rw [List.filter_filter]
    refine List.filter_congr fun field _ => ?_
    by_cases here : field.1 = name <;> simp [here]
  have notName : (fields.filter (·.1 ∈ name :: names)).filter (fun field => !field.1 == name) =
      fields.filter (·.1 ∈ names) := by
    rw [List.filter_filter]
    refine List.filter_congr fun field _ => ?_
    by_cases here : field.1 = name <;> simp [here, new]
  have apart (field : String × Json) (mem : field ∈ others) : field.1 ≠ name := fun eq =>
    new (eq ▸ isOther field mem)
  have own' : (own ++ others).filter (·.1 == name) = own := by
    rw [List.filter_append, List.filter_eq_self.mpr (by simpa using isOwn),
      List.filter_eq_nil_iff.mpr (by simpa using apart), List.append_nil]
  have others' : (own ++ others).filter (fun field => !field.1 == name) = others := by
    rw [List.filter_append, List.filter_eq_nil_iff.mpr (by simpa using isOwn),
      List.filter_eq_self.mpr (by simpa using apart), List.nil_append]
  constructor
  · intro perm
    have first := perm.filter (·.1 == name)
    have rest := perm.filter fun field => !field.1 == name
    rw [ofName, own'] at first
    rw [notName, others'] at rest
    exact ⟨first, rest⟩
  · rintro ⟨first, rest⟩
    have parts := List.filter_append_perm (·.1 == name) (fields.filter (·.1 ∈ name :: names))
    rw [ofName, notName] at parts
    exact parts.symm.trans (first.append rest)

/-- Looking up each name finds the fields of an object, if none of them is repeated. -/
theorem mapM_lookup_eq_some_iff (distinct : names.Nodup) :
    names.mapM (lookup fields) = some values ↔
      values.length = names.length ∧ (fields.filter (·.1 ∈ names)).Perm (present names values) := by
  induction names generalizing values with
  | nil => cases values <;> simp [present]
  | cons name names ih =>
    obtain ⟨new, distinct⟩ := List.nodup_cons.mp distinct
    cases values with
    | nil => simp [List.mapM_cons, Option.bind_eq_some_iff]
    | cons value values =>
      have one : (fields.filter (·.1 == name)).Perm (value.map (name, ·)).toList ↔
          lookup fields name = some value := by
        rw [lookup_eq_some_iff]
        cases value <;> simp
      rw [present_cons, perm_filter_cons new ?_ fun field => mem_names_of_mem_present, one]
      · have rest : names.mapM (lookup fields) = some values ↔ values.length = names.length ∧
            (fields.filter (·.1 ∈ names)).Perm (present names values) := ih distinct
        simp only [List.mapM_cons, Option.bind_eq_bind, Option.pure_def, Option.bind_eq_some_iff,
          Option.some.injEq, List.cons.injEq, List.length_cons, Nat.add_right_cancel_iff]
        constructor
        · rintro ⟨_, found, _, others, rfl, rfl⟩
          obtain ⟨length, perm⟩ := rest.mp others
          exact ⟨length, found, perm⟩
        · rintro ⟨length, found, perm⟩
          exact ⟨value, found, values, rest.mpr ⟨length, perm⟩, rfl, rfl⟩
      · intro field mem
        obtain ⟨j, -, rfl⟩ := Option.map_eq_some_iff.mp (Option.mem_toList.mp mem)
        rfl

theorem eq_of_value? {values' : List (Option Json)} (length : values.length = values'.length)
    (same : ∀ i < values.length, (values[i]?).join = (values'[i]?).join) : values = values' := by
  refine List.ext_getElem length fun i lt lt' => ?_
  have eq := same i lt
  rwa [List.getElem?_eq_getElem lt, List.getElem?_eq_getElem lt'] at eq

theorem room_of_read {room : Nat} {j : Json} {f : Fields}
    (found : read names (room + 1) j = some f) : f.room = room := by
  cases j with
  | null | bool | int | real | str | unreadable => cases found
  | obj fields =>
    obtain ⟨values, -, rfl⟩ := Option.map_eq_some_iff.mp found
    rfl
  | arr items =>
    rw [read] at found
    split at found <;> cases found
    rfl

theorem read_iff_hasFields {room : Nat} {j : Json} (distinct : names.Nodup)
    (length : values.length = names.length) :
    (∃ f, read names (room + 1) j = some f ∧
      ∀ i < names.length, f.value? i = (values[i]?).join) ↔ HasFields names values j := by
  cases j with
  | null | bool | int | real | str | unreadable =>
    constructor
    · rintro ⟨f, found, -⟩
      cases found
    · rintro ⟨⟩
  | obj fields =>
    rw [read]
    constructor
    · rintro ⟨f, found, same⟩
      obtain ⟨values', lookups, rfl⟩ := Option.map_eq_some_iff.mp found
      obtain ⟨length', perm⟩ := (mapM_lookup_eq_some_iff distinct).mp lookups
      obtain rfl : values' = values :=
        eq_of_value? (length'.trans length.symm) fun i lt => same i (length' ▸ lt)
      exact .object perm
    · rintro ⟨perm⟩
      rw [(mapM_lookup_eq_some_iff distinct).mpr ⟨length, perm⟩]
      exact ⟨_, rfl, fun _ _ => rfl⟩
  | arr items =>
    rw [read]
    have padded (i : Nat) :
        ((items.map some ++ List.replicate (names.length - items.length) none)[i]?).join =
          ((items.map some)[i]?).join := by
      rw [List.getElem?_append]
      split
      · rfl
      · rename_i beyond
        rw [List.getElem?_eq_none (Nat.not_lt.mp beyond), List.getElem?_replicate]
        split <;> rfl
    constructor
    · rintro ⟨f, found, same⟩
      split at found
      · rename_i le
        cases found
        refine .array le (eq_of_value? (by simp [length]; omega) fun i lt => ?_)
        rw [padded, ← same i (length ▸ lt), value?]
      · cases found
    · rintro ⟨⟩
      rename_i le first
      rw [if_pos le]
      refine ⟨_, rfl, fun i _ => ?_⟩
      rw [first, padded, value?]

theorem withDefault_eq_some_iff {α : Type} {toJson : α → Json} {d : Decoder α} {f : Fields}
    {default a : α} {i : Nat} (decodes : ∀ j a, d f.room j = some a ↔ j = toJson a) :
    f.withDefault i default d = some a ↔
      ∃ o : Option α, f.value? i = o.map toJson ∧ o.getD default = a := by
  rw [withDefault]
  split
  · rename_i none
    rw [none]
    constructor
    · rintro ⟨⟩
      exact ⟨.none, rfl, rfl⟩
    · rintro ⟨o, absent, rfl⟩
      rw [Option.map_eq_none_iff.mp absent.symm]
      rfl
  · rename_i j given
    rw [given, decodes]
    constructor
    · rintro rfl
      exact ⟨some a, rfl, rfl⟩
    · rintro ⟨o, eq, rfl⟩
      obtain ⟨a, rfl, rfl⟩ := Option.map_eq_some_iff.mp eq.symm
      rfl

end Fields

theorem Decoder.bool_eq_some_iff {room : Nat} {j : Json} {b : Bool} :
    Decoder.bool room j = some b ↔ j = .bool b := by
  cases j <;> simp [Decoder.bool]

theorem Decoder.strings_eq_some_iff {room : Nat} {j : Json} {l : List String} :
    Decoder.string.list (room + 1) j = some l ↔ j = .ofList .str l := by
  cases j with
  | null | bool | int | real | str | obj | unreadable => simp [Decoder.list, ofList]
  | arr items =>
    rw [Decoder.list, ofList, arr.injEq]
    induction items generalizing l with
    | nil => cases l <;> simp
    | cons item items ih =>
      cases l with
      | nil => simp [Option.bind_eq_some_iff]
      | cons s l =>
        have head : Decoder.string room item = some s ↔ item = .str s := by
          cases item <;> simp [Decoder.string]
        simp [Option.bind_eq_some_iff, ih, head]

end Json

namespace Settings

open Json (HasFields Fields Decoder Codes)

def names : List String :=
  ["factorize", "reorder_priorities", "expand_powers", "reorder_matmuls", "encode_trees",
    "extra_secure_prefixes"]

/-- Settings of which some are left out. -/
structure Given where
  factorize : Option Bool
  reorderPriorities : Option Bool
  expandPowers : Option Bool
  reorderMatmuls : Option Bool
  encodeTrees : Option Bool
  extraSecure : Option (List String)

namespace Given

/-- What is left out is as in the default. -/
def complete (g : Given) : Settings where
  factorize := g.factorize.getD default.factorize
  reorderPriorities := g.reorderPriorities.getD default.reorderPriorities
  expandPowers := g.expandPowers.getD default.expandPowers
  reorderMatmuls := g.reorderMatmuls.getD default.reorderMatmuls
  encodeTrees := g.encodeTrees.getD default.encodeTrees
  extraSecure := g.extraSecure.getD default.extraSecure

def values (g : Given) : List (Option Json) :=
  [g.factorize.map .bool, g.reorderPriorities.map .bool, g.expandPowers.map .bool,
    g.reorderMatmuls.map .bool, g.encodeTrees.map .bool, g.extraSecure.map (.ofList .str)]

def ofSettings (s : Settings) : Given where
  factorize := s.factorize
  reorderPriorities := s.reorderPriorities
  expandPowers := s.expandPowers
  reorderMatmuls := s.reorderMatmuls
  encodeTrees := s.encodeTrees
  extraSecure := s.extraSecure

theorem complete_ofSettings (s : Settings) : (ofSettings s).complete = s := rfl

end Given

/-- Settings are found in a record that gives some of them. -/
theorem decode_eq_some_iff {room : Nat} {j : Json} {s : Settings} :
    decode (room + 2) j = some s ↔
      ∃ g : Given, HasFields names g.values j ∧ g.complete = s := by
  have distinct : names.Nodup := by decide
  have flag (f : Fields) (i : Nat) (absent b : Bool) :
      f.withDefault i absent Decoder.bool = some b ↔
        ∃ o : Option Bool, f.value? i = o.map .bool ∧ o.getD absent = b :=
    Fields.withDefault_eq_some_iff fun _ _ => Decoder.bool_eq_some_iff
  have strings (f : Fields) (isRoom : f.room = room + 1) (i : Nat) (absent l : List String) :
      f.withDefault i absent Decoder.string.list = some l ↔
        ∃ o : Option (List String), f.value? i = o.map (.ofList .str) ∧ o.getD absent = l :=
    Fields.withDefault_eq_some_iff fun _ _ => isRoom ▸ Decoder.strings_eq_some_iff
  simp only [decode, Option.bind_eq_bind, Option.pure_def, Option.bind_eq_some_iff, flag,
    Option.some.injEq]
  constructor
  · rintro ⟨f, found, _, ⟨a, atA, rfl⟩, _, ⟨b, atB, rfl⟩, _, ⟨c, atC, rfl⟩, _, ⟨d, atD, rfl⟩,
      _, ⟨e, atE, rfl⟩, l, last, rfl⟩
    obtain ⟨o, atO, rfl⟩ := (strings f (Fields.room_of_read found) _ _ _).mp last
    refine ⟨⟨a, b, c, d, e, o⟩, (Fields.read_iff_hasFields distinct rfl).mp ⟨f, found, ?_⟩, rfl⟩
    intro i (lt : i < 6)
    interval_cases i
    exacts [atA, atB, atC, atD, atE, atO]
  · rintro ⟨g, has, rfl⟩
    obtain ⟨f, found, same⟩ : ∃ f, Fields.read names (room + 2) j = some f ∧
        ∀ i < names.length, f.value? i = (g.values[i]?).join :=
      (Fields.read_iff_hasFields distinct rfl).mpr has
    have last := (strings f (Fields.room_of_read found) 5 default.extraSecure _).mpr
      ⟨g.extraSecure, same 5 (by decide), rfl⟩
    exact ⟨f, found, _, ⟨_, same 0 (by decide), rfl⟩, _, ⟨_, same 1 (by decide), rfl⟩,
      _, ⟨_, same 2 (by decide), rfl⟩, _, ⟨_, same 3 (by decide), rfl⟩,
      _, ⟨_, same 4 (by decide), rfl⟩, _, last, rfl⟩

theorem hasFields_toJson (s : Settings) : HasFields names (Given.ofSettings s).values s.toJson :=
  .object (.refl _)

theorem codes (s : Settings) : Codes toJson decode 2 s where
  writable := ⟨trivial, trivial, trivial, trivial, trivial,
    (Codes.list fun text _ => Codes.string text).writable, trivial⟩
  decodes room le := by
    obtain ⟨room, rfl⟩ := Nat.exists_eq_add_of_le' le
    exact decode_eq_some_iff.mpr ⟨.ofSettings s, s.hasFields_toJson, Given.complete_ofSettings s⟩

theorem parse_save (s : Settings) : Json.parse s.save = some s.toJson :=
  Json.parse_written (by simp) s.codes.writable

theorem load_save (s : Settings) : load s.save = some s :=
  s.codes.ofText_written (by decide) (by simp)

theorem load_eq_some_iff {text : String} {s : Settings} :
    load text = some s ↔
      ∃ j, Json.parse text = some j ∧ ∃ g : Given, HasFields names g.values j ∧ g.complete = s := by
  rw [load, Decoder.ofText, Option.bind_eq_some_iff]
  exact exists_congr fun j => and_congr_right fun _ => decode_eq_some_iff

example : load "[false, true]" =
    some { default with factorize := false, reorderPriorities := true } := by decide +kernel

end Settings

open Settings in
/-- Settings are loaded from every text that holds a record with some of their fields, completed by
the default, and from no other text. They are saved with all of their fields, and what they are
saved as loads to the same settings. -/
theorem settings_round_trip (text : String) :
    (∀ s, load text = some s ↔ ∃ j, Json.parse text = some j ∧
      ∃ g : Given, Json.HasFields names g.values j ∧ g.complete = s) ∧
    (∀ s : Settings, load s.save = some s ∧
      ∃ j, Json.parse s.save = some j ∧ Json.HasFields names (Given.ofSettings s).values j) ∧
    (load text).bind (fun s => load s.save) = load text := by
  refine ⟨fun s => load_eq_some_iff, fun s => ⟨s.load_save, ?_⟩, ?_⟩
  · exact ⟨s.toJson, s.parse_save, s.hasFields_toJson⟩
  · simp only [load_save, Option.bind_fun_some]

end SecureArith
