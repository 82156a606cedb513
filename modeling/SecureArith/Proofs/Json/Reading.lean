import SecureArith.Json.Reader
import SecureArith.Json.Writer

set_option autoImplicit false

/-!
# Reading what was written

`Spells j cs` says that a text is one of a value, with any blanks between its tokens. Reading finds
the value of such a text, and both compact and laid out texts are such texts. Values with doubles
have no place here: a double that is not finite is written as `null`.
-/

namespace SecureArith.Json

section Numbers

variable {n : Nat} {c : Char} {rest : List Char}

theorem isDigit_eq (c : Char) : isDigit c = c.isDigit := by
  simp only [isDigit, Char.isDigit, Char.le_def]

theorem digitsValue_toDigits (n : Nat) : digitsValue (Nat.toDigits 10 n) = n := by
  have same : digitsValue (Nat.toDigits 10 n) = Nat.ofDigitChars 10 (Nat.toDigits 10 n) 0 := by
    rw [digitsValue, Nat.ofDigitChars_eq_foldl]
    congr 1
    funext n c
    rw [Nat.mul_comm]
    rfl
  rw [same, Nat.ofDigitChars_ten_toDigits]

theorem isDigit_of_mem_toDigits (mem : c ∈ Nat.toDigits 10 n) : isDigit c = true :=
  (isDigit_eq c).trans (Nat.isDigit_of_mem_toDigits (by decide) (by decide) mem)

theorem eq_zero_of_head?_toDigits (h : (Nat.toDigits 10 n).head? = some '0') : n = 0 := by
  induction n using Nat.strongRecOn with
  | ind n ih =>
    by_cases small : n < 10
    · rw [Nat.toDigits_of_lt_base small] at h
      have digits : ∀ k < 10, Nat.digitChar k = '0' → k = 0 := by decide
      exact digits n small (Option.some.inj h)
    · obtain ⟨d, ds, eq⟩ := List.exists_cons_of_ne_nil (Nat.toDigits_ne_nil (n := n / 10) (b := 10))
      rw [Nat.toDigits_of_base_le (by decide) (by omega), eq] at h
      have := ih (n / 10) (by omega) (eq ▸ h)
      omega

/-- What follows a number does not go on with it. -/
def Stops (cs : List Char) : Prop :=
  ∀ c ∈ cs.head?, isDigit c = false ∧ c ≠ '.' ∧ c ≠ 'e' ∧ c ≠ 'E'

theorem takeWhile_toDigits (n : Nat) (stops : Stops rest) :
    (Nat.toDigits 10 n ++ rest).takeWhile isDigit = Nat.toDigits 10 n := by
  rw [List.takeWhile_append_of_pos fun _ => isDigit_of_mem_toDigits]
  cases rest with
  | nil => simp
  | cons c rest => simp [(stops c rfl).1]

theorem dropWhile_toDigits (n : Nat) (stops : Stops rest) :
    (Nat.toDigits 10 n ++ rest).dropWhile isDigit = rest := by
  rw [List.dropWhile_append_of_pos fun _ => isDigit_of_mem_toDigits]
  cases rest with
  | nil => rfl
  | cons c rest => simp [(stops c rfl).1]

theorem canonical_toDigits (n : Nat) : ¬ (Nat.toDigits 10 n = [] ∨
    (Nat.toDigits 10 n).head? = some '0' ∧ 1 < (Nat.toDigits 10 n).length) := by
  rintro (nil | ⟨zero, long⟩)
  · exact Nat.toDigits_ne_nil nil
  · rw [eq_zero_of_head?_toDigits zero, Nat.toDigits_zero] at long
    exact absurd long (by decide)

theorem read_minus (n : Nat) (stops : Stops rest) :
    Numeral.read ('-' :: (Nat.toDigits 10 n ++ rest)) =
      some (⟨true, Nat.toDigits 10 n, [], none⟩, rest) := by
  simp only [Numeral.read, takeWhile_toDigits n stops, dropWhile_toDigits n stops,
    canonical_toDigits, if_false]
  cases rest with
  | nil => rfl
  | cons c rest =>
    obtain ⟨-, point, e, e'⟩ := stops c rfl
    simp [point, e, e']

theorem read_unsigned {cs : List Char} (minus : c ≠ '-') :
    Numeral.read (c :: cs) =
      (Numeral.read ('-' :: c :: cs)).map fun r => ({ r.1 with negative := false }, r.2) := by
  simp only [Numeral.read]
  simp only [List.cons.injEq, minus, false_and, imp_self, implies_true]
  split
  · rfl
  · split
    · rfl
    · split <;> rfl

theorem read_digits (n : Nat) (stops : Stops rest) :
    Numeral.read (Nat.toDigits 10 n ++ rest) =
      some (⟨false, Nat.toDigits 10 n, [], none⟩, rest) := by
  have signed := read_minus n stops
  obtain ⟨d, ds, eq⟩ := List.exists_cons_of_ne_nil (Nat.toDigits_ne_nil (n := n) (b := 10))
  have minus : d ≠ '-' := by
    rintro rfl
    cases isDigit_of_mem_toDigits (n := n) (eq ▸ List.mem_cons_self)
  rw [eq, List.cons_append] at signed ⊢
  rw [read_unsigned minus, signed]
  rfl

theorem toJson_numeral {n : Int} (low : Numeral.minSigned ≤ n) (high : n ≤ Numeral.maxUnsigned) :
    (Numeral.mk (decide (n < 0)) (Nat.toDigits 10 n.natAbs) [] none).toJson = .int n := by
  have value :
      (Numeral.mk (decide (n < 0)) (Nat.toDigits 10 n.natAbs) [] none).toInt? = some n := by
    rw [Numeral.toInt?, if_pos ⟨rfl, rfl⟩, digitsValue_toDigits]
    dsimp only
    by_cases negative : n < 0
    · have size : -(n.natAbs : Int) = n := by omega
      have nonzero : n.natAbs ≠ 0 := by omega
      rw [if_pos (decide_eq_true negative), size, if_pos ⟨nonzero, low⟩]
    · have size : (n.natAbs : Int) = n := by omega
      have small : n.natAbs ≤ Numeral.maxUnsigned := by omega
      rw [decide_eq_false negative, if_neg Bool.false_ne_true, if_pos small, size]
  rw [Numeral.toJson, value]

theorem read_intChars {n : Int} (low : Numeral.minSigned ≤ n) (high : n ≤ Numeral.maxUnsigned)
    (stops : Stops rest) :
    (Numeral.read (intChars n ++ rest)).map (fun r => (r.1.toJson, r.2)) = some (.int n, rest) := by
  have value := toJson_numeral low high
  rw [intChars]
  split
  · rename_i negative
    rw [List.cons_append, read_minus _ stops, Option.map_some]
    rw [decide_eq_true negative] at value
    rw [value]
  · rename_i positive
    rw [read_digits _ stops, Option.map_some]
    rw [decide_eq_false positive] at value
    rw [value]

end Numbers

section Strings

variable {cs rest : List Char} {acc : List Unit16}

theorem hexValue?_hexDigit : ∀ n < 16, hexValue? (hexDigit n) = some n := by decide

theorem ofHex?_control {c : Char} (control : c < ' ') :
    Unit16.ofHex? '0' '0' (hexDigit (c.toNat / 16)) (hexDigit (c.toNat % 16)) = some (.char c) := by
  have small : c.toNat < 32 := control
  have zero : hexValue? '0' = some 0 := by decide
  have number : c.toNat / 16 * 16 + c.toNat % 16 = c.toNat := by omega
  have whole : Unit16.isHigh c.toNat = false ∧ Unit16.isLow c.toNat = false := by
    simp only [Unit16.isHigh, Unit16.isLow, Bool.and_eq_false_iff, decide_eq_false_iff_not]
    omega
  simp [Unit16.ofHex?, zero, hexValue?_hexDigit (c.toNat / 16) (by omega),
    hexValue?_hexDigit (c.toNat % 16) (by omega), number, whole, Char.ofNat_toNat]

theorem readUnits_escapeChar (c : Char) :
    readUnits acc (escapeChar c ++ cs) = readUnits (.char c :: acc) cs := by
  unfold escapeChar
  split
  · rfl
  · rfl
  · rfl
  · rfl
  · rfl
  · rfl
  · rfl
  · rename_i backslash _ _ _ _ _
    split
    · rename_i control
      simp only [List.cons_append, List.nil_append, readUnits, ofHex?_control control]
    · rename_i printed
      have backslash : c ≠ '\\' := fun eq => backslash eq
      simp [readUnits, backslash, printed]

theorem readUnits_escaped (s : List Char) (acc : List Unit16) :
    readUnits acc (s.flatMap escapeChar ++ '"' :: rest) =
      some (acc.reverse ++ s.map .char, rest) := by
  induction s generalizing acc with
  | nil => simp [readUnits]
  | cons c s ih =>
    rw [List.flatMap_cons, List.append_assoc, readUnits_escapeChar, ih]
    simp

theorem join_chars (s acc : List Char) :
    Unit16.join acc (s.map .char) = some (acc.reverse ++ s) := by
  induction s generalizing acc with
  | nil => simp [Unit16.join]
  | cons c s ih => simp [Unit16.join, ih]

/-- Strings are read as they were written. -/
theorem readText_quoted (s : String) :
    readText (s.toList.flatMap escapeChar ++ '"' :: rest) = some (some s, rest) := by
  rw [readText, readUnits_escaped, Option.map_some]
  simp [join_chars]

end Strings

def Blanks (cs : List Char) : Prop := ∀ c ∈ cs, isBlank c = true

/-- A value without parts that is read as it is written. -/
def Plain : Json → Prop
  | .null | .bool _ | .str _ => True
  | .int n => Numeral.minSigned ≤ n ∧ n ≤ Numeral.maxUnsigned
  | _ => False

mutual

/-- A text of a value. -/
def Spells : Json → List Char → Prop
  | .arr items, cs => ∃ inside, cs = '[' :: (inside ++ [']']) ∧ SpellsItems items inside
  | .obj fields, cs => ∃ inside, cs = '{' :: (inside ++ ['}']) ∧ SpellsFields fields inside
  | j, cs => j.Plain ∧ cs = atomChars j

def SpellsItems : List Json → List Char → Prop
  | [], cs => Blanks cs
  | [j], cs => ∃ before text after, Blanks before ∧ Spells j text ∧ Blanks after ∧
      cs = before ++ (text ++ after)
  | j :: rest, cs => ∃ before text after more, Blanks before ∧ Spells j text ∧ Blanks after ∧
      SpellsItems rest more ∧ cs = before ++ (text ++ (after ++ ',' :: more))

def SpellsFields : List (String × Json) → List Char → Prop
  | [], cs => Blanks cs
  | [(name, j)], cs => ∃ before between text after, Blanks before ∧ Blanks between ∧
      Spells j text ∧ Blanks after ∧
      cs = before ++ (quoted name ++ ':' :: (between ++ (text ++ after)))
  | (name, j) :: rest, cs => ∃ before between text after more, Blanks before ∧ Blanks between ∧
      Spells j text ∧ Blanks after ∧ SpellsFields rest more ∧
      cs = before ++ (quoted name ++ ':' :: (between ++ (text ++ (after ++ ',' :: more))))

end

section Values

variable {j : Json} {c : Char} {cs before after rest : List Char} {fuel : Nat}

theorem skipBlanks_append (blanks : Blanks before) (cs : List Char) :
    skipBlanks (before ++ cs) = skipBlanks cs :=
  List.dropWhile_append_of_pos blanks

theorem skipBlanks_cons (h : isBlank c = false) (cs : List Char) :
    skipBlanks (c :: cs) = c :: cs := by
  simp [skipBlanks, h]

theorem readValue_blanks (blanks : Blanks before) (fuel : Nat) (cs : List Char) :
    readValue fuel (before ++ cs) = readValue fuel cs := by
  cases fuel with
  | zero => rw [readValue, readValue]
  | succ fuel => rw [readValue, readValue, skipBlanks_append blanks]

theorem readItems_blanks (blanks : Blanks before) (fuel : Nat) (acc : List Json) (cs : List Char) :
    readItems fuel acc (before ++ cs) = readItems fuel acc cs := by
  cases fuel with
  | zero => rw [readItems, readItems]
  | succ fuel => rw [readItems, readItems, readValue_blanks blanks]

theorem readFields_blanks (blanks : Blanks before) (fuel : Nat) (acc : List (String × Json))
    (named : Bool) (cs : List Char) :
    readFields fuel acc named (before ++ cs) = readFields fuel acc named cs := by
  cases fuel with
  | zero => rw [readFields, readFields]
  | succ fuel => rw [readFields, readFields, skipBlanks_append blanks]

theorem stops_cons (h : isDigit c = false ∧ c ≠ '.' ∧ c ≠ 'e' ∧ c ≠ 'E') : Stops (c :: rest) := by
  rintro _ ⟨⟩
  exact h

theorem stops_append (blanks : Blanks after) (stops : Stops rest) : Stops (after ++ rest) := by
  cases after with
  | nil => exact stops
  | cons c after =>
    have blank := blanks c List.mem_cons_self
    refine stops_cons ?_
    simp only [isBlank, Bool.or_eq_true, beq_iff_eq] at blank
    rcases blank with ((rfl | rfl) | rfl) | rfl <;> decide

theorem exists_head_intChars (n : Int) :
    ∃ c tail, intChars n = c :: tail ∧
      ∀ d, d ≠ '-' → isDigit d = false → c ≠ d := by
  rw [intChars]
  split
  · exact ⟨_, _, rfl, fun d minus _ => minus.symm⟩
  · obtain ⟨d, ds, eq⟩ := List.exists_cons_of_ne_nil (Nat.toDigits_ne_nil (n := n.natAbs) (b := 10))
    have digit := isDigit_of_mem_toDigits (n := n.natAbs) (eq ▸ List.mem_cons_self)
    refine ⟨d, ds, eq, ?_⟩
    rintro d' - other rfl
    exact absurd (digit.symm.trans other) Bool.true_eq_false.mp

theorem Spells.exists_head (h : Spells j cs) :
    ∃ c tail, cs = c :: tail ∧ isBlank c = false ∧ c ≠ ']' := by
  cases j with
  | arr items =>
    obtain ⟨inside, rfl, -⟩ := h
    exact ⟨_, _, rfl, by decide, by decide⟩
  | obj fields =>
    obtain ⟨inside, rfl, -⟩ := h
    exact ⟨_, _, rfl, by decide, by decide⟩
  | null =>
    obtain ⟨-, rfl⟩ := h
    exact ⟨'n', _, rfl, by decide, by decide⟩
  | bool b =>
    obtain ⟨-, rfl⟩ := h
    cases b with
    | true => exact ⟨'t', _, rfl, by decide, by decide⟩
    | false => exact ⟨'f', _, rfl, by decide, by decide⟩
  | str s =>
    obtain ⟨-, rfl⟩ := h
    exact ⟨'"', _, rfl, by decide, by decide⟩
  | int n =>
    obtain ⟨-, rfl⟩ := h
    obtain ⟨c, tail, eq, start⟩ := exists_head_intChars n
    refine ⟨c, tail, eq, ?_, start ']' (by decide) (by decide)⟩
    simp [isBlank, start ' ' (by decide) (by decide), start '\n' (by decide) (by decide),
      start '\t' (by decide) (by decide), start '\r' (by decide) (by decide)]
  | real | unreadable => exact h.1.elim

theorem readValue_plain (plain : j.Plain) (stops : Stops rest) :
    readValue (fuel + 1) (atomChars j ++ rest) = some (j, rest) := by
  cases j with
  | null => rfl
  | bool b => cases b <;> rfl
  | str s =>
    change readValue (fuel + 1) ('"' :: (s.toList.flatMap escapeChar ++ ['"']) ++ rest) = _
    rw [List.cons_append, List.append_assoc, readValue, skipBlanks_cons (by decide)]
    simp [readText_quoted]
  | int n =>
    obtain ⟨c, tail, eq, start⟩ := exists_head_intChars n
    obtain ⟨_, _, eq', blank, -⟩ := Spells.exists_head (j := .int n) ⟨plain, rfl⟩
    have value := read_intChars plain.1 plain.2 stops
    change readValue (fuel + 1) (intChars n ++ rest) = _
    cases eq.symm.trans eq'
    rw [eq, List.cons_append] at value ⊢
    rw [readValue, skipBlanks_cons blank]
    simp only [List.cons.injEq, start 'n' (by decide) (by decide),
      start 't' (by decide) (by decide), start 'f' (by decide) (by decide),
      start '"' (by decide) (by decide), start '[' (by decide) (by decide),
      start '{' (by decide) (by decide), false_and, imp_self, implies_true]
    exact value
  | arr | obj | real | unreadable => exact plain.elim

theorem stops_after (rest : List Char) (blanks : Blanks after) (h : c = ',' ∨ c = ']' ∨ c = '}') :
    Stops (after ++ c :: rest) := by
  refine stops_append blanks (stops_cons ?_)
  rcases h with rfl | rfl | rfl <;> decide

theorem Spells.pos (h : Spells j cs) : 0 < cs.length := by
  obtain ⟨c, tail, rfl, -⟩ := h.exists_head
  exact Nat.zero_lt_succ _

theorem SpellsItems.exists_start {items : List Json} (h : SpellsItems (j :: items) cs) :
    ∃ before c tail, cs = before ++ c :: tail ∧ Blanks before ∧ isBlank c = false ∧ c ≠ ']' := by
  cases items with
  | nil =>
    obtain ⟨before, text, after, blanks, spells, -, rfl⟩ := h
    obtain ⟨c, tail, rfl, blank, other⟩ := spells.exists_head
    exact ⟨before, c, _, rfl, blanks, blank, other⟩
  | cons j' items =>
    obtain ⟨before, text, after, more, blanks, spells, -, -, rfl⟩ := h
    obtain ⟨c, tail, rfl, blank, other⟩ := spells.exists_head
    exact ⟨before, c, _, rfl, blanks, blank, other⟩

theorem SpellsFields.exists_start {field : String × Json} {fields : List (String × Json)}
    (h : SpellsFields (field :: fields) cs) :
    ∃ before tail, cs = before ++ '"' :: tail ∧ Blanks before := by
  obtain ⟨name, j⟩ := field
  cases fields with
  | nil =>
    obtain ⟨before, between, text, after, blanks, -, -, -, rfl⟩ := h
    exact ⟨before, _, rfl, blanks⟩
  | cons field' fields =>
    obtain ⟨before, between, text, after, more, blanks, -, -, -, -, rfl⟩ := h
    exact ⟨before, _, rfl, blanks⟩

end Values

mutual

/-- The value of a text is found. -/
theorem readValue_spells (j : Json) {cs : List Char} (h : Spells j cs) {fuel : Nat}
    (enough : 2 * cs.length ≤ fuel) {rest : List Char} (stops : Stops rest) :
    readValue fuel (cs ++ rest) = some (j, rest) := by
  have positive := h.pos
  obtain ⟨fuel, rfl⟩ : ∃ n, fuel = n + 1 := ⟨fuel - 1, by omega⟩
  cases j with
  | arr items =>
    obtain ⟨inside, rfl, spells⟩ := h
    simp only [List.length_cons, List.length_append, List.length_nil] at enough
    rw [List.cons_append, List.append_assoc, readValue, skipBlanks_cons (by decide)]
    cases items with
    | nil =>
      have blanks : Blanks inside := spells
      simp only [skipBlanks_append blanks]
      rfl
    | cons j items =>
      have found := readItems_spells j items spells
        (by omega : 2 * inside.length + 1 ≤ fuel) [] rest
      obtain ⟨before, c, tail, rfl, blanks, blank, other⟩ := spells.exists_start
      rw [List.append_assoc, readItems_blanks blanks] at found
      simp only [List.append_assoc, skipBlanks_append blanks, List.cons_append,
        skipBlanks_cons blank, List.cons.injEq, other, false_and, imp_self, implies_true]
      exact found
  | obj fields =>
    obtain ⟨inside, rfl, spells⟩ := h
    simp only [List.length_cons, List.length_append, List.length_nil] at enough
    rw [List.cons_append, List.append_assoc, readValue, skipBlanks_cons (by decide)]
    cases fields with
    | nil =>
      have blanks : Blanks inside := spells
      simp only [skipBlanks_append blanks]
      rfl
    | cons field fields =>
      cases field
      have found := readFields_spells _ _ fields spells
        (by omega : 2 * inside.length + 1 ≤ fuel) [] rest
      obtain ⟨before, tail, rfl, blanks⟩ := spells.exists_start
      rw [List.append_assoc, readFields_blanks blanks] at found
      simp only [List.append_assoc, skipBlanks_append blanks, List.cons_append,
        skipBlanks_cons (by decide : isBlank '"' = false)]
      exact found
  | null | bool | int | str => exact h.2 ▸ readValue_plain h.1 stops
  | real | unreadable => exact h.1.elim
termination_by sizeOf j

theorem readItems_spells (j : Json) (items : List Json) {cs : List Char}
    (h : SpellsItems (j :: items) cs) {fuel : Nat} (enough : 2 * cs.length + 1 ≤ fuel)
    (acc : List Json) (rest : List Char) :
    readItems fuel acc (cs ++ ']' :: rest) = some (.arr (acc.reverse ++ j :: items), rest) := by
  obtain ⟨fuel, rfl⟩ : ∃ n, fuel = n + 1 := ⟨fuel - 1, by omega⟩
  cases items with
  | nil =>
    obtain ⟨before, text, after, blanks, spells, blanks', rfl⟩ := h
    simp only [List.length_append] at enough
    have found := readValue_spells j spells (by omega : 2 * text.length ≤ fuel)
      (stops_after rest blanks' (.inr (.inl rfl)))
    rw [readItems, List.append_assoc, readValue_blanks blanks, List.append_assoc, found]
    simp only [skipBlanks_append blanks', skipBlanks_cons (by decide : isBlank ']' = false),
      List.reverse_cons]
  | cons j' items =>
    obtain ⟨before, text, after, more, blanks, spells, blanks', spells', rfl⟩ := h
    simp only [List.length_append, List.length_cons] at enough
    have found := readValue_spells j spells (by omega : 2 * text.length ≤ fuel)
      (stops_after (more ++ ']' :: rest) blanks' (.inl rfl))
    have others := readItems_spells j' items spells' (by omega : 2 * more.length + 1 ≤ fuel)
      (j :: acc) rest
    rw [readItems, List.append_assoc, readValue_blanks blanks, List.append_assoc, List.append_assoc,
      List.cons_append, found]
    simp only [skipBlanks_append blanks', skipBlanks_cons (by decide : isBlank ',' = false), others,
      List.reverse_cons, List.append_assoc, List.singleton_append]
termination_by sizeOf j + sizeOf items + 1

theorem readFields_spells (name : String) (j : Json) (fields : List (String × Json))
    {cs : List Char} (h : SpellsFields ((name, j) :: fields) cs) {fuel : Nat}
    (enough : 2 * cs.length + 1 ≤ fuel) (acc : List (String × Json)) (rest : List Char) :
    readFields fuel acc true (cs ++ '}' :: rest) =
      some (.obj (acc.reverse ++ (name, j) :: fields), rest) := by
  obtain ⟨fuel, rfl⟩ : ∃ n, fuel = n + 1 := ⟨fuel - 1, by omega⟩
  cases fields with
  | nil =>
    obtain ⟨before, between, text, after, blanks, blanks', spells, blanks'', rfl⟩ := h
    simp only [List.length_append, List.length_cons] at enough
    have found := readValue_spells j spells (by omega : 2 * text.length ≤ fuel)
      (stops_after rest blanks'' (.inr (.inr rfl)))
    rw [List.append_assoc, readFields_blanks blanks, readFields]
    simp only [quoted, List.cons_append, List.append_assoc, List.nil_append,
      skipBlanks_cons (by decide : isBlank '"' = false), readText_quoted,
      skipBlanks_cons (by decide : isBlank ':' = false), readValue_blanks blanks', found,
      skipBlanks_append blanks'', skipBlanks_cons (by decide : isBlank '}' = false)]
    simp
  | cons field fields =>
    obtain ⟨before, between, text, after, more, blanks, blanks', spells, blanks'', spells', rfl⟩ :=
      h
    cases field
    simp only [List.length_append, List.length_cons] at enough
    have found := readValue_spells j spells (by omega : 2 * text.length ≤ fuel)
      (stops_after (more ++ '}' :: rest) blanks'' (.inl rfl))
    have others := readFields_spells _ _ fields spells'
      (by omega : 2 * more.length + 1 ≤ fuel) ((name, j) :: acc) rest
    rw [List.append_assoc, readFields_blanks blanks, readFields]
    simp only [quoted, List.cons_append, List.append_assoc, List.nil_append,
      skipBlanks_cons (by decide : isBlank '"' = false), readText_quoted,
      skipBlanks_cons (by decide : isBlank ':' = false), readValue_blanks blanks', found,
      skipBlanks_append blanks'', skipBlanks_cons (by decide : isBlank ',' = false)]
    simpa using others
termination_by sizeOf j + sizeOf fields + 1

end

theorem parseChars_spells {j : Json} {cs : List Char} (h : Spells j cs) :
    parseChars cs = some j := by
  have stops : Stops [] := by rintro _ ⟨⟩
  have found := readValue_spells j h (by omega : 2 * cs.length ≤ 2 * cs.length + 1) stops
  rw [List.append_nil] at found
  rw [parseChars, found]
  rfl

mutual

/-- Values that are read as they are written: there are no doubles, and integers fit 64 bits. -/
def Writable : Json → Prop
  | .arr items => WritableItems items
  | .obj fields => WritableFields fields
  | j => j.Plain

def WritableItems : List Json → Prop
  | [] => True
  | j :: rest => j.Writable ∧ WritableItems rest

def WritableFields : List (String × Json) → Prop
  | [] => True
  | (_, j) :: rest => j.Writable ∧ WritableFields rest

end

theorem blanks_nil : Blanks [] := by rintro _ ⟨⟩

theorem blanks_newline (level : Nat) : Blanks (newline level) := by
  intro c hc
  rcases List.mem_cons.mp hc with rfl | hc
  · rfl
  · rw [List.eq_of_mem_replicate hc]
    rfl

mutual

theorem spells_compactChars (j : Json) (h : j.Writable) : Spells j j.compactChars := by
  cases j with
  | arr items => exact ⟨_, by rw [compactChars, List.cons_append], spells_compactItems items h⟩
  | obj fields => exact ⟨_, by rw [compactChars, List.cons_append], spells_compactFields fields h⟩
  | null | bool | int | str | real | unreadable => exact ⟨h, rfl⟩

theorem spells_compactItems (items : List Json) (h : WritableItems items) :
    SpellsItems items (compactItems items) := by
  cases items with
  | nil => exact blanks_nil
  | cons j items =>
    have spells := spells_compactChars j h.1
    cases items with
    | nil => exact ⟨[], _, [], blanks_nil, spells, blanks_nil, by simp [compactItems]⟩
    | cons j' items =>
      exact ⟨[], _, [], _, blanks_nil, spells, blanks_nil,
        spells_compactItems (j' :: items) h.2, rfl⟩

theorem spells_compactFields (fields : List (String × Json)) (h : WritableFields fields) :
    SpellsFields fields (compactFields fields) := by
  cases fields with
  | nil => exact blanks_nil
  | cons field fields =>
    cases field
    have spells := spells_compactChars _ h.1
    cases fields with
    | nil =>
      exact ⟨[], [], _, [], blanks_nil, blanks_nil, spells, blanks_nil, by simp [compactFields]⟩
    | cons field fields =>
      exact ⟨[], [], _, [], _, blanks_nil, blanks_nil, spells, blanks_nil,
        spells_compactFields (field :: fields) h.2, by simp [compactFields]⟩

end

mutual

theorem spells_prettyChars (level : Nat) (j : Json) (h : j.Writable) :
    Spells j (j.prettyChars level) := by
  cases j with
  | arr items =>
    cases items with
    | nil => exact ⟨[], rfl, blanks_nil⟩
    | cons j items =>
      exact ⟨_, by simp [prettyChars],
        spells_prettyItems (level + 1) j items h (blanks_newline level)⟩
  | obj fields =>
    cases fields with
    | nil => exact ⟨[], rfl, blanks_nil⟩
    | cons field fields =>
      cases field
      exact ⟨_, by simp [prettyChars],
        spells_prettyFields (level + 1) _ _ fields h (blanks_newline level)⟩
  | null | bool | int | str | real | unreadable => exact ⟨h, rfl⟩
termination_by sizeOf j

theorem spells_prettyItems (level : Nat) (j : Json) (items : List Json)
    (h : WritableItems (j :: items)) {after : List Char} (blanks : Blanks after) :
    SpellsItems (j :: items) (prettyItems level (j :: items) ++ after) := by
  have spells := spells_prettyChars level j h.1
  cases items with
  | nil =>
    exact ⟨_, _, _, blanks_newline level, spells, blanks, by simp [prettyItems]⟩
  | cons j' items =>
    exact ⟨_, _, [], _, blanks_newline level, spells, blanks_nil,
      spells_prettyItems level j' items h.2 blanks, by simp [prettyItems]⟩
termination_by sizeOf j + sizeOf items + 1

theorem spells_prettyFields (level : Nat) (name : String) (j : Json)
    (fields : List (String × Json)) (h : WritableFields ((name, j) :: fields)) {after : List Char}
    (blanks : Blanks after) :
    SpellsFields ((name, j) :: fields) (prettyFields level ((name, j) :: fields) ++ after) := by
  have spells := spells_prettyChars level j h.1
  have blank : Blanks [' '] := by simp [Blanks, isBlank]
  cases fields with
  | nil =>
    exact ⟨_, _, _, _, blanks_newline level, blank, spells, blanks, by simp [prettyFields]⟩
  | cons field fields =>
    cases field
    exact ⟨_, _, _, [], _, blanks_newline level, blank, spells, blanks_nil,
      spells_prettyFields level _ _ fields h.2 blanks, by simp [prettyFields]⟩
termination_by sizeOf j + sizeOf fields + 1

end

/-- A value is read back from both of its texts. -/
theorem parse_written {write : Json → String} (hw : write ∈ [compact, pretty]) {j : Json}
    (h : j.Writable) : parse (write j) = some j := by
  simp only [List.mem_cons, List.not_mem_nil, or_false] at hw
  rcases hw with rfl | rfl
  · rw [parse, compact, String.toList_ofList, parseChars_spells (spells_compactChars j h)]
  · rw [parse, pretty, String.toList_ofList, parseChars_spells (spells_prettyChars 0 j h)]

end SecureArith.Json
