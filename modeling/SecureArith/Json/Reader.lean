import SecureArith.Json.Numeral

set_option autoImplicit false

/-!
# Reading JSON

The grammar is strict: no comments, no trailing commas, no raw control characters in strings, and
nothing but blanks after the value. Objects keep their fields in order, repeated ones included.
-/

namespace SecureArith.Json

def isBlank (c : Char) : Bool := c == ' ' || c == '\n' || c == '\t' || c == '\r'

def skipBlanks (cs : List Char) : List Char := cs.dropWhile isBlank

def hexValue? (c : Char) : Option Nat :=
  if isDigit c then some (digitValue c)
  else if 'a' ≤ c && c ≤ 'f' then some (c.toNat - 'a'.toNat + 10)
  else if 'A' ≤ c && c ≤ 'F' then some (c.toNat - 'A'.toNat + 10)
  else none

/-- What one character or escape of a string stands for. -/
inductive Unit16 where
  | char (c : Char)
  /-- Half of a surrogate pair. -/
  | half (n : Nat)

namespace Unit16

def isHigh (n : Nat) : Bool := 0xD800 ≤ n && n ≤ 0xDBFF

def isLow (n : Nat) : Bool := 0xDC00 ≤ n && n ≤ 0xDFFF

def ofHex? (a b c d : Char) : Option Unit16 := do
  let n := (((← hexValue? a) * 16 + (← hexValue? b)) * 16 + (← hexValue? c)) * 16 + (← hexValue? d)
  return if isHigh n || isLow n then .half n else .char (Char.ofNat n)

/-- Pairs joined to characters; a half on its own makes the string unreadable. -/
def join (acc : List Char) : List Unit16 → Option (List Char)
  | [] => some acc.reverse
  | .char c :: rest => join (c :: acc) rest
  | .half a :: .half b :: rest =>
    if isHigh a && isLow b then
      join (Char.ofNat (0x10000 + (a - 0xD800) * 0x400 + (b - 0xDC00)) :: acc) rest
    else none
  | .half _ :: _ => none

end Unit16

/-- The characters that a backslash and a letter stand for. -/
def escape? (c : Char) : Option Char :=
  match c with
  | '"' => some '"'
  | '\\' => some '\\'
  | '/' => some '/'
  | 'b' => some '\x08'
  | 'f' => some '\x0c'
  | 'n' => some '\n'
  | 'r' => some '\r'
  | 't' => some '\t'
  | _ => none

/-- The inside of a string up to its closing quote, and what follows that. -/
def readUnits (acc : List Unit16) : List Char → Option (List Unit16 × List Char)
  | '"' :: rest => some (acc.reverse, rest)
  | '\\' :: 'u' :: a :: b :: c :: d :: rest =>
    match Unit16.ofHex? a b c d with
    | some u => readUnits (u :: acc) rest
    | none => none
  | '\\' :: c :: rest =>
    match escape? c with
    | some e => readUnits (.char e :: acc) rest
    | none => none
  | c :: rest => if c < ' ' || c == '\\' then none else readUnits (.char c :: acc) rest
  | [] => none

def readText (cs : List Char) : Option (Option String × List Char) :=
  (readUnits [] cs).map fun (units, rest) => ((Unit16.join [] units).map String.ofList, rest)

mutual

/-- One value. The first argument bounds the number of steps. -/
def readValue : Nat → List Char → Option (Json × List Char)
  | 0, _ => none
  | fuel + 1, cs =>
    match skipBlanks cs with
    | 'n' :: 'u' :: 'l' :: 'l' :: rest => some (.null, rest)
    | 't' :: 'r' :: 'u' :: 'e' :: rest => some (.bool true, rest)
    | 'f' :: 'a' :: 'l' :: 's' :: 'e' :: rest => some (.bool false, rest)
    | '"' :: rest => (readText rest).map fun (t, rest) => (t.elim .unreadable .str, rest)
    | '[' :: rest =>
      match skipBlanks rest with
      | ']' :: rest => some (.arr [], rest)
      | rest => readItems fuel [] rest
    | '{' :: rest =>
      match skipBlanks rest with
      | '}' :: rest => some (.obj [], rest)
      | rest => readFields fuel [] true rest
    | rest => (Numeral.read rest).map fun (n, rest) => (n.toJson, rest)

def readItems : Nat → List Json → List Char → Option (Json × List Char)
  | 0, _, _ => none
  | fuel + 1, acc, cs =>
    match readValue fuel cs with
    | none => none
    | some (j, rest) =>
      match skipBlanks rest with
      | ',' :: rest => readItems fuel (j :: acc) rest
      | ']' :: rest => some (.arr (j :: acc).reverse, rest)
      | _ => none

/-- The fields of an object up to its closing brace, one at least. The flag says whether every
name so far is readable. -/
def readFields : Nat → List (String × Json) → Bool → List Char → Option (Json × List Char)
  | 0, _, _, _ => none
  | fuel + 1, acc, named, cs =>
    match skipBlanks cs with
    | '"' :: rest =>
      match readText rest with
      | none => none
      | some (name, rest) =>
        match skipBlanks rest with
        | ':' :: rest =>
          match readValue fuel rest with
          | none => none
          | some (j, rest) =>
            let acc := (name.getD "", j) :: acc
            let named := named && name.isSome
            match skipBlanks rest with
            | ',' :: rest => readFields fuel acc named rest
            | '}' :: rest => some (if named then .obj acc.reverse else .unreadable, rest)
            | _ => none
        | _ => none
    | _ => none

end

def parseChars (cs : List Char) : Option Json :=
  match readValue (2 * cs.length + 1) cs with
  | some (j, rest) => if skipBlanks rest = [] then some j else none
  | none => none

def parse (text : String) : Option Json := parseChars text.toList

end SecureArith.Json
