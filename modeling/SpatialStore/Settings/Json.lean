/-!
# JSON documents

A reader for JSON that keeps what settings need to know about a value: a number keeps its digits,
so that `16` and `16.0` stay apart, and a string whose escapes name half of a surrogate pair is
read but has no text. `Json.parse?` accepts a document surrounded by blanks and nothing else.
-/

namespace SpatialStore

/-- A number as it is written. -/
structure JsonNumber where
  negative : Bool
  /-- Digits in front of the point. -/
  whole : List Nat
  /-- Digits after the point, if there is one. -/
  fraction : Option (List Nat)
  /-- Power of ten, if one is given. -/
  exponent : Option Int
  deriving DecidableEq, Repr

/-- A JSON value. -/
inductive Json where
  | null
  | bool (b : Bool)
  | number (n : JsonNumber)
  | string (s : Option String)
  | array (items : List Json)
  | object (members : List (Option String × Json))

namespace Json

/-- What is left of the input after a step that read something. -/
abbrev Reading (α : Type) := Option (α × List Char)

/-- Blank, tab, line feed and carriage return. -/
def isBlank (c : Char) : Bool := c.toNat = 32 || c.toNat = 9 || c.toNat = 10 || c.toNat = 13

def skipBlanks (cs : List Char) : List Char := cs.dropWhile isBlank

/-- The input after a given word. -/
def word (w : List Char) (cs : List Char) : Option (List Char) :=
  if w.isPrefixOf cs then some (cs.drop w.length) else none

/-! ### Numbers -/

/-- The digits at the start of the input, and the rest. -/
def digits (cs : List Char) : List Nat × List Char :=
  ((cs.takeWhile Char.isDigit).map fun c => c.toNat - 48, cs.dropWhile Char.isDigit)

/-- The number with some decimal digits. -/
def ofDigits (ds : List Nat) : Nat := ds.foldl (fun n d => 10 * n + d) 0

/-- A point with at least one digit after it, or nothing. -/
def fraction (cs : List Char) : Reading (Option (List Nat)) :=
  match cs with
  | '.' :: cs =>
    match digits cs with
    | ([], _) => none
    | (ds, cs) => some (some ds, cs)
  | cs => some (none, cs)

/-- An exponent with at least one digit, or nothing. -/
def exponent (cs : List Char) : Reading (Option Int) :=
  let power (negative : Bool) (cs : List Char) : Reading (Option Int) :=
    match digits cs with
    | ([], _) => none
    | (ds, cs) => some (some (if negative then -(ofDigits ds : Int) else ofDigits ds), cs)
  match cs with
  | 'e' :: '-' :: cs | 'E' :: '-' :: cs => power true cs
  | 'e' :: '+' :: cs | 'E' :: '+' :: cs => power false cs
  | 'e' :: cs | 'E' :: cs => power false cs
  | cs => some (none, cs)

/-- A number without its sign. A zero in front of other digits is refused. -/
def unsigned (negative : Bool) (cs : List Char) : Reading JsonNumber :=
  match digits cs with
  | ([], _) => none
  | (0 :: _ :: _, _) => none
  | (whole, cs) =>
    match fraction cs with
    | none => none
    | some (fraction, cs) =>
      match exponent cs with
      | none => none
      | some (exponent, cs) => some (⟨negative, whole, fraction, exponent⟩, cs)

/-- A number. -/
def signed (cs : List Char) : Reading JsonNumber :=
  match cs with
  | '-' :: cs => unsigned true cs
  | cs => unsigned false cs

/-! ### Strings -/

/-- The value of a hexadecimal digit. -/
def hexDigit? (c : Char) : Option Nat :=
  if c.isDigit then some (c.toNat - 48)
  else if 97 ≤ c.toNat ∧ c.toNat ≤ 102 then some (c.toNat - 87)
  else if 65 ≤ c.toNat ∧ c.toNat ≤ 70 then some (c.toNat - 55)
  else none

/-- The character that a letter after a backslash stands for. -/
def escape? (c : Char) : Option Nat :=
  if c.toNat = 34 ∨ c.toNat = 92 ∨ c.toNat = 47 then some c.toNat
  else if c = 'b' then some 8
  else if c = 'f' then some 12
  else if c = 'n' then some 10
  else if c = 'r' then some 13
  else if c = 't' then some 9
  else none

/-- The code units of a string up to its closing quote. -/
def units : List Char → Reading (List Nat)
  | [] => none
  | c :: cs =>
    if c.toNat = 34 then some ([], cs)
    else if c.toNat < 32 then none
    else if c.toNat ≠ 92 then (units cs).map fun r => (c.toNat :: r.1, r.2)
    else
      match cs with
      | 'u' :: h₁ :: h₂ :: h₃ :: h₄ :: cs =>
        match hexDigit? h₁, hexDigit? h₂, hexDigit? h₃, hexDigit? h₄ with
        | some a, some b, some c, some d =>
          (units cs).map fun r => ((4096 * a + 256 * b + 16 * c + d) :: r.1, r.2)
        | _, _, _, _ => none
      | e :: cs =>
        match escape? e with
        | some n => (units cs).map fun r => (n :: r.1, r.2)
        | none => none
      | [] => none

/-- The characters that code units denote, surrogates joined in pairs; `none` if one is alone. -/
def characters? : List Nat → Option (List Char)
  | [] => some []
  | [n] => if 0xD800 ≤ n ∧ n < 0xE000 then none else some [Char.ofNat n]
  | n :: m :: rest =>
    if 0xD800 ≤ n ∧ n < 0xDC00 then
      if 0xDC00 ≤ m ∧ m < 0xE000 then
        (characters? rest).map (Char.ofNat (0x10000 + 1024 * (n - 0xD800) + (m - 0xDC00)) :: ·)
      else none
    else if 0xDC00 ≤ n ∧ n < 0xE000 then none
    else (characters? (m :: rest)).map (Char.ofNat n :: ·)

/-- A string behind its opening quote. -/
def stringBody (cs : List Char) : Reading (Option String) :=
  (units cs).map fun r => ((characters? r.1).map String.ofList, r.2)

/-! ### Values -/

/-- Whether the input starts with a quote; if so, the rest. -/
def afterQuote? (cs : List Char) : Option (List Char) :=
  match cs with
  | c :: cs => if c.toNat = 34 then some cs else none
  | [] => none

mutual

/-- A value, with blanks in front. Every step of the recursion reads a character, so `fuel` need
not exceed the length of the input. -/
def value : Nat → List Char → Reading Json
  | 0, _ => none
  | fuel + 1, cs =>
    match skipBlanks cs with
    | '[' :: cs =>
      match skipBlanks cs with
      | ']' :: cs => some (.array [], cs)
      | cs => (items fuel cs).map fun r => (.array r.1, r.2)
    | '\x7b' :: cs =>
      match skipBlanks cs with
      | '\x7d' :: cs => some (.object [], cs)
      | cs => (members fuel cs).map fun r => (.object r.1, r.2)
    | cs =>
      match afterQuote? cs with
      | some cs => (stringBody cs).map fun r => (.string r.1, r.2)
      | none =>
        match word ['n', 'u', 'l', 'l'] cs, word ['t', 'r', 'u', 'e'] cs,
            word ['f', 'a', 'l', 's', 'e'] cs with
        | some cs, _, _ => some (.null, cs)
        | _, some cs, _ => some (.bool true, cs)
        | _, _, some cs => some (.bool false, cs)
        | none, none, none => (signed cs).map fun r => (.number r.1, r.2)

/-- The items of an array, at least one, up to the closing bracket. -/
def items : Nat → List Char → Reading (List Json)
  | 0, _ => none
  | fuel + 1, cs =>
    match value fuel cs with
    | none => none
    | some (v, cs) =>
      match skipBlanks cs with
      | ']' :: cs => some ([v], cs)
      | ',' :: cs => (items fuel cs).map fun r => (v :: r.1, r.2)
      | _ => none

/-- The members of an object, at least one, up to the closing brace. -/
def members : Nat → List Char → Reading (List (Option String × Json))
  | 0, _ => none
  | fuel + 1, cs =>
    match afterQuote? (skipBlanks cs) with
    | none => none
    | some cs =>
      match stringBody cs with
      | none => none
      | some (key, cs) =>
        match skipBlanks cs with
        | ':' :: cs =>
          match value fuel cs with
          | none => none
          | some (v, cs) =>
            match skipBlanks cs with
            | '\x7d' :: cs => some ([(key, v)], cs)
            | ',' :: cs => (members fuel cs).map fun r => ((key, v) :: r.1, r.2)
            | _ => none
        | _ => none

end

/-- The document a text consists of. -/
def parse? (text : String) : Option Json :=
  let cs := text.toList
  match value (2 * cs.length + 2) cs with
  | some (v, rest) => if (skipBlanks rest).isEmpty then some v else none
  | none => none

end Json

end SpatialStore
