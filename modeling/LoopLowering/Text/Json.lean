/-
Reading JSON text.

The reader accepts exactly the JSON grammar.  Numbers are checked but not kept, since
nothing here is configured by a number.  A string can spell half of a surrogate pair;
such a string is well-formed JSON but no text, and is kept as a string without text.

The reader goes down with a number that bounds how often it may still call itself.
Twice the length of the text is enough, because every second call takes a character.
-/

namespace LoopLowering.Text

/-- A JSON value. -/
inductive Json where
  | null
  | boolean (value : Bool)
  | number
  | string (text? : Option String)
  | array (items : List Json)
  | object (members : List (Option String × Json))

namespace Json

/-! ### Characters -/

/-- Blanks between the tokens. -/
def isBlank (c : Char) : Bool := c == ' ' || c == '\t' || c == '\n' || c == '\r'

/-- The text from the next token on. -/
def skipBlank (cs : List Char) : List Char := cs.dropWhile isBlank

/-- The value of a hexadecimal digit. -/
def hexDigit? (c : Char) : Option Nat :=
  if '0' ≤ c ∧ c ≤ '9' then some (c.toNat - '0'.toNat)
  else if 'a' ≤ c ∧ c ≤ 'f' then some (c.toNat - 'a'.toNat + 10)
  else if 'A' ≤ c ∧ c ≤ 'F' then some (c.toNat - 'A'.toNat + 10)
  else none

/-- The number four hexadecimal digits spell. -/
def hex4? (a b c d : Char) : Option Nat := do
  return (((← hexDigit? a) * 16 + (← hexDigit? b)) * 16 + (← hexDigit? c)) * 16 + (← hexDigit? d)

/-- The first half of a surrogate pair. -/
def isHighHalf (unit : Nat) : Bool := 0xD800 ≤ unit && unit ≤ 0xDBFF

/-- The second half of a surrogate pair. -/
def isLowHalf (unit : Nat) : Bool := 0xDC00 ≤ unit && unit ≤ 0xDFFF

/-- The character a surrogate pair stands for. -/
def joinHalves (high low : Nat) : Char :=
  Char.ofNat (0x10000 + (high - 0xD800) * 0x400 + (low - 0xDC00))

/-- The character a backslash and a letter stand for. -/
def escape? : Char → Option Char
  | '"' => some '"'
  | '\\' => some '\\'
  | '/' => some '/'
  | 'b' => some '\x08'
  | 'f' => some '\x0c'
  | 'n' => some '\n'
  | 'r' => some '\r'
  | 't' => some '\t'
  | _ => none

/-! ### Strings and numbers -/

/-- The code points up to the closing quote, halves of surrogate pairs by themselves,
and the rest after the quote. -/
def units? : List Char → Option (List Nat × List Char)
  | [] => none
  | '"' :: rest => some ([], rest)
  | '\\' :: 'u' :: a :: b :: c :: d :: rest => do
    let unit ← hex4? a b c d
    let (units, rest) ← units? rest
    return (unit :: units, rest)
  | '\\' :: c :: rest => do
    let c ← escape? c
    let (units, rest) ← units? rest
    return (c.toNat :: units, rest)
  | c :: rest =>
    if c < ' ' then none
    else do
      let (units, rest) ← units? rest
      return (c.toNat :: units, rest)

/-- The text that code points spell, unless half of a surrogate pair stands alone. -/
def join? : List Nat → Option (List Char)
  | [] => some []
  | high :: low :: units =>
    if isHighHalf high && isLowHalf low then (join? units).map (joinHalves high low :: ·)
    else if isHighHalf high || isLowHalf high then none
    else (join? (low :: units)).map (Char.ofNat high :: ·)
  | [unit] => if isHighHalf unit || isLowHalf unit then none else some [Char.ofNat unit]

/-- Read a string from after its opening quote on. -/
def quoted? (cs : List Char) : Option (Option String × List Char) := do
  let (units, rest) ← units? cs
  return ((join? units).map String.ofList, rest)

/-- Skip one or more digits. -/
def digits? : List Char → Option (List Char)
  | c :: rest => if c.isDigit then some (rest.dropWhile Char.isDigit) else none
  | [] => none

/-- Skip the digits before the point: a zero, or digits that start with another. -/
def whole? : List Char → Option (List Char)
  | '0' :: rest => some rest
  | cs => digits? cs

/-- Skip a point and digits, if there is a point. -/
def fraction? : List Char → Option (List Char)
  | '.' :: rest => digits? rest
  | cs => some cs

/-- Skip a sign, if there is one. -/
def skipSign : List Char → List Char
  | '+' :: rest => rest
  | '-' :: rest => rest
  | cs => cs

/-- Skip an exponent, if there is one. -/
def exponent? : List Char → Option (List Char)
  | 'e' :: rest => digits? (skipSign rest)
  | 'E' :: rest => digits? (skipSign rest)
  | cs => some cs

/-- Skip a number. -/
def number? : List Char → Option (List Char)
  | '-' :: rest => (whole? rest).bind fraction? |>.bind exponent?
  | cs => (whole? cs).bind fraction? |>.bind exponent?

/-! ### Values -/

mutual

/-- Read one value, and return the rest after it. -/
def value? : Nat → List Char → Option (Json × List Char)
  | 0, _ => none
  | fuel + 1, cs =>
    match skipBlank cs with
    | 'n' :: 'u' :: 'l' :: 'l' :: rest => some (null, rest)
    | 't' :: 'r' :: 'u' :: 'e' :: rest => some (boolean true, rest)
    | 'f' :: 'a' :: 'l' :: 's' :: 'e' :: rest => some (boolean false, rest)
    | '"' :: rest => (quoted? rest).map fun (text?, rest) => (string text?, rest)
    | '[' :: rest =>
      match skipBlank rest with
      | ']' :: rest => some (array [], rest)
      | rest => (items? fuel rest).map fun (items, rest) => (array items, rest)
    | '{' :: rest =>
      match skipBlank rest with
      | '}' :: rest => some (object [], rest)
      | rest => (members? fuel rest).map fun (members, rest) => (object members, rest)
    | rest => (number? rest).map fun rest => (number, rest)

/-- Read the items of an array up to its closing bracket. -/
def items? : Nat → List Char → Option (List Json × List Char)
  | 0, _ => none
  | fuel + 1, cs => do
    let (item, rest) ← value? fuel cs
    match skipBlank rest with
    | ',' :: rest =>
      let (items, rest) ← items? fuel rest
      return (item :: items, rest)
    | ']' :: rest => return ([item], rest)
    | _ => none

/-- Read the members of an object up to its closing brace. -/
def members? : Nat → List Char → Option (List (Option String × Json) × List Char)
  | 0, _ => none
  | fuel + 1, cs =>
    match skipBlank cs with
    | '"' :: rest => do
      let (key?, rest) ← quoted? rest
      match skipBlank rest with
      | ':' :: rest =>
        let (value, rest) ← value? fuel rest
        let entry := (key?, value)
        match skipBlank rest with
        | ',' :: rest =>
          let (members, rest) ← members? fuel rest
          return (entry :: members, rest)
        | '}' :: rest => return ([entry], rest)
        | _ => none
      | _ => none
    | _ => none

end

/-- Read a text that is one value with blanks around it. -/
def read? (text : String) : Option Json := do
  let cs := text.toList
  let (value, rest) ← value? (2 * cs.length + 2) cs
  if (skipBlank rest).isEmpty then return value else none

/-! ### Records -/

/-- The text of a string. -/
def text? : Json → Option String
  | string text? => text?
  | _ => none

/-- The value of a truth value. -/
def bool? : Json → Option Bool
  | boolean value => some value
  | _ => none

/-- The values given for the fields of a record, in the order of the fields.  A record
is an object, in which fields may be missing and others may be present, but each field
at most once and no key without text; or an array of the values of the first fields. -/
def fields? (names : List String) : Json → Option (List (Option Json))
  | array items =>
    if items.length ≤ names.length then
      some (items.map some ++ List.replicate (names.length - items.length) none)
    else none
  | object members =>
    if members.all (·.1.isSome) &&
        names.all (fun name => (members.filter (·.1 == some name)).length ≤ 1) then
      some (names.map fun name => (members.find? (·.1 == some name)).map (·.2))
    else none
  | _ => none

/-- The value of a field, or the default if it is missing. -/
def field? {α : Type} (read? : Json → Option α) (default : α) : Option Json → Option α
  | none => some default
  | some value => read? value

end Json

end LoopLowering.Text
