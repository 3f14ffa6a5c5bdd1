import NamedLambda.Decimal

/-!
# JSON values and how they are written

Numbers and strings are kept as they are written, so reading loses nothing; a string that is
looked at is decoded then. `compact` writes a value without any space. `lines` spreads it over
lines with two spaces for each level; an empty array or object stays on one line.
-/

namespace NamedLambda

inductive Json where
  | null
  | bool (value : Bool)
  | number (written : String)
  | string (written : String)
  | array (items : List Json)
  | object (fields : List (String × Json))

namespace Json

def hexDigit (n : Nat) : Char := Char.ofNat (if n < 10 then '0'.toNat + n else 'a'.toNat + n - 10)

/-- How a character is written in a string: quotes, backslashes and control
characters behind a backslash, all others as they are. -/
def encodeChar (c : Char) : List Char :=
  match c with
  | '"' => ['\\', '"']
  | '\\' => ['\\', '\\']
  | '\n' => ['\\', 'n']
  | '\r' => ['\\', 'r']
  | '\t' => ['\\', 't']
  | '\x08' => ['\\', 'b']
  | '\x0c' => ['\\', 'f']
  | c =>
    if c.toNat < 32 then ['\\', 'u', '0', '0', hexDigit (c.toNat / 16), hexDigit (c.toNat % 16)]
    else [c]

def encode (text : String) : String := String.ofList (text.toList.flatMap encodeChar)

def ofString (text : String) : Json := string (encode text)

def ofNat (n : Nat) : Json := number (toString n)

def hexValue? (c : Char) : Option Nat :=
  if c.isDigit then some (c.toNat - '0'.toNat)
  else if 'a' ≤ c ∧ c ≤ 'f' then some (c.toNat - 'a'.toNat + 10)
  else if 'A' ≤ c ∧ c ≤ 'F' then some (c.toNat - 'A'.toNat + 10)
  else none

/-- The characters that may follow a backslash by themselves. -/
def escaped? : Char → Option Char
  | '"' => some '"'
  | '\\' => some '\\'
  | '/' => some '/'
  | 'b' => some '\x08'
  | 'f' => some '\x0c'
  | 'n' => some '\n'
  | 'r' => some '\r'
  | 't' => some '\t'
  | _ => none

/-- The code points of a written string, halves of surrogate pairs apart. -/
def codePoints? : List Char → Option (List Nat)
  | [] => some []
  | '\\' :: 'u' :: a :: b :: c :: d :: rest => do
    let unit := 4096 * (← hexValue? a) + 256 * (← hexValue? b) + 16 * (← hexValue? c) +
      (← hexValue? d)
    return unit :: (← codePoints? rest)
  | '\\' :: c :: rest => do return (← escaped? c).toNat :: (← codePoints? rest)
  | c :: rest => do return c.toNat :: (← codePoints? rest)

/-- Two halves make one character; a half alone makes none. -/
def characters? : List Nat → Option (List Char)
  | [] => some []
  | [n] => if n.isValidChar then some [Char.ofNat n] else none
  | m :: n :: rest =>
    if 0xD800 ≤ m ∧ m < 0xDC00 ∧ 0xDC00 ≤ n ∧ n < 0xE000 then do
      let c := Char.ofNat (0x10000 + 0x400 * (m - 0xD800) + (n - 0xDC00))
      return c :: (← characters? rest)
    else if m.isValidChar then do return Char.ofNat m :: (← characters? (n :: rest))
    else none

/-- The text of a written string, unless it holds half a surrogate pair. -/
def decode? (written : String) : Option String := do
  return String.ofList (← characters? (← codePoints? written.toList))

def text? : Json → Option String
  | string written => decode? written
  | _ => none

def bool? : Json → Option Bool
  | bool b => some b
  | _ => none

/-- A whole number without sign, point and exponent, below `limit`. -/
def natBelow? (limit : Nat) : Json → Option Nat
  | number written =>
    let digits := written.toList
    if digits.all Char.isDigit then
      let n := digits.foldl (fun n c => 10 * n + (c.toNat - '0'.toNat)) 0
      if n < limit then some n else none
    else none
  | _ => none

/-- Infinities and NaN have no number and are written as `null`. -/
def ofFloat (x : Float) : Json :=
  match Decimal.writeShortest? x with
  | some text => number text
  | none => null

def quote (written : String) : String := "\"" ++ written ++ "\""

mutual

def compact : Json → String
  | null => "null"
  | bool b => if b then "true" else "false"
  | number written => written
  | string written => quote written
  | array items => "[" ++ ",".intercalate (compactItems items) ++ "]"
  | object fields => "\x7b" ++ ",".intercalate (compactFields fields) ++ "\x7d"

def compactItems : List Json → List String
  | [] => []
  | v :: rest => v.compact :: compactItems rest

def compactFields : List (String × Json) → List String
  | [] => []
  | (key, v) :: rest => (quote key ++ ":" ++ v.compact) :: compactFields rest

end

def appendToLast (text : String) : List String → List String
  | [] => []
  | [line] => [line ++ text]
  | line :: rest => line :: appendToLast text rest

def prependToFirst (text : String) : List String → List String
  | [] => []
  | line :: rest => (text ++ line) :: rest

def joinItems : List (List String) → List String
  | [] => []
  | [item] => item
  | item :: rest => appendToLast "," item ++ joinItems rest

def enclose (opening closing : String) (items : List (List String)) : List String :=
  if items.isEmpty then [opening ++ closing]
  else opening :: (joinItems items).map ("  " ++ ·) ++ [closing]

mutual

def lines : Json → List String
  | null => ["null"]
  | bool b => [if b then "true" else "false"]
  | number written => [written]
  | string written => [quote written]
  | array items => enclose "[" "]" (linesOfItems items)
  | object fields => enclose "\x7b" "\x7d" (linesOfFields fields)

def linesOfItems : List Json → List (List String)
  | [] => []
  | v :: rest => v.lines :: linesOfItems rest

def linesOfFields : List (String × Json) → List (List String)
  | [] => []
  | (key, v) :: rest => prependToFirst (quote key ++ ": ") v.lines :: linesOfFields rest

end

end Json

end NamedLambda
