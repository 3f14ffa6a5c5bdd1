import NamedLambda.Json

/-!
# Reading JSON

The text is cut into tokens character by character. Between the tokens only space, tab, and the
two line ends may stand; inside a string control characters are refused, and so is a backslash
that opens no escape. The tokens are then taken one by one. The arrays and objects around the
place where the reading stands lie on a stack, so nesting has no limit. Commas stand between items
only, and a key may come twice.
-/

namespace NamedLambda.Json

inductive Token where
  | openObject
  | closeObject
  | openArray
  | closeArray
  | colon
  | comma
  /-- A run of letters, digits, signs and points. -/
  | word (text : String)
  /-- A string as it is written between its quotes. -/
  | string (written : String)
deriving DecidableEq

namespace Token

/-- Where the reading stands; what was read of a token comes last first. -/
inductive Mode where
  | between
  | word (read : List Char)
  | string (read : List Char)
  | escape (read : List Char)
  | hex (read : List Char) (missing : Nat)

def punctuation? : Char → Option Token
  | '\x7b' => some openObject
  | '\x7d' => some closeObject
  | '[' => some openArray
  | ']' => some closeArray
  | ':' => some colon
  | ',' => some comma
  | _ => none

def isBlank (c : Char) : Bool := c = ' ' || c = '\t' || c = '\n' || c = '\r'

def isWordChar (c : Char) : Bool := c.isAlphanum || c = '-' || c = '+' || c = '.'

def wordToken (read : List Char) : Token := word (String.ofList read.reverse)

def start (c : Char) : Option (List Token × Mode) :=
  if isBlank c then some ([], .between)
  else if c = '"' then some ([], .string [])
  else if isWordChar c then some ([], .word [c])
  else (punctuation? c).map fun t => ([t], .between)

/-- The tokens that a character completes, and where the reading stands after
it. -/
def step : Mode → Char → Option (List Token × Mode)
  | .between, c => start c
  | .word read, c =>
    if isWordChar c then some ([], .word (c :: read))
    else (start c).map fun (tokens, mode) => (wordToken read :: tokens, mode)
  | .string read, c =>
    if c = '"' then some ([string (String.ofList read.reverse)], .between)
    else if c = '\\' then some ([], .escape (c :: read))
    else if c.toNat < 32 then none
    else some ([], .string (c :: read))
  | .escape read, c =>
    if c = 'u' then some ([], .hex (c :: read) 4)
    else if (escaped? c).isSome then some ([], .string (c :: read))
    else none
  | .hex read missing, c =>
    if (hexValue? c).isSome then
      some ([], if missing ≤ 1 then .string (c :: read) else .hex (c :: read) (missing - 1))
    else none

/-- A string must be closed at the end. -/
def finish : Mode → Option (List Token)
  | .between => some []
  | .word read => some [wordToken read]
  | _ => none

/-- The tokens so far, the last one first, and where the reading stands. -/
def advance (state : List Token × Mode) (c : Char) : Option (List Token × Mode) := do
  let (tokens, mode) ← step state.2 c
  return (tokens.reverse ++ state.1, mode)

def read? (text : String) : Option (List Token) := do
  let (tokens, mode) ← text.toList.foldlM advance ([], .between)
  return tokens.reverse ++ (← finish mode)

end Token

/-- What is open around a value: an array with its items so far, or an object
with its fields so far and the key of the value. The last ones come first. -/
inductive Frame where
  | item (items : List Json)
  | field (fields : List (String × Json)) (key : String)

/-- What may come next. -/
inductive Reading where
  | value (stack : List Frame)
  | arrayStart (stack : List Frame)
  | arrayNext (items : List Json) (stack : List Frame)
  | objectStart (stack : List Frame)
  | key (fields : List (String × Json)) (stack : List Frame)
  | colon (fields : List (String × Json)) (key : String) (stack : List Frame)
  | objectNext (fields : List (String × Json)) (stack : List Frame)
  | done (value : Json)

namespace Reading

/-- A value is complete. -/
def close (v : Json) : List Frame → Reading
  | [] => done v
  | .item items :: stack => arrayNext (v :: items) stack
  | .field fields k :: stack => objectNext ((k, v) :: fields) stack

end Reading

def dropDigits? (cs : List Char) : Option (List Char) :=
  if (cs.takeWhile Char.isDigit).isEmpty then none else some (cs.dropWhile Char.isDigit)

/-- No digit may follow a leading zero. -/
def dropWhole? : List Char → Option (List Char)
  | '0' :: rest => some rest
  | cs => dropDigits? cs

def dropFraction? : List Char → Option (List Char)
  | '.' :: rest => dropDigits? rest
  | cs => some cs

def dropSign : List Char → List Char
  | '+' :: rest | '-' :: rest => rest
  | cs => cs

def dropExponent? : List Char → Option (List Char)
  | 'e' :: rest | 'E' :: rest => dropDigits? (dropSign rest)
  | cs => some cs

def isNumber (cs : List Char) : Bool :=
  let unsigned := match cs with
    | '-' :: rest => rest
    | _ => cs
  ((dropWhole? unsigned).bind dropFraction?).bind dropExponent? == some []

def ofWord? (word : String) : Option Json :=
  if word = "null" then some null
  else if word = "true" then some (bool true)
  else if word = "false" then some (bool false)
  else if isNumber word.toList then some (number word)
  else none

namespace Reading

/-- A token where a value is due. -/
def takeValue (stack : List Frame) : Token → Option Reading
  | .openObject => some (objectStart stack)
  | .openArray => some (arrayStart stack)
  | .string written => some (close (Json.string written) stack)
  | .word text => (ofWord? text).map (close · stack)
  | _ => none

def take : Reading → Token → Option Reading
  | value stack, t => takeValue stack t
  | arrayStart stack, .closeArray => some (close (array []) stack)
  | arrayStart stack, t => takeValue (.item [] :: stack) t
  | arrayNext items stack, .comma => some (value (.item items :: stack))
  | arrayNext items stack, .closeArray => some (close (array items.reverse) stack)
  | objectStart stack, .closeObject => some (close (object []) stack)
  | objectStart stack, .string k => some (colon [] k stack)
  | key fields stack, .string k => some (colon fields k stack)
  | colon fields k stack, .colon => some (value (.field fields k :: stack))
  | objectNext fields stack, .comma => some (key fields stack)
  | objectNext fields stack, .closeObject => some (close (object fields.reverse) stack)
  | _, _ => none

end Reading

def ofTokens? (tokens : List Token) : Option Json := do
  match ← tokens.foldlM Reading.take (.value []) with
  | .done v => some v
  | _ => none

def parse? (text : String) : Option Json := do ofTokens? (← Token.read? text)

end NamedLambda.Json
