import NamedLambda.Json.Reader
import NamedLambda.Normalization

/-!
# Records as texts

A kind of record is declared by its fields, each with a name, a type and a default. What turns
such records into texts and back is a parameter, a `RecordCodec`: one half of it writes and reads
JSON, the other half goes between JSON and the values of declared fields. The program runs with
`RecordCodec.json`. Settings are records with four fields.
-/

namespace NamedLambda

/-- The cases of a choice are given by their identifiers. -/
inductive FieldType where
  | count
  | flag
  | choice (cases : List String)

inductive FieldValue where
  | count (n : Nat)
  | flag (b : Bool)
  | choice (identifier : String)
deriving DecidableEq

structure Field where
  name : String
  type : FieldType
  default : FieldValue

structure RecordCodec where
  write : Json → String
  read? : String → Option Json
  encodeCase : String → Json
  decodeCase? : (cases : List String) → Json → Option String
  encode : List Field → List FieldValue → Json
  decode? : List Field → Json → Option (List FieldValue)

/-- A hyphen goes before each capital letter but the first, and all letters are small. -/
def kebabCase (identifier : String) : String :=
  match identifier.toList with
  | [] => ""
  | c :: cs => String.ofList
      (c.toLower :: cs.flatMap fun d => if d.isUpper then ['-', d.toLower] else [d])

namespace Json

def ofCase (identifier : String) : Json := ofString (kebabCase identifier)

/-- A case by its name, or by its name as the key of a single `null`. -/
def case? (cases : List String) (j : Json) : Option String := do
  let name ← match j with
    | object [(key, null)] => decode? key
    | j => j.text?
  cases.find? (kebabCase · = name)

def ofFieldValue : FieldValue → Json
  | .count n => ofNat n
  | .flag b => bool b
  | .choice identifier => ofCase identifier

def fieldValue? : FieldType → Json → Option FieldValue
  | .count, j => FieldValue.count <$> j.natBelow? UInt64.size
  | .flag, j => FieldValue.flag <$> j.bool?
  | .choice cases, j => FieldValue.choice <$> j.case? cases

def ofRecord (fields : List Field) (values : List FieldValue) : Json :=
  object (fields.zipWith (fun f v => (f.name, ofFieldValue v)) values)

/-- The value at the key of a field, or the default if the key is missing. No key of a field may
come twice, and other keys are passed over. -/
def member? (members : List (String × Json)) (f : Field) : Option FieldValue :=
  match members.filter (·.1 = f.name) with
  | [] => some f.default
  | [m] => fieldValue? f.type m.2
  | _ => none

/-- An array gives the values in the order of the fields, and may end early. -/
def record? (fields : List Field) : Json → Option (List FieldValue)
  | object members => do
    let members ← members.mapM fun m => return (← decode? m.1, m.2)
    fields.mapM (member? members)
  | array items =>
    if items.length ≤ fields.length then fields.mapM (member? ((fields.map Field.name).zip items))
    else none
  | _ => none

end Json

def RecordCodec.json : RecordCodec where
  write := Json.compact
  read? := Json.parse?
  encodeCase := Json.ofCase
  decodeCase? := Json.case?
  encode := Json.ofRecord
  decode? := Json.record?

namespace Strategy

def identifier : Strategy → String
  | normalOrder => "NormalOrder"
  | applicative => "Applicative"

def identifiers : List String := [normalOrder, applicative].map identifier

def ofIdentifier? (text : String) : Option Strategy :=
  [normalOrder, applicative].find? (·.identifier = text)

end Strategy

namespace Settings

def values (s : Settings) : List FieldValue :=
  [.count s.maxSteps, .choice s.strategy.identifier, .flag s.eta, .flag s.trace]

def ofValues? : List FieldValue → Option Settings
  | [.count maxSteps, .choice identifier, .flag eta, .flag trace] => do
    return { maxSteps, strategy := ← Strategy.ofIdentifier? identifier, eta, trace }
  | _ => none

def fields : List Field :=
  let d : Settings := {}
  [⟨"max_steps", .count, .count d.maxSteps⟩,
    ⟨"strategy", .choice Strategy.identifiers, .choice d.strategy.identifier⟩,
    ⟨"eta", .flag, .flag d.eta⟩,
    ⟨"trace", .flag, .flag d.trace⟩]

def toText (codec : RecordCodec) (s : Settings) : String :=
  codec.write (codec.encode fields s.values)

def ofText? (codec : RecordCodec) (text : String) : Option Settings := do
  ofValues? (← codec.decode? fields (← codec.read? text))

def toJson (s : Settings) : Json := RecordCodec.json.encode fields s.values

def parse? (text : String) : Option Settings := ofText? .json text

end Settings

end NamedLambda
