import NamedLambda.Decimal

/-!
# Options and operands on a command line

An option starts with a hyphen and is known by a long name and perhaps by a
letter. Its value is attached (`--seed=7`, `-t7`, `-t=7`) or is the next
argument, which then must not look like an option. Letters without values may
share a hyphen. A hyphen alone is an operand, and so is all that follows `--`.
-/

namespace NamedLambda.CommandLine

structure OptionSpec where
  name : String
  letter : Option Char
  takesValue : Bool

/-- One use of an option. -/
structure Use where
  name : String
  value : Option String
deriving DecidableEq

structure Arguments where
  uses : List Use
  operands : List String

namespace Arguments

def empty : Arguments := ⟨[], []⟩

def addUse (name : String) (value : Option String) (a : Arguments) : Arguments :=
  ⟨⟨name, value⟩ :: a.uses, a.operands⟩

def addOperand (text : String) (a : Arguments) : Arguments := ⟨a.uses, text :: a.operands⟩

end Arguments

/-- The uses in one argument. The last may lack its value. -/
structure Cluster where
  uses : List Use
  pending : Option String

def splitValue (text : List Char) : String × Option String :=
  match text.span (· ≠ '=') with
  | (name, []) => (String.ofList name, none)
  | (name, _ :: value) => (String.ofList name, some (String.ofList value))

/-- An argument with two hyphens. -/
def longUse? (specs : List OptionSpec) (text : List Char) : Option Cluster := do
  let (name, value) := splitValue text
  let spec ← specs.find? (·.name = name)
  match spec.takesValue, value with
  | true, none => some ⟨[], some name⟩
  | false, some _ => none
  | _, value => some ⟨[⟨name, value⟩], none⟩

/-- The letters behind one hyphen. -/
def letterUses? (specs : List OptionSpec) : List Char → Option Cluster
  | [] => some ⟨[], none⟩
  | c :: rest => do
    let spec ← specs.find? (·.letter = some c)
    if spec.takesValue then
      match rest with
      | [] => some ⟨[], some spec.name⟩
      | '=' :: value => some ⟨[⟨spec.name, some (String.ofList value)⟩], none⟩
      | value => some ⟨[⟨spec.name, some (String.ofList value)⟩], none⟩
    else
      let later ← letterUses? specs rest
      some ⟨⟨spec.name, none⟩ :: later.uses, later.pending⟩

def looksLikeOption (arg : String) : Bool :=
  match arg.toList with
  | '-' :: _ :: _ => true
  | _ => false

/-- The uses in an argument that looks like an option. -/
def cluster? (specs : List OptionSpec) (arg : String) : Option Cluster :=
  match arg.toList with
  | '-' :: '-' :: text => longUse? specs text
  | '-' :: letters => letterUses? specs letters
  | _ => none

/-- Reads the arguments after an option that waits for its value, or after
none. -/
def readFrom? (specs : List OptionSpec) : (pending : Option String) → List String →
    Option Arguments
  | none, [] => some .empty
  | some _, [] => none
  | some name, arg :: rest =>
    if looksLikeOption arg then none
    else (readFrom? specs none rest).map (·.addUse name (some arg))
  | none, arg :: rest =>
    if arg = "--" then some ⟨[], rest⟩
    else if looksLikeOption arg then do
      let cluster ← cluster? specs arg
      let later ← readFrom? specs cluster.pending rest
      some ⟨cluster.uses ++ later.uses, later.operands⟩
    else (readFrom? specs none rest).map (·.addOperand arg)

/-- The options before the first operand, the operand, and what follows it. -/
def leading? (specs : List OptionSpec) : List String → Option (List Use × String × List String)
  | [] => none
  | arg :: rest =>
    if arg = "--" then none
    else if looksLikeOption arg then do
      let cluster ← cluster? specs arg
      let (uses, operand, later) ← leading? specs rest
      if cluster.pending.isSome then none else some (cluster.uses ++ uses, operand, later)
    else some ([], arg, rest)

namespace Arguments

def count (a : Arguments) (name : String) : Nat := a.uses.countP (·.name = name)

/-- The value of an option that may be used once at most. -/
def value? {α : Type} (a : Arguments) (name : String) (read? : String → Option α) :
    Option (Option α) :=
  match a.uses.filter (·.name = name) with
  | [] => some none
  | [⟨_, some text⟩] => (read? text).map some
  | _ => none

/-- Whether a flag is set that may be used once at most. -/
def flag? (a : Arguments) (name : String) : Option Bool :=
  match a.count name with
  | 0 => some false
  | 1 => some true
  | _ => none

end Arguments

/-- A whole number of 64 bits; a plus sign and zeros may lead. -/
def natural? (text : String) : Option Nat :=
  let digits := match text.toList with
    | '+' :: rest => rest
    | cs => cs
  if !digits.isEmpty && digits.all Char.isDigit then Decimal.word? digits else none

end NamedLambda.CommandLine
