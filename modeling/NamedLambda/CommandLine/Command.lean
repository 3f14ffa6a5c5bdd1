import NamedLambda.CommandLine.Option
import NamedLambda.Sampling
import NamedLambda.Normalization

/-!
# Commands

What the program can be asked for, and how it is asked on the command line.
-/

namespace NamedLambda.CommandLine

structure ReduceOptions where
  configPath : Option String
  strategy : Option Strategy
  maxSteps : Option Nat
  eta : Bool
  trace : Bool
  json : Bool

structure BatchOptions where
  terms : Nat
  workers : Nat
  limits : Limits
  maxSteps : Nat
  strategy : Strategy
  seed : Nat
  json : Bool

inductive Command where
  /-- Reduces a named term applied to others. -/
  | reduce (head : Name) (args : List Name) (options : ReduceOptions)
  | infer (head : Name) (args : List Name) (json : Bool)
  | batch (options : BatchOptions)
  | list

/-- A command, and how often more log output was asked for. -/
structure Invocation where
  verbosity : Nat
  command : Command

namespace Command

def verboseSpec : OptionSpec := ⟨"verbose", some 'v', false⟩

def flagSpec (name : String) : OptionSpec := ⟨name, none, false⟩

def valueSpec (name : String) (letter : Option Char := none) : OptionSpec := ⟨name, letter, true⟩

def reduceSpecs : List OptionSpec :=
  [verboseSpec, valueSpec "config", valueSpec "strategy" (some 's'), valueSpec "max-steps",
    flagSpec "eta", flagSpec "trace", flagSpec "json"]

def inferSpecs : List OptionSpec := [verboseSpec, flagSpec "json"]

def batchSpecs : List OptionSpec :=
  [verboseSpec, valueSpec "terms" (some 't'), valueSpec "workers" (some 'w'),
    valueSpec "max-depth", valueSpec "min-depth", valueSpec "max-size", valueSpec "max-steps",
    valueSpec "strategy" (some 's'), valueSpec "seed", flagSpec "json"]

def nonempty? (text : String) : Option String := if text.isEmpty then none else some text

def reduceOf? (a : Arguments) : Option Command := do
  let head :: args := a.operands | none
  return .reduce head args {
    configPath := ← a.value? "config" nonempty?
    strategy := ← a.value? "strategy" Strategy.ofName?
    maxSteps := ← a.value? "max-steps" natural?
    eta := ← a.flag? "eta"
    trace := ← a.flag? "trace"
    json := ← a.flag? "json" }

def inferOf? (a : Arguments) : Option Command := do
  let head :: args := a.operands | none
  return .infer head args (← a.flag? "json")

def batchOf? (a : Arguments) : Option Command := do
  guard a.operands.isEmpty
  let number (name : String) (default : Nat) : Option Nat :=
    (a.value? name natural?).map (·.getD default)
  let d : Limits := {}
  return .batch {
    terms := ← number "terms" 1000
    workers := ← number "workers" 1
    limits := {
      maxDepth := ← number "max-depth" d.maxDepth
      minDepth := ← number "min-depth" d.minDepth
      maxSize := ← number "max-size" d.maxSize }
    maxSteps := ← number "max-steps" 1000
    strategy := (← a.value? "strategy" Strategy.ofName?).getD .normalOrder
    seed := ← number "seed" 42
    json := ← a.flag? "json" }

def listOf? (a : Arguments) : Option Command :=
  if a.operands.isEmpty then some .list else none

def find? : String → Option (List OptionSpec × (Arguments → Option Command))
  | "reduce" => some (reduceSpecs, reduceOf?)
  | "infer" => some (inferSpecs, inferOf?)
  | "batch" => some (batchSpecs, batchOf?)
  | "list" => some ([verboseSpec], listOf?)
  | _ => none

end Command

/-- Requests for log output after the command's name count instead of those
before it. -/
def Invocation.ofArguments? (args : List String) : Option Invocation := do
  let (before, name, rest) ← leading? [Command.verboseSpec] args
  let (specs, make) ← Command.find? name
  let a ← readFrom? specs none rest
  let after := a.count "verbose"
  return ⟨if after = 0 then before.length else after, ← make a⟩

def usage : List String := [
  "Usage: lambda-calc [-v]... <COMMAND>",
  "",
  "Commands:",
  "  reduce <NAMES>...  reduce a term to normal form",
  "      [--config FILE] [-s STRATEGY] [--max-steps N] [--eta] [--trace] [--json]",
  "  infer <NAMES>...   infer the principal type of a term [--json]",
  "  batch              reduce and type random closed terms",
  "      [-t TERMS] [-w WORKERS] [--max-depth N] [--min-depth N] [--max-size N]",
  "      [--max-steps N] [-s STRATEGY] [--seed N] [--json]",
  "  list               list the known names"]

end NamedLambda.CommandLine
