import NamedLambda.CommandLine.Command
import NamedLambda.Decimal
import NamedLambda.Log
import NamedLambda.Report
import NamedLambda.Record
import NamedLambda.Vocabulary

/-!
# Running commands

Running a command gives its results, and these give the lines to print and the
exit code. Neither step touches files or clocks: the configuration and the time
that passed are given from outside.
-/

namespace NamedLambda.CommandLine

/-- Why a command failed. -/
inductive Failure where
  | config (path cause : String)
  | numeral (name : Name)
  | unknownTerm (name : Name)
  | divergence (d : Divergence)
  | untypeable (term : Term) (e : TypeError)

namespace Failure

def message : Failure → String
  | config path _ => "loading config " ++ path
  | numeral name => "numeral " ++ name ++ " is larger than " ++ toString Vocabulary.maxNumeral
  | unknownTerm name => "unknown term `" ++ name ++ "` (see `lambda-calc list`)"
  | divergence d => d.message
  | untypeable t _ => "cannot type " ++ t.text .named

def cause? : Failure → Option String
  | config _ cause => some cause
  | untypeable _ e => some e.message
  | _ => none

def lines (f : Failure) : List String :=
  ("Error: " ++ f.message) :: match f.cause? with
    | none => []
    | some cause => ["", "Caused by:", "    " ++ cause]

end Failure

structure Outcome where
  code : Nat
  stdout : List String
  stderr : List String

namespace Outcome

def success (stdout : List String) (stderr : List String) : Outcome := ⟨0, stdout, stderr⟩

def failure (f : Failure) (stdout log : List String) : Outcome := ⟨1, stdout, log ++ f.lines⟩

def misuse : Outcome := ⟨2, [], usage⟩

end Outcome

/-- The term of a name. A name of digits, or an empty one, fails as a
numeral. -/
def termOfName (name : Name) : Except Failure Term :=
  match Vocabulary.lookup name with
  | some t => .ok t
  | none => .error (if name.toList.all Char.isDigit then .numeral name else .unknownTerm name)

/-- A named term applied to others. The first name that fails decides. -/
def termOfNames (head : Name) (args : List Name) : Except Failure Term := do
  return (← termOfName head).apply (← args.mapM termOfName)

/-- The settings of a file, overridden by the options. -/
def ReduceOptions.settings (options : ReduceOptions) (base : Settings) : Settings where
  maxSteps := options.maxSteps.getD base.maxSteps
  strategy := options.strategy.getD base.strategy
  eta := base.eta || options.eta
  trace := base.trace || options.trace

/-- The settings of a configuration file's text, where there is one. -/
def ReduceOptions.baseSettings (options : ReduceOptions) (text? : Option String) :
    Except Failure Settings :=
  match options.configPath with
  | none => .ok {}
  | some path =>
    match text? with
    | none => .error (.config path "failed to read config")
    | some text =>
      match Settings.parse? text with
      | none => .error (.config path "invalid config")
      | some settings => .ok settings

inductive Result where
  | failed (f : Failure)
  | reduced (input : Term) (settings : Settings) (json : Bool) (r : Reduction)
  | inferred (t : Term) (json : Bool) (answer : Except TypeError Inference)
  | batched (workers : Nat) (json : Bool) (summary : Summary)
  | listed

structure Finished where
  result : Result
  log : List LogEvent

def runReduce (level : LogLevel) (t : Term) (settings : Settings) (json : Bool) : Finished :=
  let keepSteps := settings.trace || level = .trace
  let r := { settings with trace := keepSteps }.reduce t
  let shown := if settings.trace then r else { r with trace := [] }
  ⟨.reduced t settings json shown, r.events settings.strategy⟩

/-- All terms are reduced before the first type is inferred. -/
def runBatch (level : LogLevel) (options : BatchOptions) : Finished :=
  let settings : Settings :=
    { maxSteps := options.maxSteps, strategy := options.strategy, trace := level = .trace }
  let terms := options.limits.drawMany options.terms (UInt64.ofNat options.seed)
  let reductions := terms.map settings.reduce
  let inferences := terms.map (Context.inferLogged ∅)
  let summary := Summary.ofBatch ⟨reductions, inferences.map (·.1)⟩
  ⟨.batched options.workers options.json summary,
    reductions.flatMap (·.events settings.strategy) ++ inferences.flatMap (·.2) ++
      [.batchComplete summary]⟩

/-- Runs a command. `config` is the text of the configuration file that the
command names, if the file could be read. -/
def Command.run (level : LogLevel) (config : Option String) : Command → Finished
  | .reduce head args options =>
    let input := do
      let base ← options.baseSettings config
      return (← termOfNames head args, options.settings base)
    match input with
    | .error f => ⟨.failed f, []⟩
    | .ok (t, settings) => runReduce level t settings options.json
  | .infer head args json =>
    match termOfNames head args with
    | .error f => ⟨.failed f, []⟩
    | .ok t =>
      let (answer, log) := Context.inferLogged ∅ t
      ⟨.inferred t json answer, log⟩
  | .batch options => runBatch level options
  | .list => ⟨.listed, []⟩

def padLeft (width : Nat) (text : String) : String := "".pushn ' ' (width - text.length) ++ text

def padRight (width : Nat) (text : String) : String := text ++ "".pushn ' ' (width - text.length)

def listLines : List String :=
  Vocabulary.entries.map (fun e => padRight 6 e.1 ++ " " ++ e.2.text .named) ++
    [padRight 6 "0.." ++ " Church numeral up to " ++ toString Vocabulary.maxNumeral]

def summaryLines (workers : Nat) (s : Summary) (elapsed : Float) : List String := [
  "Workers: " ++ toString workers,
  "Terms: " ++ toString s.totalTerms,
  "  Total time: " ++ Decimal.writeFixed 2 elapsed ++ "ms",
  "  Avg steps/term: " ++ Decimal.writeFixed 2 s.averageSteps,
  "  Throughput: " ++ Decimal.writeFixed 0 (s.throughput elapsed) ++ " terms/s",
  "  Convergence: " ++ Decimal.writeFixed 1 (s.convergenceRate * 100) ++ "%",
  "  Typeable: " ++ toString s.typed ++ "/" ++ toString s.totalTerms]

def reducedOutcome (r : Reduction) (strategy : Strategy) (log : List String) : Outcome :=
  let steps := r.trace.mapIdx fun k s => padLeft 4 (toString k) ++ "  " ++ s.term.text .named
  match r.normalForm with
  | .ok t =>
    .success (steps ++ [t.text .named])
      (log ++ [s!"normal form after {r.steps} steps (" ++ strategy.name ++ ")"])
  | .error d => .failure (.divergence d) (steps ++ [d.lastTerm.text .named]) log

/-- The lines to print after a run that took so many milliseconds. -/
def Finished.outcome (run : Finished) (level : LogLevel) (elapsed : Float) : Outcome :=
  let log := LogEvent.lines level run.log
  match run.result with
  | .failed f => .failure f [] log
  | .reduced input settings json r =>
    if json then .success ((r.report input settings.strategy).toJson elapsed).lines log
    else reducedOutcome r settings.strategy log
  | .inferred t json answer =>
    if json then .success (InferenceReport.of t answer).toJson.lines log
    else match answer with
      | .ok r => .success [t.text .named ++ " : " ++ r.principal.text] log
      | .error e => .failure (.untypeable t e) [] log
  | .batched workers json summary =>
    if json then .success (summary.toJson elapsed).lines log
    else .success (summaryLines workers summary elapsed) log
  | .listed => .success listLines log

end NamedLambda.CommandLine
