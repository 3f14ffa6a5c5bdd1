import NamedLambda.CommandLine.Run

/-!
# The program

Reads the arguments and the configuration file, runs the command, and prints
what it gives.
-/

namespace NamedLambda.CommandLine

/-- The file that a command wants to read. -/
def Command.configPath? : Command → Option String
  | .reduce _ _ options => options.configPath
  | _ => none

def readConfig (path? : Option String) : IO (Option String) :=
  match path? with
  | none => return none
  | some path =>
    try return some (← IO.FS.readFile path)
    catch _ => return none

def Outcome.print (o : Outcome) : IO UInt32 := do
  for line in o.stdout do
    IO.println line
  for line in o.stderr do
    IO.eprintln line
  return UInt32.ofNat o.code

def runInvocation (i : Invocation) : IO UInt32 := do
  let level := LogLevel.ofVerbosity i.verbosity
  let config ← readConfig i.command.configPath?
  let start ← IO.monoNanosNow
  let finished ← IO.lazyPure fun _ => i.command.run level config
  let stop ← IO.monoNanosNow
  (finished.outcome level (Float.ofNat (stop - start) / 1000000)).print

end NamedLambda.CommandLine

open NamedLambda.CommandLine in
def main (args : List String) : IO UInt32 :=
  match Invocation.ofArguments? args with
  | none => Outcome.misuse.print
  | some i => runInvocation i
