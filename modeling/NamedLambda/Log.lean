import NamedLambda.Report

/-!
# Log lines

What a run did, as events of graded importance. The events are taken from the
results of the run; nothing is written while it goes on.
-/

namespace NamedLambda

/-- From the least important on. -/
inductive LogLevel where
  | trace
  | debug
  | info
  | warn
  | error
deriving DecidableEq

namespace LogLevel

def name : LogLevel → String
  | trace => "TRACE"
  | debug => "DEBUG"
  | info => "INFO"
  | warn => "WARN"
  | error => "ERROR"

def rank : LogLevel → Nat
  | trace => 0
  | debug => 1
  | info => 2
  | warn => 3
  | error => 4

/-- The level that so many requests for more output ask for. -/
def ofVerbosity : Nat → LogLevel
  | 0 => warn
  | 1 => debug
  | _ => trace

end LogLevel

inductive LogEvent where
  | contracting (step : Nat) (before : Reduction.Step)
  | normalForm (steps : Nat) (strategy : Strategy)
  | boundReached (steps : Nat) (strategy : Strategy)
  | instantiated (name : Name) (ty : Ty)
  | unified (application : Term) (subst : TypeSubst)
  | inferred (term : Term) (ty : Ty)
  | untypeable (term : Term) (error : TypeError)
  | batchComplete (summary : Summary)

namespace LogEvent

def level : LogEvent → LogLevel
  | contracting .. | instantiated .. | unified .. => .trace
  | normalForm .. | inferred .. | untypeable .. => .debug
  | batchComplete .. => .info
  | boundReached .. => .warn

def message : LogEvent → String
  | contracting .. => "contracting"
  | normalForm .. => "reached normal form"
  | boundReached .. => "step bound reached before normal form"
  | instantiated .. => "instantiated"
  | unified .. => "unified application"
  | inferred .. => "inferred type"
  | untypeable .. => "inference failed"
  | batchComplete .. => "batch complete"

def pathText (path : Path) : String := "[" ++ ", ".intercalate (path.map toString) ++ "]"

def values : LogEvent → List (String × String)
  | contracting k s =>
    [("step", toString k), ("term", s.term.text .named), ("path", pathText s.path)]
  | normalForm steps strategy | boundReached steps strategy =>
    [("steps", toString steps), ("strategy", strategy.name)]
  | instantiated x ty => [("name", x), ("ty", ty.text)]
  | unified t s => [("term", t.text .named), ("subst", s.text)]
  | inferred t ty => [("term", t.text .named), ("ty", ty.text)]
  | untypeable t e => [("term", t.text .named), ("error", e.message)]
  | batchComplete s =>
    [("terms", toString s.totalTerms), ("steps", toString s.totalSteps),
      ("converged", toString s.converged), ("typed", toString s.typed)]

def line (e : LogEvent) : String :=
  "".pushn ' ' (5 - e.level.name.length) ++ e.level.name ++ " " ++
    " ".intercalate (e.message :: e.values.map fun v => v.1 ++ "=" ++ v.2)

/-- The lines of the events that are important enough. -/
def lines (level : LogLevel) (events : List LogEvent) : List String :=
  (events.filter fun e => level.rank ≤ e.level.rank).map line

end LogEvent

/-- One event for each kept step, and one for how the run ended. -/
def Reduction.events (r : Reduction) (strategy : Strategy) : List LogEvent :=
  r.trace.mapIdx .contracting ++
    [if r.terminated then .normalForm r.steps strategy else .boundReached r.steps strategy]

/-- The inference of a term's type, with what happened on the way. -/
def Context.inferLogged (Γ : Context) (t : Term) : Except TypeError Inference × List LogEvent :=
  let steps (s : Inferencer) : List LogEvent := s.log.reverse.map fun
    | .instantiated x ty => .instantiated x ty
    | .unified t s => .unified t s
  match (Inferencer.infer Γ t).run (.forContext Γ) with
  | .ok r s => (.ok r, steps s ++ [.inferred t r.ty])
  | .error e s => (.error e, steps s ++ [.untypeable t e])

theorem Context.inferLogged_fst (Γ : Context) (t : Term) : (Γ.inferLogged t).1 = Γ.infer t := by
  simp only [inferLogged, infer, answer]
  split <;> simp_all

end NamedLambda
