import NamedLambda.Json
import NamedLambda.Normalization
import NamedLambda.Typing.Inference

/-!
# Batches and reports

A batch reduces every term and infers its type, each on its own, and sums up how that went.
Results are reported as flat records of texts and numbers, and as JSON. Times are in milliseconds
and are given from outside.
-/

namespace NamedLambda

structure Batch where
  reductions : List Reduction
  inferences : List (Except TypeError Inference)

def Batch.run (terms : List Term) (settings : Settings) (Γ : Context) : Batch :=
  ⟨terms.map settings.reduce, terms.map Γ.infer⟩

structure Summary where
  totalTerms : Nat
  totalSteps : Nat
  converged : Nat
  typed : Nat

namespace Summary

/-- Steps are counted in 64 bits. -/
def ofBatch (batch : Batch) : Summary where
  totalTerms := batch.reductions.length
  totalSteps := batch.reductions.foldl (fun n r => n + r.steps) 0 % UInt64.size
  converged := batch.reductions.countP (·.terminated)
  typed := batch.inferences.countP (·.isOk)

/-- Zero where there are no terms. -/
def perTerm (s : Summary) (n : Nat) : Float :=
  if s.totalTerms = 0 then 0 else Float.ofNat n / Float.ofNat s.totalTerms

def averageSteps (s : Summary) : Float := s.perTerm s.totalSteps

def convergenceRate (s : Summary) : Float := s.perTerm s.converged

/-- Terms in a second, for a batch that took so many milliseconds. -/
def throughput (s : Summary) (elapsed : Float) : Float :=
  if elapsed > 0 then Float.ofNat s.totalTerms / (elapsed / 1000) else 0

end Summary

/-- One contraction of a reported run. -/
structure StepReport where
  step : Nat
  term : String
  path : Path
  /-- Where the redex stands in the text of the term. -/
  span : Option Span

def StepReport.of (k : Nat) (s : Reduction.Step) : StepReport :=
  let layout := s.term.layout .named
  ⟨k, layout.text, s.path, layout.spanOf s.path⟩

structure ReductionReport where
  strategy : Strategy
  input : String
  result : String
  nameless : String
  steps : Nat
  terminated : Bool
  trace : List StepReport

def Reduction.report (r : Reduction) (input : Term) (strategy : Strategy) : ReductionReport where
  strategy
  input := input.text .named
  result := r.term.text .named
  nameless := r.term.text .nameless
  steps := r.steps
  terminated := r.terminated
  trace := r.trace.mapIdx StepReport.of

/-- Of the type and the error one is missing. -/
structure InferenceReport where
  term : String
  ty : Option String
  error : Option String

def InferenceReport.of (t : Term) : Except TypeError Inference → InferenceReport
  | .ok r => ⟨t.text .named, some r.principal.text, none⟩
  | .error e => ⟨t.text .named, none, some e.message⟩

namespace Json

def ofOption {α : Type} (f : α → Json) : Option α → Json
  | none => null
  | some a => f a

end Json

def StepReport.toJson (s : StepReport) : Json :=
  .object [
    ("step_k", .ofNat s.step),
    ("term", .ofString s.term),
    ("redex_path", .array (s.path.map .ofNat)),
    ("target_span", .ofOption (fun span => .array [.ofNat span.start, .ofNat span.stop]) s.span)]

/-- A report without steps has no entry for them. -/
def ReductionReport.toJson (r : ReductionReport) (elapsed : Float) : Json :=
  let trace := if r.trace.isEmpty then [] else [("trace", Json.array (r.trace.map (·.toJson)))]
  .object ([
    ("strategy", .ofString r.strategy.name),
    ("input", .ofString r.input),
    ("result", .ofString r.result),
    ("debruijn", .ofString r.nameless),
    ("steps", .ofNat r.steps),
    ("terminated", .bool r.terminated),
    ("total_time_ms", .ofFloat elapsed)] ++ trace)

def InferenceReport.toJson (r : InferenceReport) : Json :=
  .object [
    ("term", .ofString r.term),
    ("type", .ofOption .ofString r.ty),
    ("error", .ofOption .ofString r.error)]

def Summary.toJson (s : Summary) (elapsed : Float) : Json :=
  .object [
    ("total_terms", .ofNat s.totalTerms),
    ("total_steps", .ofNat s.totalSteps),
    ("converged", .ofNat s.converged),
    ("typed", .ofNat s.typed),
    ("total_time_ms", .ofFloat elapsed),
    ("avg_steps_per_term", .ofFloat s.averageSteps),
    ("convergence_rate", .ofFloat s.convergenceRate),
    ("throughput_terms_per_sec", .ofFloat (s.throughput elapsed))]

end NamedLambda
