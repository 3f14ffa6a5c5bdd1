import NamedLambda.Term.Contraction

/-!
# Reduction to normal form within a bound

A reduction fires one redex after another until none is left or the bound on the number of steps
is reached. Only the bound guards against terms without a normal form. All steps of one run share
one name supply. The settings say how far a term is reduced, and how.
-/

namespace NamedLambda

structure Settings where
  /-- The number of contractions before a run is given up. -/
  maxSteps : Nat := 10000
  strategy : Strategy := .normalOrder
  /-- Whether a normal form is eta-reduced too. -/
  eta : Bool := false
  /-- Whether the steps are kept. -/
  trace : Bool := false
deriving DecidableEq, Inhabited

namespace Reduction

/-- A term before a contraction, and the position that was fired in it. -/
structure Step where
  term : Term
  path : Path
deriving DecidableEq

end Reduction

/-- Where the run did not terminate, `term` is the last term reached. -/
structure Reduction where
  term : Term
  steps : Nat
  terminated : Bool
  trace : List Reduction.Step
deriving DecidableEq

structure Divergence where
  steps : Nat
  lastTerm : Term
deriving DecidableEq

def Divergence.message (d : Divergence) : String :=
  s!"no normal form within {d.steps} steps"

namespace Reduction

def normalForm (r : Reduction) : Except Divergence Term :=
  if r.terminated then .ok r.term else .error ⟨r.steps, r.term⟩

/-- Goes on for `budget` more contractions at most; `past` holds the steps so far, the last one
first. A term without a redex ends the run also where the budget is spent. -/
def run (strategy : Strategy) (keepSteps : Bool) (t : Term) (names : NameSupply) (steps : Nat)
    (past : List Step) (budget : Nat) : Reduction :=
  match strategy.findRedex t with
  | none => ⟨t, steps, true, past.reverse⟩
  | some path =>
    match budget with
    | 0 => ⟨t, steps, false, past.reverse⟩
    | budget + 1 =>
      let (t', names') := t.contractAt path names
      run strategy keepSteps t' names' (steps + 1)
        (if keepSteps then ⟨t, path⟩ :: past else past) budget

section

variable (strategy : Strategy) (keepSteps : Bool) (t : Term) (names : NameSupply) (steps : Nat)
  (past : List Step)

theorem run_zero : run strategy keepSteps t names steps past 0 =
    ⟨t, steps, (strategy.findRedex t).isNone, past.reverse⟩ := by
  rw [run]
  cases strategy.findRedex t <;> rfl

theorem run_succ (budget : Nat) : run strategy keepSteps t names steps past (budget + 1) =
    match t.contract strategy names with
    | none => ⟨t, steps, true, past.reverse⟩
    | some c =>
      run strategy keepSteps c.term c.names (steps + 1)
        (if keepSteps then ⟨t, c.path⟩ :: past else past) budget := by
  rw [run, Term.contract]
  cases strategy.findRedex t <;> rfl

end

end Reduction

/-- Reduces a term as the settings say. Eta reduction comes last, and only
after a normal form was reached. -/
def Settings.reduce (settings : Settings) (t : Term) : Reduction :=
  let r := Reduction.run settings.strategy settings.trace t .new 0 [] settings.maxSteps
  if r.terminated && settings.eta then { r with term := r.term.etaReduce } else r

def Term.normalize (t : Term) (maxSteps : Nat) (strategy : Strategy) : Reduction :=
  { maxSteps, strategy : Settings }.reduce t

end NamedLambda
