import NamedLambda.Term.Nameless

/-!
# Beta and eta contraction

A strategy says which beta redex comes next. A contraction fires the redex at a position and
leaves the rest of the term as it is. In eta conversion `λx. f x` and `f` stand for each other
where `x` is not free in `f`.
-/

namespace NamedLambda

inductive Strategy where
  /-- The leftmost of the outermost redexes, which finds a normal form
  whenever there is one. -/
  | normalOrder
  /-- Function, then argument, then the redex around them. -/
  | applicative
deriving DecidableEq

namespace Strategy

instance : Inhabited Strategy := ⟨normalOrder⟩

def name : Strategy → String
  | normalOrder => "normal-order"
  | applicative => "applicative"

def ofName? : String → Option Strategy
  | "normal-order" | "normal" => some normalOrder
  | "applicative" | "call-by-value" | "cbv" => some applicative
  | _ => none

theorem ofName?_name (s : Strategy) : ofName? s.name = some s := by cases s <;> rfl

def unknownMessage (text : String) : String := "unknown strategy `" ++ text ++ "`"

/-- The first redex in pre-order. -/
def outermost : Term → Option Path
  | .var _ => none
  | .abs _ body => (outermost body).map (0 :: ·)
  | .app func arg =>
    if (Term.app func arg).isRedex then some []
    else ((outermost func).map (0 :: ·)).orElse fun _ => (outermost arg).map (1 :: ·)

/-- The first redex in post-order. -/
def innermost : Term → Option Path
  | .var _ => none
  | .abs _ body => (innermost body).map (0 :: ·)
  | .app func arg =>
    (((innermost func).map (0 :: ·)).orElse fun _ => (innermost arg).map (1 :: ·)).orElse
      fun _ => if (Term.app func arg).isRedex then some [] else none

def findRedex : Strategy → Term → Option Path
  | normalOrder => outermost
  | applicative => innermost

end Strategy

namespace Term

/-- Fires the redex at a position; where there is none, nothing changes. In an
application every direction but `0` leads into the argument. -/
def contractAt : Term → Path → NameSupply → Term × NameSupply
  | app (abs p body) arg, [], names => body.substitute p arg names
  | abs p body, 0 :: path, names =>
    let (body', names') := contractAt body path names
    (abs p body', names')
  | app func arg, 0 :: path, names =>
    let (func', names') := contractAt func path names
    (app func' arg, names')
  | app func arg, (_ + 1) :: path, names =>
    let (arg', names') := contractAt arg path names
    (app func arg', names')
  | t, _, names => (t, names)

structure Contraction where
  term : Term
  path : Path
  names : NameSupply

/-- Fires the redex that the strategy finds; a normal form has none. -/
def contract (t : Term) (strategy : Strategy) (names : NameSupply) : Option Contraction :=
  match strategy.findRedex t with
  | none => none
  | some path =>
    let (t', names') := t.contractAt path names
    some ⟨t', path, names'⟩

/-- Contracts the term itself, not its subterms. -/
def etaStep? : Term → Option Term
  | abs p (app func (var x)) => if x = p && !func.occursFree p then some func else none
  | _ => none

theorem etaStep?_eq_some_iff {t u : Term} :
    t.etaStep? = some u ↔ ∃ p, t = abs p (app u (var p)) ∧ u.occursFree p = false := by
  rw [etaStep?.eq_def]
  split
  · rename_i p func x
    by_cases h : x = p <;> cases hf : func.occursFree p <;> grind
  · rename_i hshape
    simp only [reduceCtorEq, false_iff, not_exists, not_and]
    exact fun p ht => absurd ht (hshape p u p)

/-- One pass from the leaves to the root is enough: what a contraction leaves
is a subterm of a body in normal form. -/
def etaReduce : Term → Term
  | var x => var x
  | app func arg => app func.etaReduce arg.etaReduce
  | abs p body =>
    let body' := body.etaReduce
    (etaStep? (abs p body')).getD (abs p body')

def etaExpand (t : Term) (names : NameSupply) : Term × NameSupply :=
  let (x, names') := names.fresh "x" t.freeVars
  (abs x (app t (var x)), names')

/-- The eta normal forms differ at most in bound names. -/
def etaEquiv (s t : Term) : Bool := s.etaReduce.alphaEquiv t.etaReduce

end Term

end NamedLambda
