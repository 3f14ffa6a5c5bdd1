import Mathlib
import NamedLambda.Proofs.NamelessReduction
import NamedLambda.Vocabulary

/-!
# The equations of the combinators

A redex at the head of an application is the one that normal order finds, whatever redexes
there are in the arguments (`Term.exists_contract_apply`). What its contraction leaves at the
head is an abstraction again, as long as there are parameters left. So an abstraction over
several parameters takes as many arguments in as many contractions, and comes to its body with
the arguments for the parameters, whatever names are free in them
(`Term.exists_contractions_apply`). The equations of the combinators are read off their
bodies (`Term.combinator_equations`).
-/

namespace NamedLambda

namespace Term

open Reduction (Contractions Iteration)

theorem contract_beta (p : Name) (body arg : Term) (names : NameSupply) :
    (app (abs p body) arg).contract .normalOrder names =
      some ⟨(body.substitute p arg names).1, [], (body.substitute p arg names).2⟩ := rfl

theorem contract_func {func : Term} {names : NameSupply} {c : Contraction}
    (h : ∀ p body, func ≠ abs p body) (hc : func.contract .normalOrder names = some c)
    (arg : Term) :
    (app func arg).contract .normalOrder names = some ⟨app c.term arg, 0 :: c.path, c.names⟩ := by
  obtain ⟨hfound, hmade⟩ := contract_eq_some_iff.1 hc
  have hredex : (app func arg).isRedex = false := by
    rw [Bool.eq_false_iff]
    intro hr
    obtain ⟨p, body, b, heq⟩ := isRedex_iff.1 hr
    exact h p body (app.inj heq).1
  refine contract_eq_some_iff.2 ⟨?_, ?_⟩
  · rw [Strategy.findRedex] at hfound ⊢
    simp [Strategy.outermost, hredex, hfound]
  · rw [contractAt, hmade]

theorem exists_contract_apply {t : Term} {names : NameSupply} {c : Contraction}
    (h : ∀ p body, t ≠ abs p body) (hc : t.contract .normalOrder names = some c)
    (args : List Term) :
    ∃ d, (t.apply args).contract .normalOrder names = some d ∧ d.term = c.term.apply args ∧
      d.names = c.names := by
  induction args generalizing t c with
  | nil => exact ⟨c, hc, rfl, rfl⟩
  | cons arg args ih => exact ih (by simp) (contract_func h hc arg)

theorem exists_abs_of_nameless {t : Term} {n : Nameless} (h : t.nameless = .lam n) :
    ∃ p body, t = abs p body ∧ body.namelessIn [p] = n := by
  cases t with
  | var x => cases h
  | abs p body => exact ⟨p, body, rfl, Nameless.lam.inj h⟩
  | app func arg => cases h

/-- The arguments are the values of the parameters; of two parameters with one name the later
counts. -/
def Valuation.setAll (ρ : Valuation) : List Name → List Term → Valuation
  | p :: params, arg :: args => setAll (ρ.set p arg.nameless) params args
  | _, _ => ρ

/-- The head need be an abstraction over the parameters only up to bound names, which is what the
contraction before leaves of it. -/
theorem exists_contractions_apply {ρ : Valuation} {params : List Name} {body t : Term}
    (ht : t.nameless = (lambda params body).interpret ρ) {args : List Term}
    (hlen : args.length = params.length) (names : NameSupply) :
    ∃ made last rest, Contractions .normalOrder (t.apply args) names made last rest ∧
      made.length = params.length ∧ last.nameless = body.interpret (ρ.setAll params args) := by
  induction params generalizing ρ t args names with
  | nil =>
    obtain rfl : args = [] := List.eq_nil_of_length_eq_zero hlen
    exact ⟨[], t, names, .refl t names, rfl, ht⟩
  | cons p params ih =>
    obtain _ | ⟨arg, args⟩ := args
    · simp at hlen
    · obtain ⟨q, inner, rfl, hinner⟩ := exists_abs_of_nameless ht
      obtain ⟨c, hc, hterm, hnames⟩ := exists_contract_apply (by simp)
        (contract_beta q inner arg names) args
      have hbody : (inner.substitute q arg names).1.nameless =
          (lambda params body).interpret (ρ.set p arg.nameless) := by
        rw [nameless, namelessIn_substitute, hinner]
        exact instantiate_interpret ρ p (lambda params body) arg.nameless
      obtain ⟨made, last, rest, hmade, hcount, hlast⟩ :=
        ih hbody (Nat.succ.inj hlen) (inner.substitute q arg names).2
      refine ⟨⟨(abs q inner).apply (arg :: args), c.path⟩ :: made, last, rest, .head hc ?_, ?_,
        hlast⟩
      · rwa [hterm, hnames]
      · simp [hcount]

/-- A run of normal order that may make so many steps makes them all, and comes to the result
up to bound names. -/
def ReducesIn (n : Nat) (t result : Term) : Prop :=
  (t.normalize n .normalOrder).steps = n ∧
    (t.normalize n .normalOrder).term.alphaEquiv result = true

theorem reducesIn_of_contractions {t last result : Term} {made : List Reduction.Step}
    {rest : NameSupply} (h : Contractions .normalOrder t .new made last rest)
    (hlast : last.nameless = result.nameless) : ReducesIn made.length t result := by
  obtain ⟨i, hi⟩ := ({ maxSteps := made.length } : Settings).exists_iteration_reduce t
  obtain rfl : i = ⟨made, last, rest, h, Nat.le_refl _, .inr rfl⟩ := Subsingleton.elim _ _
  have hrun : t.normalize made.length .normalOrder = _ := hi
  rw [ReducesIn, hrun, alphaEquiv_iff]
  simp [Iteration.report, hlast]

theorem reducesIn_apply (params : List Name) (body : Term) (args : List Term)
    (hlen : args.length = params.length) {result : Term}
    (hbody : body.interpret (Valuation.setAll .free params args) = result.nameless) :
    ReducesIn params.length ((lambda params body).apply args) result := by
  obtain ⟨made, last, rest, hmade, hcount, hlast⟩ :=
    exists_contractions_apply (nameless_eq_interpret (lambda params body)) hlen .new
  rw [← hcount]
  exact reducesIn_of_contractions hmade (hlast.trans hbody)

/-- The combinators take their arguments in as many steps as they have parameters, and come to
the right sides of their equations, whatever the arguments are. -/
theorem combinator_equations (a b c : Term) :
    ReducesIn 1 (app Vocabulary.identity a) a ∧
    ReducesIn 2 (app (app Vocabulary.k a) b) a ∧
    ReducesIn 3 (app (app (app Vocabulary.s a) b) c) (app (app a c) (app b c)) ∧
    ReducesIn 3 (app (app (app Vocabulary.b a) b) c) (app a (app b c)) ∧
    ReducesIn 3 (app (app (app Vocabulary.c a) b) c) (app (app a c) b) ∧
    ReducesIn 2 (app (app Vocabulary.w a) b) (app (app a b) b) := by
  refine ⟨?i, ?k, ?s, ?b, ?c, ?w⟩
  case i => exact reducesIn_apply ["x"] (var "x") [a] rfl rfl
  case k => exact reducesIn_apply ["x", "y"] (var "x") [a, b] rfl rfl
  case s =>
    exact reducesIn_apply ["x", "y", "z"]
      (app (app (var "x") (var "z")) (app (var "y") (var "z"))) [a, b, c] rfl rfl
  case b =>
    exact reducesIn_apply ["f", "g", "x"]
      (app (var "f") (app (var "g") (var "x"))) [a, b, c] rfl rfl
  case c =>
    exact reducesIn_apply ["f", "x", "y"] ((var "f").apply [var "y", var "x"]) [a, b, c] rfl rfl
  case w => exact reducesIn_apply ["f", "x"] ((var "f").apply [var "x", var "x"]) [a, b] rfl rfl

end Term

end NamedLambda
