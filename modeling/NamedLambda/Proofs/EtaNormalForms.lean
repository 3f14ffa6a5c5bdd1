import NamedLambda.Proofs.BetaEtaNormalForms

/-!
# Eta normal forms

One pass from the leaves to the root finds the eta normal form of a term
(`Term.etaReduce_normalForm`). What a contraction leaves at an abstraction is the function
part of its reduced body, and there no redex is left (`Term.isEtaNormal_etaReduce`). No
binder is renamed, so the eta normal form is one tree, whatever is contracted first.
-/

namespace NamedLambda.Term

theorem isEtaNormal_etaReduce (t : Term) : t.etaReduce.IsEtaNormal := by
  induction t with
  | var x => exact isEtaNormal_var x
  | abs p body ih =>
    rw [etaReduce]
    cases hstep : (abs p body.etaReduce).etaStep? with
    | none => exact isEtaNormal_abs.2 ⟨hstep, ih⟩
    | some func =>
      obtain ⟨q, hshape, -⟩ := etaStep?_eq_some_iff.1 hstep
      obtain ⟨-, hbody⟩ := Term.abs.inj hshape
      rw [hbody] at ih
      exact (isEtaNormal_app.1 ih).1
  | app func arg ihf iha => exact isEtaNormal_app.2 ⟨ihf, iha⟩

theorem IsEtaNormal.etaReduce_eq {t : Term} (h : t.IsEtaNormal) : t.etaReduce = t := by
  induction t with
  | var x => rfl
  | abs p body ih =>
    obtain ⟨hroot, hbody⟩ := isEtaNormal_abs.1 h
    rw [etaReduce, ih hbody, hroot]
    rfl
  | app func arg ihf iha =>
    obtain ⟨hfunc, harg⟩ := isEtaNormal_app.1 h
    rw [etaReduce, ihf hfunc, iha harg]

/-- A contraction anywhere in a term does not change what the pass makes of it. -/
theorem EtaStep.etaReduce_eq {t u : Term} (h : EtaStep t u) : t.etaReduce = u.etaReduce := by
  induction h with
  | here h => exact etaReduce_eq_of_etaStep? h
  | body p _ ih => simp only [etaReduce, ih]
  | func arg _ ih => simp only [etaReduce, ih]
  | arg func _ ih => simp only [etaReduce, ih]

theorem EtaSteps.etaReduce_eq {t u : Term} (h : EtaSteps t u) : t.etaReduce = u.etaReduce := by
  induction h with
  | refl => rfl
  | tail _ hstep ih => exact ih.trans hstep.etaReduce_eq

theorem freeVars_etaReduce (t : Term) : t.etaReduce.freeVars = t.freeVars := by
  refine OrderedSet.ext fun x => ?_
  rw [mem_freeVars, mem_freeVars, occursFree_etaReduce]

/-- Eta reduction ends in the eta normal form. Contractions at positions of the term lead
there, the free names stay the same, and nothing is left to reduce. No other term without
an eta redex can be reached by contractions. -/
theorem etaReduce_normalForm (t : Term) :
    t.etaReduce.IsEtaNormal ∧ EtaSteps t t.etaReduce ∧ t.etaReduce.freeVars = t.freeVars ∧
      t.etaReduce.etaReduce = t.etaReduce ∧
      ∀ u, EtaSteps t u → u.IsEtaNormal → u = t.etaReduce := by
  refine ⟨isEtaNormal_etaReduce t, etaSteps_etaReduce t, freeVars_etaReduce t,
    (isEtaNormal_etaReduce t).etaReduce_eq, ?_⟩
  intro u hsteps hnormal
  calc u
    _ = u.etaReduce := hnormal.etaReduce_eq.symm
    _ = t.etaReduce := hsteps.etaReduce_eq.symm

/-- The outer abstraction of `λx. λy. f x y` can be contracted only after the inner one. -/
example :
    let t := abs "x" (abs "y" (app (app (var "f") (var "x")) (var "y")))
    t.etaStep? = none ∧ t.etaReduce = var "f" := by decide

end NamedLambda.Term
