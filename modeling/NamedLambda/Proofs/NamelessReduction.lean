import Mathlib
import NamedLambda.Proofs.NamelessSubstitution
import NamedLambda.Proofs.IteratedContraction

/-!
# Reduction in the nameless form

A contraction without names puts the argument for index 0 of the body
(`Nameless.instantiate`), which is one case of putting a term for every index
(`Nameless.bindBound`). A step of a named term is a step of its nameless form,
whatever fresh names it took (`Term.step_contractAt`), and a normal form has no
step (`Term.IsNormal.nameless`). So what is proved of nameless reduction holds of
the runs of a reducer; that a run ends is one such statement
(`Reduction.exists_terminated_of_acc`).
-/

namespace NamedLambda

namespace Nameless

/-- An assignment of terms to indices under one more binder, whose own index
stays. -/
def liftBind (σ : Nat → Nameless) : Nat → Nameless
  | 0 => bound 0
  | i + 1 => (σ i).shift

/-- Puts `σ i` for every index `i` that points out of the term. -/
def bindBound (σ : Nat → Nameless) : Nameless → Nameless
  | bound i => σ i
  | free x => free x
  | lam body => lam (body.bindBound (liftBind σ))
  | app func arg => app (func.bindBound σ) (arg.bindBound σ)

theorem bindBound_mapBound (t : Nameless) (f : Nat → Nat) (σ : Nat → Nameless) :
    (t.mapBound f).bindBound σ = t.bindBound (σ ∘ f) := by
  induction t generalizing f σ with
  | bound i => rfl
  | free x => rfl
  | lam body ih =>
    have lifted : liftBind σ ∘ liftMap f = liftBind (σ ∘ f) := by
      funext i
      cases i <;> rfl
    simp only [mapBound, bindBound, ih, lifted]
  | app func arg ihf iha => simp only [mapBound, bindBound, ihf, iha]

theorem mapBound_bindBound (t : Nameless) (σ : Nat → Nameless) (f : Nat → Nat) :
    (t.bindBound σ).mapBound f = t.bindBound fun i => (σ i).mapBound f := by
  induction t generalizing σ f with
  | bound i => rfl
  | free x => rfl
  | lam body ih =>
    have lifted : (fun i => (liftBind σ i).mapBound (liftMap f)) =
        liftBind fun i => (σ i).mapBound f := by
      funext i
      cases i with
      | zero => rfl
      | succ i => exact (shift_mapBound (σ i) f).symm
    simp only [bindBound, mapBound, ih, lifted]
  | app func arg ihf iha => simp only [bindBound, mapBound, ihf, iha]

theorem bindBound_bindBound (t : Nameless) (σ τ : Nat → Nameless) :
    (t.bindBound σ).bindBound τ = t.bindBound fun i => (σ i).bindBound τ := by
  induction t generalizing σ τ with
  | bound i => rfl
  | free x => rfl
  | lam body ih =>
    have lifted : (fun i => (liftBind σ i).bindBound (liftBind τ)) =
        liftBind fun i => (σ i).bindBound τ := by
      funext i
      cases i with
      | zero => rfl
      | succ i =>
        simp only [liftBind, shift, bindBound_mapBound, mapBound_bindBound]
        rfl
    simp only [bindBound, ih, lifted]
  | app func arg ihf iha => simp only [bindBound, ihf, iha]

@[simp] theorem bindBound_bound (t : Nameless) : t.bindBound bound = t := by
  induction t with
  | bound i => rfl
  | free x => rfl
  | lam body ih =>
    have lifted : liftBind bound = bound := by
      funext i
      cases i <;> rfl
    simp only [bindBound, lifted, ih]
  | app func arg ihf iha => simp only [bindBound, ihf, iha]

theorem mapBound_eq_bindBound (t : Nameless) (f : Nat → Nat) :
    t.mapBound f = t.bindBound (bound ∘ f) := by
  rw [← bindBound_mapBound, bindBound_bound]

/-- The term `r` for index 0, and one binder less for the others. -/
def bindFirst (r : Nameless) : Nat → Nameless
  | 0 => r
  | i + 1 => bound i

/-- The body of an abstraction that is applied to `r`. -/
def instantiate (body r : Nameless) : Nameless := body.bindBound (bindFirst r)

@[simp] theorem bindBound_shift_bindFirst (t r : Nameless) :
    t.shift.bindBound (bindFirst r) = t :=
  (bindBound_mapBound t _ _).trans (bindBound_bound t)

theorem instantiate_bindBound (body r : Nameless) (σ : Nat → Nameless) :
    (body.bindBound (liftBind σ)).instantiate (r.bindBound σ) =
      (body.instantiate r).bindBound σ := by
  simp only [instantiate, bindBound_bindBound]
  congr 1
  funext i
  cases i with
  | zero => rfl
  | succ i => exact bindBound_shift_bindFirst (σ i) _

theorem instantiate_mapBound (body r : Nameless) (f : Nat → Nat) :
    (body.mapBound (liftMap f)).instantiate (r.mapBound f) = (body.instantiate r).mapBound f := by
  have lifted : bound ∘ liftMap f = liftBind (bound ∘ f) := by
    funext i
    cases i <;> rfl
  simp only [mapBound_eq_bindBound, lifted, instantiate_bindBound]

/-- What is kept when indices move holds under a binder of all assigned terms, if
it holds outside. -/
theorem liftBind_rel {R : Nameless → Nameless → Prop} (bound_self : ∀ i, R (bound i) (bound i))
    (moved : ∀ {t u} (f : Nat → Nat), R t u → R (t.mapBound f) (u.mapBound f))
    {σ τ : Nat → Nameless} (h : ∀ i, R (σ i) (τ i)) (i : Nat) : R (liftBind σ i) (liftBind τ i) := by
  cases i with
  | zero => exact bound_self 0
  | succ i => exact moved _ (h i)

theorem bindFirst_rel {R : Nameless → Nameless → Prop} (bound_self : ∀ i, R (bound i) (bound i))
    {r s : Nameless} (h : R r s) (i : Nat) : R (bindFirst r i) (bindFirst s i) := by
  cases i with
  | zero => exact h
  | succ i => exact bound_self i

/-- One contraction anywhere in a term. -/
inductive Step : Nameless → Nameless → Prop
  | beta (body arg : Nameless) : Step (app (lam body) arg) (body.instantiate arg)
  | lam {t u : Nameless} : Step t u → Step (lam t) (lam u)
  | func {t u : Nameless} (arg : Nameless) : Step t u → Step (app t arg) (app u arg)
  | arg {t u : Nameless} (func : Nameless) : Step t u → Step (app func t) (app func u)

abbrev Steps : Nameless → Nameless → Prop := Relation.ReflTransGen Step

def IsNormal (t : Nameless) : Prop := ∀ u, ¬ Step t u

theorem Step.bindBound {t u : Nameless} (h : Step t u) (σ : Nat → Nameless) :
    Step (t.bindBound σ) (u.bindBound σ) := by
  induction h generalizing σ with
  | beta body arg =>
    rw [← instantiate_bindBound]
    exact .beta _ _
  | lam _ ih => exact .lam (ih _)
  | func arg _ ih => exact .func _ (ih σ)
  | arg func _ ih => exact .arg _ (ih σ)

theorem Steps.lam {t u : Nameless} (h : Steps t u) : Steps (lam t) (lam u) :=
  Relation.ReflTransGen.lift Nameless.lam (fun _ _ => Step.lam) _ _ h

theorem Steps.app {f g a b : Nameless} (hf : Steps f g) (ha : Steps a b) :
    Steps (app f a) (app g b) :=
  (Relation.ReflTransGen.lift (Nameless.app · a) (fun _ _ => Step.func a) _ _ hf).trans
    (Relation.ReflTransGen.lift (Nameless.app g) (fun _ _ => Step.arg g) _ _ ha)

theorem IsNormal.eq_of_steps {t u : Nameless} (ht : t.IsNormal) (h : Steps t u) : t = u := by
  rcases h.cases_head with rfl | ⟨v, hv, _⟩
  · rfl
  · exact absurd hv (ht v)

theorem isNormal_lam {t : Nameless} : (lam t).IsNormal ↔ t.IsNormal := by
  constructor
  · intro h u hu
    exact h _ (.lam hu)
  · intro h u hu
    cases hu with
    | lam hu => exact h _ hu

theorem isNormal_app {f a : Nameless} :
    (app f a).IsNormal ↔ (∀ body, f ≠ lam body) ∧ f.IsNormal ∧ a.IsNormal := by
  constructor
  · intro h
    refine ⟨?_, fun u hu => h _ (.func a hu), fun u hu => h _ (.arg f hu)⟩
    rintro body rfl
    exact h _ (.beta body a)
  · rintro ⟨hlam, hf, ha⟩ u hu
    cases hu with
    | beta body => exact hlam body rfl
    | func _ hu => exact hf _ hu
    | arg _ hu => exact ha _ hu

end Nameless

namespace Term

open Nameless (Step Steps)

theorem bindBound_interpret (ρ : Valuation) (t : Term) (σ : Nat → Nameless) :
    (t.interpret ρ).bindBound σ = t.interpret fun y => (ρ y).bindBound σ := by
  induction t generalizing ρ σ with
  | var x => rfl
  | abs p body ih =>
    have moved : (fun y => (ρ.under p y).bindBound (Nameless.liftBind σ)) =
        Valuation.under (fun y => (ρ y).bindBound σ) p := by
      funext y
      by_cases hy : y = p
      · simp [Valuation.under, Valuation.set, hy, Nameless.bindBound, Nameless.liftBind]
      · simp only [Valuation.under, Valuation.set, hy, if_false, Nameless.shift,
          Nameless.bindBound_mapBound, Nameless.mapBound_bindBound]
        rfl
    simp only [interpret, Nameless.bindBound, ih, moved]
  | app func arg ihf iha => simp only [interpret, Nameless.bindBound, ihf, iha]

/-- A term for the index of a binder is a term for its name. -/
theorem instantiate_interpret (ρ : Valuation) (p : Name) (body : Term) (r : Nameless) :
    (body.interpret (ρ.under p)).instantiate r = body.interpret (ρ.set p r) := by
  rw [Nameless.instantiate, bindBound_interpret]
  congr 1
  funext y
  by_cases hy : y = p
  · simp [Valuation.under, Valuation.set, hy, Nameless.bindBound, Nameless.bindFirst]
  · simp [Valuation.under, Valuation.set, hy]

theorem namelessIn_substitute (scope : Scope) (p : Name) (body arg : Term) (names : NameSupply) :
    (body.substitute p arg names).1.namelessIn scope =
      (body.namelessIn (p :: scope)).instantiate (arg.namelessIn scope) := by
  simp only [namelessIn_eq_interpret, interpret_substitute, Scope.resolve_cons,
    instantiate_interpret]

theorem ReplacedAt.step {old new t u : Term} {path : Path} (h : ReplacedAt old new path t u)
    (hstep : ∀ scope, Step (old.namelessIn scope) (new.namelessIn scope)) (scope : Scope) :
    Step (t.namelessIn scope) (u.namelessIn scope) := by
  induction h generalizing scope with
  | here => exact hstep scope
  | body p _ ih => exact .lam (ih (p :: scope))
  | func arg _ ih => exact .func _ (ih scope)
  | arg func _ ih => exact .arg _ (ih scope)

/-- To contract a redex of a term is to contract one of its nameless form. -/
theorem step_contractAt (scope : Scope) {t redex : Term} {path : Path} (names : NameSupply)
    (hs : t.subterm? path = some redex) (hr : redex.isRedex = true) :
    Step (t.namelessIn scope) ((t.contractAt path names).1.namelessIn scope) := by
  obtain ⟨p, body, arg, rfl⟩ := isRedex_iff.1 hr
  refine (replacedAt_contractAt names hs).1.step (fun scope => ?_) scope
  rw [namelessIn_substitute]
  exact .beta _ _

theorem BetaStep.nameless {t u : Term} (h : t.BetaStep u) : Step t.nameless u.nameless := by
  obtain ⟨names, hs, hr⟩ := h
  exact step_contractAt [] names hs hr

theorem BetaReaches.nameless {t u : Term} (h : t.BetaReaches u) :
    Steps t.nameless u.nameless := by
  induction h with
  | refl => exact .refl
  | head hstep _ ih => exact .head hstep.nameless ih

theorem namelessIn_ne_lam {t : Term} (h : ∀ p body, t ≠ abs p body) (scope : Scope)
    (body : Nameless) : t.namelessIn scope ≠ .lam body := by
  intro hbody
  cases t with
  | var x =>
    rw [namelessIn] at hbody
    cases hx : scope.index? x <;> simp [hx] at hbody
  | abs p body => exact h p body rfl
  | app => cases hbody

theorem ne_abs_of_not_isRedex {func arg : Term} (h : (app func arg).isRedex = false) (p : Name)
    (body : Term) : func ≠ abs p body := by
  rintro rfl
  simp [isRedex] at h

theorem isNormal_namelessIn {t : Term} (h : t.IsNormal) (scope : Scope) :
    (t.namelessIn scope).IsNormal := by
  induction t generalizing scope with
  | var x =>
    intro u hu
    rw [namelessIn] at hu
    cases hx : scope.index? x <;> simp only [hx] at hu <;> cases hu
  | abs p body ih => exact Nameless.isNormal_lam.2 (ih (isNormal_abs.1 h) _)
  | app func arg ihf iha =>
    obtain ⟨hr, hf, ha⟩ := isNormal_app.1 h
    exact Nameless.isNormal_app.2
      ⟨namelessIn_ne_lam (ne_abs_of_not_isRedex hr) scope, ihf hf scope, iha ha scope⟩

theorem IsNormal.nameless {t : Term} (h : t.IsNormal) : t.nameless.IsNormal :=
  isNormal_namelessIn h []

theorem isNormal_of_nameless {t : Term} (h : t.nameless.IsNormal) : t.IsNormal := by
  intro path s hs
  rw [Bool.eq_false_iff]
  intro hr
  exact h _ (step_contractAt [] .new hs hr)

end Term

namespace Reduction

/-- Contractions come to an end if they go along a relation that has no infinite
path from the start. -/
theorem exists_contractions_of_acc {R : Nameless → Nameless → Prop} {strategy : Strategy}
    (along : ∀ {t : Term} {names : NameSupply} {c : Term.Contraction},
      t.contract strategy names = some c → R t.nameless c.term.nameless)
    {t : Term} (h : Acc (fun u t => R t u) t.nameless) (names : NameSupply) :
    ∃ made last rest, Contractions strategy t names made last rest ∧ last.IsNormal := by
  generalize hn : t.nameless = n at h
  induction h generalizing t names with
  | intro n _ ih =>
    subst hn
    cases hc : t.contract strategy names with
    | none => exact ⟨[], t, names, .refl t names, Term.contract_eq_none_iff.1 hc⟩
    | some c =>
      obtain ⟨made, last, rest, hmade, hnormal⟩ := ih _ (along hc) c.names rfl
      exact ⟨⟨t, c.path⟩ :: made, last, rest, .head hc hmade, hnormal⟩

theorem exists_terminated_of_acc {R : Nameless → Nameless → Prop} {strategy : Strategy}
    (along : ∀ {t : Term} {names : NameSupply} {c : Term.Contraction},
      t.contract strategy names = some c → R t.nameless c.term.nameless)
    {t : Term} (h : Acc (fun u t => R t u) t.nameless) (names : NameSupply) :
    ∃ bound, ∀ (keepSteps : Bool) (steps : Nat) (past : List Step) (budget : Nat),
      bound ≤ budget → (run strategy keepSteps t names steps past budget).terminated = true := by
  obtain ⟨made, last, rest, hmade, hnormal⟩ := exists_contractions_of_acc along h names
  refine ⟨made.length, ?_⟩
  intro keepSteps steps past budget hle
  rw [run_eq_of_contractions hmade hnormal keepSteps steps past hle]

end Reduction

end NamedLambda
