import NamedLambda.Proofs.NamelessReduction

/-!
# Confluence

However a term is contracted, all of it that ends ends in one normal form, up to
bound names (`alphaEquiv_normalize`). In the nameless form, steps that contract
several redexes at once (`Nameless.Par`) all lead on to the term in which every
redex at hand is contracted (`Nameless.Par.develop`), so they have the diamond
property, and sequences of single steps are joined with them.
-/

namespace NamedLambda

namespace Nameless

/-- Any number of redexes of the term contracted at once. -/
inductive Par : Nameless → Nameless → Prop
  | bound (i : Nat) : Par (bound i) (bound i)
  | free (x : Name) : Par (free x) (free x)
  | lam {t u : Nameless} : Par t u → Par (lam t) (lam u)
  | app {f g a b : Nameless} : Par f g → Par a b → Par (app f a) (app g b)
  | beta {t u a b : Nameless} : Par t u → Par a b → Par (app (lam t) a) (u.instantiate b)

namespace Par

theorem refl (t : Nameless) : Par t t := by
  induction t with
  | bound i => exact .bound i
  | free x => exact .free x
  | lam _ ih => exact .lam ih
  | app _ _ ihf iha => exact .app ihf iha

theorem of_step {t u : Nameless} (h : Step t u) : Par t u := by
  induction h with
  | beta body arg => exact .beta (refl body) (refl arg)
  | lam _ ih => exact .lam ih
  | func arg _ ih => exact .app ih (refl arg)
  | arg func _ ih => exact .app (refl func) ih

theorem steps {t u : Nameless} (h : Par t u) : Steps t u := by
  induction h with
  | bound => exact .refl
  | free => exact .refl
  | lam _ ih => exact ih.lam
  | app _ _ ihf iha => exact ihf.app iha
  | beta _ _ ihbody iharg => exact (ihbody.lam.app iharg).tail (.beta _ _)

theorem mapBound {t u : Nameless} (h : Par t u) (f : Nat → Nat) :
    Par (t.mapBound f) (u.mapBound f) := by
  induction h generalizing f with
  | bound => exact .bound _
  | free => exact .free _
  | lam _ ih => exact .lam (ih _)
  | app _ _ ihf iha => exact .app (ihf f) (iha f)
  | beta _ _ ihbody iharg =>
    rw [← instantiate_mapBound]
    exact .beta (ihbody _) (iharg f)

theorem bindBound {t u : Nameless} (h : Par t u) {σ τ : Nat → Nameless}
    (hσ : ∀ i, Par (σ i) (τ i)) : Par (t.bindBound σ) (u.bindBound τ) := by
  induction h generalizing σ τ with
  | bound i => exact hσ i
  | free => exact .free _
  | lam _ ih => exact .lam (ih (liftBind_rel bound (fun f h => mapBound h f) hσ))
  | app _ _ ihf iha => exact .app (ihf hσ) (iha hσ)
  | beta _ _ ihbody iharg =>
    rw [← instantiate_bindBound]
    exact .beta (ihbody (liftBind_rel bound (fun f h => mapBound h f) hσ)) (iharg hσ)

theorem instantiate {t u a b : Nameless} (h : Par t u) (ha : Par a b) :
    Par (t.instantiate a) (u.instantiate b) :=
  h.bindBound (bindFirst_rel bound ha)

end Par

/-- Every redex of the term contracted at once. -/
def develop : Nameless → Nameless
  | bound i => bound i
  | free x => free x
  | lam body => lam body.develop
  | app (lam body) arg => body.develop.instantiate arg.develop
  | app func arg => app func.develop arg.develop

/-- What is left after some redexes are contracted are the others. -/
theorem Par.develop {t u : Nameless} (h : Par t u) : Par u t.develop := by
  induction h with
  | bound i => exact .bound i
  | free x => exact .free x
  | lam _ ih => exact .lam ih
  | @app f g a b hf _ ihf iha =>
    cases f with
    | lam body =>
      cases hf with
      | lam hbody =>
        cases ihf with
        | lam ihbody => exact .beta ihbody iha
    | bound i => exact .app ihf iha
    | free x => exact .app ihf iha
    | app => exact .app ihf iha
  | beta _ _ ihbody iharg => exact ihbody.instantiate iharg

theorem Steps.confluent {t u v : Nameless} (hu : Steps t u) (hv : Steps t v) :
    ∃ w, Steps u w ∧ Steps v w := by
  have single : Steps ≤ Relation.ReflTransGen Par :=
    Relation.ReflTransGen.mono fun _ _ => Par.of_step
  have back : Relation.ReflTransGen Par ≤ Steps :=
    Relation.reflTransGen_closed fun _ _ => Par.steps
  obtain ⟨w, hu, hv⟩ := Relation.church_rosser (r := Par)
    (fun a b c hb hc => ⟨a.develop, .single hb.develop, .single hc.develop⟩)
    (single _ _ hu) (single _ _ hv)
  exact ⟨w, back _ _ hu, back _ _ hv⟩

/-- A term has one normal form at most. -/
theorem IsNormal.unique {t u v : Nameless} (hu : u.IsNormal) (hv : v.IsNormal) (htu : Steps t u)
    (htv : Steps t v) : u = v := by
  obtain ⟨w, huw, hvw⟩ := htu.confluent htv
  exact (hu.eq_of_steps huw).trans (hv.eq_of_steps hvw).symm

end Nameless

namespace Term

theorem normalize_eq_run (t : Term) (maxSteps : Nat) (strategy : Strategy) :
    t.normalize maxSteps strategy = Reduction.run strategy false t .new 0 [] maxSteps := by
  simp [normalize, Settings.reduce]

theorem betaReaches_normalize (t : Term) (maxSteps : Nat) (strategy : Strategy) :
    t.BetaReaches (t.normalize maxSteps strategy).term := by
  rw [normalize_eq_run]
  exact Reduction.betaReaches_run ..

theorem isNormal_normalize {t : Term} {maxSteps : Nat} {strategy : Strategy}
    (h : (t.normalize maxSteps strategy).terminated = true) :
    (t.normalize maxSteps strategy).term.IsNormal := by
  rw [normalize_eq_run] at h ⊢
  exact (Reduction.terminated_run_iff ..).1 h

/-- Contracting some redexes first, anywhere in the term, and choosing another
strategy or another bound makes no difference for a normal form that is found. -/
theorem alphaEquiv_normalize {t u : Term} (h : t.BetaReaches u) {strategy strategy' : Strategy}
    {maxSteps maxSteps' : Nat} (ht : (t.normalize maxSteps strategy).terminated = true)
    (hu : (u.normalize maxSteps' strategy').terminated = true) :
    (t.normalize maxSteps strategy).term.alphaEquiv
      (u.normalize maxSteps' strategy').term = true := by
  rw [alphaEquiv_iff]
  exact (isNormal_normalize ht).nameless.unique (isNormal_normalize hu).nameless
    (betaReaches_normalize ..).nameless (h.nameless.trans (betaReaches_normalize ..).nameless)

/-- The term `(λx. λy. x x) ((λz. z) y)`: it copies a redex under a binder of the
name that is free in it. -/
def copyUnderBinder : Term :=
  app (abs "x" (abs "y" (app (var "x") (var "x")))) (app (abs "z" (var "z")) (var "y"))

theorem betaReaches_copyUnderBinder :
    copyUnderBinder.BetaReaches (copyUnderBinder.contractAt [] .new).1 :=
  .head (.contractAt .new (subterm?_nil _) rfl) (.refl _)

/-- Applicative order contracts the redex before it is copied, and normal order
both of its copies. -/
theorem alphaEquiv_normalize_copyUnderBinder :
    (copyUnderBinder.normalize 2 .applicative).terminated = true ∧
    ((copyUnderBinder.contractAt [] .new).1.normalize 2 .normalOrder).terminated = true ∧
    (copyUnderBinder.normalize 2 .applicative).term.alphaEquiv
      ((copyUnderBinder.contractAt [] .new).1.normalize 2 .normalOrder).term = true := by
  have ht : (copyUnderBinder.normalize 2 .applicative).terminated = true := by cbv
  have hu : ((copyUnderBinder.contractAt [] .new).1.normalize 2 .normalOrder).terminated = true :=
    by cbv
  exact ⟨ht, hu, alphaEquiv_normalize betaReaches_copyUnderBinder ht hu⟩

end Term

end NamedLambda
