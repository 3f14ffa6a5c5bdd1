import NamedLambda.Proofs.Confluence

/-!
# Normal order finds normal forms

If contractions anywhere in a term lead to a normal form, then those of normal
order do (`Term.normalOrder_normalizing`). Every sequence of contractions can be
brought into a standard one (`Nameless.Standard.of_steps`): the head of the term
first, as long as it takes, and then, independently, the parts of what stands
there. A standard sequence to a normal form is a leftmost one
(`Nameless.Standard.leftmost`), since a function that ends as no abstraction has
not been one on the way.
-/

namespace NamedLambda

namespace Nameless

/-- The contraction of a redex that no other redex precedes and that stands in
no argument and under no binder. -/
inductive HeadStep : Nameless → Nameless → Prop
  | beta (body arg : Nameless) : HeadStep (app (lam body) arg) (body.instantiate arg)
  | func {t u : Nameless} (arg : Nameless) : HeadStep t u → HeadStep (app t arg) (app u arg)

abbrev HeadSteps : Nameless → Nameless → Prop := Relation.ReflTransGen HeadStep

theorem HeadStep.bindBound {t u : Nameless} (h : HeadStep t u) (σ : Nat → Nameless) :
    HeadStep (t.bindBound σ) (u.bindBound σ) := by
  induction h with
  | beta body arg =>
    rw [← instantiate_bindBound]
    exact .beta _ _
  | func arg _ ih => exact .func _ ih

theorem HeadSteps.bindBound {t u : Nameless} (h : HeadSteps t u) (σ : Nat → Nameless) :
    HeadSteps (t.bindBound σ) (u.bindBound σ) :=
  Relation.ReflTransGen.lift (Nameless.bindBound σ) (fun _ _ h => h.bindBound σ) _ _ h

theorem HeadSteps.func {t u : Nameless} (h : HeadSteps t u) (arg : Nameless) :
    HeadSteps (app t arg) (app u arg) :=
  Relation.ReflTransGen.lift (Nameless.app · arg) (fun _ _ => HeadStep.func arg) _ _ h

/-- Contractions at the head lead to the shape of the result, and others of this
kind from its parts to those of the result. -/
inductive Standard : Nameless → Nameless → Prop
  | bound {t : Nameless} {i : Nat} : HeadSteps t (bound i) → Standard t (bound i)
  | free {t : Nameless} {x : Name} : HeadSteps t (free x) → Standard t (free x)
  | lam {t u v : Nameless} : HeadSteps t (lam u) → Standard u v → Standard t (lam v)
  | app {t f a g b : Nameless} : HeadSteps t (app f a) → Standard f g → Standard a b →
      Standard t (app g b)

namespace Standard

theorem refl (t : Nameless) : Standard t t := by
  induction t with
  | bound i => exact .bound .refl
  | free x => exact .free .refl
  | lam _ ih => exact .lam .refl ih
  | app _ _ ihf iha => exact .app .refl ihf iha

theorem of_headSteps {t u v : Nameless} (h : HeadSteps t u) (huv : Standard u v) :
    Standard t v := by
  cases huv with
  | bound hu => exact .bound (h.trans hu)
  | free hu => exact .free (h.trans hu)
  | lam hu hbody => exact .lam (h.trans hu) hbody
  | app hu hf ha => exact .app (h.trans hu) hf ha

theorem mapBound {t u : Nameless} (h : Standard t u) (f : Nat → Nat) :
    Standard (t.mapBound f) (u.mapBound f) := by
  have moved {t u : Nameless} (h : HeadSteps t u) (f : Nat → Nat) :
      HeadSteps (t.mapBound f) (u.mapBound f) := by
    simpa only [mapBound_eq_bindBound] using h.bindBound (Nameless.bound ∘ f)
  induction h generalizing f with
  | bound ht => exact .bound (moved ht f)
  | free ht => exact .free (moved ht f)
  | lam ht _ ih => exact .lam (moved ht f) (ih _)
  | app ht _ _ ihf iha => exact .app (moved ht f) (ihf f) (iha f)

theorem bindBound {t u : Nameless} (h : Standard t u) {σ τ : Nat → Nameless}
    (hσ : ∀ i, Standard (σ i) (τ i)) : Standard (t.bindBound σ) (u.bindBound τ) := by
  induction h generalizing σ τ with
  | bound ht => exact of_headSteps (ht.bindBound σ) (hσ _)
  | free ht => exact .free (ht.bindBound σ)
  | lam ht _ ih =>
    exact .lam (ht.bindBound σ) (ih (liftBind_rel (fun i => refl _) (fun f h => mapBound h f) hσ))
  | app ht _ _ ihf iha => exact .app (ht.bindBound σ) (ihf hσ) (iha hσ)

/-- The contraction of a redex that a standard sequence ends with can be done at
the head before the rest. -/
theorem beta {t body arg : Nameless} (h : Standard t (.app (.lam body) arg)) :
    Standard t (body.instantiate arg) := by
  cases h with
  | app ht hf ha =>
    cases hf with
    | lam hf hbody =>
      exact of_headSteps ((ht.trans (hf.func _)).tail (.beta _ _))
        (hbody.bindBound (bindFirst_rel (fun i => refl _) ha))

theorem step {t u v : Nameless} (h : Standard t u) (huv : Step u v) : Standard t v := by
  induction huv generalizing t with
  | beta => exact h.beta
  | lam _ ih =>
    cases h with
    | lam ht hbody => exact .lam ht (ih hbody)
  | func _ _ ih =>
    cases h with
    | app ht hf ha => exact .app ht (ih hf) ha
  | arg _ _ ih =>
    cases h with
    | app ht hf ha => exact .app ht hf (ih ha)

theorem of_steps {t u : Nameless} (h : Steps t u) : Standard t u := by
  induction h with
  | refl => exact refl t
  | tail _ huv ih => exact ih.step huv

end Standard

/-- The contraction of the leftmost of the outermost redexes. -/
inductive LeftmostStep : Nameless → Nameless → Prop
  | beta (body arg : Nameless) : LeftmostStep (app (lam body) arg) (body.instantiate arg)
  | lam {t u : Nameless} : LeftmostStep t u → LeftmostStep (lam t) (lam u)
  | func {t u : Nameless} (arg : Nameless) : (∀ body, t ≠ lam body) → LeftmostStep t u →
      LeftmostStep (app t arg) (app u arg)
  | arg {func t u : Nameless} : (∀ body, func ≠ lam body) → func.IsNormal → LeftmostStep t u →
      LeftmostStep (app func t) (app func u)

abbrev LeftmostSteps : Nameless → Nameless → Prop := Relation.ReflTransGen LeftmostStep

theorem LeftmostStep.step {t u : Nameless} (h : LeftmostStep t u) : Step t u := by
  induction h with
  | beta body arg => exact .beta body arg
  | lam _ ih => exact .lam ih
  | func arg _ _ ih => exact .func arg ih
  | arg _ _ _ ih => exact .arg _ ih

theorem LeftmostStep.deterministic {t u v : Nameless} (hu : LeftmostStep t u)
    (hv : LeftmostStep t v) : u = v := by
  induction hu generalizing v with
  | beta body arg =>
    cases hv with
    | beta => rfl
    | func _ hlam _ => exact absurd rfl (hlam body)
    | arg hlam _ _ => exact absurd rfl (hlam body)
  | lam _ ih =>
    cases hv with
    | lam hv => rw [ih hv]
  | func arg hlam hu ih =>
    cases hv with
    | beta body => exact absurd rfl (hlam body)
    | func _ _ hv => rw [ih hv]
    | arg _ hnormal _ => exact absurd hu.step (hnormal _)
  | arg hlam hnormal _ ih =>
    cases hv with
    | beta body => exact absurd rfl (hlam body)
    | func _ _ hv => exact absurd hv.step (hnormal _)
    | arg _ _ hv => rw [ih hv]

theorem HeadStep.leftmost {t u : Nameless} (h : HeadStep t u) : LeftmostStep t u := by
  induction h with
  | beta body arg => exact .beta body arg
  | func arg h ih =>
    refine .func arg ?_ ih
    rintro body rfl
    cases h

theorem HeadSteps.leftmost {t u : Nameless} (h : HeadSteps t u) : LeftmostSteps t u :=
  Relation.ReflTransGen.mono (fun _ _ => HeadStep.leftmost) _ _ h

namespace LeftmostSteps

theorem lam {t u : Nameless} (h : LeftmostSteps t u) : LeftmostSteps (lam t) (lam u) :=
  Relation.ReflTransGen.lift Nameless.lam (fun _ _ => LeftmostStep.lam) _ _ h

theorem exists_eq_lam {body u : Nameless} (h : LeftmostSteps (.lam body) u) :
    ∃ body', u = .lam body' := by
  induction h with
  | refl => exact ⟨body, rfl⟩
  | tail _ huv ih =>
    obtain ⟨body', rfl⟩ := ih
    cases huv with
    | lam => exact ⟨_, rfl⟩

/-- What does not become an abstraction has been none on the way. -/
theorem func {t u : Nameless} (h : LeftmostSteps t u) (hu : ∀ body, u ≠ .lam body)
    (arg : Nameless) : LeftmostSteps (app t arg) (app u arg) := by
  induction h using Relation.ReflTransGen.head_induction_on with
  | refl => exact .refl
  | head htv hvu ih =>
    refine .head (.func arg ?_ htv) ih
    rintro body rfl
    obtain ⟨body', rfl⟩ := exists_eq_lam (.head htv hvu)
    exact hu body' rfl

theorem arg {f t u : Nameless} (h : LeftmostSteps t u) (hlam : ∀ body, f ≠ .lam body)
    (hf : f.IsNormal) : LeftmostSteps (app f t) (app f u) :=
  Relation.ReflTransGen.lift (Nameless.app f) (fun _ _ => LeftmostStep.arg hlam hf) _ _ h

theorem acc {t u : Nameless} (h : LeftmostSteps t u) (hu : u.IsNormal) :
    Acc (fun v t => LeftmostStep t v) t := by
  induction h using Relation.ReflTransGen.head_induction_on with
  | refl =>
    refine .intro _ ?_
    intro v hv
    exact absurd hv.step (hu v)
  | head htv _ ih =>
    refine .intro _ ?_
    intro w hw
    rwa [← htv.deterministic hw]

end LeftmostSteps

theorem Standard.leftmost {t u : Nameless} (h : Standard t u) (hu : u.IsNormal) :
    LeftmostSteps t u := by
  induction h with
  | bound ht => exact ht.leftmost
  | free ht => exact ht.leftmost
  | lam ht _ ih => exact ht.leftmost.trans (ih (isNormal_lam.1 hu)).lam
  | app ht _ _ ihf iha =>
    obtain ⟨hlam, hf, ha⟩ := isNormal_app.1 hu
    exact ht.leftmost.trans (((ihf hf).func hlam _).trans ((iha ha).arg hlam hf))

end Nameless

namespace Term

open Nameless (LeftmostStep)

theorem leftmostStep_contractAt {t : Term} {path : Path} (scope : Scope) (names : NameSupply)
    (h : Strategy.outermost t = some path) :
    LeftmostStep (t.namelessIn scope) ((t.contractAt path names).1.namelessIn scope) := by
  induction t generalizing path scope with
  | var => simp [Strategy.outermost] at h
  | abs p body ih =>
    obtain ⟨q, hq, rfl⟩ := Option.map_eq_some_iff.1 h
    exact .lam (ih (p :: scope) hq)
  | app func arg ihf iha =>
    rw [Strategy.outermost] at h
    split at h
    · rename_i hr
      cases h
      obtain ⟨p, body, _, heq⟩ := isRedex_iff.1 hr
      cases heq
      rw [contractAt, namelessIn_substitute]
      exact .beta _ _
    · rename_i hr
      have hlam := namelessIn_ne_lam (ne_abs_of_not_isRedex (Bool.eq_false_iff.2 hr)) scope
      cases hf : Strategy.outermost func with
      | some q =>
        rw [hf] at h
        cases h
        rw [contractAt]
        exact .func _ hlam (ihf scope hf)
      | none =>
        rw [hf] at h
        obtain ⟨q, hq, rfl⟩ := Option.map_eq_some_iff.1 h
        have hnormal := isNormal_namelessIn (Strategy.outermost_eq_none_iff.1 hf) scope
        rw [contractAt]
        exact .arg hlam hnormal (iha scope hq)

theorem leftmostStep_of_contract {t : Term} {names : NameSupply} {c : Contraction}
    (h : t.contract .normalOrder names = some c) : LeftmostStep t.nameless c.term.nameless := by
  obtain ⟨hfound, hmade⟩ := contract_eq_some_iff.1 h
  have hstep := leftmostStep_contractAt [] names hfound
  rwa [hmade] at hstep

/-- If some contractions, anywhere in the term, lead to a term without a redex,
then normal order finds a normal form, given enough steps. -/
theorem normalOrder_normalizing {t n : Term} (h : t.BetaReaches n) (hn : n.IsNormal) :
    ∃ bound, ∀ maxSteps, bound ≤ maxSteps →
      (t.normalize maxSteps .normalOrder).terminated = true := by
  have leftmost := (Nameless.Standard.of_steps h.nameless).leftmost hn.nameless
  obtain ⟨bound, hbound⟩ := Reduction.exists_terminated_of_acc
    (fun hc => leftmostStep_of_contract hc) (leftmost.acc hn.nameless) .new
  refine ⟨bound, ?_⟩
  intro maxSteps hle
  rw [normalize_eq_run]
  exact hbound _ _ _ _ hle

/-- The term `(λx. λy. y) ((λz. z z) (λz. z z))`, whose argument has no normal form. -/
def discardOmega : Term :=
  app (abs "x" (abs "y" (var "y")))
    (app (abs "z" (app (var "z") (var "z"))) (abs "z" (app (var "z") (var "z"))))

theorem betaReaches_discardOmega : discardOmega.BetaReaches (abs "y" (var "y")) := by
  have argument : discardOmega.BetaStep (discardOmega.contractAt [1] .new).1 :=
    .contractAt .new rfl rfl
  have root : discardOmega.BetaStep (discardOmega.contractAt [] .new).1 :=
    .contractAt .new rfl rfl
  have unchanged : (discardOmega.contractAt [1] .new).1 = discardOmega := by cbv
  have discarded : (discardOmega.contractAt [] .new).1 = abs "y" (var "y") := by cbv
  rw [unchanged] at argument
  rw [discarded] at root
  exact .head argument (.head root (.refl _))

/-- A first contraction of the argument gets nowhere, but another one follows. -/
theorem normalOrder_normalizing_discardOmega :
    discardOmega.BetaReaches (abs "y" (var "y")) ∧ (abs "y" (var "y")).IsNormal ∧
    ∃ bound, ∀ maxSteps, bound ≤ maxSteps →
      (discardOmega.normalize maxSteps .normalOrder).terminated = true :=
  have hn : (abs "y" (var "y")).IsNormal := isNormal_abs.2 (isNormal_var "y")
  ⟨betaReaches_discardOmega, hn, normalOrder_normalizing betaReaches_discardOmega hn⟩

end Term

end NamedLambda
