import NamedLambda.Proofs.NamelessReduction
import NamedLambda.Proofs.SubjectReduction

/-!
# Typeable terms converge

A term with a type has no infinite sequence of contractions
(`HasType.stronglyNormalizing`), so a reduction ends whichever redex its strategy
takes next (`Context.exists_terminated_of_infer`). Every type is read as a set of
strongly normalizing terms (`Ty.candidate`): at an arrow, those that are in the
codomain's set with every argument from the domain's. A term of a type is in its
set when its free names are (`HasType.interpret_mem`). A free name is in all of
them, at every instance of its scheme.
-/

namespace NamedLambda

namespace Nameless

/-- No infinite sequence of contractions starts here. -/
def StronglyNormalizing (t : Nameless) : Prop := Acc (fun u t => Step t u) t

namespace StronglyNormalizing

theorem step {t u : Nameless} (h : StronglyNormalizing t) (htu : Step t u) :
    StronglyNormalizing u := h.inv htu

theorem of_func {t arg : Nameless} (h : StronglyNormalizing (app t arg)) :
    StronglyNormalizing t := by
  generalize hn : app t arg = n at h
  induction h generalizing t with
  | intro n _ ih =>
    subst hn
    refine .intro t ?_
    intro u hu
    exact ih _ (.func arg hu) rfl

theorem of_bindBound {t : Nameless} {σ : Nat → Nameless}
    (h : StronglyNormalizing (t.bindBound σ)) : StronglyNormalizing t := by
  generalize hn : t.bindBound σ = n at h
  induction h generalizing t with
  | intro n _ ih =>
    subst hn
    refine .intro t ?_
    intro u hu
    exact ih _ (hu.bindBound σ) rfl

end StronglyNormalizing

/-- A term that makes no redex when it is applied. -/
def Neutral (t : Nameless) : Prop := ∀ body, t ≠ lam body

/-- A set of strongly normalizing terms that is closed under contraction. A term
that makes no redex belongs to it if all that it contracts to does. -/
structure Candidate where
  Mem : Nameless → Prop
  normalizing : ∀ {t}, Mem t → StronglyNormalizing t
  step : ∀ {t u}, Mem t → Step t u → Mem u
  expand : ∀ {t}, Neutral t → (∀ u, Step t u → Mem u) → Mem t

namespace Candidate

theorem mem_free (C : Candidate) (x : Name) : C.Mem (free x) := by
  refine C.expand ?_ ?_
  · intro body h
    cases h
  · intro u hu
    cases hu

def all : Candidate where
  Mem := StronglyNormalizing
  normalizing := id
  step := .step
  expand _ h := .intro _ h

theorem mem_app (B : Candidate) {t a : Nameless}
    (beta : ∀ body, t = .lam body → B.Mem (body.instantiate a))
    (func : ∀ u, Step t u → B.Mem (app u a)) (arg : ∀ b, Step a b → B.Mem (app t b)) :
    B.Mem (app t a) := by
  refine B.expand ?_ ?_
  · intro body h
    cases h
  · intro u hu
    cases hu with
    | beta body => exact beta body rfl
    | func _ hu => exact func _ hu
    | arg _ hu => exact arg _ hu

/-- A term that makes no redex may be applied once all that it contracts to may. -/
theorem mem_app_of_neutral (A B : Candidate) {t a : Nameless} (ht : Neutral t)
    (h : ∀ u, Step t u → ∀ a, A.Mem a → B.Mem (app u a)) (ha : A.Mem a) : B.Mem (app t a) := by
  induction A.normalizing ha with
  | intro a _ ih =>
    refine B.mem_app ?_ ?_ ?_
    · intro body hbody
      exact absurd hbody (ht body)
    · intro u hu
      exact h u hu a ha
    · intro b hb
      exact ih b hb (A.step ha hb)

def arrow (A B : Candidate) : Candidate where
  Mem t := ∀ a, A.Mem a → B.Mem (app t a)
  normalizing h := (B.normalizing (h _ (A.mem_free ""))).of_func
  step h htu a ha := B.step (h a ha) (.func a htu)
  expand ht h _ ha := mem_app_of_neutral A B ht h ha

/-- An abstraction is in the set if its body is for every argument. -/
theorem mem_lam {A B : Candidate} {body : Nameless}
    (h : ∀ a, A.Mem a → B.Mem (body.instantiate a)) : (A.arrow B).Mem (lam body) := by
  have hbody : StronglyNormalizing body := (B.normalizing (h _ (A.mem_free ""))).of_bindBound
  intro a ha
  induction hbody generalizing a with
  | intro body _ ihbody =>
    induction A.normalizing ha with
    | intro a _ iharg =>
      refine B.mem_app ?_ ?_ ?_
      · rintro _ ⟨⟩
        exact h a ha
      · intro u hu
        cases hu with
        | lam hu => exact ihbody _ hu (fun a ha => B.step (h a ha) (hu.bindBound _)) a ha
      · intro b hb
        exact iharg b hb (A.step ha hb)

end Candidate

end Nameless

open Nameless (Candidate StronglyNormalizing)

/-- The terms that a type stands for. A variable says nothing about them. -/
def Ty.candidate : Ty → Candidate
  | var _ => .all
  | base _ => .all
  | arrow dom cod => dom.candidate.arrow cod.candidate

namespace HasType

/-- A term is in the set of its type, when terms are put for its free names that
are in the sets of all instances of their schemes. -/
theorem interpret_mem {Γ : Context} {t : Term} {ty : Ty} (h : HasType Γ t ty)
    {ρ : Term.Valuation} (hρ : ∀ x σ, Γ.get? x = some σ → ∀ τ, σ.IsInstance τ →
      τ.candidate.Mem (ρ x)) : ty.candidate.Mem (t.interpret ρ) := by
  induction h generalizing ρ with
  | var hx hi => exact hρ _ _ hx _ hi
  | @abs Γ p body dom cod _ ih =>
    refine Candidate.mem_lam ?_
    intro a ha
    rw [Term.instantiate_interpret]
    refine ih ?_
    intro x σ hx τ hτ
    rw [Context.get?_extend] at hx
    by_cases hxp : x = p
    · rw [if_pos hxp] at hx
      obtain rfl := Option.some.inj hx
      obtain rfl := Scheme.isInstance_mono.1 hτ
      simpa [Term.Valuation.set, hxp] using ha
    · rw [if_neg hxp] at hx
      simpa [Term.Valuation.set, hxp] using hρ x σ hx τ hτ
  | app _ _ ihf iha => exact ihf hρ _ (iha hρ)

theorem stronglyNormalizing {Γ : Context} {t : Term} {ty : Ty} (h : HasType Γ t ty) :
    StronglyNormalizing t.nameless := by
  rw [Term.nameless_eq_interpret]
  exact ty.candidate.normalizing (h.interpret_mem fun x _ _ τ _ => τ.candidate.mem_free x)

end HasType

theorem Settings.terminated_reduce (settings : Settings) (t : Term) :
    (settings.reduce t).terminated =
      (Reduction.run settings.strategy settings.trace t .new 0 [] settings.maxSteps).terminated := by
  simp only [reduce]
  split <;> rfl

/-- A term for which inference finds a type is reduced to a normal form by either
strategy, given enough steps. -/
theorem Context.exists_terminated_of_infer {Γ : Context} (clean : Γ.Clean) {t : Term}
    {r : Inference} (h : Γ.infer t = .ok r)
    (room : Inferencer.Unsaturated (Inferencer.infer Γ t) (.forContext Γ)) :
    ∃ bound, ∀ settings : Settings, bound ≤ settings.maxSteps →
      (settings.reduce t).terminated = true := by
  have hsn := (hasType_of_infer clean room h).2.stronglyNormalizing
  have ends (strategy : Strategy) : ∃ bound, ∀ keepSteps steps past budget, bound ≤ budget →
      (Reduction.run strategy keepSteps t .new steps past budget).terminated = true :=
    Reduction.exists_terminated_of_acc (fun hc => (Term.betaStep_of_contract hc).nameless) hsn .new
  obtain ⟨normal, hnormal⟩ := ends .normalOrder
  obtain ⟨applicative, happlicative⟩ := ends .applicative
  refine ⟨max normal applicative, ?_⟩
  intro settings hle
  rw [Settings.terminated_reduce]
  cases settings.strategy with
  | normalOrder => exact hnormal _ _ _ _ (Nat.le_trans (Nat.le_max_left ..) hle)
  | applicative => exact happlicative _ _ _ _ (Nat.le_trans (Nat.le_max_right ..) hle)

/-- The term `(λf. λy. f (f y)) (id id) ((λz. z) x)`, in which `id` has two types. -/
def Term.twiceIdId : Term :=
  .app (.app
    (.abs "f" (.abs "y" (.app (.var "f") (.app (.var "f") (.var "y")))))
    (.app (.var "id") (.var "id")))
    (.app (.abs "z" (.var "z")) (.var "x"))

theorem Context.exists_terminated_of_infer_twiceIdId :
    (∃ r, Context.idAndX.infer Term.twiceIdId = .ok r) ∧
    ∃ bound, ∀ settings : Settings, bound ≤ settings.maxSteps →
      (settings.reduce Term.twiceIdId).terminated = true := by
  have hanswer : ∃ r, Context.idAndX.infer Term.twiceIdId = .ok r := ⟨_, by cbv⟩
  obtain ⟨r, hr⟩ := hanswer
  exact ⟨⟨r, hr⟩, exists_terminated_of_infer clean_idAndX hr (by cbv)⟩

end NamedLambda
