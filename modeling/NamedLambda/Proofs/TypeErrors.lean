import NamedLambda.Proofs.RelevantBindings

/-!
# What an error says about the term

An error of inference is about the term and the context that were given, although it comes
from a part of the term, with more bindings and under a substitution (`TypeError.Genuine`). An
unbound name is free in the whole term and not bound in the whole context, and a clash of
types belongs to an application somewhere in the term. Without an error all names free in the
term are bound (`Context.infer_reports`).
-/

namespace NamedLambda

namespace Ty

/-- What a type is at its root, if it is no variable. -/
inductive Head where
  | base (name : String)
  | arrow
deriving DecidableEq

def head? : Ty → Option Head
  | var _ => none
  | base name => some (.base name)
  | arrow _ _ => some .arrow

end Ty

namespace UnifyError

theorem Clash.occurs {v : TyVar} {ty : Ty} (h : Clash (.infinite v ty)) :
    ty.occurs v = true ∧ ty ≠ .var v := by
  cases h with
  | infinite hv hne => exact ⟨Ty.mem_freeVars.1 hv, hne⟩

theorem Clash.head?_ne {a b : Ty} (h : Clash (.mismatch a b)) :
    ∃ f g, a.head? = some f ∧ b.head? = some g ∧ f ≠ g := by
  cases h with
  | bases hne => exact ⟨_, _, rfl, rfl, by simpa using hne⟩
  | baseArrow => exact ⟨_, _, rfl, rfl, by simp⟩
  | arrowBase => exact ⟨_, _, rfl, rfl, by simp⟩

end UnifyError

/-- Every name free in the term is bound. -/
def Context.Binds (Γ : Context) (t : Term) : Prop :=
  ∀ x, t.occursFree x = true → (Γ.get? x).isSome = true

/-- The error holds of the term and the context: a name is free and not bound, or an
application in the term needs types to be equal that clash. -/
inductive TypeError.Genuine (Γ : Context) (t : Term) : TypeError → Prop
  | unbound {x : Name} : t.occursFree x = true → Γ.get? x = none → Genuine Γ t (.unbound x)
  | clash {path : Path} {func arg : Term} {e : UnifyError} :
      t.subterm? path = some (.app func arg) → e.Clash → Genuine Γ t (.ofUnify (.app func arg) e)

section Parts

variable {Γ : Context} {p : Name} {σ : Scheme} {s : TypeSubst} {body f a : Term}

namespace Context.Binds

theorem abs (h : (Γ.extend p σ).Binds body) : Γ.Binds (.abs p body) := by
  intro x hx
  obtain ⟨hp, hbody⟩ : x ≠ p ∧ body.occursFree x = true := by simpa [Term.occursFree] using hx
  simpa [hp] using h x hbody

theorem app (hf : Γ.Binds f) (ha : (Γ.apply s).Binds a) : Γ.Binds (.app f a) := by
  intro x hx
  rcases Bool.or_eq_true_iff.1 hx with hx | hx
  · exact hf x hx
  · simpa using ha x hx

end Context.Binds

namespace TypeError.Genuine

/-- What is wrong with a part is wrong with the term, if names that are free and not bound
there are so in the term. -/
theorem of_subterm {Δ : Context} {t u : Term} {e : TypeError} (h : Genuine Δ u e) (d : Path)
    (hu : t.subterm? d = some u)
    (names : ∀ x, u.occursFree x = true → Δ.get? x = none →
      t.occursFree x = true ∧ Γ.get? x = none) : Genuine Γ t e := by
  cases h with
  | unbound hfree hget =>
    obtain ⟨hfree, hget⟩ := names _ hfree hget
    exact .unbound hfree hget
  | @clash path g b _ hpath he =>
    have hplace : t.subterm? (d ++ path) = some (.app g b) := by
      rw [Term.subterm?_append, hu]
      exact hpath
    exact .clash hplace he

theorem abs {e : TypeError} (h : Genuine (Γ.extend p σ) body e) : Genuine Γ (.abs p body) e := by
  refine h.of_subterm [0] (Term.subterm?_nil body) fun x hfree hget => ?_
  rw [Context.get?_extend] at hget
  by_cases hp : x = p
  · simp [hp] at hget
  · exact ⟨by simp [Term.occursFree, hp, hfree], by simpa [hp] using hget⟩

theorem func {e : TypeError} (h : Genuine Γ f e) : Genuine Γ (.app f a) e :=
  h.of_subterm [0] (Term.subterm?_nil f) fun x hfree hget =>
    ⟨by simp [Term.occursFree, hfree], hget⟩

theorem arg {e : TypeError} (h : Genuine (Γ.apply s) a e) : Genuine Γ (.app f a) e :=
  h.of_subterm [1] (Term.subterm?_nil a) fun x hfree hget =>
    ⟨by simp [Term.occursFree, hfree], by simpa using hget⟩

end TypeError.Genuine

end Parts

namespace Inferencer

/-- In whatever state a run starts, its answer or its error has the property. -/
def Ends {α : Type} (m : Infer α) (P : α → Prop) (E : TypeError → Prop) : Prop :=
  ∀ st, match m st with
    | .ok a _ => P a
    | .error e _ => E e

namespace Ends

variable {α β : Type} {P P' : α → Prop} {Q : β → Prop} {E E' : TypeError → Prop}

theorem pure {a : α} (h : P a) : Ends (pure a) P E := fun _ => h

theorem throw {e : TypeError} (h : E e) : Ends (throw e) P E := fun _ => h

theorem record (event : Event) : Ends (record event) (fun _ => True) E := fun _ => trivial

theorem fresh : Ends fresh (fun _ => True) E := fun _ => trivial

theorem instantiate (σ : Scheme) : Ends (instantiate σ) (fun _ => True) E := by
  intro st
  obtain ⟨ty, st', hrun, -⟩ := instantiate_run σ st
  rw [hrun]
  trivial

theorem mono {m : Infer α} (h : Ends m P E) (hP : ∀ a, P a → P' a) (hE : ∀ e, E e → E' e) :
    Ends m P' E' := by
  intro st
  have hst := h st
  split at hst
  · exact hP _ hst
  · exact hE _ hst

theorem bind {m : Infer α} {f : α → Infer β} (hm : Ends m P E) (hf : ∀ a, P a → Ends (f a) Q E) :
    Ends (m >>= f) Q E := by
  intro st
  have hst := hm st
  simp only [Bind.bind, EStateM.bind]
  cases hrun : m st with
  | error e st' => simpa only [hrun] using hst
  | ok a st' =>
    rw [hrun] at hst
    exact hf a hst st'

theorem unifySides (Γ : Context) (func arg : Term) (r₁ r₂ : Inference) :
    Ends (unifySides (.app func arg) r₁ r₂) (fun _ => True)
      (TypeError.Genuine Γ (.app func arg)) := by
  intro st
  rw [unifySides_run]
  cases hs : unify (r₁.ty.apply r₂.subst) (.arrow r₂.ty (.var st.next)) with
  | error e => exact .clash (Term.subterm?_nil _) (clash_of_unify hs)
  | ok s => trivial

theorem inferTerm (Γ : Context) (t : Term) :
    Ends (inferTerm Γ t) (fun _ => Γ.Binds t) (TypeError.Genuine Γ t) := by
  induction t generalizing Γ with
  | var x =>
    rw [Inferencer.inferTerm]
    cases hx : Γ.get? x with
    | none => exact .throw (.unbound (by simp [Term.occursFree]) hx)
    | some σ =>
      have bound : Γ.Binds (.var x) := by
        intro y hy
        obtain rfl : y = x := by simpa [Term.occursFree] using hy
        simp [hx]
      exact .bind (.instantiate σ) fun _ _ => .bind (.record _) fun _ _ => .pure bound
  | abs p body ih =>
    rw [Inferencer.inferTerm]
    refine .bind .fresh fun paramTy _ => ?_
    have hbody := (ih (Γ.extend p (.mono paramTy))).mono
      (fun _ => Context.Binds.abs) (fun _ => TypeError.Genuine.abs)
    exact hbody.bind fun _ bound => .pure bound
  | app func arg ihf iha =>
    rw [inferTerm_app]
    have hfunc := (ihf Γ).mono (fun _ bound => bound)
      (fun _ => TypeError.Genuine.func (a := arg))
    refine hfunc.bind fun r₁ bound₁ => ?_
    have harg := (iha (Γ.apply r₁.subst)).mono (fun _ => bound₁.app)
      (fun _ => TypeError.Genuine.arg (f := func))
    refine harg.bind fun r₂ bound => ?_
    exact (Ends.unifySides Γ func arg r₁ r₂).mono (fun _ _ => bound) (fun _ he => he)

end Ends

end Inferencer

/-- What a result of inference says of the context and the term: all free names are bound, or
one is not, or there is an application whose types clash. They are a variable and a type that
has it inside, or types with different roots. -/
def Context.Reports (Γ : Context) (t : Term) : Except TypeError Inference → Prop
  | .ok _ => ∀ x ∈ t.freeVars, (Γ.get? x).isSome = true
  | .error (.unbound x) => x ∈ t.freeVars ∧ Γ.get? x = none
  | .error (.infinite v ty u) =>
    (∃ path func arg, t.subterm? path = some u ∧ u = .app func arg) ∧
      ty.occurs v = true ∧ ty ≠ .var v
  | .error (.mismatch a b u) =>
    (∃ path func arg, t.subterm? path = some u ∧ u = .app func arg) ∧
      ∃ f g, a.head? = some f ∧ b.head? = some g ∧ f ≠ g

theorem Context.Binds.reports {Γ : Context} {t : Term} (h : Γ.Binds t) (r : Inference) :
    Γ.Reports t (.ok r) := fun x hx => h x (Term.mem_freeVars.1 hx)

theorem TypeError.Genuine.reports {Γ : Context} {t : Term} {e : TypeError} (h : Genuine Γ t e) :
    Γ.Reports t (.error e) := by
  cases h with
  | unbound hfree hget => exact ⟨Term.mem_freeVars.2 hfree, hget⟩
  | @clash path func arg e hpath he =>
    cases e with
    | infinite v ty => exact ⟨⟨path, func, arg, hpath, rfl⟩, he.occurs⟩
    | mismatch a b => exact ⟨⟨path, func, arg, hpath, rfl⟩, he.head?_ne⟩

theorem Inferencer.reports_inferTerm (Γ : Context) (t : Term) (st : Inferencer) :
    Γ.Reports t (outcome (inferTerm Γ t) st) := by
  have hst := Ends.inferTerm Γ t st
  unfold outcome
  cases hrun : inferTerm Γ t st with
  | ok r _ =>
    rw [hrun] at hst
    exact Context.Binds.reports hst r
  | error e _ =>
    rw [hrun] at hst
    exact TypeError.Genuine.reports hst

/-- What inference says of a term is so, from whatever number its counter starts. -/
theorem Context.infer_reports (Γ : Context) (t : Term) :
    Γ.Reports t (Γ.infer t) ∧
      ∀ st, Γ.Reports t (Inferencer.outcome (Inferencer.infer Γ t) st) := by
  constructor
  · rw [infer_eq_outcome]
    exact Inferencer.reports_inferTerm Γ t _
  · intro st
    rw [Inferencer.outcome_infer]
    exact Inferencer.reports_inferTerm Γ t _

end NamedLambda
