import NamedLambda.Proofs.PrincipalTypes
import NamedLambda.Proofs.IteratedContraction

/-!
# Reduction keeps types

A term that is reduced has all the types it had before (`HasType.reduce`), so
inference answers for it with a type at least as general
(`Settings.infer_reduce`). The one substitution lemma is about named terms, with
the renaming of binders in it, and about a name with any scheme
(`HasType.substitute`).
-/

namespace NamedLambda

theorem Context.extend_comm (Γ : Context) {x y : Name} (h : x ≠ y) (σ τ : Scheme) :
    (Γ.extend x σ).extend y τ = (Γ.extend y τ).extend x σ := by
  refine OrderedMap.ext ?_
  intro z
  by_cases hy : z = y
  · simp [hy, h.symm]
  · simp [hy]

namespace HasType

/-- A name that is not free in the term may be bound to anything. -/
theorem extend_iff {Γ : Context} {t : Term} {ty : Ty} {x : Name} {σ : Scheme}
    (hx : t.occursFree x = false) : HasType (Γ.extend x σ) t ty ↔ HasType Γ t ty := by
  have agree (y : Name) (hy : t.occursFree y = true) : (Γ.extend x σ).get? y = Γ.get? y := by
    have hne : y ≠ x := by
      rintro rfl
      simp [hx] at hy
    simp [hne]
  exact ⟨fun h => h.congr agree, fun h => h.congr fun y hy => (agree y hy).symm⟩

theorem extend_outside {Γ : Context} {x p q : Name} {σ τ : Scheme} {t : Term} {ty : Ty}
    (h : HasType ((Γ.extend x σ).extend p τ) t ty) (υ : Scheme) (hqx : q ≠ x) (hqp : q ≠ p)
    (hq : t.occursFree q = false) : HasType (((Γ.extend q υ).extend x σ).extend p τ) t ty := by
  rw [← Context.extend_comm _ hqx.symm, ← Context.extend_comm _ hqp.symm]
  exact (extend_iff hq).2 h

/-- What is put in for a name needs all the types that the name may have. -/
theorem of_substitutes {x : Name} {r t u : Term} (htu : Term.Substitutes x r t u) {Γ : Context}
    {σ : Scheme} {ty : Ty} (h : HasType (Γ.extend x σ) t ty)
    (hr : ∀ τ, σ.IsInstance τ → HasType Γ r τ) : HasType Γ u ty := by
  induction htu generalizing Γ σ ty with
  | replaced x r =>
    cases h with
    | var hx hi =>
      rw [Context.get?_extend, if_pos rfl] at hx
      obtain rfl := Option.some.inj hx
      exact hr _ hi
  | other r hyx =>
    cases h with
    | var hy hi =>
      rw [Context.get?_extend, if_neg hyx] at hy
      exact .var hy hi
  | app _ _ ihf iha =>
    cases h with
    | app hfunc harg => exact .app (ihf hfunc hr) (iha harg hr)
  | absent r hx => exact (extend_iff hx).1 h
  | under hpx hpr _ ih =>
    cases h with
    | abs hbody =>
      rw [Context.extend_comm _ hpx.symm] at hbody
      exact .abs (ih hbody fun τ hτ => (extend_iff hpr).2 (hr τ hτ))
  | @renamed x p q r body body' body'' _ hpr hqx hqr hqbody _ _ ihrenamed ih =>
    cases h with
    | @abs _ _ _ dom cod hbody =>
      have hqp : q ≠ p := by
        rintro rfl
        simp [hpr] at hqr
      have hvar : HasType ((Γ.extend q (.mono dom)).extend x σ) (.var q) dom :=
        .var (σ := .mono dom) (by simp [hqx]) (Scheme.isInstance_self _)
      have hrenamed : HasType ((Γ.extend q (.mono dom)).extend x σ) body' cod :=
        ihrenamed (hbody.extend_outside _ hqx hqp hqbody)
          fun τ hτ => Scheme.isInstance_mono.1 hτ ▸ hvar
      exact .abs (ih hrenamed fun τ hτ => (extend_iff hqr).2 (hr τ hτ))

theorem substitute {Γ : Context} {x : Name} {σ : Scheme} {t r : Term} {ty : Ty}
    (h : HasType (Γ.extend x σ) t ty) (hr : ∀ τ, σ.IsInstance τ → HasType Γ r τ)
    (names : NameSupply) : HasType Γ (t.substitute x r names).1 ty :=
  of_substitutes (Term.substitutes_substitute t x r names) h hr

theorem replacedAt {old new t u : Term} {path : Path} (hu : Term.ReplacedAt old new path t u)
    (hnew : ∀ {Γ ty}, HasType Γ old ty → HasType Γ new ty) {Γ : Context} {ty : Ty}
    (h : HasType Γ t ty) : HasType Γ u ty := by
  induction hu generalizing Γ ty with
  | here => exact hnew h
  | body p _ ih =>
    cases h with
    | abs hbody => exact .abs (ih hbody)
  | func arg _ ih =>
    cases h with
    | app hfunc harg => exact .app (ih hfunc) harg
  | arg func _ ih =>
    cases h with
    | app hfunc harg => exact .app hfunc (ih harg)

theorem betaStep {Γ : Context} {t u : Term} {ty : Ty} (h : HasType Γ t ty) (htu : t.BetaStep u) :
    HasType Γ u ty := by
  obtain ⟨names, hs, hr⟩ := htu
  obtain ⟨p, body, arg, rfl⟩ := Term.isRedex_iff.1 hr
  refine replacedAt (Term.replacedAt_contractAt names hs).1 (fun hredex => ?_) h
  cases hredex with
  | app hfunc harg =>
    cases hfunc with
    | abs hbody => exact hbody.substitute (fun τ hτ => Scheme.isInstance_mono.1 hτ ▸ harg) names

theorem betaReaches {Γ : Context} {t u : Term} {ty : Ty} (h : HasType Γ t ty)
    (htu : t.BetaReaches u) : HasType Γ u ty := by
  induction htu with
  | refl => exact h
  | head hstep _ ih => exact ih (h.betaStep hstep)

theorem etaStep? {Γ : Context} {t u : Term} {ty : Ty} (h : HasType Γ t ty)
    (hu : t.etaStep? = some u) : HasType Γ u ty := by
  obtain ⟨p, rfl, hfree⟩ := Term.etaStep?_eq_some_iff.1 hu
  cases h with
  | abs hbody =>
    cases hbody with
    | app hfunc harg =>
      cases harg with
      | var hx hi =>
        rw [Context.get?_extend, if_pos rfl] at hx
        obtain rfl := Option.some.inj hx
        obtain rfl := Scheme.isInstance_mono.1 hi
        exact (extend_iff hfree).1 hfunc

theorem etaReduce {Γ : Context} {t : Term} {ty : Ty} (h : HasType Γ t ty) :
    HasType Γ t.etaReduce ty := by
  induction h with
  | var hx hi => exact .var hx hi
  | @abs Γ p body dom cod _ ih =>
    rw [Term.etaReduce]
    cases hstep : (Term.abs p body.etaReduce).etaStep? with
    | none => exact .abs ih
    | some u => exact (HasType.abs ih).etaStep? hstep
  | app _ _ ihf iha => exact .app ihf iha

/-- Whatever the settings, the term that a reduction leaves has the types of the
one that it was given. -/
theorem reduce {Γ : Context} {t : Term} {ty : Ty} (h : HasType Γ t ty) (settings : Settings) :
    HasType Γ (settings.reduce t).term ty := by
  have hrun := h.betaReaches (Reduction.betaReaches_run settings.strategy settings.trace t .new 0
    [] settings.maxSteps)
  simp only [Settings.reduce]
  split
  · exact hrun.etaReduce
  · exact hrun

end HasType

theorem Context.hasType_of_infer {Γ : Context} (clean : Γ.Clean) {t : Term} {r : Inference}
    (room : Inferencer.Unsaturated (Inferencer.infer Γ t) (.forContext Γ))
    (h : Γ.infer t = .ok r) : Γ.Admits r.subst ∧ HasType (Γ.apply r.subst) t r.ty := by
  obtain ⟨st, hrun⟩ := answer_eq_ok.1 h
  have hinfers := Infers.of_infer hrun ((Inferencer.unsaturated_iff_of_ok hrun).1 room)
  have ready := clean.ready (Inferencer.next_reserve_lt_of_infer room)
  exact ⟨ready.admits (ready.solved (hinfers.settled ready.below).subst), hinfers.hasType ready⟩

/-- For a term that was reduced, to a normal form or not, inference answers with
a type and a substitution of which those for the term itself are an instance. -/
theorem Settings.infer_reduce {Γ : Context} (clean : Γ.Clean) (settings : Settings) {t : Term}
    {r : Inference} (h : Γ.infer t = .ok r)
    (room : Inferencer.Unsaturated (Inferencer.infer Γ t) (.forContext Γ))
    (room' : Inferencer.Unsaturated (Inferencer.infer Γ (settings.reduce t).term)
      (.forContext Γ)) :
    ∃ r', Γ.infer (settings.reduce t).term = .ok r' ∧ r'.HasInstance Γ r.subst r.ty := by
  obtain ⟨hadmits, hty⟩ := Context.hasType_of_infer clean room h
  obtain ⟨r', st', hrun', hinst⟩ := infer_complete clean room' hadmits (hty.reduce settings)
  exact ⟨r', Context.answer_eq_ok.2 ⟨st', hrun'⟩, hinst⟩

/-- The term `(λy. λz. x z) (x id)`: only its argument says what `x` takes. -/
def Term.dropUse : Term :=
  .app (.abs "y" (.abs "z" (.app (.var "x") (.var "z")))) (.app (.var "x") (.var "id"))

/-- One step and eta reduction lead to `x`, with a more general type. -/
theorem Settings.infer_reduce_dropUse :
    (({ eta := true } : Settings).reduce Term.dropUse).term = .var "x" ∧
    ∃ r r', Context.idAndX.infer Term.dropUse = .ok r ∧
      Context.idAndX.infer (({ eta := true } : Settings).reduce Term.dropUse).term = .ok r' ∧
      r.ty ≠ .var 1 ∧ r'.ty = .var 1 ∧ r'.HasInstance Context.idAndX r.subst r.ty := by
  have hterm : (({ eta := true } : Settings).reduce Term.dropUse).term = .var "x" := by cbv
  have hanswer : ∃ r, Context.idAndX.infer Term.dropUse = .ok r ∧ r.ty ≠ .var 1 :=
    ⟨_, by cbv, by decide⟩
  obtain ⟨r, hr, hne⟩ := hanswer
  obtain ⟨r', hr', hinst⟩ := infer_reduce Context.clean_idAndX { eta := true } hr (by cbv) (by cbv)
  have hty : r'.ty = .var 1 := by
    have hx : Context.idAndX.infer (.var "x") = .ok ⟨.var 1, ∅⟩ := by cbv
    rw [hterm, hx] at hr'
    cases hr'
    rfl
  exact ⟨hterm, r, r', hr, hr', hne, hty, hinst⟩

end NamedLambda
