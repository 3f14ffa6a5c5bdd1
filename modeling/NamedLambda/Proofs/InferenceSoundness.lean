import NamedLambda.Proofs.InferenceVariables

/-!
# Inference is sound

What inference answers is a typing, in the context under the substitution it
answers with (`infer_sound`). Every later substitution acts on a typing found
before, and it must capture nothing in the context; that is what `Context.Ready`
is carried along for. With `let` the bound term has its type generalized in the
first context, and the variables quantified there are neither replaced nor put
in by what follows.
-/

namespace NamedLambda

theorem Context.apply_empty (Γ : Context) : Γ.apply ∅ = Γ := by
  refine OrderedMap.ext fun x => ?_
  cases hx : Γ.get? x with
  | none => simp [hx]
  | some σ =>
    have hσ : σ.apply ∅ = σ := by
      refine congrArg (Scheme.mk σ.vars) (Ty.apply_eq_self fun v _ => ?_)
      simp [TypeSubst.without]
    simp [hx, hσ]

theorem Scheme.isInstance_freshImages (σ : Scheme) (n : TyVar) :
    σ.IsInstance (σ.ty.apply (σ.freshImages n)) :=
  ⟨σ.freshImages n, fun _ hv => get?_freshImages_of_not_mem n hv, rfl⟩

theorem Infers.hasType {Γ : Context} {t : Term} {n m : TyVar} {r : Inference}
    (h : Infers Γ t n r m) {P : TyVar → Prop} (ready : Γ.Ready n P) :
    HasType (Γ.apply r.subst) t r.ty := by
  induction h with
  | @var Γ x σ n hx =>
    rw [Context.apply_empty]
    exact .var hx (σ.isInstance_freshImages n)
  | @abs Γ p body n m r _ ih =>
    have hbody := ih (ready.extend p)
    rw [Context.extend_apply, Scheme.apply_mono] at hbody
    exact .abs hbody
  | @app Γ func arg n n₁ n₂ r₁ r₂ s hfunc harg hs ihf iha =>
    have hr₁ := hfunc.settled ready.below
    have ready₁ := ready.apply hr₁.subst hfunc.le
    have hr₂ := harg.settled ready₁.below
    have ready₂ := ready₁.apply hr₂.subst harg.le
    have hs₁ := ready.solved hr₁.subst
    have hs₂ := ready₁.solved hr₂.subst
    have hs₃ : s.Solved P := (solved_of_unify hs).mono fun v hv => by
      simp only [Unification.vars, OrderedSet.mem_union, Ty.mem_freeVars_arrow,
        Ty.mem_freeVars_var] at hv
      rcases hv with hv | hv | rfl
      · exact (hs₂.mem_freeVars_apply hv).elim (fun h => ready.reach (hr₁.ty v h).1) id
      · exact ready₁.reach (hr₂.ty v hv).1
      · exact ready₁.fresh v harg.le
    have hfuncTy := ((ihf ready).apply (ready₁.noCapture hs₂)).apply (ready₂.noCapture hs₃)
    have hargTy := (iha ready₁).apply (ready₂.noCapture hs₃)
    rw [apply_eq_of_unify hs] at hfuncTy
    rw [← Context.apply_apply (ready.noCapture hs₁), ← Context.apply_apply (ready₁.noCapture hs₂)]
    exact .app hfuncTy hargTy

theorem Scheme.IsInstance.of_subset {vars vars' : List TyVar} {ty ty' : Ty}
    (h : IsInstance ⟨vars, ty⟩ ty') (hvars : ∀ v ∈ ty.freeVars, v ∈ vars → v ∈ vars') :
    IsInstance ⟨vars', ty⟩ ty' := by
  obtain ⟨f, hf, rfl⟩ := isInstance_iff.1 h
  refine isInstance_iff.2 ⟨fun v => if v ∈ vars' then f v else .var v, fun v hv => if_neg hv,
    Ty.bind_congr fun v hv => ?_⟩
  by_cases hq : v ∈ vars'
  · simp [hq]
  · have hv' : v ∉ vars := mt (hvars v hv) hq
    simp [hq, hf v hv']

theorem InfersLet.hasLetType {Γ : Context} {name : Name} {bound body : Term} {n m : TyVar}
    {r : Inference} (h : InfersLet Γ name bound body n r m) {P : TyVar → Prop}
    (ready : Γ.Ready n P) : HasLetType (Γ.apply r.subst) name bound body r.ty := by
  obtain @⟨n₁, _, r₁, r₂, hbound, hbody⟩ := h
  have hr₁ := hbound.settled ready.below
  let Γ₁ := Γ.apply r₁.subst
  let σ := Γ₁.generalize r₁.ty
  have ready₁ : Γ₁.Ready n₁ P := ready.apply hr₁.subst hbound.le
  have ready₂ := ready₁.generalize name (hr₁.lt_of_mem_freeVars ready.below hbound.le)
  have hr₂ := hbody.settled ready₂.below
  have hs₂ := ready₂.solved hr₂.subst
  have hs₂P : r₂.subst.Solved P := hs₂.mono fun v hv => hv.elim (ready₁.free v) (ready₁.fresh v)
  have kept (v : TyVar) (hv : v ∈ Γ₁.freeVars) :
      (Ty.var v).apply (r₂.subst.without σ.vars) = (Ty.var v).apply r₂.subst := by
    rw [Scheme.apply_without, if_neg fun hq => (Context.mem_vars_generalize.1 hq).2 hv]
  have capture : Γ₁.NoCapture (r₂.subst.without σ.vars) := by
    intro x τ hx v hv
    rw [kept v (Context.mem_freeVars_iff.2 ⟨x, τ, hx, hv⟩)]
    exact ready₁.noCapture hs₂P x τ hx v hv
  have hΓ : Γ₁.apply r₂.subst = Γ.apply (r₂.subst.compose r₁.subst) :=
    Context.apply_apply (ready.noCapture (ready.solved hr₁.subst)) _
  have hboundTy := (hbound.hasType ready).apply capture
  rw [Context.apply_congr kept, hΓ] at hboundTy
  refine ⟨_, hboundTy, (hbody.hasType ready₂).mono fun x τ hx => ?_⟩
  rw [Context.extend_apply, hΓ, Context.get?_extend] at hx
  rw [Context.get?_extend]
  split
  · rw [if_pos ‹_›] at hx
    obtain rfl := Option.some.inj hx
    refine ⟨_, rfl, fun ty hty => hty.of_subset fun v hv hq => ?_⟩
    refine Context.mem_vars_generalize.2 ⟨hv, fun hfree => ?_⟩
    rw [← hΓ] at hfree
    obtain ⟨u, hu, hvu⟩ := Context.mem_freeVars_apply hfree
    rcases hs₂.mem_freeVars_apply_var hvu with rfl | hP
    · exact (Context.mem_vars_generalize.1 hq).2 hu
    · exact ready₂.quantified name σ (by simp [σ, Γ₁]) v hq hP
  · rw [if_neg ‹_›] at hx
    exact ⟨τ, hx, fun ty hty => hty⟩

/-- What inference answers is a typing, from whatever number its counter starts,
as long as there is room in the counter. -/
theorem infer_sound {Γ : Context} (clean : Γ.Clean) :
    (∀ (t : Term) (st st' : Inferencer) (r : Inference),
      Inferencer.infer Γ t st = .ok r st' → st'.next < TyVar.last →
        HasType (Γ.apply r.subst) t r.ty) ∧
    ∀ (name : Name) (bound body : Term) (st st' : Inferencer) (r : Inference),
      Inferencer.inferLet Γ name bound body st = .ok r st' → st'.next < TyVar.last →
        HasLetType (Γ.apply r.subst) name bound body r.ty := by
  constructor
  · intro t st st' r h room
    have hinfers := Infers.of_infer h room
    exact hinfers.hasType (clean.ready (Nat.lt_of_le_of_lt hinfers.le room))
  · intro name bound body st st' r h room
    have hinfers := InfersLet.of_inferLet h room
    exact hinfers.hasLetType (clean.ready (Nat.lt_of_le_of_lt hinfers.le room))

/-- The identity at every type, and `x` at one that is not known. -/
def Context.idAndX : Context :=
  .ofList [("id", ⟨[0], .arrow (.var 0) (.var 0)⟩), ("x", .mono (.var 1))]

theorem Context.clean_idAndX : Context.idAndX.Clean := by
  rw [idAndX, Clean]
  decide +kernel

/-- The terms are `x (id id)` and `let k = \y. x y in id k`. -/
theorem infer_sound_idAndX :
    (∃ s, HasType (Context.idAndX.apply s)
      (.app (.var "x") (.app (.var "id") (.var "id"))) (.var 5)) ∧
    ∃ s, HasLetType (Context.idAndX.apply s) "k" (.abs "y" (.app (.var "x") (.var "y")))
      (.app (.var "id") (.var "k")) (.arrow (.var 2) (.var 3)) := by
  obtain ⟨hinfer, hlet⟩ := infer_sound Context.clean_idAndX
  have room : (6 : TyVar) < TyVar.last := by decide
  constructor
  · have hrun : ∃ s log, Inferencer.infer .idAndX
        (.app (.var "x") (.app (.var "id") (.var "id"))) (.forContext .idAndX) =
          .ok ⟨.var 5, s⟩ ⟨6, log⟩ := ⟨_, _, by cbv⟩
    obtain ⟨s, log, hrun⟩ := hrun
    exact ⟨s, hinfer _ _ _ _ hrun room⟩
  · have hrun : ∃ s log, Inferencer.inferLet .idAndX "k" (.abs "y" (.app (.var "x") (.var "y")))
        (.app (.var "id") (.var "k")) (.forContext .idAndX) =
          .ok ⟨.arrow (.var 2) (.var 3), s⟩ ⟨6, log⟩ := ⟨_, _, by cbv⟩
    obtain ⟨s, log, hrun⟩ := hrun
    exact ⟨s, hlet _ _ _ _ _ _ hrun room⟩

end NamedLambda
