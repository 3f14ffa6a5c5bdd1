import NamedLambda.Proofs.InferenceSoundness

/-!
# Inference finds principal types

Every typing of a term, in whatever instance of the context, is an instance of
the one that inference answers with (`infer_principal`). A competing typing is
followed through a run by a replacement of the variables below the counter: the
context, read by that replacement, has all the instances that the typing may use
(`Context.Covers`), and each part of the run extends the replacement to the
variables that it makes (`HasType.infers`). The types to be unified become equal
under it, so unification cannot fail and its answer is absorbed.
-/

namespace NamedLambda

/-- An instance of the scheme, when its free variables go by `f`. -/
def Scheme.InstanceUnder (σ : Scheme) (f : TyVar → Ty) (ty : Ty) : Prop :=
  ∃ g : TyVar → Ty, (∀ v, v ∉ σ.vars → g v = f v) ∧ ty = σ.ty.bind g

namespace Scheme.InstanceUnder

variable {σ : Scheme} {f f' : TyVar → Ty} {ty : Ty} {s : TypeSubst}

/-- The substitution is done on the scheme, and `f'` does what is left of `f`. -/
theorem apply (h : σ.InstanceUnder f ty) (hs : σ.NoCapture s)
    (factors : ∀ v ∈ σ.freeVars, f v = ((Ty.var v).apply s).bind f') :
    (σ.apply s).InstanceUnder f' ty := by
  obtain ⟨g, hg, rfl⟩ := h
  refine ⟨fun v => if v ∈ σ.vars then g v else f' v, fun v hv => if_neg hv, ?_⟩
  have free (v : TyVar) (hv : v ∈ σ.freeVars) : ((Ty.var v).apply s).bind f' = g v := by
    rw [hg v (mem_freeVars.1 hv).2, factors v hv]
  exact (bind_apply hs (fun v hv => if_pos hv) (fun v hv => if_neg hv) free).symm

theorem congr (h : σ.InstanceUnder f ty) (agree : ∀ v ∈ σ.freeVars, f v = f' v) :
    σ.InstanceUnder f' ty := by
  obtain ⟨g, hg, rfl⟩ := h
  refine ⟨fun v => if v ∈ σ.vars then g v else f' v, fun v hv => if_neg hv,
    Ty.bind_congr fun v hv => ?_⟩
  by_cases hq : v ∈ σ.vars
  · rw [if_pos hq]
  · rw [if_neg hq, hg v hq, agree v (mem_freeVars.2 ⟨hv, hq⟩)]

theorem of_apply (hs : σ.NoCapture s) (h : (σ.apply s).IsInstance ty) :
    σ.InstanceUnder (fun v => (Ty.var v).apply s) ty := by
  obtain ⟨g, hg, rfl⟩ := isInstance_iff.1 h
  refine ⟨fun v => if v ∈ σ.vars then g v else (Ty.var v).apply s, fun v hv => if_neg hv, ?_⟩
  refine bind_apply (f := .var) hs (fun v hv => (if_pos hv).symm) hg fun v hv => ?_
  rw [if_neg (mem_freeVars.1 hv).2, Ty.bind_self]

/-- The variables from `n` on stand for the quantified ones, in their order, and
may be replaced as these were. -/
theorem exists_bind_freshImages (h : σ.InstanceUnder f ty) {n : TyVar}
    (below : ∀ v ∈ σ.freeVars, v < n) :
    ∃ g : TyVar → Ty, (σ.ty.apply (σ.freshImages n)).bind g = ty ∧ ∀ v, v < n → g v = f v := by
  obtain ⟨g₀, hg₀, rfl⟩ := h
  let g : TyVar → Ty := fun w => if w < n then f w else (σ.vars[w - n]?).elim (.var w) g₀
  refine ⟨g, ?_, fun v hv => if_pos hv⟩
  rw [Ty.bind_apply]
  refine Ty.bind_congr fun v hv => ?_
  by_cases hq : v ∈ σ.vars
  · obtain ⟨i, hi, hget⟩ := get?_freshImages_of_mem n hq
    rw [TypeSubst.apply_var_of_some hget, Ty.bind_var]
    have hnew : ¬ n + i < n := Nat.not_lt.2 (Nat.le_add_right n i)
    simp only [g, if_neg hnew, Nat.add_sub_cancel_left, hi, Option.elim]
  · rw [TypeSubst.apply_var_of_none (get?_freshImages_of_not_mem n hq), hg₀ v hq]
    exact if_pos (below v (mem_freeVars.2 ⟨hv, hq⟩))

/-- What may be generalized in an instance may be generalized before. -/
theorem of_generalize {Γ Δ : Context} {g : TyVar → Ty} {a : Ty}
    (mentioned : ∀ v ∈ Γ.freeVars, ∀ w ∈ (g v).freeVars, w ∈ Δ.freeVars)
    (h : (Δ.generalize (a.bind g)).IsInstance ty) : (Γ.generalize a).InstanceUnder g ty := by
  obtain ⟨f, hf, rfl⟩ := isInstance_iff.1 h
  refine ⟨fun v => if v ∈ (Γ.generalize a).vars then (g v).bind f else g v,
    fun v hv => if_neg hv, ?_⟩
  show (a.bind g).bind f = a.bind _
  rw [Ty.bind_bind]
  refine Ty.bind_congr fun v hv => ?_
  split
  · rfl
  · rename_i hq
    have hfree : v ∈ Γ.freeVars := Decidable.byContradiction fun hfree =>
      hq (Context.mem_vars_generalize.2 ⟨hv, hfree⟩)
    exact Ty.bind_eq_self fun w hw => hf w fun hw' =>
      (Context.mem_vars_generalize.1 hw').2 (mentioned v hfree w hw)

end Scheme.InstanceUnder

namespace Context

/-- What `Δ` allows is allowed by `Γ`, when its free variables go by `f`. -/
def Covers (Γ : Context) (f : TyVar → Ty) (Δ : Context) : Prop :=
  ∀ x τ, Δ.get? x = some τ →
    ∃ σ, Γ.get? x = some σ ∧ ∀ ty, τ.IsInstance ty → σ.InstanceUnder f ty

namespace Covers

variable {Γ Δ : Context} {f f' : TyVar → Ty} {s : TypeSubst}

theorem congr (h : Γ.Covers f Δ) (agree : ∀ v ∈ Γ.freeVars, f v = f' v) : Γ.Covers f' Δ := by
  intro x τ hx
  obtain ⟨σ, hσ, hinst⟩ := h x τ hx
  exact ⟨σ, hσ, fun ty hty => (hinst ty hty).congr fun v hv =>
    agree v (mem_freeVars_iff.2 ⟨x, σ, hσ, hv⟩)⟩

theorem apply (h : Γ.Covers f Δ) (hs : Γ.NoCapture s)
    (factors : ∀ v ∈ Γ.freeVars, f v = ((Ty.var v).apply s).bind f') : (Γ.apply s).Covers f' Δ := by
  intro x τ hx
  obtain ⟨σ, hσ, hinst⟩ := h x τ hx
  exact ⟨σ.apply s, by simp [hσ], fun ty hty => (hinst ty hty).apply (hs x σ hσ) fun v hv =>
    factors v (mem_freeVars_iff.2 ⟨x, σ, hσ, hv⟩)⟩

theorem of_apply (hs : Γ.NoCapture s) : Γ.Covers (fun v => (Ty.var v).apply s) (Γ.apply s) := by
  intro x τ hx
  rw [get?_apply, Option.map_eq_some_iff] at hx
  obtain ⟨σ, hσ, rfl⟩ := hx
  exact ⟨σ, hσ, fun ty hty => .of_apply (hs x σ hσ) hty⟩

theorem extend (h : Γ.Covers f Δ) (name : Name) {σ τ : Scheme}
    (general : ∀ ty, τ.IsInstance ty → σ.InstanceUnder f ty) :
    (Γ.extend name σ).Covers f (Δ.extend name τ) := by
  intro x τ' hx
  rw [get?_extend] at hx ⊢
  split
  · rw [if_pos ‹_›] at hx
    obtain rfl := Option.some.inj hx
    exact ⟨σ, rfl, general⟩
  · rw [if_neg ‹_›] at hx
    exact h x τ' hx

end Covers

end Context

/-- The replacement `f`, on variables below `n`, and the type `ty` come from the
answer by the replacement `g`. -/
structure Inference.Factors (r : Inference) (n : TyVar) (f g : TyVar → Ty) (ty : Ty) : Prop where
  ty : r.ty.bind g = ty
  subst : ∀ v, v < n → ((Ty.var v).apply r.subst).bind g = f v

namespace Inference.Factors

variable {r : Inference} {n m : TyVar} {f g : TyVar → Ty} {ty : Ty}

theorem bind_apply (h : r.Factors n f g ty) {a : Ty} (ha : ∀ v ∈ a.freeVars, v < n) :
    (a.apply r.subst).bind g = a.bind f := by
  rw [Ty.bind_apply]
  exact Ty.bind_congr fun v hv => h.subst v (ha v hv)

theorem covers (h : r.Factors n f g ty) {Γ Δ : Context} {P : TyVar → Prop} (ready : Γ.Ready n P)
    (settled : r.Settled (Γ.Reach n m)) (covers : Γ.Covers f Δ) :
    (Γ.apply r.subst).Covers g Δ :=
  covers.apply (ready.noCapture (ready.solved settled.subst)) fun v hv =>
    (h.subst v (ready.below v hv)).symm

end Inference.Factors

/-- A competing typing is found by inference, as an instance of its answer. -/
theorem HasType.infers {Δ : Context} {t : Term} {ty : Ty} (h : HasType Δ t ty) {Γ : Context}
    {n : TyVar} {P : TyVar → Prop} {f : TyVar → Ty} (ready : Γ.Ready n P) (covers : Γ.Covers f Δ) :
    ∃ r m g, Infers Γ t n r m ∧ r.Factors n f g ty := by
  induction h generalizing Γ n f with
  | @var Δ x τ ty hx hi =>
    obtain ⟨σ, hσ, hinst⟩ := covers x τ hx
    obtain ⟨g, hty, hg⟩ := (hinst ty hi).exists_bind_freshImages fun v hv =>
      ready.below v (Context.mem_freeVars_iff.2 ⟨x, σ, hσ, hv⟩)
    refine ⟨_, _, g, .var n hσ, hty, fun v hv => ?_⟩
    rw [TypeSubst.apply_empty]
    exact hg v hv
  | @abs Δ p body dom cod _ ih =>
    have known : ∀ v, v < n → Function.update f n dom v = f v := fun v hv =>
      Function.update_of_ne (Nat.ne_of_lt hv) dom f
    have extended : (Γ.extend p (.mono (.var n))).Covers (Function.update f n dom)
        (Δ.extend p (.mono dom)) := by
      refine (covers.congr fun v hv => (known v (ready.below v hv)).symm).extend p fun ty hty => ?_
      obtain rfl := Scheme.isInstance_mono.1 hty
      exact ⟨_, fun _ _ => rfl, (Function.update_self n ty f).symm⟩
    obtain ⟨r, m, g, hbody, hr⟩ := ih (ready.extend p) extended
    refine ⟨_, m, g, .abs hbody, ?_, fun v hv => ?_⟩
    · rw [Ty.bind_arrow, hr.ty, hr.subst n (Nat.lt_succ_self n), Function.update_self]
    · rw [hr.subst v (Nat.lt_succ_of_lt hv), known v hv]
  | @app Δ func arg dom cod _ _ ihf iha =>
    obtain ⟨r₁, n₁, g₁, hfunc, hr₁⟩ := ihf ready covers
    have settled₁ := hfunc.settled ready.below
    have ready₁ := ready.apply settled₁.subst hfunc.le
    obtain ⟨r₂, n₂, g₂, harg, hr₂⟩ := iha ready₁ (hr₁.covers ready settled₁ covers)
    have settled₂ := harg.settled ready₁.below
    -- neither side mentions the variable that stands for the result
    let g₃ := Function.update g₂ n₂ cod
    have result : g₃ n₂ = cod := Function.update_self n₂ cod g₂
    have known {a : Ty} (ha : ∀ v ∈ a.freeVars, v < n₂) : a.bind g₃ = a.bind g₂ :=
      Ty.bind_congr fun v hv => Function.update_of_ne (Nat.ne_of_lt (ha v hv)) cod g₂
    have second {a : Ty} (ha : ∀ v ∈ a.freeVars, v < n₁) :
        (a.apply r₂.subst).bind g₃ = a.bind g₁ := by
      rw [known (settled₂.lt_of_mem_freeVars_apply ready₁.below harg.le ha), hr₂.bind_apply ha]
    have funcTy : (r₁.ty.apply r₂.subst).bind g₃ = .arrow dom cod := by
      rw [second (settled₁.lt_of_mem_freeVars ready.below hfunc.le), hr₁.ty]
    have argTy : (Ty.arrow r₂.ty (.var n₂)).bind g₃ = .arrow dom cod := by
      rw [Ty.bind_arrow, known (settled₂.lt_of_mem_freeVars ready₁.below harg.le), hr₂.ty,
        Ty.bind_var, result]
    cases hs : unify (r₁.ty.apply r₂.subst) (.arrow r₂.ty (.var n₂)) with
    | error e => exact absurd (funcTy.trans argTy.symm) (bind_ne_of_unify hs g₃)
    | ok s =>
      have absorbed := unify_eq_bind hs (funcTy.trans argTy.symm)
      refine ⟨_, _, g₃, .app hfunc harg hs, ?_, fun v hv => ?_⟩
      · exact (absorbed n₂).trans result
      · calc ((Ty.var v).apply ((s.compose r₂.subst).compose r₁.subst)).bind g₃
          _ = (((Ty.var v).apply r₁.subst).apply r₂.subst).bind g₃ := by
            rw [TypeSubst.apply_compose, TypeSubst.apply_compose, Ty.bind_apply]
            exact Ty.bind_congr fun w _ => absorbed w
          _ = ((Ty.var v).apply r₁.subst).bind g₁ :=
            second (settled₁.lt_of_mem_freeVars_apply ready.below hfunc.le (by simpa using hv))
          _ = f v := hr₁.subst v hv

theorem HasLetType.infers {Δ : Context} {name : Name} {bound body : Term} {ty : Ty}
    (h : HasLetType Δ name bound body ty) {Γ : Context} {n : TyVar} {P : TyVar → Prop}
    {f : TyVar → Ty} (ready : Γ.Ready n P) (covers : Γ.Covers f Δ)
    (mentioned : ∀ v ∈ Γ.freeVars, ∀ w ∈ (f v).freeVars, w ∈ Δ.freeVars) :
    ∃ r m g, InfersLet Γ name bound body n r m ∧ r.Factors n f g ty := by
  obtain ⟨boundTy, hbound, hbody⟩ := h
  obtain ⟨r₁, n₁, g₁, hinfers₁, hr₁⟩ := hbound.infers ready covers
  have settled₁ := hinfers₁.settled ready.below
  let Γ₁ := Γ.apply r₁.subst
  have ready₁ : Γ₁.Ready n₁ P := ready.apply settled₁.subst hinfers₁.le
  have mentioned₁ : ∀ u ∈ Γ₁.freeVars, ∀ w ∈ (g₁ u).freeVars, w ∈ Δ.freeVars := by
    intro u hu w hw
    obtain ⟨v, hv, huv⟩ := Context.mem_freeVars_apply hu
    refine mentioned v hv w ?_
    rw [← hr₁.subst v (ready.below v hv)]
    exact Ty.mem_freeVars_bind.2 ⟨u, huv, hw⟩
  have general (τ : Ty) (hτ : (Δ.generalize boundTy).IsInstance τ) :
      (Γ₁.generalize r₁.ty).InstanceUnder g₁ τ := by
    rw [← hr₁.ty] at hτ
    exact .of_generalize mentioned₁ hτ
  have below₁ := settled₁.lt_of_mem_freeVars ready.below hinfers₁.le
  obtain ⟨r₂, m, g₂, hinfers₂, hr₂⟩ :=
    hbody.infers (ready₁.generalize name below₁)
      ((hr₁.covers ready settled₁ covers).extend name general)
  refine ⟨_, m, g₂, .intro hinfers₁ hinfers₂, hr₂.ty, fun v hv => ?_⟩
  rw [TypeSubst.apply_compose, hr₂.bind_apply, hr₁.subst v hv]
  exact settled₁.lt_of_mem_freeVars_apply ready.below hinfers₁.le (by simpa using hv)

/-- The typing under `θ` comes from the answer by one more substitution, on all
that the context shares with it. -/
def Inference.HasInstance (r : Inference) (Γ : Context) (θ : TypeSubst) (ty : Ty) : Prop :=
  ∃ ρ : TypeSubst, ty = r.ty.apply ρ ∧
    ∀ v ∈ Γ.freeVars, (Ty.var v).apply θ = ((Ty.var v).apply r.subst).apply ρ

namespace Context

/-- The answer to the question what is typable: all that is typable, in whatever
admitted instance of the context, is an instance of it, and it is an error only
if nothing is. -/
structure Principal (Γ : Context) (typable : Context → Ty → Prop)
    (answer : Except TypeError Inference) : Prop where
  general : ∀ (θ : TypeSubst) (ty : Ty), Γ.Admits θ → typable (Γ.apply θ) ty →
    ∃ r, answer = .ok r ∧ r.HasInstance Γ θ ty
  error_iff : (∃ e, answer = .error e) ↔
    ¬ ∃ (θ : TypeSubst) (ty : Ty), Γ.Admits θ ∧ typable (Γ.apply θ) ty

theorem Principal.of_runs {Γ : Context} {typable : Context → Ty → Prop} {m : Infer Inference}
    (sound : ∀ r st, m (.forContext Γ) = .ok r st →
      Γ.Admits r.subst ∧ typable (Γ.apply r.subst) r.ty)
    (complete : ∀ (θ : TypeSubst) (ty : Ty), Γ.Admits θ → typable (Γ.apply θ) ty →
      ∃ r st, m (.forContext Γ) = .ok r st ∧ r.HasInstance Γ θ ty) :
    Γ.Principal typable (Γ.answer m) := by
  have general (θ : TypeSubst) (ty : Ty) (hθ : Γ.Admits θ) (hty : typable (Γ.apply θ) ty) :
      ∃ r, Γ.answer m = .ok r ∧ r.HasInstance Γ θ ty := by
    obtain ⟨r, st, hrun, hinst⟩ := complete θ ty hθ hty
    exact ⟨r, answer_eq_ok.2 ⟨st, hrun⟩, hinst⟩
  refine ⟨general, ?_, fun untypable => ?_⟩
  · rintro ⟨e, he⟩ ⟨θ, ty, hθ, hty⟩
    obtain ⟨r, hr, _⟩ := general θ ty hθ hty
    rw [he] at hr
    cases hr
  · cases hanswer : Γ.answer m with
    | error e => exact ⟨e, rfl⟩
    | ok r =>
      obtain ⟨st, hrun⟩ := answer_eq_ok.1 hanswer
      obtain ⟨hadmits, hty⟩ := sound r st hrun
      exact absurd ⟨r.subst, r.ty, hadmits, hty⟩ untypable

end Context

theorem Inference.Factors.hasInstance {r : Inference} {Γ : Context} {n m : TyVar}
    {θ : TypeSubst} {g : TyVar → Ty} {ty : Ty}
    (h : r.Factors n (fun v => (Ty.var v).apply θ) g ty) (settled : r.Settled (Γ.Reach n m))
    (below : ∀ v ∈ Γ.freeVars, v < n) (hnm : n ≤ m) : r.HasInstance Γ θ ty := by
  let ρ := TypeSubst.restrict g (List.range m)
  have finite {a : Ty} (ha : ∀ v ∈ a.freeVars, v < m) : a.apply ρ = a.bind g :=
    TypeSubst.apply_restrict fun v hv => List.mem_range.2 (ha v hv)
  refine ⟨ρ, ?_, fun v hv => ?_⟩
  · rw [finite (settled.lt_of_mem_freeVars below hnm), h.ty]
  · have hvar : ∀ w ∈ (Ty.var v).freeVars, w < n := by simpa using below v hv
    rw [finite (settled.lt_of_mem_freeVars_apply below hnm hvar), h.subst v (below v hv)]

/-- What is typable in an admitted instance of the context, inference finds, from
whatever number its counter starts. -/
theorem infer_complete {Γ : Context} (clean : Γ.Clean) {t : Term} {st : Inferencer}
    (room : Inferencer.Unsaturated (Inferencer.infer Γ t) st) {θ : TypeSubst} {ty : Ty}
    (hθ : Γ.Admits θ) (h : HasType (Γ.apply θ) t ty) :
    ∃ r st', Inferencer.infer Γ t st = .ok r st' ∧ r.HasInstance Γ θ ty := by
  have ready := clean.ready (Inferencer.next_reserve_lt_of_infer room)
  obtain ⟨r, m, g, hinfers, hr⟩ := h.infers ready (.of_apply hθ.noCapture)
  obtain ⟨st', hrun, _⟩ := hinfers.infer_eq room
  exact ⟨r, st', hrun, hr.hasInstance (hinfers.settled ready.below) ready.below hinfers.le⟩

theorem inferLet_complete {Γ : Context} (clean : Γ.Clean) {name : Name} {bound body : Term}
    {st : Inferencer} (room : Inferencer.Unsaturated (Inferencer.inferLet Γ name bound body) st)
    {θ : TypeSubst} {ty : Ty} (hθ : Γ.Admits θ)
    (h : HasLetType (Γ.apply θ) name bound body ty) :
    ∃ r st', Inferencer.inferLet Γ name bound body st = .ok r st' ∧ r.HasInstance Γ θ ty := by
  have ready := clean.ready (Inferencer.next_reserve_lt_of_inferLet room)
  obtain ⟨r, m, g, hinfers, hr⟩ := h.infers ready (.of_apply hθ.noCapture) fun v hv w hw =>
    Context.mem_freeVars_apply_of_noCapture hθ.noCapture hv hw
  obtain ⟨st', hrun, _⟩ := hinfers.inferLet_eq room
  exact ⟨r, st', hrun, hr.hasInstance (hinfers.settled ready.below) ready.below hinfers.le⟩

/-- Inference answers with a principal typing, and fails only if there is none. -/
theorem infer_principal {Γ : Context} (clean : Γ.Clean) :
    (∀ t : Term, Inferencer.Unsaturated (Inferencer.infer Γ t) (.forContext Γ) →
      Γ.Principal (fun Δ ty => HasType Δ t ty) (Γ.infer t)) ∧
    ∀ (name : Name) (bound body : Term),
      Inferencer.Unsaturated (Inferencer.inferLet Γ name bound body) (.forContext Γ) →
        Γ.Principal (fun Δ ty => HasLetType Δ name bound body ty)
          (Γ.inferLet name bound body) := by
  constructor
  · intro t room
    have ready := clean.ready (Inferencer.next_reserve_lt_of_infer room)
    refine .of_runs (fun r st hrun => ?_) fun θ ty hθ h => infer_complete clean room hθ h
    have hinfers := Infers.of_infer hrun ((Inferencer.unsaturated_iff_of_ok hrun).1 room)
    exact ⟨ready.admits (ready.solved (hinfers.settled ready.below).subst), hinfers.hasType ready⟩
  · intro name bound body room
    have ready := clean.ready (Inferencer.next_reserve_lt_of_inferLet room)
    refine .of_runs (fun r st hrun => ?_) fun θ ty hθ h => inferLet_complete clean room hθ h
    have hinfers := InfersLet.of_inferLet hrun ((Inferencer.unsaturated_iff_of_ok hrun).1 room)
    exact ⟨ready.admits (ready.solved (hinfers.settled ready.below).subst),
      hinfers.hasLetType ready⟩

/-- The term `x (id id)` has a principal typing, and `x x` has none. -/
theorem infer_principal_idAndX :
    (∃ r, Context.idAndX.infer (.app (.var "x") (.app (.var "id") (.var "id"))) = .ok r ∧
      Context.idAndX.Principal
        (fun Δ ty => HasType Δ (.app (.var "x") (.app (.var "id") (.var "id"))) ty) (.ok r)) ∧
    (¬ ∃ θ ty, Context.idAndX.Admits θ ∧
      HasType (Context.idAndX.apply θ) (.app (.var "x") (.var "x")) ty) ∧
    Context.idAndX.Principal
      (fun Δ ty => HasLetType Δ "k" (.abs "y" (.var "y")) (.app (.var "k") (.var "k")) ty)
      (Context.idAndX.inferLet "k" (.abs "y" (.var "y")) (.app (.var "k") (.var "k"))) := by
  obtain ⟨hinfer, hlet⟩ := infer_principal Context.clean_idAndX
  refine ⟨?_, ?_, hlet _ _ _ (by cbv)⟩
  · have hanswer : ∃ r, Context.idAndX.infer
        (.app (.var "x") (.app (.var "id") (.var "id"))) = .ok r := ⟨_, by cbv⟩
    obtain ⟨r, hr⟩ := hanswer
    exact ⟨r, hr, hr ▸ hinfer _ (by cbv)⟩
  · have hanswer : ∃ e, Context.idAndX.infer (.app (.var "x") (.var "x")) = .error e :=
      ⟨_, by cbv⟩
    exact (hinfer _ (by cbv)).error_iff.1 hanswer

end NamedLambda
