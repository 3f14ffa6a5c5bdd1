import NamedLambda.Proofs.CanonicalTypes
import NamedLambda.Proofs.SubjectReduction

/-!
# A let is typed as its expansion

To give a name the generalized type of a term is to write the term wherever the
name is free (`hasLetType_iff_substitute`), so inference finds the same types
for both (`Context.inferLet_substitute`). For one direction each copy of the term
is typed by itself. For the other all copies have to share one generalized type,
and that is the principal one among the types of the term in the context as it
is (`HasType.exists_generalizes`): what inference answers, after its renaming of
the context's variables is undone (`Context.Undoes`).
-/

namespace NamedLambda

theorem Infers.unique {Γ : Context} {t : Term} {n m m' : TyVar} {r r' : Inference}
    (h : Infers Γ t n r m) (h' : Infers Γ t n r' m') : r = r' ∧ m = m' := by
  induction h generalizing r' m' with
  | var n hx =>
    cases h' with
    | var _ hx' =>
      obtain rfl := Option.some.inj (hx.symm.trans hx')
      exact ⟨rfl, rfl⟩
  | abs _ ih =>
    cases h' with
    | abs hbody =>
      obtain ⟨rfl, rfl⟩ := ih hbody
      exact ⟨rfl, rfl⟩
  | app _ _ hs ihf iha =>
    cases h' with
    | app hfunc harg hs' =>
      obtain ⟨rfl, rfl⟩ := ihf hfunc
      obtain ⟨rfl, rfl⟩ := iha harg
      obtain rfl := Except.ok.inj (hs.symm.trans hs')
      exact ⟨rfl, rfl⟩

namespace Context

variable {Γ : Context} {s : TypeSubst} {g g' : TyVar → Ty}

theorem Admits.clean (h : Γ.Admits s) : (Γ.apply s).Clean := by
  rw [clean_iff]
  intro x σ hx v hv hfree
  rw [get?_apply, Option.map_eq_some_iff] at hx
  obtain ⟨τ, hτ, rfl⟩ := hx
  obtain ⟨u, hu, hvu⟩ := mem_freeVars_apply hfree
  exact h u hu v hvu τ (OrderedMap.mem_values.2 ⟨x, hτ⟩) hv

/-- The replacement takes the variables of the context back from where the
substitution has put them. -/
def Undoes (Γ : Context) (g : TyVar → Ty) (s : TypeSubst) : Prop :=
  ∀ v ∈ Γ.freeVars, ((Ty.var v).apply s).bind g = .var v

namespace Undoes

theorem exists_eq_var (h : Γ.Undoes g s) {u : TyVar} (hu : u ∈ (Γ.apply s).freeVars) :
    ∃ v ∈ Γ.freeVars, g u = .var v := by
  obtain ⟨v, hv, huv⟩ := mem_freeVars_apply hu
  refine ⟨v, hv, ?_⟩
  have hback := h v hv
  cases himage : (Ty.var v).apply s with
  | var w =>
    rw [himage] at huv hback
    obtain rfl := Ty.mem_freeVars_var.1 huv
    exact hback
  | _ =>
    rw [himage] at hback
    cases hback

theorem agree (h : Γ.Undoes g s) (h' : Γ.Undoes g' s) {u : TyVar}
    (hu : u ∈ (Γ.apply s).freeVars) : g u = g' u := by
  obtain ⟨v, hv, huv⟩ := mem_freeVars_apply hu
  exact Ty.eq_of_bind_eq ((h v hv).trans (h' v hv).symm) u huv

theorem congr (h : Γ.Undoes g s) (hs : Γ.NoCapture s)
    (hg : ∀ u ∈ (Γ.apply s).freeVars, g' u = g u) : Γ.Undoes g' s := by
  intro v hv
  have hbind : ((Ty.var v).apply s).bind g' = ((Ty.var v).apply s).bind g :=
    Ty.bind_congr fun u hu => hg u (mem_freeVars_apply_of_noCapture hs hv hu)
  rw [hbind, h v hv]

end Undoes

end Context

theorem Infers.hasType_bind {Γ : Context} {t : Term} {n m : TyVar} {r : Inference}
    {P : TyVar → Prop} {g : TyVar → Ty} (h : Infers Γ t n r m) (ready : Γ.Ready n P) (clean : Γ.Clean)
    (undoes : Γ.Undoes g r.subst) : HasType Γ t (r.ty.bind g) := by
  have settled := h.settled ready.below
  have capture := ready.noCapture (ready.solved settled.subst)
  let ρ := TypeSubst.restrict g (List.range m)
  have finite {a : Ty} (ha : ∀ v ∈ a.freeVars, v < m) : a.apply ρ = a.bind g :=
    TypeSubst.apply_restrict fun v hv => List.mem_range.2 (ha v hv)
  have below := Context.lt_of_mem_freeVars_apply settled.subst ready.below h.le
  have image {u : TyVar} (hu : u ∈ (Γ.apply r.subst).freeVars) : (Ty.var u).apply ρ = g u := by
    rw [finite (by simpa using below u hu), Ty.bind_var]
  have captureBack : (Γ.apply r.subst).NoCapture ρ := by
    intro x σ hx v hv w hw
    have hfree := Context.mem_freeVars_iff.2 ⟨x, σ, hx, hv⟩
    obtain ⟨u, hu, hgv⟩ := undoes.exists_eq_var hfree
    rw [image hfree, hgv] at hw
    obtain rfl := Ty.mem_freeVars_var.1 hw
    rw [Context.get?_apply, Option.map_eq_some_iff] at hx
    obtain ⟨τ, hτ, rfl⟩ := hx
    exact fun hq => Context.clean_iff.1 clean x τ hτ w hq hu
  have back : (Γ.apply r.subst).apply ρ = Γ := by
    calc (Γ.apply r.subst).apply ρ
      _ = Γ.apply (ρ.compose r.subst) := Context.apply_apply capture ρ
      _ = Γ.apply ∅ := by
        apply Context.apply_congr
        intro v hv
        have hvar : ∀ w ∈ (Ty.var v).freeVars, w < n := by simpa using ready.below v hv
        rw [TypeSubst.apply_compose, TypeSubst.apply_empty,
          finite (settled.lt_of_mem_freeVars_apply ready.below h.le hvar), undoes v hv]
      _ = Γ := Context.apply_empty Γ
  have hty := (h.hasType ready).apply captureBack
  rwa [back, finite (settled.lt_of_mem_freeVars ready.below h.le)] at hty

namespace HasType

/-- Generalizing is right: all instances are types of the term. -/
theorem of_generalize {Γ : Context} {t : Term} {ty τ : Ty} (h : HasType Γ t ty)
    (hτ : (Γ.generalize ty).IsInstance τ) : HasType Γ t τ := by
  obtain ⟨s, hs, rfl⟩ := hτ
  have kept : ∀ v ∈ Γ.freeVars, (Ty.var v).apply s = .var v := by
    intro v hv
    exact TypeSubst.apply_var_of_none (hs v fun hq => (Context.mem_vars_generalize.1 hq).2 hv)
  have capture : Γ.NoCapture s := by
    intro x σ hx v hv w hw
    rw [kept v (Context.mem_freeVars_iff.2 ⟨x, σ, hx, hv⟩)] at hw
    obtain rfl := Ty.mem_freeVars_var.1 hw
    exact (Scheme.mem_freeVars.1 hv).2
  have hΓ : Γ.apply s = Γ.apply ∅ :=
    Context.apply_congr fun v hv => (kept v hv).trans (TypeSubst.apply_empty _).symm
  have hty := h.apply capture
  rwa [hΓ, Context.apply_empty] at hty

/-- Among the types of a term in a clean context one has all others as instances,
when it is generalized there. -/
theorem exists_generalizes {Γ : Context} (clean : Γ.Clean) {t : Term} {τ₀ : Ty}
    (h : HasType Γ t τ₀) :
    ∃ ty, HasType Γ t ty ∧ ∀ τ, HasType Γ t τ → (Γ.generalize ty).IsInstance τ := by
  obtain ⟨n, ready⟩ := clean.exists_ready
  have covers : Γ.Covers .var Γ := fun x σ hx => ⟨σ, hx, fun _ hi => Scheme.isInstance_iff.1 hi⟩
  obtain ⟨r, m, g₀, hinfers, hr₀⟩ := h.infers ready covers
  have undoes₀ : Γ.Undoes g₀ r.subst := fun v hv => hr₀.subst v (ready.below v hv)
  let Γ₁ := Γ.apply r.subst
  let g : TyVar → Ty := fun u => if u ∈ Γ₁.freeVars then g₀ u else .var (n + u)
  have undoes : Γ.Undoes g r.subst := by
    refine undoes₀.congr ?_ fun u hu => if_pos hu
    exact ready.noCapture (ready.solved (hinfers.settled ready.below).subst)
  refine ⟨r.ty.bind g, hinfers.hasType_bind ready clean undoes, ?_⟩
  intro τ hτ
  obtain ⟨r', m', k, hinfers', hr⟩ := hτ.infers ready covers
  obtain ⟨rfl, rfl⟩ := hinfers.unique hinfers'
  have undoesτ : Γ.Undoes k r.subst := fun v hv => hr.subst v (ready.below v hv)
  let quantified := (Γ.generalize (r.ty.bind g)).vars
  let f : TyVar → Ty := fun w => if w ∈ quantified then k (w - n) else .var w
  refine Scheme.isInstance_iff.2 ⟨f, fun w hw => if_neg hw, ?_⟩
  show τ = (r.ty.bind g).bind f
  rw [Ty.bind_bind, ← hr.ty]
  apply Ty.bind_congr
  intro u hu
  by_cases hshared : u ∈ Γ₁.freeVars
  · obtain ⟨v, hv, hgv⟩ := undoes.exists_eq_var hshared
    have hfree : v ∉ quantified := fun hq => (Context.mem_vars_generalize.1 hq).2 hv
    rw [undoesτ.agree undoes hshared, hgv, Ty.bind_var]
    exact (if_neg hfree).symm
  · have hg : g u = .var (n + u) := if_neg hshared
    have hquantified : n + u ∈ quantified := by
      refine Context.mem_vars_generalize.2 ⟨Ty.mem_freeVars_bind.2 ⟨u, hu, by simp [hg]⟩, ?_⟩
      intro hfree
      exact absurd (ready.below _ hfree) (Nat.not_lt.2 (Nat.le_add_right n u))
    rw [hg, Ty.bind_var]
    simp only [f, if_pos hquantified, Nat.add_sub_cancel_left]

theorem exists_of_substitutes {x : Name} {r t u : Term} (htu : Term.Substitutes x r t u)
    {Γ : Context} {ty : Ty} (hx : t.occursFree x = true) (h : HasType Γ u ty) :
    ∃ τ, HasType Γ r τ := by
  induction htu generalizing Γ ty with
  | replaced x r => exact ⟨ty, h⟩
  | other r hyx => exact absurd (of_decide_eq_true hx).symm hyx
  | app _ _ ihf iha =>
    cases h with
    | app hfunc harg =>
      rcases Bool.or_eq_true_iff.1 hx with hx | hx
      · exact ihf hx hfunc
      · exact iha hx harg
  | absent r habsent =>
    rw [habsent] at hx
    cases hx
  | under hpx hpr _ ih =>
    cases h with
    | abs hbody =>
      obtain ⟨τ, hτ⟩ := ih (Bool.and_eq_true_iff.1 hx).2 hbody
      exact ⟨τ, (extend_iff hpr).1 hτ⟩
  | renamed hpx hpr hqx hqr hqbody hrenamed _ _ ih =>
    cases h with
    | abs hbody =>
      have hx' := hrenamed.occursFree_iff.2 (.inl ⟨hpx.symm, (Bool.and_eq_true_iff.1 hx).2⟩)
      obtain ⟨τ, hτ⟩ := ih hx' hbody
      exact ⟨τ, (extend_iff hqr).1 hτ⟩

theorem extend_of_substitutes {x : Name} {r t u : Term} (htu : Term.Substitutes x r t u)
    {Γ : Context} {σ : Scheme} {ty : Ty} (h : HasType Γ u ty)
    (hr : ∀ τ, HasType Γ r τ → σ.IsInstance τ) : HasType (Γ.extend x σ) t ty := by
  induction htu generalizing Γ σ ty with
  | replaced x r => exact .var (by simp) (hr ty h)
  | other r hyx =>
    cases h with
    | var hy hi => exact .var (by simp [hyx, hy]) hi
  | app _ _ ihf iha =>
    cases h with
    | app hfunc harg => exact .app (ihf hfunc hr) (iha harg hr)
  | absent r hx => exact (extend_iff hx).2 h
  | under hpx hpr _ ih =>
    cases h with
    | abs hbody =>
      refine .abs ?_
      rw [Context.extend_comm _ hpx.symm]
      exact ih hbody fun τ hτ => hr τ ((extend_iff hpr).1 hτ)
  | @renamed x p q r body body' body'' hpx hpr hqx hqr hqbody _ _ ihrenamed ih =>
    cases h with
    | @abs _ _ _ dom cod hbody =>
      have hqp : q ≠ p := by
        rintro rfl
        simp [hpr] at hqr
      have hbody' := ih hbody fun τ hτ => hr τ ((extend_iff hqr).1 hτ)
      have hold :
          HasType (((Γ.extend q (.mono dom)).extend x σ).extend p (.mono dom)) body cod := by
        refine ihrenamed hbody' fun τ hτ => ?_
        cases hτ with
        | var hq hi =>
          rw [Context.get?_extend, if_neg hqx, Context.get?_extend, if_pos rfl] at hq
          obtain rfl := Option.some.inj hq
          exact hi
      rw [Context.extend_comm _ hqx, Context.extend_comm _ hqp] at hold
      exact .abs ((extend_iff hqbody).1 hold)

end HasType

/-- The judgment for `let` is the judgment for the term with all copies written
out. -/
theorem hasLetType_iff_substitute {Γ : Context} (clean : Γ.Clean) {name : Name}
    {bound body : Term} {ty : Ty} (hname : body.occursFree name = true) (names : NameSupply) :
    HasLetType Γ name bound body ty ↔ HasType Γ (body.substitute name bound names).1 ty := by
  constructor
  · rintro ⟨boundTy, hbound, hbody⟩
    exact hbody.substitute (fun τ hτ => hbound.of_generalize hτ) names
  · intro h
    have hcopies := Term.substitutes_substitute body name bound names
    obtain ⟨τ₀, hτ₀⟩ := HasType.exists_of_substitutes hcopies hname h
    obtain ⟨boundTy, hbound, hgeneral⟩ := hτ₀.exists_generalizes clean
    exact ⟨boundTy, hbound, HasType.extend_of_substitutes hcopies h hgeneral⟩

theorem Context.hasLetType_of_inferLet {Γ : Context} (clean : Γ.Clean) {name : Name}
    {bound body : Term} {r : Inference}
    (room : Inferencer.Unsaturated (Inferencer.inferLet Γ name bound body) (.forContext Γ))
    (h : Γ.inferLet name bound body = .ok r) :
    Γ.Admits r.subst ∧ HasLetType (Γ.apply r.subst) name bound body r.ty := by
  obtain ⟨st, hrun⟩ := answer_eq_ok.1 h
  have hinfers := InfersLet.of_inferLet hrun ((Inferencer.unsaturated_iff_of_ok hrun).1 room)
  have ready := clean.ready (Inferencer.next_reserve_lt_of_inferLet room)
  exact ⟨ready.admits (ready.solved (hinfers.settled ready.below).subst), hinfers.hasLetType ready⟩

theorem Inference.HasInstance.principal_eq {Γ Δ : Context} {θ θ' : TypeSubst} {r r' : Inference}
    (h : r.HasInstance Γ θ r'.ty) (h' : r'.HasInstance Δ θ' r.ty) : r.principal = r'.principal := by
  obtain ⟨ρ, hρ, _⟩ := h
  obtain ⟨ρ', hρ', _⟩ := h'
  rw [Ty.apply_eq_bind] at hρ hρ'
  exact Ty.canonical_eq_of_bind hρ.symm hρ'.symm

/-- A name that is used in the body of a `let` may be written out: inference
succeeds for the one if it does for the other, with the same principal type. -/
theorem Context.inferLet_substitute {Γ : Context} (clean : Γ.Clean) {name : Name}
    {bound body : Term} (hname : body.occursFree name = true) (names : NameSupply)
    (room : Inferencer.Unsaturated (Inferencer.inferLet Γ name bound body) (.forContext Γ))
    (room' : Inferencer.Unsaturated
      (Inferencer.infer Γ (body.substitute name bound names).1) (.forContext Γ)) :
    ((∃ r, Γ.inferLet name bound body = .ok r) ↔
        ∃ r', Γ.infer (body.substitute name bound names).1 = .ok r') ∧
      ∀ r r', Γ.inferLet name bound body = .ok r →
        Γ.infer (body.substitute name bound names).1 = .ok r' → r.principal = r'.principal := by
  have expanded (r : Inference) (h : Γ.inferLet name bound body = .ok r) :
      ∃ r', Γ.infer (body.substitute name bound names).1 = .ok r' ∧
        r'.HasInstance Γ r.subst r.ty := by
    obtain ⟨hadmits, hty⟩ := hasLetType_of_inferLet clean room h
    have hcopies := (hasLetType_iff_substitute hadmits.clean hname names).1 hty
    obtain ⟨r', st, hrun, hinst⟩ := infer_complete clean room' hadmits hcopies
    exact ⟨r', answer_eq_ok.2 ⟨st, hrun⟩, hinst⟩
  have shared (r' : Inference) (h : Γ.infer (body.substitute name bound names).1 = .ok r') :
      ∃ r, Γ.inferLet name bound body = .ok r ∧ r.HasInstance Γ r'.subst r'.ty := by
    obtain ⟨hadmits, hty⟩ := hasType_of_infer clean room' h
    have hlet := (hasLetType_iff_substitute hadmits.clean hname names).2 hty
    obtain ⟨r, st, hrun, hinst⟩ := inferLet_complete clean room hadmits hlet
    exact ⟨r, answer_eq_ok.2 ⟨st, hrun⟩, hinst⟩
  refine ⟨⟨?_, ?_⟩, ?_⟩
  · rintro ⟨r, hr⟩
    obtain ⟨r', hr', _⟩ := expanded r hr
    exact ⟨r', hr'⟩
  · rintro ⟨r', hr'⟩
    obtain ⟨r, hr, _⟩ := shared r' hr'
    exact ⟨r, hr⟩
  · intro r r' hr hr'
    obtain ⟨q', hq', hinst'⟩ := expanded r hr
    obtain ⟨q, hq, hinst⟩ := shared r' hr'
    obtain rfl := Except.ok.inj (hr'.symm.trans hq')
    obtain rfl := Except.ok.inj (hr.symm.trans hq)
    exact hinst.principal_eq hinst'

def Term.constX : Term := .abs "y" (.var "x")

def Term.twiceUnderX : Term :=
  .abs "x" (.app (.var "f") (.app (.var "f") (.var "x")))

/-- The copies are free in `x`, so the binder around them gives way. -/
theorem Context.inferLet_substitute_twiceUnderX :
    (Term.twiceUnderX.substitute "f" Term.constX .new).1 =
        .abs "x1" (.app Term.constX (.app Term.constX (.var "x1"))) ∧
      ∃ r r', Context.idAndX.inferLet "f" Term.constX Term.twiceUnderX = .ok r ∧
        Context.idAndX.infer (Term.twiceUnderX.substitute "f" Term.constX .new).1 = .ok r' ∧
        r.ty ≠ r'.ty ∧ r.principal = r'.principal := by
  obtain ⟨⟨expanded, _⟩, principal⟩ := @inferLet_substitute idAndX clean_idAndX "f" Term.constX
    Term.twiceUnderX (by decide) .new (by cbv) (by cbv)
  have hlet : ∃ r, idAndX.inferLet "f" Term.constX Term.twiceUnderX = .ok r ∧
      r.ty = .arrow (.var 3) (.var 7) := ⟨_, by cbv, rfl⟩
  obtain ⟨r, hr, hty⟩ := hlet
  obtain ⟨r', hr'⟩ := expanded ⟨r, hr⟩
  have hty' : r'.ty = .arrow (.var 2) (.var 6) := by
    have hcopies : ∃ q, idAndX.infer (Term.twiceUnderX.substitute "f" Term.constX .new).1 = .ok q ∧
        q.ty = .arrow (.var 2) (.var 6) := ⟨_, by cbv, rfl⟩
    obtain ⟨q, hq, hqty⟩ := hcopies
    rw [hr'] at hq
    cases hq
    exact hqty
  exact ⟨by cbv, r, r', hr, hr', by rw [hty, hty']; decide, principal r r' hr hr'⟩

end NamedLambda
