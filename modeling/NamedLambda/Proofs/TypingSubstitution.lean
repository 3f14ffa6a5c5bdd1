import NamedLambda.Proofs.TypeValuation
import NamedLambda.Typing.Context

/-!
# Typings under a substitution

A substitution keeps a typing (`HasType.apply`) as long as it captures nothing:
what it puts in for a free variable of a scheme must not fall under the
quantifier of that scheme. This is asked of one scheme at a time, so a parameter
may have any type. More general schemes keep a typing as well (`HasType.mono`).
-/

namespace NamedLambda

namespace Scheme

theorem mem_freeVars {σ : Scheme} {v : TyVar} :
    v ∈ σ.freeVars ↔ v ∈ σ.ty.freeVars ∧ v ∉ σ.vars := by
  simp [freeVars]

theorem isInstance_iff {σ : Scheme} {ty : Ty} :
    σ.IsInstance ty ↔ ∃ f : TyVar → Ty, (∀ v, v ∉ σ.vars → f v = .var v) ∧ ty = σ.ty.bind f := by
  constructor
  · rintro ⟨s, hs, rfl⟩
    exact ⟨fun v => (Ty.var v).apply s, fun v hv => TypeSubst.apply_var_of_none (hs v hv),
      Ty.apply_eq_bind s σ.ty⟩
  · rintro ⟨f, hf, rfl⟩
    refine ⟨TypeSubst.restrict f σ.vars, fun v hv => by simp [TypeSubst.get?_restrict, hv], ?_⟩
    rw [Ty.apply_eq_bind]
    refine Ty.bind_congr fun v _ => ?_
    by_cases hv : v ∈ σ.vars
    · simp [Ty.apply, TypeSubst.get?_restrict, hv]
    · simp [Ty.apply, TypeSubst.get?_restrict, hv, hf v hv]

/-- No variable that is put in for a free one comes under the quantifier. -/
def NoCapture (σ : Scheme) (s : TypeSubst) : Prop :=
  ∀ v ∈ σ.freeVars, ∀ w ∈ ((Ty.var v).apply s).freeVars, w ∉ σ.vars

theorem noCapture_mono (ty : Ty) (s : TypeSubst) : (mono ty).NoCapture s :=
  fun _ _ _ _ => List.not_mem_nil

theorem apply_without (s : TypeSubst) (vars : List TyVar) (v : TyVar) :
    (Ty.var v).apply (s.without vars) = if v ∈ vars then .var v else (Ty.var v).apply s := by
  by_cases hv : v ∈ vars <;> simp [Ty.apply, TypeSubst.without, hv]

theorem apply_mono (s : TypeSubst) (ty : Ty) : (mono ty).apply s = mono (ty.apply s) :=
  congrArg mono (Ty.apply_congr fun v _ => by simp [mono, apply_without])

/-- A scheme under a substitution, read by a replacement: the quantified
variables go by the replacement, and the free ones by the substitution first. -/
theorem bind_apply {σ : Scheme} {s : TypeSubst} (hs : σ.NoCapture s) {f g k : TyVar → Ty}
    (quantified : ∀ v ∈ σ.vars, g v = k v) (others : ∀ v, v ∉ σ.vars → g v = f v)
    (free : ∀ v ∈ σ.freeVars, ((Ty.var v).apply s).bind f = k v) :
    (σ.apply s).ty.bind g = σ.ty.bind k := by
  rw [apply, Ty.bind_apply]
  refine Ty.bind_congr fun v hv => ?_
  rw [apply_without]
  by_cases hq : v ∈ σ.vars
  · simpa [hq] using quantified v hq
  · have hfree : v ∈ σ.freeVars := mem_freeVars.2 ⟨hv, hq⟩
    rw [if_neg hq, ← free v hfree]
    exact Ty.bind_congr fun w hw => others w (hs v hfree w hw)

theorem apply_apply {σ : Scheme} {s : TypeSubst} (hs : σ.NoCapture s) (t : TypeSubst) :
    (σ.apply s).apply t = σ.apply (t.compose s) := by
  have hty : (σ.apply s).ty.apply (t.without σ.vars) =
      σ.ty.apply ((t.compose s).without σ.vars) := by
    rw [Ty.apply_eq_bind (t.without σ.vars), Ty.apply_eq_bind ((t.compose s).without σ.vars)]
    refine bind_apply (f := fun v => (Ty.var v).apply t) hs (fun v hv => ?_) (fun v hv => ?_)
      (fun v hv => ?_)
    · simp [apply_without, hv]
    · simp [apply_without, hv]
    · have hq := (mem_freeVars.1 hv).2
      rw [apply_without, if_neg hq, TypeSubst.apply_compose, ← Ty.apply_eq_bind]
  exact congrArg (Scheme.mk σ.vars) hty

theorem apply_congr {σ : Scheme} {s t : TypeSubst}
    (h : ∀ v ∈ σ.freeVars, (Ty.var v).apply s = (Ty.var v).apply t) : σ.apply s = σ.apply t := by
  refine congrArg (Scheme.mk σ.vars) (Ty.apply_congr fun v hv => ?_)
  rw [apply_without, apply_without]
  by_cases hq : v ∈ σ.vars
  · simp [hq]
  · simp only [if_neg hq]
    exact h v (mem_freeVars.2 ⟨hv, hq⟩)

theorem mem_freeVars_apply {σ : Scheme} {s : TypeSubst} {w : TyVar}
    (h : w ∈ (σ.apply s).freeVars) : ∃ v ∈ σ.freeVars, w ∈ ((Ty.var v).apply s).freeVars := by
  obtain ⟨hty, hw⟩ := mem_freeVars.1 h
  obtain ⟨v, hv, hwv⟩ := Ty.mem_freeVars_apply.1 hty
  rw [apply_without] at hwv
  split at hwv
  · obtain rfl := Ty.mem_freeVars_var.1 hwv
    exact absurd ‹_› hw
  · exact ⟨v, mem_freeVars.2 ⟨hv, ‹_›⟩, hwv⟩

theorem mem_freeVars_apply_of_noCapture {σ : Scheme} {s : TypeSubst} (hs : σ.NoCapture s)
    {v w : TyVar} (hv : v ∈ σ.freeVars) (hw : w ∈ ((Ty.var v).apply s).freeVars) :
    w ∈ (σ.apply s).freeVars := by
  obtain ⟨hty, hq⟩ := mem_freeVars.1 hv
  refine mem_freeVars.2 ⟨Ty.mem_freeVars_apply.2 ⟨v, hty, ?_⟩, hs v hv w hw⟩
  rwa [apply_without, if_neg hq]

theorem IsInstance.apply {σ : Scheme} {ty : Ty} {s : TypeSubst} (h : σ.IsInstance ty)
    (hs : σ.NoCapture s) : (σ.apply s).IsInstance (ty.apply s) := by
  obtain ⟨f, hf, rfl⟩ := isInstance_iff.1 h
  refine isInstance_iff.2 ⟨fun v => if v ∈ σ.vars then (f v).apply s else .var v,
    fun v hv => if_neg hv, ?_⟩
  rw [bind_apply (f := .var) (k := fun v => (f v).apply s) hs]
  · rw [Ty.apply_eq_bind, Ty.bind_bind]
    exact Ty.bind_congr fun v _ => (Ty.apply_eq_bind s (f v)).symm
  · intro v hv
    simp [hv]
  · intro v hv
    simp [hv]
  · intro v hv
    rw [hf v (mem_freeVars.1 hv).2, Ty.bind_self]

end Scheme

namespace Context

@[simp] theorem get?_extend (Γ : Context) (x y : Name) (σ : Scheme) :
    (Γ.extend x σ).get? y = if y = x then some σ else Γ.get? y :=
  OrderedMap.get?_insert x y σ Γ

@[simp] theorem get?_apply (s : TypeSubst) (Γ : Context) (x : Name) :
    (Γ.apply s).get? x = (Γ.get? x).map (Scheme.apply s) :=
  OrderedMap.get?_mapValues (Scheme.apply s) Γ x

theorem mem_freeVars_iff {Γ : Context} {v : TyVar} :
    v ∈ Γ.freeVars ↔ ∃ x σ, Γ.get? x = some σ ∧ v ∈ σ.freeVars := by
  simp only [mem_freeVars, OrderedMap.mem_values]
  constructor
  · rintro ⟨σ, ⟨x, hx⟩, hv⟩
    exact ⟨x, σ, hx, hv⟩
  · rintro ⟨x, σ, hx, hv⟩
    exact ⟨σ, ⟨x, hx⟩, hv⟩

theorem clean_iff {Γ : Context} :
    Γ.Clean ↔ ∀ x σ, Γ.get? x = some σ → ∀ v ∈ σ.vars, v ∉ Γ.freeVars := by
  simp only [Clean, OrderedMap.mem_values]
  constructor
  · intro h x σ hx
    exact h σ ⟨x, hx⟩
  · rintro h σ ⟨x, hx⟩
    exact h x σ hx

/-- No scheme of the context captures what the substitution puts in. -/
def NoCapture (Γ : Context) (s : TypeSubst) : Prop :=
  ∀ x σ, Γ.get? x = some σ → σ.NoCapture s

/-- A free variable becomes a type without the variables that are quantified
somewhere in the context. -/
def Admits (Γ : Context) (s : TypeSubst) : Prop :=
  ∀ v ∈ Γ.freeVars, ∀ w ∈ ((Ty.var v).apply s).freeVars, ∀ σ ∈ Γ.values, w ∉ σ.vars

theorem Admits.noCapture {Γ : Context} {s : TypeSubst} (h : Γ.Admits s) : Γ.NoCapture s :=
  fun x σ hx v hv w hw =>
    h v (mem_freeVars_iff.2 ⟨x, σ, hx, hv⟩) w hw σ (OrderedMap.mem_values.2 ⟨x, hx⟩)

theorem apply_apply {Γ : Context} {s : TypeSubst} (hs : Γ.NoCapture s) (t : TypeSubst) :
    (Γ.apply s).apply t = Γ.apply (t.compose s) := by
  refine OrderedMap.ext fun x => ?_
  cases hx : Γ.get? x with
  | none => simp [hx]
  | some σ => simp [hx, Scheme.apply_apply (hs x σ hx)]

theorem apply_congr {Γ : Context} {s t : TypeSubst}
    (h : ∀ v ∈ Γ.freeVars, (Ty.var v).apply s = (Ty.var v).apply t) : Γ.apply s = Γ.apply t := by
  refine OrderedMap.ext fun x => ?_
  cases hx : Γ.get? x with
  | none => simp [hx]
  | some σ =>
    have hσ : σ.apply s = σ.apply t :=
      Scheme.apply_congr fun v hv => h v (mem_freeVars_iff.2 ⟨x, σ, hx, hv⟩)
    simp [hx, hσ]

theorem mem_freeVars_apply {Γ : Context} {s : TypeSubst} {w : TyVar}
    (h : w ∈ (Γ.apply s).freeVars) : ∃ v ∈ Γ.freeVars, w ∈ ((Ty.var v).apply s).freeVars := by
  obtain ⟨x, σ', hx, hw⟩ := mem_freeVars_iff.1 h
  rw [get?_apply, Option.map_eq_some_iff] at hx
  obtain ⟨σ, hσ, rfl⟩ := hx
  obtain ⟨v, hv, hwv⟩ := Scheme.mem_freeVars_apply hw
  exact ⟨v, mem_freeVars_iff.2 ⟨x, σ, hσ, hv⟩, hwv⟩

theorem mem_freeVars_apply_of_noCapture {Γ : Context} {s : TypeSubst} (hs : Γ.NoCapture s)
    {v w : TyVar} (hv : v ∈ Γ.freeVars) (hw : w ∈ ((Ty.var v).apply s).freeVars) :
    w ∈ (Γ.apply s).freeVars := by
  obtain ⟨x, σ, hx, hσ⟩ := mem_freeVars_iff.1 hv
  exact mem_freeVars_iff.2 ⟨x, σ.apply s, by simp [hx],
    Scheme.mem_freeVars_apply_of_noCapture (hs x σ hx) hσ hw⟩

theorem extend_apply (Γ : Context) (x : Name) (σ : Scheme) (s : TypeSubst) :
    (Γ.extend x σ).apply s = (Γ.apply s).extend x (σ.apply s) := by
  refine OrderedMap.ext fun y => ?_
  by_cases hy : y = x <;> simp [hy]

theorem mem_freeVars_extend {Γ : Context} {x : Name} {σ : Scheme} {v : TyVar}
    (h : v ∈ (Γ.extend x σ).freeVars) : v ∈ Γ.freeVars ∨ v ∈ σ.freeVars := by
  obtain ⟨y, σ', hy, hv⟩ := mem_freeVars_iff.1 h
  rw [get?_extend] at hy
  split at hy
  · obtain rfl := Option.some.inj hy
    exact .inr hv
  · exact .inl (mem_freeVars_iff.2 ⟨y, σ', hy, hv⟩)

end Context

namespace HasType

theorem mono {Γ Δ : Context} {t : Term} {ty : Ty} (h : HasType Γ t ty)
    (general : ∀ x σ, Γ.get? x = some σ →
      ∃ σ', Δ.get? x = some σ' ∧ ∀ ty, σ.IsInstance ty → σ'.IsInstance ty) : HasType Δ t ty := by
  induction h generalizing Δ with
  | var hx hi =>
    obtain ⟨σ', hx', hσ'⟩ := general _ _ hx
    exact .var hx' (hσ' _ hi)
  | abs _ ih =>
    refine .abs (ih fun x σ hx => ?_)
    rw [Context.get?_extend] at hx ⊢
    split
    · simp_all
    · exact general x σ (by simp_all)
  | app _ _ ihf iha => exact .app (ihf general) (iha general)

theorem apply {Γ : Context} {t : Term} {ty : Ty} (h : HasType Γ t ty) {s : TypeSubst}
    (hs : Γ.NoCapture s) : HasType (Γ.apply s) t (ty.apply s) := by
  induction h with
  | @var Γ x σ ty hx hi => exact .var (σ := σ.apply s) (by simp [hx]) (hi.apply (hs x σ hx))
  | @abs Γ p body dom cod _ ih =>
    have extended : (Γ.extend p (.mono dom)).NoCapture s := by
      intro x σ hx
      rw [Context.get?_extend] at hx
      split at hx
      · obtain rfl := Option.some.inj hx
        exact Scheme.noCapture_mono dom s
      · exact hs x σ hx
    have hbody := ih extended
    rw [Context.extend_apply, Scheme.apply_mono] at hbody
    exact .abs hbody
  | app _ _ ihf iha => exact .app (ihf hs) (iha hs)

end HasType

end NamedLambda
