import NamedLambda.Typing.Ty

/-!
# Values of types

A type has a value wherever its variables have one and arrows can be taken
apart again (`Ty.eval`). Types are such a place themselves, and there a value is
what a simultaneous replacement of all variables gives (`Ty.bind`). Finite
substitutions are replacements (`Ty.apply_eq_bind`), and on finitely many
variables every replacement is a finite substitution (`TypeSubst.restrict`). Composed, they
form a monoid that acts on types (`TypeSubst.compose_monoid`).
-/

namespace NamedLambda

namespace Ty

/-- Where types can have values. Both sides of an arrow can be read off it. -/
structure Model (D : Type) where
  base : String → D
  arrow : D → D → D
  arrow_inj : ∀ {a b c d : D}, arrow a b = arrow c d → a = c ∧ b = d

def eval {D : Type} (M : Model D) (ρ : TyVar → D) : Ty → D
  | var v => ρ v
  | base name => M.base name
  | arrow dom cod => M.arrow (dom.eval M ρ) (cod.eval M ρ)

def Model.types : Model Ty where
  base := .base
  arrow := .arrow
  arrow_inj h := Ty.arrow.inj h

/-- All variables replaced at once. -/
def bind (f : TyVar → Ty) (ty : Ty) : Ty := ty.eval .types f

@[simp] theorem bind_var (f : TyVar → Ty) (v : TyVar) : (var v).bind f = f v := rfl

@[simp] theorem bind_base (f : TyVar → Ty) (name : String) : (base name).bind f = base name := rfl

@[simp] theorem bind_arrow (f : TyVar → Ty) (dom cod : Ty) :
    (arrow dom cod).bind f = arrow (dom.bind f) (cod.bind f) := rfl

section Eval

variable {D : Type} {M : Model D}

theorem eval_congr {ρ ρ' : TyVar → D} {ty : Ty} (h : ∀ v ∈ ty.freeVars, ρ v = ρ' v) :
    ty.eval M ρ = ty.eval M ρ' := by
  induction ty with
  | var v => exact h v (by simp)
  | base => rfl
  | arrow dom cod ihd ihc =>
    have hd := ihd fun v hv => h v (by simp [hv])
    have hc := ihc fun v hv => h v (by simp [hv])
    simp only [eval, hd, hc]

theorem eval_bind (f : TyVar → Ty) (ρ : TyVar → D) (ty : Ty) :
    (ty.bind f).eval M ρ = ty.eval M fun v => (f v).eval M ρ := by
  induction ty with
  | var v => rfl
  | base => rfl
  | arrow dom cod ihd ihc => simp only [bind_arrow, eval, ihd, ihc]

theorem apply_eq_bind (s : TypeSubst) (ty : Ty) :
    ty.apply s = ty.bind fun v => (var v).apply s := by
  induction ty with
  | var v => rfl
  | base => rfl
  | arrow dom cod ihd ihc => simp only [apply, bind_arrow, ihd, ihc]

theorem eval_apply (s : TypeSubst) (ρ : TyVar → D) (ty : Ty) :
    (ty.apply s).eval M ρ = ty.eval M fun v => ((var v).apply s).eval M ρ := by
  rw [apply_eq_bind, eval_bind]

end Eval

theorem bind_congr {f g : TyVar → Ty} {ty : Ty} (h : ∀ v ∈ ty.freeVars, f v = g v) :
    ty.bind f = ty.bind g := eval_congr h

theorem eq_of_bind_eq {f g : TyVar → Ty} {ty : Ty} (h : ty.bind f = ty.bind g) :
    ∀ v ∈ ty.freeVars, f v = g v := by
  induction ty with
  | var w =>
    intro v hv
    obtain rfl := mem_freeVars_var.1 hv
    exact h
  | base => simp
  | arrow dom cod ihd ihc =>
    intro v hv
    obtain ⟨hd, hc⟩ := arrow.inj h
    exact (mem_freeVars_arrow.1 hv).elim (ihd hd v) (ihc hc v)

theorem bind_bind (f g : TyVar → Ty) (ty : Ty) :
    (ty.bind f).bind g = ty.bind fun v => (f v).bind g := eval_bind f g ty

theorem bind_apply (s : TypeSubst) (g : TyVar → Ty) (ty : Ty) :
    (ty.apply s).bind g = ty.bind fun v => ((var v).apply s).bind g := eval_apply s g ty

theorem bind_self (ty : Ty) : ty.bind var = ty := by
  induction ty with
  | var v => rfl
  | base => rfl
  | arrow dom cod ihd ihc => simp only [bind_arrow, ihd, ihc]

theorem bind_eq_self {f : TyVar → Ty} {ty : Ty} (h : ∀ v ∈ ty.freeVars, f v = var v) :
    ty.bind f = ty := (bind_congr h).trans ty.bind_self

theorem apply_congr {s t : TypeSubst} {ty : Ty}
    (h : ∀ v ∈ ty.freeVars, (var v).apply s = (var v).apply t) : ty.apply s = ty.apply t := by
  rw [apply_eq_bind, apply_eq_bind]
  exact bind_congr h

theorem apply_eq_self {s : TypeSubst} {ty : Ty} (h : ∀ v ∈ ty.freeVars, s.get? v = none) :
    ty.apply s = ty := by
  rw [apply_eq_bind]
  exact bind_eq_self fun v hv => by simp [apply, h v hv]

theorem mem_freeVars_bind {f : TyVar → Ty} {ty : Ty} {w : TyVar} :
    w ∈ (ty.bind f).freeVars ↔ ∃ v ∈ ty.freeVars, w ∈ (f v).freeVars := by
  induction ty with
  | var v => simp
  | base => simp
  | arrow dom cod ihd ihc => simp [ihd, ihc, or_and_right, exists_or]

theorem size_le_size_bind {f : TyVar → Ty} {ty : Ty} {v : TyVar} (h : v ∈ ty.freeVars) :
    (f v).size ≤ (ty.bind f).size := by
  induction ty with
  | var w =>
    obtain rfl := mem_freeVars_var.1 h
    exact Nat.le_refl _
  | base => simp at h
  | arrow dom cod ihd ihc =>
    simp only [bind_arrow, size]
    rcases mem_freeVars_arrow.1 h with h | h
    · have := ihd h
      omega
    · have := ihc h
      omega

/-- No replacement makes a variable equal to a type it stands inside. -/
theorem bind_ne_of_mem_freeVars {f : TyVar → Ty} {ty : Ty} {v : TyVar} (h : v ∈ ty.freeVars)
    (hne : ty ≠ var v) : f v ≠ ty.bind f := by
  intro heq
  cases ty with
  | var w =>
    obtain rfl := mem_freeVars_var.1 h
    exact hne rfl
  | base => simp at h
  | arrow dom cod =>
    have hsize := congrArg size heq
    simp only [bind_arrow, size] at hsize
    rcases mem_freeVars_arrow.1 h with h | h
    · have := size_le_size_bind (f := f) h
      omega
    · have := size_le_size_bind (f := f) h
      omega

end Ty

namespace TypeSubst

theorem apply_var_of_some {s : TypeSubst} {v : TyVar} {ty : Ty} (h : s.get? v = some ty) :
    (Ty.var v).apply s = ty := by
  simp [Ty.apply, h]

theorem apply_var_of_none {s : TypeSubst} {v : TyVar} (h : s.get? v = none) :
    (Ty.var v).apply s = .var v := by
  simp [Ty.apply, h]

/-- The replacement on the given variables, as a finite substitution. -/
def restrict (f : TyVar → Ty) (vars : List TyVar) : TypeSubst :=
  .ofList (vars.map fun v => (v, f v))

theorem get?_restrict (f : TyVar → Ty) (vars : List TyVar) (v : TyVar) :
    (restrict f vars).get? v = if v ∈ vars then some (f v) else none := by
  rcases OrderedMap.get?_ofList_cases (vars.map fun v => (v, f v)) v with
    ⟨hget, hne⟩ | ⟨ty, hty, hget⟩
  · have hv : v ∉ vars := fun hv => hne (v, f v) (List.mem_map.2 ⟨v, hv, rfl⟩) rfl
    rw [if_neg hv]
    exact hget
  · obtain ⟨w, hw, heq⟩ := List.mem_map.1 hty
    obtain ⟨rfl, rfl⟩ := Prod.mk.inj heq
    rw [if_pos hw]
    exact hget

theorem apply_restrict {f : TyVar → Ty} {vars : List TyVar} {ty : Ty}
    (h : ∀ v ∈ ty.freeVars, v ∈ vars) : ty.apply (restrict f vars) = ty.bind f := by
  rw [Ty.apply_eq_bind]
  refine Ty.bind_congr fun v hv => ?_
  rw [apply_var_of_some (by rw [get?_restrict, if_pos (h v hv)])]

/-- Composition of substitutions is associative, the substitution without entries is neutral
on both sides, and both act on types as replacing one after the other, or nothing. -/
theorem compose_monoid (s₁ s₂ s₃ : TypeSubst) (ty : Ty) :
    ty.apply (s₂.compose s₁) = (ty.apply s₁).apply s₂ ∧ ty.apply ∅ = ty ∧
      s₃.compose (s₂.compose s₁) = (s₃.compose s₂).compose s₁ ∧
      s₁.compose ∅ = s₁ ∧ compose ∅ s₁ = s₁ :=
  ⟨apply_compose s₂ s₁ ty, apply_empty ty, compose_assoc s₃ s₂ s₁, compose_empty s₁,
    empty_compose s₁⟩

/-- Where both have an entry, that of the first one to act counts, and the other acts on it. -/
example :
    let s : TypeSubst := .ofList [(0, .base "Bool"), (1, .base "Int")]
    let t : TypeSubst := .singleton 0 (.arrow (.var 1) (.var 0))
    s.compose t = .ofList [(0, .arrow (.base "Int") (.base "Bool")), (1, .base "Int")] := by decide

end TypeSubst

end NamedLambda
