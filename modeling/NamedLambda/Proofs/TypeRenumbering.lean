import NamedLambda.Proofs.CanonicalTypes
import NamedLambda.Proofs.MostGeneralUnifier
import NamedLambda.Typing.Context

/-!
# Renumbering type variables

Substitution and unification have no use for the numbers of type variables but to
tell them apart: with all variables replaced one for one, they do the same as before
(`Ty.mapVars_apply`, `Scheme.mapVars_apply`, `Unification.unify_mapVars`). That holds
of the direction in which one of two variables is bound to the other, of what is
reported when there is no unifier, and of a substitution that is captured by a
quantifier.
-/

namespace NamedLambda

variable {f : TyVar → TyVar}

namespace Ty

theorem mapVars_eq_self {ty : Ty} (h : ∀ v ∈ ty.freeVars, f v = v) : ty.mapVars f = ty := by
  rw [mapVars_eq_bind]
  exact bind_eq_self fun v hv => congrArg var (h v hv)

@[simp] theorem mapVars_id (ty : Ty) : ty.mapVars id = ty := mapVars_eq_self fun _ _ => rfl

theorem mapVars_injective (hf : f.Injective) : Function.Injective (mapVars f) := by
  intro a b h
  induction a generalizing b with
  | var v =>
    cases b with
    | var w => exact congrArg var (hf (var.inj h))
    | _ => cases h
  | base m =>
    cases b with
    | base n => exact h
    | _ => cases h
  | arrow a c iha ihc =>
    cases b with
    | arrow b d =>
      obtain ⟨hab, hcd⟩ := arrow.inj h
      rw [iha hab, ihc hcd]
    | _ => cases h

theorem occurs_mapVars (hf : f.Injective) (v : TyVar) (ty : Ty) :
    (ty.mapVars f).occurs (f v) = ty.occurs v := by
  induction ty with
  | var w => simp [mapVars, occurs, hf.eq_iff]
  | base => rfl
  | arrow dom cod ihd ihc => simp only [mapVars, occurs, ihd, ihc]

end Ty

namespace TypeSubst

/-- The substitution with all variables renumbered. -/
def mapVars (f : TyVar → TyVar) (s : TypeSubst) : TypeSubst :=
  .ofList (s.entries.map fun e => (f e.1, e.2.mapVars f))

theorem get?_mapVars (hf : f.Injective) (s : TypeSubst) (v : TyVar) :
    (s.mapVars f).get? (f v) = (s.get? v).map (Ty.mapVars f) := by
  rcases OrderedMap.get?_ofList_cases (s.entries.map fun e => (f e.1, e.2.mapVars f)) (f v) with
    ⟨hget, hne⟩ | ⟨u, hu, hget⟩
  · cases hs : s.get? v with
    | none => exact hget
    | some ty =>
      have hmem := OrderedMap.get?_eq_some_iff.1 hs
      exact absurd rfl (hne _ (List.mem_map.2 ⟨_, hmem, rfl⟩))
  · obtain ⟨⟨w, ty⟩, hmem, heq⟩ := List.mem_map.1 hu
    obtain ⟨hwv, rfl⟩ := Prod.mk.inj heq
    obtain rfl := hf hwv
    rw [OrderedMap.get?_eq_some_iff.2 hmem]
    exact hget

theorem get?_mapVars_of_not_mem_range (s : TypeSubst) {w : TyVar} (hw : w ∉ Set.range f) :
    (s.mapVars f).get? w = none := by
  rcases OrderedMap.get?_ofList_cases (s.entries.map fun e => (f e.1, e.2.mapVars f)) w with
    ⟨hget, _⟩ | ⟨u, hu, _⟩
  · exact hget
  · obtain ⟨⟨v, ty⟩, _, heq⟩ := List.mem_map.1 hu
    exact absurd ⟨v, (Prod.mk.inj heq).1⟩ hw

theorem eq_mapVars (hf : f.Injective) {s t : TypeSubst}
    (image : ∀ v, t.get? (f v) = (s.get? v).map (Ty.mapVars f))
    (other : ∀ w, w ∉ Set.range f → t.get? w = none) : t = s.mapVars f := by
  refine OrderedMap.ext fun w => ?_
  by_cases hw : w ∈ Set.range f
  · obtain ⟨v, rfl⟩ := hw
    rw [image, get?_mapVars hf]
  · rw [other w hw, get?_mapVars_of_not_mem_range s hw]

@[simp] theorem mapVars_id (s : TypeSubst) : s.mapVars id = s := by
  refine (eq_mapVars Function.injective_id (fun v => ?_) fun w hw => ?_).symm
  · cases hs : s.get? v <;> simp [hs]
  · simp at hw

theorem mapVars_singleton (hf : f.Injective) (v : TyVar) (ty : Ty) :
    mapVars f (.singleton v ty) = .singleton (f v) (ty.mapVars f) := by
  refine (eq_mapVars hf (fun w => ?_) fun w hw => ?_).symm
  · by_cases hwv : w = v <;> simp [hwv, hf.eq_iff]
  · have hne : w ≠ f v := by
      rintro rfl
      exact hw ⟨v, rfl⟩
    simp [hne]

theorem mapVars_insert (hf : f.Injective) (s : TypeSubst) (v : TyVar) (ty : Ty) :
    mapVars f (s.insert v ty) = (s.mapVars f).insert (f v) (ty.mapVars f) := by
  refine (eq_mapVars hf (fun w => ?_) fun w hw => ?_).symm
  · by_cases hwv : w = v <;> simp [hwv, hf.eq_iff, get?_mapVars hf]
  · have hne : w ≠ f v := by
      rintro rfl
      exact hw ⟨v, rfl⟩
    simp [hne, get?_mapVars_of_not_mem_range s hw]

theorem mapVars_ofList (hf : f.Injective) (l : List (TyVar × Ty)) :
    mapVars f (.ofList l) = .ofList (l.map fun e => (f e.1, e.2.mapVars f)) := by
  have along (s : TypeSubst) :
      mapVars f (l.foldl (fun m e => m.insert e.1 e.2) s) =
        (l.map fun e => (f e.1, e.2.mapVars f)).foldl (fun m e => m.insert e.1 e.2)
          (s.mapVars f) := by
    induction l generalizing s with
    | nil => rfl
    | cons e l ih => simp only [List.foldl_cons, List.map_cons, ih, mapVars_insert hf]
  exact along ∅

theorem mapVars_without (hf : f.Injective) (s : TypeSubst) (vars : List TyVar) :
    (s.without vars).mapVars f = (s.mapVars f).without (vars.map f) := by
  refine (eq_mapVars hf (fun v => ?_) fun w hw => ?_).symm
  · by_cases hv : v ∈ vars <;> simp [without, hv, hf.eq_iff, get?_mapVars hf]
  · simp [without, get?_mapVars_of_not_mem_range s hw]

end TypeSubst

theorem Ty.mapVars_apply (hf : f.Injective) (s : TypeSubst) (ty : Ty) :
    (ty.apply s).mapVars f = (ty.mapVars f).apply (s.mapVars f) := by
  induction ty with
  | var v =>
    simp only [apply, mapVars, TypeSubst.get?_mapVars hf]
    cases s.get? v <;> rfl
  | base => rfl
  | arrow dom cod ihd ihc => simp only [apply, mapVars, ihd, ihc]

theorem TypeSubst.mapVars_compose (hf : f.Injective) (s t : TypeSubst) :
    (t.compose s).mapVars f = (t.mapVars f).compose (s.mapVars f) := by
  refine (eq_mapVars hf (fun v => ?_) fun w hw => ?_).symm
  · rw [get?_compose, get?_compose, get?_mapVars hf, get?_mapVars hf]
    cases s.get? v with
    | none => rfl
    | some ty => exact congrArg some (Ty.mapVars_apply hf t ty).symm
  · rw [get?_compose, get?_mapVars_of_not_mem_range s hw, get?_mapVars_of_not_mem_range t hw]
    rfl

namespace Scheme

def mapVars (f : TyVar → TyVar) (σ : Scheme) : Scheme := ⟨σ.vars.map f, σ.ty.mapVars f⟩

theorem mapVars_eq_self {σ : Scheme} (h : ∀ v, v ∈ σ.ty.freeVars ∨ v ∈ σ.vars → f v = v) :
    σ.mapVars f = σ := by
  obtain ⟨vars, ty⟩ := σ
  have hvars : vars.map f = vars := by
    rw [List.map_congr_left fun v hv => h v (.inr hv), List.map_id']
  simp only [mapVars, hvars, Ty.mapVars_eq_self fun v hv => h v (.inl hv)]

@[simp] theorem mapVars_id (σ : Scheme) : σ.mapVars id = σ := mapVars_eq_self fun _ _ => rfl

theorem mapVars_apply (hf : f.Injective) (s : TypeSubst) (σ : Scheme) :
    (σ.apply s).mapVars f = (σ.mapVars f).apply (s.mapVars f) := by
  simp only [apply, mapVars, Ty.mapVars_apply hf, TypeSubst.mapVars_without hf]

end Scheme

def UnifyError.mapVars (f : TyVar → TyVar) : UnifyError → UnifyError
  | infinite v ty => infinite (f v) (ty.mapVars f)
  | mismatch expected found => mismatch (expected.mapVars f) (found.mapVars f)

namespace Unification

/-- What a unification gives, with all variables renumbered. -/
def renumber (f : TyVar → TyVar) : Except UnifyError TypeSubst → Except UnifyError TypeSubst
  | .ok s => .ok (s.mapVars f)
  | .error e => .error (e.mapVars f)

theorem renumber_bind (hf : f.Injective) (v : TyVar) (ty : Ty) :
    (if (ty.mapVars f).occurs (f v) then .error (.infinite (f v) (ty.mapVars f))
      else .ok (.singleton (f v) (ty.mapVars f))) =
    renumber f (if ty.occurs v then .error (.infinite v ty) else .ok (.singleton v ty)) := by
  rw [Ty.occurs_mapVars hf]
  split
  · rfl
  · exact congrArg Except.ok (TypeSubst.mapVars_singleton hf v ty).symm

theorem renumber_var_right (hf : f.Injective) (v : TyVar) {ty : Ty} (h : ∀ w, ty ≠ .var w) :
    unify (ty.mapVars f) (.var (f v)) = renumber f (unify ty (.var v)) := by
  have h' : ∀ w, ty.mapVars f ≠ .var w := by
    intro w hw
    cases ty with
    | var u => exact h u rfl
    | _ => cases hw
  rw [unify_var_right v h, unify_var_right (f v) h']
  exact renumber_bind hf v ty

/-- Unification gives the same for all numberings. -/
theorem unify_mapVars (hf : f.Injective) (a b : Ty) :
    unify (a.mapVars f) (b.mapVars f) = renumber f (unify a b) := by
  match a, b with
  | .var v, ty =>
    have hvar : ty.mapVars f = .var (f v) ↔ ty = .var v :=
      (Ty.mapVars_injective hf).eq_iff (b := .var v)
    rw [Ty.mapVars, unify_var_left, unify_var_left]
    simp only [hvar]
    split
    · rfl
    · exact renumber_bind hf v ty
  | .base m, .var v => exact renumber_var_right hf v (by simp)
  | .arrow a b, .var v => exact renumber_var_right hf v (by simp)
  | .base m, .base n =>
    simp only [Ty.mapVars, unify_base]
    split <;> rfl
  | .base m, .arrow c d =>
    rw [Ty.mapVars, Ty.mapVars, unify_base_arrow, unify_base_arrow]
    rfl
  | .arrow a b, .base n =>
    rw [Ty.mapVars, Ty.mapVars, unify_arrow_base, unify_arrow_base]
    rfl
  | .arrow a b, .arrow c d =>
    have hdom := unify_mapVars hf a c
    rw [Ty.mapVars, Ty.mapVars, unify_arrow, unify_arrow, hdom]
    cases hs : unify a c with
    | error e => rfl
    | ok s =>
      have hcod := unify_mapVars hf (b.apply s) (d.apply s)
      simp only [renumber, bind, Except.bind]
      rw [← Ty.mapVars_apply hf, ← Ty.mapVars_apply hf, hcod]
      cases unify (b.apply s) (d.apply s) with
      | error e => rfl
      | ok t => exact congrArg Except.ok (TypeSubst.mapVars_compose hf s t).symm
termination_by ((vars a b).size, a.size + b.size)
decreasing_by
  · exact domains_lt
  · exact codomains_lt (confined_of_unify hs)

end Unification

end NamedLambda
