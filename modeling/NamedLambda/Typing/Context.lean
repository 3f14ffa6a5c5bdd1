import NamedLambda.Term.Basic
import NamedLambda.Typing.Ty

/-!
# Typing contexts and the typing judgment

A scheme quantifies over some variables of a type. A context gives names their schemes; a
substitution acts on what is free in them. The rules of the judgment are stated without type
inference: a variable has every instance of its scheme, a parameter has one type throughout its
body, and `let` generalizes the type of the bound term. What a term can be typed with depends
only on the names free in it (`HasType.congr`).
-/

namespace NamedLambda

structure Scheme where
  vars : List TyVar
  ty : Ty
deriving DecidableEq, Inhabited

namespace Scheme

def mono (ty : Ty) : Scheme := ⟨[], ty⟩

def freeVars (σ : Scheme) : OrderedSet TyVar := σ.ty.freeVars.filter (· ∉ σ.vars)

/-- The largest variable that is mentioned, quantified or not. -/
def maxVar? (σ : Scheme) : Option TyVar := (σ.ty.freeVars.elems ++ σ.vars).max?

/-- Quantified variables are left alone. -/
def apply (s : TypeSubst) (σ : Scheme) : Scheme :=
  ⟨σ.vars, σ.ty.apply (s.without σ.vars)⟩

def text (σ : Scheme) : String :=
  if σ.vars.isEmpty then σ.ty.text
  else "forall " ++ " ".intercalate (σ.vars.map TyVar.text) ++ ". " ++ σ.ty.text

end Scheme

abbrev Context := OrderedMap Name Scheme

namespace Context

def extend (Γ : Context) (x : Name) (σ : Scheme) : Context := Γ.insert x σ

def apply (s : TypeSubst) (Γ : Context) : Context := Γ.mapValues (·.apply s)

def freeVars (Γ : Context) : OrderedSet TyVar :=
  Γ.values.foldr (fun σ vars => σ.freeVars ∪ vars) ∅

theorem mem_freeVars {Γ : Context} {v : TyVar} :
    v ∈ Γ.freeVars ↔ ∃ σ ∈ Γ.values, v ∈ σ.freeVars := by
  rw [freeVars]
  induction Γ.values with
  | nil => simp
  | cons σ rest ih => simp [ih]

def maxVar? (Γ : Context) : Option TyVar := (Γ.values.filterMap Scheme.maxVar?).max?

/-- Quantifies over the variables of a type that are not free in the context. -/
def generalize (Γ : Context) (ty : Ty) : Scheme :=
  ⟨(ty.freeVars.filter (· ∉ Γ.freeVars)).elems, ty⟩

end Context

/-- The quantified variables are replaced by types, and no others. -/
def Scheme.IsInstance (σ : Scheme) (ty : Ty) : Prop :=
  ∃ s : TypeSubst, (∀ v, v ∉ σ.vars → s.get? v = none) ∧ ty = σ.ty.apply s

theorem Scheme.isInstance_mono {ty ty' : Ty} : (mono ty).IsInstance ty' ↔ ty' = ty := by
  constructor
  · rintro ⟨s, hs, rfl⟩
    obtain rfl : s = ∅ := OrderedMap.ext fun v => hs v List.not_mem_nil
    exact TypeSubst.apply_empty ty
  · rintro rfl
    exact ⟨∅, fun _ _ => rfl, (TypeSubst.apply_empty _).symm⟩

theorem Scheme.isInstance_self (σ : Scheme) : σ.IsInstance σ.ty :=
  ⟨∅, fun _ _ => rfl, (TypeSubst.apply_empty _).symm⟩

inductive HasType : Context → Term → Ty → Prop
  | var {Γ : Context} {x : Name} {σ : Scheme} {ty : Ty} :
      Γ.get? x = some σ → σ.IsInstance ty → HasType Γ (.var x) ty
  | abs {Γ : Context} {p : Name} {body : Term} {dom cod : Ty} :
      HasType (Γ.extend p (.mono dom)) body cod → HasType Γ (.abs p body) (.arrow dom cod)
  | app {Γ : Context} {func arg : Term} {dom cod : Ty} :
      HasType Γ func (.arrow dom cod) → HasType Γ arg dom → HasType Γ (.app func arg) cod

/-- The judgment for `let name = bound in body`. -/
def HasLetType (Γ : Context) (name : Name) (bound body : Term) (ty : Ty) : Prop :=
  ∃ boundTy, HasType Γ bound boundTy ∧
    HasType (Γ.extend name (Γ.generalize boundTy)) body ty

/-- No variable is quantified in one scheme and free in another, or in the
same one. -/
def Context.Clean (Γ : Context) : Prop :=
  ∀ σ ∈ Γ.values, ∀ v ∈ σ.vars, v ∉ Γ.freeVars

namespace HasType

theorem congr {Γ Δ : Context} {t : Term} {ty : Ty} (h : HasType Γ t ty)
    (agree : ∀ x, t.occursFree x = true → Γ.get? x = Δ.get? x) : HasType Δ t ty := by
  induction h generalizing Δ with
  | var hx hi => exact .var ((agree _ (by simp [Term.occursFree])).symm.trans hx) hi
  | abs _ ih =>
    refine .abs (ih fun x hx => ?_)
    simp only [Context.extend, OrderedMap.get?_insert]
    split
    · rfl
    · exact agree x (by simp [Term.occursFree, *])
  | app _ _ ihf iha =>
    exact .app (ihf fun x hx => agree x (by simp [Term.occursFree, hx]))
      (iha fun x hx => agree x (by simp [Term.occursFree, hx]))

end HasType

end NamedLambda
