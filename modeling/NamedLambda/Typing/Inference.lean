import NamedLambda.Typing.Context
import NamedLambda.Typing.Unification
import NamedLambda.Term.Text

/-!
# Type inference

Algorithm W. Its state is the number of the next fresh type variable, together
with a record of what was done; a failure leaves the state as it was reached,
so the numbering goes on after it.
-/

namespace NamedLambda

inductive TypeError where
  | unbound (name : Name)
  /-- The application would need the infinite type `v = ty`. -/
  | infinite (v : TyVar) (ty : Ty) (term : Term)
  | mismatch (expected found : Ty) (term : Term)
deriving DecidableEq

namespace TypeError

def ofUnify (t : Term) : UnifyError → TypeError
  | .infinite v ty => infinite v ty t
  | .mismatch expected found => mismatch expected found t

def message : TypeError → String
  | unbound x => "unbound variable `" ++ x ++ "`"
  | infinite v ty t =>
    "cannot construct infinite type " ++ v.text ++ " = " ++ ty.text ++ " in `" ++
      t.text .named ++ "`"
  | mismatch expected found t =>
    "type mismatch: expected " ++ expected.text ++ ", found " ++ found.text ++ " in `" ++
      t.text .named ++ "`"

end TypeError

/-- The type of a term, and the substitution found on the way to it. -/
structure Inference where
  ty : Ty
  subst : TypeSubst
deriving DecidableEq

/-- The type with its variables numbered by first use. -/
def Inference.principal (r : Inference) : Ty := r.ty.canonical

namespace Inferencer

inductive Event where
  | instantiated (name : Name) (ty : Ty)
  | unified (term : Term) (subst : TypeSubst)

end Inferencer

/-- `log` holds the last event first. -/
structure Inferencer where
  next : TyVar
  log : List Inferencer.Event

abbrev Infer := EStateM TypeError Inferencer

namespace Inferencer

def new : Inferencer := ⟨0, []⟩

instance : Inhabited Inferencer := ⟨new⟩

/-- Numbers on above every variable that the context mentions. -/
def reserve (Γ : Context) (s : Inferencer) : Inferencer :=
  match Γ.maxVar? with
  | none => s
  | some v => { s with next := max s.next v.next }

def forContext (Γ : Context) : Inferencer := new.reserve Γ

def fresh : Infer Ty := fun s => .ok (.var s.next) { s with next := s.next.next }

def record (event : Event) : Infer Unit := fun s => .ok () { s with log := event :: s.log }

/-- Fresh variables for the quantified ones, in their order. Of two equal ones
the later counts. -/
def instantiate (σ : Scheme) : Infer Ty := do
  let images ← σ.vars.mapM fun v => return (v, ← fresh)
  return σ.ty.apply (.ofList images)

def inferTerm (Γ : Context) : Term → Infer Inference
  | .var x =>
    match Γ.get? x with
    | none => throw (.unbound x)
    | some σ => do
      let ty ← instantiate σ
      record (.instantiated x ty)
      return ⟨ty, ∅⟩
  | .abs p body => do
    let paramTy ← fresh
    let ⟨bodyTy, s⟩ ← inferTerm (Γ.extend p (.mono paramTy)) body
    return ⟨.arrow (paramTy.apply s) bodyTy, s⟩
  | .app func arg => do
    let ⟨funcTy, s₁⟩ ← inferTerm Γ func
    let ⟨argTy, s₂⟩ ← inferTerm (Γ.apply s₁) arg
    let result ← fresh
    match unify (funcTy.apply s₂) (.arrow argTy result) with
    | .error e => throw (.ofUnify (.app func arg) e)
    | .ok s₃ =>
      record (.unified (.app func arg) s₃)
      return ⟨result.apply s₃, (s₃.compose s₂).compose s₁⟩

def infer (Γ : Context) (t : Term) : Infer Inference := do
  modify (reserve Γ)
  inferTerm Γ t

def inferLet (Γ : Context) (name : Name) (bound body : Term) : Infer Inference := do
  modify (reserve Γ)
  let ⟨boundTy, s₁⟩ ← inferTerm Γ bound
  let Γ₁ := Γ.apply s₁
  let ⟨ty, s₂⟩ ← inferTerm (Γ₁.extend name (Γ₁.generalize boundTy)) body
  return ⟨ty, s₂.compose s₁⟩

end Inferencer

namespace Context

/-- What a run that starts above the context's variables answers. -/
def answer (Γ : Context) (m : Infer Inference) : Except TypeError Inference :=
  match m.run (.forContext Γ) with
  | .ok r _ => .ok r
  | .error e _ => .error e

def infer (Γ : Context) (t : Term) : Except TypeError Inference :=
  Γ.answer (Inferencer.infer Γ t)

def inferLet (Γ : Context) (name : Name) (bound body : Term) : Except TypeError Inference :=
  Γ.answer (Inferencer.inferLet Γ name bound body)

/-- Adds a term under a name, with the most general scheme. -/
def define (Γ : Context) (name : Name) (t : Term) : Except TypeError Context := do
  let ⟨ty, s⟩ ← Γ.infer t
  let Γ₁ := Γ.apply s
  return Γ₁.extend name (Γ₁.generalize ty)

end Context

end NamedLambda
