import NamedLambda.Data.OrderedSet

/-!
# Lambda terms with named binders

Names are plain strings, compared character by character, and a binder may
reuse any name. Equality of terms is equality of the trees; equality up to the
names of bound variables is in `NamedLambda.Term.Nameless`.

A position is a list of directions from the root: `0` enters the body of an
abstraction or the function of an application, `1` enters the argument.
-/

namespace NamedLambda

abbrev Name := String

abbrev Path := List Nat

inductive Term where
  | var (name : Name)
  | abs (param : Name) (body : Term)
  | app (func arg : Term)
deriving DecidableEq, Inhabited

namespace Term

inductive Kind where
  | var
  | abs
  | app
deriving DecidableEq

def kind : Term → Kind
  | var _ => .var
  | abs _ _ => .abs
  | app _ _ => .app

/-- The binders around a place in a term, innermost first. -/
abbrev Scope := List Name

/-- The number of binders between a variable and its own, if it is bound. -/
def Scope.index? (scope : Scope) (x : Name) : Option Nat := scope.idxOf? x

/-- Application to several arguments, nested to the left. -/
def apply (func : Term) (args : List Term) : Term := args.foldl app func

/-- Abstraction over several parameters, the first one outermost. -/
def lambda (params : List Name) (body : Term) : Term := params.foldr abs body

/-- The number of nodes. -/
def size : Term → Nat
  | var _ => 1
  | abs _ body => body.size + 1
  | app func arg => func.size + arg.size + 1

/-- For what goes on in a term that is smaller but no subterm. -/
@[elab_as_elim]
theorem size_induction {motive : Term → Prop}
    (h : ∀ t, (∀ u, u.size < t.size → motive u) → motive t) (t : Term) : motive t :=
  (measure size).wf.induction t h

/-- The number of nodes on a longest path from the root. -/
def depth : Term → Nat
  | var _ => 1
  | abs _ body => body.depth + 1
  | app func arg => max func.depth arg.depth + 1

def isRedex : Term → Bool
  | app (abs _ _) _ => true
  | _ => false

theorem isRedex_iff {t : Term} : t.isRedex = true ↔ ∃ p body arg, t = app (abs p body) arg := by
  constructor
  · intro h
    fun_cases isRedex t with
    | case1 p body arg => exact ⟨p, body, arg, rfl⟩
    | case2 => simp_all [isRedex]
  · rintro ⟨p, body, arg, rfl⟩
    rfl

def subterm? : Term → Path → Option Term
  | t, [] => some t
  | abs _ body, 0 :: rest => body.subterm? rest
  | app func _, 0 :: rest => func.subterm? rest
  | app _ arg, 1 :: rest => arg.subterm? rest
  | _, _ => none

@[simp] theorem subterm?_nil (t : Term) : t.subterm? [] = some t := by
  cases t <;> rfl

theorem subterm?_append (t : Term) (p q : Path) :
    t.subterm? (p ++ q) = (t.subterm? p).bind (·.subterm? q) := by
  induction p generalizing t with
  | nil => simp
  | cons d p ih =>
    cases t with
    | var => simp [subterm?]
    | abs _ body => match d with
      | 0 => simpa [subterm?] using ih body
      | _ + 1 => simp [subterm?]
    | app func arg => match d with
      | 0 => simpa [subterm?] using ih func
      | 1 => simpa [subterm?] using ih arg
      | _ + 2 => simp [subterm?]

section

variable {P : Term → Prop} {p : Name} {body func arg : Term}

theorem forall_subterm?_var {x : Name} :
    (∀ path s, (var x).subterm? path = some s → P s) ↔ P (var x) := by
  constructor
  · intro h
    exact h [] _ (subterm?_nil _)
  · intro h path s hs
    match path with
    | [] => exact Option.some.inj hs ▸ h
    | _ :: _ => simp [subterm?] at hs

theorem forall_subterm?_abs :
    (∀ path s, (abs p body).subterm? path = some s → P s) ↔
      P (abs p body) ∧ ∀ path s, body.subterm? path = some s → P s := by
  constructor
  · intro h
    exact ⟨h [] _ (subterm?_nil _), fun path s hs => h (0 :: path) s hs⟩
  · rintro ⟨hroot, hbody⟩ path s hs
    match path with
    | [] => exact Option.some.inj hs ▸ hroot
    | 0 :: path => exact hbody path s hs
    | (_ + 1) :: _ => simp [subterm?] at hs

theorem forall_subterm?_app :
    (∀ path s, (app func arg).subterm? path = some s → P s) ↔
      P (app func arg) ∧ (∀ path s, func.subterm? path = some s → P s) ∧
        ∀ path s, arg.subterm? path = some s → P s := by
  constructor
  · intro h
    exact ⟨h [] _ (subterm?_nil _), fun path s hs => h (0 :: path) s hs,
      fun path s hs => h (1 :: path) s hs⟩
  · rintro ⟨hroot, hfunc, harg⟩ path s hs
    match path with
    | [] => exact Option.some.inj hs ▸ hroot
    | 0 :: path => exact hfunc path s hs
    | 1 :: path => exact harg path s hs
    | (_ + 2) :: _ => simp [subterm?] at hs

end

def occursFree (x : Name) : Term → Bool
  | var y => x = y
  | abs p body => x ≠ p && body.occursFree x
  | app func arg => func.occursFree x || arg.occursFree x

/-- Adds to `found` what is free in a term below the binders of the scope. -/
def collectFree (scope : Scope) (found : OrderedSet Name) : Term → OrderedSet Name
  | var x => if x ∈ scope then found else found.insert x
  | abs p body => body.collectFree (p :: scope) found
  | app func arg => arg.collectFree scope (func.collectFree scope found)

def freeVars (t : Term) : OrderedSet Name := t.collectFree [] ∅

/-- The walk finds what the test finds, whatever is bound around the term and found before. -/
theorem mem_collectFree {scope : Scope} {found : OrderedSet Name} {x : Name} {t : Term} :
    x ∈ t.collectFree scope found ↔ x ∈ found ∨ x ∉ scope ∧ t.occursFree x = true := by
  induction t generalizing scope found with
  | var y =>
    rw [collectFree]
    by_cases hxy : x = y
    · subst hxy
      by_cases hscope : x ∈ scope <;> simp [occursFree, hscope]
    · by_cases hscope : y ∈ scope <;> simp [occursFree, hscope, hxy]
  | abs p body ih =>
    simp [collectFree, occursFree, ih, and_assoc, and_left_comm]
  | app func arg ihf iha => simp [collectFree, occursFree, ihf, iha, and_or_left, or_assoc]

theorem mem_freeVars {x : Name} {t : Term} : x ∈ t.freeVars ↔ t.occursFree x = true := by
  simp [freeVars, mem_collectFree]

theorem mem_freeVars_abs {x p : Name} {body : Term} :
    x ∈ (abs p body).freeVars ↔ x ∈ body.freeVars ∧ x ≠ p := by
  simp [mem_freeVars, occursFree, and_comm]

theorem mem_freeVars_app {x : Name} {func arg : Term} :
    x ∈ (app func arg).freeVars ↔ x ∈ func.freeVars ∨ x ∈ arg.freeVars := by
  simp [mem_freeVars, occursFree]

end Term

end NamedLambda
