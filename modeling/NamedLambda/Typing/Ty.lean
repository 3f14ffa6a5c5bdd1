import NamedLambda.Data.OrderedMap
import NamedLambda.Data.OrderedSet

/-!
# Simple types and substitutions

Type variables are numbered from zero, and the numbers end at `TyVar.last`. A substitution maps
finitely many variables to types and leaves the others as they are. Composition agrees with
application (`TypeSubst.apply_compose`).
-/

namespace NamedLambda

abbrev TyVar := Nat

namespace TyVar

/-- The last number that a type variable can have. -/
def last : TyVar := 4294967295

/-- The next variable; the last one is its own successor. -/
def next (v : TyVar) : TyVar := min (v + 1) last

/-- `a` to `z`, then `a1` to `z1`, and so on. -/
def text (v : TyVar) : String :=
  let letter := String.singleton (Char.ofNat ('a'.toNat + v % 26))
  if v / 26 = 0 then letter else letter ++ toString (v / 26)

end TyVar

inductive Ty where
  | var (v : TyVar)
  | base (name : String)
  | arrow (dom cod : Ty)
deriving DecidableEq, Inhabited

namespace Ty

def size : Ty → Nat
  | var _ => 1
  | base _ => 1
  | arrow dom cod => dom.size + cod.size + 1

def freeVars : Ty → OrderedSet TyVar
  | var v => .singleton v
  | base _ => ∅
  | arrow dom cod => dom.freeVars ∪ cod.freeVars

@[simp] theorem mem_freeVars_var {v w : TyVar} : v ∈ (var w).freeVars ↔ v = w := by
  simp [freeVars]

@[simp] theorem not_mem_freeVars_base {v : TyVar} {name : String} :
    v ∉ (base name).freeVars := by
  simp [freeVars]

@[simp] theorem mem_freeVars_arrow {v : TyVar} {dom cod : Ty} :
    v ∈ (arrow dom cod).freeVars ↔ v ∈ dom.freeVars ∨ v ∈ cod.freeVars := by
  simp [freeVars]

def occurs (v : TyVar) : Ty → Bool
  | var w => v = w
  | base _ => false
  | arrow dom cod => dom.occurs v || cod.occurs v

theorem mem_freeVars {v : TyVar} {ty : Ty} : v ∈ ty.freeVars ↔ ty.occurs v = true := by
  induction ty with
  | var => simp [occurs]
  | base => simp [occurs]
  | arrow dom cod ihd ihc => simp [occurs, ihd, ihc]

def mapVars (f : TyVar → TyVar) : Ty → Ty
  | var v => var (f v)
  | base name => base name
  | arrow dom cod => arrow (dom.mapVars f) (cod.mapVars f)

/-- The variables in the order of their first occurrence, after those seen
before. -/
def firstOccurrences (seen : List TyVar) : Ty → List TyVar
  | var v => if v ∈ seen then seen else seen ++ [v]
  | base _ => seen
  | arrow dom cod => cod.firstOccurrences (dom.firstOccurrences seen)

/-- The variables are renumbered from zero in the order of their first
occurrence. -/
def canonical (ty : Ty) : Ty :=
  let order := ty.firstOccurrences []
  ty.mapVars order.idxOf

/-- The types differ at most in the numbering of variables. -/
def equivalent (a b : Ty) : Bool := a.canonical = b.canonical

/-- The arrow associates to the right, so only a domain takes parentheses. -/
def text : Ty → String
  | var v => v.text
  | base name => name
  | arrow (arrow a b) cod => "(" ++ (arrow a b).text ++ ") -> " ++ cod.text
  | arrow dom cod => dom.text ++ " -> " ++ cod.text

instance : ToString Ty := ⟨text⟩

end Ty

abbrev TypeSubst := OrderedMap TyVar Ty

/-- All variables are replaced at once; what is put in is not looked at again. -/
def Ty.apply (s : TypeSubst) : Ty → Ty
  | var v => (s.get? v).getD (var v)
  | base name => base name
  | arrow dom cod => arrow (dom.apply s) (cod.apply s)

namespace TypeSubst

/-- `s.compose t` does what `t` does, and then what `s` does. -/
def compose (s t : TypeSubst) : TypeSubst := (t.mapValues (·.apply s)).union s

theorem get?_compose (s t : TypeSubst) (v : TyVar) :
    (s.compose t).get? v = ((t.get? v).map (·.apply s)).or (s.get? v) := by
  rw [compose, OrderedMap.get?_union, OrderedMap.get?_mapValues]

theorem apply_compose (s t : TypeSubst) (ty : Ty) :
    ty.apply (s.compose t) = (ty.apply t).apply s := by
  induction ty with
  | var v =>
    simp only [Ty.apply, get?_compose]
    cases t.get? v <;> simp [Ty.apply]
  | base => rfl
  | arrow dom cod ihd ihc => simp [Ty.apply, ihd, ihc]

@[simp] theorem apply_empty (ty : Ty) : ty.apply ∅ = ty := by
  induction ty with
  | var v => rfl
  | base => rfl
  | arrow dom cod ihd ihc => simp [Ty.apply, ihd, ihc]

theorem compose_assoc (s t u : TypeSubst) :
    s.compose (t.compose u) = (s.compose t).compose u := by
  refine OrderedMap.ext fun v => ?_
  simp only [get?_compose]
  -- an entry of `u` hides those of `t`, and an entry of `t` hides those of `s`
  cases u.get? v with
  | some ty => simp [apply_compose]
  | none => simp

theorem compose_empty (s : TypeSubst) : s.compose ∅ = s :=
  OrderedMap.ext fun v => by simp [get?_compose]

theorem empty_compose (s : TypeSubst) : compose ∅ s = s := by
  refine OrderedMap.ext fun v => ?_
  rw [get?_compose]
  cases s.get? v <;> simp

def without (s : TypeSubst) (vars : List TyVar) : TypeSubst := s.filterKeys (· ∉ vars)

/-- `[a := T, b := U]`, in the order of the variables. -/
def text (s : TypeSubst) : String :=
  let entry : TyVar × Ty → String := fun e => e.1.text ++ " := " ++ e.2.text
  "[" ++ ", ".intercalate (s.entries.map entry) ++ "]"

end TypeSubst

theorem Ty.mem_freeVars_apply {s : TypeSubst} {ty : Ty} {w : TyVar} :
    w ∈ (ty.apply s).freeVars ↔ ∃ v ∈ ty.freeVars, w ∈ ((var v).apply s).freeVars := by
  induction ty with
  | var v => simp
  | base => simp [apply]
  | arrow dom cod ihd ihc => simp [apply, ihd, ihc, or_and_right, exists_or]

end NamedLambda
