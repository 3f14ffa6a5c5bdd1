import NamedLambda.Term.Substitution

/-!
# Renaming of binders, and equality up to it

`rename` gives every binder of one name another. `alphaEquiv` compares two terms by walking them
together: a bound variable counts by the place of its binder, from the root on, a free one by its
name. In the nameless form a bound variable is the number of binders up to its own. As long as
the two walks are equally deep, the two ways to count come to the same
(`Term.alphaEquivIn_iff`), so terms that differ in bound names have one nameless form. The
fingerprint of a term lists that form for a hash function.
-/

namespace NamedLambda

namespace Term

/-- Where the new name is free under a binder, and so would be captured, that
binder takes a fresh name made from it. -/
def rename (old new : Name) (t : Term) (names : NameSupply) : Term × NameSupply :=
  if old = new then (t, names) else
  match t with
  | var x => (var x, names)
  | app func arg =>
    let (func', names₁) := rename old new func names
    let (arg', names₂) := rename old new arg names₁
    (app func' arg', names₂)
  | abs p body =>
    let (body', names₁) := rename old new body names
    if p ≠ old then (abs p body', names₁)
    else if body'.occursFree new then
      let (target, names₂) := names₁.fresh new (body'.freeVars.insert old)
      rebind p body' target names₂
    else rebind p body' new names₁

theorem rename_self (x : Name) (t : Term) (names : NameSupply) :
    rename x x t names = (t, names) := by
  unfold rename
  rw [if_pos rfl]

/-- The place of the nearest binder of a name, counted from the outermost binder. -/
def Scope.level? : Scope → Name → Option Nat
  | [], _ => none
  | p :: scope, x => if p = x then some scope.length else level? scope x

theorem Scope.level?_lt {scope : Scope} {x : Name} {k : Nat} (h : scope.level? x = some k) :
    k < scope.length := by
  induction scope with
  | nil => cases h
  | cons p scope ih =>
    rw [level?] at h
    split at h
    · cases h
      exact Nat.lt_succ_self _
    · exact Nat.lt_succ_of_lt (ih h)

theorem Scope.index?_eq (scope : Scope) (x : Name) :
    scope.index? x = (scope.level? x).map (scope.length - 1 - ·) := by
  induction scope with
  | nil => rfl
  | cons p scope ih =>
    rw [index?, List.idxOf?_cons, level?]
    by_cases hp : p = x
    · simp [hp]
    · rw [index?] at ih
      simp only [hp, beq_iff_eq, if_false, ih, Option.map_map]
      refine Option.map_congr fun k hk => ?_
      have hlt := level?_lt hk
      simp only [Function.comp_apply, List.length_cons]
      omega

/-- Equality up to bound names under the given binders. -/
def alphaEquivIn (left right : Scope) : Term → Term → Bool
  | var x, var y =>
    match left.level? x, right.level? y with
    | some i, some j => i == j
    | none, none => x == y
    | _, _ => false
  | abs p s, abs q t => alphaEquivIn (p :: left) (q :: right) s t
  | app f a, app g b => alphaEquivIn left right f g && alphaEquivIn left right a b
  | _, _ => false

/-- The terms differ at most in the names of bound variables. -/
def alphaEquiv (s t : Term) : Bool := alphaEquivIn [] [] s t

end Term

inductive Nameless where
  | bound (index : Nat)
  | free (name : Name)
  | lam (body : Nameless)
  | app (func arg : Nameless)
deriving DecidableEq

namespace Term

def namelessIn (scope : Scope) : Term → Nameless
  | var x => match scope.index? x with
    | some i => .bound i
    | none => .free x
  | abs p body => .lam (namelessIn (p :: scope) body)
  | app func arg => .app (namelessIn scope func) (namelessIn scope arg)

def nameless (t : Term) : Nameless := t.namelessIn []

theorem alphaEquivIn_iff {left right : Scope} (h : left.length = right.length) {s t : Term} :
    alphaEquivIn left right s t = true ↔ s.namelessIn left = t.namelessIn right := by
  induction s generalizing left right t with
  | var x =>
    cases t with
    | var y =>
      simp only [alphaEquivIn, namelessIn, Scope.index?_eq]
      cases hx : left.level? x with
      | none => cases right.level? y <;> simp
      | some i =>
        cases hy : right.level? y with
        | none => simp
        | some j =>
          have hi := Scope.level?_lt hx
          have hj := Scope.level?_lt hy
          simp only [Option.map_some, beq_iff_eq, Nameless.bound.injEq]
          omega
    | _ => simp only [alphaEquivIn, namelessIn]; cases left.index? x <;> simp
  | abs p s ih =>
    cases t with
    | var y => simp only [alphaEquivIn, namelessIn]; cases right.index? y <;> simp
    | abs q t =>
      have height : (p :: left).length = (q :: right).length := by simp [h]
      simp [alphaEquivIn, namelessIn, ih height]
    | app => simp [alphaEquivIn, namelessIn]
  | app f a ihf iha =>
    cases t with
    | var y => simp only [alphaEquivIn, namelessIn]; cases right.index? y <;> simp
    | abs => simp [alphaEquivIn, namelessIn]
    | app g b => simp [alphaEquivIn, namelessIn, ihf h, iha h]

theorem alphaEquiv_iff {s t : Term} : s.alphaEquiv t = true ↔ s.nameless = t.nameless :=
  alphaEquivIn_iff rfl

/-- What a hash function is fed: single bytes, counts, and texts. -/
inductive HashInput where
  | byte (value : UInt8)
  | count (value : Nat)
  | text (value : String)
deriving DecidableEq

/-- Each node opens with a byte for its shape. Bound variables count the
binders up to and with their own; the byte 255 closes a free name. -/
def fingerprintIn (scope : Scope) : Term → List HashInput
  | var x => match scope.index? x with
    | some i => [.byte 0, .count (i + 1)]
    | none => [.byte 1, .text x, .byte 255]
  | abs p body => .byte 2 :: fingerprintIn (p :: scope) body
  | app func arg => .byte 3 :: (fingerprintIn scope func ++ fingerprintIn scope arg)

def fingerprint (t : Term) : List HashInput := t.fingerprintIn []

end Term

end NamedLambda
