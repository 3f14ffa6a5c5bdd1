import NamedLambda.Fresh

/-!
# Capture-avoiding substitution

`t.substitute x r names` puts `r` for the free `x` of `t`. A binder that would
capture a free name of `r` is first renamed to a fresh name, and that renaming
is itself a substitution, of a variable. The recursion goes on in the renamed
body, which is no subterm of the original; it ends because putting a variable
for a variable keeps the size.

`substitute_var`, `substitute_app` and `substitute_abs` are the equations of
the operation. `Substitutes` says of a term and its instance what the operation
does, with what the names that it took keep apart, so that what is proved of
instances is proved by induction on it.
-/

namespace NamedLambda

/-- A term to put in, with its free names at hand. -/
structure Replacement where
  term : Term
  free : OrderedSet Name
  free_eq : free = term.freeVars

namespace Replacement

def of (t : Term) : Replacement := ⟨t, t.freeVars, rfl⟩

@[simp] theorem term_of (t : Term) : (of t).term = t := rfl

@[simp] theorem free_of (t : Term) : (of t).free = t.freeVars := rfl

end Replacement

namespace Term

/-- The names that a renamed binder must not take: those free in the
replacement or in the body, and the variable that is replaced. -/
def avoided (x : Name) (r : Replacement) (body : Term) : OrderedSet Name :=
  (r.free ∪ body.freeVars).insert x

@[simp] theorem mem_avoided {x y : Name} {r : Replacement} {body : Term} :
    y ∈ avoided x r body ↔ y = x ∨ y ∈ r.free ∨ y ∈ body.freeVars := by
  simp [avoided]

/-- The result comes with the reason why the recursion ends. -/
def replace (x : Name) (r : Replacement) (names : NameSupply) :
    (t : Term) → { q : Term × NameSupply // r.term.size = 1 → q.1.size = t.size }
  | var y =>
    if y = x then ⟨(r.term, names), fun h => h⟩ else ⟨(var y, names), fun _ => rfl⟩
  | app func arg =>
    let ⟨(func', names₁), hf⟩ := replace x r names func
    let ⟨(arg', names₂), ha⟩ := replace x r names₁ arg
    ⟨(app func' arg', names₂), fun h => by simp [size, hf h, ha h]⟩
  | abs p body =>
    if p = x || !body.occursFree x then ⟨(abs p body, names), fun _ => rfl⟩
    else if p ∈ r.free then
      let (p', names₁) := names.fresh p (avoided x r body)
      let ⟨(renamed, names₂), hr⟩ := replace p (.of (var p')) names₁ body
      have : renamed.size = body.size := hr rfl
      let ⟨(body', names₃), hb⟩ := replace x r names₂ renamed
      ⟨(abs p' body', names₃), fun h => by simp [size, hb h, this]⟩
    else
      let ⟨(body', names₁), hb⟩ := replace x r names body
      ⟨(abs p body', names₁), fun h => by simp [size, hb h]⟩
termination_by t => t.size
decreasing_by all_goals simp [size]; try omega

/-- Puts `r` for every free `x`. Binders take fresh names where they would
capture, and where `x` does not occur nothing changes. -/
def substitute (t : Term) (x : Name) (r : Term) (names : NameSupply) : Term × NameSupply :=
  (replace x (.of r) names t).1

@[simp] theorem substitute_var (y x : Name) (r : Term) (names : NameSupply) :
    (var y).substitute x r names = (if y = x then r else var y, names) := by
  rw [substitute, replace]
  split <;> rfl

theorem substitute_app (func arg : Term) (x : Name) (r : Term) (names : NameSupply) :
    (app func arg).substitute x r names =
      let (func', names₁) := func.substitute x r names
      let (arg', names₂) := arg.substitute x r names₁
      (app func' arg', names₂) := by
  simp only [substitute]
  rw [replace]

theorem substitute_abs (p : Name) (body : Term) (x : Name) (r : Term) (names : NameSupply) :
    (abs p body).substitute x r names =
      if p = x || !body.occursFree x then (abs p body, names)
      else if p ∈ r.freeVars then
        let (p', names₁) := names.fresh p (avoided x (.of r) body)
        let (renamed, names₂) := body.substitute p (var p') names₁
        let (body', names₃) := renamed.substitute x r names₂
        (abs p' body', names₃)
      else
        let (body', names₁) := body.substitute x r names
        (abs p body', names₁) := by
  simp only [substitute]
  rw [replace]
  by_cases hx : (p = x || !body.occursFree x) = true
  · rw [if_pos hx, if_pos hx]
  · rw [if_neg hx, if_neg hx]
    by_cases hp : p ∈ r.freeVars
    · rw [if_pos hp, if_pos (by exact hp)]
    · rw [if_neg hp, if_neg (by exact hp)]

theorem substitute_of_not_occursFree {t : Term} {x : Name} (h : t.occursFree x = false) (r : Term)
    (names : NameSupply) : t.substitute x r names = (t, names) := by
  induction t with
  | var y =>
    have hne : y ≠ x := by
      rintro rfl
      simp [occursFree] at h
    rw [substitute_var, if_neg hne]
  | abs p body _ =>
    rw [substitute_abs, if_pos]
    by_cases hp : p = x
    · simp [hp]
    · simpa [occursFree, hp, Ne.symm hp] using h
  | app func arg ihf iha =>
    simp only [occursFree, Bool.or_eq_false_iff] at h
    simp only [substitute_app, ihf h.1, iha h.2]

theorem substitute_abs_of_not_occursFree {p x : Name} {r : Term} (hpx : p ≠ x)
    (hpr : r.occursFree p = false) (body : Term) (names : NameSupply) :
    (abs p body).substitute x r names =
      (abs p (body.substitute x r names).1, (body.substitute x r names).2) := by
  cases hbody : body.occursFree x with
  | false =>
    rw [substitute_of_not_occursFree hbody,
      substitute_of_not_occursFree (by simp [occursFree, hbody])]
  | true =>
    rw [substitute_abs, if_neg (by simp [hpx, hbody]), if_neg (by simp [mem_freeVars, hpr])]

theorem size_substitute_var (t : Term) (x y : Name) (names : NameSupply) :
    (t.substitute x (var y) names).1.size = t.size :=
  (replace x (.of (var y)) names t).2 rfl

/-- The last term is the one before with the second for the free `x` of it. -/
inductive Substitutes : Name → Term → Term → Term → Prop
  | replaced (x : Name) (r : Term) : Substitutes x r (var x) r
  | other {x y : Name} (r : Term) : y ≠ x → Substitutes x r (var y) (var y)
  | app {x : Name} {r func func' arg arg' : Term} : Substitutes x r func func' →
      Substitutes x r arg arg' → Substitutes x r (app func arg) (app func' arg')
  | absent {x p : Name} {body : Term} (r : Term) : (abs p body).occursFree x = false →
      Substitutes x r (abs p body) (abs p body)
  | under {x p : Name} {r body body' : Term} : p ≠ x → r.occursFree p = false →
      Substitutes x r body body' → Substitutes x r (abs p body) (abs p body')
  | renamed {x p q : Name} {r body body' body'' : Term} : p ≠ x → r.occursFree p = true →
      q ≠ x → r.occursFree q = false → body.occursFree q = false →
      Substitutes p (var q) body body' → Substitutes x r body' body'' →
      Substitutes x r (abs p body) (abs q body'')

theorem substitutes_substitute (t : Term) (x : Name) (r : Term) (names : NameSupply) :
    Substitutes x r t (t.substitute x r names).1 := by
  -- the body of a renamed binder is no subterm, but it keeps its size
  induction t using size_induction generalizing x r names with
  | h t smaller =>
    cases t with
    | var y =>
      rw [substitute_var]
      split
      · next hy => exact hy ▸ .replaced y r
      · next hy => exact .other r hy
    | app func arg =>
      rw [substitute_app]
      exact .app (smaller func (by simp only [size]; omega) x r names)
        (smaller arg (by simp only [size]; omega) x r _)
    | abs p body =>
      have hbody : body.size < (abs p body).size := by simp [size]
      rw [substitute_abs]
      split
      · next hx =>
        simp only [Bool.or_eq_true, decide_eq_true_eq, Bool.not_eq_true'] at hx
        refine .absent r ?_
        rcases hx with rfl | hx
        · simp [occursFree]
        · simp [occursFree, hx]
      · next hx =>
        simp only [Bool.or_eq_true, decide_eq_true_eq, not_or] at hx
        split
        · next hp =>
          have hq := names.fresh_not_mem p (avoided x (.of r) body)
          simp only [mem_avoided, Replacement.free_of, not_or, mem_freeVars,
            Bool.not_eq_true] at hq
          obtain ⟨hqx, hqr, hqbody⟩ := hq
          refine .renamed hx.1 (mem_freeVars.1 hp) hqx hqr hqbody (smaller body hbody p _ _)
            (smaller _ ?_ x r _)
          rwa [size_substitute_var]
        · next hp =>
          have hpr : r.occursFree p = false := by simpa [mem_freeVars] using hp
          exact .under hx.1 hpr (smaller body hbody x r names)

/-- Free in an instance is what was free before, but for the name replaced, and
what is put in. -/
theorem Substitutes.occursFree_iff {x y : Name} {r t u : Term} (h : Substitutes x r t u) :
    u.occursFree y = true ↔
      (y ≠ x ∧ t.occursFree y = true) ∨ (t.occursFree x = true ∧ r.occursFree y = true) := by
  induction h generalizing y with
  | replaced x r => grind [occursFree]
  | other r hyx => grind [occursFree]
  | app _ _ ihf iha => grind [occursFree]
  | absent r hx => grind
  | under hpx hpr _ ih => grind [occursFree]
  | renamed hpx hpr hqx hqr hqbody _ _ ihrenamed ih => grind [occursFree]

/-- Moves the binder of `λp. body` to the name `target`. -/
def rebind (p : Name) (body : Term) (target : Name) (names : NameSupply) : Term × NameSupply :=
  let (body', names') := body.substitute p (var target) names
  (abs target body', names')

end Term

end NamedLambda
