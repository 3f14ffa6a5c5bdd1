import NamedLambda.Proofs.BinderRenaming

/-!
# The recursion of substitution

The body of a binder that has been freshened is no part of the term, so substitution does not
follow the structure. It ends because a variable put for a variable changes nothing but names
(`Term.Substitutes.sameShape`): the freshened body reaches no deeper than the one before it.
`Term.substituteWithin` is that recursion by itself, given up at a bound on the depth of its
calls. The depth of the term is bound enough, whatever is put in (`Term.substituteWithin_eq`).
-/

namespace NamedLambda.Term

namespace SameShape

variable {s t u : Term}

theorem refl (t : Term) : SameShape t t := by
  induction t with
  | var x => exact .var x x
  | abs p body ih => exact .abs p p ih
  | app func arg ihf iha => exact .app ihf iha

theorem trans (h : SameShape s t) (h' : SameShape t u) : SameShape s u := by
  induction h generalizing u with
  | var x y =>
    cases h' with
    | var _ z => exact .var x z
  | abs p q _ ih =>
    cases h' with
    | abs _ r hbody => exact .abs p r (ih hbody)
  | app _ _ ihf iha =>
    cases h' with
    | app hf ha => exact .app (ihf hf) (iha ha)

end SameShape

/-- The same positions with one kind of node at each of them, as many nodes, and as many levels. -/
structure SameOutline (s t : Term) : Prop where
  positions : ∀ path, (s.subterm? path).isSome = (t.subterm? path).isSome
  kinds : ∀ path, (s.subterm? path).map kind = (t.subterm? path).map kind
  size : s.size = t.size
  depth : s.depth = t.depth

theorem SameShape.sameOutline {s t : Term} (h : SameShape s t) : SameOutline s t where
  positions path := by
    have kinds := congrArg Option.isSome (h.kind_subterm? path)
    simpa only [Option.isSome_map] using kinds
  kinds := h.kind_subterm?
  size := h.size_eq
  depth := h.depth_eq

/-- Where the replacement is a variable, what is put in for a node is a node of its kind. The
freshened bodies that come in between are such instances too. -/
theorem Substitutes.sameShape {x y : Name} {t u : Term} (h : Substitutes x (var y) t u) :
    SameShape u t := by
  generalize hr : var y = r at h
  induction h generalizing y with
  | replaced x r => exact hr ▸ .var y x
  | other => exact .refl _
  | app _ _ ihf iha => exact .app (ihf hr) (iha hr)
  | absent => exact .refl _
  | under _ _ _ ih => exact .abs _ _ (ih hr)
  | renamed _ _ _ _ _ _ _ ihfreshened ih => exact .abs _ _ ((ih hr).trans (ihfreshened rfl))

theorem sameShape_substitute_var (t : Term) (x y : Name) (names : NameSupply) :
    SameShape (t.substitute x (var y) names).1 t :=
  (substitutes_substitute t x (var y) names).sameShape

/-- The recursion of substitution where calls are nested to a depth of at most `n`. -/
def substituteWithin (n : Nat) (t : Term) (x : Name) (r : Term) (names : NameSupply) :
    Option (Term × NameSupply) :=
  match n, t with
  | 0, _ => none
  | _ + 1, var y => some (if y = x then r else var y, names)
  | n + 1, app func arg => do
    let (func', names₁) ← substituteWithin n func x r names
    let (arg', names₂) ← substituteWithin n arg x r names₁
    return (app func' arg', names₂)
  | n + 1, abs p body =>
    if p = x || !body.occursFree x then some (abs p body, names)
    else if p ∈ r.freeVars then do
      let (p', names₁) := names.fresh p (avoided x (.of r) body)
      let (freshened, names₂) ← substituteWithin n body p (var p') names₁
      let (body', names₃) ← substituteWithin n freshened x r names₂
      return (abs p' body', names₃)
    else do
      let (body', names₁) ← substituteWithin n body x r names
      return (abs p body', names₁)

theorem substituteWithin_eq {n : Nat} {t : Term} (h : t.depth ≤ n) (x : Name) (r : Term)
    (names : NameSupply) : substituteWithin n t x r names = some (t.substitute x r names) := by
  induction n generalizing t x r names with
  | zero => cases t <;> simp [Term.depth] at h
  | succ n ih =>
    cases t with
    | var y => rw [substituteWithin, substitute_var]
    | app func arg =>
      simp only [Term.depth, Nat.add_le_add_iff_right, Nat.max_le] at h
      simp only [substituteWithin, ih h.1, ih h.2, substitute_app]
      rfl
    | abs p body =>
      simp only [Term.depth, Nat.add_le_add_iff_right] at h
      have freshened (p' : Name) (names₁ : NameSupply) :
          (body.substitute p (var p') names₁).1.depth ≤ n :=
        (sameShape_substitute_var body p p' names₁).depth_eq.trans_le h
      rw [substituteWithin, substitute_abs]
      split
      · rfl
      · split
        · simp only [ih h, ih (freshened _ _), Option.bind_eq_bind, Option.bind_some]
          rfl
        · simp only [ih h]
          rfl

/-- A variable put for a variable leaves the outline of a term as it is, and so does a binder that
moves to another name. So the calls of every substitution are nested no deeper than its term. -/
theorem substitute_var_outline :
    (∀ (t : Term) (x y : Name) (names : NameSupply),
      SameOutline (t.substitute x (var y) names).1 t) ∧
    (∀ (p : Name) (body : Term) (target : Name) (names : NameSupply),
      ∃ body', (rebind p body target names).1 = abs target body' ∧ SameOutline body' body) ∧
    ∀ (t : Term) (x : Name) (r : Term) (names : NameSupply) (n : Nat), t.depth ≤ n →
      substituteWithin n t x r names = some (t.substitute x r names) := by
  refine ⟨fun t x y names => ?_, fun p body target names => ?_, fun t x r names n h => ?_⟩
  · exact (sameShape_substitute_var t x y names).sameOutline
  · exact ⟨_, rfl, (sameShape_substitute_var body p target names).sameOutline⟩
  · exact substituteWithin_eq h x r names

/-- To put `y` for `x` in `λy. λy1. x y y1`, the outer binder moves to `y1`, and for that the inner
one moves to `y2`. -/
theorem substitute_var_outline_nested :
    let t := abs "y" (abs "y1" ((var "x").apply [var "y", var "y1"]))
    let u := abs "y1" (abs "y2" ((var "y").apply [var "y1", var "y2"]))
    SameOutline u t ∧ t.depth ≤ 5 ∧ substituteWithin 5 t "x" (var "y") .new = some (u, ⟨2⟩) := by
  intro t u
  have hrun : t.substitute "x" (var "y") .new = (u, ⟨2⟩) := by cbv
  obtain ⟨outline, -, ends⟩ := substitute_var_outline
  have houtline := outline t "x" "y" .new
  have hends := ends t "x" (var "y") .new 5 (by decide)
  rw [hrun] at houtline hends
  exact ⟨houtline, by decide, hends⟩

end NamedLambda.Term
