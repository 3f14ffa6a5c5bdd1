import NamedLambda.Term.Nameless

/-!
# Substitution in the nameless form

Without names there is nothing to avoid: `Nameless.replaceFree` puts a term for
a free name and only moves its indices past the binders on the way. Named
substitution comes to the same (`nameless_substitute`), whatever fresh names it
picks. The proof reads a named term under an arbitrary valuation of names
(`Term.interpret`), where a substitution becomes one changed value and needs no
condition on the names of binders. So two substitutions change places as two
changed values do (`Term.interpret_substitute_substitute`).
-/

namespace NamedLambda

namespace Nameless

/-- An index map under one more binder, whose own index stays. -/
def liftMap (f : Nat → Nat) : Nat → Nat
  | 0 => 0
  | i + 1 => f i + 1

/-- Every index that points out of the term is mapped. -/
def mapBound (f : Nat → Nat) : Nameless → Nameless
  | bound i => bound (f i)
  | free x => free x
  | lam body => lam (body.mapBound (liftMap f))
  | app func arg => app (func.mapBound f) (arg.mapBound f)

/-- The same term below one more binder. -/
def shift (t : Nameless) : Nameless := t.mapBound (· + 1)

/-- Puts `r` for every free `x`. -/
def replaceFree (x : Name) : Nameless → Nameless → Nameless
  | bound i, _ => bound i
  | free y, r => if y = x then r else free y
  | lam body, r => lam (body.replaceFree x r.shift)
  | app func arg, r => app (func.replaceFree x r) (arg.replaceFree x r)

theorem mapBound_mapBound (t : Nameless) (f g : Nat → Nat) :
    (t.mapBound f).mapBound g = t.mapBound (g ∘ f) := by
  induction t generalizing f g with
  | bound i => rfl
  | free x => rfl
  | lam body ih =>
    have lifted : liftMap g ∘ liftMap f = liftMap (g ∘ f) := by
      funext i
      cases i <;> rfl
    simp only [mapBound, ih, lifted]
  | app func arg ihf iha => simp only [mapBound, ihf, iha]

theorem shift_mapBound (t : Nameless) (f : Nat → Nat) :
    (t.mapBound f).shift = t.shift.mapBound (liftMap f) := by
  simp only [shift, mapBound_mapBound]
  rfl

theorem replaceFree_mapBound (x : Name) (t r : Nameless) (f : Nat → Nat) :
    (t.mapBound f).replaceFree x (r.mapBound f) = (t.replaceFree x r).mapBound f := by
  induction t generalizing r f with
  | bound i => rfl
  | free y =>
    simp only [mapBound, replaceFree]
    split <;> rfl
  | lam body ih => simp only [mapBound, replaceFree, shift_mapBound, ih]
  | app func arg ihf iha => simp only [mapBound, replaceFree, ihf, iha]

theorem replaceFree_shift (x : Name) (t r : Nameless) :
    t.shift.replaceFree x r.shift = (t.replaceFree x r).shift :=
  replaceFree_mapBound x t r _

end Nameless

namespace Term

abbrev Valuation := Name → Nameless

namespace Valuation

def set (ρ : Valuation) (x : Name) (n : Nameless) : Valuation :=
  fun y => if y = x then n else ρ y

/-- The valuation under a binder: its name is the nearest index. -/
def under (ρ : Valuation) (p : Name) : Valuation :=
  set (fun y => (ρ y).shift) p (.bound 0)

end Valuation

/-- The nameless form of a term whose names stand for nameless terms. -/
def interpret (ρ : Valuation) : Term → Nameless
  | var x => ρ x
  | abs p body => .lam (body.interpret (ρ.under p))
  | app func arg => .app (func.interpret ρ) (arg.interpret ρ)

/-- Only the values of free names matter. -/
theorem interpret_congr {ρ ρ' : Valuation} {t : Term}
    (h : ∀ x, t.occursFree x = true → ρ x = ρ' x) : t.interpret ρ = t.interpret ρ' := by
  induction t generalizing ρ ρ' with
  | var x => exact h x (by simp [occursFree])
  | abs p body ih =>
    refine congrArg Nameless.lam (ih fun x hx => ?_)
    by_cases hp : x = p
    · simp [Valuation.under, Valuation.set, hp]
    · simp [Valuation.under, Valuation.set, hp, h x (by simp [occursFree, hp, hx])]
  | app func arg ihf iha =>
    have hf := ihf fun x hx => h x (by simp [occursFree, hx])
    have ha := iha fun x hx => h x (by simp [occursFree, hx])
    simp only [interpret, hf, ha]

theorem mapBound_interpret (ρ : Valuation) (t : Term) (f : Nat → Nat) :
    (t.interpret ρ).mapBound f = t.interpret fun y => (ρ y).mapBound f := by
  induction t generalizing ρ f with
  | var x => rfl
  | abs p body ih =>
    have moved : (fun y => (ρ.under p y).mapBound (Nameless.liftMap f)) =
        Valuation.under (fun y => (ρ y).mapBound f) p := by
      funext y
      by_cases hy : y = p
      · simp [Valuation.under, Valuation.set, hy, Nameless.mapBound, Nameless.liftMap]
      · simp [Valuation.under, Valuation.set, hy, Nameless.shift_mapBound]
    simp only [interpret, Nameless.mapBound, ih, moved]
  | app func arg ihf iha => simp only [interpret, Nameless.mapBound, ihf, iha]

theorem shift_interpret (ρ : Valuation) (t : Term) :
    (t.interpret ρ).shift = t.interpret fun y => (ρ y).shift :=
  mapBound_interpret ρ t _

theorem replaceFree_interpret (ρ : Valuation) (t : Term) (x : Name) (r : Nameless) :
    (t.interpret ρ).replaceFree x r = t.interpret fun y => (ρ y).replaceFree x r := by
  induction t generalizing ρ r with
  | var y => rfl
  | abs p body ih =>
    have moved : (fun y => (ρ.under p y).replaceFree x r.shift) =
        Valuation.under (fun y => (ρ y).replaceFree x r) p := by
      funext y
      by_cases hy : y = p
      · simp [Valuation.under, Valuation.set, hy, Nameless.replaceFree]
      · simp [Valuation.under, Valuation.set, hy, Nameless.replaceFree_shift]
    simp only [interpret, Nameless.replaceFree, ih, moved]
  | app func arg ihf iha => simp only [interpret, Nameless.replaceFree, ihf, iha]

/-- What a name means under the given binders. -/
def Scope.resolve (scope : Scope) : Valuation := fun x =>
  match scope.index? x with
  | some i => .bound i
  | none => .free x

theorem Scope.resolve_cons (p : Name) (scope : Scope) :
    Scope.resolve (p :: scope) = (Scope.resolve scope).under p := by
  funext x
  by_cases hx : x = p
  · simp [resolve, index?, List.idxOf?_cons, Valuation.under, Valuation.set, hx]
  · have hne : ¬ p = x := Ne.symm hx
    simp only [resolve, index?, List.idxOf?_cons, Valuation.under, Valuation.set, hx, beq_iff_eq,
      hne, if_false]
    cases List.idxOf? x scope <;> rfl

theorem namelessIn_eq_interpret (scope : Scope) (t : Term) :
    t.namelessIn scope = t.interpret scope.resolve := by
  induction t generalizing scope with
  | var x => rfl
  | abs p body ih => simp only [namelessIn, interpret, ih, Scope.resolve_cons]
  | app func arg ihf iha => simp only [namelessIn, interpret, ihf, iha]

theorem nameless_eq_interpret (t : Term) : t.nameless = t.interpret .free :=
  namelessIn_eq_interpret [] t

theorem Valuation.set_under (ρ : Valuation) {x p : Name} (n : Nameless) (h : p ≠ x) :
    (ρ.under p).set x n.shift = (ρ.set x n).under p := by
  funext y
  by_cases hy : y = x
  · have hyp : y ≠ p := fun hp => h (hp.symm.trans hy)
    simp [under, set, hy, hy ▸ hyp]
  · by_cases hp : y = p
    · simp [under, set, hp, h]
    · simp [under, set, hy, hp]

theorem Valuation.set_set_comm (ρ : Valuation) {x y : Name} (h : x ≠ y) (m n : Nameless) :
    (ρ.set x m).set y n = (ρ.set y n).set x m := by
  funext z
  by_cases hx : z = x
  · have hy : z ≠ y := fun hy => h (hx.symm.trans hy)
    simp [set, hx, hx ▸ hy]
  · simp [set, hx]

theorem interpret_set_of_not_occursFree (ρ : Valuation) {t : Term} {x : Name}
    (h : t.occursFree x = false) (n : Nameless) : t.interpret (ρ.set x n) = t.interpret ρ := by
  refine interpret_congr fun y hy => ?_
  have hne : y ≠ x := by
    rintro rfl
    simp [h] at hy
  simp [Valuation.set, hne]

theorem interpret_under (ρ : Valuation) {t : Term} {p : Name} (h : t.occursFree p = false) :
    t.interpret (ρ.under p) = (t.interpret ρ).shift := by
  rw [shift_interpret]
  refine interpret_congr fun x hx => ?_
  have hne : x ≠ p := by
    rintro rfl
    simp [h] at hx
  simp [Valuation.under, Valuation.set, hne]

/-- A binder may take any name that is not free below it. -/
theorem interpret_set_under (ρ : Valuation) {t : Term} (p : Name) {q : Name}
    (h : t.occursFree q = false) :
    t.interpret ((ρ.under q).set p (.bound 0)) = t.interpret (ρ.under p) := by
  refine interpret_congr fun x hx => ?_
  have hne : x ≠ q := by
    rintro rfl
    simp [h] at hx
  by_cases hp : x = p <;> simp [Valuation.under, Valuation.set, hne, hp]

/-- Putting in `r` for `x` comes to reading `x` as `r`. The binders that are
renamed on the way make no difference, since a fresh name is free in neither
term. -/
theorem Substitutes.interpret {x : Name} {r t u : Term} (h : Substitutes x r t u)
    (ρ : Valuation) : u.interpret ρ = t.interpret (ρ.set x (r.interpret ρ)) := by
  induction h generalizing ρ with
  | replaced => simp [Term.interpret, Valuation.set]
  | other r hy => simp [Term.interpret, Valuation.set, hy]
  | app _ _ ihf iha => simp only [Term.interpret, ihf, iha]
  | absent r hx => exact (interpret_set_of_not_occursFree ρ hx _).symm
  | under hpx hr _ ih =>
    simp only [Term.interpret]
    rw [ih, interpret_under ρ hr, Valuation.set_under ρ _ hpx]
  | @renamed x p q r body body' body'' _ _ hqx hqr hqbody _ _ ihrenamed ih =>
    refine congrArg Nameless.lam ?_
    calc body''.interpret (ρ.under q)
        _ = body'.interpret ((ρ.under q).set x (r.interpret (ρ.under q))) := ih _
        _ = body'.interpret ((ρ.set x (r.interpret ρ)).under q) := by
          rw [interpret_under ρ hqr, Valuation.set_under ρ _ hqx]
        _ = body.interpret (((ρ.set x (r.interpret ρ)).under q).set p (.bound 0)) := by
          rw [ihrenamed]
          simp [Term.interpret, Valuation.under, Valuation.set]
        _ = body.interpret ((ρ.set x (r.interpret ρ)).under p) := interpret_set_under _ p hqbody

theorem interpret_substitute (t : Term) (x : Name) (r : Term) (names : NameSupply)
    (ρ : Valuation) :
    (t.substitute x r names).1.interpret ρ = t.interpret (ρ.set x (r.interpret ρ)) :=
  (substitutes_substitute t x r names).interpret ρ

theorem nameless_substitute_eq (t : Term) (x : Name) (r : Term) (names : NameSupply) :
    (t.substitute x r names).1.nameless = t.nameless.replaceFree x r.nameless := by
  have value : (fun y => (Nameless.free y).replaceFree x r.nameless) =
      Valuation.set .free x r.nameless := by
    funext y
    simp [Nameless.replaceFree, Valuation.set]
  rw [nameless_eq_interpret, interpret_substitute, nameless_eq_interpret t,
    replaceFree_interpret, value, nameless_eq_interpret r]

/-- Substitution is substitution in the nameless form. So it captures nothing
and misses nothing, and up to bound names it depends on neither the bound names
of the two terms nor the supply of fresh ones. -/
theorem nameless_substitute (t : Term) (x : Name) (r : Term) (names : NameSupply) :
    (t.substitute x r names).1.nameless = t.nameless.replaceFree x r.nameless ∧
      ∀ (t' r' : Term) (names' : NameSupply), t.alphaEquiv t' = true → r.alphaEquiv r' = true →
        (t.substitute x r names).1.alphaEquiv (t'.substitute x r' names').1 = true := by
  refine ⟨nameless_substitute_eq t x r names, fun t' r' names' ht hr => ?_⟩
  rw [alphaEquiv_iff] at ht hr ⊢
  rw [nameless_substitute_eq, nameless_substitute_eq, ht, hr]

theorem interpret_substitute_substitute (ρ : Valuation) {x y : Name} (hxy : x ≠ y) {b : Term}
    (hb : b.occursFree x = false) (t a : Term) (n₁ n₂ n₃ n₄ n₅ : NameSupply) :
    ((t.substitute x a n₁).1.substitute y b n₂).1.interpret ρ =
      ((t.substitute y b n₃).1.substitute x (a.substitute y b n₄).1 n₅).1.interpret ρ := by
  have value : a.interpret (ρ.set y (b.interpret ρ)) = (a.substitute y b n₄).1.interpret ρ :=
    (interpret_substitute a y b n₄ ρ).symm
  calc ((t.substitute x a n₁).1.substitute y b n₂).1.interpret ρ
    _ = t.interpret ((ρ.set y (b.interpret ρ)).set x (a.interpret (ρ.set y (b.interpret ρ)))) := by
      rw [interpret_substitute, interpret_substitute]
    _ = t.interpret ((ρ.set x ((a.substitute y b n₄).1.interpret ρ)).set y (b.interpret ρ)) := by
      rw [value, Valuation.set_set_comm ρ hxy]
    _ = ((t.substitute y b n₃).1.substitute x (a.substitute y b n₄).1 n₅).1.interpret ρ := by
      rw [interpret_substitute _ x, interpret_substitute t y, interpret_set_of_not_occursFree ρ hb]

/-- The substitution lemma. The second of two substitutions may be made first, in the term and
in what is put in, if it brings no name that the other one replaces. -/
theorem alphaEquiv_substitute_substitute {x y : Name} (hxy : x ≠ y) {b : Term}
    (hb : b.occursFree x = false) (t a : Term) (n₁ n₂ n₃ n₄ n₅ : NameSupply) :
    ((t.substitute x a n₁).1.substitute y b n₂).1.alphaEquiv
      ((t.substitute y b n₃).1.substitute x (a.substitute y b n₄).1 n₅).1 = true := by
  rw [alphaEquiv_iff, nameless_eq_interpret, nameless_eq_interpret]
  exact interpret_substitute_substitute .free hxy hb t a n₁ n₂ n₃ n₄ n₅

/-- The binder `z` of the term would capture in both substitutions, and the fresh name `z1`
that it takes in the first one would capture in the second. -/
theorem alphaEquiv_substitute_substitute_recapture :
    let t := abs "z" (app (var "x") (app (var "y") (var "z")))
    let a := app (var "z") (var "y")
    let b := app (var "z") (var "z1")
    "x" ≠ "y" ∧ b.occursFree "x" = false ∧
      ((t.substitute "x" a .new).1.substitute "y" b .new).1.alphaEquiv
        ((t.substitute "y" b .new).1.substitute "x" (a.substitute "y" b .new).1 .new).1 = true :=
  ⟨by decide, by decide,
    alphaEquiv_substitute_substitute (by decide) (by decide) _ _ .new .new .new .new .new⟩

end Term

end NamedLambda
