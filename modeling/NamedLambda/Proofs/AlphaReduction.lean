import NamedLambda.Proofs.NamelessReduction

/-!
# Reduction up to bound names

Terms that differ at most in the names of bound variables are reduced in step:
a strategy finds the same redex in both (`Term.AlphaRel.findRedex_eq`), and what
a contraction or eta reduction leaves differs at most in bound names again
(`Term.AlphaRel.contractAt`, `Term.AlphaRel.etaReduce`), whatever fresh names
the two took. One step keeps this, so whole runs do (`alphaEquiv_reduce`).
-/

namespace NamedLambda

namespace Nameless

/-- The index points out of the term from somewhere inside. -/
def occursBound : Nat → Nameless → Bool
  | i, bound j => i = j
  | _, free _ => false
  | i, lam body => body.occursBound (i + 1)
  | i, app func arg => func.occursBound i || arg.occursBound i

theorem shift_inj {t u : Nameless} (h : t.shift = u.shift) : t = u := by
  rw [← bindBound_shift_bindFirst t (free ""), h, bindBound_shift_bindFirst]

end Nameless

namespace Term

theorem Scope.index?_cons_zero {p x : Name} {scope : Scope} :
    Scope.index? (p :: scope) x = some 0 ↔ x = p := by
  by_cases hx : p = x
  · simp [index?, List.idxOf?_cons, hx]
  · simp [index?, List.idxOf?_cons, hx, Ne.symm hx]

theorem Scope.index?_cons_succ {p x : Name} {scope : Scope} {i : Nat} :
    Scope.index? (p :: scope) x = some (i + 1) ↔ x ≠ p ∧ scope.index? x = some i := by
  by_cases hx : p = x
  · simp [index?, List.idxOf?_cons, hx]
  · simp [index?, List.idxOf?_cons, hx, Ne.symm hx]

theorem occursBound_namelessIn {scope : Scope} {t : Term} {i : Nat} :
    (t.namelessIn scope).occursBound i = true ↔
      ∃ x, t.occursFree x = true ∧ scope.index? x = some i := by
  induction t generalizing scope i with
  | var y =>
    cases hy : scope.index? y with
    | none => simp [namelessIn, hy, Nameless.occursBound, occursFree]
    | some j => simp [namelessIn, hy, Nameless.occursBound, occursFree, eq_comm]
  | abs p body ih =>
    simp only [namelessIn, Nameless.occursBound, ih, Scope.index?_cons_succ, occursFree,
      Bool.and_eq_true, decide_eq_true_eq]
    exact exists_congr fun x => by tauto
  | app func arg ihf iha =>
    simp only [namelessIn, Nameless.occursBound, occursFree, Bool.or_eq_true, ihf, iha,
      or_and_right, exists_or]

theorem occursBound_zero (p : Name) (scope : Scope) (t : Term) :
    (t.namelessIn (p :: scope)).occursBound 0 = t.occursFree p := by
  rw [Bool.eq_iff_iff, occursBound_namelessIn]
  simp [Scope.index?_cons_zero]

theorem namelessIn_cons {p : Name} {t : Term} (scope : Scope) (h : t.occursFree p = false) :
    t.namelessIn (p :: scope) = (t.namelessIn scope).shift := by
  rw [namelessIn_eq_interpret, Scope.resolve_cons, interpret_under _ h, namelessIn_eq_interpret]

/-- Equality up to bound names under the given binders, one rule for each shape. -/
inductive AlphaRel : Scope → Scope → Term → Term → Prop
  | var {left right : Scope} {x y : Name} :
      (var x).namelessIn left = (var y).namelessIn right → AlphaRel left right (var x) (var y)
  | abs {left right : Scope} {p q : Name} {s t : Term} :
      AlphaRel (p :: left) (q :: right) s t → AlphaRel left right (abs p s) (abs q t)
  | app {left right : Scope} {f g a b : Term} :
      AlphaRel left right f g → AlphaRel left right a b → AlphaRel left right (app f a) (app g b)

theorem alphaRel_iff {left right : Scope} {s t : Term} :
    AlphaRel left right s t ↔ s.namelessIn left = t.namelessIn right := by
  constructor
  · intro h
    induction h with
    | var h => exact h
    | abs _ ih => exact congrArg Nameless.lam ih
    | app _ _ ihf iha => exact congrArg₂ Nameless.app ihf iha
  · intro h
    induction s generalizing left right t with
    | var x =>
      cases t with
      | var y => exact .var h
      | abs q t => exact absurd h (namelessIn_ne_lam (by simp) left _)
      | app g b =>
        rw [namelessIn] at h
        cases hx : left.index? x <;> simp [hx, namelessIn] at h
    | abs p s ih =>
      cases t with
      | var y => exact absurd h.symm (namelessIn_ne_lam (by simp) right _)
      | abs q t => exact .abs (ih (Nameless.lam.inj h))
      | app g b => cases h
    | app f a ihf iha =>
      cases t with
      | var y =>
        rw [namelessIn.eq_def right] at h
        cases hy : right.index? y <;> simp [hy, namelessIn] at h
      | abs q t => cases h
      | app g b =>
        obtain ⟨hf, ha⟩ := Nameless.app.inj h
        exact .app (ihf hf) (iha ha)

theorem alphaRel_nil_iff {s t : Term} : AlphaRel [] [] s t ↔ s.alphaEquiv t = true := by
  rw [alphaRel_iff, alphaEquiv_iff]
  rfl

namespace AlphaRel

variable {left right : Scope} {s t : Term}

theorem symm (h : AlphaRel left right s t) : AlphaRel right left t s :=
  alphaRel_iff.2 (alphaRel_iff.1 h).symm

theorem isRedex_eq (h : AlphaRel left right s t) : s.isRedex = t.isRedex := by
  cases h with
  | var => rfl
  | abs => rfl
  | app hf ha => cases hf <;> rfl

theorem outermost_eq (h : AlphaRel left right s t) :
    Strategy.outermost s = Strategy.outermost t := by
  induction h with
  | var => rfl
  | abs _ ih =>
    unfold Strategy.outermost
    rw [ih]
  | app hf ha ihf iha =>
    unfold Strategy.outermost
    rw [(AlphaRel.app hf ha).isRedex_eq, ihf, iha]

theorem innermost_eq (h : AlphaRel left right s t) :
    Strategy.innermost s = Strategy.innermost t := by
  induction h with
  | var => rfl
  | abs _ ih =>
    unfold Strategy.innermost
    rw [ih]
  | app hf ha ihf iha =>
    unfold Strategy.innermost
    rw [(AlphaRel.app hf ha).isRedex_eq, ihf, iha]

theorem findRedex_eq (h : AlphaRel left right s t) (strategy : Strategy) :
    strategy.findRedex s = strategy.findRedex t := by
  cases strategy
  · exact h.outermost_eq
  · exact h.innermost_eq

theorem substitute {p q : Name} {a b : Term} (hbody : AlphaRel (p :: left) (q :: right) s t)
    (harg : AlphaRel left right a b) (names names' : NameSupply) :
    AlphaRel left right (s.substitute p a names).1 (t.substitute q b names').1 := by
  rw [alphaRel_iff] at hbody harg ⊢
  rw [namelessIn_substitute, namelessIn_substitute, hbody, harg]

theorem contractAt (h : AlphaRel left right s t) (path : Path) (names names' : NameSupply) :
    AlphaRel left right (s.contractAt path names).1 (t.contractAt path names').1 := by
  induction path generalizing left right s t with
  | nil =>
    cases h with
    | var h => exact .var h
    | abs h => exact .abs h
    | app hf ha =>
      cases hf with
      | var hf => exact .app (.var hf) ha
      | abs hbody => exact hbody.substitute ha names names'
      | app hf hb => exact .app (.app hf hb) ha
  | cons d path ih =>
    cases h with
    | var h => exact .var h
    | abs h => match d with
      | 0 => exact .abs (ih h)
      | _ + 1 => exact .abs h
    | app hf ha =>
      match d with
      | 0 =>
        simp only [Term.contractAt]
        exact .app (ih hf) ha
      | _ + 1 =>
        simp only [Term.contractAt]
        exact .app hf (ih ha)

theorem of_cons {p q : Name} (h : AlphaRel (p :: left) (q :: right) s t)
    (hs : s.occursFree p = false) (ht : t.occursFree q = false) : AlphaRel left right s t := by
  rw [alphaRel_iff, namelessIn_cons left hs, namelessIn_cons right ht] at h
  exact alphaRel_iff.2 (Nameless.shift_inj h)

theorem occursFree_eq {p q : Name} (h : AlphaRel (p :: left) (q :: right) s t) :
    s.occursFree p = t.occursFree q := by
  rw [← occursBound_zero p left s, alphaRel_iff.1 h, occursBound_zero]

theorem exists_etaStep? {u : Term} (h : AlphaRel left right s t) (hu : s.etaStep? = some u) :
    ∃ v, t.etaStep? = some v ∧ AlphaRel left right u v := by
  obtain ⟨p, rfl, hfree⟩ := etaStep?_eq_some_iff.1 hu
  cases h with
  | @abs _ _ _ q _ _ hbody =>
    cases hbody with
    | @app _ _ _ v _ _ hfunc harg =>
      cases harg with
      | @var _ _ _ y hvar =>
        obtain rfl : q = y := by
          have hy := occursFree_eq (.var hvar)
          simpa [occursFree] using hy
        have hfree' : v.occursFree q = false := hfunc.occursFree_eq ▸ hfree
        exact ⟨v, etaStep?_eq_some_iff.2 ⟨q, rfl, hfree'⟩, hfunc.of_cons hfree hfree'⟩

theorem etaStep? (h : AlphaRel left right s t) :
    Option.Rel (AlphaRel left right) s.etaStep? t.etaStep? := by
  cases hs : s.etaStep? with
  | some u =>
    obtain ⟨v, ht, huv⟩ := h.exists_etaStep? hs
    rw [ht]
    exact .some huv
  | none =>
    cases ht : t.etaStep? with
    | none => exact .none
    | some v =>
      obtain ⟨u, hu, _⟩ := h.symm.exists_etaStep? ht
      rw [hs] at hu
      cases hu

theorem etaStep?_getD (h : AlphaRel left right s t) :
    AlphaRel left right (s.etaStep?.getD s) (t.etaStep?.getD t) := by
  have hstep := h.etaStep?
  generalize s.etaStep? = u, t.etaStep? = v at hstep
  cases hstep with
  | none => exact h
  | some huv => exact huv

theorem etaReduce (h : AlphaRel left right s t) :
    AlphaRel left right s.etaReduce t.etaReduce := by
  induction h with
  | var h => exact .var h
  | abs _ ih => exact (AlphaRel.abs ih).etaStep?_getD
  | app _ _ ihf iha => exact .app ihf iha

end AlphaRel

structure Contraction.Alike (c d : Contraction) : Prop where
  path : c.path = d.path
  term : c.term.alphaEquiv d.term = true

theorem contract_alike {s t : Term} (h : s.alphaEquiv t = true) (strategy : Strategy)
    (names names' : NameSupply) :
    Option.Rel Contraction.Alike (s.contract strategy names) (t.contract strategy names') := by
  have hrel := alphaRel_nil_iff.2 h
  unfold contract
  rw [hrel.findRedex_eq strategy]
  cases strategy.findRedex t with
  | none => exact .none
  | some path => exact .some ⟨rfl, alphaRel_nil_iff.1 (hrel.contractAt path names names')⟩

end Term

namespace Reduction

structure Step.Alike (a b : Step) : Prop where
  path : a.path = b.path
  term : a.term.alphaEquiv b.term = true

/-- Step by step the same, but for the names of bound variables. -/
structure Alike (r r' : Reduction) : Prop where
  term : r.term.alphaEquiv r'.term = true
  steps : r.steps = r'.steps
  terminated : r.terminated = r'.terminated
  trace : List.Forall₂ Step.Alike r.trace r'.trace

theorem run_alike (strategy : Strategy) (keepSteps : Bool) {s t : Term}
    (h : s.alphaEquiv t = true) (names names' : NameSupply) (steps : Nat) {past past' : List Step}
    (hpast : List.Forall₂ Step.Alike past past') (budget : Nat) :
    Alike (run strategy keepSteps s names steps past budget)
      (run strategy keepSteps t names' steps past' budget) := by
  induction budget generalizing s t names names' steps past past' with
  | zero =>
    have hfound := (Term.alphaRel_nil_iff.2 h).findRedex_eq strategy
    rw [run_zero, run_zero]
    exact ⟨h, rfl, by rw [hfound], List.rel_reverse hpast⟩
  | succ budget ih =>
    have hstep := Term.contract_alike h strategy names names'
    rw [run_succ, run_succ]
    generalize s.contract strategy names = c, t.contract strategy names' = d at hstep
    cases hstep with
    | none => exact ⟨h, rfl, rfl, List.rel_reverse hpast⟩
    | some hcd =>
      refine ih hcd.term _ _ (steps + 1) ?_
      cases keepSteps with
      | false => exact hpast
      | true => exact .cons ⟨hcd.path, h⟩ hpast

end Reduction

/-- Terms that differ at most in bound names are reduced alike, whatever the
settings, and a single contraction does not depend on the supply of fresh names. -/
theorem Term.alphaEquiv_reduce {s t : Term} (h : s.alphaEquiv t = true) :
    (∀ settings : Settings, (settings.reduce s).Alike (settings.reduce t)) ∧
      ∀ (strategy : Strategy) (names names' : NameSupply),
        Option.Rel Contraction.Alike (s.contract strategy names) (t.contract strategy names') := by
  constructor
  · intro settings
    have hrun := Reduction.run_alike settings.strategy settings.trace h .new .new 0 .nil
      settings.maxSteps
    unfold Settings.reduce
    simp only [hrun.terminated]
    split
    · have hterm := (alphaRel_nil_iff.2 hrun.term).etaReduce
      exact ⟨alphaRel_nil_iff.1 hterm, hrun.steps, rfl, hrun.trace⟩
    · exact hrun
  · exact contract_alike h

/-- The term `(λx. λy. x y) y`, whose inner binder must give way. -/
def Term.clashing : Term :=
  .app (.abs "x" (.abs "y" (.app (.var "x") (.var "y")))) (.var "y")

def Term.spread : Term :=
  .app (.abs "u" (.abs "w" (.app (.var "u") (.var "w")))) (.var "y")

/-- The normal forms have the names that the two runs left. -/
theorem Term.alphaEquiv_reduce_clashing :
    (({ trace := true } : Settings).reduce clashing).term =
        .abs "y1" (.app (.var "y") (.var "y1")) ∧
      (({ trace := true } : Settings).reduce spread).term =
        .abs "w" (.app (.var "y") (.var "w")) ∧
      (({ trace := true } : Settings).reduce clashing).Alike
        (({ trace := true } : Settings).reduce spread) ∧
      Option.Rel Contraction.Alike (clashing.contract .applicative .new)
        (spread.contract .applicative ⟨7⟩) := by
  have halike : clashing.alphaEquiv spread = true := by decide
  obtain ⟨hreduce, hcontract⟩ := alphaEquiv_reduce halike
  exact ⟨by cbv, by cbv, hreduce _, hcontract _ _ _⟩

end NamedLambda
