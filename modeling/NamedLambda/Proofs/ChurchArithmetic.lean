import NamedLambda.Proofs.Confluence
import NamedLambda.Proofs.StrongNormalization
import NamedLambda.Vocabulary

/-!
# Arithmetic on Church numerals

The numeral of `n` applied to a function and an argument comes to `n` applications
(`Nameless.steps_church`), and the arithmetic of the vocabulary is put together from
that. The predecessor applies its argument to a step that passes one application on,
late by one (`Nameless.steps_late`). All of it has simple types, so every run ends,
and with the numeral, since there is one normal form only (`Term.church_arithmetic`).
-/

namespace NamedLambda

namespace Nameless

/-- The numeral of `n`: two binders, and `n` applications under them. -/
def church (n : Nat) : Nameless := lam (lam ((app (bound 1))^[n] (bound 0)))

theorem bindBound_iterate (f x : Nameless) (n : Nat) (σ : Nat → Nameless) :
    ((app f)^[n] x).bindBound σ = (app (f.bindBound σ))^[n] (x.bindBound σ) := by
  induction n with
  | zero => rfl
  | succ n ih => simp only [Function.iterate_succ_apply', bindBound, ih]

@[simp] theorem bindBound_church (n : Nat) (σ : Nat → Nameless) :
    (church n).bindBound σ = church n := by
  simp only [church, bindBound, bindBound_iterate]
  rfl

@[simp] theorem shift_church (n : Nat) : (church n).shift = church n := by
  rw [shift, mapBound_eq_bindBound, bindBound_church]

theorem isNormal_church (n : Nat) : (church n).IsNormal := by
  refine isNormal_lam.2 (isNormal_lam.2 ?_)
  induction n with
  | zero =>
    intro u hu
    cases hu
  | succ n ih =>
    rw [Function.iterate_succ_apply', isNormal_app]
    refine ⟨fun body h => ?_, fun u hu => ?_, ih⟩
    · cases h
    · cases hu

def bindTwo (a b : Nameless) : Nat → Nameless
  | 0 => b
  | 1 => a
  | i + 2 => bound i

theorem steps_two (body a b : Nameless) :
    Steps (app (app (lam (lam body)) a) b) (body.bindBound (bindTwo a b)) := by
  have hbody : (body.bindBound (liftBind (bindFirst a))).instantiate b =
      body.bindBound (bindTwo a b) := by
    rw [instantiate, bindBound_bindBound]
    congr 1
    funext i
    rcases i with _ | _ | i
    · rfl
    · exact bindBound_shift_bindFirst a b
    · rfl
  rw [← hbody]
  exact .head (.func b (.beta (lam body) a)) (.single (.beta _ b))

theorem steps_church (n : Nat) (f x : Nameless) :
    Steps (app (app (church n) f) x) ((app f)^[n] x) := by
  have h := steps_two ((app (bound 1))^[n] (bound 0)) f x
  rwa [bindBound_iterate] at h

theorem steps_iterate {f : Nameless} {g : Nameless → Nameless}
    (h : ∀ x, Steps (app f x) (g x)) (n : Nat) (x : Nameless) :
    Steps ((app f)^[n] x) (g^[n] x) := by
  induction n with
  | zero => exact .refl
  | succ n ih =>
    rw [Function.iterate_succ_apply', Function.iterate_succ_apply']
    exact (Steps.app .refl ih).trans (h _)

@[simp] theorem shift_bound (i : Nat) : (bound i).shift = bound (i + 1) := rfl

theorem steps_succ (n : Nat) :
    Steps (app Vocabulary.succ.nameless (church n)) (church (n + 1)) := by
  let body := lam (lam (app (bound 1) (app (app (bound 2) (bound 1)) (bound 0))))
  have hsucc : Vocabulary.succ.nameless = lam body := by decide
  calc app Vocabulary.succ.nameless (church n)
    Steps _ (body.instantiate (church n)) := by
      rw [hsucc]
      exact .single (.beta body _)
    _ = lam (lam (app (bound 1) (app (app (church n) (bound 1)) (bound 0)))) := by
      simp [body, instantiate, bindBound, liftBind, bindFirst]
    Steps _ (lam (lam (app (bound 1) ((app (bound 1))^[n] (bound 0))))) :=
      (Steps.app .refl (steps_church n _ _)).lam.lam
    _ = church (n + 1) := by rw [church, Function.iterate_succ_apply']

theorem steps_plus (m n : Nat) :
    Steps (app (app Vocabulary.plus.nameless (church m)) (church n)) (church (m + n)) := by
  let body := lam (lam (app (app (bound 3) (bound 1)) (app (app (bound 2) (bound 1)) (bound 0))))
  have hplus : Vocabulary.plus.nameless = lam (lam body) := by decide
  calc app (app Vocabulary.plus.nameless (church m)) (church n)
    Steps _ (body.bindBound (bindTwo (church m) (church n))) := by
      rw [hplus]
      exact steps_two body _ _
    _ = lam (lam (app (app (church m) (bound 1)) (app (app (church n) (bound 1)) (bound 0)))) := by
      simp [body, bindBound, liftBind, bindTwo]
    Steps _ (lam (lam (app (app (church m) (bound 1)) ((app (bound 1))^[n] (bound 0))))) :=
      (Steps.app .refl (steps_church n _ _)).lam.lam
    Steps _ (lam (lam ((app (bound 1))^[m] ((app (bound 1))^[n] (bound 0))))) :=
      (steps_church m _ _).lam.lam
    _ = church (m + n) := by rw [church, Function.iterate_add_apply]

theorem step_church (n : Nat) (f : Nameless) :
    Step (app (church n) f) (lam ((app f.shift)^[n] (bound 0))) := by
  have h : (lam ((app (bound 1))^[n] (bound 0))).instantiate f =
      lam ((app f.shift)^[n] (bound 0)) := by
    simp only [instantiate, bindBound, bindBound_iterate, liftBind, bindFirst]
  rw [← h]
  exact .beta _ f

theorem steps_mult (m n : Nat) :
    Steps (app (app Vocabulary.mult.nameless (church m)) (church n)) (church (m * n)) := by
  let body := lam (app (bound 2) (app (bound 1) (bound 0)))
  have hmult : Vocabulary.mult.nameless = lam (lam body) := by decide
  have hshift : (app (church n) (bound 0)).shift = app (church n) (bound 1) :=
    congrArg (app · (bound 1)) (shift_church n)
  calc app (app Vocabulary.mult.nameless (church m)) (church n)
    Steps _ (body.bindBound (bindTwo (church m) (church n))) := by
      rw [hmult]
      exact steps_two body _ _
    _ = lam (app (church m) (app (church n) (bound 0))) := by
      simp [body, bindBound, liftBind, bindTwo]
    Steps _ (lam (lam ((app (app (church n) (bound 1)))^[m] (bound 0)))) := by
      rw [← hshift]
      exact .single (.lam (step_church m _))
    Steps _ (lam (lam (((app (bound 1))^[n])^[m] (bound 0)))) :=
      (steps_iterate (steps_church n _) m _).lam.lam
    _ = church (m * n) := by rw [church, ← Function.iterate_mul, Nat.mul_comm]

/-- The function that the predecessor iterates. Under the binders of the result, whose
indices are 1 and 0, it hands its second argument what the first one makes of `bound 1`. -/
def late : Nameless := lam (lam (app (bound 0) (app (bound 1) (bound 3))))

theorem steps_late (n : Nat) (h : Nameless) :
    Steps (app ((app late)^[n + 1] (lam (bound 1))) h) (app h ((app (bound 1))^[n] (bound 0))) := by
  have hlate (a h : Nameless) : Steps (app (app late a) h) (app h (app a (bound 1))) :=
    steps_two (app (bound 0) (app (bound 1) (bound 3))) a h
  induction n generalizing h with
  | zero => exact (hlate (lam (bound 1)) h).trans (.single (.arg h (.beta (bound 1) _)))
  | succ n ih =>
    rw [Function.iterate_succ_apply', Function.iterate_succ_apply' (app (bound 1))]
    exact (hlate _ h).trans (Steps.app .refl (ih (bound 1)))

theorem steps_pred (n : Nat) :
    Steps (app Vocabulary.pred.nameless (church n)) (church (n - 1)) := by
  let body := lam (lam (app (app (app (bound 2) late) (lam (bound 1))) (lam (bound 0))))
  have hpred : Vocabulary.pred.nameless = lam body := by decide
  have hlast : Steps (app ((app late)^[n] (lam (bound 1))) (lam (bound 0)))
      ((app (bound 1))^[n - 1] (bound 0)) := by
    cases n with
    | zero => exact .single (.beta (bound 1) _)
    | succ n => exact (steps_late n _).tail (.beta (bound 0) _)
  calc app Vocabulary.pred.nameless (church n)
    Steps _ (body.instantiate (church n)) := by
      rw [hpred]
      exact .single (.beta body _)
    _ = lam (lam (app (app (app (church n) late) (lam (bound 1))) (lam (bound 0)))) := by
      simp [body, late, instantiate, bindBound, liftBind, bindFirst]
    Steps _ (lam (lam (app ((app late)^[n] (lam (bound 1))) (lam (bound 0))))) :=
      (Steps.app (steps_church n _ _) .refl).lam.lam
    Steps _ (church (n - 1)) := hlast.lam.lam

end Nameless

def Ty.numeral (a : Ty) : Ty := .arrow (.arrow a a) (.arrow a a)

namespace HasType

theorem var_mono {Γ : Context} {x : Name} {ty : Ty} (h : Γ.get? x = some (.mono ty)) :
    HasType Γ (.var x) ty := .var h (Scheme.isInstance_mono.2 rfl)

theorem iterate {Γ : Context} {f x : Name} {a : Ty} (hf : Γ.get? f = some (.mono (.arrow a a)))
    (hx : Γ.get? x = some (.mono a)) (n : Nat) : HasType Γ (Term.iterate f x n) a := by
  induction n with
  | zero => exact var_mono hx
  | succ n ih => exact .app (var_mono hf) ih

theorem church (Γ : Context) (a : Ty) (n : Nat) : HasType Γ (Term.church n) a.numeral :=
  .abs (.abs (iterate (by simp) (by simp) n))

theorem succ (Γ : Context) (a : Ty) : HasType Γ Vocabulary.succ (.arrow a.numeral a.numeral) :=
  .abs (.abs (.abs (.app (var_mono (by simp))
    (.app (.app (@var_mono _ "n" a.numeral (by simp)) (var_mono (by simp)))
      (var_mono (by simp))))))

theorem plus (Γ : Context) (a : Ty) :
    HasType Γ Vocabulary.plus (.arrow a.numeral (.arrow a.numeral a.numeral)) :=
  .abs (.abs (.abs (.abs (.app
    (.app (@var_mono _ "m" a.numeral (by simp)) (var_mono (by simp)))
    (.app (.app (@var_mono _ "n" a.numeral (by simp)) (var_mono (by simp)))
      (var_mono (by simp)))))))

theorem mult (Γ : Context) (a : Ty) :
    HasType Γ Vocabulary.mult (.arrow a.numeral (.arrow a.numeral a.numeral)) :=
  .abs (.abs (.abs (.app (@var_mono _ "m" a.numeral (by simp))
    (.app (@var_mono _ "n" a.numeral (by simp)) (var_mono (by simp))))))

/-- The numeral that is given iterates at the type of a value that waits for a function. -/
theorem pred (Γ : Context) (a : Ty) :
    HasType Γ Vocabulary.pred (.arrow (Ty.arrow (.arrow a a) a).numeral a.numeral) := by
  refine .abs (.abs (.abs (.app (.app (.app
    (@var_mono _ "n" (Ty.arrow (.arrow a a) a).numeral (by simp)) ?late) ?first) ?last)))
  case late =>
    exact .abs (.abs (.app (@var_mono _ "h" (.arrow a a) (by simp))
      (.app (var_mono (by simp)) (@var_mono _ "f" (.arrow a a) (by simp)))))
  case first => exact .abs (var_mono (by simp))
  case last => exact .abs (var_mono (by simp))

end HasType

namespace Term

theorem namelessIn_iterate {scope : Scope} {f x : Name} {i j : Nat} (hf : scope.index? f = some i)
    (hx : scope.index? x = some j) (n : Nat) :
    (iterate f x n).namelessIn scope = (Nameless.app (.bound i))^[n] (.bound j) := by
  induction n with
  | zero => simp [iterate, namelessIn, hx]
  | succ n ih => simp [iterate, namelessIn, hf, ih, Function.iterate_succ_apply']

theorem nameless_app (func arg : Term) :
    (app func arg).nameless = .app func.nameless arg.nameless := rfl

theorem nameless_church (n : Nat) : (church n).nameless = Nameless.church n := by
  have hf : Scope.index? ["x", "f"] "f" = some 1 := by decide
  have hx : Scope.index? ["x", "f"] "x" = some 0 := by decide
  exact congrArg (fun body => Nameless.lam (.lam body)) (namelessIn_iterate hf hx n)

end Term

namespace Settings

def Computes (settings : Settings) (t result : Term) : Prop :=
  (settings.reduce t).terminated = true ∧ (settings.reduce t).term.alphaEquiv result = true

/-- Settings with the strategy have the property if they leave out eta reduction and
allow for enough steps. -/
def Eventually (strategy : Strategy) (P : Settings → Prop) : Prop :=
  ∃ bound, ∀ settings : Settings, settings.strategy = strategy → settings.eta = false →
    bound ≤ settings.maxSteps → P settings

theorem Eventually.and {strategy : Strategy} {P Q : Settings → Prop}
    (hP : Eventually strategy P) (hQ : Eventually strategy Q) :
    Eventually strategy fun settings => P settings ∧ Q settings := by
  obtain ⟨m, hm⟩ := hP
  obtain ⟨n, hn⟩ := hQ
  refine ⟨max m n, fun settings hstrategy heta hle => ⟨?_, ?_⟩⟩
  · exact hm settings hstrategy heta (le_trans (Nat.le_max_left m n) hle)
  · exact hn settings hstrategy heta (le_trans (Nat.le_max_right m n) hle)

/-- A term with a type computes each normal form that contractions lead to. -/
theorem eventually_computes {Γ : Context} {t result : Term} {ty : Ty} (h : HasType Γ t ty)
    (hsteps : Nameless.Steps t.nameless result.nameless) (hnormal : result.nameless.IsNormal)
    (strategy : Strategy) : Eventually strategy (Computes · t result) := by
  have along {t : Term} {names : NameSupply} {c : Term.Contraction}
      (hc : t.contract strategy names = some c) : Nameless.Step t.nameless c.term.nameless :=
    (Term.betaStep_of_contract hc).nameless
  obtain ⟨made, last, rest, hmade, hlast⟩ :=
    Reduction.exists_contractions_of_acc along h.stronglyNormalizing .new
  refine ⟨made.length, ?_⟩
  rintro settings rfl heta hle
  have hrun := Reduction.run_eq_of_contractions hmade hlast settings.trace 0 [] hle
  have halike : last.alphaEquiv result = true :=
    Term.alphaEquiv_iff.2 (hlast.nameless.unique hnormal hmade.betaReaches.nameless hsteps)
  simp [Computes, Settings.reduce, hrun, heta, halike]

end Settings

namespace Term

/-- The arithmetic of the vocabulary is that of the natural numbers, for all numerals. -/
theorem church_arithmetic (m n : Nat) (strategy : Strategy) :
    Settings.Eventually strategy fun settings =>
      settings.Computes (app Vocabulary.succ (church n)) (church (n + 1)) ∧
      settings.Computes (app (app Vocabulary.plus (church m)) (church n)) (church (m + n)) ∧
      settings.Computes (app (app Vocabulary.mult (church m)) (church n)) (church (m * n)) ∧
      settings.Computes (app Vocabulary.pred (church n)) (church (n - 1)) := by
  have computes {t : Term} {ty : Ty} {k : Nat} (h : HasType ∅ t ty)
      (hsteps : Nameless.Steps t.nameless (.church k)) :
      Settings.Eventually strategy (Settings.Computes · t (church k)) := by
    rw [← nameless_church] at hsteps
    exact Settings.eventually_computes h hsteps
      (nameless_church k ▸ Nameless.isNormal_church k) strategy
  have numeral (a : Ty) (k : Nat) := HasType.church ∅ a k
  let a : Ty := .var 0
  refine (computes (.app (.succ ∅ a) (numeral a n)) ?succ).and
    ((computes (.app (.app (.plus ∅ a) (numeral a m)) (numeral a n)) ?plus).and
      ((computes (.app (.app (.mult ∅ a) (numeral a m)) (numeral a n)) ?mult).and
        (computes (.app (.pred ∅ a) (numeral _ n)) ?pred)))
  case succ =>
    rw [nameless_app, nameless_church]
    exact Nameless.steps_succ n
  case plus =>
    rw [nameless_app, nameless_app, nameless_church, nameless_church]
    exact Nameless.steps_plus m n
  case mult =>
    rw [nameless_app, nameless_app, nameless_church, nameless_church]
    exact Nameless.steps_mult m n
  case pred =>
    rw [nameless_app, nameless_church]
    exact Nameless.steps_pred n

end Term

end NamedLambda
