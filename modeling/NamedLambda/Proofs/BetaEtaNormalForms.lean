import NamedLambda.Proofs.Confluence
import NamedLambda.Proofs.EtaConversion

/-!
# Normal forms for beta and eta

A reduction contracts eta redexes only at its end, and still finds the same normal
form wherever the term was eta-reduced or eta-expanded before
(`Settings.alphaEquiv_reduce_of_etaEquiv`). In the nameless form a beta and an eta
contraction of one term can be brought together again by eta contractions on the one
side and at most one beta contraction on the other (`Nameless.EtaStep.commute`).
So sequences of the two kinds commute, and what eta contractions make of a beta normal
form is one (`Nameless.IsNormal.etaSteps`). Back at named terms, an eta contraction of
the nameless form is one of the term (`Term.exists_etaStep_of_nameless`).
-/

namespace NamedLambda

namespace Nameless

theorem occursBound_mapBound {t : Nameless} {f : Nat → Nat} {i : Nat} :
    (t.mapBound f).occursBound i = true ↔ ∃ j, t.occursBound j = true ∧ f j = i := by
  induction t generalizing f i with
  | bound j => simp [mapBound, occursBound, eq_comm]
  | free x => simp [mapBound, occursBound]
  | lam body ih =>
    simp only [mapBound, occursBound, ih]
    constructor
    · rintro ⟨j, hj, hji⟩
      cases j with
      | zero => cases hji
      | succ j => exact ⟨j, hj, Nat.succ.inj hji⟩
    · rintro ⟨j, hj, rfl⟩
      exact ⟨j + 1, hj, rfl⟩
  | app func arg ihf iha =>
    simp only [mapBound, occursBound, Bool.or_eq_true, ihf, iha, or_and_right, exists_or]

@[simp] theorem occursBound_shift_zero (t : Nameless) : t.shift.occursBound 0 = false := by
  rw [Bool.eq_false_iff, shift, Ne, occursBound_mapBound]
  simp

@[simp] theorem occursBound_shift_succ (t : Nameless) (i : Nat) :
    t.shift.occursBound (i + 1) = t.occursBound i := by
  rw [Bool.eq_iff_iff, shift, occursBound_mapBound]
  simp

theorem occursBound_bindBound {t : Nameless} {σ : Nat → Nameless} {i : Nat} :
    (t.bindBound σ).occursBound i = true ↔
      ∃ j, t.occursBound j = true ∧ (σ j).occursBound i = true := by
  induction t generalizing σ i with
  | bound j => simp [bindBound, occursBound]
  | free x => simp [bindBound, occursBound]
  | lam body ih =>
    simp only [bindBound, occursBound, ih]
    constructor
    · rintro ⟨j, hj, hji⟩
      cases j with
      | zero => simp [liftBind, occursBound] at hji
      | succ j => exact ⟨j, hj, by simpa [liftBind] using hji⟩
    · rintro ⟨j, hj, hji⟩
      exact ⟨j + 1, hj, by simpa [liftBind] using hji⟩
  | app func arg ihf iha =>
    simp only [bindBound, occursBound, Bool.or_eq_true, ihf, iha, or_and_right, exists_or]

theorem mapBound_eq_self {t : Nameless} {f : Nat → Nat}
    (h : ∀ i, t.occursBound i = true → f i = i) : t.mapBound f = t := by
  induction t generalizing f with
  | bound i => exact congrArg bound (h i (by simp [occursBound]))
  | free x => rfl
  | lam body ih =>
    refine congrArg lam (ih fun i hi => ?_)
    cases i with
    | zero => rfl
    | succ i => exact congrArg (· + 1) (h i hi)
  | app func arg ihf iha =>
    have hf := ihf fun i hi => h i (by simp [occursBound, hi])
    have ha := iha fun i hi => h i (by simp [occursBound, hi])
    simp only [mapBound, hf, ha]

theorem exists_eq_shift {t : Nameless} (h : t.occursBound 0 = false) :
    ∃ u : Nameless, t = u.shift := by
  refine ⟨t.mapBound Nat.pred, ?_⟩
  rw [shift, mapBound_mapBound]
  refine (mapBound_eq_self fun i hi => ?_).symm
  cases i with
  | zero => simp [h] at hi
  | succ i => rfl

theorem shift_bindBound (t : Nameless) (σ : Nat → Nameless) :
    t.shift.bindBound (liftBind σ) = (t.bindBound σ).shift := by
  rw [shift, shift, bindBound_mapBound, mapBound_bindBound]
  rfl

theorem Step.app_cases {f a u : Nameless} (h : Step (app f a) u) :
    (∃ body, f = .lam body ∧ u = Nameless.instantiate body a) ∨
      (∃ g, Step f g ∧ u = app g a) ∨ ∃ b, Step a b ∧ u = app f b := by
  cases h with
  | beta body => exact .inl ⟨body, rfl, rfl⟩
  | func _ h => exact .inr (.inl ⟨_, h, rfl⟩)
  | arg _ h => exact .inr (.inr ⟨_, h, rfl⟩)

theorem Step.occursBound {t u : Nameless} (h : Step t u) {i : Nat}
    (hi : u.occursBound i = true) : t.occursBound i = true := by
  induction h generalizing i with
  | beta body arg =>
    obtain ⟨j, hj, hji⟩ := occursBound_bindBound.1 hi
    cases j with
    | zero => simp [Nameless.occursBound, show arg.occursBound i = true from hji]
    | succ j =>
      obtain rfl : i = j := of_decide_eq_true hji
      simp [Nameless.occursBound, hj]
  | lam _ ih => exact ih hi
  | func _ _ ih =>
    simp only [Nameless.occursBound, Bool.or_eq_true] at hi ⊢
    exact hi.imp_left ih
  | arg _ _ ih =>
    simp only [Nameless.occursBound, Bool.or_eq_true] at hi ⊢
    exact hi.imp_right ih

theorem Step.shift {t u : Nameless} (h : Step t u) : Step t.shift u.shift := by
  simpa only [Nameless.shift, mapBound_eq_bindBound] using h.bindBound (bound ∘ (· + 1))

theorem Step.exists_of_shift {t u : Nameless} (h : Step t.shift u) :
    ∃ v, u = v.shift ∧ Step t v := by
  have hu : u.occursBound 0 = false := by
    rw [Bool.eq_false_iff]
    intro hu
    simpa using h.occursBound hu
  obtain ⟨v, rfl⟩ := exists_eq_shift hu
  refine ⟨v, rfl, ?_⟩
  simpa using h.bindBound (bindFirst (free ""))

/-- One eta contraction anywhere in a term. -/
inductive EtaStep : Nameless → Nameless → Prop
  | eta (func : Nameless) : EtaStep (lam (app func.shift (bound 0))) func
  | lam {t u : Nameless} : EtaStep t u → EtaStep (lam t) (lam u)
  | func {t u : Nameless} (arg : Nameless) : EtaStep t u → EtaStep (app t arg) (app u arg)
  | arg {t u : Nameless} (func : Nameless) : EtaStep t u → EtaStep (app func t) (app func u)

abbrev EtaSteps : Nameless → Nameless → Prop := Relation.ReflTransGen EtaStep

theorem EtaStep.bindBound {t u : Nameless} (h : EtaStep t u) (σ : Nat → Nameless) :
    EtaStep (t.bindBound σ) (u.bindBound σ) := by
  induction h generalizing σ with
  | eta func =>
    simp only [Nameless.bindBound, shift_bindBound]
    exact .eta _
  | lam _ ih => exact .lam (ih _)
  | func arg _ ih => exact .func _ (ih σ)
  | arg func _ ih => exact .arg _ (ih σ)

namespace EtaSteps

theorem lam {t u : Nameless} (h : EtaSteps t u) : EtaSteps (lam t) (lam u) :=
  Relation.ReflTransGen.lift Nameless.lam (fun _ _ => EtaStep.lam) _ _ h

theorem app {f g a b : Nameless} (hf : EtaSteps f g) (ha : EtaSteps a b) :
    EtaSteps (app f a) (app g b) :=
  (Relation.ReflTransGen.lift (Nameless.app · a) (fun _ _ => EtaStep.func a) _ _ hf).trans
    (Relation.ReflTransGen.lift (Nameless.app g) (fun _ _ => EtaStep.arg g) _ _ ha)

theorem mapBound {t u : Nameless} (f : Nat → Nat) (h : EtaSteps t u) :
    EtaSteps (t.mapBound f) (u.mapBound f) := by
  simp only [mapBound_eq_bindBound]
  exact Relation.ReflTransGen.lift (Nameless.bindBound (bound ∘ f))
    (fun _ _ h => h.bindBound (bound ∘ f)) _ _ h

/-- Contractions of what is put in are made once for every place it is put. -/
theorem bindBound (t : Nameless) {σ τ : Nat → Nameless} (h : ∀ i, EtaSteps (σ i) (τ i)) :
    EtaSteps (t.bindBound σ) (t.bindBound τ) := by
  induction t generalizing σ τ with
  | bound i => exact h i
  | free x => exact .refl
  | lam body ih => exact (ih (liftBind_rel (fun _ => .refl) mapBound h)).lam
  | app func arg ihf iha => exact (ihf h).app (iha h)

theorem instantiate (t : Nameless) {a b : Nameless} (h : EtaSteps a b) :
    EtaSteps (t.instantiate a) (t.instantiate b) :=
  bindBound t (bindFirst_rel (fun _ => .refl) h)

end EtaSteps

abbrev Step? : Nameless → Nameless → Prop := Relation.ReflGen Step

theorem Step?.congr {f : Nameless → Nameless} (hf : ∀ {t u}, Step t u → Step (f t) (f u))
    {t u : Nameless} (h : Step? t u) : Step? (f t) (f u) := by
  cases h with
  | refl => exact .refl
  | single h => exact .single (hf h)

/-- An eta contraction may be in the way of a beta contraction, but never makes two
of it, while a beta contraction may copy an eta redex. -/
theorem EtaStep.commute {t u v : Nameless} (hu : Step t u) (hv : EtaStep t v) :
    ∃ w, EtaSteps u w ∧ Step? v w := by
  induction hv generalizing u with
  | eta func =>
    cases hu with
    | lam hu =>
      rcases hu.app_cases with ⟨body, hfunc, rfl⟩ | ⟨g, hg, rfl⟩ | ⟨b, hb, -⟩
      · -- the two redexes overlap, and both contractions leave the function
        cases func with
        | lam body' =>
          obtain rfl := Nameless.lam.inj hfunc
          have whole : bindFirst (bound 0) ∘ liftMap (· + 1) = bound := by
            funext i
            cases i <;> rfl
          rw [instantiate, bindBound_mapBound, whole, bindBound_bound]
          exact ⟨.lam body', .refl, .refl⟩
        | _ => cases hfunc
      · obtain ⟨g', rfl, hg'⟩ := hg.exists_of_shift
        exact ⟨g', .single (.eta g'), .single hg'⟩
      · cases hb
  | lam _ ih =>
    cases hu with
    | lam hu =>
      obtain ⟨w, hw, hvw⟩ := ih hu
      exact ⟨.lam w, hw.lam, hvw.congr .lam⟩
  | @func f g a hv ih =>
    rcases hu.app_cases with ⟨body, rfl, rfl⟩ | ⟨f', hf', rfl⟩ | ⟨b, hb, rfl⟩
    · cases hv with
      | eta =>
        rw [instantiate, Nameless.bindBound, bindBound_shift_bindFirst]
        exact ⟨.app g a, .refl, .refl⟩
      | @lam _ body' hbody =>
        exact ⟨body'.instantiate a, .single (hbody.bindBound _), .single (.beta body' a)⟩
    · obtain ⟨w, hw, hvw⟩ := ih hf'
      exact ⟨.app w a, hw.app .refl, hvw.congr (.func a)⟩
    · exact ⟨.app g b, .single (.func b hv), .single (.arg g hb)⟩
  | @arg a b f hv ih =>
    rcases hu.app_cases with ⟨body, rfl, rfl⟩ | ⟨f', hf', rfl⟩ | ⟨a', ha', rfl⟩
    · exact ⟨body.instantiate b, .instantiate body (.single hv), .single (.beta body b)⟩
    · exact ⟨.app f' b, .single (.arg f' hv), .single (.func b hf')⟩
    · obtain ⟨w, hw, hvw⟩ := ih ha'
      exact ⟨.app f w, .app .refl hw, hvw.congr (.arg f)⟩

/-- Contractions of the two kinds may change places. -/
theorem Steps.commute {t u v : Nameless} (hu : Steps t u) (hv : EtaSteps t v) :
    ∃ w, EtaSteps u w ∧ Steps v w := by
  have single {t u v : Nameless} (hu : Step t u) (hv : EtaSteps t v) :
      ∃ w, EtaSteps u w ∧ Step? v w := by
    induction hv with
    | refl => exact ⟨u, .refl, .single hu⟩
    | tail _ hstep ih =>
      obtain ⟨w, huw, hvw⟩ := ih
      cases hvw with
      | refl => exact ⟨_, huw.tail hstep, .refl⟩
      | single hvw =>
        obtain ⟨w', hww', hvw'⟩ := hstep.commute hvw
        exact ⟨w', huw.trans hww', hvw'⟩
  induction hu with
  | refl => exact ⟨v, hv, .refl⟩
  | tail _ hstep ih =>
    obtain ⟨w, huw, hvw⟩ := ih
    obtain ⟨w', huw', hww'⟩ := single hstep huw
    exact ⟨w', huw', hvw.trans hww'.to_reflTransGen⟩

theorem EtaStep.eq_lam {t body : Nameless} (h : EtaStep t (.lam body)) :
    ∃ body', t = .lam body' := by
  cases h with
  | eta => exact ⟨_, rfl⟩
  | lam => exact ⟨_, rfl⟩

/-- Eta contractions make no redex for beta. -/
theorem IsNormal.etaStep {t u : Nameless} (ht : t.IsNormal) (h : EtaStep t u) : u.IsNormal := by
  induction h with
  | eta func =>
    intro u hu
    exact ht _ (.lam (.func _ hu.shift))
  | lam _ ih => exact isNormal_lam.2 (ih (isNormal_lam.1 ht))
  | func arg hstep ih =>
    obtain ⟨hlam, hf, ha⟩ := isNormal_app.1 ht
    refine isNormal_app.2 ⟨?_, ih hf, ha⟩
    rintro body rfl
    obtain ⟨body', rfl⟩ := hstep.eq_lam
    exact hlam body' rfl
  | arg func _ ih =>
    obtain ⟨hlam, hf, ha⟩ := isNormal_app.1 ht
    exact isNormal_app.2 ⟨hlam, hf, ih ha⟩

theorem IsNormal.etaSteps {t u : Nameless} (ht : t.IsNormal) (h : EtaSteps t u) :
    u.IsNormal := by
  induction h with
  | refl => exact ht
  | tail _ hstep ih => exact ih.etaStep hstep

/-- Terms that eta contractions lead to a common one have beta normal forms for which
that is true again. -/
theorem IsNormal.join_of_etaSteps {s t m n e : Nameless} (hm : m.IsNormal) (hn : n.IsNormal)
    (hsm : Steps s m) (htn : Steps t n) (hs : EtaSteps s e) (ht : EtaSteps t e) :
    Relation.Join EtaSteps m n := by
  obtain ⟨v, hmv, hev⟩ := hsm.commute hs
  obtain ⟨w, hnw, hew⟩ := htn.commute ht
  obtain rfl : v = w := (hm.etaSteps hmv).unique (hn.etaSteps hnw) hev hew
  exact ⟨v, hmv, hnw⟩

end Nameless

namespace Term

abbrev EtaSteps : Term → Term → Prop := Relation.ReflTransGen EtaStep

theorem EtaSteps.abs (p : Name) {t u : Term} (h : EtaSteps t u) : EtaSteps (abs p t) (abs p u) :=
  Relation.ReflTransGen.lift (Term.abs p) (fun _ _ => EtaStep.body p) _ _ h

theorem EtaSteps.app {f g a b : Term} (hf : EtaSteps f g) (ha : EtaSteps a b) :
    EtaSteps (app f a) (app g b) :=
  (Relation.ReflTransGen.lift (Term.app · a) (fun _ _ => EtaStep.func a) _ _ hf).trans
    (Relation.ReflTransGen.lift (Term.app g) (fun _ _ => EtaStep.arg g) _ _ ha)

theorem etaSteps_etaReduce (t : Term) : EtaSteps t t.etaReduce := by
  induction t with
  | var x => exact .refl
  | abs p body ih =>
    rw [etaReduce]
    cases hstep : (abs p body.etaReduce).etaStep? with
    | none => exact ih.abs p
    | some u => exact (ih.abs p).tail (.here hstep)
  | app func arg ihf iha => exact ihf.app iha

theorem namelessIn_var_self (p : Name) (scope : Scope) :
    (var p).namelessIn (p :: scope) = .bound 0 := by
  rw [namelessIn, Scope.index?_cons_zero.2 rfl]

theorem eq_var_of_namelessIn {t : Term} {p : Name} {scope : Scope}
    (h : t.namelessIn (p :: scope) = .bound 0) : t = var p := by
  cases t with
  | var x =>
    rw [namelessIn] at h
    cases hx : Scope.index? (p :: scope) x with
    | none => simp [hx] at h
    | some i =>
      obtain rfl : i = 0 := by simpa [hx] using h
      exact congrArg var (Scope.index?_cons_zero.1 hx)
  | abs => cases h
  | app => cases h

theorem eq_app_of_namelessIn {t : Term} {scope : Scope} {f a : Nameless}
    (h : t.namelessIn scope = .app f a) :
    ∃ func arg, t = app func arg ∧ func.namelessIn scope = f ∧ arg.namelessIn scope = a := by
  cases t with
  | var x =>
    rw [namelessIn] at h
    cases hx : scope.index? x <;> simp [hx] at h
  | abs => cases h
  | app func arg =>
    obtain ⟨hf, ha⟩ := Nameless.app.inj h
    exact ⟨func, arg, rfl, hf, ha⟩

theorem EtaStep.namelessIn {t u : Term} (h : EtaStep t u) (scope : Scope) :
    Nameless.EtaStep (t.namelessIn scope) (u.namelessIn scope) := by
  induction h generalizing scope with
  | @here t u h =>
    obtain ⟨p, rfl, hfree⟩ := etaStep?_eq_some_iff.1 h
    rw [Term.namelessIn, Term.namelessIn, namelessIn_cons scope hfree, namelessIn_var_self]
    exact .eta _
  | body p _ ih => exact .lam (ih _)
  | func arg _ ih => exact .func _ (ih scope)
  | arg func _ ih => exact .arg _ (ih scope)

theorem exists_etaStep_of_nameless {t : Term} {scope : Scope} {n : Nameless}
    (h : Nameless.EtaStep (t.namelessIn scope) n) :
    ∃ u, EtaStep t u ∧ u.namelessIn scope = n := by
  induction t generalizing scope n with
  | var x =>
    rw [namelessIn] at h
    cases hx : scope.index? x <;> simp only [hx] at h <;> cases h
  | abs p body ih =>
    rw [namelessIn] at h
    generalize hbody : body.namelessIn (p :: scope) = b at h
    cases h with
    | eta n =>
      obtain ⟨func, arg, rfl, hfunc, harg⟩ := eq_app_of_namelessIn hbody
      obtain rfl := eq_var_of_namelessIn harg
      have hfree : func.occursFree p = false := by
        rw [← occursBound_zero p scope, hfunc, Nameless.occursBound_shift_zero]
      refine ⟨func, .here (etaStep?_eq_some_iff.2 ⟨p, rfl, hfree⟩), ?_⟩
      exact Nameless.shift_inj ((namelessIn_cons scope hfree).symm.trans hfunc)
    | lam h =>
      obtain ⟨u, hu, rfl⟩ := ih (hbody ▸ h)
      exact ⟨abs p u, .body p hu, rfl⟩
  | app func arg ihf iha =>
    rw [namelessIn] at h
    cases h with
    | func _ h =>
      obtain ⟨u, hu, rfl⟩ := ihf h
      exact ⟨app u arg, .func arg hu, rfl⟩
    | arg _ h =>
      obtain ⟨u, hu, rfl⟩ := iha h
      exact ⟨app func u, .arg func hu, rfl⟩

theorem EtaSteps.nameless {t u : Term} (h : EtaSteps t u) :
    Nameless.EtaSteps t.nameless u.nameless :=
  Relation.ReflTransGen.lift Term.nameless (fun _ _ h => h.namelessIn []) _ _ h

theorem exists_etaSteps_of_nameless {t : Term} {n : Nameless}
    (h : Nameless.EtaSteps t.nameless n) : ∃ u, EtaSteps t u ∧ u.nameless = n := by
  induction h with
  | refl => exact ⟨t, .refl, rfl⟩
  | tail _ hstep ih =>
    obtain ⟨u, hu, rfl⟩ := ih
    obtain ⟨v, huv, hv⟩ := exists_etaStep_of_nameless hstep
    exact ⟨v, hu.tail huv, hv⟩

theorem EtaStep.etaConv {t u : Term} (h : EtaStep t u) : EtaConv t u := by
  induction h with
  | here h => exact .of_etaStep? h
  | body p _ ih => exact .abs p ih
  | func arg _ ih => exact .app ih (.refl arg)
  | arg func _ ih => exact .app (.refl func) ih

theorem EtaSteps.etaConv {t u : Term} (h : EtaSteps t u) : EtaConv t u := by
  induction h with
  | refl => exact .refl t
  | tail _ hstep ih => exact ih.trans hstep.etaConv

theorem IsNormal.etaEquiv {s t m n : Term} (hm : m.IsNormal) (hn : n.IsNormal)
    (hsm : s.BetaReaches m) (htn : t.BetaReaches n) (h : s.etaEquiv t = true) :
    m.etaEquiv n = true := by
  have hs := (etaSteps_etaReduce s).nameless
  have ht := (etaSteps_etaReduce t).nameless
  rw [← alphaEquiv_iff.1 h] at ht
  obtain ⟨e, hme, hne⟩ :=
    hm.nameless.join_of_etaSteps hn.nameless hsm.nameless htn.nameless hs ht
  obtain ⟨u, hmu, hu⟩ := exists_etaSteps_of_nameless hme
  obtain ⟨v, hnv, hv⟩ := exists_etaSteps_of_nameless hne
  have huv : u.alphaEquiv v = true := alphaEquiv_iff.2 (hu.trans hv.symm)
  exact ((hmu.etaConv.trans (.alpha huv)).trans hnv.etaConv.symm).etaEquiv

end Term

namespace Settings

theorem exists_of_terminated {settings : Settings} (heta : settings.eta = true) {t : Term}
    (h : (settings.reduce t).terminated = true) :
    ∃ n : Term, t.BetaReaches n ∧ n.IsNormal ∧ (settings.reduce t).term = n.etaReduce := by
  obtain ⟨n, hn, hnormal, hterm⟩ := exists_isNormal_of_terminated h
  rw [if_pos heta] at hterm
  exact ⟨n, hn, hnormal, hterm⟩

/-- Terms that convert into each other by eta are reduced to one normal form, whatever
is contracted first and within whatever bound. So a term may be eta-reduced or
eta-expanded before its reduction. -/
theorem alphaEquiv_reduce_of_etaEquiv {settings settings' : Settings}
    (heta : settings.eta = true) (heta' : settings'.eta = true) :
    (∀ s t : Term, s.etaEquiv t = true → (settings.reduce s).terminated = true →
      (settings'.reduce t).terminated = true →
      (settings.reduce s).term.alphaEquiv (settings'.reduce t).term = true) ∧
    ∀ t u : Term, u = t.etaReduce ∨ (∃ names, u = (t.etaExpand names).1) →
      (settings.reduce t).terminated = true → (settings'.reduce u).terminated = true →
      (settings.reduce t).term.alphaEquiv (settings'.reduce u).term = true := by
  have shared (s t : Term) (h : s.etaEquiv t = true)
      (hs : (settings.reduce s).terminated = true) (ht : (settings'.reduce t).terminated = true) :
      (settings.reduce s).term.alphaEquiv (settings'.reduce t).term = true := by
    obtain ⟨m, hsm, hm, hms⟩ := exists_of_terminated heta hs
    obtain ⟨n, htn, hn, hnt⟩ := exists_of_terminated heta' ht
    rw [hms, hnt]
    exact hm.etaEquiv hn hsm htn h
  refine ⟨shared, ?_⟩
  rintro t u (rfl | ⟨names, rfl⟩)
  · exact shared t _ (Term.EtaConv.etaReduce t).etaEquiv
  · exact shared t _ (Term.EtaConv.of_etaStep? (Term.etaStep?_etaExpand t names)).symm.etaEquiv

end Settings

/-- The term `λw. (λx. (λy. y) x) w`. Eta reduction alone makes `λy. y` of it. -/
def Term.wrappedId : Term :=
  .abs "w" (.app (.abs "x" (.app (.abs "y" (.var "y")) (.var "x"))) (.var "w"))

/-- Two contractions lead from `λw. (λx. (λy. y) x) w` to `λw. w`, and none from its eta
normal form. -/
theorem Settings.alphaEquiv_reduce_of_etaEquiv_wrappedId :
    Term.wrappedId.etaEquiv (.abs "y" (.var "y")) = true ∧
      (({ eta := true } : Settings).reduce Term.wrappedId).steps = 2 ∧
      (({ eta := true } : Settings).reduce Term.wrappedId).term = .abs "w" (.var "w") ∧
      (({ eta := true, strategy := .applicative } : Settings).reduce
        (.abs "y" (.var "y"))).steps = 0 ∧
      (({ eta := true } : Settings).reduce Term.wrappedId).term.alphaEquiv
        (({ eta := true, strategy := .applicative } : Settings).reduce
          (.abs "y" (.var "y"))).term = true ∧
      (({ eta := true } : Settings).reduce Term.wrappedId).term.alphaEquiv
        (({ eta := true, strategy := .applicative } : Settings).reduce
          (Term.wrappedId.etaExpand .new).1).term = true := by
  obtain ⟨converted, expanded⟩ := @alphaEquiv_reduce_of_etaEquiv { eta := true }
    { eta := true, strategy := .applicative } rfl rfl
  have hterm : (({ eta := true } : Settings).reduce Term.wrappedId).terminated = true := by cbv
  refine ⟨by decide, by cbv, by cbv, by cbv, ?_, ?_⟩
  · exact converted _ _ (by decide) hterm (by cbv)
  · exact expanded _ _ (.inr ⟨.new, rfl⟩) hterm (by cbv)

end NamedLambda
