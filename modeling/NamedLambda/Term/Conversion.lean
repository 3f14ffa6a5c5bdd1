import NamedLambda.Normalization

/-!
# Reduction and conversion as relations

A beta step contracts one redex anywhere in a term, a normal form has none. A
strategy finds a redex in every term that is not normal
(`Strategy.findRedex_eq_none_iff`), and to contract what it finds is a beta step
(`Term.betaStep_of_contract`). What a contraction does to the term around the redex
is said once (`Term.replacedAt_contractAt`). Renaming of binders and eta contraction
are given as relations as well.
-/

namespace NamedLambda

namespace Term

/-- No subterm is a redex. -/
def IsNormal (t : Term) : Prop := ∀ path s, t.subterm? path = some s → s.isRedex = false

theorem isNormal_var (x : Name) : (var x).IsNormal := forall_subterm?_var.2 rfl

theorem isNormal_abs {p : Name} {body : Term} : (abs p body).IsNormal ↔ body.IsNormal := by
  unfold IsNormal
  rw [forall_subterm?_abs]
  simp [isRedex]

theorem isNormal_app {func arg : Term} :
    (app func arg).IsNormal ↔
      (app func arg).isRedex = false ∧ func.IsNormal ∧ arg.IsNormal :=
  forall_subterm?_app

def IsEtaNormal (t : Term) : Prop := ∀ path s, t.subterm? path = some s → s.etaStep? = none

theorem isEtaNormal_var (x : Name) : (var x).IsEtaNormal := forall_subterm?_var.2 rfl

theorem isEtaNormal_abs {p : Name} {body : Term} :
    (abs p body).IsEtaNormal ↔ (abs p body).etaStep? = none ∧ body.IsEtaNormal :=
  forall_subterm?_abs

theorem isEtaNormal_app {func arg : Term} :
    (app func arg).IsEtaNormal ↔ func.IsEtaNormal ∧ arg.IsEtaNormal := by
  unfold IsEtaNormal
  rw [forall_subterm?_app]
  simp [etaStep?]

/-- The second term has `new` where the first has `old`, at one position, and is the
same elsewhere. -/
inductive ReplacedAt (old new : Term) : Path → Term → Term → Prop
  | here : ReplacedAt old new [] old new
  | body {path : Path} {t u : Term} (p : Name) : ReplacedAt old new path t u →
      ReplacedAt old new (0 :: path) (abs p t) (abs p u)
  | func {path : Path} {t u : Term} (arg : Term) : ReplacedAt old new path t u →
      ReplacedAt old new (0 :: path) (app t arg) (app u arg)
  | arg {path : Path} {t u : Term} (func : Term) : ReplacedAt old new path t u →
      ReplacedAt old new (1 :: path) (app func t) (app func u)

theorem replacedAt_contractAt {t : Term} {path : Path} {p : Name} {body arg : Term}
    (names : NameSupply) (h : t.subterm? path = some (app (abs p body) arg)) :
    ReplacedAt (app (abs p body) arg) (body.substitute p arg names).1 path t
        (t.contractAt path names).1 ∧
      (t.contractAt path names).2 = (body.substitute p arg names).2 := by
  induction path generalizing t with
  | nil =>
    rw [subterm?_nil] at h
    obtain rfl := Option.some.inj h
    exact ⟨.here, rfl⟩
  | cons d path ih =>
    cases t with
    | var => simp [subterm?] at h
    | abs q t =>
      rcases d with _ | d
      · obtain ⟨hterm, hnames⟩ := ih h
        exact ⟨.body q hterm, hnames⟩
      · simp [subterm?] at h
    | app f a =>
      rcases d with _ | _ | d
      · obtain ⟨hterm, hnames⟩ := ih h
        rw [contractAt]
        exact ⟨.func a hterm, hnames⟩
      · obtain ⟨hterm, hnames⟩ := ih h
        rw [contractAt]
        exact ⟨.arg f hterm, hnames⟩
      · simp [subterm?] at h

/-- The redex at some position is contracted, with some supply of names. -/
inductive BetaStep (t : Term) : Term → Prop
  | contractAt {path : Path} {redex : Term} (names : NameSupply) :
      t.subterm? path = some redex → redex.isRedex = true →
        BetaStep t (t.contractAt path names).1

/-- Finitely many beta steps, or none. -/
inductive BetaReaches : Term → Term → Prop
  | refl (t : Term) : BetaReaches t t
  | head {s t u : Term} : BetaStep s t → BetaReaches t u → BetaReaches s u

/-- One binder, anywhere in a term, takes a name that is not free below it. -/
inductive RenameStep (names : NameSupply) : Term → Term → Prop
  | here {p q : Name} {body : Term} : body.occursFree q = false →
      RenameStep names (abs p body) (abs q (body.substitute p (var q) names).1)
  | body {t u : Term} (p : Name) : RenameStep names t u → RenameStep names (abs p t) (abs p u)
  | func {t u : Term} (arg : Term) : RenameStep names t u →
      RenameStep names (app t arg) (app u arg)
  | arg {t u : Term} (func : Term) : RenameStep names t u →
      RenameStep names (app func t) (app func u)

/-- One eta contraction, anywhere in a term. -/
inductive EtaStep : Term → Term → Prop
  | here {t u : Term} : t.etaStep? = some u → EtaStep t u
  | body {t u : Term} (p : Name) : EtaStep t u → EtaStep (abs p t) (abs p u)
  | func {t u : Term} (arg : Term) : EtaStep t u → EtaStep (app t arg) (app u arg)
  | arg {t u : Term} (func : Term) : EtaStep t u → EtaStep (app func t) (app func u)

/-- The least congruence that holds bound names and eta contractions alike. -/
inductive EtaConv : Term → Term → Prop
  | alpha {s t : Term} : s.alphaEquiv t = true → EtaConv s t
  | eta {p : Name} {func : Term} : func.occursFree p = false →
      EtaConv (abs p (app func (var p))) func
  | abs {s t : Term} (p : Name) : EtaConv s t → EtaConv (abs p s) (abs p t)
  | app {f g a b : Term} : EtaConv f g → EtaConv a b → EtaConv (app f a) (app g b)
  | symm {s t : Term} : EtaConv s t → EtaConv t s
  | trans {s t u : Term} : EtaConv s t → EtaConv t u → EtaConv s u

end Term

namespace Strategy

theorem outermost_eq_none_iff {t : Term} : outermost t = none ↔ t.IsNormal := by
  induction t with
  | var x => simp [outermost, Term.isNormal_var]
  | abs p body ih => simp [outermost, Term.isNormal_abs, ih]
  | app func arg ihf iha =>
    rw [outermost, Term.isNormal_app, ← ihf, ← iha]
    cases (Term.app func arg).isRedex <;> cases outermost func <;> simp

theorem innermost_eq_none_iff {t : Term} : innermost t = none ↔ t.IsNormal := by
  induction t with
  | var x => simp [innermost, Term.isNormal_var]
  | abs p body ih => simp [innermost, Term.isNormal_abs, ih]
  | app func arg ihf iha =>
    rw [innermost, Term.isNormal_app, ← ihf, ← iha]
    cases (Term.app func arg).isRedex <;> cases innermost func <;> cases innermost arg <;> simp

/-- A strategy finds nothing exactly where there is nothing to find. -/
theorem findRedex_eq_none_iff {strategy : Strategy} {t : Term} :
    strategy.findRedex t = none ↔ t.IsNormal := by
  cases strategy
  · exact outermost_eq_none_iff
  · exact innermost_eq_none_iff

theorem isRedex_of_outermost {t : Term} {path : Path} (h : outermost t = some path) :
    ∃ redex, t.subterm? path = some redex ∧ redex.isRedex = true := by
  induction t generalizing path with
  | var => simp [outermost] at h
  | abs p body ih =>
    obtain ⟨q, hq, rfl⟩ := Option.map_eq_some_iff.1 h
    exact ih hq
  | app func arg ihf iha =>
    rw [outermost] at h
    split at h
    · cases h
      exact ⟨_, Term.subterm?_nil _, ‹_›⟩
    · cases hf : outermost func with
      | some q =>
        rw [hf] at h
        cases h
        exact ihf hf
      | none =>
        rw [hf] at h
        obtain ⟨q, hq, rfl⟩ := Option.map_eq_some_iff.1 h
        exact iha hq

theorem isRedex_of_innermost {t : Term} {path : Path} (h : innermost t = some path) :
    ∃ redex, t.subterm? path = some redex ∧ redex.isRedex = true := by
  induction t generalizing path with
  | var => simp [innermost] at h
  | abs p body ih =>
    obtain ⟨q, hq, rfl⟩ := Option.map_eq_some_iff.1 h
    exact ih hq
  | app func arg ihf iha =>
    rw [innermost] at h
    cases hf : innermost func with
    | some q =>
      rw [hf] at h
      cases h
      exact ihf hf
    | none =>
      cases ha : innermost arg with
      | some q =>
        rw [hf, ha] at h
        cases h
        exact iha ha
      | none =>
        rw [hf, ha] at h
        by_cases hr : (Term.app func arg).isRedex = true
        · obtain rfl : [] = path := by simpa [hr] using h
          exact ⟨_, Term.subterm?_nil _, hr⟩
        · simp [hr] at h

theorem isRedex_of_findRedex {strategy : Strategy} {t : Term} {path : Path}
    (h : strategy.findRedex t = some path) :
    ∃ redex, t.subterm? path = some redex ∧ redex.isRedex = true := by
  cases strategy
  · exact isRedex_of_outermost h
  · exact isRedex_of_innermost h

end Strategy

theorem Term.contract_eq_none_iff {t : Term} {strategy : Strategy} {names : NameSupply} :
    t.contract strategy names = none ↔ t.IsNormal := by
  rw [← @Strategy.findRedex_eq_none_iff strategy, contract]
  cases strategy.findRedex t <;> simp

theorem Term.contract_eq_some_iff {t : Term} {strategy : Strategy} {names : NameSupply}
    {c : Contraction} :
    t.contract strategy names = some c ↔
      strategy.findRedex t = some c.path ∧ t.contractAt c.path names = (c.term, c.names) := by
  obtain ⟨term, path, rest⟩ := c
  rw [contract]
  cases strategy.findRedex t with
  | none => simp
  | some found =>
    simp only [Option.some.injEq, Contraction.mk.injEq, Prod.ext_iff]
    constructor
    · rintro ⟨hterm, rfl, hrest⟩
      exact ⟨rfl, hterm, hrest⟩
    · rintro ⟨rfl, hterm, hrest⟩
      exact ⟨hterm, rfl, hrest⟩

theorem Term.betaStep_of_contract {t : Term} {strategy : Strategy} {names : NameSupply}
    {c : Contraction} (h : t.contract strategy names = some c) : t.BetaStep c.term := by
  obtain ⟨hfound, hmade⟩ := contract_eq_some_iff.1 h
  obtain ⟨redex, hs, hr⟩ := Strategy.isRedex_of_findRedex hfound
  have hstep := BetaStep.contractAt names hs hr
  rwa [hmade] at hstep

end NamedLambda
