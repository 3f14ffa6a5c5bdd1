import NamedLambda.Proofs.AlphaRenaming

/-!
# Eta conversion

Two terms convert into each other exactly if they are equal up to bound names
after eta reduction (`Term.etaEquiv_iff_etaConv`). No detour over confluence is
needed for that: the two sides of a contraction reduce to one and the same term
(`Term.etaReduce_eq_of_etaStep?`), and what an abstraction or an application
reduces to depends on its parts only through what they reduce to.
-/

namespace NamedLambda.Term

theorem occursFree_of_etaStep? {t u : Term} (h : t.etaStep? = some u) (x : Name) :
    u.occursFree x = t.occursFree x := by
  obtain ⟨p, rfl, hfree⟩ := etaStep?_eq_some_iff.1 h
  by_cases hx : x = p
  · simp [occursFree, hx, hfree]
  · simp [occursFree, hx]

theorem occursFree_etaReduce (t : Term) (x : Name) :
    t.etaReduce.occursFree x = t.occursFree x := by
  induction t with
  | var y => rfl
  | abs p body ih =>
    rw [etaReduce]
    cases hstep : (abs p body.etaReduce).etaStep? with
    | none => simp [occursFree, ih]
    | some u => simp [occursFree_of_etaStep? hstep, occursFree, ih]
  | app func arg ihf iha => simp [etaReduce, occursFree, ihf, iha]

theorem etaReduce_eq_of_etaStep? {t u : Term} (h : t.etaStep? = some u) :
    t.etaReduce = u.etaReduce := by
  obtain ⟨p, rfl, hfree⟩ := etaStep?_eq_some_iff.1 h
  have hstep : (abs p (app u.etaReduce (var p))).etaStep? = some u.etaReduce :=
    etaStep?_eq_some_iff.2 ⟨p, rfl, (occursFree_etaReduce u p).trans hfree⟩
  simp [etaReduce, hstep]

theorem etaStep?_etaExpand (t : Term) (names : NameSupply) :
    (t.etaExpand names).1.etaStep? = some t := by
  have hfresh : t.occursFree (names.fresh "x" t.freeVars).1 = false := by
    simpa [mem_freeVars] using names.fresh_not_mem "x" t.freeVars
  exact etaStep?_eq_some_iff.2 ⟨_, rfl, hfresh⟩

namespace EtaConv

theorem refl (t : Term) : EtaConv t t := .alpha (equivalence_alphaEquiv.refl t)

theorem of_etaStep? {s t : Term} (h : s.etaStep? = some t) : EtaConv s t := by
  obtain ⟨p, rfl, hfree⟩ := etaStep?_eq_some_iff.1 h
  exact .eta hfree

theorem etaReduce (t : Term) : EtaConv t t.etaReduce := by
  induction t with
  | var x => exact refl (var x)
  | abs p body ih =>
    rw [Term.etaReduce]
    cases hstep : (Term.abs p body.etaReduce).etaStep? with
    | none => exact .abs p ih
    | some u => exact (EtaConv.abs p ih).trans (.of_etaStep? hstep)
  | app func arg ihf iha => exact .app ihf iha

theorem etaEquiv {s t : Term} (h : EtaConv s t) : s.etaEquiv t = true := by
  induction h with
  | alpha h => exact alphaRel_nil_iff.1 (alphaRel_nil_iff.2 h).etaReduce
  | eta hfree =>
    rw [Term.etaEquiv, etaReduce_eq_of_etaStep? (etaStep?_eq_some_iff.2 ⟨_, rfl, hfree⟩)]
    exact equivalence_alphaEquiv.refl _
  | abs p _ ih => exact alphaRel_nil_iff.1 (alphaRel_nil_iff.2 (alphaEquiv_abs p ih)).etaStep?_getD
  | app _ _ ihf iha => exact alphaEquiv_app ihf iha
  | symm _ ih => exact equivalence_alphaEquiv.symm ih
  | trans _ _ ih ih' => exact equivalence_alphaEquiv.trans ih ih'

end EtaConv

theorem etaConv_of_etaEquiv {s t : Term} (h : s.etaEquiv t = true) : EtaConv s t :=
  ((EtaConv.etaReduce s).trans (.alpha h)).trans (EtaConv.etaReduce t).symm

/-- To compare two terms after eta reduction decides whether they convert into
each other. So this comparison is a congruence, and neither eta reduction nor eta
expansion leads out of the terms that are equal by it. -/
theorem etaEquiv_iff_etaConv :
    (∀ s t : Term, s.etaEquiv t = true ↔ EtaConv s t) ∧
    (Equivalence fun s t : Term => s.etaEquiv t = true) ∧
    (∀ (p : Name) (s t : Term), s.etaEquiv t = true → (abs p s).etaEquiv (abs p t) = true) ∧
    (∀ f g a b : Term, f.etaEquiv g = true → a.etaEquiv b = true →
      (app f a).etaEquiv (app g b) = true) ∧
    ∀ t : Term, t.etaEquiv t.etaReduce = true ∧
      ∀ names, t.etaEquiv (t.etaExpand names).1 = true := by
  have hiff (s t : Term) : s.etaEquiv t = true ↔ EtaConv s t :=
    ⟨etaConv_of_etaEquiv, EtaConv.etaEquiv⟩
  refine ⟨hiff, ?_⟩
  simp only [hiff]
  refine ⟨⟨EtaConv.refl, EtaConv.symm, EtaConv.trans⟩, fun p _ _ => EtaConv.abs p,
    fun _ _ _ _ => EtaConv.app, fun t => ⟨EtaConv.etaReduce t, fun names => ?_⟩⟩
  exact (EtaConv.of_etaStep? (etaStep?_etaExpand t names)).symm

end NamedLambda.Term
