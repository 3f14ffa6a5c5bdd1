import NamedLambda.Proofs.AlphaReduction

/-!
# Equality up to bound names as renaming

A binder may take any name that is not free below it, and the nameless form
stays (`Term.RenameStep.namelessIn_eq`). The other way round, renamings lead from
a term to every term that is equal to it up to bound names
(`Term.renameSteps_of_alphaEquiv`). Two abstractions meet under a name that is in
neither of them, since a renaming to such a name captures nothing and can be
undone (`Term.Substitutes.substitute_back`).
-/

namespace NamedLambda.Term

def allNames : Term → List Name
  | var x => [x]
  | abs p body => p :: body.allNames
  | app func arg => func.allNames ++ arg.allNames

theorem occursFree_eq_false_of_not_mem_allNames {x : Name} {t : Term} (h : x ∉ t.allNames) :
    t.occursFree x = false := by
  induction t with
  | var y => simpa [allNames, occursFree] using h
  | abs p body ih =>
    simp only [allNames, List.mem_cons, not_or] at h
    simp [occursFree, ih h.2]
  | app func arg ihf iha =>
    simp only [allNames, List.mem_append, not_or] at h
    simp [occursFree, ihf h.1, iha h.2]

/-- A name put for another one gives way to it again, if the term had it nowhere. -/
theorem Substitutes.substitute_back {x z : Name} {t u : Term} (h : Substitutes x (var z) t u)
    (hz : z ∉ t.allNames) (names : NameSupply) : u.substitute z (var x) names = (t, names) := by
  generalize hr : var z = r at h
  induction h with
  | replaced x r => simp [← hr]
  | @other x y r hy =>
    have hne : y ≠ z := by
      rintro rfl
      simp [allNames] at hz
    simp [hne]
  | app _ _ ihf iha =>
    simp only [allNames, List.mem_append, not_or] at hz
    simp only [substitute_app, ihf hz.1 hr, iha hz.2 hr]
  | absent r _ =>
    exact substitute_of_not_occursFree (occursFree_eq_false_of_not_mem_allNames hz) _ names
  | @under x p r body body' hpx _ _ ih =>
    simp only [allNames, List.mem_cons, not_or] at hz
    rw [substitute_abs_of_not_occursFree (Ne.symm hz.1) (by simpa [occursFree] using hpx),
      ih hz.2 hr]
  | @renamed x p q r body body' body'' _ hp =>
    obtain rfl : p = z := by simpa [← hr, occursFree] using hp
    simp [allNames] at hz

theorem exists_not_mem_allNames (s t : Term) (x : Name) :
    ∃ z, z ∉ s.allNames ∧ z ∉ t.allNames ∧ z ≠ x := by
  have h := NameSupply.candidate_firstFree_not_mem x 0 (x :: (s.allNames ++ t.allNames))
  simp only [List.mem_cons, List.mem_append, not_or] at h
  exact ⟨_, h.2.1, h.2.2, h.1⟩

/-- A binder that moves to a name that is not free below it binds what it bound. -/
theorem namelessIn_abs_substitute (scope : Scope) {p q : Name} {body : Term}
    (h : body.occursFree q = false) (names : NameSupply) :
    (abs q (body.substitute p (var q) names).1).namelessIn scope =
      (abs p body).namelessIn scope := by
  have hq : (var q).interpret (scope.resolve.under q) = .bound 0 := by
    simp [interpret, Valuation.under, Valuation.set]
  calc (abs q (body.substitute p (var q) names).1).namelessIn scope
    _ = .lam ((body.substitute p (var q) names).1.interpret (scope.resolve.under q)) :=
      namelessIn_eq_interpret scope (.abs q _)
    _ = .lam (body.interpret ((scope.resolve.under q).set p (.bound 0))) := by
      rw [interpret_substitute, hq]
    _ = .lam (body.interpret (scope.resolve.under p)) := by rw [interpret_set_under _ p h]
    _ = (abs p body).namelessIn scope := (namelessIn_eq_interpret scope (.abs p body)).symm

theorem RenameStep.namelessIn_eq {names : NameSupply} {s t : Term} (h : RenameStep names s t)
    (scope : Scope) : s.namelessIn scope = t.namelessIn scope := by
  induction h generalizing scope with
  | here hq => exact (namelessIn_abs_substitute scope hq names).symm
  | body p _ ih => exact congrArg Nameless.lam (ih _)
  | func arg _ ih => exact congrArg (Nameless.app · (arg.namelessIn scope)) (ih scope)
  | arg func _ ih => exact congrArg (Nameless.app (func.namelessIn scope)) (ih scope)

theorem RenameStep.back {q z : Name} {t : Term} (hz : z ∉ t.allNames) (hne : z ≠ q)
    (names : NameSupply) : RenameStep names (abs z (t.substitute q (var z) names).1) (abs q t) := by
  have ht := substitutes_substitute t q (var z) names
  have hfree : (t.substitute q (var z) names).1.occursFree q = false := by
    rw [Bool.eq_false_iff, Ne, ht.occursFree_iff]
    simp [occursFree, Ne.symm hne]
  have hstep : RenameStep names (abs z (t.substitute q (var z) names).1)
      (abs q ((t.substitute q (var z) names).1.substitute z (var q) names).1) := .here hfree
  rwa [ht.substitute_back hz] at hstep

/-- Finitely many renamings of single binders, or none, all with one supply for
the fresh names that they need. -/
abbrev RenameSteps (names : NameSupply) : Term → Term → Prop :=
  Relation.ReflTransGen (RenameStep names)

/-- The same, each renaming with a supply of its own. -/
abbrev Renames : Term → Term → Prop :=
  Relation.ReflTransGen fun s t => ∃ names, RenameStep names s t

theorem RenameSteps.renames {names : NameSupply} {s t : Term} (h : RenameSteps names s t) :
    Renames s t :=
  Relation.ReflTransGen.mono (fun _ _ hstep => ⟨names, hstep⟩) _ _ h

theorem RenameSteps.abs {names : NameSupply} {s t : Term} (p : Name) (h : RenameSteps names s t) :
    RenameSteps names (abs p s) (abs p t) :=
  Relation.ReflTransGen.lift (Term.abs p) (fun _ _ => RenameStep.body p) _ _ h

theorem RenameSteps.app {names : NameSupply} {f g a b : Term} (hf : RenameSteps names f g)
    (ha : RenameSteps names a b) : RenameSteps names (app f a) (app g b) :=
  (Relation.ReflTransGen.lift (Term.app · a) (fun _ _ => RenameStep.func a) _ _ hf).trans
    (Relation.ReflTransGen.lift (Term.app g) (fun _ _ => RenameStep.arg g) _ _ ha)

theorem Renames.alphaEquiv {s t : Term} (h : Renames s t) : s.alphaEquiv t = true := by
  rw [alphaEquiv_iff]
  induction h with
  | refl => rfl
  | tail _ hstep ih =>
    obtain ⟨names, hstep⟩ := hstep
    exact ih.trans (hstep.namelessIn_eq [])

/-- Renamings lead from a term to all that are equal to it up to bound names. -/
theorem renameSteps_of_alphaEquiv (names : NameSupply) {s t : Term} (h : s.alphaEquiv t = true) :
    RenameSteps names s t := by
  induction s using size_induction generalizing t with
  | h s ih =>
    cases alphaRel_nil_iff.2 h with
    | var hxy =>
      obtain rfl := Nameless.free.inj hxy
      exact .refl
    | @app _ _ f g a b hf ha =>
      exact RenameSteps.app
        (ih f (by simp only [size]; omega) (alphaRel_nil_iff.1 hf))
        (ih a (by simp only [size]; omega) (alphaRel_nil_iff.1 ha))
    | @abs _ _ p q s t hbody =>
      obtain ⟨z, hzs, hzt, hzq⟩ := exists_not_mem_allNames s t q
      have first : RenameStep names (abs p s) (abs z (s.substitute p (var z) names).1) :=
        .here (occursFree_eq_false_of_not_mem_allNames hzs)
      have meet : (s.substitute p (var z) names).1.alphaEquiv
          (t.substitute q (var z) names).1 = true :=
        alphaRel_nil_iff.1 (hbody.substitute (.var rfl) names names)
      have last : RenameStep names (abs z (t.substitute q (var z) names).1) (abs q t) :=
        .back hzt hzq names
      have hsize : (s.substitute p (var z) names).1.size < (abs p s).size := by
        simp [size, size_substitute_var]
      exact .head first ((RenameSteps.abs z (ih _ hsize meet)).tail last)

theorem alphaEquiv_abs (p : Name) {s t : Term} (h : s.alphaEquiv t = true) :
    (abs p s).alphaEquiv (abs p t) = true :=
  (RenameSteps.abs p (renameSteps_of_alphaEquiv .new h)).renames.alphaEquiv

theorem alphaEquiv_app {f g a b : Term} (hf : f.alphaEquiv g = true) (ha : a.alphaEquiv b = true) :
    (app f a).alphaEquiv (app g b) = true :=
  (RenameSteps.app (renameSteps_of_alphaEquiv .new hf)
    (renameSteps_of_alphaEquiv .new ha)).renames.alphaEquiv

theorem equivalence_alphaEquiv : Equivalence fun s t : Term => s.alphaEquiv t = true := by
  simp only [alphaEquiv_iff]
  exact ⟨fun _ => rfl, Eq.symm, Eq.trans⟩

/-- Two terms are equal up to bound names exactly if renamings of single binders
lead from the one to the other, and it makes no difference which supply of fresh
names they use. So this equality is a congruence. -/
theorem alphaEquiv_iff_renames :
    (∀ s t : Term, (s.alphaEquiv t = true ↔ Renames s t) ∧
      ∀ names, s.alphaEquiv t = true ↔ RenameSteps names s t) ∧
    (Equivalence fun s t : Term => s.alphaEquiv t = true) ∧
    (∀ (p : Name) (s t : Term), s.alphaEquiv t = true → (abs p s).alphaEquiv (abs p t) = true) ∧
    ∀ f g a b : Term, f.alphaEquiv g = true → a.alphaEquiv b = true →
      (app f a).alphaEquiv (app g b) = true := by
  refine ⟨fun s t => ⟨⟨?_, Renames.alphaEquiv⟩, fun names => ⟨?_, ?_⟩⟩, equivalence_alphaEquiv,
    fun p _ _ => alphaEquiv_abs p, fun _ _ _ _ => alphaEquiv_app⟩
  · exact fun h => (renameSteps_of_alphaEquiv .new h).renames
  · exact renameSteps_of_alphaEquiv names
  · exact fun h => h.renames.alphaEquiv

end NamedLambda.Term
