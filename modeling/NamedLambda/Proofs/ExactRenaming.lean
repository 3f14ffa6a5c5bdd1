import NamedLambda.Proofs.AlphaRenaming

/-!
# Renaming binders to an unused name

Where no binder of either name has the other one free below it, nothing can be captured:
renaming gives the new name to the binders in question and to what they bind, and takes no
fresh name (`Term.rename_eq_relabel`). A term that has the new name nowhere is of that kind,
and after the renaming it still is, with the names the other way round
(`Term.separate_relabel`), for below a binder that has moved the old name is free no more.
So the way back is as exact as the way there.
-/

namespace NamedLambda.Term

/-- The binders named `old`, and the variables that they bind, with the name `new`. -/
def relabelIn (old new : Name) (scope : Scope) : Term → Term
  | var x => var (if x = old ∧ x ∈ scope then new else x)
  | abs p body => abs (if p = old then new else p) (relabelIn old new (p :: scope) body)
  | app func arg => app (relabelIn old new scope func) (relabelIn old new scope arg)

def relabel (old new : Name) (t : Term) : Term := t.relabelIn old new []

/-- No binder of one name has the other one free below it. -/
def Separate (x y : Name) : Term → Prop
  | var _ => True
  | abs p body => (p = x → body.occursFree y = false) ∧ (p = y → body.occursFree x = false) ∧
      body.Separate x y
  | app func arg => func.Separate x y ∧ arg.Separate x y

variable {old new : Name} {scope scope' : Scope} {t : Term}

theorem separate_of_not_mem_allNames (h : new ∉ t.allNames) : t.Separate old new := by
  induction t with
  | var => trivial
  | abs p body ih =>
    simp only [allNames, List.mem_cons, not_or] at h
    exact ⟨fun _ => occursFree_eq_false_of_not_mem_allNames h.2, fun hp => absurd hp.symm h.1,
      ih h.2⟩
  | app func arg ihf iha =>
    simp only [allNames, List.mem_append, not_or] at h
    exact ⟨ihf h.1, iha h.2⟩

theorem relabelIn_self (x : Name) (scope : Scope) (t : Term) : t.relabelIn x x scope = t := by
  induction t generalizing scope with
  | var y =>
    rw [relabelIn, ite_eq_right_iff.2 fun h => h.1.symm]
  | abs p body ih =>
    rw [relabelIn, ih, ite_eq_right_iff.2 Eq.symm]
  | app func arg ihf iha => rw [relabelIn, ihf, iha]

/-- Of the binders around a term it only matters whether one is named `old`. -/
theorem relabelIn_congr (h : old ∈ scope ↔ old ∈ scope') :
    t.relabelIn old new scope = t.relabelIn old new scope' := by
  induction t generalizing scope scope' with
  | var x =>
    by_cases hx : x = old
    · simp only [relabelIn, hx, h]
    · simp only [relabelIn, hx, false_and]
  | abs p body ih =>
    have inner : body.relabelIn old new (p :: scope) = body.relabelIn old new (p :: scope') :=
      ih (by simp [h])
    simp only [relabelIn, inner]
  | app func arg ihf iha => simp only [relabelIn, ihf h, iha h]

theorem occursFree_relabelIn (hne : old ≠ new) (h : t.Separate old new) (x : Name) :
    (t.relabelIn old new scope).occursFree x = true ↔
      if old ∈ scope then
        (x ≠ old ∧ t.occursFree x = true) ∨ (x = new ∧ t.occursFree old = true)
      else t.occursFree x = true := by
  induction t generalizing scope with
  | var y => grind [relabelIn, occursFree]
  | abs p body ih => grind [relabelIn, occursFree, Separate]
  | app func arg ihf iha => grind [relabelIn, occursFree, Separate]

theorem occursFree_relabelIn_cons (hne : old ≠ new) (h : t.Separate old new) (scope : Scope) :
    (t.relabelIn old new (old :: scope)).occursFree old = false := by
  rw [Bool.eq_false_iff, Ne, occursFree_relabelIn hne h]
  simp [hne]

/-- A binder named `old` comes to bind the variables below it by the substitution that moves
it. Binders below that have been moved already do not meet it. -/
theorem substitute_relabelIn (hne : old ≠ new) (h : t.Separate old new) (hout : old ∉ scope)
    (hin : old ∈ scope') (names : NameSupply) :
    (t.relabelIn old new scope).substitute old (var new) names =
      (t.relabelIn old new scope', names) := by
  induction t generalizing scope scope' with
  | var x =>
    by_cases hx : x = old
    · simp [relabelIn, hx, hout, hin]
    · simp [relabelIn, hx]
  | abs p body ih =>
    obtain ⟨hold, hnew, hbody⟩ := h
    by_cases hp : p = old
    · have hfree := occursFree_relabelIn_cons hne hbody scope
      have hsame : relabelIn old new (old :: scope) body = relabelIn old new (old :: scope') body :=
        relabelIn_congr (by simp)
      simp only [relabelIn, hp, if_pos]
      rw [substitute_of_not_occursFree (by simp [occursFree, hfree]), hsame]
    · have inner : (body.relabelIn old new (p :: scope)).substitute old (var new) names =
          (body.relabelIn old new (p :: scope'), names) :=
        ih hbody (by simp [hout, Ne.symm hp]) (by simp [hin])
      simp only [relabelIn, if_neg hp]
      by_cases hpnew : p = new
      · -- the binder would capture, but there is nothing to replace below it
        have hfree : (relabelIn old new (p :: scope) body).occursFree old = false := by
          rw [Bool.eq_false_iff, Ne, occursFree_relabelIn hne hbody]
          simp [hout, Ne.symm hp, hnew hpnew]
        rw [substitute_of_not_occursFree hfree] at inner
        rw [substitute_of_not_occursFree (by simp [occursFree, hfree]), (Prod.mk.inj inner).1]
      · rw [substitute_abs_of_not_occursFree hp (by simpa [occursFree] using hpnew), inner]
  | app func arg ihf iha =>
    simp only [relabelIn, substitute_app, ihf h.1 hout hin, iha h.2 hout hin]

/-- Renaming goes from the inside out, so the binders around a place are not yet counted
when that place is relabelled. -/
theorem rename_eq_relabelIn (h : t.Separate old new) (hout : old ∉ scope) (names : NameSupply) :
    rename old new t names = (t.relabelIn old new scope, names) := by
  by_cases hne : old = new
  · subst hne
    rw [relabelIn_self, rename_self]
  induction t generalizing scope with
  | var x =>
    have hx : ¬ (x = old ∧ x ∈ scope) := fun hx => hout (hx.1 ▸ hx.2)
    rw [rename, if_neg hne, relabelIn, if_neg hx]
  | app func arg ihf iha =>
    rw [rename, if_neg hne]
    simp only [ihf h.1 hout, iha h.2 hout, relabelIn]
  | abs p body ih =>
    obtain ⟨hold, -, hbody⟩ := h
    rw [rename, if_neg hne]
    by_cases hp : p = old
    · have hfree : ¬ (body.relabelIn old new scope).occursFree new = true := by
        rw [occursFree_relabelIn hne hbody, if_neg hout, hold hp]
        simp
      have moved : (body.relabelIn old new scope).substitute old (var new) names =
          (body.relabelIn old new (old :: scope), names) :=
        substitute_relabelIn hne hbody hout (by simp) names
      simp only [ih hbody hout, hp, ne_eq, not_true_eq_false, if_false, if_neg hfree, rebind, moved,
        relabelIn, if_true]
    · have inner : rename old new body names = (body.relabelIn old new (p :: scope), names) :=
        ih hbody (by simp [hout, Ne.symm hp])
      simp only [inner, ne_eq, hp, not_false_eq_true, if_true, if_false, relabelIn]

theorem rename_eq_relabel (h : t.Separate old new) (names : NameSupply) :
    rename old new t names = (t.relabel old new, names) :=
  rename_eq_relabelIn h List.not_mem_nil names

theorem separate_relabelIn (h : new ∉ t.allNames) (hne : old ≠ new) :
    (t.relabelIn old new scope).Separate new old := by
  induction t generalizing scope with
  | var => trivial
  | app func arg ihf iha =>
    simp only [allNames, List.mem_append, not_or] at h
    exact ⟨ihf h.1, iha h.2⟩
  | abs p body ih =>
    simp only [allNames, List.mem_cons, not_or] at h
    have hfree := occursFree_relabelIn_cons hne (separate_of_not_mem_allNames h.2) scope
    simp only [relabelIn, Separate]
    split
    · next hp => exact ⟨fun _ => hp ▸ hfree, fun hnew => absurd hnew.symm hne, ih h.2⟩
    · next hp => exact ⟨fun hnew => absurd hnew.symm h.1, fun hold => absurd hold hp, ih h.2⟩

theorem separate_relabel (h : new ∉ t.allNames) : (t.relabel old new).Separate new old := by
  by_cases hne : old = new
  · subst hne
    rw [relabel, relabelIn_self]
    exact separate_of_not_mem_allNames h
  · exact separate_relabelIn h hne

theorem relabelIn_relabelIn (h : new ∉ t.allNames) (hscope : old ∈ scope ↔ new ∈ scope') :
    (t.relabelIn old new scope).relabelIn new old scope' = t := by
  induction t generalizing scope scope' with
  | var x =>
    have hx : x ≠ new := by simpa [allNames, eq_comm] using h
    by_cases hold : x = old ∧ x ∈ scope
    · have hin : new ∈ scope' := hscope.1 (hold.1 ▸ hold.2)
      rw [relabelIn, if_pos hold, relabelIn, if_pos ⟨rfl, hin⟩, hold.1]
    · rw [relabelIn, if_neg hold, relabelIn, if_neg fun hnew => hx hnew.1]
  | app func arg ihf iha =>
    simp only [allNames, List.mem_append, not_or] at h
    simp only [relabelIn, ihf h.1 hscope, iha h.2 hscope]
  | abs p body ih =>
    simp only [allNames, List.mem_cons, not_or] at h
    simp only [relabelIn]
    by_cases hp : p = old
    · rw [if_pos hp, if_pos rfl, ih h.2 (by simp [hp]), hp]
    · rw [if_neg hp, if_neg (Ne.symm h.1), ih h.2 (by simp [hscope, Ne.symm hp, h.1])]

theorem relabel_relabel (h : new ∉ t.allNames) : (t.relabel old new).relabel new old = t :=
  relabelIn_relabelIn h (by simp)

/-- Renaming binders to a name that the term has nowhere changes these binders and the
variables that they bind, and nothing else. Renaming them back gives the term itself.
Neither takes a name from the supply. -/
theorem rename_unused {old new : Name} {t : Term} (h : new ∉ t.allNames) (names : NameSupply) :
    rename old new t names = (t.relabel old new, names) ∧
      ∀ names', rename new old (rename old new t names).1 names' = (t, names') := by
  have there : rename old new t names = (t.relabel old new, names) :=
    rename_eq_relabel (separate_of_not_mem_allNames h) names
  refine ⟨there, fun names' => ?_⟩
  rw [there, rename_eq_relabel (separate_relabel h), relabel_relabel h]

/-- One `x` is free, one is bound twice over, and one stands under another binder. -/
theorem rename_unused_shadowed :
    let t := app (var "x") (abs "x" (app (abs "x" (var "x")) (abs "y" (app (var "x") (var "y")))))
    let u := app (var "x") (abs "w" (app (abs "w" (var "w")) (abs "y" (app (var "w") (var "y")))))
    "w" ∉ t.allNames ∧ rename "x" "w" t .new = (u, .new) ∧
      ∀ names, rename "w" "x" (rename "x" "w" t .new).1 names = (t, names) :=
  ⟨by decide, rename_unused (by decide) .new⟩

end NamedLambda.Term
