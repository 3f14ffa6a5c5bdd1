import NamedLambda.Proofs.AlphaRenaming

/-!
# Renaming all binders of one name

`rename` works from the inside out, and at each binder it does one renaming step, to a
name that is not free below. So its result is equal to the term up to bound names
(`Term.alphaEquiv_rename`), and such terms have all in common that does not depend on
names: their shape (`Term.AlphaRel.sameShape`) and their free names
(`Term.freeVars_eq_of_alphaEquiv`).
-/

namespace NamedLambda.Term

/-- The same tree with other names. -/
inductive SameShape : Term → Term → Prop
  | var (x y : Name) : SameShape (var x) (var y)
  | abs {s t : Term} (p q : Name) : SameShape s t → SameShape (abs p s) (abs q t)
  | app {f g a b : Term} : SameShape f g → SameShape a b → SameShape (app f a) (app g b)

namespace SameShape

variable {s t : Term}

theorem size_eq (h : SameShape s t) : s.size = t.size := by
  induction h with
  | var => rfl
  | abs _ _ _ ih => simp only [size, ih]
  | app _ _ ihf iha => simp only [size, ihf, iha]

theorem depth_eq (h : SameShape s t) : s.depth = t.depth := by
  induction h with
  | var => rfl
  | abs _ _ _ ih => simp only [depth, ih]
  | app _ _ ihf iha => simp only [depth, ihf, iha]

theorem kind_subterm? (h : SameShape s t) (path : Path) :
    (s.subterm? path).map kind = (t.subterm? path).map kind := by
  induction path generalizing s t with
  | nil => cases h <;> rfl
  | cons d path ih =>
    cases h with
    | var => simp [subterm?]
    | abs _ _ hbody =>
      rcases d with _ | d
      · exact ih hbody
      · simp [subterm?]
    | app hf ha =>
      rcases d with _ | _ | d
      · exact ih hf
      · exact ih ha
      · simp [subterm?]

end SameShape

theorem AlphaRel.sameShape {left right : Scope} {s t : Term} (h : AlphaRel left right s t) :
    SameShape s t := by
  induction h with
  | @var _ _ x y _ => exact .var x y
  | @abs _ _ p q _ _ _ ih => exact .abs p q ih
  | app _ _ ihf iha => exact .app ihf iha

theorem freeVars_eq_of_alphaEquiv {s t : Term} (h : s.alphaEquiv t = true) :
    s.freeVars = t.freeVars := by
  refine OrderedSet.ext fun x => ?_
  cases alphaRel_nil_iff.2 (alphaEquiv_abs x h) with
  | abs hbody => rw [mem_freeVars, mem_freeVars, hbody.occursFree_eq]

theorem RenameStep.alphaEquiv {names : NameSupply} {s t : Term} (h : RenameStep names s t) :
    s.alphaEquiv t = true :=
  alphaEquiv_iff.2 (h.namelessIn_eq [])

/-- To rename the binders of one name is to rename single binders, inner ones first. -/
theorem alphaEquiv_rename (old new : Name) (t : Term) (names : NameSupply) :
    t.alphaEquiv (rename old new t names).1 = true := by
  by_cases hname : old = new
  · subst hname
    rw [rename_self]
    exact equivalence_alphaEquiv.refl t
  induction t generalizing names with
  | var x =>
    rw [rename, if_neg hname]
    exact equivalence_alphaEquiv.refl (var x)
  | app func arg ihf iha =>
    rw [rename, if_neg hname]
    exact alphaEquiv_app (ihf names) (iha _)
  | abs p body ih =>
    rw [rename, if_neg hname]
    have inner := alphaEquiv_abs p (ih names)
    generalize rename old new body names = renamed at inner
    obtain ⟨body', names₁⟩ := renamed
    dsimp only at inner ⊢
    split
    · exact inner
    · refine equivalence_alphaEquiv.trans inner ?_
      split
      · have fresh := names₁.fresh_not_mem new (body'.freeVars.insert old)
        generalize names₁.fresh new (body'.freeVars.insert old) = target at fresh
        simp only [OrderedSet.mem_insert, not_or, mem_freeVars, Bool.not_eq_true] at fresh
        exact (RenameStep.here fresh.2).alphaEquiv
      · next hfree => exact (RenameStep.here (Bool.eq_false_iff.2 hfree)).alphaEquiv

/-- What a renaming of binders leaves as it is: the term up to bound names, its free
names, and all of its shape. -/
theorem rename_preserves (old new : Name) (t : Term) (names : NameSupply) :
    (rename old new t names).1.alphaEquiv t = true ∧
      (rename old new t names).1.freeVars = t.freeVars ∧
      (rename old new t names).1.size = t.size ∧
      (rename old new t names).1.depth = t.depth ∧
      ∀ path, ((rename old new t names).1.subterm? path).map kind =
        (t.subterm? path).map kind := by
  have halpha : (rename old new t names).1.alphaEquiv t = true :=
    equivalence_alphaEquiv.symm (alphaEquiv_rename old new t names)
  have hshape := (alphaRel_nil_iff.2 halpha).sameShape
  exact ⟨halpha, freeVars_eq_of_alphaEquiv halpha, hshape.size_eq, hshape.depth_eq,
    hshape.kind_subterm?⟩

end NamedLambda.Term
