import NamedLambda.Proofs.AlphaReduction
import NamedLambda.Proofs.InferenceSoundness
import NamedLambda.Proofs.TypeRenumbering

/-!
# Inference up to bound names and numbers

Two runs of inference are followed side by side (`Inferencer.Couples`), on terms that
differ at most in bound names, in contexts that give the free names the same schemes,
and with counters that may differ. Whatever the one run answers the other answers too,
with its type variables numbered in its own way (`Inferencer.Couples.inferTerm`). Names
of binders are overwritten in the one context and not in the other, so contexts are
compared through the scopes of the two terms (`Context.Corresponds`). With one counter
for both runs, the two answers are the same (`Inferencer.infer_alphaEquiv`).
-/

namespace NamedLambda

namespace TyVar

def raise (n k v : TyVar) : TyVar := if v < n then v else v + k

theorem raise_of_lt {n v : TyVar} (k : TyVar) (h : v < n) : raise n k v = v := if_pos h

theorem raise_of_le {n v : TyVar} (k : TyVar) (h : n ≤ v) : raise n k v = v + k :=
  if_neg (Nat.not_lt.2 h)

theorem raise_injective (n k : TyVar) : Function.Injective (raise n k) := by
  intro v w h
  unfold raise at h
  grind

/-- With the larger counter before its end, neither of the two stands still. -/
theorem inStep_next {n k v w : TyVar} (hv : n ≤ v) (hw : w = v + k) (room : w.next < last) :
    n ≤ v.next ∧ w.next = v.next + k := by
  simp only [next] at room ⊢
  grind

theorem lt_last_of_min_le {v w : TyVar} (h : min v last ≤ w) (hw : w < last) : v < last := by
  grind

end TyVar

/-- How another run of inference numbers the variables of a run. Counters that are in
step stay in step as long as there is room for new variables. -/
structure Renumbering where
  rename : TyVar → TyVar
  injective : rename.Injective
  inStep : TyVar → TyVar → Prop
  room : TyVar → Prop
  rename_eq : ∀ {n m}, inStep n m → rename n = m
  next : ∀ {n m}, inStep n m → room m.next → inStep n.next m.next
  room_of_le : ∀ {n m}, min n TyVar.last ≤ m → room m → room n

/-- The same numbers in both runs, even where the counter stands still. -/
def Renumbering.refl : Renumbering where
  rename := id
  injective := Function.injective_id
  inStep := Eq
  room _ := True
  rename_eq h := h
  next h _ := congrArg TyVar.next h
  room_of_le _ h := h

/-- The numbers from `n` on become larger by `k`, as long as they stay below the last one. -/
def Renumbering.shift (n k : TyVar) : Renumbering where
  rename := TyVar.raise n k
  injective := TyVar.raise_injective n k
  inStep v w := n ≤ v ∧ w = v + k
  room v := v < TyVar.last
  rename_eq h := (TyVar.raise_of_le k h.1).trans h.2.symm
  next h room := TyVar.inStep_next h.1 h.2 room
  room_of_le := TyVar.lt_last_of_min_le

namespace Inference

def mapVars (f : TyVar → TyVar) (r : Inference) : Inference := ⟨r.ty.mapVars f, r.subst.mapVars f⟩

@[simp] theorem mapVars_id (r : Inference) : r.mapVars id = r := by simp [mapVars]

end Inference

namespace TypeError

def mapVars (f : TyVar → TyVar) : TypeError → TypeError
  | unbound x => unbound x
  | infinite v ty t => infinite (f v) (ty.mapVars f) t
  | mismatch expected found t => mismatch (expected.mapVars f) (found.mapVars f) t

@[simp] theorem mapVars_id (e : TypeError) : e.mapVars id = e := by cases e <;> simp [mapVars]

theorem mapVars_ofUnify (f : TyVar → TyVar) (t : Term) (e : UnifyError) :
    (ofUnify t e).mapVars f = ofUnify t (e.mapVars f) := by cases e <;> rfl

/-- The same error, with the two terms in it taken from one position of `s` and `t`. -/
inductive SamePlace (s t : Term) : TypeError → TypeError → Prop
  | unbound (x : Name) : SamePlace s t (.unbound x) (.unbound x)
  | infinite {path : Path} {u u' : Term} (v : TyVar) (ty : Ty) : s.subterm? path = some u →
      t.subterm? path = some u' → SamePlace s t (.infinite v ty u) (.infinite v ty u')
  | mismatch {path : Path} {u u' : Term} (expected found : Ty) : s.subterm? path = some u →
      t.subterm? path = some u' →
      SamePlace s t (.mismatch expected found u) (.mismatch expected found u')

namespace SamePlace

theorem ofUnify (s t : Term) (e : UnifyError) :
    SamePlace s t (.ofUnify s e) (.ofUnify t e) := by
  cases e with
  | infinite v ty => exact .infinite v ty s.subterm?_nil t.subterm?_nil
  | mismatch a b => exact .mismatch a b s.subterm?_nil t.subterm?_nil

theorem of_subterm {s t s' t' : Term} {e e' : TypeError} (d : Path) (h : SamePlace s' t' e e')
    (hs : s.subterm? d = some s') (ht : t.subterm? d = some t') : SamePlace s t e e' := by
  have place {s s' u : Term} (hs : s.subterm? d = some s') {path : Path}
      (hu : s'.subterm? path = some u) : s.subterm? (d ++ path) = some u := by
    rw [Term.subterm?_append, hs]
    exact hu
  cases h with
  | unbound x => exact .unbound x
  | infinite v ty hu hu' => exact .infinite v ty (place hs hu) (place ht hu')
  | mismatch a b hu hu' => exact .mismatch a b (place hs hu) (place ht hu')

theorem eq_of_self {t : Term} {e e' : TypeError} (h : SamePlace t t e e') : e = e' := by
  cases h with
  | unbound x => rfl
  | infinite v ty hu hu' => rw [Option.some.inj (hu.symm.trans hu')]
  | mismatch a b hu hu' => rw [Option.some.inj (hu.symm.trans hu')]

end SamePlace

end TypeError

namespace Inferencer

/-- The second result is the first one with all variables renumbered, and the counters
go together again. -/
inductive Matches (ρ : Renumbering) {α : Type} (image : α → α)
    (fault : TypeError → TypeError → Prop) : EStateM.Result TypeError Inferencer α →
      EStateM.Result TypeError Inferencer α → Prop
  | ok (a : α) {st st' : Inferencer} : ρ.inStep st.next st'.next →
      Matches ρ image fault (.ok a st) (.ok (image a) st')
  | error {e e' : TypeError} {st st' : Inferencer} : fault (e.mapVars ρ.rename) e' →
      ρ.inStep st.next st'.next → Matches ρ image fault (.error e st) (.error e' st')

/-- From counters that go together, the second computation does what the first does,
provided that there is room up to its end. -/
def Couples (ρ : Renumbering) {α : Type} (image : α → α) (fault : TypeError → TypeError → Prop)
    (m m' : Infer α) : Prop :=
  ∀ st st', ρ.inStep st.next st'.next → ρ.room (finalNext m' st') →
    Matches ρ image fault (m st) (m' st')

namespace Couples

variable {ρ : Renumbering} {α β : Type} {image : α → α} {image' : β → β}
  {fault fault' : TypeError → TypeError → Prop}

theorem pure (a : α) : Couples ρ image fault (pure a) (pure (image a)) :=
  fun _ _ hst _ => .ok a hst

theorem pure_eq {a b : α} (h : image a = b) :
    Couples ρ image fault (Pure.pure a) (Pure.pure b) := h ▸ .pure a

theorem throw {e e' : TypeError} (h : fault (e.mapVars ρ.rename) e') :
    Couples ρ image fault (throw e) (throw e') := fun _ _ hst _ => .error h hst

theorem record (event event' : Event) : Couples ρ id fault (record event) (record event') :=
  fun _ _ hst _ => .ok () hst

theorem fresh : Couples ρ (Ty.mapVars ρ.rename) fault fresh fresh := by
  intro st st' hst room
  have himage : Ty.var st'.next = (Ty.var st.next).mapVars ρ.rename :=
    congrArg Ty.var (ρ.rename_eq hst).symm
  rw [fresh_run, fresh_run, himage]
  exact .ok (Ty.var st.next) (ρ.next hst room)

theorem mono {m m' : Infer α} (h : Couples ρ image fault m m')
    (hfault : ∀ e e', fault e e' → fault' e e') : Couples ρ image fault' m m' := by
  intro st st' hst room
  have hres := h st st' hst room
  generalize m st = x, m' st' = y at hres
  cases hres with
  | ok a hst' => exact .ok a hst'
  | error he hst' => exact .error (hfault _ _ he) hst'

theorem of_subterm {m m' : Infer α} {s t s' t' : Term}
    (h : Couples ρ image (TypeError.SamePlace s' t') m m') (d : Path)
    (hs : s.subterm? d = some s') (ht : t.subterm? d = some t') :
    Couples ρ image (TypeError.SamePlace s t) m m' :=
  h.mono fun _ _ he => he.of_subterm d hs ht

theorem bind {m m' : Infer α} {k k' : α → Infer β} (hm : Couples ρ image fault m m')
    (hk : ∀ a, Couples ρ image' fault (k a) (k' (image a))) (hadv : ∀ a, Advances (k' a)) :
    Couples ρ image' fault (m >>= k) (m' >>= k') := by
  intro st st' hst room
  have room₁ : ρ.room (finalNext m' st') := by
    simp only [finalNext, Bind.bind, EStateM.bind] at room ⊢
    cases hm' : m' st' with
    | error e st₁ => simpa [hm'] using room
    | ok a st₁ =>
      simp only [hm'] at room
      exact ρ.room_of_le (hadv a st₁) room
  have hres := hm st st' hst room₁
  simp only [finalNext, Bind.bind, EStateM.bind] at room ⊢
  generalize m st = x, m' st' = y at hres room
  cases hres with
  | ok a hst₁ => exact hk a _ _ hst₁ room
  | error he hst₁ => exact .error he hst₁

theorem imagesOf (vars : List TyVar) :
    Couples ρ (List.map fun e => (ρ.rename e.1, e.2.mapVars ρ.rename)) fault (imagesOf vars)
      (imagesOf (vars.map ρ.rename)) := by
  induction vars with
  | nil => exact .pure []
  | cons v vars ih =>
    have first : Couples ρ (fun e : TyVar × Ty => (ρ.rename e.1, e.2.mapVars ρ.rename)) fault
        (Inferencer.fresh >>= fun ty => Pure.pure (v, ty))
        (Inferencer.fresh >>= fun ty => Pure.pure (ρ.rename v, ty)) :=
      .bind .fresh (fun ty => .pure (v, ty)) fun _ => .pure _
    rw [Inferencer.imagesOf, Inferencer.imagesOf, List.map_cons, List.mapM_cons, List.mapM_cons]
    exact .bind first (fun e => .bind ih (fun rest => .pure (e :: rest)) fun _ => .pure _)
      fun _ => .bind (.imagesOf _) fun _ => .pure _

theorem instantiate (σ : Scheme) :
    Couples ρ (Ty.mapVars ρ.rename) fault (instantiate σ) (instantiate (σ.mapVars ρ.rename)) := by
  refine .bind (imagesOf σ.vars) (fun images => .pure_eq ?_) fun _ => .pure _
  rw [Ty.mapVars_apply ρ.injective, TypeSubst.mapVars_ofList ρ.injective]
  rfl

theorem unifySides (t t' : Term) (r₁ r₂ : Inference) :
    Couples ρ (Inference.mapVars ρ.rename) (TypeError.SamePlace t t') (unifySides t r₁ r₂)
      (unifySides t' (r₁.mapVars ρ.rename) (r₂.mapVars ρ.rename)) := by
  refine .bind .fresh (fun result => ?_) fun result => ?_
  · have hunify := Unification.unify_mapVars ρ.injective (r₁.ty.apply r₂.subst)
      (.arrow r₂.ty result)
    rw [Ty.mapVars_apply ρ.injective, Ty.mapVars] at hunify
    simp only [Inference.mapVars, hunify]
    cases unify (r₁.ty.apply r₂.subst) (.arrow r₂.ty result) with
    | error e =>
      refine .throw ?_
      rw [TypeError.mapVars_ofUnify]
      exact .ofUnify t t' _
    | ok s =>
      refine .bind (.record _ _) (fun _ => .pure_eq ?_) fun _ => .pure _
      simp only [Inference.mapVars, Ty.mapVars_apply ρ.injective,
        TypeSubst.mapVars_compose ρ.injective]
  · split
    · exact .throw _
    · exact .bind (.record _) fun _ => .pure _

end Couples

end Inferencer

/-- Names that stand for each other in two scopes have the same scheme in the two
contexts, up to numbering, if the term mentions them. A name that has none is free
in both scopes. -/
def Context.Corresponds (f : TyVar → TyVar) (left right : Term.Scope) (t : Term)
    (Γ Δ : Context) : Prop :=
  ∀ x y, t.occursFree x = true → Term.AlphaRel left right (.var x) (.var y) →
    Δ.get? y = (Γ.get? x).map (Scheme.mapVars f) ∧ (Γ.get? x = none → x = y)

namespace Context.Corresponds

variable {f : TyVar → TyVar} {left right : Term.Scope} {t : Term} {Γ Δ : Context}

theorem of_agree
    (agree : ∀ x, t.occursFree x = true → Δ.get? x = (Γ.get? x).map (Scheme.mapVars f)) :
    Corresponds f [] [] t Γ Δ := by
  intro x y hx hxy
  obtain rfl : x = y := by
    simpa [Term.namelessIn, Term.Scope.index?] using Term.alphaRel_iff.1 hxy
  exact ⟨agree x hx, fun _ => rfl⟩

theorem mono {u : Term} (h : Corresponds f left right t Γ Δ)
    (hfree : ∀ x, u.occursFree x = true → t.occursFree x = true) :
    Corresponds f left right u Γ Δ :=
  fun x y hx hxy => h x y (hfree x hx) hxy

/-- The parameters overwrite what the contexts have for their names, and nothing else
that the scopes still see. -/
theorem extend {p q : Name} (h : Corresponds f left right (.abs p t) Γ Δ) (ty : Ty) :
    Corresponds f (p :: left) (q :: right) t (Γ.extend p (.mono ty))
      (Δ.extend q (.mono (ty.mapVars f))) := by
  intro x y hx hxy
  have hboth : p = x ↔ q = y := by simpa [Term.occursFree] using hxy.occursFree_eq
  rw [get?_extend, get?_extend]
  by_cases hp : p = x
  · obtain rfl := hp
    obtain rfl := hboth.1 rfl
    simp [Scheme.mapVars, Scheme.mono]
  · have hq : q ≠ y := fun hq => hp (hboth.2 hq)
    rw [if_neg (Ne.symm hp), if_neg hq.symm]
    refine h x y (by simp [Term.occursFree, hx, Ne.symm hp]) (hxy.of_cons ?_ ?_)
    · simp [Term.occursFree, hp]
    · simp [Term.occursFree, hq]

theorem apply (hf : f.Injective) (h : Corresponds f left right t Γ Δ) (s : TypeSubst) :
    Corresponds f left right t (Γ.apply s) (Δ.apply (s.mapVars f)) := by
  intro x y hx hxy
  obtain ⟨hget, hname⟩ := h x y hx hxy
  rw [get?_apply, get?_apply, hget]
  cases hσ : Γ.get? x with
  | none => exact ⟨rfl, fun _ => hname hσ⟩
  | some σ => exact ⟨congrArg some (Scheme.mapVars_apply hf s σ).symm, by simp⟩

end Context.Corresponds

/-- Inference goes the same way for terms that differ at most in bound names. -/
theorem Inferencer.Couples.inferTerm {ρ : Renumbering} {left right : Term.Scope} {s t : Term}
    (h : Term.AlphaRel left right s t) {Γ Δ : Context}
    (hΓ : Γ.Corresponds ρ.rename left right s Δ) :
    Couples ρ (Inference.mapVars ρ.rename) (TypeError.SamePlace s t) (inferTerm Γ s)
      (inferTerm Δ t) := by
  induction h generalizing Γ Δ with
  | @var left right x y h =>
    obtain ⟨hget, hname⟩ := hΓ x y (by simp [Term.occursFree]) (.var h)
    rw [Inferencer.inferTerm, Inferencer.inferTerm, hget]
    cases hx : Γ.get? x with
    | none =>
      obtain rfl := hname hx
      exact .throw (.unbound x)
    | some σ =>
      exact .bind (.instantiate σ)
        (fun ty => .bind (.record _ _) (fun _ => .pure (Inference.mk ty ∅)) fun _ => .pure _)
        fun _ => .bind (.record _) fun _ => .pure _
  | @abs left right p q s t _ ih =>
    rw [Inferencer.inferTerm, Inferencer.inferTerm]
    refine .bind .fresh (fun paramTy => ?_) fun _ => .bind (.inferTerm _ _) fun _ => .pure _
    have hbody := (ih (hΓ.extend paramTy)).of_subterm (s := .abs p s) (t := .abs q t) [0]
      s.subterm?_nil t.subterm?_nil
    refine .bind hbody (fun r => .pure_eq ?_) fun _ => .pure _
    simp only [Inference.mapVars, Ty.mapVars, Ty.mapVars_apply ρ.injective]
  | @app left right f g a b _ _ ihf iha =>
    rw [inferTerm_app, inferTerm_app]
    have hΓfunc := hΓ.mono (u := f) fun x hx => by simp [Term.occursFree, hx]
    have hfunc := (ihf hΓfunc).of_subterm (s := .app f a) (t := .app g b) [0] f.subterm?_nil
      g.subterm?_nil
    refine .bind hfunc (fun r₁ => ?_) fun r₁ =>
      .bind (.inferTerm _ _) fun r₂ => .unifySides _ r₁ r₂
    have hΓarg := hΓ.mono (u := a) fun x hx => by simp [Term.occursFree, hx]
    have harg := (iha (hΓarg.apply ρ.injective r₁.subst)).of_subterm (s := .app f a)
      (t := .app g b) [1] a.subterm?_nil b.subterm?_nil
    exact .bind harg (fun r₂ => .unifySides _ _ r₁ r₂) fun r₂ => .unifySides _ _ r₂

namespace Inferencer

/-- The same answer, or the same error about the same place of the two terms, and the
same counter. -/
inductive Alike (s t : Term) : EStateM.Result TypeError Inferencer Inference →
    EStateM.Result TypeError Inferencer Inference → Prop
  | ok (r : Inference) {st st' : Inferencer} : st.next = st'.next →
      Alike s t (.ok r st) (.ok r st')
  | error {e e' : TypeError} {st st' : Inferencer} : e.SamePlace s t e' → st.next = st'.next →
      Alike s t (.error e st) (.error e' st')

/-- Inference does not depend on the names of bound variables, nor on which of them
the context has, too. -/
theorem infer_alphaEquiv {s t : Term} (h : s.alphaEquiv t = true) (Γ : Context)
    {st st' : Inferencer} (start : st.next = st'.next) :
    Alike s t (infer Γ s st) (infer Γ t st') := by
  have hΓ : Γ.Corresponds Renumbering.refl.rename [] [] s Γ :=
    .of_agree fun x _ => by cases Γ.get? x <;> simp [Renumbering.refl]
  have hreserve : (st.reserve Γ).next = (st'.reserve Γ).next := by
    unfold reserve
    cases Γ.maxVar? with
    | none => exact start
    | some v => simp only [start]
  have hrun := Couples.inferTerm (Term.alphaRel_nil_iff.2 h) hΓ _ _ hreserve trivial
  rw [infer, infer, bind_of_ok (reserve_run Γ st), bind_of_ok (reserve_run Γ st')]
  generalize inferTerm Γ s (st.reserve Γ) = x, inferTerm Γ t (st'.reserve Γ) = y at hrun
  cases hrun with
  | ok r hst =>
    simp only [Renumbering.refl, Inference.mapVars_id] at hst ⊢
    exact .ok r hst
  | error he hst =>
    simp only [Renumbering.refl, TypeError.mapVars_id] at he hst
    exact .error he hst

end Inferencer

def Term.passToX (p : Name) : Term := .abs p (.app (.var "x") (.var p))

def Term.selfApply (p : Name) : Term := .abs p (.app (.var p) (.var p))

/-- One of the two binders hides the `id` of the context, and the other does not. -/
theorem Inferencer.infer_alphaEquiv_idAndX :
    (∃ s log, infer .idAndX (.passToX "id") .new = .ok ⟨.arrow (.var 2) (.var 3), s⟩ ⟨4, log⟩) ∧
      Alike (.passToX "id") (.passToX "y") (infer .idAndX (.passToX "id") .new)
        (infer .idAndX (.passToX "y") .new) ∧
      (∃ log, infer .idAndX (.selfApply "id") .new =
        .error (.infinite 2 (.arrow (.var 2) (.var 3)) (.app (.var "id") (.var "id")))
          ⟨4, log⟩) ∧
      Alike (.selfApply "id") (.selfApply "y") (infer .idAndX (.selfApply "id") .new)
        (infer .idAndX (.selfApply "y") .new) :=
  ⟨⟨_, _, by cbv⟩, infer_alphaEquiv (by decide) .idAndX rfl, ⟨_, by cbv⟩,
    infer_alphaEquiv (by decide) .idAndX rfl⟩

end NamedLambda
