import NamedLambda.Typing.Ty

/-!
# Unification of types

`unify` finds a substitution that makes two types equal. Of two arrows the
domains come first, and the codomains are unified under what that gave. Either
it gave nothing, and the codomains are smaller, or it eliminated a variable for
good; that is what `Confined` says, and why the recursion ends.
-/

namespace NamedLambda

inductive UnifyError where
  /-- The variable occurs in the type, and is not the type itself. -/
  | infinite (v : TyVar) (ty : Ty)
  | mismatch (expected found : Ty)
deriving DecidableEq

namespace UnifyError

def message : UnifyError → String
  | infinite v ty =>
    "occurs check: cannot construct infinite type " ++ v.text ++ " = " ++ ty.text
  | mismatch expected found =>
    "type mismatch: expected " ++ expected.text ++ ", found " ++ found.text

end UnifyError

/-- The substitution puts in no variables but these, and unless it is empty it
removes one of them everywhere. -/
structure TypeSubst.Confined (s : TypeSubst) (vars : OrderedSet TyVar) : Prop where
  introduced : ∀ ty w, w ∈ (Ty.apply s ty).freeVars → w ∈ ty.freeVars ∨ w ∈ vars
  eliminated : s = ∅ ∨ ∃ v ∈ vars, ∀ ty, v ∉ (Ty.apply s ty).freeVars

namespace TypeSubst.Confined

theorem empty (vars : OrderedSet TyVar) : Confined ∅ vars :=
  ⟨fun _ _ h => .inl (by simpa using h), .inl rfl⟩

theorem mono {s : TypeSubst} {vars wider : OrderedSet TyVar} (h : Confined s vars)
    (hw : ∀ v ∈ vars, v ∈ wider) : Confined s wider :=
  ⟨fun ty w hv => (h.introduced ty w hv).imp_right (hw w),
    h.eliminated.imp_right fun ⟨v, hv, hn⟩ => ⟨v, hw v hv, hn⟩⟩

theorem singleton {v : TyVar} {ty : Ty} (h : ty.occurs v = false) :
    Confined (.singleton v ty) ((Ty.var v).freeVars ∪ ty.freeVars) := by
  have hv : v ∉ ty.freeVars := by simp [Ty.mem_freeVars, h]
  have image (u : TyVar) : (Ty.var u).apply (.singleton v ty) = if u = v then ty else .var u := by
    by_cases hu : u = v <;> simp [Ty.apply, hu]
  constructor
  · intro t w hw
    obtain ⟨u, hu, hwu⟩ := Ty.mem_freeVars_apply.1 hw
    rw [image] at hwu
    split at hwu
    · exact .inr (by simp [hwu])
    · exact .inl (by simpa [Ty.mem_freeVars_var.1 hwu] using hu)
  · refine .inr ⟨v, by simp, fun t ht => ?_⟩
    obtain ⟨u, hu, hwu⟩ := Ty.mem_freeVars_apply.1 ht
    rw [image] at hwu
    split at hwu
    · exact hv hwu
    · rename_i hne
      exact hne (by simpa [eq_comm] using hwu)

end TypeSubst.Confined

namespace Unification

def vars (a b : Ty) : OrderedSet TyVar := a.freeVars ∪ b.freeVars

theorem mem_vars_apply {s : TypeSubst} {a b : Ty} {vs : OrderedSet TyVar} {w : TyVar}
    (hs : s.Confined vs) (hsub : ∀ v ∈ vars a b, v ∈ vs)
    (h : w ∈ vars (a.apply s) (b.apply s)) : w ∈ vs := by
  simp only [vars, OrderedSet.mem_union] at h hsub
  rcases h with h | h
  · exact (hs.introduced a w h).elim (fun h => hsub w (.inl h)) id
  · exact (hs.introduced b w h).elim (fun h => hsub w (.inr h)) id

theorem vars_domains_subset {a b c d : Ty} :
    ∀ v ∈ vars a c, v ∈ vars (.arrow a b) (.arrow c d) := fun v hv => by
  simp only [vars, OrderedSet.mem_union, Ty.mem_freeVars_arrow] at hv ⊢
  exact hv.imp .inl .inl

theorem vars_codomains_subset {a b c d : Ty} :
    ∀ v ∈ vars b d, v ∈ vars (.arrow a b) (.arrow c d) := fun v hv => by
  simp only [vars, OrderedSet.mem_union, Ty.mem_freeVars_arrow] at hv ⊢
  exact hv.imp .inr .inr

/-- The pair of types is measured by its variables first, then by its size. -/
theorem lex_of_le_of_lt {m m' n n' : Nat} (hm : m ≤ m') (hn : n < n') :
    Prod.Lex (· < ·) (· < ·) (m, n) (m', n') := by
  rcases Nat.lt_or_eq_of_le hm with hlt | rfl
  · exact .left _ _ hlt
  · exact .right _ hn

theorem domains_lt {a b c d : Ty} :
    Prod.Lex (· < ·) (· < ·) ((vars a c).size, a.size + c.size)
      ((vars (.arrow a b) (.arrow c d)).size, (Ty.arrow a b).size + (Ty.arrow c d).size) :=
  lex_of_le_of_lt (OrderedSet.size_le_of_subset vars_domains_subset) (by simp only [Ty.size]; omega)

theorem codomains_lt {s : TypeSubst} {a b c d : Ty} (hs : s.Confined (vars a c)) :
    Prod.Lex (· < ·) (· < ·)
      ((vars (b.apply s) (d.apply s)).size, (b.apply s).size + (d.apply s).size)
      ((vars (.arrow a b) (.arrow c d)).size, (Ty.arrow a b).size + (Ty.arrow c d).size) := by
  have hwide : s.Confined (vars (.arrow a b) (.arrow c d)) := hs.mono vars_domains_subset
  have hsub : ∀ w ∈ vars (b.apply s) (d.apply s), w ∈ vars (.arrow a b) (.arrow c d) :=
    fun w hw => mem_vars_apply hwide vars_codomains_subset hw
  rcases hwide.eliminated with rfl | ⟨v, hv, hn⟩
  · refine lex_of_le_of_lt (OrderedSet.size_le_of_subset hsub) ?_
    simp only [TypeSubst.apply_empty, Ty.size]
    omega
  · refine .left _ _ (OrderedSet.size_lt_of_subset_of_not_mem hsub hv fun h => ?_)
    simp only [vars, OrderedSet.mem_union] at h
    exact h.elim (hn b) (hn d)

theorem confined_compose {s t : TypeSubst} {a b c d : Ty} (hs : s.Confined (vars a c))
    (ht : t.Confined (vars (b.apply s) (d.apply s))) :
    (t.compose s).Confined (vars (.arrow a b) (.arrow c d)) := by
  have hwide : s.Confined (vars (.arrow a b) (.arrow c d)) := hs.mono vars_domains_subset
  have hsub : ∀ w ∈ vars (b.apply s) (d.apply s), w ∈ vars (.arrow a b) (.arrow c d) :=
    fun w hw => mem_vars_apply hwide vars_codomains_subset hw
  constructor
  · intro ty w h
    rw [TypeSubst.apply_compose] at h
    rcases ht.introduced _ w h with h | h
    · exact hwide.introduced ty w h
    · exact .inr (hsub w h)
  · rcases hwide.eliminated with rfl | ⟨v, hv, hn⟩
    · rcases ht.eliminated with rfl | ⟨v, hv, hn⟩
      · exact .inl (TypeSubst.compose_empty ∅)
      · exact .inr ⟨v, hsub v hv, fun ty h => hn ty (by simpa [TypeSubst.apply_compose] using h)⟩
    · refine .inr ⟨v, hv, fun ty h => ?_⟩
      rw [TypeSubst.apply_compose] at h
      rcases ht.introduced _ v h with h | h
      · exact hn ty h
      · simp only [vars, OrderedSet.mem_union] at h
        exact h.elim (hn b) (hn d)

/-- Binds a variable to another type, in which it must not occur. -/
def bindVar (v : TyVar) (ty : Ty) :
    Except UnifyError { s : TypeSubst // s.Confined (vars (.var v) ty) } :=
  match h : ty.occurs v with
  | true => .error (.infinite v ty)
  | false => .ok ⟨.singleton v ty, .singleton h⟩

/-- The unifier comes with what ends the recursion. -/
def solve (a b : Ty) : Except UnifyError { s : TypeSubst // s.Confined (vars a b) } :=
  match a, b with
  | .var v, ty =>
    if ty = .var v then .ok ⟨∅, .empty _⟩ else bindVar v ty
  | ty, .var v => do
    let ⟨s, hs⟩ ← bindVar v ty
    return ⟨s, hs.mono fun w hw => by simpa [vars, or_comm] using hw⟩
  | .arrow a b, .arrow c d => do
    let ⟨s, hs⟩ ← solve a c
    let ⟨t, ht⟩ ← solve (b.apply s) (d.apply s)
    return ⟨t.compose s, confined_compose hs ht⟩
  | .base m, .base n =>
    if m = n then .ok ⟨∅, .empty _⟩ else .error (.mismatch (.base m) (.base n))
  | a, b => .error (.mismatch a b)
termination_by ((vars a b).size, a.size + b.size)
decreasing_by
  · exact domains_lt
  · exact codomains_lt hs

end Unification

/-- A most general substitution that makes the two types equal. -/
def unify (a b : Ty) : Except UnifyError TypeSubst := (Unification.solve a b).map (·.1)

theorem unify_var_left (v : TyVar) (ty : Ty) :
    unify (.var v) ty =
      if ty = .var v then .ok ∅
      else if ty.occurs v then .error (.infinite v ty)
      else .ok (.singleton v ty) := by
  rw [unify, Unification.solve]
  by_cases h : ty = .var v
  · rw [if_pos h, if_pos h]
    rfl
  · rw [if_neg h, if_neg h, Unification.bindVar]
    split <;> simp_all [Except.map]

theorem unify_var_right (v : TyVar) {ty : Ty} (h : ∀ w, ty ≠ .var w) :
    unify ty (.var v) =
      if ty.occurs v then .error (.infinite v ty) else .ok (.singleton v ty) := by
  rw [unify, Unification.solve.eq_2 _ _ h, Unification.bindVar]
  split <;> simp_all [Except.map, bind, Except.bind, pure, Except.pure]

theorem unify_arrow (a b c d : Ty) :
    unify (.arrow a b) (.arrow c d) = do
      let s ← unify a c
      let t ← unify (b.apply s) (d.apply s)
      return t.compose s := by
  simp only [unify]
  rw [Unification.solve]
  cases Unification.solve a c with
  | error e => rfl
  | ok s =>
    simp only [Except.map, bind, Except.bind]
    cases Unification.solve (b.apply s.1) (d.apply s.1) <;> rfl

theorem unify_base (m n : String) :
    unify (.base m) (.base n) =
      if m = n then .ok ∅ else .error (.mismatch (.base m) (.base n)) := by
  rw [unify, Unification.solve]
  split <;> rfl

end NamedLambda
