import NamedLambda.Proofs.MostGeneralUnifier

/-!
# The recursion of unification

Of two arrows the codomains are unified under what the domains gave, and there they may be far
larger than they were. But unless the domains gave nothing, a variable of the arrows is gone from
them, and none has come in (`Unification.codomains_descend`). So each call has fewer variables, or
no more of them and smaller types (`Unification.Calls.weight_lt`), and no chain of calls goes on
for ever. `Unification.unifyWithin` is the recursion by itself, given up at a bound on the depth of
its calls: for all types some bound is enough (`Unification.exists_unifyWithin`).
-/

namespace NamedLambda.Unification

/-- The number of variables of a pair of types, and after it the size of the two. -/
def weight (p : Ty × Ty) : Nat × Nat := ((vars p.1 p.2).size, p.1.size + p.2.size)

/-- To unify the first pair, the second one is unified in its turn. -/
inductive Calls : Ty × Ty → Ty × Ty → Prop
  | domains (a b c d : Ty) : Calls (.arrow a b, .arrow c d) (a, c)
  | codomains {a c : Ty} {s : TypeSubst} (b d : Ty) : unify a c = .ok s →
      Calls (.arrow a b, .arrow c d) (b.apply s, d.apply s)

/-- What unifies the domains brings no variable into the codomains, and takes one from them, if it
does anything. -/
theorem codomains_descend {a c : Ty} {s : TypeSubst} (h : unify a c = .ok s) (b d : Ty) :
    s = ∅ ∨ vars (b.apply s) (d.apply s) ⊆ vars (.arrow a b) (.arrow c d) ∧
      ∃ v ∈ vars (.arrow a b) (.arrow c d), v ∉ vars (b.apply s) (d.apply s) := by
  have confined : s.Confined (vars (.arrow a b) (.arrow c d)) :=
    (confined_of_unify h).mono vars_domains_subset
  refine confined.eliminated.imp_right fun ⟨v, hv, gone⟩ => ⟨fun w hw => ?_, v, hv, fun hmem => ?_⟩
  · exact mem_vars_apply confined vars_codomains_subset hw
  · exact (OrderedSet.mem_union.1 hmem).elim (gone b) (gone d)

theorem Calls.weight_lt {p q : Ty × Ty} (h : Calls p q) :
    Prod.Lex (· < ·) (· < ·) (weight q) (weight p) := by
  cases h with
  | domains a b c d => exact domains_lt
  | codomains b d hs => exact codomains_lt (confined_of_unify hs)

theorem wellFounded_calls : WellFounded fun q p => Calls p q :=
  Subrelation.wf Calls.weight_lt (InvImage.wf weight WellFoundedRelation.wf)

/-- The recursion of unification where calls are nested to a depth of at most `n`. -/
def unifyWithin (n : Nat) (a b : Ty) : Option (Except UnifyError TypeSubst) :=
  match n, a, b with
  | 0, _, _ => none
  | _ + 1, .var v, ty => some <|
    if ty = .var v then .ok ∅
    else if ty.occurs v then .error (.infinite v ty)
    else .ok (.singleton v ty)
  | _ + 1, ty, .var v => some <|
    if ty.occurs v then .error (.infinite v ty) else .ok (.singleton v ty)
  | n + 1, .arrow a b, .arrow c d => do
    match ← unifyWithin n a c with
    | .error e => return .error e
    | .ok s => return (← unifyWithin n (b.apply s) (d.apply s)).map (·.compose s)
  | _ + 1, .base m, .base n => some <|
    if m = n then .ok ∅ else .error (.mismatch (.base m) (.base n))
  | _ + 1, a, b => some (.error (.mismatch a b))

theorem unifyWithin_of_not_calls {a b : Ty} (h : ∀ q, ¬ Calls (a, b) q) (n : Nat) :
    unifyWithin (n + 1) a b = some (unify a b) := by
  match a, b with
  | .var v, ty => rw [unifyWithin, unify_var_left]
  | .base m, .var v => rw [unifyWithin, unify_var_right v] <;> simp
  | .arrow a b, .var v => rw [unifyWithin, unify_var_right v] <;> simp
  | .base m, .base k => rw [unifyWithin, unify_base]
  | .base m, .arrow c d => rw [unifyWithin, unify_base_arrow] <;> simp
  | .arrow a b, .base k => rw [unifyWithin, unify_arrow_base] <;> simp
  | .arrow a b, .arrow c d => exact absurd (.domains a b c d) (h _)

theorem unifyWithin_arrow_of_error {n : Nat} {a c : Ty} {e : UnifyError}
    (hdom : unifyWithin n a c = some (unify a c)) (he : unify a c = .error e) (b d : Ty) :
    unifyWithin (n + 1) (.arrow a b) (.arrow c d) = some (unify (.arrow a b) (.arrow c d)) := by
  rw [unifyWithin, hdom, unify_arrow, he]
  rfl

theorem unifyWithin_arrow_of_ok {n : Nat} {a b c d : Ty} {s : TypeSubst}
    (hdom : unifyWithin n a c = some (unify a c)) (hs : unify a c = .ok s)
    (hcod : unifyWithin n (b.apply s) (d.apply s) = some (unify (b.apply s) (d.apply s))) :
    unifyWithin (n + 1) (.arrow a b) (.arrow c d) = some (unify (.arrow a b) (.arrow c d)) := by
  rw [unifyWithin, hdom, unify_arrow, hs]
  simp only [Option.bind_eq_bind, Option.bind_some, hcod]
  rfl

theorem exists_unifyWithin (p : Ty × Ty) :
    ∃ n, ∀ m, n ≤ m → unifyWithin m p.1 p.2 = some (unify p.1 p.2) := by
  induction p using wellFounded_calls.induction with
  | h p ih =>
  obtain ⟨a, b⟩ := p
  by_cases h : ∃ q, Calls (a, b) q
  · obtain ⟨a, b, c, d, rfl, rfl⟩ : ∃ a₁ b₁ c d, a = .arrow a₁ b₁ ∧ b = .arrow c d := by
      obtain ⟨q, hq⟩ := h
      cases hq <;> exact ⟨_, _, _, _, rfl, rfl⟩
    obtain ⟨n₁, first⟩ := ih (a, c) (.domains a b c d)
    cases hs : unify a c with
    | error e =>
      refine ⟨n₁ + 1, fun m hm => ?_⟩
      obtain ⟨k, rfl⟩ := Nat.exists_eq_add_of_le' (Nat.le_of_add_left_le hm)
      exact unifyWithin_arrow_of_error (first k (by omega)) hs b d
    | ok s =>
      obtain ⟨n₂, second⟩ := ih (b.apply s, d.apply s) (.codomains b d hs)
      refine ⟨max n₁ n₂ + 1, fun m hm => ?_⟩
      obtain ⟨k, rfl⟩ := Nat.exists_eq_add_of_le' (Nat.le_of_add_left_le hm)
      exact unifyWithin_arrow_of_ok (first k (by omega)) hs (second k (by omega))
  · refine ⟨1, fun m hm => ?_⟩
    obtain ⟨k, rfl⟩ := Nat.exists_eq_add_of_le' hm
    exact unifyWithin_of_not_calls (not_exists.1 h) k

end NamedLambda.Unification

namespace NamedLambda

open Unification

/-- A call of unification on codomains has strictly fewer variables than the arrows it is made for,
unless nothing was put in. So in every call the number of variables goes down, or it stays and the
size goes down, and the recursion ends for all types. -/
theorem unify_descends :
    (∀ a b c d s, unify a c = .ok s →
      s = ∅ ∨ vars (b.apply s) (d.apply s) ⊆ vars (.arrow a b) (.arrow c d) ∧
        ∃ v ∈ vars (.arrow a b) (.arrow c d), v ∉ vars (b.apply s) (d.apply s)) ∧
    (∀ p q, Calls p q → Prod.Lex (· < ·) (· < ·) (weight q) (weight p)) ∧
    ∀ a b, ∃ n, ∀ m, n ≤ m → unifyWithin m a b = some (unify a b) :=
  ⟨fun _ b _ d _ h => codomains_descend h b d, fun _ _ => Calls.weight_lt,
    fun a b => exists_unifyWithin (a, b)⟩

/-- The domains of `a -> a -> a` and `((b -> b) -> b -> b) -> c` put a type of seven nodes in for
`a`, so the codomains are larger than the arrows were, but `a` is gone. -/
theorem unify_descends_growing :
    let dom := Ty.arrow (.arrow (.var 1) (.var 1)) (.arrow (.var 1) (.var 1))
    let s := OrderedMap.singleton (0 : TyVar) dom
    let p := (Ty.arrow (.var 0) (.arrow (.var 0) (.var 0)), Ty.arrow dom (.var 2))
    let q := ((Ty.arrow (.var 0) (.var 0)).apply s, (Ty.var 2).apply s)
    unify (.var 0) dom = .ok s ∧ weight p = (3, 14) ∧ weight q = (2, 16) ∧
      Prod.Lex (· < ·) (· < ·) (weight q) (weight p) ∧ ∃ v ∈ vars p.1 p.2, v ∉ vars q.1 q.2 := by
  intro dom s p q
  have hs : unify (.var 0) dom = .ok s := by
    rw [unify_var_left, if_neg (by decide), if_neg (by decide)]
  obtain ⟨strict, decreases, -⟩ := unify_descends
  have hstrict := strict (.var 0) (.arrow (.var 0) (.var 0)) dom (.var 2) s hs
  have hdecreases := decreases p q (.codomains (.arrow (.var 0) (.var 0)) (.var 2) hs)
  exact ⟨hs, by decide, by decide, hdecreases, (hstrict.resolve_left (by decide)).2⟩

end NamedLambda
