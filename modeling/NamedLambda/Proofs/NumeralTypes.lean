import NamedLambda.Proofs.ChurchArithmetic
import NamedLambda.Proofs.InferenceRun

/-!
# The types of numerals

Inference goes through the applications of a numeral from the inside. The first one makes the
type of `f` an arrow, from the variable of `x` to that of the result, and each later one
identifies the two ends of that arrow with the variable of its own result
(`exists_unify_chain`). So after `k + 1` applications everything is said by one
variable, but for the numeral of one, whose arrow has two (`Infers.iterate`). Numerals from two
on have one principal type (`Context.infer_church`), up to the last one whose applications have
variables of their own.
-/

namespace NamedLambda

theorem Infers.var_mono {Γ : Context} {x : Name} {ty : Ty} (h : Γ.get? x = some (.mono ty))
    (n : TyVar) : Infers Γ (.var x) n ⟨ty, ∅⟩ n := by
  have hvar := Infers.var n h
  rwa [show (Scheme.mono ty).freshImages n = ∅ from rfl, TypeSubst.apply_empty] at hvar

theorem Infers.app_var {Γ : Context} {f : Name} {ty : Ty} {arg : Term} {n m : TyVar}
    {r : Inference} {s : TypeSubst} (hf : Γ.get? f = some (.mono ty)) (harg : Infers Γ arg n r m)
    (hs : unify (ty.apply r.subst) (.arrow r.ty (.var m)) = .ok s) :
    Infers Γ (.app (.var f) arg) n ⟨(Ty.var m).apply s, s.compose r.subst⟩ (m + 1) := by
  have happ := Infers.app (Infers.var_mono hf n) (by rwa [Context.apply_empty]) hs
  rwa [TypeSubst.compose_empty] at happ

theorem apply_singleton_var (v w : TyVar) (ty : Ty) :
    (Ty.var w).apply (.singleton v ty) = if w = v then ty else .var w := by
  rw [Ty.apply, OrderedMap.get?_singleton]
  split <;> rfl

theorem unify_var_var {v w : TyVar} (h : v ≠ w) :
    unify (.var v) (.var w) = .ok (.singleton v (.var w)) := by
  rw [unify_var_left, if_neg (by simpa using h.symm), if_neg (by simpa [Ty.occurs] using h)]

/-- The two ends of an arrow that is applied to its own result become one variable, the new
one. -/
theorem exists_unify_chain {u v w : TyVar} (hu : u ≠ w) (hv : v ≠ w) :
    ∃ s, unify (.arrow (.var u) (.var v)) (.arrow (.var v) (.var w)) = .ok s ∧
      (Ty.var u).apply s = .var w ∧ (Ty.var v).apply s = .var w ∧ (Ty.var w).apply s = .var w := by
  rw [unify_arrow]
  by_cases huv : u = v
  · subst huv
    refine ⟨.singleton u (.var w), ?_, ?_⟩
    · simp [unify_var_left u (.var u), unify_var_var hu, bind, Except.bind, pure, Except.pure,
        TypeSubst.compose_empty]
    · simp [apply_singleton_var]
  · refine ⟨TypeSubst.compose (.singleton v (.var w)) (.singleton u (.var v)), ?_, ?_⟩
    · simp [unify_var_var huv, unify_var_var hv, apply_singleton_var, hu.symm, Ne.symm huv, bind,
        Except.bind, pure, Except.pure]
    · simp [TypeSubst.apply_compose, apply_singleton_var, hu.symm, Ne.symm huv]

/-- The arrow of the function after so many applications. Its ends are one variable from the
second application on. -/
theorem Infers.iterate {Γ : Context} {f x : Name} {a b n : TyVar}
    (hf : Γ.get? f = some (.mono (.var a))) (hx : Γ.get? x = some (.mono (.var b)))
    (hab : a ≠ b) (ha : a < n) (hb : b < n) (k : Nat) :
    ∃ s u, Infers Γ (.iterate f x (k + 1)) n ⟨.var (n + k), s⟩ (n + k + 1) ∧
      (Ty.var a).apply s = .arrow (.var u) (.var (n + k)) ∧ (Ty.var b).apply s = .var u ∧
      u < n + k + 1 ∧ (0 < k → u = n + k) := by
  induction k with
  | zero =>
    have hne : ∀ v, v < n → n ≠ v := fun v hv => (Nat.ne_of_lt hv).symm
    have hs : unify ((Ty.var a).apply ∅) (.arrow (.var b) (.var n)) =
        .ok (.singleton a (.arrow (.var b) (.var n))) := by
      rw [TypeSubst.apply_empty, unify_var_left]
      simp [Ty.occurs, hab, Nat.ne_of_lt ha]
    have happ := Infers.app_var hf (Infers.var_mono hx n) hs
    rw [apply_singleton_var, if_neg (hne a ha), TypeSubst.compose_empty] at happ
    refine ⟨_, b, happ, ?_, ?_, ?_, ?_⟩
    · simp [apply_singleton_var]
    · simp [apply_singleton_var, hab.symm]
    · exact Nat.lt_succ_of_lt hb
    · simp
  | succ k ih =>
    obtain ⟨s, u, hinfers, has, hbs, hu, -⟩ := ih
    obtain ⟨s', hs', hus, hvs, hws⟩ := @exists_unify_chain u (n + k) (n + k + 1)
      (Nat.ne_of_lt hu) (Nat.ne_of_lt (Nat.lt_succ_self _))
    have happ := Infers.app_var hf hinfers (by rw [has]; exact hs')
    rw [hws] at happ
    refine ⟨_, n + k + 1, happ, ?_, ?_, ?_, ?_⟩
    · rw [TypeSubst.apply_compose, has, Ty.apply, hus, hvs]
      rfl
    · rw [TypeSubst.apply_compose, hbs, hus]
    · exact Nat.lt_succ_self _
    · exact fun _ => rfl

theorem Infers.church {n : Nat} (h : 2 ≤ n) :
    ∃ s, Infers ∅ (.church n) 0 ⟨(Ty.var (n + 1)).numeral, s⟩ (n + 2) := by
  obtain ⟨k, rfl⟩ : ∃ k, n = k + 2 := ⟨n - 2, by omega⟩
  let Γ := ((∅ : Context).extend "f" (.mono (.var 0))).extend "x" (.mono (.var 1))
  have hf : Γ.get? "f" = some (.mono (.var 0)) := by decide
  have hx : Γ.get? "x" = some (.mono (.var 1)) := by decide
  obtain ⟨s, u, hinfers, hfs, hxs, -, hu⟩ :=
    @Infers.iterate Γ "f" "x" 0 1 2 hf hx (by decide) (by decide) (by decide) (k + 1)
  obtain rfl : u = 2 + (k + 1) := hu (Nat.succ_pos k)
  have habs := Infers.abs (Infers.abs hinfers)
  rw [hfs, hxs] at habs
  rw [show k + 2 + 1 = 2 + (k + 1) by omega, show k + 2 + 2 = 2 + (k + 1) + 1 by omega]
  exact ⟨s, habs⟩

theorem Ty.canonical_numeral (v : TyVar) : (Ty.var v).numeral.canonical = (Ty.var 0).numeral := by
  simp [numeral, canonical, firstOccurrences, mapVars]

theorem Context.exists_infer_church {n : Nat} (h : 2 ≤ n) (room : n + 2 < 2 ^ 32) :
    ∃ r, infer ∅ (.church n) = .ok r ∧ r.principal = (Ty.var 0).numeral := by
  obtain ⟨s, hinfers⟩ := Infers.church h
  have hlast : n + 2 ≤ TyVar.last := Nat.le_of_lt_succ room
  exact ⟨_, hinfers.infer_of_le hlast, Ty.canonical_numeral (n + 1)⟩

/-- Numerals from two on are typed, and all with the principal type of what iterates a function,
as long as there are type variables for all of their applications. -/
theorem Context.infer_church {n : Nat} (h : 2 ≤ n) (room : n + 2 < 2 ^ 32) :
    ∃ r, infer ∅ (.church n) = .ok r ∧ r.principal = (Ty.var 0).numeral ∧
      r.principal.text = "(a -> a) -> a -> a" ∧
      ∀ m, 2 ≤ m → m + 2 < 2 ^ 32 →
        ∃ r', infer ∅ (.church m) = .ok r' ∧ r'.principal = r.principal := by
  obtain ⟨r, hr, hprincipal⟩ := exists_infer_church h room
  refine ⟨r, hr, hprincipal, ?_, fun m hm hroom => ?_⟩
  · rw [hprincipal]
    decide
  · obtain ⟨r', hr', hsame⟩ := exists_infer_church hm hroom
    exact ⟨r', hr', hsame.trans hprincipal.symm⟩

theorem Context.infer_church_three :
    2 ≤ 3 ∧ 3 + 2 < 2 ^ 32 ∧
      ∃ r, infer ∅ (.church 3) = .ok r ∧ r.principal = (Ty.var 0).numeral ∧
        r.principal.text = "(a -> a) -> a -> a" ∧
        ∃ r', infer ∅ (.church 2) = .ok r' ∧ r'.principal = r.principal := by
  obtain ⟨r, hr, hprincipal, htext, hsame⟩ := @infer_church 3 (by decide) (by decide)
  exact ⟨by decide, by decide, r, hr, hprincipal, htext, hsame 2 (by decide) (by decide)⟩

/-- The numeral of one does not need the two ends of the arrow to be the same. -/
example : (Context.infer ∅ (.church 1)).map (·.principal.text) = .ok "(a -> b) -> a -> b" := by
  cbv

end NamedLambda
