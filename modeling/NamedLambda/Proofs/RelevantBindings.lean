import NamedLambda.Proofs.AlphaInference

/-!
# The bindings that matter to inference

What is inferred for a term depends on the bindings of the names free in it, and on
nothing else in the context (`Inferencer.infer_relevant`). Other bindings and earlier
runs move the counter, so that new variables have larger numbers; answers are compared
up to that (`SameAnswer`). A `let` goes on with one counter where a definition and a
run after it start again, so the two come to the same answer (`Context.inferLet_define`).
-/

namespace NamedLambda

namespace TypeError

/-- The same fault in one term. Types are compared together, up to the numbering of
the variables that they share. -/
inductive SameFault : TypeError → TypeError → Prop
  | unbound (x : Name) : SameFault (.unbound x) (.unbound x)
  | infinite {v w : TyVar} {a b : Ty} (t : Term) :
      (Ty.arrow (.var v) a).canonical = (Ty.arrow (.var w) b).canonical →
      SameFault (.infinite v a t) (.infinite w b t)
  | mismatch {a b c d : Ty} (t : Term) : (Ty.arrow a b).canonical = (Ty.arrow c d).canonical →
      SameFault (.mismatch a b t) (.mismatch c d t)

theorem SameFault.symm {e e' : TypeError} (h : e.SameFault e') : e'.SameFault e := by
  cases h with
  | unbound x => exact .unbound x
  | infinite t h => exact .infinite t h.symm
  | mismatch t h => exact .mismatch t h.symm

theorem sameFault_mapVars {f : TyVar → TyVar} (hf : f.Injective) (e : TypeError) :
    e.SameFault (e.mapVars f) := by
  cases e with
  | unbound x => exact .unbound x
  | infinite v ty t =>
    exact .infinite t (@Ty.canonical_mapVars f (.arrow (.var v) ty) hf.injOn).symm
  | mismatch a b t => exact .mismatch t (@Ty.canonical_mapVars f (.arrow a b) hf.injOn).symm

end TypeError

/-- Two successes with one principal type, or two failures with the same fault. -/
inductive SameAnswer : Except TypeError Inference → Except TypeError Inference → Prop
  | ok {r r' : Inference} : r.principal = r'.principal → SameAnswer (.ok r) (.ok r')
  | error {e e' : TypeError} : e.SameFault e' → SameAnswer (.error e) (.error e')

namespace SameAnswer

variable {a b : Except TypeError Inference}

theorem symm (h : SameAnswer a b) : SameAnswer b a := by
  cases h with
  | ok h => exact .ok h.symm
  | error h => exact .error h.symm

theorem map {g : Inference → Inference} (hg : ∀ r, (g r).ty = r.ty) (h : SameAnswer a b) :
    SameAnswer a (b.map g) := by
  cases h with
  | @ok r r' h => exact .ok (h.trans (congrArg Ty.canonical (hg r').symm))
  | error h => exact .error h

theorem ok_iff (h : SameAnswer a b) : (∃ r, a = .ok r) ↔ ∃ r, b = .ok r := by
  cases h with
  | ok h => simp
  | error h => simp

end SameAnswer

namespace Context.Below

variable {Γ : Context} {n m : TyVar}

theorem next_reserve_le (h : Γ.Below n) {st : Inferencer} (hst : st.next ≤ n) :
    (st.reserve Γ).next ≤ n := by
  unfold Inferencer.reserve
  cases hmax : Γ.maxVar? with
  | none => exact hst
  | some v =>
    obtain ⟨σ, hσ, hv⟩ := List.mem_filterMap.1 (List.max?_mem hmax)
    obtain ⟨x, hx⟩ := OrderedMap.mem_values.1 hσ
    have hlt : v < n := h x σ hx v (List.mem_append.1 (List.max?_mem hv))
    exact max_le hst (Nat.le_trans (Nat.min_le_left ..) hlt)

theorem apply (h : Γ.Below n) {s : TypeSubst} (hs : s.Solved (Γ.Reach n m)) (hnm : n ≤ m) :
    (Γ.apply s).Below m := by
  intro x σ' hx v hv
  rw [get?_apply, Option.map_eq_some_iff] at hx
  obtain ⟨σ, hσ, rfl⟩ := hx
  by_cases hq : v ∈ σ.vars
  · exact Nat.lt_of_lt_of_le (h x σ hσ v (.inr hq)) hnm
  · refine lt_of_mem_freeVars_apply hs h.lt_of_mem_freeVars hnm v ?_
    exact mem_freeVars_iff.2 ⟨x, σ.apply s, by simp [hσ],
      Scheme.mem_freeVars.2 ⟨hv.resolve_right hq, hq⟩⟩

theorem generalize (h : Γ.Below n) (name : Name) {ty : Ty} (hty : ∀ v ∈ ty.freeVars, v < n) :
    (Γ.extend name (Γ.generalize ty)).Below n := by
  intro x σ hx v hv
  rw [get?_extend] at hx
  split at hx
  · obtain rfl := Option.some.inj hx
    exact hty v (hv.elim id fun hq => (mem_vars_generalize.1 hq).1)
  · exact h x σ hx v hv

end Context.Below

namespace Inferencer

def outcome {α : Type} (m : Infer α) (st : Inferencer) : Except TypeError α :=
  match m st with
  | .ok a _ => .ok a
  | .error e _ => .error e

theorem outcome_bind_pure {α β : Type} (m : Infer α) (g : α → β) (st : Inferencer) :
    outcome (m >>= fun a => pure (g a)) st = (outcome m st).map g := by
  simp only [outcome, Bind.bind, EStateM.bind]
  cases m st <;> rfl

theorem outcome_infer (Γ : Context) (t : Term) (st : Inferencer) :
    outcome (infer Γ t) st = outcome (inferTerm Γ t) (st.reserve Γ) := rfl

/-- A run with a larger counter gives the same, if the contexts agree on what the term
mentions. -/
theorem sameAnswer_of_le {Γ Δ : Context} {t : Term}
    (agree : ∀ x, t.occursFree x = true → Γ.get? x = Δ.get? x) {st st' : Inferencer}
    (below : Γ.Below st.next) (hle : st.next ≤ st'.next)
    (room : Unsaturated (inferTerm Δ t) st') :
    SameAnswer (outcome (inferTerm Γ t) st) (outcome (inferTerm Δ t) st') := by
  let ρ := Renumbering.shift st.next (st'.next - st.next)
  have hΓ : Γ.Corresponds ρ.rename [] [] t Δ := by
    refine .of_agree fun x hx => ?_
    rw [← agree x hx]
    cases hσ : Γ.get? x with
    | none => rfl
    | some σ =>
      -- only numbers from the first counter on are changed, and no scheme has one
      have hfix : σ.mapVars ρ.rename = σ :=
        Scheme.mapVars_eq_self fun v hv => TyVar.raise_of_lt _ (below x σ hσ v hv)
      exact congrArg some hfix.symm
  have hstep : ρ.inStep st.next st'.next := ⟨Nat.le_refl _, (Nat.add_sub_cancel' hle).symm⟩
  have hrun := Couples.inferTerm (Term.alphaRel_iff.2 rfl) hΓ st st' hstep room
  unfold outcome
  generalize inferTerm Γ t st = a, inferTerm Δ t st' = b at hrun
  cases hrun with
  | ok r _ => exact .ok (Ty.canonical_mapVars ρ.injective.injOn).symm
  | @error e e' _ _ he _ =>
    obtain rfl := he.eq_of_self
    exact .error (TypeError.sameFault_mapVars ρ.injective e)

/-- Neither bindings of names that the term does not mention nor earlier runs change
what is inferred, as long as there are numbers left for type variables. -/
theorem infer_relevant {Γ Δ : Context} {t : Term}
    (agree : ∀ x, t.occursFree x = true → Γ.get? x = Δ.get? x) {st st' : Inferencer}
    (room : Unsaturated (infer Γ t) st) (room' : Unsaturated (infer Δ t) st') :
    SameAnswer (outcome (infer Γ t) st) (outcome (infer Δ t) st') := by
  rw [outcome_infer, outcome_infer]
  have below := Context.below_reserve (next_reserve_lt_of_infer room)
  have below' := Context.below_reserve (next_reserve_lt_of_infer room')
  rcases Nat.le_total (st.reserve Γ).next (st'.reserve Δ).next with hle | hle
  · exact sameAnswer_of_le agree below hle room'.of_infer
  · exact (sameAnswer_of_le (fun x hx => (agree x hx).symm) below' hle room.of_infer).symm

end Inferencer

/-- One binding more, for a name that other terms do not mention. -/
def Context.idXAndK : Context := idAndX.extend "k" (.mono (.arrow (.var 9) (.var 30)))

/-- The second runs have numbers from 31 on, and the last of them starts where a
failure has left the counter. -/
theorem Inferencer.infer_relevant_idXAndK :
    ∃ st, infer .idXAndK (.selfApply "y") .new =
        .error (.infinite 31 (.arrow (.var 31) (.var 32)) (.app (.var "y") (.var "y"))) st ∧
      SameAnswer (outcome (infer .idAndX (.selfApply "y")) .new)
        (outcome (infer .idXAndK (.selfApply "y")) .new) ∧
      SameAnswer (outcome (infer .idAndX (.passToX "y")) .new)
        (outcome (infer .idXAndK (.passToX "y")) st) := by
  have agree (t : Term) (ht : t.occursFree "k" = false) (x : Name) (hx : t.occursFree x = true) :
      Context.idAndX.get? x = Context.idXAndK.get? x := by
    have hne : x ≠ "k" := by
      rintro rfl
      exact absurd hx (by simp [ht])
    rw [Context.idXAndK, Context.get?_extend, if_neg hne]
  refine ⟨_, by cbv, ?_, ?_⟩
  · exact infer_relevant (agree _ (by decide)) (by cbv) (by cbv)
  · exact infer_relevant (agree _ (by decide)) (by cbv) (by cbv)

namespace Context

open Inferencer

theorem answer_eq_outcome (Γ : Context) (m : Infer Inference) :
    Γ.answer m = outcome m (.forContext Γ) := by
  unfold answer outcome EStateM.run
  cases m (.forContext Γ) <;> rfl

theorem infer_eq_outcome (Γ : Context) (t : Term) :
    Γ.infer t = outcome (inferTerm Γ t) ((forContext Γ).reserve Γ) := by
  rw [infer, answer_eq_outcome, outcome_infer]

theorem sameAnswer_infer {Γ : Context} {t : Term} {st : Inferencer} (below : Γ.Below st.next)
    (room : Unsaturated (inferTerm Γ t) st) :
    SameAnswer (Γ.infer t) (outcome (inferTerm Γ t) st) := by
  have hle : ((forContext Γ).reserve Γ).next ≤ st.next :=
    below.next_reserve_le (below.next_reserve_le (Nat.zero_le _))
  have hlast := (Advances.inferTerm Γ t).next_lt room
  rw [infer_eq_outcome]
  exact sameAnswer_of_le (fun _ _ => rfl) (below_reserve (Nat.lt_of_le_of_lt hle hlast)) hle room

/-- The context in which the name stands for what was inferred. -/
def withInferred (Γ : Context) (name : Name) (r : Inference) : Context :=
  (Γ.apply r.subst).extend name ((Γ.apply r.subst).generalize r.ty)

theorem define_eq (Γ : Context) (name : Name) (t : Term) :
    Γ.define name t = (Γ.infer t).map (Γ.withInferred name) := by
  unfold define
  cases Γ.infer t <;> rfl

theorem below_withInferred {Γ : Context} {t : Term} {st st' : Inferencer} {r : Inference}
    (h : inferTerm Γ t (st.reserve Γ) = .ok r st') (room : st'.next < TyVar.last) (name : Name) :
    (Γ.withInferred name r).Below st'.next := by
  have hinfers := Infers.of_run h room
  have below := below_reserve (Nat.lt_of_le_of_lt hinfers.le room)
  have hr := hinfers.settled below.lt_of_mem_freeVars
  exact (below.apply hr.subst hinfers.le).generalize name
    (hr.lt_of_mem_freeVars below.lt_of_mem_freeVars hinfers.le)

section Let

variable {Γ : Context} {bound : Term} {st : Inferencer} (name : Name) (body : Term)

theorem inferLet_of_error {e : TypeError}
    (h : inferTerm Γ bound ((forContext Γ).reserve Γ) = .error e st) :
    Γ.inferLet name bound body = .error e := by
  rw [inferLet, answer_eq_outcome, Inferencer.inferLet, outcome, bind_of_ok (reserve_run Γ _)]
  simp only [Bind.bind, EStateM.bind, h]

theorem inferLet_of_ok {r : Inference}
    (h : inferTerm Γ bound ((forContext Γ).reserve Γ) = .ok r st) :
    Γ.inferLet name bound body =
      (outcome (inferTerm (Γ.withInferred name r) body) st).map
        fun r' => ⟨r'.ty, r'.subst.compose r.subst⟩ := by
  rw [← outcome_bind_pure, inferLet, answer_eq_outcome, Inferencer.inferLet, outcome,
    bind_of_ok (reserve_run Γ _), bind_of_ok h]
  rfl

end Let

/-- Inference of `let name = bound in body` agrees with a definition of the name and
inference of the body after it. -/
theorem inferLet_define {Γ : Context} {name : Name} {bound body : Term}
    (room : Unsaturated (Inferencer.inferLet Γ name bound body) (.forContext Γ)) :
    ((∃ r, Γ.inferLet name bound body = .ok r) ↔
        ∃ Δ r, Γ.define name bound = .ok Δ ∧ Δ.infer body = .ok r) ∧
      (∀ e, Γ.define name bound = .error e → Γ.inferLet name bound body = .error e) ∧
      ∀ Δ, Γ.define name bound = .ok Δ →
        SameAnswer (Γ.inferLet name bound body) (Δ.infer body) := by
  rw [define_eq, infer_eq_outcome, outcome]
  cases hrun : inferTerm Γ bound ((forContext Γ).reserve Γ) with
  | error e st => simp [inferLet_of_error name body hrun, Except.map]
  | ok r st =>
    have hroom := room.of_letBody hrun
    have hlast := (Advances.inferTerm _ body).next_lt hroom
    have hsame : SameAnswer (Γ.inferLet name bound body) ((Γ.withInferred name r).infer body) := by
      have hbody := sameAnswer_infer (below_withInferred hrun hlast name) hroom
      rw [inferLet_of_ok name body hrun]
      exact .symm (hbody.map fun _ => rfl)
    simp [Except.map, hsame, hsame.ok_iff]

end Context

def Term.idId : Term := .app (.var "id") (.var "id")

def Term.throughK : Term := .abs "y" (.app (.var "x") (.app (.var "k") (.var "y")))

/-- A run takes a number for the bound term `id id` that is free again after a
definition. The bound term `λy. y y` cannot be defined. -/
theorem Context.inferLet_define_idAndX :
    (∃ Δ r r', idAndX.define "k" .idId = .ok Δ ∧
      idAndX.inferLet "k" .idId .throughK = .ok r ∧ Δ.infer .throughK = .ok r' ∧
      r.ty = .arrow (.var 7) (.var 8) ∧ r'.ty = .arrow (.var 6) (.var 7) ∧
      r.principal = r'.principal) ∧
    idAndX.inferLet "k" (.selfApply "y") (.var "k") =
      .error (.infinite 2 (.arrow (.var 2) (.var 3)) (.app (.var "y") (.var "y"))) := by
  constructor
  · have hrun : ∃ Δ r r', idAndX.define "k" .idId = .ok Δ ∧
        idAndX.inferLet "k" .idId .throughK = .ok r ∧ Δ.infer .throughK = .ok r' ∧
        r.ty = .arrow (.var 7) (.var 8) ∧ r'.ty = .arrow (.var 6) (.var 7) :=
      ⟨_, _, _, by cbv, by cbv, by cbv, rfl, rfl⟩
    obtain ⟨Δ, r, r', hΔ, hr, hr', hty, hty'⟩ := hrun
    obtain ⟨_, _, same⟩ := @inferLet_define idAndX "k" .idId .throughK (by cbv)
    have hsame := same Δ hΔ
    rw [hr, hr'] at hsame
    cases hsame with
    | ok h => exact ⟨Δ, r, r', hΔ, hr, hr', hty, hty', h⟩
  · obtain ⟨_, fails, _⟩ := @inferLet_define idAndX "k" (.selfApply "y") (.var "k") (by cbv)
    exact fails _ (by cbv)

end NamedLambda
