import Mathlib
import NamedLambda.Proofs.MostGeneralUnifier
import NamedLambda.Proofs.TypingSubstitution
import NamedLambda.Typing.Inference

/-!
# Runs of type inference

`Infers` says what inference does to types, contexts and the counter, with a
counter that has no last number. A run whose counter stays below `TyVar.last`
is one of these (`Infers.of_run`, `Infers.run_eq`), so what is proved of `Infers`
holds of the runs.
-/

namespace NamedLambda

namespace TyVar

theorem next_eq {v : TyVar} (h : v.next < last) : v.next = v + 1 := by
  simp only [next, last] at *
  grind

theorem next_of_lt {v : TyVar} (h : v < last) : v.next = v + 1 := Nat.min_eq_left h

end TyVar

namespace Inferencer

theorem bind_eq_ok {α β : Type} {m : Infer α} {f : α → Infer β} {st st'' : Inferencer} {b : β} :
    (m >>= f) st = .ok b st'' ↔ ∃ a st', m st = .ok a st' ∧ f a st' = .ok b st'' := by
  simp only [bind, EStateM.bind]
  cases m st with
  | ok a st' => exact ⟨fun h => ⟨a, st', rfl, h⟩, fun ⟨_, _, hm, h⟩ => by cases hm; exact h⟩
  | error e st' => simp

theorem bind_of_ok {α β : Type} {m : Infer α} {st st' : Inferencer} {a : α}
    (h : m st = .ok a st') (f : α → Infer β) : (m >>= f) st = f a st' := by
  simp only [bind, EStateM.bind, h]

/-- The counter after a run, be it with an answer or with an error. -/
def finalNext {α : Type} (m : Infer α) (st : Inferencer) : TyVar :=
  match m st with
  | .ok _ st' => st'.next
  | .error _ st' => st'.next

/-- The counter does not come to the last number. It never goes back on the way,
so it is enough to look at the end. -/
def Unsaturated {α : Type} (m : Infer α) (st : Inferencer) : Prop := finalNext m st < TyVar.last

theorem finalNext_of_ok {α : Type} {m : Infer α} {st st' : Inferencer} {a : α}
    (h : m st = .ok a st') : finalNext m st = st'.next := by
  simp only [finalNext, h]

theorem unsaturated_iff_of_ok {α : Type} {m : Infer α} {st st' : Inferencer} {a : α}
    (h : m st = .ok a st') : Unsaturated m st ↔ st'.next < TyVar.last := by
  rw [Unsaturated, finalNext_of_ok h]

/-- The part of `instantiate` that takes new variables. -/
def imagesOf (vars : List TyVar) : Infer (List (TyVar × Ty)) :=
  vars.mapM fun v => return (v, ← fresh)

/-- The part of `inferTerm` that types an application whose sides are typed. -/
def unifySides (t : Term) (r₁ r₂ : Inference) : Infer Inference := do
  let result ← fresh
  match unify (r₁.ty.apply r₂.subst) (.arrow r₂.ty result) with
  | .error e => throw (.ofUnify t e)
  | .ok s =>
    record (.unified t s)
    return ⟨result.apply s, (s.compose r₂.subst).compose r₁.subst⟩

theorem inferTerm_app (Γ : Context) (func arg : Term) :
    inferTerm Γ (.app func arg) = inferTerm Γ func >>= fun r₁ =>
      inferTerm (Γ.apply r₁.subst) arg >>= unifySides (.app func arg) r₁ := by
  rw [inferTerm]
  rfl

theorem fresh_run (st : Inferencer) :
    fresh st = .ok (.var st.next) { st with next := st.next.next } := rfl

theorem unifySides_run (t : Term) (r₁ r₂ : Inference) (st : Inferencer) :
    unifySides t r₁ r₂ st =
      match unify (r₁.ty.apply r₂.subst) (.arrow r₂.ty (.var st.next)) with
      | .error e => .error (.ofUnify t e) { st with next := st.next.next }
      | .ok s => .ok ⟨(Ty.var st.next).apply s, (s.compose r₂.subst).compose r₁.subst⟩
          ⟨st.next.next, .unified t s :: st.log⟩ := by
  rw [unifySides, bind_of_ok (fresh_run st)]
  cases unify (r₁.ty.apply r₂.subst) (.arrow r₂.ty (.var st.next)) <;> rfl

/-- The counter goes back at most from beyond the last number. -/
def Advances {α : Type} (m : Infer α) : Prop :=
  ∀ st, min st.next TyVar.last ≤ finalNext m st

namespace Advances

theorem pure {α : Type} (a : α) : Advances (pure a : Infer α) := fun _ => Nat.min_le_left ..

theorem throw {α : Type} (e : TypeError) : Advances (throw e : Infer α) :=
  fun _ => Nat.min_le_left ..

theorem record (event : Event) : Advances (record event) := fun _ => Nat.min_le_left ..

theorem fresh : Advances fresh := fun st => by
  show min st.next TyVar.last ≤ st.next.next
  simp only [TyVar.next, TyVar.last]
  grind

theorem bind {α β : Type} {m : Infer α} {f : α → Infer β} (hm : Advances m)
    (hf : ∀ a, Advances (f a)) : Advances (m >>= f) := by
  intro st
  have first := hm st
  simp only [finalNext, Bind.bind, EStateM.bind] at first ⊢
  cases hst : m st with
  | error e st' => simpa [hst] using first
  | ok a st' =>
    have second := hf a st'
    simp only [hst] at first
    simp only [finalNext] at second
    exact Nat.le_trans (Nat.le_min.2 ⟨first, Nat.min_le_right ..⟩) second

theorem imagesOf (vars : List TyVar) : Advances (imagesOf vars) := by
  rw [Inferencer.imagesOf]
  induction vars with
  | nil => exact pure _
  | cons v vars ih =>
    rw [List.mapM_cons]
    exact bind (bind fresh fun _ => pure _) fun _ => bind ih fun _ => pure _

theorem instantiate (σ : Scheme) : Advances (instantiate σ) :=
  bind (imagesOf σ.vars) fun _ => pure _

theorem unifySides (t : Term) (r₁ r₂ : Inference) : Advances (unifySides t r₁ r₂) := by
  refine bind fresh fun result => ?_
  split
  · exact throw _
  · exact bind (record _) fun _ => pure _

theorem inferTerm (Γ : Context) (t : Term) : Advances (inferTerm Γ t) := by
  induction t generalizing Γ with
  | var x =>
    rw [Inferencer.inferTerm]
    split
    · exact throw _
    · exact bind (instantiate _) fun _ => bind (record _) fun _ => pure _
  | abs p body ih =>
    rw [Inferencer.inferTerm]
    exact bind fresh fun _ => bind (ih _) fun _ => pure _
  | app func arg ihf iha =>
    rw [inferTerm_app]
    exact bind (ihf Γ) fun r₁ => bind (iha _) fun r₂ => unifySides _ r₁ r₂

/-- What comes before the end of a run with room in the counter has room too. -/
theorem next_le {α : Type} {m : Infer α} (h : Advances m) {st : Inferencer}
    (room : Unsaturated m st) : st.next ≤ finalNext m st := by
  have := h st
  simp only [Unsaturated] at room
  grind

theorem next_lt {α : Type} {m : Infer α} (h : Advances m) {st : Inferencer}
    (room : Unsaturated m st) : st.next < TyVar.last :=
  Nat.lt_of_le_of_lt (h.next_le room) room

theorem le_of_ok {α : Type} {m : Infer α} (hm : Advances m) {st st' : Inferencer} {a : α}
    (h : m st = .ok a st') (room : st'.next < TyVar.last) : st.next ≤ st'.next := by
  have hle := hm.next_le ((unsaturated_iff_of_ok h).2 room)
  rwa [finalNext_of_ok h] at hle

end Advances

theorem Unsaturated.of_bind {α β : Type} {m : Infer α} {f : α → Infer β} {st : Inferencer}
    (room : Unsaturated (m >>= f) st) (hf : ∀ a, Advances (f a)) : Unsaturated m st := by
  simp only [Unsaturated, finalNext, Bind.bind, EStateM.bind] at room ⊢
  cases hst : m st with
  | error e st' => simpa [hst] using room
  | ok a st' =>
    have later := hf a st'
    simp only [hst] at room
    simp only [finalNext] at later
    grind

theorem Unsaturated.of_ok {α β : Type} {m : Infer α} {f : α → Infer β} {st st' : Inferencer}
    {a : α} (room : Unsaturated (m >>= f) st) (h : m st = .ok a st') : Unsaturated (f a) st' := by
  simpa only [Unsaturated, finalNext, bind_of_ok h] using room

theorem reserve_run (Γ : Context) (st : Inferencer) :
    (modify (reserve Γ) : Infer PUnit) st = .ok ⟨⟩ (st.reserve Γ) := rfl

theorem next_reserve_lt_of_infer {Γ : Context} {t : Term} {st : Inferencer}
    (room : Unsaturated (infer Γ t) st) : (st.reserve Γ).next < TyVar.last := by
  rw [infer] at room
  exact room.of_bind fun _ => .inferTerm Γ t

theorem next_reserve_lt_of_inferLet {Γ : Context} {name : Name} {bound body : Term}
    {st : Inferencer} (room : Unsaturated (inferLet Γ name bound body) st) :
    (st.reserve Γ).next < TyVar.last := by
  rw [inferLet] at room
  exact room.of_bind fun _ => .bind (.inferTerm Γ bound) fun _ =>
    .bind (.inferTerm _ body) fun _ => .pure _

namespace Unsaturated

variable {Γ : Context} {st : Inferencer}

theorem of_body {p : Name} {body : Term} (room : Unsaturated (inferTerm Γ (.abs p body)) st) :
    Unsaturated (inferTerm (Γ.extend p (.mono (.var st.next))) body)
      { st with next := st.next.next } := by
  rw [inferTerm] at room
  exact (room.of_ok (fresh_run st)).of_bind fun _ => .pure _

theorem next_eq {p : Name} {body : Term} (room : Unsaturated (inferTerm Γ (.abs p body)) st) :
    st.next.next = st.next + 1 := by
  rw [inferTerm] at room
  exact TyVar.next_eq (room.of_bind fun _ => .bind (.inferTerm _ _) fun _ => .pure _)

theorem of_func {func arg : Term} (room : Unsaturated (inferTerm Γ (.app func arg)) st) :
    Unsaturated (inferTerm Γ func) st := by
  rw [inferTerm_app] at room
  exact room.of_bind fun r₁ => .bind (.inferTerm _ _) fun r₂ => .unifySides _ r₁ r₂

theorem of_arg {func arg : Term} {st₁ : Inferencer} {r : Inference}
    (room : Unsaturated (inferTerm Γ (.app func arg)) st) (h : inferTerm Γ func st = .ok r st₁) :
    Unsaturated (inferTerm (Γ.apply r.subst) arg) st₁ := by
  rw [inferTerm_app] at room
  exact (room.of_ok h).of_bind fun r₂ => .unifySides _ r r₂

theorem of_infer {t : Term} (room : Unsaturated (infer Γ t) st) :
    Unsaturated (inferTerm Γ t) (st.reserve Γ) := by
  rw [infer] at room
  exact room.of_ok (reserve_run Γ st)

theorem of_bound {name : Name} {bound body : Term}
    (room : Unsaturated (inferLet Γ name bound body) st) :
    Unsaturated (inferTerm Γ bound) (st.reserve Γ) := by
  rw [inferLet] at room
  exact (room.of_ok (reserve_run Γ st)).of_bind fun _ => .bind (.inferTerm _ body) fun _ => .pure _

theorem of_letBody {name : Name} {bound body : Term} {st₁ : Inferencer} {r : Inference}
    (room : Unsaturated (inferLet Γ name bound body) st)
    (h : inferTerm Γ bound (st.reserve Γ) = .ok r st₁) :
    Unsaturated
      (inferTerm ((Γ.apply r.subst).extend name ((Γ.apply r.subst).generalize r.ty)) body) st₁ := by
  rw [inferLet] at room
  exact ((room.of_ok (reserve_run Γ st)).of_ok h).of_bind fun _ => .pure _

end Unsaturated

theorem imagesOf_run (vars : List TyVar) (st : Inferencer) :
    ∃ images st', imagesOf vars st = .ok images st' ∧
      (st'.next < TyVar.last →
        images = (vars.zipIdx st.next).map (fun e => (e.1, .var e.2)) ∧
          st'.next = st.next + vars.length) := by
  induction vars generalizing st with
  | nil => exact ⟨[], st, rfl, fun _ => ⟨rfl, rfl⟩⟩
  | cons v vars ih =>
    obtain ⟨images, st', hrest, hst'⟩ := ih { st with next := st.next.next }
    refine ⟨(v, .var st.next) :: images, st', ?_, fun room => ?_⟩
    · rw [imagesOf, List.mapM_cons]
      exact bind_of_ok hrest _
    · have hle := (Advances.imagesOf vars).le_of_ok hrest room
      have hnext : st.next.next = st.next + 1 := TyVar.next_eq (Nat.lt_of_le_of_lt hle room)
      obtain ⟨himages, hfinal⟩ := hst' room
      simp only [hnext] at himages hfinal
      exact ⟨by simp [himages], by simp only [hfinal, List.length_cons]; grind⟩

theorem imagesOf_of_le (vars : List TyVar) {st : Inferencer}
    (room : st.next + vars.length ≤ TyVar.last) :
    imagesOf vars st = .ok ((vars.zipIdx st.next).map fun e => (e.1, .var e.2))
      { st with next := st.next + vars.length } := by
  induction vars generalizing st with
  | nil => rfl
  | cons v vars ih =>
    rw [List.length_cons] at room
    have hnext : st.next.next = st.next + 1 := TyVar.next_of_lt (by grind)
    have hrest := @ih { st with next := st.next.next } (by grind)
    have hcount : st.next + 1 + vars.length = st.next + (vars.length + 1) := by grind
    rw [imagesOf, List.mapM_cons]
    refine (bind_of_ok hrest _).trans ?_
    simp only [hnext, hcount]
    rfl

end Inferencer

namespace Scheme

/-- A variable of its own for every quantified one, numbered from `n`. -/
def freshImages (σ : Scheme) (n : TyVar) : TypeSubst :=
  .ofList ((σ.vars.zipIdx n).map fun e => (e.1, .var e.2))

/-- What a quantified variable becomes is one of the new variables, and the
variable itself stands at its place. -/
theorem get?_freshImages_of_mem {σ : Scheme} (n : TyVar) {v : TyVar} (h : v ∈ σ.vars) :
    ∃ i, σ.vars[i]? = some v ∧ (σ.freshImages n).get? v = some (.var (n + i)) := by
  rcases OrderedMap.get?_ofList_cases ((σ.vars.zipIdx n).map fun e => (e.1, Ty.var e.2)) v with
    ⟨_, hne⟩ | ⟨ty, hty, hget⟩
  · obtain ⟨i, hi⟩ := List.mem_iff_getElem?.1 h
    have hmem : (v, n + i) ∈ σ.vars.zipIdx n :=
      List.mk_mem_zipIdx_iff_le_and_getElem?_sub.2 ⟨by omega, by simpa using hi⟩
    exact absurd rfl (hne (v, .var (n + i)) (List.mem_map.2 ⟨_, hmem, rfl⟩))
  · obtain ⟨⟨w, k⟩, hmem, heq⟩ := List.mem_map.1 hty
    obtain ⟨rfl, rfl⟩ := Prod.mk.inj heq
    obtain ⟨hk, hi⟩ := List.mk_mem_zipIdx_iff_le_and_getElem?_sub.1 hmem
    refine ⟨k - n, hi, ?_⟩
    rw [Nat.add_sub_cancel' hk]
    exact hget

theorem get?_freshImages_of_not_mem {σ : Scheme} (n : TyVar) {v : TyVar} (h : v ∉ σ.vars) :
    (σ.freshImages n).get? v = none := by
  rcases OrderedMap.get?_ofList_cases ((σ.vars.zipIdx n).map fun e => (e.1, Ty.var e.2)) v with
    ⟨hget, _⟩ | ⟨ty, hty, _⟩
  · exact hget
  · obtain ⟨⟨w, k⟩, hmem, heq⟩ := List.mem_map.1 hty
    obtain ⟨rfl, -⟩ := Prod.mk.inj heq
    exact absurd (List.fst_mem_of_mem_zipIdx hmem) h

end Scheme

/-- Inference answers `r` for the term, and its counter goes from the one number
to the other. -/
inductive Infers : Context → Term → TyVar → Inference → TyVar → Prop
  | var {Γ : Context} {x : Name} {σ : Scheme} (n : TyVar) : Γ.get? x = some σ →
      Infers Γ (.var x) n ⟨σ.ty.apply (σ.freshImages n), ∅⟩ (n + σ.vars.length)
  | abs {Γ : Context} {p : Name} {body : Term} {n m : TyVar} {r : Inference} :
      Infers (Γ.extend p (.mono (.var n))) body (n + 1) r m →
      Infers Γ (.abs p body) n ⟨.arrow ((Ty.var n).apply r.subst) r.ty, r.subst⟩ m
  | app {Γ : Context} {func arg : Term} {n n₁ n₂ : TyVar} {r₁ r₂ : Inference} {s : TypeSubst} :
      Infers Γ func n r₁ n₁ → Infers (Γ.apply r₁.subst) arg n₁ r₂ n₂ →
      unify (r₁.ty.apply r₂.subst) (.arrow r₂.ty (.var n₂)) = .ok s →
      Infers Γ (.app func arg) n
        ⟨(Ty.var n₂).apply s, (s.compose r₂.subst).compose r₁.subst⟩ (n₂ + 1)

/-- Inference answers `r` for `let name = bound in body`. -/
inductive InfersLet : Context → Name → Term → Term → TyVar → Inference → TyVar → Prop
  | intro {Γ : Context} {name : Name} {bound body : Term} {n n₁ m : TyVar} {r₁ r₂ : Inference} :
      Infers Γ bound n r₁ n₁ →
      Infers ((Γ.apply r₁.subst).extend name ((Γ.apply r₁.subst).generalize r₁.ty)) body n₁ r₂ m →
      InfersLet Γ name bound body n ⟨r₂.ty, r₂.subst.compose r₁.subst⟩ m

namespace Inferencer

theorem instantiate_run (σ : Scheme) (st : Inferencer) :
    ∃ ty st', instantiate σ st = .ok ty st' ∧
      (st'.next < TyVar.last →
        ty = σ.ty.apply (σ.freshImages st.next) ∧ st'.next = st.next + σ.vars.length) := by
  obtain ⟨images, st', himages, hst'⟩ := imagesOf_run σ.vars st
  refine ⟨σ.ty.apply (.ofList images), st', bind_of_ok himages _, fun room => ?_⟩
  obtain ⟨rfl, hfinal⟩ := hst' room
  exact ⟨rfl, hfinal⟩

end Inferencer

namespace Infers

open Inferencer

theorem le {Γ : Context} {t : Term} {n m : TyVar} {r : Inference} (h : Infers Γ t n r m) :
    n ≤ m := by
  induction h with
  | var n _ => exact Nat.le_add_right ..
  | abs _ ih => exact Nat.le_of_succ_le ih
  | app _ _ _ ihf iha => exact Nat.le_succ_of_le (Nat.le_trans ihf iha)

/-- With room in the counter, what inference answers is what it should. -/
theorem of_run {Γ : Context} {t : Term} {st st' : Inferencer} {r : Inference}
    (h : inferTerm Γ t st = .ok r st') (room : st'.next < TyVar.last) :
    Infers Γ t st.next r st'.next := by
  induction t generalizing Γ st st' r with
  | var x =>
    rw [inferTerm] at h
    cases hx : Γ.get? x with
    | none => simp [hx, throw, throwThe, MonadExceptOf.throw, EStateM.throw] at h
    | some σ =>
      rw [hx] at h
      obtain ⟨ty, st₁, hty, h⟩ := bind_eq_ok.1 h
      obtain ⟨ty', st₁', hty', hspec⟩ := instantiate_run σ st
      rw [hty] at hty'
      cases hty'
      cases h
      obtain ⟨rfl, hnext⟩ := hspec room
      show Infers Γ (.var x) st.next _ st₁.next
      rw [hnext]
      exact .var st.next hx
  | abs p body ih =>
    rw [inferTerm] at h
    obtain ⟨paramTy, st₁, hfresh, h⟩ := bind_eq_ok.1 h
    cases hfresh
    obtain ⟨r₁, st₂, hbody, h⟩ := bind_eq_ok.1 h
    cases h
    have hle := (Advances.inferTerm _ body).le_of_ok hbody room
    have hnext : st.next.next = st.next + 1 := TyVar.next_eq (Nat.lt_of_le_of_lt hle room)
    have hinfers := ih hbody room
    simp only [hnext] at hinfers
    exact .abs hinfers
  | app func arg ihf iha =>
    rw [inferTerm_app] at h
    obtain ⟨r₁, st₁, hfunc, h⟩ := bind_eq_ok.1 h
    obtain ⟨r₂, st₂, harg, h⟩ := bind_eq_ok.1 h
    rw [unifySides_run] at h
    cases hs : unify (r₁.ty.apply r₂.subst) (.arrow r₂.ty (.var st₂.next)) with
    | error e => simp [hs] at h
    | ok s =>
      rw [hs] at h
      cases h
      have hnext : st₂.next.next = st₂.next + 1 := TyVar.next_eq room
      have room₂ : st₂.next < TyVar.last := by
        have : st₂.next.next < TyVar.last := room
        grind
      have room₁ := Nat.lt_of_le_of_lt ((Advances.inferTerm _ arg).le_of_ok harg room₂) room₂
      show Infers Γ (.app func arg) st.next _ st₂.next.next
      rw [hnext]
      exact .app (ihf hfunc room₁) (iha harg room₂) hs

theorem run_eq {Γ : Context} {t : Term} {n m : TyVar} {r : Inference} (h : Infers Γ t n r m)
    {st : Inferencer} (start : st.next = n) (room : Unsaturated (inferTerm Γ t) st) :
    ∃ st', inferTerm Γ t st = .ok r st' ∧ st'.next = m := by
  induction h generalizing st with
  | @var Γ x σ n hx =>
    subst start
    obtain ⟨ty, st₁, hty, hspec⟩ := instantiate_run σ st
    rw [inferTerm, hx] at room ⊢
    have room₁ : st₁.next < TyVar.last := (unsaturated_iff_of_ok hty).1
      (room.of_bind fun _ => .bind (.record _) fun _ => .pure _)
    obtain ⟨rfl, hnext⟩ := hspec room₁
    exact ⟨_, bind_of_ok hty _, hnext⟩
  | @abs Γ p body n m r _ ih =>
    subst start
    obtain ⟨st', hbody, hm⟩ := ih room.next_eq room.of_body
    refine ⟨st', ?_, hm⟩
    rw [inferTerm, bind_of_ok (fresh_run st), bind_of_ok hbody]
    rfl
  | @app Γ func arg n n₁ n₂ r₁ r₂ s _ _ hs ihf iha =>
    obtain ⟨st₁, hfunc, hst₁⟩ := ihf start room.of_func
    obtain ⟨st₂, harg, rfl⟩ := iha hst₁ (room.of_arg hfunc)
    rw [inferTerm_app] at room ⊢
    have room₂ := (room.of_ok hfunc).of_ok harg
    have hlast := unifySides_run (.app func arg) r₁ r₂ st₂
    rw [hs] at hlast
    have hnext : st₂.next.next = st₂.next + 1 :=
      TyVar.next_eq ((unsaturated_iff_of_ok hlast).1 room₂)
    exact ⟨_, (bind_of_ok hfunc _).trans ((bind_of_ok harg _).trans hlast), hnext⟩

theorem run_of_le {Γ : Context} {t : Term} {n m : TyVar} {r : Inference} (h : Infers Γ t n r m)
    {st : Inferencer} (start : st.next = n) (room : m ≤ TyVar.last) :
    ∃ st', inferTerm Γ t st = .ok r st' ∧ st'.next = m := by
  induction h generalizing st with
  | @var Γ x σ n hx =>
    subst start
    have hty : instantiate σ st = .ok (σ.ty.apply (σ.freshImages st.next))
        { st with next := st.next + σ.vars.length } := bind_of_ok (imagesOf_of_le σ.vars room) _
    rw [inferTerm, hx]
    exact ⟨⟨_, .instantiated x _ :: st.log⟩, bind_of_ok hty _, rfl⟩
  | @abs Γ p body n m r hbody ih =>
    subst start
    have hnext : st.next.next = st.next + 1 :=
      TyVar.next_of_lt (Nat.lt_of_lt_of_le hbody.le room)
    obtain ⟨st', hrun, hm⟩ := @ih { st with next := st.next.next } hnext room
    refine ⟨st', ?_, hm⟩
    rw [inferTerm, bind_of_ok (fresh_run st), bind_of_ok hrun]
    rfl
  | @app Γ func arg n n₁ n₂ r₁ r₂ s _ harg hs ihf iha =>
    have room₂ : n₂ < TyVar.last := room
    obtain ⟨st₁, hst₁, hn₁⟩ := ihf start (Nat.le_trans harg.le room₂.le)
    obtain ⟨st₂, hst₂, rfl⟩ := iha hn₁ room₂.le
    have hlast := unifySides_run (.app func arg) r₁ r₂ st₂
    rw [hs] at hlast
    rw [inferTerm_app]
    exact ⟨_, (bind_of_ok hst₁ _).trans ((bind_of_ok hst₂ _).trans hlast), TyVar.next_of_lt room₂⟩

theorem of_infer {Γ : Context} {t : Term} {st st' : Inferencer} {r : Inference}
    (h : infer Γ t st = .ok r st') (room : st'.next < TyVar.last) :
    Infers Γ t (st.reserve Γ).next r st'.next := by
  rw [infer, bind_of_ok (reserve_run Γ st)] at h
  exact of_run h room

theorem infer_eq {Γ : Context} {t : Term} {st : Inferencer} {m : TyVar} {r : Inference}
    (h : Infers Γ t (st.reserve Γ).next r m) (room : Unsaturated (infer Γ t) st) :
    ∃ st', infer Γ t st = .ok r st' ∧ st'.next = m := by
  rw [infer, bind_of_ok (reserve_run Γ st)]
  exact h.run_eq rfl room.of_infer

end Infers

namespace InfersLet

open Inferencer

theorem le {Γ : Context} {name : Name} {bound body : Term} {n m : TyVar} {r : Inference}
    (h : InfersLet Γ name bound body n r m) : n ≤ m := by
  obtain ⟨hbound, hbody⟩ := h
  exact Nat.le_trans hbound.le hbody.le

theorem of_inferLet {Γ : Context} {name : Name} {bound body : Term} {st st' : Inferencer}
    {r : Inference} (h : inferLet Γ name bound body st = .ok r st')
    (room : st'.next < TyVar.last) :
    InfersLet Γ name bound body (st.reserve Γ).next r st'.next := by
  rw [inferLet, bind_of_ok (reserve_run Γ st)] at h
  obtain ⟨r₁, st₁, hbound, h⟩ := bind_eq_ok.1 h
  obtain ⟨r₂, st₂, hbody, h⟩ := bind_eq_ok.1 h
  cases h
  have room₁ := Nat.lt_of_le_of_lt ((Advances.inferTerm _ body).le_of_ok hbody room) room
  exact .intro (.of_run hbound room₁) (.of_run hbody room)

theorem inferLet_eq {Γ : Context} {name : Name} {bound body : Term} {st : Inferencer} {m : TyVar}
    {r : Inference} (h : InfersLet Γ name bound body (st.reserve Γ).next r m)
    (room : Unsaturated (inferLet Γ name bound body) st) :
    ∃ st', inferLet Γ name bound body st = .ok r st' ∧ st'.next = m := by
  obtain ⟨hbound, hbody⟩ := h
  obtain ⟨st₁, hst₁, hn₁⟩ := hbound.run_eq rfl room.of_bound
  obtain ⟨st₂, hst₂, hm⟩ := hbody.run_eq hn₁ (room.of_letBody hst₁)
  refine ⟨st₂, ?_, hm⟩
  rw [inferLet]
  exact (bind_of_ok (reserve_run Γ st) _).trans ((bind_of_ok hst₁ _).trans (bind_of_ok hst₂ _))

end InfersLet

theorem Context.answer_eq_ok {Γ : Context} {m : Infer Inference} {r : Inference} :
    Γ.answer m = .ok r ↔ ∃ st, m (.forContext Γ) = .ok r st := by
  rw [answer, EStateM.run]
  cases m (.forContext Γ) with
  | ok r' st => simp
  | error e st => simp

theorem Inferencer.reserve_reserve (Γ : Context) (st : Inferencer) :
    (st.reserve Γ).reserve Γ = st.reserve Γ := by
  unfold reserve
  cases Γ.maxVar? with
  | none => rfl
  | some v => simp

theorem Infers.infer_of_le {Γ : Context} {t : Term} {m : TyVar} {r : Inference}
    (h : Infers Γ t (Inferencer.forContext Γ).next r m) (room : m ≤ TyVar.last) :
    Γ.infer t = .ok r := by
  obtain ⟨st, hst, _⟩ := h.run_of_le rfl room
  refine Context.answer_eq_ok.2 ⟨st, ?_⟩
  rw [Inferencer.infer, Inferencer.bind_of_ok (Inferencer.reserve_run Γ _), Inferencer.forContext,
    Inferencer.reserve_reserve]
  exact hst

end NamedLambda
