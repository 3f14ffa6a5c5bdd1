import NamedLambda.Proofs.IssuedNames
import NamedLambda.Term.Nameless

/-!
# The binders that renaming leaves

A renaming takes a name from the supply for a binder whose new name is free below it, for a
binder that would capture, and, to move that one is a substitution as well, for binders
further in. All these names are made from the new one, with growing numbers
(`NameSupply.candidate_candidate`). In the first two places the old name is avoided, further
in it is not. But there a binder moves only if it has the name that was issued just before,
so the old name can come back only with a number after one that was in the term already
(`Term.adds_rename`).
-/

namespace NamedLambda

namespace Term

open NameSupply

def binders : Term → List Name
  | var _ => []
  | abs p body => p :: body.binders
  | app func arg => func.binders ++ arg.binders

theorem mem_binders_iff {t : Term} {x : Name} :
    x ∈ t.binders ↔ ∃ path body, t.subterm? path = some (abs x body) := by
  constructor
  · intro h
    induction t with
    | var y => simp [binders] at h
    | abs p body ih =>
      rcases List.mem_cons.1 h with rfl | h
      · exact ⟨[], body, subterm?_nil _⟩
      · obtain ⟨path, below, hbelow⟩ := ih h
        exact ⟨0 :: path, below, hbelow⟩
    | app func arg ihf iha =>
      rcases List.mem_append.1 h with h | h
      · obtain ⟨path, below, hbelow⟩ := ihf h
        exact ⟨0 :: path, below, hbelow⟩
      · obtain ⟨path, below, hbelow⟩ := iha h
        exact ⟨1 :: path, below, hbelow⟩
  · rintro ⟨path, below, h⟩
    induction path generalizing t with
    | nil =>
      obtain rfl : t = abs x below := by simpa using h
      exact List.mem_cons_self
    | cons d path ih =>
      cases t with
      | var y => simp [subterm?] at h
      | abs p body =>
        rcases d with _ | d
        · exact List.mem_cons_of_mem _ (ih h)
        · simp [subterm?] at h
      | app func arg =>
        rcases d with _ | _ | d
        · exact List.mem_append_left _ (ih h)
        · exact List.mem_append_right _ (ih h)
        · simp [subterm?] at h

/-- The name `b` is made from `hint` and has the number `k` after `start`. It is `old` only if one
of the names `bs` has a number in between. -/
structure Numbered (hint old : Name) (start : Nat) (bs : List Name) (b : Name) (k : Nat) :
    Prop where
  lt : start < k
  eq : b = candidate hint k
  between : b = old → ∃ j, start < j ∧ j < k ∧ candidate hint j ∈ bs

theorem Numbered.mono {hint old b : Name} {start start' k : Nat} {bs bs' : List Name}
    (h : Numbered hint old start bs b k) (hstart : start' ≤ start) (hbs : bs ⊆ bs') :
    Numbered hint old start' bs' b k := by
  refine ⟨by have := h.lt; omega, h.eq, fun hb => ?_⟩
  obtain ⟨j, hj, hjk, hmem⟩ := h.between hb
  exact ⟨j, by omega, hjk, hbs hmem⟩

/-- From one supply to the other, nothing but numbered names is added to `bs`. -/
structure Adds (hint old : Name) (names names' : NameSupply) (bs bs' : List Name) : Prop where
  issued_le : names.issued ≤ names'.issued
  mem : ∀ b ∈ bs', b ∈ bs ∨ ∃ k ≤ names'.issued, Numbered hint old names.issued bs b k

namespace Adds

variable {hint old : Name} {names names₁ names₂ : NameSupply} {bs bs₁ bs₂ : List Name}

theorem of_subset (names : NameSupply) (h : bs₁ ⊆ bs) : Adds hint old names names bs bs₁ :=
  ⟨Nat.le_refl _, fun _ hb => .inl (h hb)⟩

theorem mono (h : Adds hint old names₁ names₂ bs₁ bs₂) (hle : names.issued ≤ names₁.issued)
    (hbs : bs₁ ⊆ bs) : Adds hint old names names₂ bs bs₂ := by
  refine ⟨hle.trans h.issued_le, fun b hb => ?_⟩
  rcases h.mem b hb with hb | ⟨k, hk, hnum⟩
  · exact .inl (hbs hb)
  · exact .inr ⟨k, hk, hnum.mono hle hbs⟩

theorem later (h : Adds hint old names names₁ bs bs₁) (hle : names₁.issued ≤ names₂.issued) :
    Adds hint old names names₂ bs bs₁ := by
  refine ⟨h.issued_le.trans hle, fun b hb => ?_⟩
  rcases h.mem b hb with hb | ⟨k, hk, hnum⟩
  · exact .inl hb
  · exact .inr ⟨k, hk.trans hle, hnum⟩

theorem append (h₁ : Adds hint old names names₁ bs bs₁) (h₂ : Adds hint old names names₁ bs bs₂) :
    Adds hint old names names₁ bs (bs₁ ++ bs₂) :=
  ⟨h₁.issued_le, fun b hb => (List.mem_append.1 hb).elim (h₁.mem b) (h₂.mem b)⟩

theorem cons (h : Adds hint old names names₁ bs bs₁) {b : Name} (hb : b ∈ bs) :
    Adds hint old names names₁ bs (b :: bs₁) :=
  ⟨h.issued_le, List.forall_mem_cons.2 ⟨.inl hb, h.mem⟩⟩

theorem cons_candidate (h : Adds hint old names names₁ bs bs₁) {k : Nat} (hlt : names.issued < k)
    (hle : k ≤ names₁.issued) (hne : candidate hint k ≠ old) :
    Adds hint old names names₁ bs (candidate hint k :: bs₁) :=
  ⟨h.issued_le, List.forall_mem_cons.2
    ⟨.inr ⟨k, hle, hlt, rfl, fun hold => absurd hold hne⟩, h.mem⟩⟩

theorem of_hint {k : Nat} (h : Adds (candidate hint k) old names names₁ bs bs₁) :
    Adds hint old names names₁ bs bs₁ := by
  refine ⟨h.issued_le, fun b hb => (h.mem b hb).imp_right ?_⟩
  rintro ⟨i, hi, hnum⟩
  refine ⟨i, hi, hnum.lt, by rw [hnum.eq, candidate_candidate], fun hold => ?_⟩
  simpa only [candidate_candidate] using hnum.between hold

/-- Making room for a name just issued adds something only if that name was there, and then all
that is added has a number after it. So `old` need not be avoided. -/
theorem of_candidate {k : Nat} {x : Name} (h : Adds (candidate hint k) x ⟨k⟩ names₁ bs bs₁)
    (hlt : names.issued < k) (hroom : candidate hint k ∉ bs → bs₁ = bs) :
    Adds hint old names names₁ bs bs₁ := by
  refine ⟨(Nat.le_of_lt hlt).trans h.issued_le, fun b hb => ?_⟩
  by_cases hin : candidate hint k ∈ bs
  · refine (h.mem b hb).imp_right ?_
    rintro ⟨i, hi, hnum⟩
    exact ⟨i, hi, hlt.trans hnum.lt, by rw [hnum.eq, candidate_candidate],
      fun _ => ⟨k, hlt, hnum.lt, hin⟩⟩
  · exact .inl (hroom hin ▸ hb)

theorem mem_of_lt (h : Adds hint old names names₁ bs bs₁) {j : Nat} (hj : names₁.issued < j)
    (hmem : candidate hint j ∈ bs₁) : candidate hint j ∈ bs := by
  rcases h.mem _ hmem with hmem | ⟨k, hk, hnum⟩
  · exact hmem
  · have := candidate_inj.1 hnum.eq
    omega

theorem trans (h₁ : Adds hint old names names₁ bs bs₁) (h₂ : Adds hint old names₁ names₂ bs₁ bs₂) :
    Adds hint old names names₂ bs bs₂ := by
  refine ⟨h₁.issued_le.trans h₂.issued_le, fun b hb => ?_⟩
  rcases h₂.mem b hb with hb | ⟨k, hk, hnum⟩
  · exact (h₁.later h₂.issued_le).mem b hb
  · refine .inr ⟨k, hk, h₁.issued_le.trans_lt hnum.lt, hnum.eq, fun hold => ?_⟩
    obtain ⟨j, hj, hjk, hmem⟩ := hnum.between hold
    exact ⟨j, h₁.issued_le.trans_lt hj, hjk, h₁.mem_of_lt hj hmem⟩

end Adds

/-- What a substitution of the variable `z` for `x` does, and which names it takes. -/
inductive Moves : Name → Name → NameSupply → Term → Term → NameSupply → Prop
  | replaced (x z : Name) (names : NameSupply) : Moves x z names (var x) (var z) names
  | absent {x : Name} {t : Term} (z : Name) (names : NameSupply) : t.occursFree x = false →
      Moves x z names t t names
  | app {x z : Name} {names names₁ names₂ : NameSupply} {func func' arg arg' : Term} :
      Moves x z names func func' names₁ → Moves x z names₁ arg arg' names₂ →
        Moves x z names (app func arg) (app func' arg') names₂
  | under {x z p : Name} {names names₁ : NameSupply} {body body' : Term} : p ≠ x → p ≠ z →
      Moves x z names body body' names₁ → Moves x z names (abs p body) (abs p body') names₁
  | renamed {x z : Name} {names names₁ names₂ : NameSupply} {k : Nat} {body body' body'' : Term} :
      names.issued < k → candidate z k ≠ x → Moves z (candidate z k) ⟨k⟩ body body' names₁ →
        Moves x z names₁ body' body'' names₂ →
          Moves x z names (abs z body) (abs (candidate z k) body'') names₂

theorem moves_substitute (t : Term) (x z : Name) (names : NameSupply) :
    Moves x z names t (t.substitute x (var z) names).1 (t.substitute x (var z) names).2 := by
  induction t using size_induction generalizing x z names with
  | h t smaller =>
    cases hx : t.occursFree x with
    | false =>
      rw [substitute_of_not_occursFree hx]
      exact .absent z names hx
    | true =>
      cases t with
      | var y =>
        obtain rfl : x = y := by simpa [occursFree] using hx
        rw [substitute_var, if_pos rfl]
        exact .replaced x z names
      | app func arg =>
        rw [substitute_app]
        exact .app (smaller func (by simp only [size]; omega) x z names)
          (smaller arg (by simp only [size]; omega) x z _)
      | abs p body =>
        have hbody : body.size < (abs p body).size := by simp [size]
        obtain ⟨hpx, hfree⟩ : x ≠ p ∧ body.occursFree x = true := by simpa [occursFree] using hx
        by_cases hp : p = z
        · subst hp
          have hlt := names.issued_lt_fresh p (avoided x (.of (var p)) body)
          have hq := names.fresh_not_mem p (avoided x (.of (var p)) body)
          rw [mem_avoided, not_or] at hq
          rw [substitute_abs, if_neg (by simp [Ne.symm hpx, hfree]),
            if_pos (by simp [mem_freeVars, occursFree])]
          refine .renamed hlt hq.1 (smaller body hbody p _ _) (smaller _ ?_ x p _)
          rwa [size_substitute_var]
        · rw [substitute_abs_of_not_occursFree (Ne.symm hpx) (by simpa [occursFree] using hp)]
          exact .under (Ne.symm hpx) hp (smaller body hbody x z names)

theorem Moves.binders_eq {x z : Name} {names names' : NameSupply} {t u : Term}
    (h : Moves x z names t u names') (hz : z ∉ t.binders) : u.binders = t.binders := by
  induction h with
  | replaced => rfl
  | absent => rfl
  | app _ _ ihf iha =>
    simp only [binders, List.mem_append, not_or] at hz
    rw [binders, binders, ihf hz.1, iha hz.2]
  | under _ _ _ ih =>
    simp only [binders, List.mem_cons, not_or] at hz
    rw [binders, binders, ih hz.2]
  | renamed => simp [binders] at hz

theorem Moves.adds {x z : Name} {names names' : NameSupply} {t u : Term}
    (h : Moves x z names t u names') : Adds z x names names' t.binders u.binders := by
  induction h with
  | replaced => exact .of_subset _ (List.Subset.refl _)
  | absent => exact .of_subset _ (List.Subset.refl _)
  | app _ _ ihf iha =>
    exact ((ihf.mono (Nat.le_refl _) (List.subset_append_left ..)).later iha.issued_le).append
      (iha.mono ihf.issued_le (List.subset_append_right ..))
  | under _ _ _ ih =>
    exact (ih.mono (Nat.le_refl _) (List.subset_cons_self ..)).cons List.mem_cons_self
  | @renamed x z names names₁ names₂ k body body' body'' hlt hne hmoved _ ihmoved ih =>
    have first : Adds z x names names₁ body.binders body'.binders :=
      ihmoved.of_candidate hlt hmoved.binders_eq
    have both : Adds z x names names₂ (z :: body.binders) body''.binders :=
      (first.trans ih).mono (Nat.le_refl _) (List.subset_cons_self ..)
    exact both.cons_candidate hlt (ihmoved.issued_le.trans ih.issued_le) hne

theorem adds_rebind (p : Name) (body : Term) (target : Name) (names : NameSupply) :
    Adds target p names (rebind p body target names).2 (target :: body.binders)
      (rebind p body target names).1.binders := by
  have hmoved := (moves_substitute body p target names).adds
  exact (hmoved.mono (Nat.le_refl _) (List.subset_cons_self ..)).cons List.mem_cons_self

/-- The binders after a renaming are those of other names, the new name and numbered ones. -/
theorem adds_rename {old new : Name} (hne : old ≠ new) (t : Term) (names : NameSupply) :
    Adds new old names (rename old new t names).2 (new :: t.binders.filter (· ≠ old))
      (rename old new t names).1.binders := by
  induction t generalizing names with
  | var x =>
    rw [rename, if_neg hne]
    exact .of_subset names (List.nil_subset _)
  | app func arg ihf iha =>
    rw [rename, if_neg hne]
    have hf := ihf names
    have ha := iha (rename old new func names).2
    exact ((hf.mono (Nat.le_refl _) (by simp [binders])).later ha.issued_le).append
      (ha.mono hf.issued_le (by simp [binders]))
  | abs p body ih =>
    rw [rename, if_neg hne]
    have inner := (ih names).mono (Nat.le_refl _)
      (List.cons_subset_cons new (List.filter_subset _ (List.subset_cons_self p body.binders)))
    generalize rename old new body names = renamed at inner
    obtain ⟨body', names₁⟩ := renamed
    dsimp only at inner ⊢
    split
    · next hp => exact inner.cons (by simp [hp])
    · next hp =>
      obtain rfl : p = old := not_not.1 hp
      split
      · have hlt := names₁.issued_lt_fresh new (body'.freeVars.insert p)
        have hfresh := names₁.fresh_not_mem new (body'.freeVars.insert p)
        rw [OrderedSet.mem_insert, not_or] at hfresh
        have target := (inner.later (Nat.le_of_lt hlt)).cons_candidate
          (inner.issued_le.trans_lt hlt) (Nat.le_refl _) hfresh.1
        exact target.trans (adds_rebind ..).of_hint
      · exact (inner.cons List.mem_cons_self).trans (adds_rebind p body' new names₁)

/-- After a renaming no binder is named `old`, unless the run issues `old` itself, and before that
a name which is the new one or is bound in the term. -/
theorem rename_ne_abs {old new : Name} (hne : old ≠ new) (t : Term) (names : NameSupply)
    (h : ∀ j k, names.issued < j → j < k → k ≤ (rename old new t names).2.issued →
      old = candidate new k → candidate new j ≠ new ∧ candidate new j ∉ t.binders)
    (path : Path) (body : Term) :
    (rename old new t names).1.subterm? path ≠ some (abs old body) := by
  intro hsub
  rcases (adds_rename hne t names).mem old (mem_binders_iff.2 ⟨path, body, hsub⟩) with
    hmem | ⟨k, hk, hnum⟩
  · simp [hne] at hmem
  · obtain ⟨j, hj, hjk, hmem⟩ := hnum.between rfl
    obtain ⟨hnew, hbound⟩ := h j k hj hjk hk hnum.eq
    rcases List.mem_cons.1 hmem with heq | hmem
    · exact hnew heq
    · exact hbound (List.mem_filter.1 hmem).1

/-- Both inner binders have to move. The supply issues `y1`, which nothing binds, and passes
over `y2`. -/
theorem rename_ne_abs_passedOver :
    let t := abs "y2" (app (abs "y" (var "y2")) (abs "y" (var "y2")))
    let run := rename "y2" "y" t .new
    "y2" ≠ "y" ∧ (∀ j k, 0 < j → j < k → k ≤ run.2.issued → "y2" = candidate "y" k →
      candidate "y" j ≠ "y" ∧ candidate "y" j ∉ t.binders) ∧
    ∀ path body, run.1.subterm? path ≠ some (abs "y2" body) := by
  intro t run
  have hyp (j k : Nat) (hj : 0 < j) (hjk : j < k) (hk : k ≤ run.2.issued)
      (heq : "y2" = candidate "y" k) : candidate "y" j ≠ "y" ∧ candidate "y" j ∉ t.binders := by
    have htwo : candidate "y" 2 = "y2" := by cbv
    obtain rfl : 2 = k := candidate_inj.1 (htwo.trans heq)
    obtain rfl : j = 1 := by omega
    constructor <;> decide
  exact ⟨by decide, hyp, rename_ne_abs (by decide) t .new hyp⟩

/-- The outer binder is renamed to `y`, so the inner `y` has to move and takes `y1`. Below it
`y1` has to move, and takes the name that was renamed. -/
theorem rename_reissues :
    let t := abs "y2" (abs "y" (app (var "y2") (abs "y1" (var "y"))))
    "y2" ≠ "y" ∧ (rename "y2" "y" t .new).1.subterm? [0, 0, 1] = some (abs "y2" (var "y1")) :=
  ⟨by decide, by cbv⟩

end Term
end NamedLambda
