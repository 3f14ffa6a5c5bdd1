import NamedLambda.Term.Conversion

/-!
# Which redex a strategy finds

Both strategies visit the positions of a term from left to right, normal order a node
before what is below it and applicative order after (`Strategy.Precedes`). Each finds the
redex that it visits first (`Strategy.precedes_of_findRedex`), and there is only one that is
first (`Strategy.Precedes.antisymm`). Below what comes first in applicative order there is
no redex.
-/

namespace NamedLambda

/-- Where the two positions part, the first one takes the smaller direction. -/
def Path.LeftOf (p q : Path) : Prop := p < q ∧ ¬ p <+: q

namespace Path.LeftOf

variable {p q : Path}

theorem of_lt {d e : Nat} (h : d < e) (p q : Path) : LeftOf (d :: p) (e :: q) :=
  ⟨List.cons_lt_cons_iff.2 (.inl h), fun hpre => Nat.ne_of_lt h (List.cons_prefix_cons.1 hpre).1⟩

theorem cons (d : Nat) (h : LeftOf p q) : LeftOf (d :: p) (d :: q) :=
  ⟨List.cons_lt_cons_iff.2 (.inr ⟨rfl, h.1⟩), fun hpre => h.2 (List.cons_prefix_cons.1 hpre).2⟩

theorem asymm (h : LeftOf p q) : ¬ LeftOf q p := fun h' => List.lt_asymm h.1 h'.1

theorem not_prefix (h : LeftOf p q) : ¬ q <+: p := by
  rintro ⟨rest, rfl⟩
  exact List.le_append_left h.1

end Path.LeftOf

namespace Term

def RedexAt (t : Term) (path : Path) : Prop :=
  ∃ redex, t.subterm? path = some redex ∧ redex.isRedex = true

theorem isNormal_iff {t : Term} : t.IsNormal ↔ ∀ path, ¬ t.RedexAt path := by
  simp [IsNormal, RedexAt]

theorem redexAt_nil {t : Term} : t.RedexAt [] ↔ t.isRedex = true := by
  simp [RedexAt]

theorem redexAt_append {t s : Term} {path : Path} (h : t.subterm? path = some s) (q : Path) :
    t.RedexAt (path ++ q) ↔ s.RedexAt q := by
  simp [RedexAt, subterm?_append, h]

theorem redexAt_abs {p : Name} {body : Term} {path : Path} :
    (abs p body).RedexAt path ↔ ∃ q, path = 0 :: q ∧ body.RedexAt q := by
  match path with
  | [] => simp [redexAt_nil, isRedex]
  | 0 :: q => simp [RedexAt, subterm?]
  | (_ + 1) :: q => simp [RedexAt, subterm?]

theorem redexAt_app {func arg : Term} {path : Path} :
    (app func arg).RedexAt path ↔
      (path = [] ∧ (app func arg).isRedex = true) ∨ (∃ q, path = 0 :: q ∧ func.RedexAt q) ∨
        ∃ q, path = 1 :: q ∧ arg.RedexAt q := by
  match path with
  | [] => simp [redexAt_nil]
  | 0 :: q => simp [RedexAt, subterm?]
  | 1 :: q => simp [RedexAt, subterm?]
  | (_ + 2) :: q => simp [RedexAt, subterm?]

end Term

namespace Strategy

/-- The order in which a strategy visits positions. -/
def Precedes : Strategy → Path → Path → Prop
  | normalOrder, p, q => p <+: q ∨ p.LeftOf q
  | applicative, p, q => q <+: p ∨ p.LeftOf q

namespace Precedes

variable {strategy : Strategy} {p q : Path}

theorem refl (strategy : Strategy) (p : Path) : strategy.Precedes p p := by
  cases strategy <;> exact .inl List.prefix_rfl

theorem of_lt (strategy : Strategy) {d e : Nat} (h : d < e) (p q : Path) :
    strategy.Precedes (d :: p) (e :: q) := by
  cases strategy <;> exact .inr (.of_lt h p q)

theorem cons (d : Nat) (h : strategy.Precedes p q) : strategy.Precedes (d :: p) (d :: q) := by
  cases strategy <;>
    exact h.imp (fun hpre => List.cons_prefix_cons.2 ⟨rfl, hpre⟩) (.cons d)

theorem antisymm (h : strategy.Precedes p q) (h' : strategy.Precedes q p) : p = q := by
  have same (hpq : p <+: q) (hqp : q <+: p) : p = q :=
    hpq.eq_of_length (Nat.le_antisymm hpq.length_le hqp.length_le)
  cases strategy with
  | normalOrder =>
    rcases h with hpq | hpq
    · rcases h' with hqp | hqp
      · exact same hpq hqp
      · exact absurd hpq hqp.not_prefix
    · rcases h' with hqp | hqp
      · exact absurd hqp hpq.not_prefix
      · exact absurd hqp hpq.asymm
  | applicative =>
    rcases h with hqp | hpq
    · rcases h' with hpq | hqp'
      · exact same hpq hqp
      · exact absurd hqp hqp'.2
    · rcases h' with hpq' | hqp
      · exact absurd hpq' hpq.2
      · exact absurd hqp hpq.asymm

end Precedes

/-- Both strategies search the function before the argument. What they find there precedes
all redexes of the two, if it does so in the one that it is in. -/
theorem precedes_of_children (strategy : Strategy) {func arg : Term} {inFunc inArg : Option Path}
    (hfunc : ∀ path, inFunc = some path → ∀ q, func.RedexAt q → strategy.Precedes path q)
    (hnormal : inFunc = none → func.IsNormal)
    (harg : ∀ path, inArg = some path → ∀ q, arg.RedexAt q → strategy.Precedes path q)
    {path : Path}
    (h : (inFunc.map (0 :: ·)).or (inArg.map (1 :: ·)) = some path) :
    (∀ q, func.RedexAt q → strategy.Precedes path (0 :: q)) ∧
      ∀ q, arg.RedexAt q → strategy.Precedes path (1 :: q) := by
  cases inFunc with
  | some p =>
    obtain rfl : 0 :: p = path := by simpa using h
    exact ⟨fun q hq => (hfunc p rfl q hq).cons 0, fun q _ => .of_lt strategy Nat.zero_lt_one p q⟩
  | none =>
    obtain ⟨p, hp, rfl⟩ : ∃ p, inArg = some p ∧ 1 :: p = path := by simpa using h
    exact ⟨fun q hq => absurd hq (Term.isNormal_iff.1 (hnormal rfl) q),
      fun q hq => (harg p hp q hq).cons 1⟩

theorem precedes_of_outermost {t : Term} {path : Path} (h : outermost t = some path) :
    ∀ q, t.RedexAt q → normalOrder.Precedes path q := by
  induction t generalizing path with
  | var => simp [outermost] at h
  | abs p body ih =>
    obtain ⟨found, hfound, rfl⟩ := Option.map_eq_some_iff.1 h
    intro q hq
    obtain ⟨q, rfl, hq⟩ := Term.redexAt_abs.1 hq
    exact (ih hfound q hq).cons 0
  | app func arg ihf iha =>
    intro q hq
    simp only [outermost, Option.orElse_eq_or] at h
    split at h
    · cases h
      exact .inl List.nil_prefix
    · next hroot =>
      obtain ⟨hf, ha⟩ := precedes_of_children normalOrder
        (fun _ => ihf) outermost_eq_none_iff.1 (fun _ => iha) h
      rcases Term.redexAt_app.1 hq with ⟨-, hr⟩ | ⟨q, rfl, hq⟩ | ⟨q, rfl, hq⟩
      · exact absurd hr hroot
      · exact hf q hq
      · exact ha q hq

theorem precedes_of_innermost {t : Term} {path : Path} (h : innermost t = some path) :
    ∀ q, t.RedexAt q → applicative.Precedes path q := by
  induction t generalizing path with
  | var => simp [innermost] at h
  | abs p body ih =>
    obtain ⟨found, hfound, rfl⟩ := Option.map_eq_some_iff.1 h
    intro q hq
    obtain ⟨q, rfl, hq⟩ := Term.redexAt_abs.1 hq
    exact (ih hfound q hq).cons 0
  | app func arg ihf iha =>
    intro q hq
    simp only [innermost, Option.orElse_eq_or] at h
    rcases Option.or_eq_some_iff.1 h with h | ⟨hnone, hroot⟩
    · obtain ⟨hf, ha⟩ := precedes_of_children applicative
        (fun _ => ihf) innermost_eq_none_iff.1 (fun _ => iha) h
      rcases Term.redexAt_app.1 hq with ⟨rfl, -⟩ | ⟨q, rfl, hq⟩ | ⟨q, rfl, hq⟩
      · exact .inl List.nil_prefix
      · exact hf q hq
      · exact ha q hq
    · simp only [Option.or_eq_none_iff, Option.map_eq_none_iff, innermost_eq_none_iff,
        Term.isNormal_iff] at hnone
      rcases Term.redexAt_app.1 hq with ⟨rfl, hr⟩ | ⟨q, rfl, hq⟩ | ⟨q, rfl, hq⟩
      · rw [if_pos hr] at hroot
        cases hroot
        exact .refl applicative []
      · exact absurd hq (hnone.1 q)
      · exact absurd hq (hnone.2 q)

theorem precedes_of_findRedex {strategy : Strategy} {t : Term} {path q : Path}
    (h : strategy.findRedex t = some path) (hq : t.RedexAt q) : strategy.Precedes path q := by
  cases strategy
  · exact precedes_of_outermost h q hq
  · exact precedes_of_innermost h q hq

/-- The redex that comes first is found. -/
theorem findRedex_eq_some_iff {strategy : Strategy} {t : Term} {path : Path} :
    strategy.findRedex t = some path ↔
      t.RedexAt path ∧ ∀ q, t.RedexAt q → strategy.Precedes path q := by
  constructor
  · exact fun h => ⟨isRedex_of_findRedex h, fun q => precedes_of_findRedex h⟩
  · rintro ⟨hpath, hfirst⟩
    cases h : strategy.findRedex t with
    | none => exact absurd hpath (Term.isNormal_iff.1 (findRedex_eq_none_iff.1 h) path)
    | some found =>
      have hfound : t.RedexAt found := isRedex_of_findRedex h
      rw [(precedes_of_findRedex h hpath).antisymm (hfirst found hfound)]

theorem eq_nil_of_applicative {t : Term} {path q : Path}
    (h : applicative.findRedex t = some path) (hq : t.RedexAt (path ++ q)) : q = [] := by
  rcases precedes_of_findRedex h hq with hpre | hleft
  · exact List.prefix_nil.1 ((List.prefix_append_right_inj path).1 (by simpa using hpre))
  · exact absurd (List.prefix_append path q) hleft.2

/-- The search for a redex is exact. Nothing is found exactly in the normal forms, and else the
redex that the strategy visits first. Below that one, applicative order leaves none, so it
contracts normal forms only. -/
theorem findRedex_exact (t : Term) :
    (∀ strategy : Strategy, strategy.findRedex t = none ↔ t.IsNormal) ∧
      (∀ (strategy : Strategy) (path : Path), strategy.findRedex t = some path ↔
        t.RedexAt path ∧ ∀ q, t.RedexAt q → strategy.Precedes path q) ∧
      ∀ path, applicative.findRedex t = some path →
        (∀ q, t.RedexAt (path ++ q) → q = []) ∧
          ∃ p body arg, t.subterm? path = some (.app (.abs p body) arg) ∧
            body.IsNormal ∧ arg.IsNormal := by
  refine ⟨fun _ => findRedex_eq_none_iff, fun _ _ => findRedex_eq_some_iff, fun path h => ?_⟩
  have only (q : Path) (hq : t.RedexAt (path ++ q)) : q = [] := eq_nil_of_applicative h hq
  obtain ⟨redex, hredex, hr⟩ := isRedex_of_findRedex h
  obtain ⟨p, body, arg, rfl⟩ := Term.isRedex_iff.1 hr
  have below (d : Nat) (q : Path) : ¬ (Term.app (.abs p body) arg).RedexAt (d :: q) := fun hq =>
    absurd (only (d :: q) ((Term.redexAt_append hredex _).2 hq)) (List.cons_ne_nil d q)
  refine ⟨only, p, body, arg, hredex, Term.isNormal_iff.2 fun q hq => ?_,
    Term.isNormal_iff.2 fun q hq => ?_⟩
  · exact below 0 (0 :: q) hq
  · exact below 1 q hq

/-- With a redex in the function, in the argument and around both. -/
example :
    let t := Term.app (.abs "x" (.app (.abs "y" (.var "y")) (.var "x")))
      (.app (.abs "z" (.var "z")) (.var "w"))
    normalOrder.findRedex t = some [] ∧ applicative.findRedex t = some [0, 0] := by decide

end Strategy

end NamedLambda
