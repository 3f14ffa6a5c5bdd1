import NamedLambda.Proofs.AlphaRenaming
import NamedLambda.Proofs.NamelessText
import NamedLambda.Proofs.Parentheses

/-!
# The named text determines the term

Names without delimiters can be read off a text, and with the few parentheses that there are,
so can the tree (`Term.toString_unambiguous`). A space outside of all parentheses belongs to
an application, and after the last one comes its argument (`Atom.append_space_inj`). A binder
sign at the beginning belongs to an abstraction.
-/

namespace NamedLambda

namespace Term

open Nameless (delimiters)

/-- No name in the term has a delimiter in it. -/
def Plain (t : Term) : Prop := ∀ x ∈ t.allNames, ∀ c ∈ x.toList, c ∉ delimiters

def spelling (t : Term) : List Char := (t.text .named).toList

/-- The characters in parentheses, or as they are. -/
def enclose (b : Bool) (cs : List Char) : List Char := if b then '(' :: (cs ++ [')']) else cs

theorem spelling_abs (p : Name) (body : Term) :
    (abs p body).spelling = 'λ' :: (p.toList ++ '.' :: ' ' :: body.spelling) := by
  simp [spelling, text, textIn, binderText, textIn_named [p] body]

theorem spelling_app (func arg : Term) :
    (app func arg).spelling = enclose func.parenthesizedAsFunction func.spelling ++
      ' ' :: enclose arg.parenthesizedAsArgument arg.spelling := by
  simp only [spelling, text, textIn, parenthesize, enclose]
  split <;> split <;> simp

namespace Plain

theorem not_mem_var {x : Name} (h : (var x).Plain) {c : Char} (hc : c ∈ delimiters) :
    c ∉ (var x).spelling := fun hmem => h x (by simp [allNames]) c hmem hc

theorem not_mem_param {p : Name} {body : Term} (h : (abs p body).Plain) {c : Char}
    (hc : c ∈ delimiters) : c ∉ p.toList := fun hmem => h p (by simp [allNames]) c hmem hc

theorem body {p : Name} {t : Term} (h : (abs p t).Plain) : t.Plain :=
  fun x hx => h x (List.mem_cons_of_mem p hx)

theorem func {f a : Term} (h : (app f a).Plain) : f.Plain :=
  fun x hx => h x (List.mem_append_left _ hx)

theorem arg {f a : Term} (h : (app f a).Plain) : a.Plain :=
  fun x hx => h x (List.mem_append_right _ hx)

end Plain

theorem atom_var {x : Name} (h : (var x).Plain) : Atom (var x).spelling :=
  .of_not_mem (h.not_mem_var (by decide)) (h.not_mem_var (by decide)) (h.not_mem_var (by decide))

theorem balanced_enclose {cs : List Char} (h : Balanced cs) (b : Bool) :
    Balanced (enclose b cs) := by
  cases b
  · exact h
  · exact h.parentheses

theorem balanced_spelling {t : Term} (h : t.Plain) : Balanced t.spelling := by
  induction t with
  | var x => exact (atom_var h).toBalanced
  | abs p body ih =>
    have hhead : Balanced ('λ' :: (p.toList ++ ['.', ' '])) := by
      apply Balanced.of_not_mem
      · have hopen : '(' ∉ p.toList := h.not_mem_param (by decide)
        simpa using hopen
      · have hclose : ')' ∉ p.toList := h.not_mem_param (by decide)
        simpa using hclose
    simpa [spelling_abs] using hhead.append (ih h.body)
  | app func arg ihf iha =>
    have hspace : Balanced [' '] := .of_not_mem (by simp) (by simp)
    have hfunc := balanced_enclose (ihf h.func) func.parenthesizedAsFunction
    have harg := balanced_enclose (iha h.arg) arg.parenthesizedAsArgument
    simpa [spelling_app] using hfunc.append (hspace.append harg)

theorem atom_argument {t : Term} (h : t.Plain) :
    Atom (enclose t.parenthesizedAsArgument t.spelling) := by
  cases t with
  | var x => exact atom_var h
  | abs p body => exact (balanced_spelling h).atom
  | app func arg => exact (balanced_spelling h).atom

theorem head?_spelling_ne {t : Term} (h : t.Plain) (hne : ∀ p body, t ≠ abs p body) :
    t.spelling.head? ≠ some 'λ' := by
  induction t with
  | var x =>
    have hlam : 'λ' ∉ (var x).spelling := h.not_mem_var (by decide)
    exact fun hhead => hlam (List.mem_of_mem_head? hhead)
  | abs p body => exact absurd rfl (hne p body)
  | app func arg ihf _ =>
    have hfunc : (enclose func.parenthesizedAsFunction func.spelling).head? ≠ some 'λ' := by
      cases func with
      | var x => exact ihf h.func (by simp)
      | abs p body => simp [enclose, parenthesizedAsFunction]
      | app f a => exact ihf h.func (by simp)
    intro hhead
    rw [spelling_app, List.head?_append] at hhead
    rcases Option.or_eq_some_iff.1 hhead with hhead | ⟨-, hhead⟩
    · exact hfunc hhead
    · simp at hhead

theorem spelling_ne_enclose {t : Term} (h : t.Plain) (hne : ∀ p body, t ≠ abs p body)
    {cs : List Char} (hcs : Balanced cs) : t.spelling ≠ enclose true cs := by
  cases t with
  | var x =>
    intro heq
    have hopen : '(' ∉ (var x).spelling := h.not_mem_var (by decide)
    simp [heq, enclose] at hopen
  | abs p body => exact absurd rfl (hne p body)
  | app func arg =>
    rw [spelling_app, ne_comm]
    exact hcs.atom.ne_append_space (balanced_enclose (balanced_spelling h.func) _)

theorem ne_abs_of_bareFunction {t : Term} (h : t.parenthesizedAsFunction = false) :
    ∀ p body, t ≠ abs p body := by
  rintro p body rfl
  cases h

theorem ne_abs_of_bareArgument {t : Term} (h : t.parenthesizedAsArgument = false) :
    ∀ p body, t ≠ abs p body := by
  rintro p body rfl
  cases h

/-- Where only an abstraction has to be in parentheses, these need not be marked. -/
theorem spelling_eq_of_enclose {s t : Term} (hs : s.Plain) (ht : t.Plain) {b c : Bool}
    (hb : b = false → ∀ p body, s ≠ abs p body) (hc : c = false → ∀ p body, t ≠ abs p body)
    (h : enclose b s.spelling = enclose c t.spelling) : s.spelling = t.spelling := by
  cases b <;> cases c
  · exact h
  · exact absurd h (spelling_ne_enclose hs (hb rfl) (balanced_spelling ht))
  · exact absurd h.symm (spelling_ne_enclose ht (hc rfl) (balanced_spelling hs))
  · simpa [enclose] using h

theorem spelling_abs_ne {p : Name} {body t : Term} (h : t.Plain) (hne : ∀ q u, t ≠ abs q u) :
    (abs p body).spelling ≠ t.spelling := by
  intro heq
  have hhead := head?_spelling_ne h hne
  simp [← heq, spelling_abs] at hhead

theorem spelling_var_ne_app {x : Name} {func arg : Term} (hx : (var x).Plain)
    (h : (app func arg).Plain) : (var x).spelling ≠ (app func arg).spelling := by
  rw [spelling_app]
  exact (atom_var hx).ne_append_space (balanced_enclose (balanced_spelling h.func) _)

theorem spelling_abs_inj {p q : Name} {s t : Term} (hs : (abs p s).Plain) (ht : (abs q t).Plain)
    (h : (abs p s).spelling = (abs q t).spelling) : p = q ∧ s.spelling = t.spelling := by
  have hp : '.' ∉ p.toList := hs.not_mem_param (by decide)
  have hq : '.' ∉ q.toList := ht.not_mem_param (by decide)
  rw [spelling_abs, spelling_abs] at h
  rcases append_cons_cases (List.cons.inj h).2 with ⟨hname, hrest⟩ | ⟨es, hes, -⟩ | ⟨es, hes, -⟩
  · exact ⟨String.toList_inj.1 hname, (List.cons.inj hrest).2⟩
  · exact absurd (by simp [hes]) hq
  · exact absurd (by simp [hes]) hp

theorem eq_of_spelling_eq {s t : Term} (hs : s.Plain) (ht : t.Plain)
    (h : s.spelling = t.spelling) : s = t := by
  induction s generalizing t with
  | var x =>
    cases t with
    | var y => exact congrArg var (String.toList_inj.1 h)
    | abs q u => exact absurd h.symm (spelling_abs_ne hs (by simp))
    | app g b => exact absurd h (spelling_var_ne_app hs ht)
  | abs p s ih =>
    cases t with
    | abs q u =>
      obtain ⟨rfl, hbody⟩ := spelling_abs_inj hs ht h
      rw [ih hs.body ht.body hbody]
    | var y => exact absurd h (spelling_abs_ne ht (by simp))
    | app g b => exact absurd h (spelling_abs_ne ht (by simp))
  | app f a ihf iha =>
    cases t with
    | var y => exact absurd h.symm (spelling_var_ne_app ht hs)
    | abs q u => exact absurd h.symm (spelling_abs_ne hs (by simp))
    | app g b =>
      rw [spelling_app, spelling_app] at h
      obtain ⟨hfunc, harg⟩ := (atom_argument hs.arg).append_space_inj (atom_argument ht.arg) h
      rw [ihf hs.func ht.func (spelling_eq_of_enclose hs.func ht.func ne_abs_of_bareFunction
          ne_abs_of_bareFunction hfunc),
        iha hs.arg ht.arg (spelling_eq_of_enclose hs.arg ht.arg ne_abs_of_bareArgument
          ne_abs_of_bareArgument harg)]

/-- Terms without delimiters in their names are the same if their texts are. -/
theorem toString_unambiguous {s t : Term} (hs : s.Plain) (ht : t.Plain)
    (h : toString s = toString t) : s = t :=
  eq_of_spelling_eq hs ht (congrArg String.toList h)

/-- The term `(λf. λx'. f (f x')) (λé. é) z`, with or without the abbreviations for several
parameters and several arguments. -/
theorem toString_unambiguous_nested :
    let s := (lambda ["f", "x'"] (app (var "f") (app (var "f") (var "x'")))).apply
      [abs "é" (var "é"), var "z"]
    let t := app (app (abs "f" (abs "x'" (app (var "f") (app (var "f") (var "x'")))))
      (abs "é" (var "é"))) (var "z")
    s.Plain ∧ t.Plain ∧ toString s = "(λf. λx'. f (f x')) (λé. é) z" ∧
      toString t = "(λf. λx'. f (f x')) (λé. é) z" ∧ s = t := by
  intro s t
  have hs : s.Plain := by simp [s, Plain, lambda, apply, allNames, delimiters]
  have ht : t.Plain := by simp [t, Plain, allNames, delimiters]
  have htext : toString s = "(λf. λx'. f (f x')) (λé. é) z" := by cbv
  have htext' : toString t = "(λf. λx'. f (f x')) (λé. é) z" := by cbv
  exact ⟨hs, ht, htext, htext', toString_unambiguous hs ht (htext.trans htext'.symm)⟩

end Term

end NamedLambda
