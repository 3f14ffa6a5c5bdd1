import Mathlib
import NamedLambda.Proofs.Parentheses
import NamedLambda.Typing.Ty

/-!
# The text of a type determines it

The number of a variable can be read off its letter and its round (`TyVar.text_injective`).
In the text of an arrow the domain has all its spaces in parentheses, so it ends at the first
bare space, and what comes after the arrow sign is the codomain. So types have different texts
(`Ty.eq_of_spelling_eq`), as long as no base name looks like something else, and they are
equivalent exactly if their canonical forms have one text (`Ty.equivalent_iff_toString_eq`).
-/

namespace NamedLambda

namespace TyVar

theorem toNat_letter {k : Nat} (h : k < 26) :
    (Char.ofNat ('a'.toNat + k)).toNat = 'a'.toNat + k := by
  revert k
  decide

theorem isLower_letter {k : Nat} (h : k < 26) : (Char.ofNat ('a'.toNat + k)).isLower = true := by
  revert k
  decide

theorem exists_toList_text (v : TyVar) : ∃ round, (∀ c ∈ round, c.isDigit = true) ∧
    Nat.ofDigitChars 10 round 0 = v / 26 ∧
      v.text.toList = Char.ofNat ('a'.toNat + v % 26) :: round := by
  rw [text]
  split
  · next h => exact ⟨[], by simp, by simp [h], by simp⟩
  · refine ⟨Nat.toDigits 10 (v / 26), fun c hc => ?_, by simp, by simp⟩
    exact Nat.isDigit_of_mem_toDigits (by decide) (by decide) hc

theorem text_injective {v w : TyVar} (h : v.text = w.text) : v = w := by
  obtain ⟨round, -, hround, hv⟩ := v.exists_toList_text
  obtain ⟨round', -, hround', hw⟩ := w.exists_toList_text
  obtain ⟨hletter, rfl⟩ := List.cons.inj (hv.symm.trans ((congrArg String.toList h).trans hw))
  have hdiv : v / 26 = w / 26 := hround.symm.trans hround'
  have hrem : v % 26 = w % 26 := by
    have hcode := congrArg Char.toNat hletter
    rw [toNat_letter (Nat.mod_lt v (by decide)), toNat_letter (Nat.mod_lt w (by decide))] at hcode
    exact Nat.add_left_cancel hcode
  calc v
    _ = 26 * (v / 26) + v % 26 := (Nat.div_add_mod v 26).symm
    _ = 26 * (w / 26) + w % 26 := by rw [hdiv, hrem]
    _ = w := Nat.div_add_mod w 26

/-- Written like a variable: a small letter, and digits after it or none. -/
def isText (name : String) : Bool :=
  match name.toList with
  | [] => false
  | letter :: round => letter.isLower && round.all Char.isDigit

theorem isText_text (v : TyVar) : isText v.text = true := by
  obtain ⟨round, hround, -, hv⟩ := v.exists_toList_text
  rw [isText, hv, Bool.and_eq_true, List.all_eq_true]
  exact ⟨isLower_letter (Nat.mod_lt v (by decide)), hround⟩

theorem isLower_or_isDigit_of_isText {name : String} (h : isText name = true) {c : Char}
    (hc : c ∈ name.toList) : c.isLower = true ∨ c.isDigit = true := by
  rw [isText] at h
  split at h
  · cases h
  · next letter round hname =>
    rw [Bool.and_eq_true, List.all_eq_true] at h
    rcases List.mem_cons.1 (hname ▸ hc) with rfl | hc
    · exact .inl h.1
    · exact .inr (h.2 c hc)

end TyVar

namespace Ty

def delimiters : List Char := [' ', '(', ')']

/-- No base name has a delimiter in it or is written like a variable. -/
def Plain : Ty → Prop
  | var _ => True
  | base name => (∀ c ∈ delimiters, c ∉ name.toList) ∧ TyVar.isText name = false
  | arrow dom cod => dom.Plain ∧ cod.Plain

theorem Plain.mapVars {ty : Ty} (h : ty.Plain) (f : TyVar → TyVar) : (ty.mapVars f).Plain := by
  induction ty with
  | var v => trivial
  | base name => exact h
  | arrow dom cod ihd ihc => exact ⟨ihd h.1, ihc h.2⟩

theorem Plain.canonical {ty : Ty} (h : ty.Plain) : ty.canonical.Plain := h.mapVars _

def spelling (ty : Ty) : List Char := ty.text.toList

/-- The characters that stand for a type before the arrow sign. -/
def domainSpelling : Ty → List Char
  | arrow dom cod => '(' :: ((arrow dom cod).spelling ++ [')'])
  | ty => ty.spelling

theorem spelling_arrow (dom cod : Ty) : (arrow dom cod).spelling =
    dom.domainSpelling ++ ' ' :: '-' :: '>' :: ' ' :: cod.spelling := by
  cases dom <;> simp [spelling, domainSpelling, text]

theorem not_mem_spelling_var (v : TyVar) : ∀ c ∈ delimiters, c ∉ (var v).spelling := by
  have hother : ∀ c ∈ delimiters, ¬ (c.isLower = true ∨ c.isDigit = true) := by
    simp [delimiters]
  intro c hc hmem
  exact hother c hc (TyVar.isLower_or_isDigit_of_isText v.isText_text hmem)

theorem not_mem_spelling {ty : Ty} (h : ty.Plain) (hne : ∀ dom cod, ty ≠ arrow dom cod) :
    ∀ c ∈ delimiters, c ∉ ty.spelling := by
  cases ty with
  | var v => exact not_mem_spelling_var v
  | base name => exact h.1
  | arrow dom cod => exact absurd rfl (hne dom cod)

theorem atom_spelling {ty : Ty} (h : ty.Plain) (hne : ∀ dom cod, ty ≠ arrow dom cod) :
    Atom ty.spelling := by
  have hmem := not_mem_spelling h hne
  exact .of_not_mem (hmem '(' (by decide)) (hmem ')' (by decide)) (hmem ' ' (by decide))

theorem balanced_spelling {ty : Ty} (h : ty.Plain) : Balanced ty.spelling := by
  induction ty with
  | var v => exact (atom_spelling h (by simp)).toBalanced
  | base name => exact (atom_spelling h (by simp)).toBalanced
  | arrow dom cod ihd ihc =>
    have hdom : Balanced dom.domainSpelling := by
      cases dom with
      | arrow a b => exact (ihd h.1).parentheses
      | _ => exact ihd h.1
    have hsign : Balanced [' ', '-', '>', ' '] := .of_not_mem (by decide) (by decide)
    simpa [spelling_arrow] using hdom.append (hsign.append (ihc h.2))

theorem atom_domainSpelling {ty : Ty} (h : ty.Plain) : Atom ty.domainSpelling := by
  cases ty with
  | arrow dom cod => exact (balanced_spelling h).atom
  | _ => exact atom_spelling h (by simp)

/-- Before an arrow sign only an arrow begins with a parenthesis. -/
theorem domainSpelling_arrow_ne {dom cod ty : Ty} (h : ty.Plain) (hne : ∀ a b, ty ≠ arrow a b) :
    (arrow dom cod).domainSpelling ≠ ty.domainSpelling := by
  intro heq
  have hspelling : ty.domainSpelling = ty.spelling := by
    cases ty with
    | arrow a b => exact absurd rfl (hne a b)
    | _ => rfl
  rw [hspelling] at heq
  exact not_mem_spelling h hne '(' (by decide) (heq ▸ List.mem_cons_self)

theorem spelling_eq_of_domainSpelling_eq {a b : Ty} (ha : a.Plain) (hb : b.Plain)
    (h : a.domainSpelling = b.domainSpelling) : a.spelling = b.spelling := by
  cases a with
  | arrow dom cod =>
    cases b with
    | arrow dom' cod' => exact List.append_cancel_right (List.cons.inj h).2
    | _ => exact absurd h (domainSpelling_arrow_ne hb (by simp))
  | _ =>
    cases b with
    | arrow dom cod => exact absurd h.symm (domainSpelling_arrow_ne ha (by simp))
    | _ => exact h

theorem spelling_arrow_ne {dom cod ty : Ty} (hdom : dom.Plain) (h : ty.Plain)
    (hne : ∀ a b, ty ≠ arrow a b) : (arrow dom cod).spelling ≠ ty.spelling := by
  rw [spelling_arrow, ne_comm]
  exact (atom_spelling h hne).ne_append_space (atom_domainSpelling hdom).toBalanced

theorem spelling_var_ne_base (v : TyVar) {name : String} (h : (base name).Plain) :
    (var v).spelling ≠ (base name).spelling := by
  intro heq
  obtain rfl : v.text = name := String.toList_inj.1 heq
  exact Bool.false_ne_true (h.2.symm.trans v.isText_text)

theorem eq_of_spelling_eq {a b : Ty} (ha : a.Plain) (hb : b.Plain)
    (h : a.spelling = b.spelling) : a = b := by
  induction a generalizing b with
  | var v =>
    cases b with
    | var w => exact congrArg var (TyVar.text_injective (String.toList_inj.1 h))
    | base name => exact absurd h (spelling_var_ne_base v hb)
    | arrow dom cod => exact absurd h.symm (spelling_arrow_ne hb.1 ha (by simp))
  | base name =>
    cases b with
    | var w => exact absurd h.symm (spelling_var_ne_base w ha)
    | base name' => exact congrArg base (String.toList_inj.1 h)
    | arrow dom cod => exact absurd h.symm (spelling_arrow_ne hb.1 ha (by simp))
  | arrow dom cod ihd ihc =>
    cases b with
    | var w => exact absurd h (spelling_arrow_ne ha.1 hb (by simp))
    | base name => exact absurd h (spelling_arrow_ne ha.1 hb (by simp))
    | arrow dom' cod' =>
      rw [spelling_arrow, spelling_arrow] at h
      obtain ⟨hdom, hrest⟩ :=
        (atom_domainSpelling ha.1).space_append_inj (atom_domainSpelling hb.1) h
      have hcod : cod.spelling = cod'.spelling := by simpa using hrest
      rw [ihd ha.1 hb.1 (spelling_eq_of_domainSpelling_eq ha.1 hb.1 hdom), ihc ha.2 hb.2 hcod]

theorem toString_inj {a b : Ty} (ha : a.Plain) (hb : b.Plain) : toString a = toString b ↔ a = b := by
  constructor
  · intro h
    exact eq_of_spelling_eq ha hb (congrArg String.toList h)
  · intro h
    rw [h]

/-- Types are equivalent exactly if their canonical forms have one text, and only one type
has a given text. -/
theorem equivalent_iff_toString_eq {a b : Ty} (ha : a.Plain) (hb : b.Plain) :
    (a.equivalent b = true ↔ toString a.canonical = toString b.canonical) ∧
      (toString a = toString b ↔ a = b) := by
  rw [equivalent, decide_eq_true_iff]
  exact ⟨(toString_inj ha.canonical hb.canonical).symm, toString_inj ha hb⟩

/-- A base type may be named like the arrow sign. The numbers of the variables are far apart. -/
theorem equivalent_iff_toString_eq_arrowName :
    let a := arrow (arrow (var 30) (base "->")) (arrow (var TyVar.last) (var 30))
    let b := arrow (arrow (var 4) (base "->")) (arrow (var 0) (var 4))
    a.Plain ∧ b.Plain ∧ toString a = "(e1 -> ->) -> v165191049 -> e1" ∧
      toString b = "(e -> ->) -> a -> e" ∧
      toString a.canonical = "(a -> ->) -> b -> a" ∧
      toString b.canonical = "(a -> ->) -> b -> a" ∧ a.equivalent b = true ∧ a ≠ b := by
  intro a b
  have ha : a.Plain := by simp [a, Plain, delimiters, TyVar.isText]
  have hb : b.Plain := by simp [b, Plain, delimiters, TyVar.isText]
  have htext : toString a = "(e1 -> ->) -> v165191049 -> e1" := by cbv
  have htext' : toString b = "(e -> ->) -> a -> e" := by cbv
  have hcanon : toString a.canonical = "(a -> ->) -> b -> a" := by cbv
  have hcanon' : toString b.canonical = "(a -> ->) -> b -> a" := by cbv
  obtain ⟨hequiv, hinj⟩ := equivalent_iff_toString_eq ha hb
  refine ⟨ha, hb, htext, htext', hcanon, hcanon', hequiv.2 (hcanon.trans hcanon'.symm), ?_⟩
  exact mt hinj.2 (by rw [htext, htext']; decide)

/-- A base name that is written like a variable cannot be told from it. -/
example : toString (base "a") = toString (var 0) := by cbv

end Ty

end NamedLambda
