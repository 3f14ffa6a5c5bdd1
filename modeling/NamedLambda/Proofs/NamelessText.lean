import NamedLambda.Proofs.AlphaReduction
import NamedLambda.Term.Text
import NamedLambda.Vocabulary

/-!
# The nameless text as a normal form

Terms that are equal up to bound names have one nameless text, and where the free names
can be told from all else in a text, it determines the term up to bound names
(`Term.text_nameless_canonical`). The text is read back character by character: a frame
holds what has been read inside one pair of parentheses, and the frames around it lie on
a stack (`Term.reads_textIn`).
-/

namespace NamedLambda

namespace Nameless

def delimiters : List Char := [' ', '(', ')', 'λ', '.']

/-- A name that stands out in a text as a word, and as no index. -/
structure Legible (x : Name) : Prop where
  nonempty : x ≠ ""
  plain : ∀ c ∈ x.toList, c ∉ delimiters
  not_numeral : Vocabulary.isNumeral x = false

def ofWord (word : List Char) : Nameless :=
  if word.all Char.isDigit then bound (Nat.ofDigitChars 10 word 0) else free (String.ofList word)

theorem ofWord_index (i : Nat) : ofWord (toString i).toList = bound i := by
  rw [ofWord, if_pos (List.all_eq_true.2 fun c hc => Decimal.isDigit_of_mem_toString hc)]
  simp

theorem Legible.ofWord_eq {x : Name} (h : Legible x) : ofWord x.toList = free x := by
  have word : x.toList.all Char.isDigit = false := by
    simpa [Vocabulary.isNumeral, h.nonempty] using h.not_numeral
  simp [ofWord, word]

/-- What has been read inside one pair of parentheses: binders, and after them terms, each
one applied to the next. -/
structure Frame where
  binders : Nat
  term : Option Nameless

namespace Frame

def start : Frame := ⟨0, none⟩

def bind (f : Frame) : Frame := ⟨f.binders + 1, f.term⟩

/-- The first term is no argument. -/
def push (f : Frame) (t : Nameless) : Frame :=
  ⟨f.binders, some (match f.term with
    | none => t
    | some func => app func t)⟩

def close? (f : Frame) : Option Nameless := f.term.map lam^[f.binders]

/-- The frame in which just the term has been read, after some binders. -/
def after (binders : Nat) : Nameless → Frame
  | lam body => after (binders + 1) body
  | t => ⟨binders, some t⟩

theorem close?_after (n : Nat) (t : Nameless) : (after n t).close? = some (lam^[n] t) := by
  induction t generalizing n with
  | lam body ih => exact ih (n + 1)
  | _ => rfl

theorem after_of_ne_lam {t : Nameless} (h : ∀ body, t ≠ lam body) (n : Nat) :
    after n t = ⟨n, some t⟩ := by
  cases t with
  | lam body => exact absurd rfl (h body)
  | _ => rfl

end Frame

/-- A place in a text: the word that has begun, its last character first, and the frames
around the place, the innermost one apart. -/
structure Reading where
  word : List Char
  frame : Frame
  outer : List Frame

namespace Reading

def flush (s : Reading) : Reading :=
  if s.word.isEmpty then s else ⟨[], s.frame.push (ofWord s.word.reverse), s.outer⟩

def take (s : Reading) (c : Char) : Option Reading :=
  if c = ' ' then some s.flush
  else if c = '(' then some ⟨[], .start, s.frame :: s.outer⟩
  else if c = ')' then
    match s.flush.frame.close?, s.outer with
    | some t, f :: outer => some ⟨[], f.push t, outer⟩
    | _, _ => none
  else if c = 'λ' then some ⟨[], s.frame.bind, s.outer⟩
  else if c = '.' then some s
  else some ⟨c :: s.word, s.frame, s.outer⟩

/-- The characters lead from one place to the other, when the last word is complete. -/
def Reads (cs : List Char) (s s' : Reading) : Prop := (cs.foldlM take s).map flush = some s'

variable {cs ds : List Char} {f g : Frame} {outer : List Frame}

theorem take_word {s : Reading} {c : Char} (hc : c ∉ delimiters) :
    s.take c = some ⟨c :: s.word, s.frame, s.outer⟩ := by
  simp only [delimiters, List.mem_cons, List.not_mem_nil, or_false, not_or] at hc
  obtain ⟨hspace, hopen, hclose, hlam, hdot⟩ := hc
  rw [take, if_neg hspace, if_neg hopen, if_neg hclose, if_neg hlam, if_neg hdot]

theorem foldlM_take_word {word : List Char} (plain : ∀ c ∈ word, c ∉ delimiters)
    (s : Reading) :
    word.foldlM take s = some ⟨word.reverse ++ s.word, s.frame, s.outer⟩ := by
  induction word generalizing s with
  | nil => rfl
  | cons c word ih =>
    rw [List.foldlM_cons, take_word (plain c List.mem_cons_self)]
    simpa using ih (fun d hd => plain d (List.mem_cons_of_mem _ hd)) ⟨c :: s.word, s.frame, s.outer⟩

theorem reads_word {word : List Char} (nonempty : word ≠ [])
    (plain : ∀ c ∈ word, c ∉ delimiters) :
    Reads word ⟨[], f, outer⟩ ⟨[], f.push (ofWord word), outer⟩ := by
  simp [Reads, foldlM_take_word plain, flush, nonempty]

theorem Reads.space {s s₁ s₂ : Reading} (h : Reads cs s s₁) (h' : Reads ds s₁ s₂) :
    Reads (cs ++ ' ' :: ds) s s₂ := by
  obtain ⟨r, hr, rfl⟩ := Option.map_eq_some_iff.1 h
  rw [Reads, List.foldlM_append, hr]
  exact h'

theorem Reads.parentheses {t : Nameless}
    (h : Reads cs ⟨[], .start, f :: outer⟩ ⟨[], g, f :: outer⟩) (hg : g.close? = some t) :
    Reads ('(' :: (cs ++ [')'])) ⟨[], f, outer⟩ ⟨[], f.push t, outer⟩ := by
  obtain ⟨r, hr, hflush⟩ := Option.map_eq_some_iff.1 h
  have houter : r.outer = f :: outer := by
    have := congrArg Reading.outer hflush
    unfold flush at this
    split at this <;> exact this
  have hclose : r.take ')' = some ⟨[], f.push t, outer⟩ := by
    simp [take, hflush, hg, houter]
  have hopen : take ⟨[], f, outer⟩ '(' = some ⟨[], .start, f :: outer⟩ := rfl
  rw [Reads, List.foldlM_cons, hopen]
  simp [List.foldlM_append, hr, hclose, flush]

theorem Reads.binder {s : Reading} (h : Reads cs ⟨[], f.bind, outer⟩ s) :
    Reads ('λ' :: '.' :: cs) ⟨[], f, outer⟩ s := h

end Reading

/-- The term of a text. Whether the text is one of a term is not checked in full. -/
def read? (text : String) : Option Nameless :=
  ((text.toList.foldlM Reading.take ⟨[], .start, []⟩).map Reading.flush).bind (·.frame.close?)

end Nameless

namespace Term

open Nameless (Legible Frame Reading)
open Nameless.Reading (Reads)

theorem AlphaRel.textIn_eq {left right : Scope} {s t : Term} (h : AlphaRel left right s t) :
    s.textIn .nameless left = t.textIn .nameless right := by
  induction h with
  | @var left right x y h =>
    simp only [namelessIn] at h
    simp only [textIn, variableText]
    cases hx : left.index? x <;> cases hy : right.index? y <;> simp_all
  | abs _ ih => simp only [textIn, binderText, ih]
  | @app _ _ f g a b hf ha ihf iha =>
    have function : f.parenthesizedAsFunction = g.parenthesizedAsFunction := by cases hf <;> rfl
    have argument : a.parenthesizedAsArgument = b.parenthesizedAsArgument := by cases ha <;> rfl
    simp only [textIn, ihf, iha, function, argument]

/-- The free names of the term under the given binders are legible. -/
def LegibleIn (scope : Scope) (t : Term) : Prop :=
  ∀ x, t.occursFree x = true → scope.index? x = none → Legible x

namespace LegibleIn

variable {scope : Scope}

theorem body {p : Name} {t : Term} (h : (abs p t).LegibleIn scope) :
    t.LegibleIn (p :: scope) := by
  intro x hx hfree
  by_cases hp : x = p
  · rw [Scope.index?_cons_zero.2 hp] at hfree
    cases hfree
  · refine h x (by simp [occursFree, hx, hp]) ?_
    simpa [Scope.index?, List.idxOf?_cons, Ne.symm hp] using hfree

theorem func {f a : Term} (h : (app f a).LegibleIn scope) : f.LegibleIn scope :=
  fun x hx => h x (by simp [occursFree, hx])

theorem arg {f a : Term} (h : (app f a).LegibleIn scope) : a.LegibleIn scope :=
  fun x hx => h x (by simp [occursFree, hx])

end LegibleIn

theorem reads_variableText {scope : Scope} {x : Name} (h : (var x).LegibleIn scope) (f : Frame)
    (outer : List Frame) :
    Reads (variableText .nameless scope x).toList ⟨[], f, outer⟩
      ⟨[], f.push ((var x).namelessIn scope), outer⟩ := by
  simp only [variableText, namelessIn]
  cases hx : scope.index? x with
  | none =>
    have legible : Legible x := h x (by simp [occursFree]) hx
    simp only [← legible.ofWord_eq]
    exact Reading.reads_word (by simpa using legible.nonempty) legible.plain
  | some i =>
    simp only [← Nameless.ofWord_index]
    refine Reading.reads_word (by simp) ?_
    intro c hc hmem
    have digit := Decimal.isDigit_of_mem_toString hc
    fin_cases hmem <;> exact absurd digit (by decide)

/-- Only an abstraction adds to the binders that have been read. -/
theorem after_namelessIn {t : Term} (h : ∀ p body, t ≠ abs p body) (scope : Scope) (n : Nat) :
    Frame.after n (t.namelessIn scope) = ⟨n, some (t.namelessIn scope)⟩ :=
  Frame.after_of_ne_lam (namelessIn_ne_lam h scope) n

theorem reads_parenthesize {scope : Scope} {t : Term} {f : Frame} {outer : List Frame}
    (h : Reads (t.textIn .nameless scope).toList ⟨[], .start, f :: outer⟩
      ⟨[], .after 0 (t.namelessIn scope), f :: outer⟩) :
    Reads (parenthesize true (t.textIn .nameless scope)).toList ⟨[], f, outer⟩
      ⟨[], f.push (t.namelessIn scope), outer⟩ := by
  simpa [parenthesize] using h.parentheses (Frame.close?_after 0 _)

/-- The text of a term is read as the term, and what is around it does not matter. -/
theorem reads_textIn {scope : Scope} {t : Term} (h : t.LegibleIn scope) (n : Nat)
    (outer : List Frame) :
    Reads (t.textIn .nameless scope).toList ⟨[], ⟨n, none⟩, outer⟩
      ⟨[], .after n (t.namelessIn scope), outer⟩ := by
  -- for all `n`, since a body is read in the frame of its binder
  induction t generalizing scope n outer with
  | var x =>
    rw [after_namelessIn (by simp)]
    exact reads_variableText h ⟨n, none⟩ outer
  | abs p body ih =>
    have hbody := ih h.body (n + 1) outer
    simpa [textIn, binderText] using Reads.binder hbody
  | app func arg ihf iha =>
    have hfunc : Reads (parenthesize func.parenthesizedAsFunction
        (func.textIn .nameless scope)).toList ⟨[], ⟨n, none⟩, outer⟩
        ⟨[], ⟨n, some (func.namelessIn scope)⟩, outer⟩ := by
      have hread := ihf h.func n outer
      cases func with
      | abs p body => exact reads_parenthesize (ihf h.func 0 _)
      | var x => rwa [after_namelessIn (by simp)] at hread
      | app f a => rwa [after_namelessIn (by simp)] at hread
    have harg : Reads (parenthesize arg.parenthesizedAsArgument
        (arg.textIn .nameless scope)).toList ⟨[], ⟨n, some (func.namelessIn scope)⟩, outer⟩
        ⟨[], .after n ((app func arg).namelessIn scope), outer⟩ := by
      cases arg with
      | var x => exact reads_variableText h.arg _ outer
      | abs p body => exact reads_parenthesize (iha h.arg 0 _)
      | app f a => exact reads_parenthesize (iha h.arg 0 _)
    simpa [textIn] using hfunc.space harg

/-- The nameless text of a term can be read back. -/
theorem read?_text {t : Term} (h : ∀ x, t.occursFree x = true → Legible x) :
    Nameless.read? (t.text .nameless) = some t.nameless := by
  have hread := @reads_textIn [] t (fun x hx _ => h x hx) 0 []
  calc Nameless.read? (t.text .nameless)
    _ = (some (⟨[], .after 0 t.nameless, []⟩ : Reading)).bind (·.frame.close?) :=
      congrArg (Option.bind · _) hread
    _ = some t.nameless := Frame.close?_after 0 t.nameless

/-- Equality up to bound names gives one nameless text, and where the free names are
legible it is the same as that. -/
theorem text_nameless_canonical (s t : Term) :
    (s.alphaEquiv t = true → (s.layout .nameless).text = (t.layout .nameless).text) ∧
      ((∀ x, x ∈ s.freeVars ∨ x ∈ t.freeVars → Legible x) →
        (s.layout .nameless).text = (t.layout .nameless).text → s.alphaEquiv t = true) := by
  simp only [text_layout]
  constructor
  · intro h
    exact (alphaRel_nil_iff.2 h).textIn_eq
  · intro legible htext
    have hs := read?_text fun x hx => legible x (.inl (mem_freeVars.2 hx))
    have ht := read?_text fun x hx => legible x (.inr (mem_freeVars.2 hx))
    rw [alphaEquiv_iff]
    exact Option.some.inj (hs.symm.trans ((congrArg Nameless.read? htext).trans ht))

/-- A free name of digits would look like an index. -/
example : (abs "x" (var "0")).text .nameless = (abs "x" (var "x")).text .nameless := by cbv

def twoBlocks (p q : Name) : Term :=
  abs p ((var "x1").apply [abs q (app (var q) (var p)), abs p (var p)])

/-- The digit at the end of `x1` makes no index of it. -/
theorem text_nameless_canonical_twoBlocks :
    ((twoBlocks "x" "y").layout .nameless).text = "λ.x1 (λ.0 1) (λ.0)" ∧
      Legible "x1" ∧ (twoBlocks "x" "y").alphaEquiv (twoBlocks "u" "x") = true ∧
      ((twoBlocks "x" "y").layout .nameless).text =
        ((twoBlocks "u" "x").layout .nameless).text := by
  have legible : Legible "x1" := ⟨by decide, by simp [Nameless.delimiters], by decide⟩
  have free (p q x : Name) (h : x ∈ (twoBlocks p q).freeVars) : x = "x1" := by
    simp only [mem_freeVars, twoBlocks, apply, List.foldl, occursFree] at h
    grind
  have htext : ((twoBlocks "x" "y").layout .nameless).text =
      ((twoBlocks "u" "x").layout .nameless).text := by cbv
  obtain ⟨same, alike⟩ := text_nameless_canonical (twoBlocks "x" "y") (twoBlocks "u" "x")
  have halike : (twoBlocks "x" "y").alphaEquiv (twoBlocks "u" "x") = true := by
    refine alike ?_ htext
    rintro x (hx | hx)
    · exact free _ _ x hx ▸ legible
    · exact free _ _ x hx ▸ legible
  exact ⟨by cbv, legible, halike, same halike⟩

end Term

end NamedLambda
