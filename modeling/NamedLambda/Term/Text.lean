import NamedLambda.Term.Basic

/-!
# The text of a term, and where its subterms stand in it

Two styles: with binder names as they are (`λx. x y`), or nameless (`λ.0 y`),
where a bound variable is the number of binders between it and its own.
Application associates to the left, an abstraction extends as far as possible,
and parentheses stand only where these rules need them.

A layout gives the text together with the byte span of every subterm, the
subterm's own parentheses left out.
-/

namespace NamedLambda

inductive Style where
  | named
  | nameless
deriving DecidableEq

namespace Term

def variableText (style : Style) (scope : Scope) (x : Name) : String :=
  match style with
  | .named => x
  | .nameless => match scope.index? x with
    | some i => toString i
    | none => x

def binderText (style : Style) (p : Name) : String :=
  match style with
  | .named => "λ" ++ p ++ ". "
  | .nameless => "λ."

/-- An abstraction in function position is put in parentheses. -/
def parenthesizedAsFunction : Term → Bool
  | abs _ _ => true
  | _ => false

def parenthesizedAsArgument : Term → Bool
  | var _ => false
  | _ => true

def parenthesize (b : Bool) (text : String) : String :=
  if b then "(" ++ text ++ ")" else text

def textIn (style : Style) (scope : Scope) : Term → String
  | var x => variableText style scope x
  | abs p body => binderText style p ++ textIn style (p :: scope) body
  | app func arg =>
    parenthesize func.parenthesizedAsFunction (textIn style scope func) ++ " " ++
      parenthesize arg.parenthesizedAsArgument (textIn style scope arg)

def text (style : Style) (t : Term) : String := t.textIn style []

instance : ToString Term := ⟨text .named⟩

theorem textIn_named (scope : Scope) (t : Term) : t.textIn .named scope = t.text .named := by
  have same (scope' : Scope) : t.textIn .named scope = t.textIn .named scope' := by
    induction t generalizing scope scope' with
    | var => rfl
    | abs p body ih => simp only [textIn, ih (p :: scope) (p :: scope')]
    | app func arg ihf iha => simp only [textIn, ihf scope scope', iha scope scope']
  exact same []

end Term

/-- Byte offsets in a text: the first byte, and the one after the last. -/
structure Span where
  start : Nat
  stop : Nat
deriving DecidableEq

/-- The spans come in pre-order, each with the position of its subterm. -/
structure Layout where
  text : String
  spans : List (Path × Span)

namespace Layout

def spanOf (l : Layout) (path : Path) : Option Span := l.spans.lookup path

def slice (l : Layout) (span : Span) : Option String :=
  String.fromUTF8? (l.text.toUTF8.extract span.start span.stop)

def sliceOf (l : Layout) (path : Path) : Option String := (l.spanOf path).bind l.slice

/-- The layout of a subterm that is put in parentheses or not, and stands in
direction `d`. -/
def child (d : Nat) (parens : Bool) (l : Layout) : Layout :=
  ⟨Term.parenthesize parens l.text, l.spans.map fun e => (d :: e.1, e.2)⟩

end Layout

namespace Term

/-- Where a subterm starts in its own text. -/
def parenthesisWidth (b : Bool) : Nat := if b then 1 else 0

/-- The layout of a term whose text starts at byte `start`. -/
def layoutIn (style : Style) (scope : Scope) (start : Nat) : Term → Layout
  | var x =>
    let text := variableText style scope x
    ⟨text, [([], ⟨start, start + text.utf8ByteSize⟩)]⟩
  | abs p body =>
    let head := binderText style p
    let inner := (layoutIn style (p :: scope) (start + head.utf8ByteSize) body).child 0 false
    let text := head ++ inner.text
    ⟨text, ([], ⟨start, start + text.utf8ByteSize⟩) :: inner.spans⟩
  | app func arg =>
    let funcParens := func.parenthesizedAsFunction
    let argParens := arg.parenthesizedAsArgument
    let left := (layoutIn style scope (start + parenthesisWidth funcParens) func).child 0 funcParens
    let argStart := start + left.text.utf8ByteSize + 1
    let right := (layoutIn style scope (argStart + parenthesisWidth argParens) arg).child 1 argParens
    let text := left.text ++ " " ++ right.text
    ⟨text, ([], ⟨start, start + text.utf8ByteSize⟩) :: (left.spans ++ right.spans)⟩

def layout (style : Style) (t : Term) : Layout := t.layoutIn style [] 0

theorem text_layoutIn (style : Style) (scope : Scope) (start : Nat) (t : Term) :
    (t.layoutIn style scope start).text = t.textIn style scope := by
  induction t generalizing scope start with
  | var => rfl
  | abs p body ih => simp [layoutIn, textIn, Layout.child, parenthesize, ih]
  | app func arg ihf iha => simp [layoutIn, textIn, Layout.child, ihf, iha]

theorem text_layout (style : Style) (t : Term) : (t.layout style).text = t.text style :=
  text_layoutIn ..

end Term

end NamedLambda
