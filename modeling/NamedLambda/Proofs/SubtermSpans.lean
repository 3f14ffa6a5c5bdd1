import Mathlib
import NamedLambda.Proofs.IteratedContraction
import NamedLambda.Report

/-!
# Where the subterms stand in a text

A layout has one span for each position of the term, and the text of a subterm is what its
span cuts out of the text of the whole term (`Term.layout_exact`). On the way down to a
subterm its text gets what is before it and what comes after (`Term.Stands`), and its spans
move along. So spans nest as the subterms do, and those of two subterms side by side have a
space between them.
-/

namespace NamedLambda

namespace Layout

variable {l : Layout} {d e : Nat} {parens : Bool} {path : Path}

theorem spanOf_child_cons :
    (l.child d parens).spanOf (e :: path) = if e = d then l.spanOf path else none := by
  obtain ⟨text, spans⟩ := l
  simp only [spanOf, child]
  induction spans with
  | nil => simp
  | cons s spans ih =>
    simp only [List.map_cons, List.lookup_cons, ih]
    by_cases h : e = d <;> grind

theorem map_fst_child :
    (l.child d parens).spans.map (·.1) = (l.spans.map (·.1)).map (d :: ·) := by
  simp [child]

end Layout

namespace Term

def opening (b : Bool) : String := if b then "(" else ""

def closing (b : Bool) : String := if b then ")" else ""

theorem parenthesize_eq (b : Bool) (text : String) :
    parenthesize b text = opening b ++ text ++ closing b := by
  cases b <;> simp [parenthesize, opening, closing]

theorem utf8ByteSize_opening (b : Bool) : (opening b).utf8ByteSize = parenthesisWidth b := by
  cases b <;> rfl

section

variable (style : Style) (scope : Scope) (start d : Nat) (path : Path)

theorem spanOf_nil (t : Term) : (t.layoutIn style scope start).spanOf [] =
    some ⟨start, start + (t.textIn style scope).utf8ByteSize⟩ := by
  rw [← text_layoutIn style scope start]
  cases t <;> rfl

theorem spanOf_abs (p : Name) (body : Term) :
    ((abs p body).layoutIn style scope start).spanOf (d :: path) =
      if d = 0 then (body.layoutIn style (p :: scope)
        (start + (binderText style p).utf8ByteSize)).spanOf path
      else none :=
  Layout.spanOf_child_cons

theorem spanOf_app (func arg : Term) :
    ((app func arg).layoutIn style scope start).spanOf (d :: path) =
      if d = 0 then (func.layoutIn style scope
        (start + parenthesisWidth func.parenthesizedAsFunction)).spanOf path
      else if d = 1 then (arg.layoutIn style scope
        (start + (parenthesize func.parenthesizedAsFunction
          (func.textIn style scope)).utf8ByteSize + 1 +
          parenthesisWidth arg.parenthesizedAsArgument)).spanOf path
      else none := by
  set left := (func.layoutIn style scope
    (start + parenthesisWidth func.parenthesizedAsFunction)).child 0
      func.parenthesizedAsFunction with hleft
  have htext : left.text = parenthesize func.parenthesizedAsFunction (func.textIn style scope) := by
    rw [hleft, Layout.child, text_layoutIn]
  set right := (arg.layoutIn style scope (start + left.text.utf8ByteSize + 1 +
    parenthesisWidth arg.parenthesizedAsArgument)).child 1 arg.parenthesizedAsArgument with hright
  have hspans : ((app func arg).layoutIn style scope start).spanOf (d :: path) =
      (left.spanOf (d :: path)).or (right.spanOf (d :: path)) := List.lookup_append
  rw [hspans, hleft, hright, Layout.spanOf_child_cons, Layout.spanOf_child_cons, htext]
  by_cases h0 : d = 0
  · simp [h0]
  · simp [h0]

end

/-- All positions of a term, each before those below it, from left to right. -/
def positions : Term → List Path
  | var _ => [[]]
  | abs _ body => [] :: body.positions.map (0 :: ·)
  | app func arg => [] :: (func.positions.map (0 :: ·) ++ arg.positions.map (1 :: ·))

theorem mem_positions {t : Term} {path : Path} :
    path ∈ t.positions ↔ (t.subterm? path).isSome = true := by
  induction t generalizing path with
  | var x => cases path <;> simp [positions, subterm?]
  | abs p body ih => rcases path with _ | ⟨_ | d, path⟩ <;> simp [positions, subterm?, ih]
  | app func arg ihf iha =>
    rcases path with _ | ⟨_ | _ | d, path⟩ <;> simp [positions, subterm?, ihf, iha]

theorem nodup_positions (t : Term) : t.positions.Nodup := by
  induction t with
  | var x => exact List.nodup_singleton []
  | abs p body ih =>
    have hbody : (body.positions.map (0 :: ·)).Nodup := ih.map List.cons_injective
    exact List.nodup_cons.2 ⟨by simp, hbody⟩
  | app func arg ihf iha =>
    have hfunc : (func.positions.map (0 :: ·)).Nodup := ihf.map List.cons_injective
    have harg : (arg.positions.map (1 :: ·)).Nodup := iha.map List.cons_injective
    refine List.nodup_cons.2 ⟨by simp, List.nodup_append.2 ⟨hfunc, harg, ?_⟩⟩
    simp

theorem length_positions (t : Term) : t.positions.length = t.size := by
  induction t with
  | var x => rfl
  | abs p body ih => simp [positions, size, ih]
  | app func arg ihf iha => simp [positions, size, ihf, iha]

theorem map_fst_spans (style : Style) (scope : Scope) (start : Nat) (t : Term) :
    (t.layoutIn style scope start).spans.map (·.1) = t.positions := by
  induction t generalizing scope start with
  | var x => rfl
  | abs p body ih => simp only [layoutIn, List.map_cons, Layout.map_fst_child, ih, positions]
  | app func arg ihf iha =>
    simp only [layoutIn, List.map_cons, List.map_append, Layout.map_fst_child, ihf, iha, positions]

theorem isSome_spanOf (style : Style) (scope : Scope) (start : Nat) (t : Term) (path : Path) :
    ((t.layoutIn style scope start).spanOf path).isSome = (t.subterm? path).isSome := by
  rw [Bool.eq_iff_iff, ← mem_positions, ← map_fst_spans style scope start, Layout.spanOf,
    List.lookup_isSome_iff, List.mem_map]
  exact exists_congr fun entry => and_congr_right fun _ => by rw [beq_iff_eq, eq_comm]

/-- In the text of a term, the subterm at a position has the one text before it and the other
one after it. The binders around it are given as well. -/
inductive Stands (style : Style) : Scope → Term → Path → Scope → Term → String → String → Prop
  | root (scope : Scope) (t : Term) : Stands style scope t [] scope t "" ""
  | body {scope inner : Scope} {p : Name} {t s : Term} {path : Path} {before after : String} :
      Stands style (p :: scope) t path inner s before after →
      Stands style scope (abs p t) (0 :: path) inner s (binderText style p ++ before) after
  | func {scope inner : Scope} {f s : Term} {path : Path} {before after : String} (a : Term) :
      Stands style scope f path inner s before after →
      Stands style scope (app f a) (0 :: path) inner s
        (opening f.parenthesizedAsFunction ++ before)
        (after ++ closing f.parenthesizedAsFunction ++ " " ++
          parenthesize a.parenthesizedAsArgument (a.textIn style scope))
  | arg {scope inner : Scope} {a s : Term} {path : Path} {before after : String} (f : Term) :
      Stands style scope a path inner s before after →
      Stands style scope (app f a) (1 :: path) inner s
        (parenthesize f.parenthesizedAsFunction (f.textIn style scope) ++ " " ++
          opening a.parenthesizedAsArgument ++ before)
        (after ++ closing a.parenthesizedAsArgument)

theorem exists_stands {t s : Term} {path : Path} (style : Style) (scope : Scope)
    (h : t.subterm? path = some s) :
    ∃ inner before after, Stands style scope t path inner s before after := by
  induction path generalizing t scope with
  | nil =>
    rw [subterm?_nil] at h
    obtain rfl := Option.some.inj h
    exact ⟨scope, "", "", .root scope t⟩
  | cons d path ih =>
    cases t with
    | var => simp [subterm?] at h
    | abs p body =>
      rcases d with _ | d
      · obtain ⟨inner, before, after, hbody⟩ := ih (p :: scope) h
        exact ⟨inner, _, _, .body hbody⟩
      · simp [subterm?] at h
    | app f a =>
      rcases d with _ | _ | d
      · obtain ⟨inner, before, after, hfunc⟩ := ih scope h
        exact ⟨inner, _, _, .func a hfunc⟩
      · obtain ⟨inner, before, after, harg⟩ := ih scope h
        exact ⟨inner, _, _, .arg f harg⟩
      · simp [subterm?] at h

namespace Stands

variable {style : Style} {scope inner : Scope} {t s : Term} {path : Path} {before after : String}

theorem textIn_eq (h : Stands style scope t path inner s before after) :
    t.textIn style scope = before ++ s.textIn style inner ++ after := by
  induction h with
  | root => simp
  | body _ ih => simp [textIn, ih, String.append_assoc]
  | func a _ ih => simp [textIn, ih, parenthesize_eq, String.append_assoc]
  | arg f _ ih => simp [textIn, ih, parenthesize_eq, String.append_assoc]

/-- The layout of the subterm is a part of that of the term. -/
theorem spanOf_append (h : Stands style scope t path inner s before after) (start : Nat)
    (q : Path) : (t.layoutIn style scope start).spanOf (path ++ q) =
      (s.layoutIn style inner (start + before.utf8ByteSize)).spanOf q := by
  induction h generalizing start with
  | root => rfl
  | body _ ih => simp [spanOf_abs, ih, String.utf8ByteSize_append, Nat.add_assoc]
  | func a _ ih =>
    simp [spanOf_app, ih, String.utf8ByteSize_append, utf8ByteSize_opening, Nat.add_assoc]
  | arg f _ ih =>
    have hspace : " ".utf8ByteSize = 1 := rfl
    simp [spanOf_app, ih, String.utf8ByteSize_append, utf8ByteSize_opening, hspace, Nat.add_assoc]

/-- A span begins after what is before the subterm and is as long as the text of it. -/
theorem spanOf_eq (h : Stands style scope t path inner s before after) (start : Nat) :
    (t.layoutIn style scope start).spanOf path = some ⟨start + before.utf8ByteSize,
      start + before.utf8ByteSize + (s.textIn style inner).utf8ByteSize⟩ := by
  have hroot := h.spanOf_append start []
  rwa [List.append_nil, spanOf_nil] at hroot

end Stands

section

variable {style : Style} {scope : Scope} {start : Nat} {t : Term} {path p q : Path}
  {span span' : Span}

theorem exists_subterm?_of_spanOf (h : (t.layoutIn style scope start).spanOf path = some span) :
    ∃ s, t.subterm? path = some s := by
  rw [← Option.isSome_iff_exists, ← isSome_spanOf style scope start, h]
  rfl

theorem exists_stands_of_spanOf (h : (t.layoutIn style scope start).spanOf path = some span) :
    ∃ inner s before after, Stands style scope t path inner s before after ∧
      span.start = start + before.utf8ByteSize ∧
      span.stop = span.start + (s.textIn style inner).utf8ByteSize := by
  obtain ⟨s, hs⟩ := exists_subterm?_of_spanOf h
  obtain ⟨inner, before, after, hstands⟩ := exists_stands style scope hs
  rw [hstands.spanOf_eq, Option.some.injEq] at h
  subst h
  exact ⟨inner, s, before, after, hstands, rfl, rfl⟩

theorem within_of_spanOf (h : (t.layoutIn style scope start).spanOf path = some span) :
    start ≤ span.start ∧ span.start ≤ span.stop ∧
      span.stop ≤ start + (t.textIn style scope).utf8ByteSize := by
  obtain ⟨inner, s, before, after, hstands, hstart, hstop⟩ := exists_stands_of_spanOf h
  rw [hstands.textIn_eq, String.utf8ByteSize_append, String.utf8ByteSize_append]
  omega

theorem nested_of_spanOf (h : (t.layoutIn style scope start).spanOf path = some span)
    (h' : (t.layoutIn style scope start).spanOf (path ++ q) = some span') :
    span.start ≤ span'.start ∧ span'.stop ≤ span.stop := by
  obtain ⟨inner, s, before, after, hstands, hstart, hstop⟩ := exists_stands_of_spanOf h
  rw [hstands.spanOf_append] at h'
  have hwithin := within_of_spanOf h'
  omega

theorem stop_lt_start {func arg : Term}
    (h : ((app func arg).layoutIn style scope start).spanOf (0 :: p) = some span)
    (h' : ((app func arg).layoutIn style scope start).spanOf (1 :: q) = some span') :
    span.stop < span'.start := by
  rw [spanOf_app, if_pos rfl] at h
  rw [spanOf_app, if_neg Nat.one_ne_zero, if_pos rfl] at h'
  have hfunc := within_of_spanOf h
  have harg := within_of_spanOf h'
  rw [parenthesize_eq, String.utf8ByteSize_append, String.utf8ByteSize_append,
    utf8ByteSize_opening] at harg
  omega

theorem eq_zero_or_one_of_spanOf {func arg : Term} {d : Nat}
    (h : ((app func arg).layoutIn style scope start).spanOf (d :: p) = some span) :
    d = 0 ∨ d = 1 := by
  rw [spanOf_app] at h
  grind

theorem apart_of_children {d e : Nat} (hne : d ≠ e)
    (h : (t.layoutIn style scope start).spanOf (d :: p) = some span)
    (h' : (t.layoutIn style scope start).spanOf (e :: q) = some span') :
    (d < e ∧ span.stop < span'.start) ∨ (e < d ∧ span'.stop < span.start) := by
  cases t with
  | var x => cases h
  | abs x body =>
    rw [spanOf_abs] at h h'
    grind
  | app func arg =>
    rcases eq_zero_or_one_of_spanOf h with rfl | rfl <;>
      rcases eq_zero_or_one_of_spanOf h' with rfl | rfl
    · exact absurd rfl hne
    · exact .inl ⟨Nat.zero_lt_one, stop_lt_start h h'⟩
    · exact .inr ⟨Nat.zero_lt_one, stop_lt_start h' h⟩
    · exact absurd rfl hne

end

end Term

theorem Path.exists_fork {p q : Path} (h : ¬ p <+: q) (h' : ¬ q <+: p) :
    ∃ r d e p' q', d ≠ e ∧ p = r ++ d :: p' ∧ q = r ++ e :: q' := by
  induction p generalizing q with
  | nil => exact absurd List.nil_prefix h
  | cons d p ih =>
    cases q with
    | nil => exact absurd List.nil_prefix h'
    | cons e q =>
      by_cases hde : d = e
      · subst hde
        obtain ⟨r, a, b, p', q', hne, rfl, rfl⟩ := ih (by simpa using h) (by simpa using h')
        exact ⟨d :: r, a, b, p', q', hne, rfl, rfl⟩
      · exact ⟨[], d, e, p, q, hde, rfl, rfl⟩

namespace Term

theorem apart_of_spanOf {style : Style} {scope : Scope} {start : Nat} {t : Term} {p q : Path}
    {span span' : Span} (h : (t.layoutIn style scope start).spanOf p = some span)
    (h' : (t.layoutIn style scope start).spanOf q = some span') (hpq : ¬ p <+: q)
    (hqp : ¬ q <+: p) :
    (p < q ∧ span.stop < span'.start) ∨ (q < p ∧ span'.stop < span.start) := by
  obtain ⟨r, d, e, p, q, hne, rfl, rfl⟩ := Path.exists_fork hpq hqp
  obtain ⟨below, hbelow⟩ := exists_subterm?_of_spanOf h
  rw [subterm?_append] at hbelow
  obtain ⟨s, hs, -⟩ := Option.bind_eq_some_iff.1 hbelow
  obtain ⟨inner, before, after, hstands⟩ := exists_stands style scope hs
  rw [hstands.spanOf_append] at h h'
  rcases apart_of_children hne h h' with ⟨hlt, hspan⟩ | ⟨hlt, hspan⟩
  · exact .inl ⟨List.append_left_lt (List.cons_lt_cons_iff.2 (.inl hlt)), hspan⟩
  · exact .inr ⟨List.append_left_lt (List.cons_lt_cons_iff.2 (.inl hlt)), hspan⟩

end Term

/-- The spans of the layout say where the subterms of the term are. -/
structure Layout.Locates (l : Layout) (t : Term) : Prop where
  isSome_iff : ∀ path, (l.spanOf path).isSome = true ↔ (t.subterm? path).isSome = true
  nodup : (l.spans.map (·.1)).Nodup
  length_eq : l.spans.length = t.size
  /-- Both ends of a span are in the text, between characters. -/
  isValid : ∀ path span, l.spanOf path = some span →
    span.start ≤ span.stop ∧ String.Pos.Raw.IsValid l.text ⟨span.start⟩ ∧
      String.Pos.Raw.IsValid l.text ⟨span.stop⟩
  nested : ∀ path q span span', l.spanOf path = some span → l.spanOf (path ++ q) = some span' →
    span.start ≤ span'.start ∧ span'.stop ≤ span.stop
  apart : ∀ p q span span', l.spanOf p = some span → l.spanOf q = some span' →
    ¬ p <+: q → ¬ q <+: p →
      (p < q ∧ span.stop < span'.start) ∨ (q < p ∧ span'.stop < span.start)

theorem isValid_append (before after : String) :
    String.Pos.Raw.IsValid (before ++ after) ⟨before.utf8ByteSize⟩ :=
  String.Pos.Raw.isValid_iff_exists_append.2 ⟨before, after, rfl, rfl⟩

theorem fromUTF8?_extract (before text after : String) :
    String.fromUTF8? ((before ++ text ++ after).toUTF8.extract before.utf8ByteSize
      (before.utf8ByteSize + text.utf8ByteSize)) = some text := by
  have hbytes : (before ++ text ++ after).toUTF8.extract before.utf8ByteSize
      (before.utf8ByteSize + text.utf8ByteSize) = text.toByteArray := by
    simp only [String.toUTF8, String.utf8ByteSize, String.toByteArray_append]
    rw [ByteArray.extract_append, ByteArray.extract_append_eq_right rfl rfl]
    simp
  rw [hbytes, String.fromUTF8?, dif_pos text.isValidUTF8]
  rfl

namespace Term

theorem locates_layout (style : Style) (t : Term) : (t.layout style).Locates t where
  isSome_iff path := Bool.eq_iff_iff.1 (isSome_spanOf style [] 0 t path)
  nodup := by
    rw [layout, map_fst_spans]
    exact nodup_positions t
  length_eq := by
    rw [← length_positions, ← map_fst_spans style [] 0, List.length_map, layout]
  isValid path span h := by
    obtain ⟨inner, s, before, after, hstands, hstart, hstop⟩ := exists_stands_of_spanOf h
    have htext : (t.layout style).text = before ++ s.textIn style inner ++ after :=
      (text_layout style t).trans hstands.textIn_eq
    rw [Nat.zero_add] at hstart
    rw [hstop, hstart, htext]
    refine ⟨Nat.le_add_right _ _, ?_, ?_⟩
    · rw [String.append_assoc]
      exact isValid_append before _
    · rw [← String.utf8ByteSize_append]
      exact isValid_append _ after
  nested _ _ _ _ := nested_of_spanOf
  apart _ _ _ _ := apart_of_spanOf

theorem sliceOf_layout_named (t : Term) (path : Path) :
    (t.layout .named).sliceOf path = (t.subterm? path).map toString := by
  cases hs : t.subterm? path with
  | none =>
    have hspan : (t.layout .named).spanOf path = none := by
      rw [← Option.not_isSome_iff_eq_none, layout, isSome_spanOf, hs]
      exact Bool.false_ne_true
    rw [Layout.sliceOf, hspan]
    rfl
  | some s =>
    obtain ⟨inner, before, after, hstands⟩ := exists_stands .named [] hs
    have htext : (t.layout .named).text = before ++ s.text .named ++ after := by
      rw [text_layout, ← textIn_named inner s]
      exact hstands.textIn_eq
    have hspan : (t.layout .named).spanOf path = some ⟨before.utf8ByteSize,
        before.utf8ByteSize + (s.text .named).utf8ByteSize⟩ := by
      rw [layout, hstands.spanOf_eq, Nat.zero_add, textIn_named]
    rw [Layout.sliceOf, hspan, Option.bind_some, Layout.slice, htext, fromUTF8?_extract]
    rfl

end Term

theorem StepReport.exists_span {step : Reduction.Step} {redex : Term}
    (h : step.term.subterm? step.path = some redex) (k : Nat) :
    ∃ span, (StepReport.of k step).span = some span ∧
      String.fromUTF8? ((StepReport.of k step).term.toUTF8.extract span.start span.stop) =
        some (toString redex) := by
  have hslice := Term.sliceOf_layout_named step.term step.path
  rw [h] at hslice
  exact Option.bind_eq_some_iff.1 hslice

/-- The layout of a term has a span for each subterm. The spans are between characters, they
nest as the subterms do, and those of subterms side by side are apart and in the same order.
With names as they are, the span of a subterm cuts out its text. So in a report on a reduction,
the span of a step is there and cuts out the text of the redex that was fired. -/
theorem Term.layout_exact :
    (∀ (style : Style) (t : Term), (t.layout style).Locates t) ∧
    (∀ (t : Term) (path : Path),
      (t.layout .named).sliceOf path = (t.subterm? path).map toString) ∧
    ∀ (settings : Settings) (t input : Term) (strategy : Strategy) (k : Nat) (r : StepReport),
      ((settings.reduce t).report input strategy).trace[k]? = some r →
      ∃ step redex span, (settings.reduce t).trace[k]? = some step ∧ r.step = k ∧
        r.term = toString step.term ∧ r.path = step.path ∧
        settings.strategy.findRedex step.term = some step.path ∧
        step.term.subterm? step.path = some redex ∧ redex.isRedex = true ∧
        r.span = some span ∧
        String.fromUTF8? (r.term.toUTF8.extract span.start span.stop) = some (toString redex) := by
  refine ⟨locates_layout, sliceOf_layout_named, ?_⟩
  intro settings t input strategy k r hr
  rw [Reduction.report, List.getElem?_mapIdx] at hr
  obtain ⟨step, hstep, rfl⟩ := Option.map_eq_some_iff.1 hr
  have hfound := (Settings.of_mem_trace (List.mem_of_getElem? hstep)).2
  obtain ⟨redex, hredex, hisRedex⟩ := Strategy.isRedex_of_findRedex hfound
  obtain ⟨span, hspan, htext⟩ := StepReport.exists_span hredex k
  exact ⟨step, redex, span, hstep, rfl, text_layout .named step.term, rfl, hfound, hredex,
    hisRedex, hspan, htext⟩

namespace Term

/-- The redex in the term `f ((λé. é) y)`. -/
def accentedRedex : Term := app (abs "é" (var "é")) (var "y")

def withAccentedRedex : Term := app (var "f") accentedRedex

/-- What is reported on the only step of `f ((λé. é) y)`. -/
def accentedReport : StepReport := ⟨0, "f ((λé. é) y)", [1], some ⟨3, 15⟩⟩

/-- The redex is `(λé. é) y`, its function is within its span, and the `f` is before it. -/
theorem layout_exact_accentedRedex :
    ((({ trace := true } : Settings).reduce withAccentedRedex).report
      withAccentedRedex .normalOrder).trace[0]? = some accentedReport ∧
    String.fromUTF8? (accentedReport.term.toUTF8.extract 3 15) = some (toString accentedRedex) ∧
    toString accentedRedex = "(λé. é) y" ∧
    (withAccentedRedex.layout .named).spanOf [0] = some ⟨0, 1⟩ ∧
    (withAccentedRedex.layout .named).spanOf [1] = some ⟨3, 15⟩ ∧
    (withAccentedRedex.layout .named).spanOf [1, 0] = some ⟨4, 12⟩ ∧
    String.Pos.Raw.IsValid (withAccentedRedex.layout .named).text ⟨12⟩ ∧
    (3 ≤ 4 ∧ 12 ≤ 15) ∧
    (([0] : Path) < [1] ∧ 1 < 3 ∨ ([1] : Path) < [0] ∧ 15 < 0) := by
  obtain ⟨locates, -, reported⟩ := layout_exact
  have hr : ((({ trace := true } : Settings).reduce withAccentedRedex).report
      withAccentedRedex .normalOrder).trace[0]? = some accentedReport := by cbv
  have htrace : (({ trace := true } : Settings).reduce withAccentedRedex).trace[0]? =
      some ⟨withAccentedRedex, [1]⟩ := by cbv
  have hname : (withAccentedRedex.layout .named).spanOf [0] = some ⟨0, 1⟩ := by cbv
  have hredex : (withAccentedRedex.layout .named).spanOf [1] = some ⟨3, 15⟩ := by cbv
  have hfunc : (withAccentedRedex.layout .named).spanOf [1, 0] = some ⟨4, 12⟩ := by cbv
  obtain ⟨step, redex, span, hstep, -, -, -, -, hsub, -, hspan, htext⟩ :=
    reported { trace := true } withAccentedRedex withAccentedRedex .normalOrder 0 _ hr
  obtain rfl : ⟨withAccentedRedex, [1]⟩ = step := Option.some.inj (htrace.symm.trans hstep)
  obtain rfl : accentedRedex = redex := Option.some.inj hsub
  obtain rfl : ⟨3, 15⟩ = span := Option.some.inj hspan
  have here := locates .named withAccentedRedex
  exact ⟨hr, htext, by cbv, hname, hredex, hfunc, (here.isValid _ _ hfunc).2.2,
    here.nested [1] [0] _ _ hredex hfunc,
    here.apart [0] [1] _ _ hname hredex (by decide) (by decide)⟩

end Term

end NamedLambda
