import Mathlib.Data.List.Basic
import Mathlib.Data.List.TakeWhile
import NamedLambda.Json.Reader

/-!
# Reading flat objects

A flat object has flags, whole numbers and plain strings under plain keys. Its texts are given by
a grammar that knows nothing of the reader (`Json.ObjectText`); blanks may stand around every key,
every value and the whole. The reader takes each of these texts for the object
(`Json.parse?_of_objectText`). A number ends where something else begins, so the characters of a
value leave the reader between two tokens or in a last word, and what comes next completes that
word (`Json.Token.Spells`).
-/

namespace NamedLambda.Json

/-- A text that stands between quotes as it is. -/
def Plain (text : String) : Prop := ∀ c ∈ text.toList, c ≠ '"' ∧ c ≠ '\\' ∧ 32 ≤ c.toNat

/-- No sign, and no zero in front of other digits. -/
structure Whole (text : String) : Prop where
  nonempty : text.toList ≠ []
  digits : ∀ c ∈ text.toList, c.isDigit = true
  zero : text.toList.head? = some '0' → text = "0"

def Blank (cs : List Char) : Prop := ∀ c ∈ cs, Token.isBlank c = true

inductive ScalarText : Json → List Char → Prop
  | bool (b : Bool) : ScalarText (bool b) (toString b).toList
  | number {written : String} : Whole written → ScalarText (number written) written.toList
  | string {written : String} : Plain written →
      ScalarText (string written) (quote written).toList

inductive MemberText : String × Json → List Char → Prop
  | mk {key : String} {v : Json} {b₁ b₂ b₃ b₄ cs : List Char} : Plain key → ScalarText v cs →
      Blank b₁ → Blank b₂ → Blank b₃ → Blank b₄ →
      MemberText (key, v) (b₁ ++ (quote key).toList ++ b₂ ++ ':' :: (b₃ ++ cs ++ b₄))

inductive MembersText : List (String × Json) → List Char → Prop
  | single {m : String × Json} {cs : List Char} : MemberText m cs → MembersText [m] cs
  | cons {m : String × Json} {ms : List (String × Json)} {cs ds : List Char} : MemberText m cs →
      MembersText ms ds → MembersText (m :: ms) (cs ++ ',' :: ds)

/-- The characters are a text of the object with the members. -/
inductive ObjectText : List (String × Json) → List Char → Prop
  | empty {b₁ b₂ b₃ : List Char} : Blank b₁ → Blank b₂ → Blank b₃ →
      ObjectText [] (b₁ ++ '\x7b' :: (b₂ ++ '\x7d' :: b₃))
  | members {ms : List (String × Json)} {b₁ b₂ cs : List Char} : Blank b₁ → MembersText ms cs →
      Blank b₂ → ObjectText ms (b₁ ++ '\x7b' :: (cs ++ '\x7d' :: b₂))

section Strings

theorem characters?_map_toNat (cs : List Char) : characters? (cs.map Char.toNat) = some cs := by
  induction cs with
  | nil => rfl
  | cons c cs ih =>
    have valid : c.toNat.isValidChar := c.valid
    have single : ¬ (0xD800 ≤ c.toNat ∧ c.toNat < 0xDC00) := by
      unfold Nat.isValidChar at valid
      omega
    cases cs with
    | nil => simp [characters?, valid]
    | cons d cs =>
      simp only [List.map_cons] at ih ⊢
      rw [characters?, if_neg (by omega), if_pos valid, ih]
      simp

theorem Plain.decode?_eq {text : String} (h : Plain text) : decode? text = some text := by
  have points : codePoints? text.toList = some (text.toList.map Char.toNat) := by
    unfold Plain at h
    generalize text.toList = cs at h ⊢
    induction cs with
    | nil => rfl
    | cons c cs ih =>
      obtain ⟨⟨-, hslash, -⟩, hcs⟩ := List.forall_mem_cons.1 h
      rw [codePoints?]
      · simp [ih hcs]
      · simp [hslash]
      · simp [hslash]
  simp [decode?, points, characters?_map_toNat]

theorem Plain.encode_eq {text : String} (h : Plain text) : encode text = text := by
  have chars : text.toList.flatMap encodeChar = text.toList := by
    unfold Plain at h
    generalize text.toList = cs at h ⊢
    induction cs with
    | nil => rfl
    | cons c cs ih =>
      obtain ⟨⟨hquote, hslash, hcontrol⟩, hcs⟩ := List.forall_mem_cons.1 h
      have char : encodeChar c = [c] := by
        fun_cases encodeChar c with
        | case8 => omega
        | case9 => rfl
        | case1 => exact absurd rfl hquote
        | case2 => exact absurd rfl hslash
        | _ => exact absurd hcontrol (by decide)
      rw [List.flatMap_cons, char, ih hcs, List.singleton_append]
  rw [encode, chars, String.ofList_toList]

end Strings

section Numbers

variable {text : String}

theorem eq_zero_of_head?_toDigits {n : Nat} (h : (Nat.toDigits 10 n).head? = some '0') :
    n = 0 := by
  induction n using Nat.strongRecOn with
  | ind n ih =>
    by_cases hn : n < 10
    · have small : ∀ d < 10, d.digitChar = '0' → d = 0 := by decide
      rw [Nat.toDigits_of_lt_base hn] at h
      exact small n hn (Option.some.inj h)
    · rw [Nat.toDigits_of_base_le (by decide) (by omega),
        List.head?_append_of_ne_nil _ Nat.toDigits_ne_nil] at h
      have := ih (n / 10) (by omega) h
      omega

theorem whole_toString (n : Nat) : Whole (toString n) where
  nonempty := by simp
  digits _ hc := Decimal.isDigit_of_mem_toString hc
  zero h := by
    obtain rfl := eq_zero_of_head?_toDigits (n := n) (by simpa using h)
    rfl

theorem natBelow?_of_digits {limit : Nat} (h : ∀ c ∈ text.toList, c.isDigit = true)
    (hlimit : Nat.ofDigitChars 10 text.toList 0 < limit) :
    (number text).natBelow? limit = some (Nat.ofDigitChars 10 text.toList 0) := by
  have value : text.toList.foldl (fun n c => 10 * n + (c.toNat - '0'.toNat)) 0 =
      Nat.ofDigitChars 10 text.toList 0 := rfl
  simp only [natBelow?, value]
  rw [if_pos (List.all_eq_true.2 h), if_pos hlimit]

theorem dropDigits?_eq {cs : List Char} (nonempty : cs ≠ []) (h : ∀ c ∈ cs, c.isDigit = true) :
    dropDigits? cs = some [] := by
  rw [dropDigits?, List.takeWhile_eq_self_iff.2 h, List.dropWhile_eq_nil_iff.2 h, if_neg]
  simpa using nonempty

theorem Whole.isNumber (h : Whole text) : isNumber text.toList = true := by
  obtain ⟨nonempty, digits, zero⟩ := h
  have whole : dropWhole? text.toList = some [] := by
    unfold dropWhole?
    split
    · next rest hrest =>
      have htext := zero (by rw [hrest]; rfl)
      subst htext
      cases hrest
      rfl
    · exact dropDigits?_eq nonempty digits
  unfold Json.isNumber
  split
  · next rest hrest =>
    rw [hrest] at digits
    exact absurd (digits '-' List.mem_cons_self) (by decide)
  · simp [whole, dropFraction?, dropExponent?]

theorem Whole.ofWord?_eq (h : Whole text) : ofWord? text = some (number text) := by
  have hnumber := h.isNumber
  have other (word : String) (hword : Json.isNumber word.toList = false) : text ≠ word := by
    rintro rfl
    simp [hnumber] at hword
  rw [ofWord?, if_neg (other "null" (by decide)), if_neg (other "true" (by decide)),
    if_neg (other "false" (by decide)), if_pos hnumber]

end Numbers

namespace Token

variable {c : Char} {bs cs ds : List Char} {tokens tokens' : List Token} {t : Token}

theorem start_punctuation (h : punctuation? c = some t) :
    start c = some ([t], .between) ∧ isWordChar c = false := by
  unfold punctuation? at h
  split at h <;> cases h <;> exact ⟨rfl, rfl⟩

theorem start_blank (h : isBlank c = true) :
    start c = some ([], .between) ∧ isWordChar c = false := by
  refine ⟨by rw [start, if_pos h], ?_⟩
  simp only [isBlank, Bool.or_eq_true, decide_eq_true_eq] at h
  rcases h with ((rfl | rfl) | rfl) | rfl <;> rfl

theorem start_word (h : isWordChar c = true) : start c = some ([], .word [c]) := by
  have other (d : Char) (hd : isWordChar d = false) : c ≠ d := by
    rintro rfl
    simp [h] at hd
  simp [start, isBlank, h, other ' ' rfl, other '\t' rfl, other '\n' rfl, other '\r' rfl,
    other '"' rfl]

/-- The tokens so far, the last one first, if the text may end here. -/
def completed? (state : List Token × Mode) : Option (List Token) :=
  (finish state.2).map (· ++ state.1)

theorem advance_outside {state : List Token × Mode} {made : List Token}
    (h : completed? state = some tokens) (hc : start c = some (made, .between))
    (hword : isWordChar c = false) :
    advance state c = some (made.reverse ++ tokens, .between) := by
  obtain ⟨before, mode⟩ := state
  cases mode with
  | between =>
    obtain rfl := Option.some.inj h
    simp [advance, step, hc]
  | word read =>
    obtain rfl := Option.some.inj h
    simp [advance, step, hc, hword]
  | string | escape | hex => cases h

theorem exists_foldlM_advance_blank (hb : Blank bs) {state : List Token × Mode}
    (h : completed? state = some tokens) :
    ∃ state', bs.foldlM advance state = some state' ∧ completed? state' = some tokens := by
  induction bs generalizing state with
  | nil => exact ⟨state, rfl, h⟩
  | cons c bs ih =>
    obtain ⟨hc, hbs⟩ := List.forall_mem_cons.1 hb
    obtain ⟨hstart, hword⟩ := start_blank hc
    have done : completed? (tokens, .between) = some tokens := rfl
    obtain ⟨state', hrun, hdone⟩ := ih hbs done
    refine ⟨state', ?_, hdone⟩
    rw [List.foldlM_cons, advance_outside h hstart hword]
    exact hrun

theorem foldlM_advance_blank (hb : Blank bs) (before : List Token) :
    bs.foldlM advance (before, .between) = some (before, .between) := by
  induction bs with
  | nil => rfl
  | cons c bs ih =>
    obtain ⟨hc, hbs⟩ := List.forall_mem_cons.1 hb
    obtain ⟨hstart, hword⟩ := start_blank hc
    have done : completed? (before, .between) = some before := rfl
    rw [List.foldlM_cons, advance_outside done hstart hword]
    exact ih hbs

/-- The characters are those of the tokens, the last of which may be a word that goes on. -/
def Spells (cs : List Char) (tokens : List Token) : Prop :=
  ∀ before, ∃ state, cs.foldlM advance (before, .between) = some state ∧
    completed? state = some (tokens.reverse ++ before)

theorem spells_nil : Spells [] [] := fun _ => ⟨_, rfl, rfl⟩

theorem Spells.blank_append (h : Spells cs tokens) (hb : Blank bs) : Spells (bs ++ cs) tokens := by
  intro before
  obtain ⟨state, hrun, hdone⟩ := h before
  refine ⟨state, ?_, hdone⟩
  rw [List.foldlM_append, foldlM_advance_blank hb]
  exact hrun

theorem Spells.append_blank (h : Spells cs tokens) (hb : Blank bs) : Spells (cs ++ bs) tokens := by
  intro before
  obtain ⟨state, hrun, hdone⟩ := h before
  obtain ⟨state', hrun', hdone'⟩ := exists_foldlM_advance_blank hb hdone
  refine ⟨state', ?_, hdone'⟩
  rw [List.foldlM_append, hrun]
  exact hrun'

theorem Spells.punctuation (h : Spells cs tokens) (hc : punctuation? c = some t)
    (h' : Spells ds tokens') : Spells (cs ++ c :: ds) (tokens ++ t :: tokens') := by
  intro before
  obtain ⟨hstart, hword⟩ := start_punctuation hc
  obtain ⟨state, hrun, hdone⟩ := h before
  obtain ⟨state', hrun', hdone'⟩ := h' (t :: (tokens.reverse ++ before))
  refine ⟨state', ?_, by simpa using hdone'⟩
  have hmark := advance_outside hdone hstart hword
  rw [List.reverse_singleton, List.singleton_append] at hmark
  simp only [List.foldlM_append, hrun, Option.bind_eq_bind, Option.bind_some, List.foldlM_cons,
    hmark, hrun']

theorem foldlM_advance_word (h : ∀ c ∈ cs, isWordChar c = true) (before : List Token)
    (read : List Char) :
    cs.foldlM advance (before, .word read) = some (before, .word (cs.reverse ++ read)) := by
  induction cs generalizing read with
  | nil => rfl
  | cons c cs ih =>
    obtain ⟨hc, hcs⟩ := List.forall_mem_cons.1 h
    have hstep : advance (before, .word read) c = some (before, .word (c :: read)) := by
      simp [advance, step, hc]
    simp [hstep, ih hcs]

theorem spells_word {text : String} (nonempty : text.toList ≠ [])
    (h : ∀ c ∈ text.toList, isWordChar c = true) : Spells text.toList [word text] := by
  intro before
  obtain ⟨c, cs, hcs⟩ := List.exists_cons_of_ne_nil nonempty
  have htext : text = String.ofList (c :: cs) := by simp [← hcs]
  rw [hcs] at h ⊢
  obtain ⟨hc, hrest⟩ := List.forall_mem_cons.1 h
  have hstep : advance (before, .between) c = some (before, .word [c]) := by
    simp [advance, step, start_word hc]
  refine ⟨(before, .word (cs.reverse ++ [c])), ?_, ?_⟩
  · simp [hstep, foldlM_advance_word hrest]
  · simp [completed?, finish, wordToken, htext]

theorem foldlM_advance_plain (h : ∀ c ∈ cs, c ≠ '"' ∧ c ≠ '\\' ∧ 32 ≤ c.toNat)
    (before : List Token) (read : List Char) :
    cs.foldlM advance (before, .string read) = some (before, .string (cs.reverse ++ read)) := by
  induction cs generalizing read with
  | nil => rfl
  | cons c cs ih =>
    obtain ⟨⟨hquote, hslash, hcontrol⟩, hcs⟩ := List.forall_mem_cons.1 h
    have hstep : advance (before, .string read) c = some (before, .string (c :: read)) := by
      simp [advance, step, hquote, hslash, Nat.not_lt.2 hcontrol]
    simp [hstep, ih hcs]

theorem spells_string {written : String} (h : Plain written) :
    Spells (quote written).toList [string written] := by
  intro before
  have hopen : advance (before, .between) '"' = some (before, .string []) := rfl
  have hclose : advance (before, .string written.toList.reverse) '"' =
      some (string written :: before, .between) := by
    simp [advance, step]
  refine ⟨(string written :: before, .between), ?_, rfl⟩
  simp [quote, hopen, foldlM_advance_plain h, hclose]

theorem Spells.read?_eq {text : String} (h : Spells text.toList tokens) :
    read? text = some tokens := by
  obtain ⟨⟨before, mode⟩, hrun, hdone⟩ := h []
  rw [read?, hrun]
  cases mode with
  | between =>
    obtain rfl : before.reverse = tokens := by
      simpa using congrArg List.reverse (Option.some.inj hdone)
    simp [finish]
  | word read =>
    obtain rfl : before.reverse ++ [wordToken read] = tokens := by
      simpa using congrArg List.reverse (Option.some.inj hdone)
    simp [finish]
  | string | escape | hex => cases hdone

end Token

open Token (Spells isWordChar punctuation?)

/-- The characters lead the reader from the one place to the other. -/
def Leads (cs : List Char) (s s' : Reading) : Prop :=
  ∃ tokens, Spells cs tokens ∧ tokens.foldlM Reading.take s = some s'

variable {c : Char} {bs cs ds : List Char} {t : Token} {s s₁ s₂ s' : Reading}

theorem leads_nil (s : Reading) : Leads [] s s := ⟨[], Token.spells_nil, rfl⟩

theorem Leads.blank_append (h : Leads cs s s') (hb : Blank bs) : Leads (bs ++ cs) s s' := by
  obtain ⟨tokens, hspells, hrun⟩ := h
  exact ⟨tokens, hspells.blank_append hb, hrun⟩

theorem Leads.append_blank (h : Leads cs s s') (hb : Blank bs) : Leads (cs ++ bs) s s' := by
  obtain ⟨tokens, hspells, hrun⟩ := h
  exact ⟨tokens, hspells.append_blank hb, hrun⟩

theorem leads_blank (hb : Blank bs) (s : Reading) : Leads bs s s := (leads_nil s).append_blank hb

theorem Leads.punctuation (h : Leads cs s s₁) (hc : punctuation? c = some t)
    (ht : s₁.take t = some s₂) (h' : Leads ds s₂ s') : Leads (cs ++ c :: ds) s s' := by
  obtain ⟨tokens, hspells, hrun⟩ := h
  obtain ⟨tokens', hspells', hrun'⟩ := h'
  refine ⟨_, hspells.punctuation hc hspells', ?_⟩
  simp [hrun, ht, hrun']

theorem leads_string {written : String} (h : Plain written)
    (ht : s.take (.string written) = some s') : Leads (quote written).toList s s' :=
  ⟨_, Token.spells_string h, by simp [ht]⟩

theorem leads_word {text : String} {v : Json} (nonempty : text.toList ≠ [])
    (h : ∀ c ∈ text.toList, isWordChar c = true) (hv : ofWord? text = some v)
    (stack : List Frame) : Leads text.toList (.value stack) (.close v stack) :=
  ⟨_, Token.spells_word nonempty h, by simp [Reading.take, Reading.takeValue, hv]⟩

theorem ScalarText.leads {v : Json} (h : ScalarText v cs) (stack : List Frame) :
    Leads cs (.value stack) (.close v stack) := by
  cases h with
  | bool b =>
    cases b with
    | false =>
      show Leads "false".toList _ _
      exact leads_word (by decide) (by simp [isWordChar]) rfl stack
    | true =>
      show Leads "true".toList _ _
      exact leads_word (by decide) (by simp [isWordChar]) rfl stack
  | @number written h =>
    refine leads_word h.nonempty (fun c hc => ?_) h.ofWord?_eq stack
    simp [isWordChar, Char.isAlphanum, h.digits c hc]
  | string h => exact leads_string h rfl

variable {stack : List Frame} {read ms : List (String × Json)}

theorem MemberText.leads {m : String × Json} (h : MemberText m cs)
    (hs : ∀ key, s.take (.string key) = some (.colon read key stack)) :
    Leads cs s (.objectNext (m :: read) stack) := by
  cases h with
  | @mk key v b₁ b₂ b₃ b₄ cs hkey hv h₁ h₂ h₃ h₄ =>
    have before := ((leads_string hkey (hs key)).blank_append h₁).append_blank h₂
    have after := ((hv.leads (.field read key :: stack)).blank_append h₃).append_blank h₄
    exact before.punctuation rfl rfl after

theorem MembersText.leads (h : MembersText ms cs)
    (hs : ∀ key, s.take (.string key) = some (.colon read key stack)) :
    Leads cs s (.objectNext (ms.reverse ++ read) stack) := by
  induction h generalizing s read with
  | single hm => exact hm.leads hs
  | @cons m ms cs ds hm _ ih =>
    have rest : Leads ds (.key (m :: read) stack) (.objectNext (ms.reverse ++ m :: read) stack) :=
      ih fun _ => rfl
    simpa using (hm.leads hs).punctuation (c := ',') rfl rfl rest

theorem ObjectText.leads (h : ObjectText ms cs) : Leads cs (.value []) (.done (object ms)) := by
  cases h with
  | empty h₁ h₂ h₃ =>
    have inside := (leads_blank h₂ (.objectStart [])).punctuation (c := '\x7d') rfl rfl
      (leads_blank h₃ (.done (object [])))
    exact (leads_blank h₁ _).punctuation rfl rfl inside
  | @members ms b₁ b₂ cs h₁ hms h₂ =>
    have all : Leads cs (.objectStart []) (.objectNext (ms.reverse ++ []) []) :=
      hms.leads fun _ => rfl
    have closed : Reading.take (.objectNext (ms.reverse ++ []) []) .closeObject =
        some (.done (object ms)) := by
      simp [Reading.take, Reading.close]
    have inside := all.punctuation (c := '\x7d') rfl closed (leads_blank h₂ _)
    exact (leads_blank h₁ _).punctuation rfl rfl inside

theorem parse?_of_objectText {text : String} (h : ObjectText ms text.toList) :
    parse? text = some (object ms) := by
  obtain ⟨tokens, hspells, hrun⟩ := h.leads
  rw [parse?, hspells.read?_eq]
  simp [ofTokens?, hrun]

end NamedLambda.Json
