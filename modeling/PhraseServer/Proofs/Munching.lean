/-
  What the lexer accepts and what it refuses.

  * `lexChars_eq_ok_iff`: the tokens of a text are those that tile it and take as
    much as they can;
  * `lexChars_eq_error_iff`: a refusal tells the first place where no token begins
    or a string is not closed;
  * `lex_exact`: both, and that it does not matter where the text stands.
-/
import PhraseServer.Proofs.Lexemes

namespace PhraseServer

/-! ## Texts that are accepted -/

variable {p q : Position} {cs ds rest : List Char} {ts : List Token} {c : Char} {e : LexError}

/-- Each token has one shape, takes as much of what is left as the shape allows,
    and is of the kind of its text. -/
def Munched : List Token → Prop
  | [] => True
  | t :: ts =>
    (∃! shape : Lexeme, shape.Munch t.text.toList (spelled ts) ∧ shape.Denotes t.text t.kind) ∧
      Munched ts

theorem Lexeme.Munch.unique {shape other : Lexeme} (h : shape.Munch cs rest)
    (h' : other.Munch cs ds) : other = shape := by
  cases cs with
  | nil => exact absurd h.spells id
  | cons c cs => exact h'.spells.1.unique h.spells.1

theorem munched_of_lexChars (h : lexChars p cs = .ok ts) : Munched ts := by
  induction ts generalizing p cs with
  | nil => trivial
  | cons t ts ih =>
    obtain ⟨c, m, r, shape, rfl, hc, hr, rfl, hl⟩ := lexChars_eq_cons h
    have hmunch : shape.Munch (shape.token p (c :: m)).text.toList (spelled ts) := by
      rw [(tiles_of_lexChars hl).2, Lexeme.token, String.toList_ofList]
      exact Lexeme.munch_iff.2 ⟨hc, hr⟩
    refine ⟨⟨shape, ⟨hmunch, shape.denotes_kind _⟩, fun other hother => ?_⟩, ih hl⟩
    exact hmunch.unique hother.1

theorem lexChars_of_munched (htile : Tiles p ts q) (h : Munched ts) :
    lexChars p (spelled ts) = .ok ts := by
  induction ts generalizing p with
  | nil => exact lexChars_nil p
  | cons t ts ih =>
    obtain ⟨-, hstart, hstop, htile⟩ := htile
    obtain ⟨⟨shape, ⟨hmunch, hkind⟩, -⟩, hts⟩ := h
    cases htext : t.text.toList with
    | nil => rw [htext] at hmunch; exact absurd hmunch.spells id
    | cons c m =>
      rw [htext] at hmunch
      obtain ⟨hc, hr⟩ := Lexeme.munch_iff.1 hmunch
      have hstop : t.stop = p.after (c :: m) := by
        rw [hstop, hstart, Position.advance, htext]
      have htok : shape.token p (c :: m) = t := by
        rw [Lexeme.token, ← htext, String.ofList_toList, ← Lexeme.denotes_iff.1 hkind, htext,
          ← hstop, ← hstart]
      rw [spelled_cons, htext, List.cons_append, lexChars_cons hc hr, htok, ← hstop, ih htile hts]
      rfl

/-- **What is accepted.**  The tokens of a text tile it, and each takes as much as
    it can; a text that has such tokens is accepted. -/
theorem lexChars_eq_ok_iff : lexChars p cs = .ok ts ↔
    Tiles p ts (p.after cs) ∧ spelled ts = cs ∧ Munched ts := by
  constructor
  · intro h
    obtain ⟨htile, hspell⟩ := tiles_of_lexChars h
    exact ⟨htile, hspell, munched_of_lexChars h⟩
  · rintro ⟨htile, rfl, hm⟩
    exact lexChars_of_munched htile hm

/-! ## Texts that are refused -/

/-- `Stuck c rest place e`: at a place before `c` and `rest` there is no token, for
    the reason `e`. -/
inductive Stuck (c : Char) (rest : List Char) (place : Position) : LexError → Prop
  | illegal : (∀ shape : Lexeme, ¬ shape.Begins c) → Stuck c rest place (.illegalChar c place)
  | unclosed : c = '"' → (∀ s, s <+: rest → ¬ Closing s) →
      Stuck c rest place (.unterminatedString place)

theorem Lexeme.reach_eq_none {shape : Lexeme} (h : shape.reach cs = none) :
    shape = quoted ∧ closeQuote cs = none := by
  cases shape with
  | quoted => exact ⟨rfl, h⟩
  | semicolon => simp only [reach] at h; split at h <;> cases h
  | _ => cases h

theorem lexChars_of_stuck (h : Stuck c rest p e) : lexChars p (c :: rest) = .error e := by
  rw [lexChars]
  cases h with
  | illegal hc => simp only [Lexeme.ofChar?_eq_none_iff.2 hc]
  | unclosed hc hrest =>
    have hquote : Lexeme.ofChar? c = some .quoted := Lexeme.ofChar?_eq_some_iff.2 hc
    have hnone : Lexeme.quoted.reach rest = none := closeQuote_eq_none_iff.2 hrest
    simp only [hquote]
    split
    · rfl
    · next hr => rw [hnone] at hr; cases hr

/-- The lexer gets stuck behind tokens that it has found. -/
theorem exists_stuck (h : lexChars p cs = .error e) :
    ∃ ds c rest ts, cs = ds ++ c :: rest ∧ lexChars p ds = .ok ts ∧
      Stuck c rest (p.after ds) e := by
  fun_induction lexChars p cs with
  | case1 => cases h
  | case2 p c rest hc =>
    cases h
    exact ⟨[], c, rest, [], rfl, lexChars_nil p, .illegal (Lexeme.ofChar?_eq_none_iff.1 hc)⟩
  | case3 p c rest shape hc hr =>
    cases h
    obtain ⟨rfl, hnone⟩ := Lexeme.reach_eq_none hr
    exact ⟨[], c, rest, [], rfl, lexChars_nil p,
      .unclosed (Lexeme.ofChar?_eq_some_iff.1 hc) (closeQuote_eq_none_iff.1 hnone)⟩
  | case4 p c rest shape hc m r hr text stop ih =>
    have hrest : lexChars stop r = .error e := by
      cases hl : lexChars stop r with
      | ok ts => rw [hl] at h; cases h
      | error e' => rw [hl] at h; cases h; rfl
    obtain ⟨ds, d, rest', ts, rfl, hds, hstuck⟩ := ih hrest
    obtain rfl := Lexeme.reach_append hr
    have htoken := lexChars_cons (p := p) hc (Lexeme.reach_prefix hr (List.prefix_append ds _))
    refine ⟨c :: (m ++ ds), d, rest', shape.token p (c :: m) :: ts, by simp, ?_, ?_⟩
    · rw [htoken, hds]; rfl
    · rw [← List.cons_append, Position.after_append]; exact hstuck

/-- A character that no token takes behind its first one, strings apart. -/
structure Divides (c : Char) : Prop where
  blank : ¬ isBlank c
  word : ¬ isWordChar c
  digit : ¬ isDigitChar c
  operator : ¬ isOperatorChar c
  semicolon : c ≠ ';'

theorem Stuck.divides (h : Stuck c rest p e) : Divides c := by
  cases h with
  | unclosed hc => subst hc; constructor <;> decide
  | illegal hc =>
    have hsmall : ¬ SmallLetter c := fun h => hc .word (Or.inl h)
    have hscore : c ≠ '_' := fun h => hc .word (Or.inr h)
    have hcapital : ¬ CapitalLetter c := hc .capitalised
    have hdigit : ¬ Digit c := hc .number
    have hprime : c ≠ '\'' := by rintro rfl; exact hc .operator (isOperatorChar_iff.1 (by decide))
    exact ⟨mt isBlank_iff.1 (hc .blank),
      by simp [isWordChar_iff, hsmall, hcapital, hdigit, hscore, hprime],
      by simp [isDigitChar_iff, hdigit, hscore], mt isOperatorChar_iff.1 (hc .operator),
      hc .semicolon⟩

theorem span_divided {P : Char → Bool} {m r : List Char} (h : (m ++ r).takeWhile P = m)
    (hc : ¬ P c) : (m ++ (r ++ c :: rest)).takeWhile P = m := by
  have hm : ∀ d ∈ m, P d := fun d hd => List.mem_takeWhile_imp (h ▸ hd)
  rw [List.takeWhile_append_of_pos hm, List.append_right_eq_self] at h ⊢
  cases r with
  | nil => rw [List.nil_append, List.takeWhile_cons_of_neg hc]
  | cons d r =>
    have hd : ¬ P d := by
      intro hd
      rw [List.takeWhile_cons_of_pos hd] at h
      cases h
    rw [List.cons_append, List.takeWhile_cons_of_neg hd]

/-- How far a token reaches does not change when a dividing character and what is
    behind it are added to the text. -/
theorem Lexeme.reach_divided {shape : Lexeme} {m r : List Char} (hc : Divides c)
    (h : shape.reach (m ++ r) = some (m, r)) :
    shape.reach (m ++ (r ++ c :: rest)) = some (m, r ++ c :: rest) := by
  cases shape with
  | blank => exact span_eq_iff.2 (span_divided (span_eq_iff.1 h) hc.blank)
  | word | capitalised => exact span_eq_iff.2 (span_divided (span_eq_iff.1 h) hc.word)
  | number => exact span_eq_iff.2 (span_divided (span_eq_iff.1 h) hc.digit)
  | operator => exact span_eq_iff.2 (span_divided (span_eq_iff.1 h) hc.operator)
  | quoted => exact closeQuote_replace h _
  | delimiter =>
    obtain ⟨rfl, -⟩ := Prod.mk.inj (Option.some.inj h)
    rfl
  | semicolon =>
    rw [reach_semicolon_iff] at h ⊢
    refine ⟨h.1, ?_⟩
    rintro hpre rfl
    cases r with
    | nil => exact hc.semicolon (List.cons_prefix_cons.1 hpre).1.symm
    | cons d r =>
      rw [List.nil_append, List.cons_append, List.cons_prefix_cons] at hpre
      exact h.2 (List.cons_prefix_cons.2 ⟨hpre.1, List.nil_prefix⟩) rfl

/-- The lexer goes on with a dividing character behind an accepted text. -/
theorem lexChars_append_divided (hc : Divides c) (h : lexChars p ds = .ok ts) :
    lexChars p (ds ++ c :: rest) = (lexChars (p.after ds) (c :: rest)).map (ts ++ ·) := by
  induction ts generalizing p ds with
  | nil =>
    rw [eq_nil_of_lexChars h, List.nil_append, Position.after_nil]
    cases lexChars p (c :: rest) <;> rfl
  | cons t ts ih =>
    obtain ⟨d, m, r, shape, rfl, hd, hr, rfl, hl⟩ := lexChars_eq_cons h
    have hsplit : d :: (m ++ r) ++ c :: rest = d :: (m ++ (r ++ c :: rest)) := by simp
    rw [hsplit, lexChars_cons hd (Lexeme.reach_divided hc hr), ih hl, ← List.cons_append,
      Position.after_append]
    cases lexChars ((p.after (d :: m)).after r) (c :: rest) <;> rfl

/-- **What is refused.** -/
theorem lexChars_eq_error_iff : lexChars p cs = .error e ↔
    ∃ ds c rest ts, cs = ds ++ c :: rest ∧ lexChars p ds = .ok ts ∧
      Stuck c rest (p.after ds) e := by
  refine ⟨exists_stuck, ?_⟩
  rintro ⟨ds, c, rest, ts, rfl, hds, hstuck⟩
  rw [lexChars_append_divided hstuck.divides hds, lexChars_of_stuck hstuck]
  rfl

/-! ## Texts elsewhere -/

/-- The kinds and texts of tokens. -/
def lexemes (ts : List Token) : List (TokenKind × String) := ts.map fun t => (t.kind, t.text)

theorem exists_lexChars_moved (h : lexChars p cs = .ok ts) (q : Position) :
    ∃ us, lexChars q cs = .ok us ∧ lexemes us = lexemes ts := by
  induction ts generalizing p q cs with
  | nil => rw [eq_nil_of_lexChars h]; exact ⟨[], lexChars_nil q, rfl⟩
  | cons t ts ih =>
    obtain ⟨c, m, r, shape, rfl, hc, hr, rfl, hl⟩ := lexChars_eq_cons h
    obtain ⟨us, hus, heq⟩ := ih hl (q.after (c :: m))
    refine ⟨shape.token q (c :: m) :: us, by rw [lexChars_cons hc hr, hus]; rfl, ?_⟩
    exact congrArg (_ :: ·) heq

theorem lexemes_lex (p q : Position) (text : String) :
    (lex p text).toOption.map lexemes = (lex q text).toOption.map lexemes := by
  cases hp : lex p text with
  | ok ts =>
    obtain ⟨us, hus, heq⟩ := exists_lexChars_moved hp q
    rw [lex, hus]; exact congrArg some heq.symm
  | error e =>
    cases hq : lex q text with
    | ok us =>
      obtain ⟨ts, hts, -⟩ := exists_lexChars_moved hq p
      rw [lex, hts] at hp; cases hp
    | error e' => rfl

theorem join_texts_iff {text : String} :
    String.join (ts.map (·.text)) = text ↔ spelled ts = text.toList := by
  rw [← String.toList_inj, String.toList_join, List.flatMap_map]; rfl

/-- **Exact tokens.**  The tokens of a text, wherever it begins, are those that tile
    it and of which each takes as much as its shape allows; a text that has such
    tokens is accepted.  A text is refused exactly when a part of it that is
    accepted stands before a character that begins no token, or before a string
    that is not closed; the refusal names that place.  Where the text begins matters
    neither for the kinds and texts of its tokens nor for whether it has any. -/
theorem lex_exact (start : Position) (text : String) :
    (∀ ts, lex start text = .ok ts ↔
      Tiles start ts (start.advance text) ∧ String.join (ts.map (·.text)) = text ∧ Munched ts) ∧
    (∀ c place, lex start text = .error (.illegalChar c place) ↔
      ∃ before rest ts, text.toList = before.toList ++ c :: rest ∧ lex start before = .ok ts ∧
        place = start.advance before ∧ ∀ shape : Lexeme, ¬ shape.Begins c) ∧
    (∀ place, lex start text = .error (.unterminatedString place) ↔
      ∃ before rest ts, text.toList = before.toList ++ '"' :: rest ∧ lex start before = .ok ts ∧
        place = start.advance before ∧ ∀ s, s <+: rest → ¬ Closing s) ∧
    ∀ start', (lex start' text).toOption.map lexemes = (lex start text).toOption.map lexemes := by
  refine ⟨fun ts => ?_, fun c place => ?_, fun place => ?_, fun start' => lexemes_lex _ _ _⟩
  · rw [join_texts_iff]; exact lexChars_eq_ok_iff
  · rw [lex, lexChars_eq_error_iff]
    constructor
    · rintro ⟨ds, c', rest, ts, hcs, hds, ⟨hc⟩ | _⟩
      exact ⟨String.ofList ds, rest, ts, by simpa using hcs, by simpa [lex] using hds,
        by simp [Position.advance], hc⟩
    · rintro ⟨before, rest, ts, hcs, hds, rfl, hc⟩
      exact ⟨before.toList, c, rest, ts, hcs, hds, .illegal hc⟩
  · rw [lex, lexChars_eq_error_iff]
    constructor
    · rintro ⟨ds, c', rest, ts, hcs, hds, _ | ⟨rfl, hrest⟩⟩
      exact ⟨String.ofList ds, rest, ts, by simpa using hcs, by simpa [lex] using hds,
        by simp [Position.advance], hrest⟩
    · rintro ⟨before, rest, ts, hcs, hds, rfl, hrest⟩
      exact ⟨before.toList, '"', rest, ts, hcs, hds, .unclosed rfl hrest⟩

end PhraseServer
