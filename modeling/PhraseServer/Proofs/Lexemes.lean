/-
  The texts of tokens.

  They are described without the lexer: a first character begins texts of one
  shape (`Lexeme.Begins`), a shape says how its texts may go on
  (`Lexeme.Continues`), and a token takes as much as its shape allows
  (`Lexeme.Munch`).  The classes of characters and the reserved words are spelled
  out here once more.

  * `closeQuote_eq_some_iff`: a string ends at the first quote that is not
    escaped;
  * `ofChar?_eq_some_iff`: a character begins texts of one shape at most;
  * `reach_eq_some_iff`: how far a token reaches is as far as its shape allows;
  * `denotes_iff`: a shape and a text have one kind.
-/
import PhraseServer.Proofs.Lexing

namespace PhraseServer

/-! ## The inside of a string -/

/-- Characters none of which is a quote that would close a string: a backslash
    stands before a character that it escapes. -/
inductive Quotable : List Char → Prop
  | nil : Quotable []
  | plain {c : Char} {cs : List Char} : c ≠ '"' → c ≠ '\\' → Quotable cs → Quotable (c :: cs)
  | escape {c : Char} {cs : List Char} : Quotable cs → Quotable ('\\' :: c :: cs)

/-- Characters up to a closing quote, itself included. -/
def Closing (cs : List Char) : Prop := ∃ body, Quotable body ∧ cs = body ++ ['"']

theorem closeQuote_quotable {body : List Char} (h : Quotable body) (rest : List Char) :
    closeQuote (body ++ '"' :: rest) = some (body ++ ['"'], rest) := by
  induction h with
  | nil => simp [closeQuote]
  | plain hq hb _ ih => simp [closeQuote, hq, hb, ih]
  | escape _ ih => simp [closeQuote, ih]

theorem closing_of_closeQuote {cs s r : List Char} (h : closeQuote cs = some (s, r)) :
    Closing s := by
  fun_induction closeQuote cs generalizing s r with
  | case1 => cases h
  | case2 c rest ih =>
    obtain ⟨⟨u, v⟩, huv, hsr⟩ := Option.map_eq_some_iff.1 h
    obtain ⟨rfl, rfl⟩ := Prod.mk.inj hsr
    obtain ⟨body, hbody, rfl⟩ := ih huv
    exact ⟨_, .escape hbody, rfl⟩
  | case3 => cases h
  | case4 rest => cases h; exact ⟨[], .nil, rfl⟩
  | case5 c rest hesc hend hc ih =>
    obtain ⟨⟨u, v⟩, huv, hsr⟩ := Option.map_eq_some_iff.1 h
    obtain ⟨rfl, rfl⟩ := Prod.mk.inj hsr
    obtain ⟨body, hbody, rfl⟩ := ih huv
    have hb : c ≠ '\\' := by
      rintro rfl
      cases rest with
      | nil => exact hend rfl rfl
      | cons d rest => exact hesc d rest rfl rfl
    exact ⟨_, .plain hc hb hbody, rfl⟩

theorem closeQuote_eq_some_iff {cs s r : List Char} :
    closeQuote cs = some (s, r) ↔ cs = s ++ r ∧ Closing s := by
  constructor
  · intro h
    exact ⟨(closeQuote_append h).symm, closing_of_closeQuote h⟩
  · rintro ⟨rfl, body, hbody, rfl⟩
    rw [List.append_assoc]; exact closeQuote_quotable hbody r

theorem closeQuote_eq_none_iff {cs : List Char} :
    closeQuote cs = none ↔ ∀ s, s <+: cs → ¬ Closing s := by
  rw [Option.eq_none_iff_forall_ne_some]
  constructor
  · rintro h s ⟨r, rfl⟩ hs
    exact h _ (closeQuote_eq_some_iff.2 ⟨rfl, hs⟩)
  · rintro h ⟨s, r⟩ hsr
    obtain ⟨rfl, hs⟩ := closeQuote_eq_some_iff.1 hsr
    exact h s (List.prefix_append s r) hs

/-! ## Classes of characters -/

/-- Space, tab, line feed, form feed, carriage return. -/
def Blank (c : Char) : Prop := c ∈ [' ', '\t', '\n', '\x0c', '\r']

def SmallLetter (c : Char) : Prop := 'a' ≤ c ∧ c ≤ 'z'

def CapitalLetter (c : Char) : Prop := 'A' ≤ c ∧ c ≤ 'Z'

def Digit (c : Char) : Prop := '0' ≤ c ∧ c ≤ '9'

/-- Brackets and the comma. -/
def Delimiter (c : Char) : Prop := c ∈ ['(', ')', '[', ']', '{', '}', ',']

/-- The characters of operators; the prime is one of them and stands in words too. -/
def OperatorSign (c : Char) : Prop :=
  c ∈ ['!', '$', '%', '&', '*', '+', '-', '.', '/', ':', '<', '=', '>', '?', '@', '^', '|', '~',
    '#', '\'']

section Classes

variable {c : Char}

theorem isBlank_iff : isBlank c ↔ Blank c := by
  simp [isBlank, Blank, or_assoc]

theorem isLower_iff : c.isLower ↔ SmallLetter c := by
  change (decide ('a' ≤ c) && decide (c ≤ 'z')) = true ↔ _
  rw [Bool.and_eq_true, decide_eq_true_iff, decide_eq_true_iff, SmallLetter]

theorem isUpper_iff : c.isUpper ↔ CapitalLetter c := by
  change decide ('A' ≤ c ∧ c ≤ 'Z') = true ↔ _
  rw [decide_eq_true_iff, CapitalLetter]

theorem isDigit_iff : c.isDigit ↔ Digit c := by
  change (decide ('0' ≤ c) && decide (c ≤ '9')) = true ↔ _
  rw [Bool.and_eq_true, decide_eq_true_iff, decide_eq_true_iff, Digit]

theorem isDelimiter_iff : isDelimiter c ↔ Delimiter c := List.contains_iff_mem

theorem isOperatorChar_iff : isOperatorChar c ↔ OperatorSign c := List.contains_iff_mem

theorem isWordChar_iff : isWordChar c ↔
    SmallLetter c ∨ CapitalLetter c ∨ Digit c ∨ c = '_' ∨ c = '\'' := by
  change ((((c.isUpper || c.isLower) || c.isDigit) || decide (c = '_')) ||
    decide (c = '\'')) = true ↔ _
  simp only [Bool.or_eq_true, decide_eq_true_eq, isLower_iff, isUpper_iff, isDigit_iff]
  tauto

theorem isDigitChar_iff : isDigitChar c ↔ Digit c ∨ c = '_' := by
  simp only [isDigitChar, Bool.or_eq_true, decide_eq_true_eq, isDigit_iff]

/-- No blank comes behind the zero. -/
theorem not_blank (h : '0' ≤ c) : ¬ Blank c := by
  simp only [Blank, List.mem_cons, List.not_mem_nil, or_false]
  rintro (rfl | rfl | rfl | rfl | rfl) <;> revert h <;> decide

end Classes

/-! ## Shapes -/

namespace Lexeme

/-- Which characters begin a text of a shape. -/
def Begins (c : Char) : Lexeme → Prop
  | blank => Blank c
  | word => SmallLetter c ∨ c = '_'
  | capitalised => CapitalLetter c
  | number => Digit c
  | quoted => c = '"'
  | semicolon => c = ';'
  | delimiter => Delimiter c
  | operator => OperatorSign c

/-- Which characters may follow the first one in a text of a shape. -/
def Continues (cs : List Char) : Lexeme → Prop
  | blank => ∀ c ∈ cs, Blank c
  | word | capitalised =>
    ∀ c ∈ cs, SmallLetter c ∨ CapitalLetter c ∨ Digit c ∨ c = '_' ∨ c = '\''
  | number => ∀ c ∈ cs, Digit c ∨ c = '_'
  | quoted => Closing cs
  | semicolon => cs = [] ∨ cs = [';']
  | delimiter => cs = []
  | operator => ∀ c ∈ cs, OperatorSign c

variable {shape : Lexeme} {c : Char} {m r : List Char}

theorem begins_of_ofChar? (h : ofChar? c = some shape) : shape.Begins c := by
  unfold ofChar? at h
  split_ifs at h with h₁ h₂ h₃ h₄ h₅ h₆ h₇ h₈ <;> cases h
  · exact isBlank_iff.1 h₁
  · simpa [Begins, isLower_iff] using h₂
  · exact isUpper_iff.1 h₃
  · exact isDigit_iff.1 h₄
  · exact h₅
  · exact h₆
  · exact isDelimiter_iff.1 h₇
  · exact isOperatorChar_iff.1 h₈

theorem ofChar?_of_word (h : SmallLetter c ∨ c = '_') : ofChar? c = some word := by
  have hblank : ¬ Blank c := by
    rcases h with h | rfl
    · exact not_blank (Char.le_trans (by decide) h.1)
    · exact not_blank (by decide)
  simp [ofChar?, isBlank_iff, isLower_iff, hblank, h]

theorem ofChar?_of_capitalLetter (h : CapitalLetter c) : ofChar? c = some capitalised := by
  have hblank : ¬ Blank c := not_blank (Char.le_trans (by decide) h.1)
  have hsmall : ¬ SmallLetter c := fun hc => absurd (Char.le_trans hc.1 h.2) (by decide)
  have hscore : c ≠ '_' := by
    rintro rfl
    exact absurd h.2 (by decide)
  simp [ofChar?, isBlank_iff, isLower_iff, isUpper_iff, hblank, hsmall, hscore, h]

theorem ofChar?_of_digit (h : Digit c) : ofChar? c = some number := by
  have hsmall : ¬ SmallLetter c := fun hc => absurd (Char.le_trans hc.1 h.2) (by decide)
  have hcapital : ¬ CapitalLetter c := fun hc => absurd (Char.le_trans hc.1 h.2) (by decide)
  have hscore : c ≠ '_' := by
    rintro rfl
    exact absurd h.2 (by decide)
  simp [ofChar?, isBlank_iff, isLower_iff, isUpper_iff, isDigit_iff, not_blank h.1, hsmall,
    hcapital, hscore, h]

theorem ofChar?_of_mem {signs : List Char} (hsigns : signs.all (ofChar? · = some shape))
    (h : c ∈ signs) : ofChar? c = some shape :=
  of_decide_eq_true (List.all_eq_true.1 hsigns c h)

/-- **The first character fixes the shape.** -/
theorem ofChar?_eq_some_iff : ofChar? c = some shape ↔ shape.Begins c := by
  refine ⟨begins_of_ofChar?, fun h => ?_⟩
  cases shape with
  | blank => exact if_pos (isBlank_iff.2 h)
  | word => exact ofChar?_of_word h
  | capitalised => exact ofChar?_of_capitalLetter h
  | number => exact ofChar?_of_digit h
  | quoted => rw [show c = '"' from h]; rfl
  | semicolon => rw [show c = ';' from h]; rfl
  | delimiter => exact ofChar?_of_mem (by decide) h
  | operator => exact ofChar?_of_mem (by decide) h

theorem Begins.unique {other : Lexeme} (h : shape.Begins c) (h' : other.Begins c) :
    shape = other :=
  Option.some.inj ((ofChar?_eq_some_iff.2 h).symm.trans (ofChar?_eq_some_iff.2 h'))

theorem ofChar?_eq_none_iff : ofChar? c = none ↔ ∀ shape : Lexeme, ¬ shape.Begins c := by
  simp only [Option.eq_none_iff_forall_ne_some, ne_eq, ofChar?_eq_some_iff]

/-! ## Longest texts -/

/-- The texts of a shape. -/
def Spells (shape : Lexeme) : List Char → Prop
  | [] => False
  | c :: cs => shape.Begins c ∧ shape.Continues cs

/-- `shape.Munch cs rest`: of the beginnings of `cs ++ rest` that have the shape,
    `cs` is the longest. -/
structure Munch (shape : Lexeme) (cs rest : List Char) : Prop where
  spells : shape.Spells cs
  longest : ∀ ds, ds <+: cs ++ rest → shape.Spells ds → ds.length ≤ cs.length

theorem prefix_takeWhile {P : Char → Bool} {ds : List Char} (h : ds <+: m)
    (hall : ∀ c ∈ ds, P c) : ds <+: m.takeWhile P := by
  obtain ⟨rest, rfl⟩ := h
  rw [List.takeWhile_append_of_pos hall]
  exact List.prefix_append _ _

/-- A run of characters of a class is the longest text with characters of the class
    only. -/
theorem takeWhile_eq_iff {P : Char → Bool} {Q : Char → Prop} (hclass : ∀ {c}, P c ↔ Q c) :
    (m ++ r).takeWhile P = m ↔
      (∀ c ∈ m, Q c) ∧ ∀ ds, ds <+: m ++ r → (∀ c ∈ ds, Q c) → ds.length ≤ m.length := by
  simp only [← hclass]
  constructor
  · intro h
    refine ⟨fun c hc => List.mem_takeWhile_imp (h ▸ hc), fun ds hds hall => ?_⟩
    have hpre := prefix_takeWhile hds hall
    rw [h] at hpre
    exact hpre.length_le
  · rintro ⟨hall, hlong⟩
    have hlen := hlong _ (List.takeWhile_prefix P) fun c hc => List.mem_takeWhile_imp hc
    exact ((prefix_takeWhile (List.prefix_append m r) hall).eq_of_length_le hlen).symm

theorem span_eq_iff {P : Char → Bool} :
    some ((m ++ r).takeWhile P, (m ++ r).dropWhile P) = some (m, r) ↔
      (m ++ r).takeWhile P = m := by
  simp only [Option.some.injEq, Prod.mk.injEq, and_iff_left_iff_imp]
  intro h
  have hsplit := List.takeWhile_append_dropWhile (p := P) (l := m ++ r)
  rw [h] at hsplit
  exact List.append_cancel_left hsplit

/-- A semicolon takes a second one if there is one. -/
theorem reach_semicolon_iff : semicolon.reach (m ++ r) = some (m, r) ↔
    (m = [] ∨ m = [';']) ∧ ([';'] <+: m ++ r → m ≠ []) := by
  simp only [reach]
  split
  · next rest h =>
    rw [h]
    constructor
    · intro heq
      cases heq
      simp
    · rintro ⟨rfl | rfl, hne⟩
      · exact absurd rfl (hne (by simp))
      · cases h; rfl
  · next hne =>
    have hpre : ¬ [';'] <+: m ++ r := by
      rintro ⟨rest, h⟩
      exact hne rest h.symm
    constructor
    · intro heq
      cases (Prod.mk.inj (Option.some.inj heq)).1
      exact ⟨Or.inl rfl, fun h => absurd h hpre⟩
    · rintro ⟨rfl | rfl, -⟩
      · rfl
      · exact absurd (List.prefix_append _ _) hpre

/-- **Reaches are longest.** -/
theorem reach_eq_some_iff : shape.reach (m ++ r) = some (m, r) ↔
    shape.Continues m ∧ ∀ ds, ds <+: m ++ r → shape.Continues ds → ds.length ≤ m.length := by
  cases shape with
  | blank => exact span_eq_iff.trans (takeWhile_eq_iff isBlank_iff)
  | word | capitalised => exact span_eq_iff.trans (takeWhile_eq_iff isWordChar_iff)
  | number => exact span_eq_iff.trans (takeWhile_eq_iff isDigitChar_iff)
  | operator => exact span_eq_iff.trans (takeWhile_eq_iff isOperatorChar_iff)
  | quoted =>
    constructor
    · intro h
      refine ⟨(closeQuote_eq_some_iff.1 h).2, ?_⟩
      -- a closed text ends at the first quote that closes it
      rintro ds ⟨rest, hrest⟩ hds
      rw [reach, closeQuote_eq_some_iff.2 ⟨hrest.symm, hds⟩] at h
      cases h
      exact Nat.le_refl _
    · rintro ⟨hm, -⟩
      exact closeQuote_eq_some_iff.2 ⟨rfl, hm⟩
  | semicolon =>
    rw [reach_semicolon_iff]
    refine and_congr_right fun hm => ⟨fun h => ?_, fun h hpre => ?_⟩
    · rintro ds hds (rfl | rfl)
      · exact Nat.zero_le _
      · exact List.length_pos_iff.2 (h hds)
    · rintro rfl
      exact absurd (h _ hpre (Or.inr rfl)) (by simp)
  | delimiter =>
    simp only [reach, Continues, Option.some.injEq, Prod.mk.injEq]
    constructor
    · rintro ⟨rfl, -⟩
      exact ⟨rfl, fun ds _ hds => by rw [hds]⟩
    · rintro ⟨rfl, -⟩
      exact ⟨rfl, rfl⟩

theorem munch_iff : shape.Munch (c :: m) r ↔
    ofChar? c = some shape ∧ shape.reach (m ++ r) = some (m, r) := by
  rw [ofChar?_eq_some_iff, reach_eq_some_iff]
  constructor
  · rintro ⟨⟨hc, hm⟩, hlong⟩
    refine ⟨hc, hm, fun ds hds hcont => ?_⟩
    exact Nat.le_of_succ_le_succ
      (hlong (c :: ds) (List.cons_prefix_cons.2 ⟨rfl, hds⟩) ⟨hc, hcont⟩)
  · rintro ⟨hc, hm, hlong⟩
    refine ⟨⟨hc, hm⟩, fun ds hds hspell => ?_⟩
    cases ds with
    | nil => exact Nat.zero_le _
    | cons d ds => exact Nat.succ_le_succ (hlong ds (List.cons_prefix_cons.1 hds).2 hspell.2)

/-! ## Kinds -/

/-- The reserved words. -/
def reservedWords : List (String × Keyword) :=
  [("let", .let_), ("rec", .rec_), ("and", .and_), ("in", .in_), ("type", .type),
    ("module", .module_), ("open", .open_), ("fun", .fun_), ("if", .if_), ("then", .then_),
    ("else", .else_), ("match", .match_), ("with", .with_), ("struct", .struct), ("sig", .sig),
    ("begin", .begin_), ("end", .end_)]

theorem mem_reservedWords {text : String} {k : Keyword} :
    (text, k) ∈ reservedWords ↔ Keyword.ofString? text = some k := by
  have htable : reservedWords = Keyword.all.map fun k => (k.spelling, k) := rfl
  rw [htable, List.mem_map]
  constructor
  · rintro ⟨k', -, heq⟩
    obtain ⟨rfl, rfl⟩ := Prod.mk.inj heq
    exact Keyword.ofString?_spelling k'
  · intro h
    exact ⟨k, List.mem_of_find?_eq_some h, by rw [Keyword.spelling_of_ofString? h]⟩

/-- `shape.Denotes text kind`: a token with the shape and the text is of the kind.
    Only a small word can be reserved. -/
inductive Denotes : Lexeme → String → TokenKind → Prop
  | blank {text : String} : Denotes blank text .whitespace
  | reserved {text : String} {k : Keyword} : (text, k) ∈ reservedWords →
      Denotes word text (.keyword k)
  | ident {text : String} : (∀ k, (text, k) ∉ reservedWords) → Denotes word text .ident
  | capitalised {text : String} : Denotes capitalised text .upperIdent
  | number {text : String} : Denotes number text .int
  | quoted {text : String} : Denotes quoted text .str
  | semicolon {text : String} : Denotes semicolon text .symbol
  | delimiter {text : String} : Denotes delimiter text .symbol
  | operator {text : String} : Denotes operator text .symbol

theorem denotes_kind (shape : Lexeme) (text : String) : shape.Denotes text (shape.kind text) := by
  cases shape with
  | word =>
    rw [kind]
    cases h : Keyword.ofString? text with
    | none =>
      refine .ident fun k hk => ?_
      rw [mem_reservedWords.1 hk] at h
      cases h
    | some k => exact .reserved (mem_reservedWords.2 h)
  | _ => constructor

theorem denotes_iff {text : String} {kind : TokenKind} :
    shape.Denotes text kind ↔ kind = shape.kind text := by
  constructor
  · intro h
    cases h with
    | reserved hk => simp [Lexeme.kind, mem_reservedWords.1 hk]
    | ident hk =>
      have hnone : Keyword.ofString? text = none :=
        Option.eq_none_iff_forall_ne_some.2 fun k h => hk k (mem_reservedWords.2 h)
      simp [Lexeme.kind, hnone]
    | _ => rfl
  · rintro rfl
    exact denotes_kind shape text

end Lexeme

end PhraseServer
