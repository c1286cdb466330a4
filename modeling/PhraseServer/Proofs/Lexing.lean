/-
  Tokens tile the text, and a text may be cut between tokens.

  * `tiles_of_lexChars`: the tokens of a text cover it without a gap;
  * `lexChars_split`: what is left of a text that is cut behind a token has the
    tokens before the cut, and what is cut off has the tokens behind it.  The
    lexer looks ahead only to see where a token ends, and the end of a text ends
    every token but a string.
-/
import Mathlib.Data.List.TakeWhile
import Mathlib.Tactic.Common
import PhraseServer.Token.Lexer

namespace PhraseServer

/-! ## Tiles -/

/-- The characters of tokens. -/
def spelled (ts : List Token) : List Char := ts.flatMap (·.text.toList)

@[simp] theorem spelled_nil : spelled [] = [] := rfl

@[simp] theorem spelled_cons (t : Token) (ts : List Token) :
    spelled (t :: ts) = t.text.toList ++ spelled ts := rfl

@[simp] theorem spelled_append (ts us : List Token) :
    spelled (ts ++ us) = spelled ts ++ spelled us := by
  simp [spelled]

/-- `Tiles p ts q`: the tokens cover the buffer from `p` to `q`.  None is empty,
    each begins where the one before ends, and ends behind its own text. -/
def Tiles (p : Position) : List Token → Position → Prop
  | [], q => q = p
  | t :: ts, q =>
    t.text ≠ "" ∧ t.start = p ∧ t.stop = t.start.advance t.text ∧ Tiles t.stop ts q

theorem Tiles.append {p q r : Position} {ts us : List Token} (h : Tiles p ts q)
    (h' : Tiles q us r) : Tiles p (ts ++ us) r := by
  induction ts generalizing p with
  | nil => cases h; exact h'
  | cons t ts ih => exact ⟨h.1, h.2.1, h.2.2.1, ih h.2.2.2⟩

theorem Tiles.split {p r : Position} {ts us : List Token} (h : Tiles p (ts ++ us) r) :
    ∃ q, Tiles p ts q ∧ Tiles q us r := by
  induction ts generalizing p with
  | nil => exact ⟨p, rfl, h⟩
  | cons t ts ih =>
    obtain ⟨q, hq, hr⟩ := ih h.2.2.2
    exact ⟨q, ⟨h.1, h.2.1, h.2.2.1, hq⟩, hr⟩

/-- Tiles end behind their characters. -/
theorem Tiles.eq_after {p q : Position} {ts : List Token} (h : Tiles p ts q) :
    q = p.after (spelled ts) := by
  induction ts generalizing p with
  | nil => exact h
  | cons t ts ih =>
    obtain ⟨-, rfl, hstop, hts⟩ := h
    rw [ih hts, hstop, spelled_cons, Position.after_append]; rfl

/-- The position behind the last of some tokens. -/
theorem Tiles.eq_stop {p q : Position} {ts : List Token} (h : Tiles p ts q) :
    q = (ts.getLast?.map (·.stop)).getD p := by
  induction ts generalizing p with
  | nil => exact h
  | cons t ts ih =>
    rw [ih h.2.2.2]
    cases ts <;> simp [List.getLast?_cons]

theorem byteLength_append (cs ds : List Char) :
    byteLength (cs ++ ds) = byteLength cs + byteLength ds := by
  induction cs with
  | nil => simp [byteLength]
  | cons c cs ih => simp [byteLength, ih, Nat.add_assoc]

theorem byteLength_pos {cs : List Char} (h : cs ≠ []) : 0 < byteLength cs := by
  cases cs with
  | nil => exact absurd rfl h
  | cons c cs => exact Nat.add_pos_left (Char.utf8Size_pos c) _

/-- A token with a text ends behind its start. -/
theorem Tiles.offset_lt {p q : Position} {t : Token} {ts : List Token}
    (h : Tiles p (t :: ts) q) : p.offset < t.stop.offset := by
  obtain ⟨hne, rfl, hstop, -⟩ := h
  rw [hstop, Position.advance, Position.offset_after]
  have := byteLength_pos (mt String.toList_eq_nil_iff.1 hne)
  omega

/-- The ends of tiles grow. -/
theorem Tiles.offset_le {p q : Position} {ts : List Token} (h : Tiles p ts q) :
    ∀ t ∈ ts, p.offset < t.stop.offset ∧ t.stop.offset ≤ q.offset := by
  induction ts generalizing p with
  | nil => simp
  | cons t ts ih =>
    have hlt := h.offset_lt
    have hq : t.stop.offset ≤ q.offset := by
      rw [h.2.2.2.eq_after, Position.offset_after]; omega
    intro u hu
    rcases List.mem_cons.1 hu with rfl | hu
    · exact ⟨hlt, hq⟩
    · obtain ⟨h1, h2⟩ := ih h.2.2.2 u hu
      exact ⟨by omega, h2⟩

/-! ## Reaches -/

/-- A run of characters ends at the end of the text as at any other character. -/
theorem span_prefix {P : Char → Bool} {m r r' : List Char} (h : (m ++ r).takeWhile P = m)
    (hp : r' <+: r) : (m ++ r').takeWhile P = m ∧ (m ++ r').dropWhile P = r' := by
  have hm : ∀ c ∈ m, P c := fun c hc => List.mem_takeWhile_imp (h ▸ hc)
  rw [List.takeWhile_append_of_pos hm, List.append_right_eq_self] at h
  rw [List.takeWhile_append_of_pos hm, List.dropWhile_append_of_pos hm]
  cases r' with
  | nil => simp
  | cons c r' =>
    obtain ⟨r'', rfl⟩ := hp
    have hc : ¬ P c := by
      intro hc
      rw [List.cons_append, List.takeWhile_cons_of_pos hc] at h
      cases h
    rw [List.takeWhile_cons_of_neg hc, List.dropWhile_cons_of_neg hc]
    simp

theorem closeQuote_replace {cs s r : List Char} (h : closeQuote cs = some (s, r))
    (r' : List Char) : closeQuote (s ++ r') = some (s, r') := by
  fun_induction closeQuote cs generalizing s r with
  | case1 => cases h
  | case2 c rest ih =>
    obtain ⟨⟨u, v⟩, huv, hsr⟩ := Option.map_eq_some_iff.1 h
    obtain ⟨rfl, rfl⟩ := Prod.mk.inj hsr
    simp [closeQuote, ih huv]
  | case3 => cases h
  | case4 rest => cases h; rfl
  | case5 c rest hesc hend hc ih =>
    obtain ⟨⟨u, v⟩, huv, hsr⟩ := Option.map_eq_some_iff.1 h
    obtain ⟨rfl, rfl⟩ := Prod.mk.inj hsr
    have hb : c ≠ '\\' := by
      rintro rfl
      cases rest with
      | nil => exact hend rfl rfl
      | cons d rest => exact hesc d rest rfl rfl
    simp [closeQuote, hb, hc, ih huv]

namespace Lexeme

/-- How far a token reaches does not change when the text behind it is cut. -/
theorem reach_prefix {shape : Lexeme} {m r r' : List Char}
    (h : shape.reach (m ++ r) = some (m, r)) (hp : r' <+: r) :
    shape.reach (m ++ r') = some (m, r') := by
  cases shape with
  | quoted => exact closeQuote_replace h r'
  | delimiter =>
    obtain ⟨rfl, -⟩ := Prod.mk.inj (Option.some.inj h)
    rfl
  | semicolon =>
    simp only [reach] at h ⊢
    split at h
    · next rest hm =>
      obtain ⟨rfl, -⟩ := Prod.mk.inj (Option.some.inj h)
      rfl
    · next hm =>
      obtain ⟨rfl, -⟩ := Prod.mk.inj (Option.some.inj h)
      cases r' with
      | nil => rfl
      | cons c r' =>
        obtain ⟨r'', rfl⟩ := hp
        have hc : c ≠ ';' := by rintro rfl; exact hm (r' ++ r'') rfl
        simp [hc]
  | _ =>
    obtain ⟨hs, hd⟩ := span_prefix (Prod.mk.inj (Option.some.inj h)).1 hp
    simp only [reach, hs, hd]

end Lexeme

/-! ## Cutting a text between tokens -/

/-- The token with a shape, a place and characters. -/
def Lexeme.token (shape : Lexeme) (p : Position) (cs : List Char) : Token :=
  ⟨shape.kind (String.ofList cs), String.ofList cs, p, p.after cs⟩

@[simp] theorem lexChars_nil (p : Position) : lexChars p [] = .ok [] := by
  rw [lexChars]

theorem lexChars_cons {p : Position} {c : Char} {shape : Lexeme} {m r : List Char}
    (hc : Lexeme.ofChar? c = some shape) (hr : shape.reach (m ++ r) = some (m, r)) :
    lexChars p (c :: (m ++ r))
      = (lexChars (p.after (c :: m)) r).map (shape.token p (c :: m) :: ·) := by
  rw [lexChars]
  simp only [hc]
  split
  · next h => rw [hr] at h; cases h
  · next m' r' h =>
    rw [hr] at h
    obtain ⟨rfl, rfl⟩ := Prod.mk.inj (Option.some.inj h)
    rfl

/-- A text that is not empty has a first token, and the rest has the others. -/
theorem lexChars_cons_inv {p : Position} {c : Char} {cs : List Char} {us : List Token}
    (h : lexChars p (c :: cs) = .ok us) :
    ∃ m r shape ts, cs = m ++ r ∧ Lexeme.ofChar? c = some shape ∧
      shape.reach (m ++ r) = some (m, r) ∧ us = shape.token p (c :: m) :: ts ∧
      lexChars (p.after (c :: m)) r = .ok ts := by
  rw [lexChars] at h
  split at h
  · cases h
  · next shape hc =>
    split at h
    · cases h
    · next m r hr =>
      have hcs := Lexeme.reach_append hr
      change (lexChars (p.after (c :: m)) r).map (shape.token p (c :: m) :: ·) = _ at h
      cases hl : lexChars (p.after (c :: m)) r with
      | error e => rw [hl] at h; cases h
      | ok ts =>
        rw [hl] at h; cases h
        exact ⟨m, r, shape, ts, hcs.symm, hc, by rw [hcs]; exact hr, rfl, hl⟩

theorem eq_nil_of_lexChars {p : Position} {cs : List Char} (h : lexChars p cs = .ok []) :
    cs = [] := by
  cases cs with
  | nil => rfl
  | cons c cs => obtain ⟨m, r, shape, ts, -, -, -, hus, -⟩ := lexChars_cons_inv h; cases hus

theorem lexChars_eq_cons {p : Position} {cs : List Char} {t : Token} {ts : List Token}
    (h : lexChars p cs = .ok (t :: ts)) :
    ∃ c m r shape, cs = c :: (m ++ r) ∧ Lexeme.ofChar? c = some shape ∧
      shape.reach (m ++ r) = some (m, r) ∧ t = shape.token p (c :: m) ∧
      lexChars (p.after (c :: m)) r = .ok ts := by
  cases cs with
  | nil => simp at h
  | cons c cs =>
    obtain ⟨m, r, shape, us, rfl, hc, hr, hus, hl⟩ := lexChars_cons_inv h
    cases hus
    exact ⟨c, m, r, shape, rfl, hc, hr, rfl, hl⟩

/-- **Tokens tile their text.** -/
theorem tiles_of_lexChars {p : Position} {cs : List Char} {ts : List Token}
    (h : lexChars p cs = .ok ts) : Tiles p ts (p.after cs) ∧ spelled ts = cs := by
  induction ts generalizing p cs with
  | nil => rw [eq_nil_of_lexChars h]; exact ⟨rfl, rfl⟩
  | cons t ts ih =>
    obtain ⟨c, m, r, shape, rfl, -, -, rfl, hl⟩ := lexChars_eq_cons h
    obtain ⟨ht, hs⟩ := ih hl
    rw [← List.cons_append, Position.after_append]
    refine ⟨⟨by simp [Lexeme.token], rfl, ?_, ht⟩, ?_⟩
    · simp [Lexeme.token, Position.advance]
    · rw [spelled_cons, hs]; simp [Lexeme.token]

/-- **Cutting between tokens.**  Both sides of a cut keep their tokens. -/
theorem lexChars_split {p : Position} {cs : List Char} {ts us : List Token}
    (h : lexChars p cs = .ok (ts ++ us)) :
    lexChars p (spelled ts) = .ok ts ∧ lexChars (p.after (spelled ts)) (spelled us) = .ok us := by
  induction ts generalizing p cs with
  | nil =>
    rw [List.nil_append] at h
    refine ⟨lexChars_nil p, ?_⟩
    rw [spelled_nil, Position.after_nil, (tiles_of_lexChars h).2]; exact h
  | cons t ts ih =>
    obtain ⟨c, m, r, shape, rfl, hc, hr, rfl, hl⟩ := lexChars_eq_cons h
    obtain ⟨h1, h2⟩ := ih hl
    have hsp : spelled (ts ++ us) = r := (tiles_of_lexChars hl).2
    have hpre : spelled ts <+: r := ⟨spelled us, by rw [← spelled_append, hsp]⟩
    have htext : spelled (shape.token p (c :: m) :: ts) = c :: (m ++ spelled ts) := by
      simp [Lexeme.token]
    rw [htext]
    constructor
    · rw [lexChars_cons hc (Lexeme.reach_prefix hr hpre), h1]; rfl
    · rw [← List.cons_append, Position.after_append]; exact h2

end PhraseServer
