/-
  Outlines that carry on from call to call.

  Tokens may reach the outliner in any number of calls, each given the last
  outline so far.  `Delivered` says what the outlines of all calls have in
  common: an outline tells whether its first token starts a phrase, no later
  token of it does, and it carries on what lies behind it.

  * `delivered_outline`, `Delivered.append`: the calls deliver such outlines;
  * `outline_split`: outlining the tokens of the first outlines gives them back;
  * `chunk_eq_chunkTokens`: the chunks of delivered outlines depend on their
    tokens only, not on the calls.
-/
import Mathlib.Tactic.Common
import PhraseServer.Chunk

namespace PhraseServer

/-! ## Carried over tokens -/

namespace Nesting

/-- What is carried behind tokens. -/
def feedAll (n : Nesting) (ts : List Token) : Nesting := ts.foldl feed n

/-- None of the tokens starts a phrase. -/
def Inside (n : Nesting) : List Token → Prop
  | [] => True
  | t :: ts => n.startsPhrase t = false ∧ (n.feed t).Inside ts

theorem Inside.append {n : Nesting} {ts us : List Token} (h : n.Inside ts)
    (h' : (n.feedAll ts).Inside us) : n.Inside (ts ++ us) := by
  induction ts generalizing n with
  | nil => exact h'
  | cons t ts ih => exact ⟨h.1, ih h.2 h'⟩

end Nesting

/-- What is carried behind outlines. -/
def carried (n : Nesting) (os : List Outline) : Nesting := (os.getLast?.map (·.after)).getD n

theorem carried_cons (n : Nesting) (o : Outline) (os : List Outline) :
    carried n (o :: os) = carried o.after os := by
  cases os with
  | nil => rfl
  | cons o' os => simp [carried, List.getLast?_cons]

/-! ## Delivered outlines -/

/-- `Delivered n os`: the outlines go on from `n`, one behind the other. -/
def Delivered (n : Nesting) : List Outline → Prop
  | [] => True
  | o :: os =>
    o.opensPhrase = n.startsPhrase o.first ∧ (n.feed o.first).Inside o.more ∧
      o.after = n.feedAll o.tokens ∧ Delivered o.after os

theorem Delivered.append {n : Nesting} {os us : List Outline} (h : Delivered n os)
    (h' : Delivered (carried n os) us) : Delivered n (os ++ us) := by
  induction os generalizing n with
  | nil => exact h'
  | cons o os ih =>
    rw [carried_cons] at h'
    exact ⟨h.1, h.2.1, h.2.2.1, ih h.2.2.2 h'⟩

theorem delivered_outlineFrom (n : Nesting) (first : Token) (more ts : List Token)
    (h : (n.feed first).Inside more) :
    Delivered n (outlineFrom (n.feedAll (first :: more)) (n.startsPhrase first) first more ts) := by
  induction ts generalizing n first more with
  | nil => exact ⟨rfl, h, rfl, trivial⟩
  | cons t ts ih =>
    rw [outlineFrom]
    split_ifs with ht
    · refine ⟨rfl, h, rfl, ?_⟩
      rw [← ht]; exact ih _ t [] trivial
    · have hmore : (n.feed first).Inside (more ++ [t]) := by
        refine h.append ⟨?_, trivial⟩
        simpa [Nesting.feedAll] using ht
      have hfeed : (n.feedAll (first :: more)).feed t = n.feedAll (first :: (more ++ [t])) := by
        simp [Nesting.feedAll]
      rw [hfeed]; exact ih n first (more ++ [t]) hmore

/-- **Outlining goes on where it stopped.** -/
theorem delivered_outline (previous : Option Outline) (ts : List Token) :
    Delivered ((previous.map (·.after)).getD {}) (outline previous ts) := by
  cases ts with
  | nil => trivial
  | cons t ts => exact delivered_outlineFrom _ t [] ts trivial

/-! ## Cutting between outlines -/

theorem outlineFrom_split {n : Nesting} {opens : Bool} {first : Token} {more ts : List Token}
    {o : Outline} {os us : List Outline}
    (h : outlineFrom n opens first more ts = o :: os ++ us) :
    ∃ vs, (o :: os).flatMap Outline.tokens = first :: more ++ vs ∧
      outlineFrom n opens first more vs = o :: os := by
  induction ts generalizing n opens first more o os with
  | nil =>
    simp only [outlineFrom, List.cons_append, List.cons.injEq, List.nil_eq, List.append_eq_nil_iff]
      at h
    obtain ⟨rfl, rfl, -⟩ := h
    exact ⟨[], by simp [Outline.tokens], rfl⟩
  | cons t ts ih =>
    rw [outlineFrom] at h
    split_ifs at h with ht
    · obtain ⟨rfl, hrest⟩ := List.cons.inj h
      cases os with
      | nil => exact ⟨[], by simp [Outline.tokens], rfl⟩
      | cons o os =>
        obtain ⟨vs, hvs, ho⟩ := ih hrest
        refine ⟨t :: vs, ?_, ?_⟩
        · rw [List.flatMap_cons, hvs]; simp [Outline.tokens]
        · rw [outlineFrom, if_pos ht, ho]
    · obtain ⟨vs, hvs, ho⟩ := ih h
      refine ⟨t :: vs, by simpa using hvs, ?_⟩
      rw [outlineFrom, if_neg ht, ho]

/-- **Cutting between outlines.**  The tokens of the first outlines of a call
    have those outlines. -/
theorem outline_split {previous : Option Outline} {ts : List Token} {os us : List Outline}
    (h : outline previous ts = os ++ us) :
    outline previous (os.flatMap Outline.tokens) = os := by
  cases os with
  | nil => rfl
  | cons o os =>
    cases ts with
    | nil => simp [outline] at h
    | cons t ts =>
      obtain ⟨vs, hvs, ho⟩ := outlineFrom_split h
      rw [hvs]; exact ho

/-! ## Chunks of tokens -/

/-- The chunks of tokens behind a chunk under way, whose tokens so far are
    `first` and `more`: a phrase start begins a chunk, unless only trivia stand
    before it. -/
def chunkTokensFrom (n : Nesting) (first : Token) (more : List Token) : List Token → List Chunk
  | [] => [.ofTokens first more]
  | t :: ts =>
    if n.startsPhrase t && (first :: more).any (!·.isTrivia) then
      .ofTokens first more :: chunkTokensFrom (n.feed t) t [] ts
    else chunkTokensFrom (n.feed t) first (more ++ [t]) ts

/-- The chunks of all tokens of a buffer. -/
def chunkTokens : List Token → List Chunk
  | [] => []
  | t :: ts => chunkTokensFrom (Nesting.feed {} t) t [] ts

theorem chunkTokensFrom_inside {n : Nesting} {first : Token} {more ts : List Token}
    (h : n.Inside ts) (us : List Token) :
    chunkTokensFrom n first more (ts ++ us)
      = chunkTokensFrom (n.feedAll ts) first (more ++ ts) us := by
  induction ts generalizing n more with
  | nil => simp [Nesting.feedAll]
  | cons t ts ih =>
    rw [List.cons_append, chunkTokensFrom, h.1, Bool.false_and, if_neg (by simp), ih h.2]
    simp [Nesting.feedAll]

theorem chunkFrom_eq_chunkTokensFrom {n : Nesting} {os : List Outline} (h : Delivered n os)
    (first : Token) (more : List Token) :
    chunkFrom first more os = chunkTokensFrom n first more (os.flatMap Outline.tokens) := by
  induction os generalizing n first more with
  | nil => rfl
  | cons o os ih =>
    obtain ⟨hopens, hin, hafter, hos⟩ := h
    have hfeed : (n.feed o.first).feedAll o.more = o.after := by rw [hafter]; rfl
    rw [chunkFrom, List.flatMap_cons, Outline.tokens, List.cons_append, chunkTokensFrom, ← hopens]
    split_ifs with hc
    · rw [chunkTokensFrom_inside hin, hfeed, List.nil_append, ih hos]
    · rw [chunkTokensFrom_inside hin, hfeed, List.append_assoc, ih hos]; rfl

/-- **Chunks depend on the tokens only.** -/
theorem chunk_eq_chunkTokens {os : List Outline} (h : Delivered {} os) :
    chunk os = chunkTokens (os.flatMap Outline.tokens) := by
  cases os with
  | nil => rfl
  | cons o os =>
    obtain ⟨-, hin, hafter, hos⟩ := h
    have hfeed : (Nesting.feed {} o.first).feedAll o.more = o.after := by rw [hafter]; rfl
    rw [chunk, chunkFrom_eq_chunkTokensFrom hos, List.flatMap_cons, Outline.tokens,
      List.cons_append, chunkTokens, chunkTokensFrom_inside hin, hfeed, List.nil_append]

end PhraseServer
