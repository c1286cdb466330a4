/-
  Where phrases start.

  Whether a token starts a phrase depends on all tokens before it
  (`PhraseStart`): no block is open, and the last significant token, if there is
  one, lets a phrase end.  The outliner sees a few tokens at a time and knows of
  the others only what the last outline carries.

  * `startsPhrase_iff`: what is carried decides phrase starts;
  * `phraseStarts_delivered`: the phrase starts are the first tokens of the
    outlines that open phrases;
  * `cutAtPhrases_deliver`: in whatever calls the tokens come, outlines are cut
    at every phrase start, and elsewhere only where a call ends.
-/
import Mathlib.Data.List.Induction
import PhraseServer.Proofs.Outlining
import PhraseServer.Token.Lexer

namespace PhraseServer

/-! ## Phrase starts -/

/-- The number of blocks open behind tokens; a closer without partner is
    ignored. -/
def openBlocks (ts : List Token) : Nat :=
  ts.foldl (fun depth t =>
    if t.opensBlock then depth + 1 else if t.closesBlock then depth - 1 else depth) 0

/-- The last token that is not trivia. -/
def lastSignificant? (ts : List Token) : Option Token := (ts.filter (!·.isTrivia)).getLast?

/-- The words that begin a declaration. -/
def declarators : List TokenKind :=
  [.keyword .let_, .keyword .type, .keyword .module_, .keyword .open_]

/-- `PhraseStart before t`: behind the tokens `before` of a buffer, `t` starts a
    phrase. -/
structure PhraseStart (before : List Token) (t : Token) : Prop where
  significant : ¬ t.isTrivia
  outside : openBlocks before = 0
  allowed : lastSignificant? before = none ∨ ∃ u, lastSignificant? before = some u ∧
    (u.isSymbol ";;" ∨ (u.isTerminal ∧ t.kind ∈ declarators))

theorem openBlocks_concat (ts : List Token) (t : Token) :
    openBlocks (ts ++ [t]) = if t.opensBlock then openBlocks ts + 1
      else if t.closesBlock then openBlocks ts - 1 else openBlocks ts := by
  simp [openBlocks]

theorem lastSignificant?_concat (ts : List Token) (t : Token) :
    lastSignificant? (ts ++ [t]) = if t.isTrivia then lastSignificant? ts else some t := by
  by_cases h : t.isTrivia <;> simp [lastSignificant?, h]

/-- Trivia neither open nor close a block. -/
theorem Token.not_block_of_isTrivia {t : Token} (h : t.isTrivia) :
    t.opensBlock = false ∧ t.closesBlock = false := by
  have hkind : t.kind = .whitespace := of_decide_eq_true h
  simp [Token.opensBlock, Token.closesBlock, hkind]

theorem opensPhrase_iff {t : Token} :
    (∃ word, t.kind = .keyword word ∧ word.opensPhrase) ↔ t.kind ∈ declarators := by
  constructor
  · rintro ⟨word, hkind, hword⟩
    rw [hkind]
    revert hword
    cases word <;> simp [declarators, Keyword.opensPhrase]
  · intro h
    simp only [declarators, List.mem_cons, List.not_mem_nil, or_false] at h
    rcases h with h | h | h | h <;> exact ⟨_, h, rfl⟩

/-! ## What is carried over tokens -/

namespace Nesting

theorem feedAll_append (n : Nesting) (ts us : List Token) :
    n.feedAll (ts ++ us) = (n.feedAll ts).feedAll us := by
  simp [feedAll]

theorem feedAll_concat (n : Nesting) (ts : List Token) (t : Token) :
    n.feedAll (ts ++ [t]) = (n.feedAll ts).feed t := by
  simp [feedAll]

/-- What a last significant token lets come behind it. -/
def lastOf (depth : Nat) : Option Token → Last
  | none => .start
  | some u =>
    if depth = 0 && u.isSymbol ";;" then .start
    else if u.isTerminal then .terminal
    else .operator

/-- **What is carried** behind the tokens of a buffer are the open blocks and the
    last significant token. -/
theorem feedAll_eq (ts : List Token) :
    feedAll {} ts = ⟨openBlocks ts, lastOf (openBlocks ts) (lastSignificant? ts)⟩ := by
  induction ts using List.reverseRecOn with
  | nil => rfl
  | append_singleton ts t ih =>
    rw [feedAll_concat, ih, feed, openBlocks_concat, lastSignificant?_concat]
    by_cases ht : t.isTrivia
    · obtain ⟨hopen, hclose⟩ := Token.not_block_of_isTrivia ht
      simp [ht, hopen, hclose]
    · simp [ht, depthAfter, lastOf]

/-- **What is carried decides phrase starts.** -/
theorem startsPhrase_iff {before : List Token} {t : Token} :
    (feedAll {} before).startsPhrase t ↔ PhraseStart before t := by
  rw [feedAll_eq, startsPhrase]
  by_cases hskip : t.isTrivia ∨ 0 < openBlocks before
  · rw [if_pos (by simpa using hskip)]
    refine iff_of_false (by simp) fun h => ?_
    have := h.outside
    exact hskip.elim h.significant (by omega)
  · obtain ⟨ht, hdepth⟩ := not_or.1 hskip
    have hzero : openBlocks before = 0 := by omega
    have hallowed : PhraseStart before t ↔ lastSignificant? before = none ∨
        ∃ u, lastSignificant? before = some u ∧
          (u.isSymbol ";;" ∨ (u.isTerminal ∧ t.kind ∈ declarators)) :=
      ⟨fun h => h.allowed, fun h => ⟨ht, hzero, h⟩⟩
    rw [if_neg (by simpa using hskip), hallowed, ← opensPhrase_iff, hzero]
    cases lastSignificant? before with
    | none => simp [lastOf]
    | some u =>
      by_cases hsemi : u.isSymbol ";;"
      · simp [lastOf, hsemi]
      · by_cases hterm : u.isTerminal
        · cases t.kind <;> simp [lastOf, hsemi, hterm]
        · simp [lastOf, hsemi, hterm]

theorem Inside.not_startsPhrase {n : Nesting} {as bs : List Token} {t : Token}
    (h : n.Inside (as ++ t :: bs)) : ¬ (n.feedAll as).startsPhrase t := by
  induction as generalizing n with
  | nil => exact Bool.eq_false_iff.1 h.1
  | cons a as ih => exact ih h.2

end Nesting

instance (before : List Token) (t : Token) : Decidable (PhraseStart before t) :=
  decidable_of_iff _ Nesting.startsPhrase_iff

/-- The tokens that start phrases, among tokens behind others. -/
def phraseStartsFrom (before : List Token) : List Token → List Token
  | [] => []
  | t :: ts =>
    if PhraseStart before t then t :: phraseStartsFrom (before ++ [t]) ts
    else phraseStartsFrom (before ++ [t]) ts

/-- The tokens of a buffer that start phrases. -/
def phraseStarts (ts : List Token) : List Token := phraseStartsFrom [] ts

theorem phraseStartsFrom_inside {before ts : List Token}
    (h : (Nesting.feedAll {} before).Inside ts) (us : List Token) :
    phraseStartsFrom before (ts ++ us) = phraseStartsFrom (before ++ ts) us := by
  induction ts generalizing before with
  | nil => simp
  | cons t ts ih =>
    have hstart : ¬ PhraseStart before t := by rw [← Nesting.startsPhrase_iff, h.1]; simp
    rw [List.cons_append, phraseStartsFrom, if_neg hstart,
      ih (by rw [Nesting.feedAll_concat]; exact h.2)]
    simp

/-! ## Outlines and phrase starts -/

theorem Delivered.split {n : Nesting} {os us : List Outline} (h : Delivered n (os ++ us)) :
    Delivered n os ∧ Delivered (n.feedAll (os.flatMap Outline.tokens)) us := by
  induction os generalizing n with
  | nil => exact ⟨trivial, h⟩
  | cons o os ih =>
    obtain ⟨hopens, hin, hafter, hos⟩ := h
    obtain ⟨h₁, h₂⟩ := ih hos
    rw [hafter, ← Nesting.feedAll_append] at h₂
    exact ⟨⟨hopens, hin, hafter, h₁⟩, h₂⟩

/-- An outline opens a phrase exactly when its first token starts one. -/
theorem Delivered.opensPhrase_iff {us vs : List Outline} {o : Outline}
    (h : Delivered {} (us ++ o :: vs)) :
    o.opensPhrase ↔ PhraseStart (us.flatMap Outline.tokens) o.first := by
  rw [← Nesting.startsPhrase_iff, h.split.2.1]

/-- A token that starts a phrase is the first one of an outline. -/
theorem Delivered.exists_first {n : Nesting} {os : List Outline} {pre post : List Token} {t : Token}
    (h : Delivered n os) (hts : os.flatMap Outline.tokens = pre ++ t :: post)
    (ht : (n.feedAll pre).startsPhrase t) :
    ∃ us o vs, os = us ++ o :: vs ∧ us.flatMap Outline.tokens = pre ∧ o.first = t := by
  induction os generalizing n pre with
  | nil => simp at hts
  | cons o os ih =>
    obtain ⟨-, hin, hafter, hos⟩ := h
    rw [List.flatMap_cons, Outline.tokens, List.cons_append] at hts
    cases pre with
    | nil => exact ⟨[], o, os, rfl, rfl, (List.cons.inj hts).1⟩
    | cons a pre =>
      obtain ⟨rfl, hrest⟩ := List.cons.inj hts
      -- the token stands in a later outline, or behind the first token of this one
      have hcases : (∃ pre', pre = o.more ++ pre' ∧
          os.flatMap Outline.tokens = pre' ++ t :: post) ∨ ∃ as, o.more = pre ++ t :: as := by
        rcases List.append_eq_append_iff.1 hrest with ⟨pre', hpre, hlater⟩ | ⟨as, hmore, hpost⟩
        · exact Or.inl ⟨pre', hpre, hlater⟩
        · cases as with
          | nil => exact Or.inl ⟨[], by simpa using hmore.symm, by simpa using hpost.symm⟩
          | cons u as =>
            obtain ⟨rfl, -⟩ := List.cons.inj hpost
            exact Or.inr ⟨as, hmore⟩
      rcases hcases with ⟨pre', rfl, hlater⟩ | ⟨as, hmore⟩
      · have ht' : (o.after.feedAll pre').startsPhrase t := by
          rw [hafter, ← Nesting.feedAll_append]; exact ht
        obtain ⟨us, o', vs, rfl, hpre, hfirst⟩ := ih hos hlater ht'
        exact ⟨o :: us, o', vs, rfl, by simp [hpre, Outline.tokens], hfirst⟩
      · rw [hmore] at hin
        exact absurd ht hin.not_startsPhrase

/-- **Phrase starts** are the first tokens of the outlines that open phrases. -/
theorem phraseStarts_delivered {before : List Token} {os : List Outline}
    (h : Delivered (Nesting.feedAll {} before) os) :
    phraseStartsFrom before (os.flatMap Outline.tokens)
      = (os.filter (·.opensPhrase)).map (·.first) := by
  induction os generalizing before with
  | nil => rfl
  | cons o os ih =>
    obtain ⟨hopens, hin, hafter, hos⟩ := h
    rw [hafter, ← Nesting.feedAll_append] at hos
    have hstart : PhraseStart before o.first ↔ o.opensPhrase := by
      rw [← Nesting.startsPhrase_iff, hopens]
    have hrest : phraseStartsFrom (before ++ [o.first]) (o.more ++ os.flatMap Outline.tokens)
        = (os.filter (·.opensPhrase)).map (·.first) := by
      rw [phraseStartsFrom_inside (by rw [Nesting.feedAll_concat]; exact hin), List.append_assoc]
      exact ih hos
    rw [List.flatMap_cons, Outline.tokens, List.cons_append, phraseStartsFrom, hrest]
    by_cases ho : o.opensPhrase <;> simp [hstart, ho]

/-- Of the outlines of a call, all but the first open phrases. -/
theorem outlineFrom_opens (n : Nesting) (opens : Bool) (first : Token) (more ts : List Token) :
    ∃ o os, outlineFrom n opens first more ts = o :: os ∧ o.opensPhrase = opens ∧
      ∀ o' ∈ os, o'.opensPhrase := by
  induction ts generalizing n opens first more with
  | nil => exact ⟨_, [], rfl, rfl, by simp⟩
  | cons t ts ih =>
    rw [outlineFrom]
    split_ifs
    · obtain ⟨o, os, hos, ho, hall⟩ := ih (n.feed t) true t []
      refine ⟨_, o :: os, by rw [hos], rfl, ?_⟩
      simpa using ⟨ho, hall⟩
    · exact ih _ _ _ _

theorem opensPhrase_of_outline {previous : Option Outline} {ts : List Token} {o o' : Outline}
    {os : List Outline} (h : outline previous ts = o :: os) (ho : o' ∈ os) : o'.opensPhrase := by
  cases ts with
  | nil => cases h
  | cons t ts =>
    rw [outline] at h
    obtain ⟨o₁, os₁, hos, -, hall⟩ := outlineFrom_opens _ _ t [] ts
    obtain ⟨-, rfl⟩ := List.cons.inj (hos.symm.trans h)
    exact hall o' ho

/-! ## Tokens that come in calls -/

/-- The outlines of tokens that come in calls, each behind the last outline so
    far. -/
def deliver (calls : List (List Token)) : List Outline :=
  calls.foldl (fun os ts => os ++ outline os.getLast? ts) []

theorem deliver_concat (calls : List (List Token)) (ts : List Token) :
    deliver (calls ++ [ts]) = deliver calls ++ outline (deliver calls).getLast? ts := by
  simp [deliver]

theorem delivered_deliver (calls : List (List Token)) : Delivered {} (deliver calls) := by
  induction calls using List.reverseRecOn with
  | nil => trivial
  | append_singleton calls ts ih => rw [deliver_concat]; exact ih.append (delivered_outline _ ts)

@[simp] theorem flatMap_tokens_deliver (calls : List (List Token)) :
    (deliver calls).flatMap Outline.tokens = calls.flatten := by
  induction calls using List.reverseRecOn with
  | nil => rfl
  | append_singleton calls ts ih => simp [deliver_concat, ih]

/-- Between two outlines a call ends, or the later one opens a phrase. -/
theorem boundary_deliver {calls : List (List Token)} {us vs : List Outline}
    (h : deliver calls = us ++ vs) :
    (∃ done, done <+: calls ∧ done.flatten = us.flatMap Outline.tokens) ∨
      ∃ o ∈ vs.head?, o.opensPhrase := by
  induction calls using List.reverseRecOn generalizing us vs with
  | nil =>
    obtain ⟨rfl, -⟩ := List.append_eq_nil_iff.1 h.symm
    exact Or.inl ⟨[], List.prefix_rfl, rfl⟩
  | append_singleton calls ts ih =>
    rw [deliver_concat] at h
    rcases List.append_eq_append_iff.1 h with ⟨as, rfl, hlast⟩ | ⟨as, hcalls, rfl⟩
    · -- the boundary lies in the last call, or at its start
      cases as with
      | nil => exact Or.inl ⟨calls, List.prefix_append _ _, by simp⟩
      | cons o as =>
        cases vs with
        | nil =>
          refine Or.inl ⟨calls ++ [ts], List.prefix_rfl, ?_⟩
          rw [List.append_nil] at hlast
          rw [← hlast]; simp
        | cons o' vs =>
          exact Or.inr ⟨o', rfl, opensPhrase_of_outline hlast (by simp)⟩
    · rcases ih hcalls with ⟨done, hdone, htok⟩ | ⟨o, ho, hopens⟩
      · exact Or.inl ⟨done, hdone.trans (List.prefix_append _ _), htok⟩
      · refine Or.inr ⟨o, ?_, hopens⟩
        rw [List.head?_append, Option.mem_def.1 ho]; rfl

/-- **Outlines cut at phrases**: of tokens that come in calls, none is lost, an
    outline opens a phrase exactly when its first token starts one, a phrase start
    is the first token of its outline, and between two outlines a call ends or a
    phrase starts. -/
structure CutAtPhrases (calls : List (List Token)) (os : List Outline) : Prop where
  nonempty : ∀ o ∈ os, o.tokens ≠ []
  tokens : os.flatMap Outline.tokens = calls.flatten
  opens : ∀ us o vs, os = us ++ o :: vs →
    (o.opensPhrase = true ↔ PhraseStart (us.flatMap Outline.tokens) o.first)
  starts : ∀ pre t post, calls.flatten = pre ++ t :: post → PhraseStart pre t →
    ∃ us o vs, os = us ++ o :: vs ∧ us.flatMap Outline.tokens = pre ∧ o.first = t
  boundary : ∀ us vs, os = us ++ vs →
    (∃ done, done <+: calls ∧ done.flatten = us.flatMap Outline.tokens) ∨
      ∃ o ∈ vs.head?, PhraseStart (us.flatMap Outline.tokens) o.first

/-- **Outlines across calls.**  In whatever calls the tokens of a buffer come, the
    outliner cuts them at phrases. -/
theorem cutAtPhrases_deliver (calls : List (List Token)) :
    CutAtPhrases calls (deliver calls) where
  nonempty _ _ := List.cons_ne_nil _ _
  tokens := flatMap_tokens_deliver calls
  opens us o vs h := by
    have hd := delivered_deliver calls
    rw [h] at hd
    exact hd.opensPhrase_iff
  starts pre t post hts ht :=
    (delivered_deliver calls).exists_first ((flatMap_tokens_deliver calls).trans hts)
      (Nesting.startsPhrase_iff.2 ht)
  boundary us vs h := by
    refine (boundary_deliver h).imp_right ?_
    rintro ⟨o, ho, hopens⟩
    obtain ⟨vs, rfl⟩ := List.head?_eq_some_iff.1 (Option.mem_def.1 ho)
    have hd := delivered_deliver calls
    rw [h] at hd
    exact ⟨o, ho, hd.opensPhrase_iff.1 hopens⟩

/-- Three calls, cut inside a bracket: the `let` in it, behind `;;`, starts no phrase,
    and the one behind the bracket is the first token of an outline. -/
theorem cutAtPhrases_bracket :
    let calls := ["let x = (", "1;; let)", "\nlet y"].map fun f => (lex .origin f).toOption.getD []
    phraseStarts calls.flatten = calls.flatten.take 1 ++ (calls.flatten.drop 13).take 1 ∧
      ∃ us o vs, deliver calls = us ++ o :: vs ∧ o.first.text = "let" ∧
        us.flatMap Outline.tokens = calls.flatten.take 13 := by
  intro calls
  have hthird : calls.flatten[13]?.any fun t =>
      calls.flatten = calls.flatten.take 13 ++ t :: calls.flatten.drop 14 ∧ t.text = "let" ∧
        PhraseStart (calls.flatten.take 13) t := by
    decide +kernel
  obtain ⟨t, -, ht⟩ := (Option.any_eq_true _ _).1 hthird
  obtain ⟨hts, htext, hstart⟩ := of_decide_eq_true ht
  obtain ⟨us, o, vs, hos, hpre, rfl⟩ := (cutAtPhrases_deliver calls).starts _ t _ hts hstart
  exact ⟨by decide +kernel, us, o, vs, hos, htext, hpre⟩

end PhraseServer
