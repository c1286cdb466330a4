/-
  Where the position stands when stages fail.

  An edit that fails in the chunker or in the typer leaves the tokens and
  outlines that it has made or cut.  An extension has moved the position by then,
  a rewind has not.

  * `ordered_edits`: whatever fails, the outlines have the tokens of the token
    log, and the ends of these grow;
  * `edit_cases`: an edit changes nothing, or is a rewind that fails, or puts the
    position behind the last outline, wherever it stood before;
  * `position_edits`: so the position stands behind the last token and the last
    outline as long as no rewind fails;
  * `position_behind_failed_rewind`: a rewind that fails leaves it ahead of both.
-/
import PhraseServer.Proofs.LockStep

namespace PhraseServer

open PhraseServer.Language

/-- The phrase language behind a guard: its outliner, chunker and typer may
    refuse anything. -/
abbrev fallible (known : List String) (p : Outline → Bool)
    (g : Guard Token Outline Chunk Env LexError) : Language Token Outline Chunk Env LexError :=
  (recovering known p).guarded g

/-! ## Tokens and outlines after failures -/

/-- What holds of tokens and outlines whatever failed before: there may be gaps
    between tokens, but each ends behind the one before it, and none behind the
    position. -/
structure Ordered (s : State Token Outline Chunk Env) : Prop where
  settled : s.tokens.future = []
  outlined : s.outlines.committed.flatMap Outline.tokens = s.tokens.committed
  rising : (s.tokens.committed.map endOffset).Pairwise (· < ·)
  reached : ∀ t ∈ s.tokens.committed, t.stop.offset ≤ s.position.offset

variable {known : List String} {p : Outline → Bool} {g : Guard Token Outline Chunk Env LexError}
  {s : State Token Outline Chunk Env}

theorem ordered_fresh : Ordered {} := ⟨rfl, rfl, .nil, fun _ h => absurd h List.not_mem_nil⟩

/-- Tokens whose ends grow end at the last one. -/
theorem offset_le_stopOf {ts : List Token} (h : (ts.map endOffset).Pairwise (· < ·)) :
    ∀ t ∈ ts, t.stop.offset ≤ (stopOf ts).offset := by
  rcases List.eq_nil_or_concat ts with rfl | ⟨us, u, rfl⟩
  · simp
  · rw [List.concat_eq_append, List.map_append] at h
    have hlast : stopOf (us ++ [u]) = u.stop := by simp [stopOf, Spanned.stop]
    intro t ht
    rw [List.concat_eq_append] at ht ⊢
    rw [hlast]
    rcases List.mem_append.1 ht with ht | ht
    · exact Nat.le_of_lt ((List.pairwise_append.1 h).2.2 _ (List.mem_map_of_mem ht) _
        (List.mem_singleton.2 rfl))
    · rw [List.mem_singleton.1 ht]

theorem Ordered.stopOf_eq (h : Ordered s) :
    stopOf s.tokens.committed = stopOf s.outlines.committed := by
  rw [PhraseServer.stopOf_eq, h.outlined]; rfl

/-- Only tokens, outlines and the position matter. -/
theorem Ordered.of_eq {s' : State Token Outline Chunk Env} (h : Ordered s)
    (ht : s'.tokens = s.tokens) (ho : s'.outlines = s.outlines) (hp : s'.position = s.position) :
    Ordered s' := by
  refine ⟨?_, ?_, ?_, ?_⟩
  · rw [ht]; exact h.settled
  · rw [ht, ho]; exact h.outlined
  · rw [ht]; exact h.rising
  · rw [ht, hp]; exact h.reached

theorem Ordered.extended (h : Ordered s) {text : String} {ts : List Token}
    (hl : lex s.position text = .ok ts) :
    Ordered (extended s text ts (outline s.outlines.last? ts)) := by
  obtain ⟨htile, -⟩ := tiles_of_lexChars hl
  refine ⟨rfl, ?_, ?_, ?_⟩
  · simp [Language.extended, h.outlined]
  · change ((s.tokens.committed ++ ts).map endOffset).Pairwise (· < ·)
    rw [List.map_append, List.pairwise_append]
    refine ⟨h.rising, htile.rising, fun k hk k' hk' => ?_⟩
    obtain ⟨t, ht, rfl⟩ := List.mem_map.1 hk
    obtain ⟨t', ht', rfl⟩ := List.mem_map.1 hk'
    exact Nat.lt_of_le_of_lt (h.reached t ht) (htile.offset_le t' ht').1
  · intro t ht
    change t.stop.offset ≤ (s.position.advance text).offset
    rcases List.mem_append.1 ht with ht | ht
    · have := h.reached t ht
      rw [Position.advance, Position.offset_after]; omega
    · exact (htile.offset_le t ht).2

/-- A rewind cuts tokens and outlines together; the position may stay. -/
theorem Ordered.rewound (h : Ordered s) (L : Language Token Outline Chunk Env LexError)
    (target : SeekTarget) :
    Ordered (L.rewound s target) ∧ Ordered { L.rewound s target with
      position := stopOf (L.kept target s.outlines.committed) } := by
  have hcut := tokens_rewound L h.settled h.outlined h.rising target
  set os := L.kept target s.outlines.committed
  have hpre : (L.rewound s target).tokens.committed <+: s.tokens.committed := by
    obtain ⟨us, hus⟩ : os <+: s.outlines.committed := List.rdropWhile_prefix _ _
    rw [hcut, ← h.outlined, ← hus, List.flatMap_append]
    exact List.prefix_append _ _
  have hrise := h.rising.sublist (hpre.sublist.map endOffset)
  have hstop : stopOf os = stopOf (L.rewound s target).tokens.committed := by
    rw [hcut, PhraseServer.stopOf_eq]; rfl
  refine ⟨⟨rfl, hcut.symm, hrise, fun t ht => h.reached t (hpre.subset ht)⟩,
    rfl, hcut.symm, hrise, fun t ht => ?_⟩
  change t.stop.offset ≤ (stopOf os).offset
  rw [hstop]; exact offset_le_stopOf hrise t ht

/-! ## One edit -/

theorem outline_of_fallible {o : Option Outline} {ts : List Token} {os : List Outline}
    (h : (fallible known p g).outline o ts = .ok os) : os = outline o ts := by
  change Guard.check (g.outline o ts) (.ok (outline o ts)) = .ok os at h
  unfold Guard.check at h
  split at h
  · cases h
  · exact (Except.ok.inj h).symm

theorem Ordered.edit (h : Ordered s) (e : Edit) : Ordered ((fallible known p g).edit s e) := by
  cases e with
  | reset => exact ordered_fresh
  | extend text =>
    rcases (fallible known p g).extend_cases s text with ⟨hs, -⟩ | ⟨ts, os, -, hl, ho, hr⟩
    · rw [Language.edit, hs]; exact h
    · obtain rfl := outline_of_fallible ho
      obtain ⟨hp, ht, ho'⟩ := (fallible known p g).resync_frame
        (Language.extended s text ts (outline s.outlines.last? ts))
      rw [Language.edit, hr]
      exact (h.extended hl).of_eq ht ho' hp
  | rewind target =>
    obtain ⟨hkeep, hmove⟩ := h.rewound (fallible known p g) target
    obtain ⟨hp, ht, ho⟩ := (fallible known p g).resync_frame
      ((fallible known p g).rewound s target)
    rcases (fallible known p g).rewind_cases s target with ⟨-, -, -, hs⟩ | ⟨-, -, hs⟩
    · rw [Language.edit, hs]; exact hkeep.of_eq ht ho hp
    · rw [Language.edit, hs]; exact hmove.of_eq ht ho rfl

/-- Behind any run, outlines and tokens fit. -/
theorem ordered_edits (known : List String) (p : Outline → Bool)
    (g : Guard Token Outline Chunk Env LexError) (es : List Edit) :
    Ordered ((fallible known p g).edits es) :=
  (fallible known p g).edits_induction ordered_fresh (fun _ e h => h.edit e) es

/-- A text is behind its own outlines. -/
theorem stopOf_outline {q : Position} {text : String} {ts : List Token} (hne : text ≠ "")
    (hl : lex q text = .ok ts) (os : List Outline) (o : Option Outline) :
    stopOf (os ++ outline o ts) = q.advance text := by
  obtain ⟨htile, hspell⟩ := tiles_of_lexChars hl
  have hts : ts ≠ [] := by
    rintro rfl
    exact hne (String.toList_eq_nil_iff.1 hspell.symm)
  obtain ⟨us, u, rfl⟩ : ∃ us u, ts = us ++ [u] :=
    ⟨_, _, (List.dropLast_append_getLast hts).symm⟩
  rw [PhraseServer.stopOf_eq, List.flatMap_append, flatMap_tokens_outline, ← List.append_assoc]
  have hstop := htile.eq_stop
  simp only [List.getLast?_concat, Option.map_some, Option.getD_some] at hstop ⊢
  exact hstop.symm

/-- **What an edit does to the position.**  An edit that is not a rewind that fails
    changes nothing, or puts the position behind the last outline, wherever it
    stood before. -/
theorem edit_cases (known : List String) (p : Outline → Bool)
    (g : Guard Token Outline Chunk Env LexError) (s : State Token Outline Chunk Env) (e : Edit) :
    (fallible known p g).edit s e = s ∨
      ((fallible known p g).edit s e).position
        = stopOf ((fallible known p g).edit s e).outlines.committed ∨
      ∃ target cause, e = .rewind target ∧
        ((fallible known p g).rewind s target).outcome = .error cause := by
  cases e with
  | reset => exact Or.inr (Or.inl rfl)
  | extend text =>
    rcases (fallible known p g).extend_cases s text with ⟨hs, -⟩ | ⟨ts, os, hne, hl, ho, hr⟩
    · exact Or.inl hs
    · obtain rfl := outline_of_fallible ho
      obtain ⟨hp, -, ho'⟩ := (fallible known p g).resync_frame
        (Language.extended s text ts (outline s.outlines.last? ts))
      right; left
      rw [Language.edit, hr, hp, ho']
      exact (stopOf_outline hne hl _ _).symm
  | rewind target =>
    obtain ⟨-, -, ho⟩ := (fallible known p g).resync_frame
      ((fallible known p g).rewound s target)
    rcases (fallible known p g).rewind_cases s target with ⟨cause, -, hout, -⟩ | ⟨-, -, hs⟩
    · exact Or.inr (Or.inr ⟨target, cause, rfl, hout⟩)
    · right; left
      rw [Language.edit, hs, ho]; rfl

/-! ## Runs -/

/-- Every rewind of a run of edits succeeds. -/
def RewindsSucceed (L : Language Token Outline Chunk Env LexError) (es : List Edit) : Prop :=
  ∀ es₁ target es₂, es = es₁ ++ .rewind target :: es₂ →
    ∃ q, (L.rewind (L.edits es₁) target).outcome = .ok q

/-- **The position and the logs.**  Whatever the outliner, the chunker and the typer
    refuse: behind every run of edits the tokens end where the outlines end.  The
    position stands there too, unless a rewind of the run has failed. -/
theorem position_edits (known : List String) (p : Outline → Bool)
    (g : Guard Token Outline Chunk Env LexError) (es : List Edit) :
    let s := (fallible known p g).edits es
    stopOf s.tokens.committed = stopOf s.outlines.committed ∧
      (RewindsSucceed (fallible known p g) es →
        s.position = stopOf s.outlines.committed ∧ s.position = stopOf s.tokens.committed) := by
  intro s
  have hend := (ordered_edits known p g es).stopOf_eq
  refine ⟨hend, fun hok => ?_⟩
  suffices h : s.position = stopOf s.outlines.committed from ⟨h, h.trans hend.symm⟩
  clear hend
  induction es using List.reverseRecOn with
  | nil => rfl
  | append_singleton es e ih =>
    have hprev := ih fun es₁ target es₂ h => hok es₁ target (es₂ ++ [e]) (by simp [h])
    simp only [s, edits_concat]
    rcases edit_cases known p g ((fallible known p g).edits es) e with
      hs | hpos | ⟨target, cause, rfl, herr⟩
    · rw [hs]; exact hprev
    · exact hpos
    · obtain ⟨q, hq⟩ := hok es target [] (by simp)
      rw [herr] at hq; cases hq

/-- Two extensions that fail, in the typer and in the chunker, and a rewind that
    succeeds. -/
theorem position_edits_refusing :
    let es : List Edit := [.extend "a;;", .extend "b", .extend "!", .rewind (.offset 3)]
    RewindsSucceed refusing es ∧ (refusing.edits es).position = ⟨1, 3, 3⟩ ∧
      (refusing.edits es).position = stopOf (refusing.edits es).tokens.committed := by
  intro es
  have hok : RewindsSucceed refusing es := by
    intro es₁ target es₂ h
    obtain ⟨rfl, rfl⟩ : es₁ = [.extend "a;;", .extend "b", .extend "!"] ∧ target = .offset 3 := by
      rcases es₁ with _ | ⟨e₁, _ | ⟨e₂, _ | ⟨e₃, _ | ⟨e₄, es₁⟩⟩⟩⟩ <;> simp_all [es]
    exact ⟨⟨1, 3, 3⟩, by decide +kernel⟩
  exact ⟨hok, by decide +kernel,
    ((position_edits [] (fun _ => true) _ es).2 hok).2⟩

/-- A chunker that fails twice, the second time in a rewind: the logs are cut, and
    the position stays ahead of them. -/
theorem position_behind_failed_rewind :
    let s := refusing.edits [.extend "!", .extend "a", .rewind (.offset 1)]
    s.position = ⟨1, 2, 2⟩ ∧ stopOf s.tokens.committed = ⟨1, 1, 1⟩ ∧
      stopOf s.outlines.committed = ⟨1, 1, 1⟩ := by
  decide +kernel

end PhraseServer
