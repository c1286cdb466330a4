/-
  Runs of edits.

  A client extends, rewinds and resets one analysis, and what an edit has done
  stays when it fails.  `extend_cases` and `rewind_cases` say once what an edit
  can do to a state: nothing, or resynchronise a state whose tokens and outlines
  were changed before.

  * `edits_induction`: what one edit preserves, a run preserves;
  * `genuine_edits`: after any run the entries of the logs are genuine;
  * `inStep_of_ok`: an edit that succeeds brings chunks and environments in
    step, whatever failed before it.
-/
import Mathlib.Data.List.DropRight
import PhraseServer.Proofs.Resync

namespace PhraseServer

/-- What a client asks of an analysis. -/
inductive Edit where
  | extend (text : String)
  | rewind (target : SeekTarget)
  | reset
deriving DecidableEq, Repr

namespace Language

variable {τ ω κ ρ ε : Type} [Spanned κ] [DecidableEq κ] (L : Language τ ω κ ρ ε)

/-! ## Extending -/

/-- The state that an extension resynchronises. -/
def extended (s : State τ ω κ ρ) (text : String) (ts : List τ) (os : List ω) : State τ ω κ ρ :=
  { s with
    tokens := s.tokens.appendAll ts
    outlines := s.outlines.appendAll os
    position := s.position.advance text }

theorem extend_eq_resync {L : Language τ ω κ ρ ε} {s : State τ ω κ ρ} {text : String} {ts : List τ}
    {os : List ω} (hne : text ≠ "") (hl : L.lex s.position text = .ok ts)
    (ho : L.outline s.outlines.last? ts = .ok os) :
    L.extend s text = L.resync (extended s text ts os) := by
  simp only [extend, if_neg hne, hl, ho]; rfl

/-- An extension that gets past the first two stages resynchronises; any other
    leaves the state, and reports success only for an empty text. -/
theorem extend_cases (s : State τ ω κ ρ) (text : String) :
    ((L.extend s text).state = s ∧ ((L.extend s text).outcome = .ok () → text = "")) ∨
    ∃ ts os, text ≠ "" ∧ L.lex s.position text = .ok ts ∧ L.outline s.outlines.last? ts = .ok os ∧
      L.extend s text = L.resync (extended s text ts os) := by
  by_cases hne : text = ""
  · exact Or.inl ⟨by simp [extend, hne], fun _ => hne⟩
  · cases hl : L.lex s.position text with
    | error e => exact Or.inl ⟨by simp [extend, hne, hl], by simp [extend, hne, hl]⟩
    | ok ts =>
      cases ho : L.outline s.outlines.last? ts with
      | error e => exact Or.inl ⟨by simp [extend, hne, hl, ho], by simp [extend, hne, hl, ho]⟩
      | ok os => exact Or.inr ⟨ts, os, hne, rfl, ho, extend_eq_resync hne hl ho⟩

/-! ## Rewinding -/

variable [Spanned τ] [Spanned ω]

/-- The outlines that a rewind keeps. -/
def kept (target : SeekTarget) (os : List ω) : List ω := os.rdropWhile fun o => !L.stopsAt target o

/-- The position behind outlines. -/
def stopOf (os : List ω) : Position := (os.getLast?.map Spanned.stop).getD .origin

/-- The state that a rewind resynchronises. -/
def rewound (s : State τ ω κ ρ) (target : SeekTarget) : State τ ω κ ρ :=
  let outlines := Log.ofList (L.kept target s.outlines.committed)
  { s with
    outlines
    tokens := s.tokens.truncate (s.tokens.sync outlines (fun t => (Spanned.stop t).offset)
      fun o => (Spanned.stop o).offset) }

omit [DecidableEq κ] [Spanned κ] in
@[simp] theorem committed_outlines_rewound (s : State τ ω κ ρ) (target : SeekTarget) :
    (L.rewound s target).outlines.committed = L.kept target s.outlines.committed := rfl

/-- A rewind resynchronises, and moves the position when that succeeds. -/
theorem rewind_cases (s : State τ ω κ ρ) (target : SeekTarget) :
    (∃ e, (L.resync (L.rewound s target)).outcome = .error e ∧
      (L.rewind s target).outcome = .error e ∧
      (L.rewind s target).state = (L.resync (L.rewound s target)).state) ∨
    ((L.resync (L.rewound s target)).outcome = .ok () ∧
      (L.rewind s target).outcome = .ok (stopOf (L.kept target s.outlines.committed)) ∧
      (L.rewind s target).state = { (L.resync (L.rewound s target)).state with
        position := stopOf (L.kept target s.outlines.committed) }) := by
  have hkept : (s.outlines.rewindWhile fun o => !L.stopsAt target o).settle
      = .ofList (L.kept target s.outlines.committed) := rfl
  have hstop :
      ((Log.ofList (L.kept target s.outlines.committed)).last?.map Spanned.stop).getD .origin
        = stopOf (L.kept target s.outlines.committed) := rfl
  cases h : (L.resync (L.rewound s target)).outcome with
  | error e =>
    refine Or.inl ⟨e, rfl, ?_⟩
    unfold rewound at h ⊢
    simp only [rewind, hkept, h, and_self]
  | ok u =>
    refine Or.inr ⟨rfl, ?_⟩
    unfold rewound at h ⊢
    simp only [rewind, hkept, hstop, h, and_self]

/-! ## Runs -/

/-- The state behind an edit, also when it fails. -/
def edit (s : State τ ω κ ρ) : Edit → State τ ω κ ρ
  | .extend text => (L.extend s text).state
  | .rewind target => (L.rewind s target).state
  | .reset => {}

/-- The state behind a run of edits of a fresh analysis. -/
def edits (es : List Edit) : State τ ω κ ρ := es.foldl L.edit {}

theorem edits_concat (es : List Edit) (e : Edit) :
    L.edits (es ++ [e]) = L.edit (L.edits es) e := by
  simp [edits]

/-- What one edit preserves, a run preserves. -/
theorem edits_induction {P : State τ ω κ ρ → Prop} (fresh : P {})
    (step : ∀ s e, P s → P (L.edit s e)) (es : List Edit) : P (L.edits es) := by
  induction es using List.reverseRecOn with
  | nil => exact fresh
  | append_singleton es e ih => rw [edits_concat]; exact step _ e ih

/-! ## Recovery from failures -/

section
variable {L} {s : State τ ω κ ρ}

omit [Spanned τ] [Spanned ω] in
/-- An extension keeps entries genuine; when it succeeds on a text, the logs are
    in step. -/
theorem Genuine.extend (h : L.Genuine s) (text : String) :
    L.Genuine (L.extend s text).state ∧
      (text ≠ "" → (L.extend s text).outcome = .ok () →
        ∃ cs, L.InStep (L.extend s text).state cs) := by
  rcases L.extend_cases s text with ⟨hs, hempty⟩ | ⟨ts, os, -, -, -, hr⟩
  · rw [hs]
    exact ⟨h, fun hne hok => absurd (hempty hok) hne⟩
  · have hg : L.Genuine (extended s text ts os) := ⟨h.chunks, h.envs⟩
    obtain ⟨hgen, hstep⟩ := resync_genuine hg
    rw [hr]
    exact ⟨hgen, fun _ hok => hstep hok⟩

/-- A rewind keeps entries genuine; when it succeeds, the logs are in step. -/
theorem Genuine.rewind (h : L.Genuine s) (target : SeekTarget) :
    L.Genuine (L.rewind s target).state ∧
      ∀ p, (L.rewind s target).outcome = .ok p → ∃ cs, L.InStep (L.rewind s target).state cs := by
  have hg : L.Genuine (L.rewound s target) := ⟨h.chunks, h.envs⟩
  obtain ⟨hgen, hstep⟩ := resync_genuine hg
  rcases L.rewind_cases s target with ⟨e, -, ho, hs⟩ | ⟨hok, -, hs⟩
  · rw [hs]
    refine ⟨hgen, fun p hok => ?_⟩
    rw [ho] at hok; cases hok
  · obtain ⟨cs, hi⟩ := hstep hok
    rw [hs]
    exact ⟨⟨hgen.chunks, hgen.envs⟩, fun _ _ => ⟨cs, hi.moved _⟩⟩

theorem Genuine.edit (h : L.Genuine s) (e : Edit) : L.Genuine (L.edit s e) := by
  cases e with
  | extend text => exact (h.extend text).1
  | rewind target => exact (h.rewind target).1
  | reset => exact L.genuine_fresh

end

/-- However edits fail, every entry that is left belongs to its lineage. -/
theorem genuine_edits (es : List Edit) : L.Genuine (L.edits es) :=
  L.edits_induction L.genuine_fresh (fun _ e h => h.edit e) es

/-- **Recovery.**  After any run, with failures at any stage, an extension by a
    text or a rewind that succeeds leaves the chunks of the outlines and their
    environments. -/
theorem inStep_of_ok (es : List Edit) :
    (∀ text, text ≠ "" → (L.extend (L.edits es) text).outcome = .ok () →
      ∃ cs, L.InStep (L.extend (L.edits es) text).state cs) ∧
    ∀ target p, (L.rewind (L.edits es) target).outcome = .ok p →
      ∃ cs, L.InStep (L.rewind (L.edits es) target).state cs := by
  have hg := L.genuine_edits es
  constructor
  · intro text hne hok
    exact (hg.extend text).2 hne hok
  · intro target p hok
    exact (hg.rewind target).2 p hok

/-- The phrase language with a chunker that refuses the token `!` and a typer
    that refuses the chunk `b`. -/
def refusing : Language Token Outline Chunk Env LexError :=
  (phraseLanguage []).guarded
    { chunk := fun os =>
        if (os.flatMap Outline.tokens).any (·.isSymbol "!") then some (.illegalChar '!' .origin)
        else none
      typeChunk := fun _ c =>
        if c.text = "b" then some (.unterminatedString c.start) else none }

/-- A typer failure, then a chunker failure, then a rewind and an extension that
    recover: the stale chunk `b` and the outlines behind it are gone. -/
theorem inStep_behind_refusals :
    (refusing.extend (refusing.edits [.extend "a;;"]) "b").outcome
        = .error ⟨.typer, .unterminatedString ⟨1, 3, 3⟩⟩ ∧
      (refusing.extend (refusing.edits [.extend "a;;", .extend "b"]) "!").outcome
        = .error ⟨.chunker, .illegalChar '!' .origin⟩ ∧
      (∃ cs, refusing.InStep (refusing.rewind
        (refusing.edits [.extend "a;;", .extend "b", .extend "!"]) (.offset 3)).state cs) ∧
      ∃ cs, refusing.InStep (refusing.extend (refusing.edits
        [.extend "a;;", .extend "b", .extend "!", .rewind (.offset 3)]) "b c").state cs :=
  ⟨by decide +kernel, by decide +kernel,
    (inStep_of_ok refusing [.extend "a;;", .extend "b", .extend "!"]).2 (.offset 3) ⟨1, 3, 3⟩
      (by decide +kernel),
    (inStep_of_ok refusing [.extend "a;;", .extend "b", .extend "!", .rewind (.offset 3)]).1 "b c"
      (by decide) (by decide +kernel)⟩

end Language

end PhraseServer
