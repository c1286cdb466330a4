/-
  One buffer told in fragments.

  However a text is cut into fragments, as long as it is cut between its tokens,
  telling the fragments one after another leaves the tokens, chunks and
  environments of the whole text.  Only the outlines show where it was cut.

  * `Aligned.unique`: in step and delivered, the tokens fix chunks and
    environments;
  * `feed_of_cuts`: fragments cut between tokens are accepted and leave the
    tokens of the whole;
  * `fragments_agree`: the states agree, and a session that was told the
    fragments reports what a check of the whole text prints.
-/
import Mathlib.Data.List.Infix
import PhraseServer.Program
import PhraseServer.Proofs.Replay

namespace PhraseServer

open PhraseServer.Language
open Wire (toJson)

variable {known : List String} {p : Outline → Bool} {s s' : State Token Outline Chunk Env}

/-! ## Tokens fix the rest -/

/-- The logs are in step, and the outlines go on from call to call. -/
structure Aligned (known : List String) (s : State Token Outline Chunk Env) : Prop where
  inStep : LockStep known s
  delivered : Delivered {} s.outlines.committed

theorem aligned_fresh (known : List String) : Aligned known {} := ⟨lockStep_fresh known, trivial⟩

namespace Aligned

/-- Extending appends the tokens of the text. -/
theorem extend (h : Aligned known s) {text : String} {ts : List Token}
    (hl : lex s.position text = .ok ts) :
    ((recovering known p).extend s text).outcome = .ok () ∧
      Aligned known ((recovering known p).extend s text).state ∧
      ((recovering known p).extend s text).state.tokens.committed = s.tokens.committed ++ ts := by
  by_cases hne : text = ""
  · subst hne
    have hnil : lexChars s.position [] = .ok ts := hl
    rw [lexChars_nil] at hnil
    cases hnil
    exact ⟨rfl, h, (List.append_nil _).symm⟩
  · obtain ⟨hok, hstep, ho⟩ := extend_spec (p := p) h.inStep hne hl
    refine ⟨hok, ⟨hstep, ?_⟩, ?_⟩
    · rw [ho]; exact h.delivered.append (delivered_outline _ ts)
    · rw [← hstep.outlined, ho, List.flatMap_append, h.inStep.outlined, flatMap_tokens_outline]

/-- The chunks are those of the tokens. -/
theorem chunk_eq (h : Aligned known s) :
    chunk s.outlines.committed = chunkTokens s.tokens.committed := by
  rw [chunk_eq_chunkTokens h.delivered, h.inStep.outlined]

/-- **Tokens fix position, chunks and environments.** -/
theorem unique (h : Aligned known s) (h' : Aligned known s')
    (ht : s.tokens.committed = s'.tokens.committed) :
    s.position = s'.position ∧ s.tokens = s'.tokens ∧ s.chunks = s'.chunks ∧ s.envs = s'.envs := by
  obtain ⟨hl, hi⟩ := (lockStep_iff (p := fun _ => true)).1 h.inStep
  obtain ⟨hl', hi'⟩ := (lockStep_iff (p := fun _ => true)).1 h'.inStep
  rw [h.chunk_eq, ht] at hi
  rw [h'.chunk_eq] at hi'
  refine ⟨?_, ?_, hi.chunks.trans hi'.chunks.symm, ?_⟩
  · rw [hl.tiled.eq_after, ht, ← hl'.tiled.eq_after]
  · rw [Log.eq_ofList hl.tokens_future, ht, ← Log.eq_ofList hl'.tokens_future]
  · rw [Log.eq_ofList hi.settled, Log.eq_ofList hi'.settled, hi.typed.unique hi'.typed]

end Aligned

/-! ## Cutting between tokens -/

/-- Two beginnings of a text with as many bytes are one. -/
theorem eq_of_byteLength {as bs cs ds : List Char} (h : as ++ bs = cs ++ ds)
    (hlen : byteLength as = byteLength cs) : as = cs := by
  rw [← takeBytes_append as bs, h, hlen, takeBytes_append]

/-- A text that ends with a token of a longer one has the tokens up to it. -/
theorem split_at_stop {q : Position} {cs ds : List Char} {ts : List Token}
    (hl : lexChars q (cs ++ ds) = .ok ts) {t : Token} (ht : t ∈ ts) (hstop : t.stop = q.after cs) :
    ∃ us vs, ts = us ++ vs ∧ lexChars q cs = .ok us ∧ lexChars (q.after cs) ds = .ok vs := by
  obtain ⟨us, vs, rfl⟩ := List.append_of_mem ht
  rw [List.append_cons] at hl
  obtain ⟨htile, hspell⟩ := tiles_of_lexChars hl
  obtain ⟨r, hr, -⟩ := htile.split
  have hrt : r = t.stop := by rw [hr.eq_stop]; simp
  rw [spelled_append] at hspell
  have hus : spelled (us ++ [t]) = cs := by
    refine eq_of_byteLength hspell ?_
    have hoff := congrArg Position.offset (hr.eq_after.symm.trans (hrt.trans hstop))
    rw [Position.offset_after, Position.offset_after] at hoff
    omega
  obtain ⟨h1, h2⟩ := lexChars_split hl
  rw [hus] at h1 h2 hspell
  rw [List.append_cancel_left hspell] at h2
  exact ⟨us ++ [t], vs, by simp, h1, h2⟩

/-- **Fragments cut between tokens** are accepted one after another and leave the
    tokens of the whole. -/
theorem feed_of_cuts {fs : List String} {ts : List Token} (h : Aligned known s)
    (hl : lexChars s.position (fs.flatMap String.toList) = .ok ts) (hne : ∀ f ∈ fs, f ≠ "")
    (hcut : ∀ gs, gs <+: fs → gs ≠ [] →
      ∃ t ∈ ts, t.stop = s.position.after (gs.flatMap String.toList)) :
    ∃ s', (recovering known p).feed s fs = .ok s' ∧ Aligned known s' ∧
      s'.tokens.committed = s.tokens.committed ++ ts := by
  induction fs generalizing s ts with
  | nil =>
    rw [List.flatMap_nil, lexChars_nil] at hl
    cases hl
    exact ⟨s, rfl, h, by simp⟩
  | cons f fs ih =>
    rw [List.flatMap_cons] at hl
    obtain ⟨t, ht, hstop⟩ := hcut [f] ⟨fs, rfl⟩ (by simp)
    rw [List.flatMap_singleton] at hstop
    obtain ⟨us, vs, rfl, hus, hvs⟩ := split_at_stop hl ht hstop
    obtain ⟨hok, h', htok⟩ := h.extend (p := p) hus
    have hpos : ((recovering known p).extend s f).state.position = s.position.after f.toList := by
      rw [h'.inStep.tiled.eq_after, htok, spelled_append, Position.after_append,
        ← h.inStep.tiled.eq_after, (tiles_of_lexChars hus).2]
    have hcut' : ∀ gs, gs <+: fs → gs ≠ [] → ∃ t ∈ vs, t.stop
        = ((recovering known p).extend s f).state.position.after (gs.flatMap String.toList) := by
      intro gs hgs hgne
      obtain ⟨t, ht, hstop⟩ := hcut (f :: gs) (List.cons_prefix_cons.2 ⟨rfl, hgs⟩) (by simp)
      rw [List.flatMap_cons, Position.after_append] at hstop
      refine ⟨t, ?_, by rw [hpos]; exact hstop⟩
      -- a token of `us` ends with `f`, before any further fragment does
      rcases List.mem_append.1 ht with hu | hv
      · have hle := ((tiles_of_lexChars hus).1.offset_le t hu).2
        have hpos : gs.flatMap String.toList ≠ [] := by
          obtain ⟨g, gs, rfl⟩ := List.exists_cons_of_ne_nil hgne
          have hg : g ≠ "" := hne g (List.mem_cons_of_mem _ (hgs.mem List.mem_cons_self))
          simp [hg]
        have := byteLength_pos hpos
        rw [hstop, Position.offset_after] at hle
        omega
      · exact hv
    rw [← hpos] at hvs
    obtain ⟨s₁, hs₁, h₁, htok₁⟩ :=
      ih h' hvs (fun g hg => hne g (List.mem_cons_of_mem _ hg)) hcut'
    refine ⟨s₁, by rw [feed_cons_of_ok _ fs hok]; exact hs₁, h₁, ?_⟩
    rw [htok₁, htok, List.append_assoc]

/-! ## Sessions -/

/-- What a service has become behind values served one after another. -/
def Service.after {σ : Type} (service : Service σ) (c : σ) (vs : List Json) : σ :=
  vs.foldl (fun c v => (service c v).1) c

section
variable {τ ω κ ρ δ ε η : Type} [Spanned τ] [Spanned ω] [Spanned κ] [DecidableEq κ]
  [Encode τ] [Encode ω] [Encode κ] [Encode ρ] [Diagnose ρ δ] [Encode δ] [ToString ε]

/-- Fragments told to a session do what they do to its analysis. -/
theorem after_tells (L : Language τ ω κ ρ ε) (host : Host η) (os : η) (c : Session τ ω κ ρ)
    {fs : List String} {a : State τ ω κ ρ} (h : L.feed c.analysis fs = .ok a) :
    Service.after (Session.call L host) (os, c) (fs.map fun f => (Request.tell f).encode)
      = (os, { c with analysis := a }) := by
  induction fs generalizing c with
  | nil => cases h; rfl
  | cons f fs ih =>
    obtain ⟨hok, hrest⟩ := L.feed_cons_inv h
    have hcall : (Session.call L host (os, c) (Request.tell f).encode).1
        = (os, { c with analysis := (L.extend c.analysis f).state }) := by
      have hdec : Request.decode (Request.tell f).encode = .ok (.tell f) := rfl
      simp only [Session.call, hdec, Session.handle, Session.commit, hok, Except.map]
    rw [Service.after, List.map_cons, List.foldl_cons, hcall]
    exact ih _ hrest

end

theorem call_errors {η : Type} (L : Language Token Outline Chunk Env LexError) (host : Host η)
    (os : η) (c : Session Token Outline Chunk Env) :
    (Session.call L host (os, c) Request.errors.encode).2
      = .value (toJson (Session.diagnostics c.analysis : List Diagnostic)) := by
  have hdec : Request.decode Request.errors.encode = .ok .errors := rfl
  simp only [Session.call, hdec, Session.handle, encodeAll_wire, Session.shown]

/-- A check of a text that is accepted prints the diagnostics of its analysis. -/
theorem checkText_of_ok {known : List String} {text : String}
    (h : ((phraseLanguage known).extend {} text).outcome = .ok ()) (file : Path) :
    let ds : List Diagnostic :=
      Session.diagnostics ((phraseLanguage known).extend {} text).state
    checkText known file (.ok text) =
      { status := if ds.isEmpty then 0 else 1
        output := String.join (ds.map (diagnosticLine file)) } := by
  simp only [checkText, h]

/-- **Fragments and the whole.**  A text that the lexer accepts, told in fragments
    that end with its tokens, leaves the position, tokens, chunks and environments
    of the text told at once.  So a session that was told the fragments reports
    the diagnostics that a check of the text prints. -/
theorem fragments_agree (known : List String) {text : String} {ts : List Token} {fs : List String}
    (hlex : lex .origin text = .ok ts) (hjoin : String.join fs = text) (hne : ∀ f ∈ fs, f ≠ "")
    (hcut : ∀ gs, gs <+: fs → gs ≠ [] →
      ∃ t ∈ ts, t.stop = Position.origin.advance (String.join gs)) :
    let whole := (phraseLanguage known).extend {} text
    whole.outcome = .ok () ∧ ∃ s, (phraseLanguage known).feed {} fs = .ok s ∧
      s.position = whole.state.position ∧ s.tokens = whole.state.tokens ∧
      s.chunks = whole.state.chunks ∧ s.envs = whole.state.envs ∧
      s.outlines.committed.flatMap Outline.tokens
        = whole.state.outlines.committed.flatMap Outline.tokens ∧
      ∀ (η : Type) (host : Host η) (os : η) (search : Search) (dir file : Path),
        ∃ ds : List Diagnostic,
          (Session.call (phraseLanguage known) host
            (Service.after (Session.call (phraseLanguage known) host)
              (os, Session.start search dir) (fs.map fun f => (Request.tell f).encode))
            Request.errors.encode).2 = .value (toJson ds) ∧
          checkText known file (.ok text) =
            { status := if ds.isEmpty then 0 else 1
              output := String.join (ds.map fun d =>
                file.lossy ++ ":" ++ toString d.start.line ++ ":" ++ toString d.start.col ++ ": "
                  ++ d.problem.message ++ "\n") } := by
  intro whole
  have hcuts : ∀ gs, gs <+: fs → gs ≠ [] →
      ∃ t ∈ ts, t.stop = Position.origin.after (gs.flatMap String.toList) := by
    simpa only [Position.advance, String.toList_join] using hcut
  have hchars : fs.flatMap String.toList = text.toList := by rw [← hjoin, String.toList_join]
  obtain ⟨s, hfed, hs, htok⟩ := feed_of_cuts (p := fun _ => true) (aligned_fresh known)
    (by rw [hchars]; exact hlex) hne hcuts
  obtain ⟨hok, hal, htok'⟩ : whole.outcome = .ok () ∧ Aligned known whole.state ∧
      whole.state.tokens.committed = ts :=
    (aligned_fresh known).extend (p := fun _ => true) hlex
  obtain ⟨hpos, htoks, hchunks, henvs⟩ := hs.unique hal (by rw [htok, htok']; rfl)
  refine ⟨hok, s, hfed, hpos, htoks, hchunks, henvs, ?_, ?_⟩
  · rw [hs.inStep.outlined, hal.inStep.outlined, htoks]
  · intro η host os search dir file
    refine ⟨Session.diagnostics s, ?_, ?_⟩
    · rw [after_tells (phraseLanguage known) host os (Session.start search dir) hfed, call_errors]
    · have hds : (Session.diagnostics s : List Diagnostic) = Session.diagnostics whole.state := by
        simp only [Session.diagnostics, henvs]
      rw [hds]
      exact checkText_of_ok hok file

/-- Five fragments, cut inside a phrase, at blanks and behind `;;`: the module that
    is not known is reported all the same. -/
theorem fragments_agree_open :
    ∃ s, (phraseLanguage []).feed {} ["open", " Gone\n", "let x =", " f (1)\n;; ", "x"] = .ok s ∧
      s.envs = ((phraseLanguage []).extend {} "open Gone\nlet x = f (1)\n;; x").state.envs ∧
      (Session.diagnostics s : List Diagnostic)
        = [⟨.unboundModule "Gone", ⟨1, 0, 0⟩, ⟨2, 0, 10⟩⟩] := by
  have hlex : lex .origin "open Gone\nlet x = f (1)\n;; x"
      = .ok ((lex .origin "open Gone\nlet x = f (1)\n;; x").toOption.getD []) := by
    decide +kernel
  have hcut : ∀ gs, gs <+: ["open", " Gone\n", "let x =", " f (1)\n;; ", "x"] → gs ≠ [] →
      ∃ t ∈ (lex .origin "open Gone\nlet x = f (1)\n;; x").toOption.getD [],
        t.stop = Position.origin.advance (String.join gs) := by
    intro gs hgs
    rw [← List.mem_inits] at hgs
    revert gs
    decide +kernel
  obtain ⟨-, s, hfed, -, -, -, henvs, -⟩ :=
    fragments_agree [] hlex (by decide +kernel) (by decide) hcut
  refine ⟨s, hfed, henvs, ?_⟩
  simp only [Session.diagnostics, henvs]
  decide +kernel

end PhraseServer
