/-
  The four logs in step.

  `LockStep` says when the logs of an analysis of the phrase language describe
  one and the same buffer, which ends at the position.  Extensions and rewinds
  are specified by what they do to the outlines (`extend_spec`, `rewind_spec`):
  in step, the outlines fix the whole state (`LockStep.unique`).

  * `sync_tokens`: a rewind cuts the tokens exactly behind the kept outlines;
  * `lockStep_edits`: after any run of edits the logs are in step.
-/
import PhraseServer.Proofs.Edits
import PhraseServer.Proofs.Lexing

namespace PhraseServer

open PhraseServer.Language

/-- The phrase language that recovers behind the outlines of `p`. -/
abbrev recovering (known : List String) (p : Outline → Bool) :
    Language Token Outline Chunk Env LexError :=
  (phraseLanguage known).withRecoverable p

/-! ## Tokens of outlines -/

theorem Outline.exists_tokens_eq (o : Outline) : ∃ g, o.tokens = g ++ [o.final] := by
  rcases List.eq_nil_or_concat o.more with h | ⟨g, t, h⟩
  · exact ⟨[], by simp [Outline.tokens, Outline.final, h]⟩
  · exact ⟨o.first :: g, by simp [Outline.tokens, Outline.final, h]⟩

/-- Outlines end where their tokens do. -/
theorem stopOf_eq (os : List Outline) :
    stopOf os = ((os.flatMap Outline.tokens).getLast?.map (·.stop)).getD .origin := by
  rcases List.eq_nil_or_concat os with rfl | ⟨us, o, rfl⟩
  · rfl
  · obtain ⟨g, hg⟩ := o.exists_tokens_eq
    rw [List.concat_eq_append, List.flatMap_append, List.flatMap_singleton, hg, ← List.append_assoc]
    simp [stopOf, Spanned.stop]

/-- The end of a token as a key. -/
abbrev endOffset (t : Token) : Nat := t.stop.offset

theorem Tiles.rising {p q : Position} {ts : List Token} (h : Tiles p ts q) :
    (ts.map endOffset).Pairwise (· < ·) := by
  induction ts generalizing p with
  | nil => exact .nil
  | cons t ts ih =>
    refine .cons (fun k hk => ?_) (ih h.2.2.2)
    obtain ⟨u, hu, rfl⟩ := List.mem_map.1 hk
    exact (h.2.2.2.offset_le u hu).1

/-- **A rewind cuts tokens behind outlines.**  Where the ends of tokens grow,
    outlines share with their own tokens and any others behind them their own. -/
theorem sync_tokens {os : List Outline} {ts : List Token}
    (h : ((os.flatMap Outline.tokens ++ ts).map endOffset).Pairwise (· < ·)) :
    Log.sharedKeys ((os.flatMap Outline.tokens ++ ts).map endOffset)
      (os.map fun o => (Spanned.stop o).offset) = (os.flatMap Outline.tokens).length := by
  induction os with
  | nil => rfl
  | cons o os ih =>
    obtain ⟨g, hg⟩ := o.exists_tokens_eq
    have hsplit : (o :: os).flatMap Outline.tokens ++ ts
        = g ++ o.final :: (os.flatMap Outline.tokens ++ ts) := by
      simp [hg]
    rw [hsplit, List.map_append, List.map_cons] at h ⊢
    obtain ⟨-, hrest, hlt⟩ := List.pairwise_append.1 h
    -- all tokens of the outline but its last end before it does
    have hlast : ∀ k ∈ g.map endOffset, k < endOffset o.final :=
      fun k hk => hlt k hk _ List.mem_cons_self
    rw [List.map_cons]
    change Log.sharedKeys (_ ++ endOffset o.final :: _) (endOffset o.final :: _) = _
    rw [Log.sharedKeys_group (Nat.lt_irrefl _) hlast, ih hrest.of_cons]
    simp [hg]; omega

/-- A rewind leaves the tokens of the outlines that it keeps. -/
theorem tokens_rewound {ε : Type} (L : Language Token Outline Chunk Env ε)
    {s : State Token Outline Chunk Env} (hf : s.tokens.future = [])
    (ho : s.outlines.committed.flatMap Outline.tokens = s.tokens.committed)
    (hr : (s.tokens.committed.map endOffset).Pairwise (· < ·)) (target : SeekTarget) :
    (L.rewound s target).tokens.committed
      = (L.kept target s.outlines.committed).flatMap Outline.tokens := by
  set os := L.kept target s.outlines.committed
  obtain ⟨us, hus⟩ : os <+: s.outlines.committed := List.rdropWhile_prefix _ _
  have htok : s.tokens.committed = os.flatMap Outline.tokens ++ us.flatMap Outline.tokens := by
    rw [← ho, ← hus, List.flatMap_append]
  have hitems : s.tokens.items = os.flatMap Outline.tokens ++ us.flatMap Outline.tokens := by
    rw [Log.items, hf, List.append_nil, htok]
  have hsync : s.tokens.sync (.ofList os) (fun t => (Spanned.stop t).offset)
      (fun o => (Spanned.stop o).offset) = (os.flatMap Outline.tokens).length := by
    rw [htok] at hr
    rw [Log.sync, htok]; exact sync_tokens hr
  change (s.tokens.truncate _).committed = _
  rw [Log.committed_truncate, hsync, hitems, List.take_left]

/-! ## Logs in step -/

/-- **The logs are in step**: none has a future, the tokens tile the buffer up
    to the position, the outlines have these tokens, the chunk log has the chunks
    of the outlines with their lineages, and the environment behind a chunk is
    the fold of typing over the chunks up to it. -/
structure LockStep (known : List String) (s : State Token Outline Chunk Env) : Prop where
  tokens_end : s.tokens.cursor = s.tokens.size
  outlines_end : s.outlines.cursor = s.outlines.size
  chunks_end : s.chunks.cursor = s.chunks.size
  envs_end : s.envs.cursor = s.envs.size
  tiled : Tiles .origin s.tokens.committed s.position
  outlined : s.outlines.committed.flatMap Outline.tokens = s.tokens.committed
  chunked : s.chunks.committed = chained [] (chunk s.outlines.committed)
  one_each : s.envs.committed.length = s.chunks.committed.length
  typed : ∀ (i : Nat) (c : ChunkEntry Chunk) (e : EnvEntry Chunk Env),
    s.chunks.committed[i]? = some c → s.envs.committed[i]? = some e →
      e.env = ((chunk s.outlines.committed).take (i + 1)).foldl (typeChunk known) {} ∧
      e.stop = c.chunk.stop ∧ e.lineage = c.lineage

/-- The part of the state that tokens and outlines make up. -/
structure Laid (s : State Token Outline Chunk Env) : Prop where
  tokens_future : s.tokens.future = []
  outlines_future : s.outlines.future = []
  tiled : Tiles .origin s.tokens.committed s.position
  outlined : s.outlines.committed.flatMap Outline.tokens = s.tokens.committed

variable {known : List String} {p : Outline → Bool} {s s' : State Token Outline Chunk Env}

theorem LockStep.laid (h : LockStep known s) : Laid s :=
  ⟨Log.cursor_eq_size_iff.1 h.tokens_end, Log.cursor_eq_size_iff.1 h.outlines_end, h.tiled,
    h.outlined⟩

theorem foldlM_typeChunk (cs : List Chunk) (env : Env) :
    cs.foldlM (recovering known p).typeChunk env = .ok (cs.foldl (typeChunk known) env) := by
  induction cs generalizing env with
  | nil => rfl
  | cons c cs ih => rw [List.foldlM_cons, List.foldl_cons, ← ih]; rfl

/-- In step is what the language makes of its outlines. -/
theorem lockStep_iff : LockStep known s ↔
    Laid s ∧ (recovering known p).InStep s (chunk s.outlines.committed) := by
  constructor
  · intro h
    have hc : s.chunks = .ofList (chained [] (chunk s.outlines.committed)) := by
      rw [← h.chunked]; exact Log.eq_ofList (Log.cursor_eq_size_iff.1 h.chunks_end)
    refine ⟨h.laid, rfl, hc, Log.cursor_eq_size_iff.1 h.envs_end, h.one_each, ?_⟩
    intro i e he
    have hi : i < s.chunks.committed.length := by
      rw [← h.one_each]; exact (List.getElem?_eq_some_iff.1 he).1
    have hci := List.getElem?_eq_getElem hi
    obtain ⟨hf, hstop, hlin⟩ := h.typed i _ e hci he
    exact ⟨_, hci, by rw [hf]; exact foldlM_typeChunk _ _, hstop, hlin⟩
  · rintro ⟨hl, hi⟩
    refine ⟨Log.cursor_eq_size_iff.2 hl.tokens_future, Log.cursor_eq_size_iff.2 hl.outlines_future,
      Log.cursor_eq_size_iff.2 (by rw [hi.chunks]; rfl), Log.cursor_eq_size_iff.2 hi.settled,
      hl.tiled, hl.outlined, by rw [hi.chunks]; rfl, hi.one_each, ?_⟩
    intro i c e hc he
    obtain ⟨c', hc', hf, hstop, hlin⟩ := hi.envs i e he
    rw [hc] at hc'; cases hc'
    rw [foldlM_typeChunk] at hf
    exact ⟨(Except.ok.inj hf).symm, hstop, hlin⟩

/-- In step, the outlines fix the state. -/
theorem LockStep.unique (h : LockStep known s) (h' : LockStep known s')
    (ho : s.outlines.committed = s'.outlines.committed) : s = s' := by
  obtain ⟨hl, hi⟩ := (lockStep_iff (p := fun _ => true)).1 h
  obtain ⟨hl', hi'⟩ := (lockStep_iff (p := fun _ => true)).1 h'
  have ht : s.tokens.committed = s'.tokens.committed := by rw [← hl.outlined, ho, hl'.outlined]
  have hp : s.position = s'.position := by
    rw [hl.tiled.eq_after, ht, ← hl'.tiled.eq_after]
  obtain ⟨hc, he⟩ := hi.unique hi' ho
  have htok : s.tokens = s'.tokens := by
    rw [Log.eq_ofList hl.tokens_future, ht, ← Log.eq_ofList hl'.tokens_future]
  have hout : s.outlines = s'.outlines := by
    rw [Log.eq_ofList hl.outlines_future, ho, ← Log.eq_ofList hl'.outlines_future]
  cases s; cases s'
  cases hp; cases htok; cases hout; cases hc; cases he
  rfl

/-! ## Edits -/

/-- A resynchronisation brings the logs in step when tokens and outlines are
    laid up to the position that is set behind it. -/
theorem lockStep_resync {q : Position} (hg : (recovering known p).Genuine s)
    (hl : Laid { s with position := q }) :
    ((recovering known p).resync s).outcome = .ok () ∧
      LockStep known { ((recovering known p).resync s).state with position := q } := by
  have hok : ((recovering known p).resync s).outcome = .ok () :=
    resync_ok ⟨_, rfl⟩ fun _ _ => ⟨_, rfl⟩
  obtain ⟨-, ht, ho⟩ := (recovering known p).resync_frame s
  obtain ⟨cs, hi⟩ := (resync_genuine hg).2 hok
  generalize (recovering known p).resync s = run at hok ht ho hi ⊢
  have hcs : chunk run.state.outlines.committed = cs := Except.ok.inj hi.chunked
  have hlaid : Laid { run.state with position := q } := by
    refine ⟨?_, ?_, ?_, ?_⟩
    · rw [ht]; exact hl.tokens_future
    · rw [ho]; exact hl.outlines_future
    · rw [ht]; exact hl.tiled
    · rw [ht, ho]; exact hl.outlined
  subst hcs
  exact ⟨hok, lockStep_iff.2 ⟨hlaid, hi.moved q⟩⟩

theorem LockStep.genuine (h : LockStep known s) (p : Outline → Bool) :
    (recovering known p).Genuine s :=
  (lockStep_iff.1 h).2.genuine

/-- **Extending.**  A text that the lexer accepts succeeds, keeps the logs in
    step and appends its outlines. -/
theorem extend_spec (h : LockStep known s) {text : String} {ts : List Token} (hne : text ≠ "")
    (hl : lex s.position text = .ok ts) :
    ((recovering known p).extend s text).outcome = .ok () ∧
      LockStep known ((recovering known p).extend s text).state ∧
      ((recovering known p).extend s text).state.outlines.committed
        = s.outlines.committed ++ outline s.outlines.last? ts := by
  set os := outline s.outlines.last? ts with hos
  have hr : (recovering known p).extend s text
      = (recovering known p).resync (extended s text ts os) := extend_eq_resync hne hl rfl
  obtain ⟨htile, -⟩ := tiles_of_lexChars hl
  have hlaid : Laid { extended s text ts os with position := s.position.advance text } := by
    refine ⟨rfl, rfl, h.tiled.append htile, ?_⟩
    simp [extended, os, h.outlined]
  have hgen : (recovering known p).Genuine (extended s text ts os) :=
    ⟨(h.genuine p).chunks, (h.genuine p).envs⟩
  obtain ⟨hok, hstep⟩ := lockStep_resync hgen hlaid
  obtain ⟨hp, -, ho⟩ := (recovering known p).resync_frame (extended s text ts os)
  rw [hr]
  generalize (recovering known p).resync (extended s text ts os) = run at hok hstep hp ho ⊢
  change run.state.position = s.position.advance text at hp
  rw [← hp] at hstep
  exact ⟨hok, hstep, by rw [ho]; rfl⟩

/-- Tokens tile the buffer up to the end of its first outlines, and from there on. -/
theorem Laid.split (h : Laid s) {ks us : List Outline} (ho : s.outlines.committed = ks ++ us) :
    s.tokens.committed = ks.flatMap Outline.tokens ++ us.flatMap Outline.tokens ∧
      Tiles .origin (ks.flatMap Outline.tokens) (stopOf ks) ∧
      Tiles (stopOf ks) (us.flatMap Outline.tokens) s.position := by
  have htok : s.tokens.committed = ks.flatMap Outline.tokens ++ us.flatMap Outline.tokens := by
    rw [← h.outlined, ho, List.flatMap_append]
  have htile := h.tiled
  rw [htok] at htile
  obtain ⟨q, hks, hus⟩ := htile.split
  have hq : q = stopOf ks := by rw [stopOf_eq]; exact hks.eq_stop
  rw [hq] at hks hus
  exact ⟨htok, hks, hus⟩

/-- A rewind lays tokens and outlines up to the position that it recovers. -/
theorem Laid.rewound {ε : Type} (h : Laid s) (L : Language Token Outline Chunk Env ε)
    (target : SeekTarget) :
    Laid { L.rewound s target with position := stopOf (L.kept target s.outlines.committed) } := by
  set os := L.kept target s.outlines.committed
  obtain ⟨us, hus⟩ : os <+: s.outlines.committed := List.rdropWhile_prefix _ _
  have hcut : (L.rewound s target).tokens.committed = os.flatMap Outline.tokens :=
    tokens_rewound L h.tokens_future h.outlined h.tiled.rising target
  obtain ⟨-, hks, -⟩ := h.split hus.symm
  exact ⟨rfl, rfl, by rw [hcut]; exact hks, hcut.symm⟩

/-- **Rewinding.**  A rewind succeeds, keeps the logs in step and leaves the kept
    outlines. -/
theorem rewind_spec (h : LockStep known s) (target : SeekTarget) :
    ((recovering known p).rewind s target).outcome
        = .ok (stopOf ((recovering known p).kept target s.outlines.committed)) ∧
      LockStep known ((recovering known p).rewind s target).state ∧
      ((recovering known p).rewind s target).state.outlines.committed
        = (recovering known p).kept target s.outlines.committed := by
  have hgen : (recovering known p).Genuine ((recovering known p).rewound s target) :=
    ⟨(h.genuine p).chunks, (h.genuine p).envs⟩
  obtain ⟨hok, hstep⟩ := lockStep_resync hgen (h.laid.rewound _ target)
  obtain ⟨-, -, ho⟩ := (recovering known p).resync_frame ((recovering known p).rewound s target)
  rcases (recovering known p).rewind_cases s target with ⟨e, he, -⟩ | ⟨-, hout, hs⟩
  · rw [hok] at he; cases he
  · rw [hs]
    exact ⟨hout, hstep, by rw [ho]; rfl⟩

theorem lockStep_fresh (known : List String) : LockStep known {} :=
  (lockStep_iff (p := fun _ => true)).2 ⟨⟨rfl, rfl, rfl, rfl⟩, .of_typed rfl rfl rfl .nil⟩

theorem LockStep.edit (h : LockStep known s) (e : Edit) :
    LockStep known ((recovering known p).edit s e) := by
  cases e with
  | reset => exact lockStep_fresh known
  | rewind target => exact (rewind_spec h target).2.1
  | extend text =>
    rcases (recovering known p).extend_cases s text with ⟨hs, -⟩ | ⟨ts, os, hne, hl, -, -⟩
    · rw [Language.edit, hs]; exact h
    · exact (extend_spec h hne hl).2.1

/-- **Lock step.**  After any run of extensions, rewinds and resets, failing ones
    included, the logs are in step. -/
theorem lockStep_edits (known : List String) (p : Outline → Bool) (es : List Edit) :
    LockStep known ((recovering known p).edits es) :=
  (recovering known p).edits_induction (lockStep_fresh known) (fun _ e h => h.edit e) es

end PhraseServer
