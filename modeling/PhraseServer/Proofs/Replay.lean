/-
  Histories replayed.

  Beside a run of edits, `history` keeps the fragments that are left of what was
  told: an extension that succeeds adds its text, a rewind cuts the fragments at
  the byte it recovers, a reset forgets them.

  * `feed_cutAt`: fragments cut behind an outline lead to the outlines before the
    cut;
  * `feed_history`: feeding the fragments to a fresh analysis succeeds and gives
    the state behind the run, whatever the run was.
-/
import PhraseServer.Proofs.LockStep
import PhraseServer.Proofs.Outlining

namespace PhraseServer

open PhraseServer.Language

/-! ## Cutting fragments -/

/-- The characters within the first `n` bytes. -/
def takeBytes : Nat → List Char → List Char
  | _, [] => []
  | n, c :: cs => if c.utf8Size ≤ n then c :: takeBytes (n - c.utf8Size) cs else []

theorem takeBytes_append (cs ds : List Char) : takeBytes (byteLength cs) (cs ++ ds) = cs := by
  induction cs with
  | nil =>
    cases ds with
    | nil => rfl
    | cons d ds => simp [takeBytes, byteLength, Nat.not_le.2 (Char.utf8Size_pos d)]
  | cons c cs ih => simp [takeBytes, byteLength, ih]

/-- Fragments cut at a byte of their text: the one around it is shortened, those
    behind it are dropped, and so is an empty rest. -/
def cutAt : Nat → List String → List String
  | _, [] => []
  | n, f :: fs =>
    if byteLength f.toList ≤ n then f :: cutAt (n - byteLength f.toList) fs
    else if takeBytes n f.toList = [] then []
    else [String.ofList (takeBytes n f.toList)]

theorem cutAt_ne_empty {n : Nat} {fs : List String} (h : ∀ f ∈ fs, f ≠ "") :
    ∀ f ∈ cutAt n fs, f ≠ "" := by
  induction fs generalizing n with
  | nil => simp [cutAt]
  | cons g fs ih =>
    rw [cutAt]
    intro f hf
    split_ifs at hf with hle hnil
    · rcases List.mem_cons.1 hf with rfl | hf
      · exact h f List.mem_cons_self
      · exact ih (fun f hf => h f (List.mem_cons_of_mem _ hf)) f hf
    · cases hf
    · rw [List.mem_singleton.1 hf]; exact mt String.ofList_eq_empty_iff.1 hnil

/-! ## Feeding fragments -/

namespace Language

variable {τ ω κ ρ ε : Type} [Spanned κ] [DecidableEq κ] (L : Language τ ω κ ρ ε)

/-- The state behind fragments told one after another, as long as each
    succeeds. -/
def feed (s : State τ ω κ ρ) (fs : List String) : Except (StageError ε) (State τ ω κ ρ) :=
  fs.foldlM (fun s f => (L.extend s f).outcome.map fun _ => (L.extend s f).state) s

theorem feed_cons_of_ok {s : State τ ω κ ρ} {f : String} (fs : List String)
    (h : (L.extend s f).outcome = .ok ()) :
    L.feed s (f :: fs) = L.feed (L.extend s f).state fs := by
  rw [feed, List.foldlM_cons, h]; rfl

theorem feed_cons_inv {s s' : State τ ω κ ρ} {f : String} {fs : List String}
    (h : L.feed s (f :: fs) = .ok s') :
    (L.extend s f).outcome = .ok () ∧ L.feed (L.extend s f).state fs = .ok s' := by
  cases ho : (L.extend s f).outcome with
  | error e => rw [feed, List.foldlM_cons, ho] at h; cases h
  | ok u => rw [feed_cons_of_ok L fs ho] at h; exact ⟨rfl, h⟩

theorem feed_concat {s s' : State τ ω κ ρ} {fs : List String} {f : String}
    (h : L.feed s fs = .ok s') (hok : (L.extend s' f).outcome = .ok ()) :
    L.feed s (fs ++ [f]) = .ok (L.extend s' f).state := by
  have hone : L.feed s' [f] = .ok (L.extend s' f).state := by
    rw [feed_cons_of_ok L [] hok]; rfl
  rw [feed, List.foldlM_append]
  rw [feed] at h
  rw [h]; exact hone

end Language

variable {known : List String} {p : Outline → Bool} {s s' : State Token Outline Chunk Env}

/-- What an extension by a text that succeeds has done. -/
theorem extend_ok_inv (h : LockStep known s) {text : String} (hne : text ≠ "")
    (hok : ((recovering known p).extend s text).outcome = .ok ()) :
    ∃ ts, lex s.position text = .ok ts ∧ LockStep known ((recovering known p).extend s text).state ∧
      ((recovering known p).extend s text).state.outlines.committed
        = s.outlines.committed ++ outline s.outlines.last? ts := by
  rcases (recovering known p).extend_cases s text with ⟨-, he⟩ | ⟨ts, os, -, hl, -, -⟩
  · exact absurd (he hok) hne
  · exact ⟨ts, hl, (extend_spec h hne hl).2⟩

theorem feed_lockStep {fs : List String} (h : LockStep known s) (hne : ∀ f ∈ fs, f ≠ "")
    (hf : (recovering known p).feed s fs = .ok s') :
    LockStep known s' ∧ s.outlines.committed <+: s'.outlines.committed := by
  induction fs generalizing s with
  | nil => cases hf; exact ⟨h, List.prefix_rfl⟩
  | cons f fs ih =>
    obtain ⟨hok, hrest⟩ := feed_cons_inv _ hf
    obtain ⟨ts, -, hstep, ho⟩ := extend_ok_inv h (hne f List.mem_cons_self) hok
    obtain ⟨h', hpre⟩ := ih hstep (fun f hf => hne f (List.mem_cons_of_mem _ hf)) hrest
    exact ⟨h', (ho ▸ List.prefix_append _ _ : s.outlines.committed <+: _).trans hpre⟩

/-- A fragment cut behind one of its outlines has the outlines before the cut. -/
theorem feed_shortened (h : LockStep known s) {f : String} {ts : List Token}
    (hl : lex s.position f = .ok ts) {os us : List Outline} {o : Outline}
    (ho : outline s.outlines.last? ts = os ++ o :: us) (fs : List String) :
    ∃ s', (recovering known p).feed s
        (cutAt (byteLength (spelled (os.flatMap Outline.tokens))) (f :: fs)) = .ok s' ∧
      LockStep known s' ∧ s'.outlines.committed = s.outlines.committed ++ os := by
  set vs := os.flatMap Outline.tokens with hvs
  have hts : ts = vs ++ (o :: us).flatMap Outline.tokens := by
    rw [hvs, ← List.flatMap_append, ← ho, flatMap_tokens_outline]
  obtain ⟨htile, hspell⟩ := tiles_of_lexChars hl
  rw [hts] at hl htile hspell
  have hfirst : spelled ((o :: us).flatMap Outline.tokens) ≠ [] := by
    obtain ⟨q, -, hq⟩ := htile.split
    have hne : o.first.text ≠ "" := hq.1
    simp [Outline.tokens, hne]
  rw [spelled_append] at hspell
  have hlt : ¬ byteLength f.toList ≤ byteLength (spelled vs) := by
    rw [← hspell, byteLength_append]
    have := byteLength_pos hfirst
    omega
  rw [cutAt, if_neg hlt, ← hspell, takeBytes_append]
  split_ifs with hnil
  · have hos : os = [] := by
      cases os with
      | nil => rfl
      | cons o' os =>
        have hne : o'.first.text ≠ "" := htile.1
        simp [hvs, Outline.tokens, hne] at hnil
    subst hos
    exact ⟨s, rfl, h, by simp⟩
  · have hcut : lex s.position (String.ofList (spelled vs)) = .ok vs := by
      rw [lex, String.toList_ofList]; exact (lexChars_split hl).1
    obtain ⟨hok, hstep, hout⟩ :=
      extend_spec (p := p) h (mt String.ofList_eq_empty_iff.1 hnil) hcut
    refine ⟨_, ?_, hstep, ?_⟩
    · rw [feed_cons_of_ok _ [] hok]; rfl
    · rw [hout, hvs, outline_split ho]

/-- **Cut fragments.**  Fragments cut behind an outline lead to the outlines
    before the cut. -/
theorem feed_cutAt {fs : List String} (h : LockStep known s) (hne : ∀ f ∈ fs, f ≠ "")
    (hf : (recovering known p).feed s fs = .ok s') {os us : List Outline}
    (ho : s'.outlines.committed = s.outlines.committed ++ (os ++ us)) :
    ∃ s₁, (recovering known p).feed s
        (cutAt (byteLength (spelled (os.flatMap Outline.tokens))) fs) = .ok s₁ ∧
      LockStep known s₁ ∧ s₁.outlines.committed = s.outlines.committed ++ os := by
  induction fs generalizing s os with
  | nil =>
    cases hf
    have hos : os = [] := by simp at ho; exact ho.1
    subst hos
    exact ⟨_, rfl, h, by simp⟩
  | cons f fs ih =>
    obtain ⟨hok, hrest⟩ := feed_cons_inv _ hf
    obtain ⟨ts, hl, hstep, hout⟩ := extend_ok_inv h (hne f List.mem_cons_self) hok
    have hnes : ∀ f ∈ fs, f ≠ "" := fun f hf => hne f (List.mem_cons_of_mem _ hf)
    obtain ⟨ws, hws⟩ := (feed_lockStep hstep hnes hrest).2
    have hsplit : os ++ us = outline s.outlines.last? ts ++ ws := by
      rw [ho, hout, List.append_assoc] at hws
      exact (List.append_cancel_left hws).symm
    -- the cut lies behind this fragment, or inside it
    have hcases : (∃ c, os = outline s.outlines.last? ts ++ c ∧ ws = c ++ us) ∨
        ∃ o a, outline s.outlines.last? ts = os ++ o :: a := by
      rcases List.append_eq_append_iff.1 hsplit with ⟨a, ha, -⟩ | ⟨c, hc, hw⟩
      · cases a with
        | nil => exact Or.inl ⟨[], by simpa using ha.symm, by simp_all⟩
        | cons o a => exact Or.inr ⟨o, a, ha⟩
      · exact Or.inl ⟨c, hc, hw⟩
    rcases hcases with ⟨c, rfl, rfl⟩ | ⟨o, a, ha⟩
    · obtain ⟨s₁, hs₁, hstep₁, hout₁⟩ := ih hstep hnes hrest hws.symm
      refine ⟨s₁, ?_, hstep₁, by rw [hout₁, hout, List.append_assoc]⟩
      have hlen : byteLength (spelled ((outline s.outlines.last? ts ++ c).flatMap Outline.tokens))
          = byteLength f.toList + byteLength (spelled (c.flatMap Outline.tokens)) := by
        rw [List.flatMap_append, flatMap_tokens_outline, spelled_append, byteLength_append,
          (tiles_of_lexChars hl).2]
      rw [hlen, cutAt, if_pos (Nat.le_add_right _ _), Nat.add_sub_cancel_left,
        feed_cons_of_ok _ _ hok, hs₁]
    · exact feed_shortened h hl ha fs

/-! ## Histories -/

namespace Language

variable {τ ω κ ρ ε : Type} [Spanned τ] [Spanned ω] [Spanned κ] [DecidableEq κ]
  (L : Language τ ω κ ρ ε)

/-- The fragments that an edit of a state leaves of those told before. -/
def remember (s : State τ ω κ ρ) (fs : List String) : Edit → List String
  | .extend text =>
    match (L.extend s text).outcome with
    | .ok () => if text = "" then fs else fs ++ [text]
    | .error _ => fs
  | .rewind target =>
    match (L.rewind s target).outcome with
    | .ok recovered => cutAt recovered.offset fs
    | .error _ => fs
  | .reset => []

/-- The state and the fragments behind a run of edits of a fresh analysis. -/
def history (es : List Edit) : State τ ω κ ρ × List String :=
  es.foldl (fun h e => (L.edit h.1 e, L.remember h.1 h.2 e)) ({}, [])

theorem history_concat (es : List Edit) (e : Edit) :
    L.history (es ++ [e])
      = (L.edit (L.history es).1 e, L.remember (L.history es).1 (L.history es).2 e) := by
  simp [history]

theorem history_fst (es : List Edit) : (L.history es).1 = L.edits es := by
  induction es using List.reverseRecOn with
  | nil => rfl
  | append_singleton es e ih => rw [history_concat, edits_concat, ih]

end Language

/-- A rewind recovers the byte behind the characters of the kept outlines. -/
theorem offset_stopOf_kept (h : LockStep known s) (target : SeekTarget) :
    (stopOf ((recovering known p).kept target s.outlines.committed)).offset
      = byteLength (spelled (((recovering known p).kept target s.outlines.committed).flatMap
          Outline.tokens)) := by
  have hl := h.laid.rewound (recovering known p) target
  have hq := congrArg Position.offset hl.tiled.eq_after
  rw [← hl.outlined, Position.offset_after, committed_outlines_rewound] at hq
  simpa [Position.origin] using hq

/-- `Told known p s fs`: the fragments are what is left of those told to reach a
    state. -/
structure Told (known : List String) (p : Outline → Bool) (s : State Token Outline Chunk Env)
    (fs : List String) : Prop where
  inStep : LockStep known s
  nonempty : ∀ f ∈ fs, f ≠ ""
  fed : (recovering known p).feed {} fs = .ok s

theorem told_fresh (known : List String) (p : Outline → Bool) : Told known p {} [] :=
  ⟨lockStep_fresh known, by simp, rfl⟩

theorem Told.extend {fs : List String} (h : Told known p s fs) (text : String) :
    Told known p ((recovering known p).edit s (.extend text))
      ((recovering known p).remember s fs (.extend text)) := by
  cases hok : ((recovering known p).extend s text).outcome with
  | ok u =>
    by_cases hne : text = ""
    · subst hne; exact h
    · simp only [edit, remember, hok, if_neg hne]
      refine ⟨h.inStep.edit (.extend text), ?_, feed_concat _ h.fed hok⟩
      simpa [or_imp, forall_and] using ⟨h.nonempty, hne⟩
  | error e =>
    rcases (recovering known p).extend_cases s text with ⟨hs, -⟩ | ⟨ts, os, hne, hl, -, -⟩
    · simp only [edit, remember, hok, hs]; exact h
    · rw [(extend_spec h.inStep hne hl).1] at hok; cases hok

theorem Told.rewind {fs : List String} (h : Told known p s fs) (target : SeekTarget) :
    Told known p ((recovering known p).edit s (.rewind target))
      ((recovering known p).remember s fs (.rewind target)) := by
  obtain ⟨hout, hstep, hkept⟩ := rewind_spec (p := p) h.inStep target
  obtain ⟨us, hus⟩ :
      (recovering known p).kept target s.outlines.committed <+: s.outlines.committed :=
    List.rdropWhile_prefix _ _
  have hsplit : s.outlines.committed = ({} : State Token Outline Chunk Env).outlines.committed
      ++ ((recovering known p).kept target s.outlines.committed ++ us) := hus.symm
  obtain ⟨s₁, hfed, hstep₁, hout₁⟩ :=
    feed_cutAt (lockStep_fresh known) h.nonempty h.fed hsplit
  have hs₁ : s₁ = ((recovering known p).rewind s target).state :=
    hstep₁.unique hstep (by rw [hout₁, hkept]; rfl)
  simp only [edit, remember, hout, offset_stopOf_kept h.inStep]
  exact ⟨hstep, cutAt_ne_empty h.nonempty, by rw [hfed, hs₁]⟩

theorem Told.edit {fs : List String} (h : Told known p s fs) (e : Edit) :
    Told known p ((recovering known p).edit s e) ((recovering known p).remember s fs e) := by
  cases e with
  | extend text => exact h.extend text
  | rewind target => exact h.rewind target
  | reset => exact told_fresh known p

theorem told_history (known : List String) (p : Outline → Bool) (es : List Edit) :
    Told known p ((recovering known p).history es).1 ((recovering known p).history es).2 := by
  induction es using List.reverseRecOn with
  | nil => exact told_fresh known p
  | append_singleton es e ih => rw [history_concat]; exact ih.edit e

theorem told_edits (known : List String) (p : Outline → Bool) (es : List Edit) :
    Told known p ((recovering known p).edits es) ((recovering known p).history es).2 := by
  rw [← history_fst]; exact told_history known p es

/-- **Replay.**  The state behind any run is the one that the remaining fragments
    lead to from a fresh start, and all of them are accepted. -/
theorem feed_history (known : List String) (p : Outline → Bool) (es : List Edit) :
    (recovering known p).feed {} ((recovering known p).history es).2
      = .ok ((recovering known p).edits es) := by
  rw [← history_fst]; exact (told_history known p es).fed

end PhraseServer
