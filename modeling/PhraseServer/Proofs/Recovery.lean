/-
  Where a rewind ends.

  A rewind goes back to the last outline that is recoverable and that the target
  admits, or to the start.  The tokens are cut by their ends and the outlines by
  a walk backwards, at the same place.

  * `rewind_recovers`: outlines, tokens and position behind a rewind;
  * `exists_edits_serve`: the analysis of a session is one that edits lead to;
  * `seek_admitted`: what a client gets back lies at or before its target, unless
    the target lies before the start of every buffer;
  * `seek_line_zero`: such a target is accepted, and the start is behind it.
-/
import PhraseServer.Proofs.Directories
import PhraseServer.Proofs.Rewinding

namespace PhraseServer

open PhraseServer.Language
open Wire (toJson)

/-! ## Cuts behind outlines -/

/-- Of tiles, those that end at or before a place between them are those before
    it. -/
theorem Tiles.filter_stop {q r r' : Position} {ts us : List Token} (h : Tiles q ts r)
    (h' : Tiles r us r') : (ts ++ us).filter (fun t => t.stop.offset ≤ r.offset) = ts := by
  have hts : ts.filter (fun t => t.stop.offset ≤ r.offset) = ts := by
    rw [List.filter_eq_self]
    intro t ht
    exact decide_eq_true (h.offset_le t ht).2
  have hus : us.filter (fun t => t.stop.offset ≤ r.offset) = [] := by
    rw [List.filter_eq_nil_iff]
    intro t ht hle
    have := (h'.offset_le t ht).1
    have := of_decide_eq_true hle
    omega
  rw [List.filter_append, hts, hus, List.append_nil]

/-- An outline ends at or before the end of outlines among which it is. -/
theorem Tiles.stop_le {q r : Position} {ks : List Outline}
    (h : Tiles q (ks.flatMap Outline.tokens) r) {o : Outline} (ho : o ∈ ks) :
    (Spanned.stop o).offset ≤ r.offset := by
  obtain ⟨g, hg⟩ := o.exists_tokens_eq
  exact (h.offset_le o.final (List.mem_flatMap.2 ⟨o, ho, by simp [hg]⟩)).2

/-- **Recovery.**  After any run, a rewind to any target succeeds.  It keeps the
    outlines up to the last one that is recoverable and admitted, and returns and
    takes as position the end of that outline, or the start if there is none; no
    recoverable outline that the target admits ends behind it.  The tokens it keeps
    are those that end at or before that place, which are those of the kept
    outlines. -/
theorem rewind_recovers (known : List String) (p : Outline → Bool) (es : List Edit)
    (t : SeekTarget) :
    let L := recovering known p
    let s := L.edits es
    let run := L.rewind s t
    ∃ ks, UpToLast (fun o => p o ∧ t.admits (Spanned.stop o)) s.outlines.committed ks ∧
      run.outcome = .ok (stopOf ks) ∧ run.state.position = stopOf ks ∧
      run.state.outlines = .ofList ks ∧
      (∀ o ∈ s.outlines.committed, p o → t.admits (Spanned.stop o) →
        ¬ (stopOf ks).offset < (Spanned.stop o).offset) ∧
      run.state.tokens
        = .ofList (s.tokens.committed.filter fun k => k.stop.offset ≤ (stopOf ks).offset) ∧
      run.state.tokens.committed = ks.flatMap Outline.tokens := by
  intro L s run
  have h : LockStep known s := (told_edits known p es).inStep
  obtain ⟨hr, -⟩ := rewindsTo_kept (p := p) h t
  have hlast : UpToLast (fun o => p o ∧ t.admits (Spanned.stop o)) s.outlines.committed
      (L.kept t s.outlines.committed) := by
    refine (L.upToLast_kept t _).congr fun o => ?_
    rw [stopsAt, Bool.and_eq_true]
    exact and_comm
  obtain ⟨us, ho, hus⟩ := hlast.rest
  obtain ⟨htok, hks, hrest⟩ := h.laid.split ho
  set ks := L.kept t s.outlines.committed
  have hstate : run.state = described known ks := hr.state
  rw [hstate]
  refine ⟨ks, hlast, hr.returned, rfl, rfl, fun o hmem hp ht => ?_, ?_, rfl⟩
  · rw [ho] at hmem
    rcases List.mem_append.1 hmem with hmem | hmem
    · exact Nat.not_lt.2 (hks.stop_le hmem)
    · exact absurd ⟨hp, ht⟩ (hus o hmem)
  · rw [htok, hks.filter_stop hrest]; rfl

/-! ## Sessions and edits -/

namespace Session

variable {τ ω κ ρ δ ε η : Type} [Spanned τ] [Spanned ω] [Spanned κ] [DecidableEq κ]
  [Encode τ] [Encode ω] [Encode κ] [Encode ρ] [Diagnose ρ δ] [Encode δ]
  (L : Language τ ω κ ρ ε)

/-- A request that is served leaves the analysis or edits it. -/
theorem handle_edits {host : Host η} {os : η} {s : Session τ ω κ ρ} {r : Request}
    {next : η × Session τ ω κ ρ} {w : Json} (h : s.handle L host os r = .ok (next, w)) :
    next.2.analysis = s.analysis ∨ ∃ e, next.2.analysis = L.edit s.analysis e := by
  cases r with
  | tell text => rw [(eq_of_handle_tell h).1]; exact Or.inr ⟨.extend text, rfl⟩
  | seek target => rw [(eq_of_handle_seek h).1]; exact Or.inr ⟨.rewind target, rfl⟩
  | reset => cases h; exact Or.inr ⟨.reset, rfl⟩
  | line => cases h; exact Or.inl rfl
  | path kind command =>
    cases h
    exact Or.inl (sameBut_pathCommand host.home s kind command).analysis
  | which _ | cd _ | dump _ | errors =>
    simp only [handle, shown] at h
    split at h <;> cases h
    exact Or.inl rfl

variable [ToString ε]

theorem call_edits (host : Host η) (c : η × Session τ ω κ ρ) (v : Json) :
    (call L host c v).1.2.analysis = c.2.analysis ∨
      ∃ e, (call L host c v).1.2.analysis = L.edit c.2.analysis e := by
  cases hd : Request.decode v with
  | error e => rw [call_of_malformed hd]; exact Or.inl rfl
  | ok r =>
    cases hr : c.2.handle L host c.1 r with
    | error e => rw [call_of_error hd hr]; exact Or.inl rfl
    | ok out => rw [call_of_ok hd hr]; exact handle_edits L hr

/-- **The analysis of a session** is one that edits of a fresh one lead to. -/
theorem exists_edits_serve (search : Search) (dir : Path) (os : η) (is : List (Host η × Json)) :
    ∃ es, (Machine.after (serve L) (os, Session.start search dir) is).2.analysis = L.edits es := by
  induction is using List.reverseRecOn with
  | nil => exact ⟨[], rfl⟩
  | append_singleton is i ih =>
    obtain ⟨es, hes⟩ := ih
    rw [Machine.after_append]
    rcases call_edits L i.1 (Machine.after (serve L) (os, Session.start search dir) is) i.2 with
      h | ⟨e, h⟩
    · exact ⟨es, h.trans hes⟩
    · exact ⟨es ++ [e], by rw [edits_concat, ← hes]; exact h⟩

end Session

/-! ## Targets that admit what is recovered -/

/-- Only line zero lies before the start of every buffer. -/
theorem SeekTarget.admits_origin_iff {t : SeekTarget} :
    t.admits .origin ↔ ∀ col, t ≠ .lineCol 0 col := by
  cases t with
  | offset n => simp [admits, Position.origin]
  | lineCol line col =>
    cases line with
    | zero => simp [admits, Position.origin]
    | succ line => cases line <;> simp [admits, Position.origin]

/-- The end of the kept outlines is admitted, unless there are none. -/
theorem stopOf_kept {τ ω κ ρ ε : Type} [Spanned ω] (L : Language τ ω κ ρ ε) (t : SeekTarget)
    (os : List ω) : stopOf (L.kept t os) = .origin ∨ t.admits (stopOf (L.kept t os)) := by
  have hlast := (L.upToLast_kept t os).last
  cases hks : (L.kept t os).getLast? with
  | none => exact Or.inl (by rw [stopOf, hks]; rfl)
  | some o =>
    have hstop := hlast o hks
    rw [stopsAt, Bool.and_eq_true] at hstop
    exact Or.inr (by rw [stopOf, hks]; exact hstop.1)

theorem LockStep.admits_origin {known : List String} {s : State Token Outline Chunk Env}
    (h : LockStep known s) {t : SeekTarget} (ht : t.admits s.position) : t.admits .origin := by
  rw [h.tiled.eq_after] at ht
  exact SeekTarget.admits_of_after ht

open Session

/-- **Monotonic recovery.**  After any run of a session, a value that is read as a
    seek is answered with the position that the rewind recovers.  The target admits
    it, unless the target is in line zero; then it is the start. -/
theorem seek_admitted {η : Type} (known : List String) (p : Outline → Bool) (search : Search)
    (dir : Path) (os : η) (is : List (Host η × Json)) (host : Host η) {v : Json} {t : SeekTarget}
    (hv : Request.decode v = .ok (.seek t)) :
    let L := recovering known p
    let c := Machine.after (serve L) (os, Session.start search dir) is
    ∃ q, (L.rewind c.2.analysis t).outcome = .ok q ∧
      (serve L c (host, v)).2 = .value (toJson q) ∧
      (t.admits q ↔ ∀ col, t ≠ .lineCol 0 col) ∧ ((∃ col, t = .lineCol 0 col) → q = .origin) := by
  intro L c
  obtain ⟨es, hes⟩ := exists_edits_serve L search dir os is
  have h : LockStep known c.2.analysis := by
    rw [hes]; exact (told_edits known p es).inStep
  obtain ⟨hr, hstep⟩ := rewindsTo_kept (p := p) h t
  have hkept := stopOf_kept L t c.2.analysis.outlines.committed
  set q := stopOf (L.kept t c.2.analysis.outlines.committed)
  have hout : (L.rewind c.2.analysis t).outcome = .ok q := hr.returned
  have hback : t.admits q → ∀ col, t ≠ .lineCol 0 col := fun hq =>
    SeekTarget.admits_origin_iff.1 (hstep.admits_origin hq)
  refine ⟨q, hout, congrArg Prod.snd (call_of_ok hv (handle_seek_of_ok L host c.1 c.2 hout)),
    ⟨hback, fun hline => ?_⟩, ?_⟩
  · rcases hkept with hq | hq
    · rw [hq]; exact SeekTarget.admits_origin_iff.2 hline
    · exact hq
  · rintro ⟨col, hcol⟩
    exact hkept.resolve_right fun hq => hback hq col hcol

/-- A target in the middle of a line, told by line and column, between requests
    that fail. -/
theorem seek_admitted_line :
    let L := recovering [] (fun _ => true)
    let ask := fun r : Request => (World.host none, r.encode)
    let is := [ask (.tell "let x = 1\n"), ask (.tell "\""), ask (.tell "let y"), ask (.cd "gone"),
      ask (.tell " = 2")]
    let c := Machine.after (serve L) ({}, Session.start {} (.ofText "/")) is
    ∃ q : Position, (serve L c (ask (.seek (.lineCol 2 7)))).2 = .value (toJson q) ∧
      q = ⟨2, 5, 15⟩ ∧ (SeekTarget.lineCol 2 7).admits q := by
  intro L ask is c
  obtain ⟨q, hout, hreply, hadmits, -⟩ := seek_admitted [] (fun _ => true) {} (.ofText "/")
    ({} : World) is (World.host none) (v := (Request.seek (.lineCol 2 7)).encode)
    (t := .lineCol 2 7) (by decide +kernel)
  have hq : q = ⟨2, 5, 15⟩ := Except.ok.inj (hout.symm.trans (by decide +kernel))
  exact ⟨q, hreply, hq, hadmits.2 (by simp)⟩

/-- Line zero is accepted as a target and does not admit what is recovered. -/
theorem seek_line_zero :
    let L := phraseLanguage []
    let ask := fun r : Request => (World.host none, r.encode)
    let c := Machine.after (serve L) ({}, Session.start {} (.ofText "/")) [ask (.tell "let x = 1")]
    let v := (Request.seek (.lineCol 0 9)).encode
    Request.decode v = .ok (.seek (.lineCol 0 9)) ∧
      (L.rewind c.2.analysis (.lineCol 0 9)).outcome = .ok .origin ∧
      (serve L c (World.host none, v)).2 = .value (toJson Position.origin) ∧
      (SeekTarget.lineCol 0 9).admits .origin = false := by
  intro L ask c v
  have hdec : Request.decode v = .ok (.seek (.lineCol 0 9)) := by decide +kernel
  have hout : (L.rewind c.2.analysis (.lineCol 0 9)).outcome = .ok .origin := by decide +kernel
  have hcall := call_of_ok hdec (handle_seek_of_ok L (World.host none) c.1 c.2 hout)
  exact ⟨hdec, hout, congrArg Prod.snd hcall, by decide⟩

end PhraseServer
