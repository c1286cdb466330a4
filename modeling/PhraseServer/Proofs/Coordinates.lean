/-
  Offsets against lines and columns.

  A place in a buffer has an offset, a line and a column, and the three agree because
  all of them are counted along the same text.  So it does not matter by which of
  them a client names a place.

  * `line_after`, `col_after`: lines count newlines, columns count bytes behind the
    last one;
  * `offset_le_iff_lex`: of two places in one buffer, the offsets are ordered as the
    lines and columns;
  * `bufferText_feed`: the buffer grows by what is told;
  * `kept_lineCol`: a rewind keeps the same outlines for both names of a place;
  * `coordinates_agree`: all this for texts, and for rewinds after any run.
-/
import Mathlib.Data.List.DropRight
import Mathlib.Data.Prod.Lex
import Mathlib.Data.String.Basic
import PhraseServer.Proofs.Rewinding

namespace PhraseServer

open PhraseServer.Language

/-! ## Counting -/

theorem byteLength_toList (text : String) : byteLength text.toList = text.utf8ByteSize := by
  rw [← String.utf8Len_toList]
  induction text.toList with
  | nil => rfl
  | cons c cs ih => rw [byteLength, ih, String.utf8Len_cons, Nat.add_comm]

/-- What follows the last newline of a text, or all of it. -/
def lastLine (text : String) : String := String.ofList (text.toList.rtakeWhile (· ≠ '\n'))

namespace Position

theorem after_concat (p : Position) (cs : List Char) (c : Char) :
    p.after (cs ++ [c]) = (p.after cs).step c := by
  rw [after_append, after_cons, after_nil]

theorem line_after (p : Position) (cs : List Char) :
    (p.after cs).line = p.line + cs.count '\n' := by
  induction cs using List.reverseRecOn with
  | nil => rfl
  | append_singleton cs c ih =>
    rw [after_concat, List.count_append, ← Nat.add_assoc, ← ih]
    by_cases hc : c = '\n'
    · simp [step, hc]
    · simp [step, hc]

theorem col_after (p : Position) (cs : List Char) :
    (p.after cs).col
      = (if '\n' ∈ cs then 0 else p.col) + byteLength (cs.rtakeWhile (· ≠ '\n')) := by
  induction cs using List.reverseRecOn with
  | nil => rfl
  | append_singleton cs c ih =>
    rw [after_concat, List.rtakeWhile_concat]
    by_cases hc : c = '\n'
    · simp [step, hc, byteLength]
    · have hmem : '\n' ∈ cs ++ [c] ↔ '\n' ∈ cs := by simp [Ne.symm hc]
      simp only [step, hc, if_false, ih, hmem, ne_eq, not_false_eq_true, decide_true, if_true,
        byteLength_append, byteLength]
      omega

/-! ## Two places in one buffer -/

theorem eq_nil_of_offset_after {q : Position} {cs : List Char}
    (h : (q.after cs).offset ≤ q.offset) : cs = [] := by
  by_contra hne
  have := byteLength_pos hne
  rw [offset_after] at h
  omega

/-- A place is at or before another one by its offset exactly when it is so by its
    line and column. -/
theorem offset_le_iff_lex (start : Position) {as bs cs : List Char} (ha : as <+: cs)
    (hb : bs <+: cs) :
    (start.after as).offset ≤ (start.after bs).offset ↔
      toLex ((start.after as).line, (start.after as).col)
        ≤ toLex ((start.after bs).line, (start.after bs).col) := by
  rw [Prod.Lex.toLex_le_toLex]
  rcases List.prefix_or_prefix_of_prefix ha hb with ⟨ds, rfl⟩ | ⟨ds, rfl⟩
  · have hoffset := (start.after as).offset_after ds
    have hcol := (start.after as).line_col_after ds
    rw [after_append]
    omega
  · by_cases hd : ds = []
    · simp [hd]
    · have hpos := byteLength_pos hd
      have hoffset := (start.after bs).offset_after ds
      have hcol := (start.after bs).line_col_after ds
      rw [after_append]
      omega

/-- Offsets tell the places of a buffer apart. -/
theorem eq_iff_offset_eq (start : Position) {as bs cs : List Char} (ha : as <+: cs)
    (hb : bs <+: cs) :
    start.after as = start.after bs ↔ (start.after as).offset = (start.after bs).offset := by
  refine ⟨congrArg offset, fun h => ?_⟩
  rcases List.prefix_or_prefix_of_prefix ha hb with ⟨ds, rfl⟩ | ⟨ds, rfl⟩
  · rw [after_append] at h ⊢
    rw [eq_nil_of_offset_after h.ge, after_nil]
  · rw [after_append] at h ⊢
    rw [eq_nil_of_offset_after h.le, after_nil]

end Position

/-! ## Two names of one place -/

/-- Both names of a place admit the same places of the buffer. -/
theorem admits_lineCol {as bs cs : List Char} (ha : as <+: cs) (hb : bs <+: cs) :
    let q := Position.origin.after bs
    (SeekTarget.lineCol q.line q.col).admits (Position.origin.after as)
      = (SeekTarget.offset q.offset).admits (Position.origin.after as) := by
  intro q
  have horder := Position.offset_le_iff_lex .origin ha hb
  rw [Prod.Lex.toLex_le_toLex] at horder
  rw [Bool.eq_iff_iff]
  simp only [SeekTarget.admits, Bool.or_eq_true, Bool.and_eq_true, decide_eq_true_eq]
  exact horder.symm

/-- What a rewind keeps depends on the outlines where it stops alone. -/
theorem Language.kept_congr {τ ω κ ρ ε : Type} [Spanned ω] {L : Language τ ω κ ρ ε}
    {t t' : SeekTarget} {os : List ω} (h : ∀ o ∈ os, L.stopsAt t o = L.stopsAt t' o) :
    L.kept t os = L.kept t' os := by
  obtain ⟨hlast, us, hos, hus⟩ := L.upToLast_kept t os
  have hkept : ∀ o ∈ L.kept t os, o ∈ os := fun o ho => hos ▸ List.mem_append_left us ho
  have hrest : ∀ o ∈ us, o ∈ os := fun o ho => hos ▸ List.mem_append_right _ ho
  refine UpToLast.unique ⟨fun o ho => ?_, us, hos, fun o ho => ?_⟩ (L.upToLast_kept t' os)
  · rw [← h o (hkept o (List.mem_of_getLast? ho))]
    exact hlast o ho
  · rw [← h o (hrest o ho)]
    exact hus o ho

variable {known : List String} {p : Outline → Bool} {s : State Token Outline Chunk Env}

/-- The text of the buffer that a state describes. -/
def bufferText (s : State Token Outline Chunk Env) : String :=
  String.join (s.tokens.committed.map (·.text))

theorem toList_bufferText (s : State Token Outline Chunk Env) :
    (bufferText s).toList = spelled s.tokens.committed := by
  rw [bufferText, String.toList_join, List.flatMap_map]
  rfl

theorem bufferText_extend (h : LockStep known s) {text : String} (hne : text ≠ "")
    (hok : ((recovering known p).extend s text).outcome = .ok ()) :
    bufferText ((recovering known p).extend s text).state = bufferText s ++ text := by
  obtain ⟨ts, hl, hstep, ho⟩ := extend_ok_inv h hne hok
  rw [← String.toList_inj, String.toList_append, toList_bufferText, toList_bufferText,
    ← hstep.outlined, ho, List.flatMap_append, flatMap_tokens_outline, h.outlined, spelled_append,
    (tiles_of_lexChars hl).2]

theorem bufferText_feed {fs : List String} {s' : State Token Outline Chunk Env}
    (h : LockStep known s) (hne : ∀ f ∈ fs, f ≠ "")
    (hf : (recovering known p).feed s fs = .ok s') :
    bufferText s' = bufferText s ++ String.join fs := by
  induction fs generalizing s with
  | nil =>
    cases hf
    simp
  | cons f fs ih =>
    obtain ⟨hf', hfs⟩ := List.forall_mem_cons.1 hne
    obtain ⟨hok, hrest⟩ := feed_cons_inv _ hf
    obtain ⟨-, -, hstep, -⟩ := extend_ok_inv h hf' hok
    rw [ih hstep hfs hrest, bufferText_extend h hf' hok, String.join_cons, String.append_assoc]

/-- The buffer holds what was told and not taken back. -/
theorem Told.bufferText_eq {fs : List String} (h : Told known p s fs) :
    bufferText s = String.join fs :=
  (bufferText_feed (lockStep_fresh known) h.nonempty h.fed).trans String.empty_append

/-- An outline ends at a place of the buffer. -/
theorem LockStep.exists_prefix (h : LockStep known s) {o : Outline}
    (ho : o ∈ s.outlines.committed) :
    ∃ cs, cs <+: (bufferText s).toList ∧ Spanned.stop o = Position.origin.after cs := by
  obtain ⟨as, bs, hmem⟩ := List.append_of_mem ho
  have hsplit : s.outlines.committed = (as ++ [o]) ++ bs := by simp [hmem]
  obtain ⟨htok, htile, -⟩ := h.laid.split hsplit
  refine ⟨spelled ((as ++ [o]).flatMap Outline.tokens), ?_, ?_⟩
  · rw [toList_bufferText, htok, spelled_append]
    exact List.prefix_append _ _
  · rw [← htile.eq_after]
    simp [stopOf]

/-- Both names of a place lead a rewind to the same outline. -/
theorem kept_lineCol (h : LockStep known s) {cs : List Char}
    (hcs : cs <+: (bufferText s).toList) :
    let q := Position.origin.after cs
    (recovering known p).kept (.lineCol q.line q.col) s.outlines.committed
      = (recovering known p).kept (.offset q.offset) s.outlines.committed := by
  intro q
  refine kept_congr fun o ho => ?_
  obtain ⟨as, has, hstop⟩ := h.exists_prefix ho
  rw [stopsAt, stopsAt, hstop, admits_lineCol has hcs]

/-- **Offsets, lines and columns.**  A text moves the offset by its bytes, the line by
    its newlines, and the column to the bytes behind the last of them.  Of two places
    of one buffer, the offsets are ordered as the lines and columns, and places with
    one offset are the same.  After any run of edits, the buffer holds what was told
    and not taken back, and a rewind to a place of it leaves the same state and
    returns the same position by either name. -/
theorem coordinates_agree (known : List String) (p : Outline → Bool) (es : List Edit) :
    (∀ (start : Position) (a b : String),
      start.advance (a ++ b) = (start.advance a).advance b ∧
      (start.advance a).offset = start.offset + a.utf8ByteSize ∧
      (start.advance a).line = start.line + a.toList.count '\n' ∧
      (start.advance a).col
        = (if '\n' ∈ a.toList then 0 else start.col) + (lastLine a).utf8ByteSize) ∧
    (∀ a a' b b' : String, a ++ a' = b ++ b' →
      let q := Position.origin.advance a
      let r := Position.origin.advance b
      (q.offset ≤ r.offset ↔ toLex (q.line, q.col) ≤ toLex (r.line, r.col)) ∧
      (q = r ↔ q.offset = r.offset)) ∧
    let L := recovering known p
    let s := L.edits es
    bufferText s = String.join (L.history es).2 ∧
    ∀ a a' : String, a ++ a' = bufferText s →
      let q := Position.origin.advance a
      ∃ s', L.RewindsTo s (.lineCol q.line q.col) s' ∧ L.RewindsTo s (.offset q.offset) s' := by
  refine ⟨fun start a b => ⟨?_, ?_, start.line_after a.toList, ?_⟩, ?_, ?_⟩
  · rw [Position.advance, String.toList_append, Position.after_append]
    rfl
  · rw [Position.advance, Position.offset_after, byteLength_toList]
  · rw [Position.advance, Position.col_after, lastLine, ← byteLength_toList,
      String.toList_ofList]
  · intro a a' b b' hab
    have ha : a.toList <+: (a ++ a').toList := ⟨a'.toList, String.toList_append.symm⟩
    have hb : b.toList <+: (a ++ a').toList := ⟨b'.toList, by rw [hab, String.toList_append]⟩
    exact ⟨Position.offset_le_iff_lex _ ha hb, Position.eq_iff_offset_eq _ ha hb⟩
  · intro L s
    have htold := told_edits known p es
    refine ⟨htold.bufferText_eq, fun a a' ha => ?_⟩
    have hpre : a.toList <+: (bufferText s).toList :=
      ⟨a'.toList, by rw [← ha, String.toList_append]⟩
    have hkept := kept_lineCol (p := p) htold.inStep hpre
    have hline := (rewindsTo_kept (p := p) htold.inStep
      (.lineCol (Position.origin.advance a).line (Position.origin.advance a).col)).1
    refine ⟨_, hline, ?_⟩
    rw [Position.advance, hkept]
    exact (rewindsTo_kept htold.inStep _).1

/-- A place between two semicolons, behind a string with a wide character and a line
    break, and a place inside that string: the rewind to the first one stops behind
    the string. -/
theorem coordinates_agree_string :
    let L := recovering [] (fun _ => true)
    let s := L.edits [.extend "let s = \"é\n\"", .extend ";;\nx"]
    "let s = \"é" ++ "\n\";;\nx" = bufferText s ∧
      "let s = \"é\n\";" ++ ";\nx" = bufferText s ∧
      ((11 ≤ 14 ↔ toLex (1, 11) ≤ toLex (2, 2)) ∧
        ((⟨1, 11, 11⟩ : Position) = ⟨2, 2, 14⟩ ↔ 11 = 14)) ∧
      ∃ s', L.RewindsTo s (.lineCol 2 2) s' ∧ L.RewindsTo s (.offset 14) s' ∧
        s'.position = ⟨2, 1, 13⟩ := by
  intro L s
  obtain ⟨-, horder, -, hrewind⟩ := coordinates_agree [] (fun _ => true)
    [.extend "let s = \"é\n\"", .extend ";;\nx"]
  have ha : "let s = \"é" ++ "\n\";;\nx" = bufferText s := by decide +kernel
  have hb : "let s = \"é\n\";" ++ ";\nx" = bufferText s := by decide +kernel
  have hA : Position.origin.advance "let s = \"é" = ⟨1, 11, 11⟩ := by decide +kernel
  have hB : Position.origin.advance "let s = \"é\n\";" = ⟨2, 2, 14⟩ := by decide +kernel
  have hAB := horder _ _ _ _ (ha.trans hb.symm)
  obtain ⟨s', hline, hoffset⟩ := hrewind _ _ hb
  simp only [hA, hB] at hAB hline hoffset
  have hpos : s'.position = ⟨2, 1, 13⟩ :=
    Except.ok.inj (hoffset.returned.symm.trans (by decide +kernel))
  exact ⟨ha, hb, hAB, s', hline, hoffset, hpos⟩

end PhraseServer
