/-
  Rewinds among other edits.

  In step, outlines describe the whole state (`LockStep.eq_described`), and a
  rewind keeps them up to the last one where it stops.  What rewinds do to each
  other and to extensions is thus decided by where they stop.  Later outlines end
  further on, and every target that admits a position admits all before it.

  * `rewindsTo_kept`: a rewind leaves the state that the kept outlines describe;
  * `rewind_extend`: an extension leaves no trace behind a rewind to where it
    began, or before;
  * `rewind_comm`: rewinds commute, and a second one to the same place does
    nothing.
-/
import PhraseServer.Proofs.Replay

namespace PhraseServer

open PhraseServer.Language

/-! ## Targets along a buffer -/

namespace SeekTarget

/-- Whether a target lies at or before a position: by offset, or by line and then
    column. -/
def atOrBefore : SeekTarget → Position → Bool
  | .offset n, q => n ≤ q.offset
  | .lineCol line col, q => line < q.line || (line = q.line && col ≤ q.col)

/-- The targets that name a position: its offset, and its line and column. -/
def naming (q : Position) : List SeekTarget := [.ofPosition q, .lineCol q.line q.col]

variable {t : SeekTarget} {q : Position} {cs : List Char}

/-- A target that admits a position admits those before it. -/
theorem admits_of_after (h : t.admits (q.after cs)) : t.admits q := by
  cases t with
  | offset n =>
    simp only [admits, decide_eq_true_eq, Position.offset_after] at h ⊢
    omega
  | lineCol line col =>
    simp only [admits, Bool.or_eq_true, Bool.and_eq_true, decide_eq_true_eq] at h ⊢
    have := q.line_col_after cs
    omega

/-- A target at or before a position admits none behind it. -/
theorem not_admits_after (ht : t.atOrBefore q) (hne : cs ≠ []) : ¬ t.admits (q.after cs) := by
  have hpos := byteLength_pos hne
  cases t with
  | offset n =>
    simp only [atOrBefore, admits, decide_eq_true_eq, Position.offset_after] at ht ⊢
    omega
  | lineCol line col =>
    simp only [atOrBefore, admits, Bool.or_eq_true, Bool.and_eq_true, decide_eq_true_eq] at ht ⊢
    have := q.line_col_after cs
    omega

theorem admits_of_naming (h : t ∈ naming q) : t.admits q := by
  simp only [naming, List.mem_cons, List.not_mem_nil, or_false] at h
  rcases h with rfl | rfl <;> simp [admits, ofPosition]

theorem atOrBefore_of_naming (h : t ∈ naming q) : t.atOrBefore q := by
  simp only [naming, List.mem_cons, List.not_mem_nil, or_false] at h
  rcases h with rfl | rfl <;> simp [atOrBefore, ofPosition]

end SeekTarget

/-- An outline of tiled tokens ends behind the position where the tiles begin. -/
theorem Tiles.exists_after {q r : Position} {os : List Outline}
    (h : Tiles q (os.flatMap Outline.tokens) r) {o : Outline} (ho : o ∈ os) :
    ∃ cs, cs ≠ [] ∧ Spanned.stop o = q.after cs := by
  obtain ⟨as, bs, rfl⟩ := List.append_of_mem ho
  obtain ⟨g, hg⟩ := o.exists_tokens_eq
  have hsplit : (as ++ o :: bs).flatMap Outline.tokens
      = (as.flatMap Outline.tokens ++ g ++ [o.final]) ++ bs.flatMap Outline.tokens := by
    simp [hg]
  rw [hsplit] at h
  obtain ⟨r', hr', -⟩ := h.split
  have hstop : r' = o.final.stop := by rw [hr'.eq_stop]; simp
  have hlt := (hr'.offset_le o.final (by simp)).1
  refine ⟨_, ?_, hstop.symm.trans hr'.eq_after⟩
  intro hnil
  rw [← hstop, hr'.eq_after, hnil] at hlt
  exact Nat.lt_irrefl _ hlt

/-- Of two outlines of tiled tokens, the later one ends behind the earlier one. -/
theorem Tiles.pairwise_after {q r : Position} {os : List Outline}
    (h : Tiles q (os.flatMap Outline.tokens) r) :
    os.Pairwise fun o o' => ∃ cs, Spanned.stop o' = (Spanned.stop o).after cs := by
  induction os generalizing q with
  | nil => exact .nil
  | cons o os ih =>
    rw [List.flatMap_cons] at h
    obtain ⟨r', hr', hrest⟩ := h.split
    obtain ⟨g, hg⟩ := o.exists_tokens_eq
    have hstop : r' = Spanned.stop o := by rw [hr'.eq_stop, hg]; simp [Spanned.stop]
    refine .cons (fun o' ho' => ?_) (ih hrest)
    obtain ⟨cs, -, hcs⟩ := hrest.exists_after ho'
    exact ⟨cs, by rw [hcs, hstop]⟩

/-! ## Up to the last one -/

section
variable {ω : Type}

/-- `UpToLast q os ks`: the list `ks` is `os` up to and including its last item
    that satisfies `q`, and empty if there is none. -/
structure UpToLast (q : ω → Prop) (os ks : List ω) : Prop where
  last : ∀ o ∈ ks.getLast?, q o
  rest : ∃ us, os = ks ++ us ∧ ∀ o ∈ us, ¬ q o

theorem upToLast_rdropWhile (q : ω → Bool) (os : List ω) :
    UpToLast (fun o => q o) os (os.rdropWhile fun o => !q o) where
  last o ho := by
    obtain ⟨hne, rfl⟩ := List.mem_getLast?_eq_getLast ho
    simpa using List.rdropWhile_last_not _ os hne
  rest := ⟨os.rtakeWhile fun o => !q o, List.rdropWhile_append_rtakeWhile.symm,
    fun o ho => by simpa using List.mem_rtakeWhile_imp ho⟩

/-- There is only one such list. -/
theorem UpToLast.unique {q : ω → Prop} {os ks ls : List ω} (h : UpToLast q os ks)
    (h' : UpToLast q os ls) : ks = ls := by
  obtain ⟨us, rfl, hus⟩ := h.rest
  obtain ⟨vs, heq, hvs⟩ := h'.rest
  -- neither list can go on behind the other, for its last item would have been passed
  rcases List.append_eq_append_iff.1 heq with ⟨as, rfl, rfl⟩ | ⟨as, rfl, rfl⟩
  · rcases List.eq_nil_or_concat as with rfl | ⟨as, o, rfl⟩
    · simp
    · exact absurd (h'.last o (by simp)) (hus o (by simp))
  · rcases List.eq_nil_or_concat as with rfl | ⟨as, o, rfl⟩
    · simp
    · exact absurd (h.last o (by simp)) (hvs o (by simp))

theorem UpToLast.congr {q q' : ω → Prop} {os ks : List ω} (hq : ∀ o, q o ↔ q' o)
    (h : UpToLast q os ks) : UpToLast q' os ks := by
  obtain rfl : q = q' := funext fun o => propext (hq o)
  exact h

/-- Items behind that do not satisfy `q` do not matter. -/
theorem UpToLast.append {q : ω → Prop} {os ks us : List ω} (h : UpToLast q os ks)
    (hus : ∀ o ∈ us, ¬ q o) : UpToLast q (os ++ us) ks := by
  obtain ⟨vs, rfl, hvs⟩ := h.rest
  refine ⟨h.last, vs ++ us, by simp, fun o ho => ?_⟩
  rcases List.mem_append.1 ho with ho | ho
  · exact hvs o ho
  · exact hus o ho

/-- Up to the last of one kind, then up to the last of another, is up to the last
    of both, where an item of the second kind that stands before one of the first
    is of the first kind, too. -/
theorem UpToLast.trans {q q' : ω → Prop} {os ks ls : List ω} (h : UpToLast q os ks)
    (h' : UpToLast q' ks ls) (hos : os.Pairwise fun o o' => q o' → q' o → q o) :
    UpToLast (fun o => q o ∧ q' o) os ls := by
  obtain ⟨us, rfl, hus⟩ := h.rest
  obtain ⟨vs, rfl, hvs⟩ := h'.rest
  refine ⟨fun o ho => ⟨?_, h'.last o ho⟩, vs ++ us, by simp, fun o ho ⟨hq, hq'⟩ => ?_⟩
  · rcases List.eq_nil_or_concat vs with rfl | ⟨vs, o', rfl⟩
    · exact h.last o (by simpa using ho)
    · have ho' : q o' := h.last o' (by simp)
      have hpair := (List.pairwise_append.1 (List.pairwise_append.1 hos).1).2.2
      exact hpair o (List.mem_of_getLast? ho) o' (by simp) ho' (h'.last o ho)
  · rcases List.mem_append.1 ho with ho | ho
    · exact hvs o ho hq'
    · exact hus o ho hq

end

/-! ## What outlines describe -/

/-- The environments behind chunks, each typed in the one before. -/
def environments (known : List String) (env : Env) (parent : Lineage Chunk) :
    List Chunk → List (EnvEntry Chunk Env)
  | [] => []
  | c :: cs =>
    let env := typeChunk known env c
    ⟨env, c.stop, c :: parent⟩ :: environments known env (c :: parent) cs

/-- The state that outlines describe. -/
def described (known : List String) (os : List Outline) : State Token Outline Chunk Env where
  position := stopOf os
  tokens := .ofList (os.flatMap Outline.tokens)
  outlines := .ofList os
  chunks := .ofList (chained [] (chunk os))
  envs := .ofList (environments known {} [] (chunk os))

/-- No outlines describe the empty state. -/
@[simp] theorem described_nil (known : List String) : described known [] = {} := rfl

variable {known : List String} {p : Outline → Bool} {s : State Token Outline Chunk Env}

theorem typed_environments (known : List String) (p : Outline → Bool) (env : Env)
    (parent : Lineage Chunk) (cs : List Chunk) :
    (recovering known p).Typed env parent cs (environments known env parent cs) := by
  induction cs generalizing env parent with
  | nil => exact .nil
  | cons c cs ih => exact .cons rfl (ih _ _)

/-- The position is where the outlines end. -/
theorem LockStep.position_eq (h : LockStep known s) :
    s.position = stopOf s.outlines.committed := by
  rw [stopOf_eq, h.outlined]; exact h.tiled.eq_stop

/-- **In step, a state is the one that its outlines describe.** -/
theorem LockStep.eq_described (h : LockStep known s) :
    s = described known s.outlines.committed := by
  obtain ⟨hl, hi⟩ := (lockStep_iff (p := fun _ => true)).1 h
  have hpos := h.position_eq
  have htok : s.tokens = .ofList (s.outlines.committed.flatMap Outline.tokens) := by
    rw [hl.outlined]; exact Log.eq_ofList hl.tokens_future
  have hout := Log.eq_ofList hl.outlines_future
  have henv : s.envs = .ofList (environments known {} [] (chunk s.outlines.committed)) := by
    rw [Log.eq_ofList hi.settled]
    exact congrArg Log.ofList (hi.typed.unique (typed_environments known _ _ _ _))
  have hchunks := hi.chunks
  cases s
  simp only [described, State.mk.injEq]
  exact ⟨hpos, htok, hout, hchunks, henv⟩

/-! ## Rewinds -/

namespace Language

variable {τ ω κ ρ ε : Type} [Spanned ω]

theorem upToLast_kept (L : Language τ ω κ ρ ε) (t : SeekTarget) (os : List ω) :
    UpToLast (fun o => L.stopsAt t o) os (L.kept t os) :=
  upToLast_rdropWhile _ os

variable [Spanned τ] [Spanned κ] [DecidableEq κ]

/-- `L.RewindsTo s t s'`: a rewind of `s` to `t` succeeds, leaves `s'` and returns
    the position of `s'`. -/
structure RewindsTo (L : Language τ ω κ ρ ε) (s : State τ ω κ ρ) (t : SeekTarget)
    (s' : State τ ω κ ρ) : Prop where
  state : (L.rewind s t).state = s'
  returned : (L.rewind s t).outcome = .ok s'.position

end Language

/-- **A rewind leaves what the kept outlines describe**, in step. -/
theorem rewindsTo_kept (h : LockStep known s) (t : SeekTarget) :
    (recovering known p).RewindsTo s t
        (described known ((recovering known p).kept t s.outlines.committed)) ∧
      LockStep known (described known ((recovering known p).kept t s.outlines.committed)) := by
  obtain ⟨hout, hstep, hkept⟩ := rewind_spec (p := p) h t
  have hst := hstep.eq_described
  rw [hkept] at hst
  rw [← hst]
  exact ⟨⟨rfl, by rw [hout, hst]; rfl⟩, hstep⟩

/-- A rewind to where a state ends does nothing, if it can go on there. -/
theorem rewindsTo_self (h : LockStep known s) (hlast : s.outlines.last?.all p)
    {t : SeekTarget} (ht : t.admits s.position) : (recovering known p).RewindsTo s t s := by
  have hself : UpToLast (fun o => (recovering known p).stopsAt t o) s.outlines.committed
      s.outlines.committed := by
    refine ⟨fun o ho => ?_, [], by simp, by simp⟩
    have hstop : Spanned.stop o = s.position := by
      rw [h.position_eq, stopOf, Option.mem_def.1 ho]; rfl
    rw [stopsAt, hstop, ht]
    exact Option.all_eq_true _ _ |>.1 hlast o ho
  have hr := (rewindsTo_kept (p := p) h t).1
  rw [((recovering known p).upToLast_kept t _).unique hself, ← h.eq_described] at hr
  exact hr

/-- Outlines behind a position are passed by a rewind to it or before it. -/
theorem kept_append_of_tiles {q r : Position} {os us : List Outline} {t : SeekTarget}
    (h : Tiles q (us.flatMap Outline.tokens) r) (ht : t.atOrBefore q) :
    (recovering known p).kept t (os ++ us) = (recovering known p).kept t os := by
  have hpass : ∀ o ∈ us, ¬ (recovering known p).stopsAt t o := by
    intro o ho hstop
    obtain ⟨cs, hne, hcs⟩ := h.exists_after ho
    rw [stopsAt, Bool.and_eq_true, hcs] at hstop
    exact SeekTarget.not_admits_after ht hne hstop.1
  exact ((recovering known p).upToLast_kept t _).unique
    (((recovering known p).upToLast_kept t os).append hpass)

/-- An extension does not change what a rewind to its place or before it keeps. -/
theorem kept_extend (h : LockStep known s) {text : String}
    (hok : ((recovering known p).extend s text).outcome = .ok ()) {t : SeekTarget}
    (ht : t.atOrBefore s.position) :
    LockStep known ((recovering known p).extend s text).state ∧
      (recovering known p).kept t ((recovering known p).extend s text).state.outlines.committed
        = (recovering known p).kept t s.outlines.committed := by
  by_cases hne : text = ""
  · have hs : ((recovering known p).extend s text).state = s := by simp [Language.extend, hne]
    rw [hs]; exact ⟨h, rfl⟩
  · obtain ⟨ts, hl, hstep, ho⟩ := extend_ok_inv h hne hok
    refine ⟨hstep, ?_⟩
    have htile := (tiles_of_lexChars hl).1
    rw [← flatMap_tokens_outline s.outlines.last? ts] at htile
    rw [ho]; exact kept_append_of_tiles htile ht

/-- **Rewinding undoes an extension.**  After any run and an extension that
    succeeds, a rewind to a target at or before the place of the extension leaves
    the state, and returns the position, of the same rewind without the extension.
    A rewind to that very place restores the state, if the last outline is
    recoverable or there is none. -/
theorem rewind_extend (known : List String) (p : Outline → Bool) (es : List Edit) (text : String)
    (hok : ((recovering known p).extend ((recovering known p).edits es) text).outcome = .ok ()) :
    let L := recovering known p
    let s := L.edits es
    (∀ t : SeekTarget, t.atOrBefore s.position →
      ∃ s', L.RewindsTo (L.extend s text).state t s' ∧ L.RewindsTo s t s') ∧
    (s.outlines.last?.all p → ∀ t ∈ SeekTarget.naming s.position,
      L.RewindsTo (L.extend s text).state t s) := by
  intro L s
  have h : LockStep known s := (told_edits known p es).inStep
  have hundo : ∀ t : SeekTarget, t.atOrBefore s.position →
      L.RewindsTo (L.extend s text).state t (described known (L.kept t s.outlines.committed)) := by
    intro t ht
    obtain ⟨hstep, hkept⟩ := kept_extend h hok ht
    have hr := (rewindsTo_kept (p := p) hstep t).1
    rw [hkept] at hr
    exact hr
  refine ⟨fun t ht => ⟨_, hundo t ht, (rewindsTo_kept h t).1⟩, fun hlast t ht => ?_⟩
  have hself := rewindsTo_self h hlast (SeekTarget.admits_of_naming ht)
  have hkept : described known (L.kept t s.outlines.committed) = s :=
    (rewindsTo_kept h t).1.state.symm.trans hself.state
  have hr := hundo t (SeekTarget.atOrBefore_of_naming ht)
  rw [hkept] at hr
  exact hr

/-- An extension in the middle of a phrase, over a line break, behind an outline
    where the analysis cannot go on: the rewind into it stops a line before. -/
theorem rewind_extend_phrase :
    let L := recovering [] (·.opensPhrase)
    let s := L.edits [.extend "let x = f\n", .extend "  (1"]
    (∃ s', L.RewindsTo (L.extend s ");;\nx").state (.lineCol 2 3) s' ∧
      L.RewindsTo s (.lineCol 2 3) s' ∧ s'.position = ⟨2, 0, 10⟩) ∧
    L.RewindsTo (L.extend (L.edits [.extend "let x = f\n"]) "  (1);;\nx").state (.lineCol 2 0)
      (L.edits [.extend "let x = f\n"]) := by
  obtain ⟨s', h₁, h₂⟩ := (rewind_extend [] (·.opensPhrase)
    [.extend "let x = f\n", .extend "  (1"] ");;\nx" (by decide +kernel)).1
    (.lineCol 2 3) (by decide +kernel)
  have hpos : s'.position = ⟨2, 0, 10⟩ :=
    Except.ok.inj (h₂.returned.symm.trans (by decide +kernel))
  have hback := (rewind_extend [] (·.opensPhrase) [.extend "let x = f\n"]
    "  (1);;\nx" (by decide +kernel)).2 (by decide +kernel) (.lineCol 2 0)
    (by decide +kernel)
  exact ⟨⟨s', h₁, h₂, hpos⟩, hback⟩

/-- Two rewinds keep the outlines up to the last one where both stop. -/
theorem upToLast_kept_kept (h : LockStep known s) (t₁ t₂ : SeekTarget) :
    UpToLast (fun o => p o ∧ t₁.admits (Spanned.stop o) ∧ t₂.admits (Spanned.stop o))
      s.outlines.committed
      ((recovering known p).kept t₂ ((recovering known p).kept t₁ s.outlines.committed)) := by
  have htile := h.tiled
  rw [← h.outlined] at htile
  -- what the first target admits, it admits before, too
  have hpair : s.outlines.committed.Pairwise fun o o' => (recovering known p).stopsAt t₁ o' →
      (recovering known p).stopsAt t₂ o → (recovering known p).stopsAt t₁ o := by
    refine htile.pairwise_after.imp ?_
    rintro o o' ⟨cs, hcs⟩ h₁ h₂
    rw [stopsAt, Bool.and_eq_true] at h₁ h₂ ⊢
    rw [hcs] at h₁
    exact ⟨SeekTarget.admits_of_after h₁.1, h₂.2⟩
  refine UpToLast.congr (fun o => ?_) (UpToLast.trans ((recovering known p).upToLast_kept t₁ _)
    ((recovering known p).upToLast_kept t₂ _) hpair)
  simp only [stopsAt, Bool.and_eq_true]
  constructor
  · rintro ⟨⟨h₁, hp⟩, h₂, -⟩; exact ⟨hp, h₁, h₂⟩
  · rintro ⟨hp, h₁, h₂⟩; exact ⟨⟨h₁, hp⟩, h₂, hp⟩

/-- **Rewinds commute.**  After any run, two rewinds to any targets leave, in
    either order, the state described by the outlines up to the last one that is
    recoverable and that both targets admit.  And a rewind to where one has led
    changes nothing and returns the same position. -/
theorem rewind_comm (known : List String) (p : Outline → Bool) (es : List Edit)
    (t₁ t₂ : SeekTarget) :
    let L := recovering known p
    let s := L.edits es
    s = described known s.outlines.committed ∧
    ∃ s₁ s₂ ks, L.RewindsTo s t₁ s₁ ∧ L.RewindsTo s t₂ s₂ ∧
      UpToLast (fun o => p o ∧ t₁.admits (Spanned.stop o) ∧ t₂.admits (Spanned.stop o))
        s.outlines.committed ks ∧
      L.RewindsTo s₁ t₂ (described known ks) ∧ L.RewindsTo s₂ t₁ (described known ks) ∧
      ∀ t ∈ SeekTarget.naming s₁.position, L.RewindsTo s₁ t s₁ := by
  intro L s
  have h : LockStep known s := (told_edits known p es).inStep
  obtain ⟨hr₁, h₁⟩ := rewindsTo_kept (p := p) h t₁
  obtain ⟨hr₂, h₂⟩ := rewindsTo_kept (p := p) h t₂
  have hks := upToLast_kept_kept (p := p) h t₁ t₂
  have hswap : L.kept t₁ (L.kept t₂ s.outlines.committed)
      = L.kept t₂ (L.kept t₁ s.outlines.committed) :=
    ((upToLast_kept_kept h t₂ t₁).congr fun o => and_congr_right' and_comm).unique hks
  have hr₁₂ := (rewindsTo_kept (p := p) h₁ t₂).1
  have hr₂₁ : L.RewindsTo _ t₁ (described known (L.kept t₁ (L.kept t₂ s.outlines.committed))) :=
    (rewindsTo_kept (p := p) h₂ t₁).1
  rw [hswap] at hr₂₁
  refine ⟨h.eq_described, _, _, _, hr₁, hr₂, hks, hr₁₂, hr₂₁, fun t ht => ?_⟩
  refine rewindsTo_self h₁ ?_ (SeekTarget.admits_of_naming ht)
  rw [Option.all_eq_true]
  intro o ho
  have hstop := (L.upToLast_kept t₁ s.outlines.committed).last o ho
  rw [stopsAt, Bool.and_eq_true] at hstop
  exact hstop.2

end PhraseServer
