/-
  What an edit types again.

  Outlines that are added or dropped at the end touch only the last chunk that
  stays: the others are found again by their lineage, and their environments
  with them.

  * `dropLast_chunk_prefix`: all chunks but the last stay when outlines are
    added;
  * `typed_resync`: a resynchronisation types the chunks behind the longest
    common beginning of old and new chunks, each once;
  * `retyping_bounded`: so an extension keeps all old chunks but the last, and a
    rewind types one chunk at most.
-/
import Mathlib.Order.Bounds.Basic
import PhraseServer.Proofs.Rewinding

namespace PhraseServer

open Log (commonLength)
open PhraseServer.Language

/-! ## Common beginnings -/

section
variable {α β : Type} {n : Nat} {as bs ks : List α}

/-- The first `n` items of two lists are the same. -/
def Shared (n : Nat) (as bs : List α) : Prop := ∃ ks, ks.length = n ∧ ks <+: as ∧ ks <+: bs

theorem length_le_commonLength [DecidableEq α] (ha : ks <+: as) (hb : ks <+: bs) :
    ks.length ≤ commonLength as bs := by
  induction ks generalizing as bs with
  | nil => exact Nat.zero_le _
  | cons k ks ih =>
    obtain ⟨as, rfl⟩ := ha
    obtain ⟨bs, rfl⟩ := hb
    simp only [List.cons_append, commonLength, if_true]
    exact Nat.succ_le_succ (ih (List.prefix_append _ _) (List.prefix_append _ _))

/-- What two lists have in common is their longest common beginning. -/
theorem isGreatest_commonLength [DecidableEq α] (as bs : List α) :
    IsGreatest {n | Shared n as bs} (commonLength as bs) := by
  constructor
  · refine ⟨bs.take (commonLength as bs), ?_, ?_, List.take_prefix _ _⟩
    · exact List.length_take_of_le (Log.commonLength_le_right as bs)
    · rw [← Log.take_commonLength]; exact List.take_prefix _ _
  · rintro n ⟨ks, rfl, ha, hb⟩
    exact length_le_commonLength ha hb

theorem Shared.symm (h : Shared n as bs) : Shared n bs as := by
  obtain ⟨ks, hks, ha, hb⟩ := h
  exact ⟨ks, hks, hb, ha⟩

/-- Shared items have shared images, one for one. -/
theorem Shared.image {f : List α → List β} (hlen : ∀ as, (f as).length = as.length)
    (hpre : ∀ {as bs}, as <+: bs → f as <+: f bs) (h : Shared n as bs) :
    Shared n (f as) (f bs) := by
  obtain ⟨ks, rfl, ha, hb⟩ := h
  exact ⟨f ks, hlen ks, hpre ha, hpre hb⟩

end

/-! ## Chunks of more outlines -/

theorem chunkFrom_ne_nil (first : Token) (more : List Token) (os : List Outline) :
    chunkFrom first more os ≠ [] := by
  induction os generalizing first more with
  | nil => simp [chunkFrom]
  | cons o os ih =>
    rw [chunkFrom]
    split_ifs
    · simp
    · exact ih _ _

theorem dropLast_chunkFrom_prefix (first : Token) (more : List Token) (os us : List Outline) :
    (chunkFrom first more os).dropLast <+: chunkFrom first more (os ++ us) := by
  induction os generalizing first more with
  | nil => exact List.nil_prefix
  | cons o os ih =>
    rw [List.cons_append, chunkFrom, chunkFrom]
    split_ifs
    · rw [List.dropLast_cons_of_ne_nil (chunkFrom_ne_nil _ _ _), List.cons_prefix_cons]
      exact ⟨rfl, ih _ _⟩
    · exact ih _ _

/-- **All chunks but the last stay** when outlines are added. -/
theorem dropLast_chunk_prefix (os us : List Outline) :
    (chunk os).dropLast <+: chunk (os ++ us) := by
  cases os with
  | nil => exact List.nil_prefix
  | cons o os => exact dropLast_chunkFrom_prefix o.first o.more os us

/-- Of the chunks of outlines, those of more outlines share all but one. -/
theorem shared_chunk (os us : List Outline) :
    Shared ((chunk os).length - 1) (chunk os) (chunk (os ++ us)) :=
  ⟨(chunk os).dropLast, List.length_dropLast, List.dropLast_prefix _, dropLast_chunk_prefix os us⟩

/-! ## Entries of common chunks -/

theorem chained_prefix {κ : Type} {p : Lineage κ} {cs ds : List κ} (h : cs <+: ds) :
    chained p cs <+: chained p ds := by
  rw [List.prefix_iff_eq_take.1 h, ← take_chained]
  exact List.take_prefix _ _

theorem environments_prefix {known : List String} {env : Env} {p : Lineage Chunk}
    {cs ds : List Chunk} (h : cs <+: ds) :
    environments known env p cs <+: environments known env p ds := by
  induction cs generalizing env p ds with
  | nil => exact List.nil_prefix
  | cons c cs ih =>
    obtain ⟨ds, rfl⟩ := h
    exact List.cons_prefix_cons.2 ⟨rfl, ih (List.prefix_append _ _)⟩

theorem length_environments (known : List String) (env : Env) (p : Lineage Chunk)
    (cs : List Chunk) : (environments known env p cs).length = cs.length :=
  (typed_environments known (fun _ => true) env p cs).length_eq

/-! ## The number of chunks typed -/

namespace Language

variable {τ ω κ ρ ε : Type} [Spanned κ] {L : Language τ ω κ ρ ε}

theorem typeAll_count {env : ρ} {log : Log (EnvEntry κ ρ)} {es : List (ChunkEntry κ)}
    (h : (L.typeAll env log es).2.1 = .ok ()) : (L.typeAll env log es).2.2 = es.length := by
  induction es generalizing env log with
  | nil => rfl
  | cons e es ih =>
    rw [typeAll] at h ⊢
    cases hc : L.typeChunk env e.chunk with
    | error cause => rw [hc] at h; cases h
    | ok env' =>
      rw [hc] at h
      exact congrArg (· + 1) (ih h)

variable [DecidableEq κ]

/-- **What is typed.**  Behind a genuine log, a resynchronisation that succeeds
    types the chunks behind the common ones, each once. -/
theorem typed_resync {s : State τ ω κ ρ} {bs cs ds : List κ} {es : List (EnvEntry κ ρ)}
    (hs : s.chunks = .ofList (chained [] bs)) (he : s.envs = .ofList es)
    (ht : L.Typed L.initialEnv [] ds es) (hc : L.chunk s.outlines.committed = .ok cs)
    (hok : (L.resync s).outcome = .ok ()) :
    (L.resync s).typed = cs.length - commonLength ds cs := by
  have hr : L.resync s = L.retype { s with chunks := .ofList (chained [] cs) } := by
    simp only [resync, rechunk_of_genuine hs hc]
  have hk := reused_of_genuine (s := { s with chunks := .ofList (chained [] cs) }) rfl he ht
  rw [hr] at hok ⊢
  simp only [retype, hk] at hok ⊢
  rw [typeAll_count hok]
  simp [Log.ofList]

theorem typed_rewind [Spanned τ] [Spanned ω] (s : State τ ω κ ρ) (t : SeekTarget) :
    (L.rewind s t).typed = (L.resync (L.rewound s t)).typed := by
  have hkept : (s.outlines.rewindWhile fun o => !L.stopsAt t o).settle
      = .ofList (L.kept t s.outlines.committed) := rfl
  unfold rewound
  simp only [rewind, hkept]
  split <;> rfl

/-- `Keeps n s s'`: the first `n` entries for chunks and for environments of `s'`
    are those of `s`. -/
structure Keeps (n : Nat) (s s' : State τ ω κ ρ) : Prop where
  chunks : Shared n s.chunks.committed s'.chunks.committed
  envs : Shared n s.envs.committed s'.envs.committed

end Language

/-- The chunks of a state. -/
def State.phrases {τ ω κ ρ : Type} (s : State τ ω κ ρ) : List κ :=
  s.chunks.committed.map (·.chunk)

variable {known : List String} {p : Outline → Bool} {s s' : State Token Outline Chunk Env} {n : Nat}

theorem LockStep.phrases_eq (h : LockStep known s) : s.phrases = chunk s.outlines.committed := by
  rw [State.phrases, h.chunked, map_chunk_chained]

/-- In step, chunks in common have their entries in common. -/
theorem LockStep.keeps (h : LockStep known s) (h' : LockStep known s')
    (hn : Shared n s.phrases s'.phrases) : Keeps n s s' := by
  rw [h.phrases_eq, h'.phrases_eq] at hn
  rw [h.eq_described, h'.eq_described]
  exact ⟨hn.image (length_chained []) chained_prefix,
    hn.image (length_environments known {} []) environments_prefix⟩

/-- Where chunks and environments were in step, the chunks behind those that stay
    are typed. -/
theorem LockStep.typed_resync (h : LockStep known s) (hc : s'.chunks = s.chunks)
    (he : s'.envs = s.envs) :
    ((recovering known p).resync s').typed
        + commonLength s.phrases (chunk s'.outlines.committed)
      = (chunk s'.outlines.committed).length := by
  obtain ⟨-, hi⟩ := (lockStep_iff (p := p)).1 h
  rw [h.phrases_eq, Language.typed_resync (hc.trans hi.chunks)
    (he.trans (Log.eq_ofList hi.settled)) hi.typed rfl (resync_ok ⟨_, rfl⟩ fun _ _ => ⟨_, rfl⟩)]
  exact Nat.sub_add_cancel (Log.commonLength_le_right _ _)

theorem LockStep.extend_keeps (h : LockStep known s) {text : String} (hne : text ≠ "")
    (hok : ((recovering known p).extend s text).outcome = .ok ()) :
    let run := (recovering known p).extend s text
    ∃ n, IsGreatest {n | Shared n s.phrases run.state.phrases} n ∧
      run.typed + n = run.state.phrases.length ∧ s.phrases.length ≤ n + 1 ∧
      Keeps n s run.state := by
  intro run
  obtain ⟨ts, hl, hstep, ho⟩ := extend_ok_inv h hne hok
  have hrun : run
      = (recovering known p).resync (extended s text ts (outline s.outlines.last? ts)) :=
    extend_eq_resync hne hl rfl
  have hnew : run.state.phrases = chunk (s.outlines.committed ++ outline s.outlines.last? ts) :=
    hstep.phrases_eq.trans (congrArg chunk ho)
  have hold : Shared (s.phrases.length - 1) s.phrases run.state.phrases := by
    rw [hnew, h.phrases_eq]; exact shared_chunk _ _
  have hgreatest := isGreatest_commonLength s.phrases run.state.phrases
  have hle := hgreatest.2 hold
  refine ⟨_, hgreatest, ?_, by omega, h.keeps hstep hgreatest.1⟩
  rw [hnew, hrun]; exact h.typed_resync rfl rfl

theorem LockStep.rewind_keeps (h : LockStep known s) (t : SeekTarget) :
    let run := (recovering known p).rewind s t
    run.typed ≤ 1 ∧ Keeps (run.state.phrases.length - 1) s run.state := by
  intro run
  obtain ⟨-, hstep, hkept⟩ := rewind_spec (p := p) h t
  set ks := (recovering known p).kept t s.outlines.committed
  have hnew : run.state.phrases = chunk ks := hstep.phrases_eq.trans (congrArg chunk hkept)
  have hold : Shared (run.state.phrases.length - 1) s.phrases run.state.phrases := by
    obtain ⟨us, hus⟩ : ks <+: s.outlines.committed := List.rdropWhile_prefix _ _
    rw [hnew, h.phrases_eq, ← hus]; exact (shared_chunk ks us).symm
  have hle := (isGreatest_commonLength _ _).2 hold
  have hcount : run.typed + commonLength s.phrases run.state.phrases
      = run.state.phrases.length := by
    have hrun : run.typed
        = ((recovering known p).resync ((recovering known p).rewound s t)).typed :=
      typed_rewind s t
    rw [hnew, hrun]; exact h.typed_resync rfl rfl
  exact ⟨by omega, h.keeps hstep hold⟩

/-- **Bounded typing.**  After any run, an extension by a text that succeeds types
    exactly the chunks behind the longest common beginning of the old and the new
    chunks.  All old chunks but the last belong to it, and their entries and those
    of their environments stay.  A rewind types one chunk at most, and the entries
    of all chunks that it leaves, but the last, are old ones. -/
theorem retyping_bounded (known : List String) (p : Outline → Bool) (es : List Edit) :
    let L := recovering known p
    let s := L.edits es
    (∀ text, text ≠ "" → (L.extend s text).outcome = .ok () →
      let run := L.extend s text
      ∃ n, IsGreatest {n | Shared n s.phrases run.state.phrases} n ∧
        run.typed + n = run.state.phrases.length ∧ s.phrases.length ≤ n + 1 ∧
        Keeps n s run.state) ∧
    ∀ t, let run := L.rewind s t
      (∃ q, run.outcome = .ok q) ∧ run.typed ≤ 1 ∧
        Keeps (run.state.phrases.length - 1) s run.state := by
  intro L s
  have h : LockStep known s := (told_edits known p es).inStep
  constructor
  · intro text hne hok
    exact h.extend_keeps hne hok
  · intro t
    exact ⟨⟨_, (rewind_spec h t).1⟩, h.rewind_keeps t⟩

/-- An extension that goes on with the last of three chunks and begins a fourth, and
    a rewind into the second. -/
theorem retyping_bounded_phrases :
    let L := recovering ["List"] (fun _ => true)
    let s := L.edits [.extend "open List\nlet x = 1;;", .extend "f x"]
    let run := L.extend s " y;;\nlet z = 2"
    s.phrases.length = 3 ∧ run.typed = 2 ∧ Keeps 2 s run.state ∧
      (L.rewind s (.lineCol 2 8)).typed ≤ 1 := by
  intro L s run
  obtain ⟨hextend, hrewind⟩ := retyping_bounded ["List"] (fun _ => true)
    [.extend "open List\nlet x = 1;;", .extend "f x"]
  obtain ⟨n, -, hcount, -, hkeeps⟩ := hextend " y;;\nlet z = 2" (by decide) (by decide +kernel)
  have htyped : run.typed = 2 := by decide +kernel
  have hnew : run.state.phrases.length = 4 := by decide +kernel
  obtain rfl : n = 2 := by
    change run.typed + n = run.state.phrases.length at hcount
    omega
  exact ⟨by decide +kernel, htyped, hkeeps, (hrewind (.lineCol 2 8)).2.1⟩

end PhraseServer
