/-
  What a resynchronisation leaves.

  The entries of the chunk and environment logs are *genuine* when each belongs
  to its lineage: the chunk log is a list of chunks with their lineages, and the
  environment log holds what typing some list of chunks gives.  The two lists
  need not be the ones that the outlines ask for, and after a failure they are
  not.

  * `rechunk_of_genuine`: chunks behind a genuine log are the fresh chunks;
  * `typeAll_typed`: typing appends genuine environments up to a failure;
  * `resync_genuine`: a resynchronisation leaves genuine entries, and those of
    the outlines when it succeeds.
-/
import PhraseServer.Pipeline
import PhraseServer.Proofs.Agreement

namespace PhraseServer

open Log (commonLength)

variable {τ ω κ ρ ε : Type}

/-! ## Lineages -/

section

@[simp] theorem map_chunk_chained (p : Lineage κ) (cs : List κ) :
    (chained p cs).map (·.chunk) = cs := by
  induction cs generalizing p with
  | nil => rfl
  | cons c cs ih => simp [chained, ih]

@[simp] theorem length_chained (p : Lineage κ) (cs : List κ) :
    (chained p cs).length = cs.length := by
  rw [← map_chunk_chained p cs, List.length_map, map_chunk_chained]

theorem take_chained (p : Lineage κ) (cs : List κ) (n : Nat) :
    (chained p cs).take n = chained p (cs.take n) := by
  induction cs generalizing p n with
  | nil => simp [chained]
  | cons c cs ih => cases n <;> simp [chained, ih]

theorem drop_chained (p : Lineage κ) (cs : List κ) (n : Nat) :
    (chained p cs).drop n = chained ((cs.take n).reverse ++ p) (cs.drop n) := by
  induction cs generalizing p n with
  | nil => simp [chained]
  | cons c cs ih => cases n <;> simp [chained, ih]

/-- An entry holds a chunk and, as its lineage, the chunks up to it. -/
theorem getElem?_chained (p : Lineage κ) (cs : List κ) (i : Nat) :
    (chained p cs)[i]? = cs[i]?.map fun c => ⟨c, (cs.take (i + 1)).reverse ++ p⟩ := by
  induction cs generalizing p i with
  | nil => rfl
  | cons c cs ih => cases i <;> simp [chained, ih]

variable [Spanned κ]

/-- The length of its lineage tells the place of a chunk. -/
theorem ranked_chained (p : Lineage κ) (cs : List κ) :
    Log.Ranked (·.tag.length) (p.length + 1) ((chained p cs).map ChunkEntry.mark) := by
  induction cs generalizing p with
  | nil => trivial
  | cons c cs ih => exact ⟨rfl, ih (c :: p)⟩

variable [DecidableEq κ]

theorem commonLength_marks (p : Lineage κ) (cs ds : List κ) :
    commonLength ((chained p cs).map ChunkEntry.mark) ((chained p ds).map ChunkEntry.mark)
      = commonLength cs ds := by
  induction cs generalizing p ds with
  | nil => cases ds <;> rfl
  | cons c cs ih =>
    cases ds with
    | nil => rfl
    | cons d ds =>
      by_cases h : c = d
      · subst h; simp [chained, commonLength, ih]
      · simp [chained, commonLength, ChunkEntry.mark, h]

/-- The marks of two chunk lists agree as far as the lists do, in any order of
    marks that puts none before itself: how marks with one end are ordered does
    not matter. -/
theorem sharedKeys_marks [LT (Mark (Lineage κ))] [DecidableLT (Mark (Lineage κ))]
    (irrefl : ∀ m : Mark (Lineage κ), ¬ m < m) (cs ds : List κ) :
    Log.sharedKeys ((chained [] cs).map ChunkEntry.mark) ((chained [] ds).map ChunkEntry.mark)
      = commonLength cs ds := by
  rw [Log.sharedKeys_eq_commonLength irrefl (ranked_chained [] cs) (ranked_chained [] ds),
    commonLength_marks]

theorem Mark.lt_irrefl {α : Type} (m : Mark α) : ¬ m < m := Nat.lt_irrefl m.offset

end

namespace Language

variable {L : Language τ ω κ ρ ε}

/-! ## Environments of a list of chunks -/

/-- The environment behind the last entry. -/
def lastEnv (env : ρ) (es : List (EnvEntry κ ρ)) : ρ := (es.getLast?.map (·.env)).getD env

theorem lastEnv_cons (env : ρ) (e : EnvEntry κ ρ) (es : List (EnvEntry κ ρ)) :
    lastEnv env (e :: es) = lastEnv e.env es := by
  cases es with
  | nil => rfl
  | cons e' es => simp [lastEnv, List.getLast?_cons]

variable [Spanned κ]

/-- `Typed L env p cs es`: the entries `es` hold the environments behind the
    chunks `cs`, typed from `env` behind the chunks of `p`. -/
inductive Typed (L : Language τ ω κ ρ ε) : ρ → Lineage κ → List κ → List (EnvEntry κ ρ) → Prop
  | nil {env p} : Typed L env p [] []
  | cons {env env' p c cs es} : L.typeChunk env c = .ok env' → Typed L env' (c :: p) cs es →
      Typed L env p (c :: cs) (⟨env', Spanned.stop c, c :: p⟩ :: es)

namespace Typed

theorem length_eq {env : ρ} {p : Lineage κ} {cs : List κ} {es : List (EnvEntry κ ρ)}
    (h : Typed L env p cs es) : es.length = cs.length := by
  induction h with
  | nil => rfl
  | cons _ _ ih => simp [ih]

theorem take {env : ρ} {p : Lineage κ} {cs : List κ} {es : List (EnvEntry κ ρ)}
    (h : Typed L env p cs es) (n : Nat) : Typed L env p (cs.take n) (es.take n) := by
  induction h generalizing n with
  | nil => simpa using Typed.nil
  | cons hc _ ih =>
    cases n with
    | zero => exact .nil
    | succ n => exact .cons hc (ih n)

theorem append {env : ρ} {p : Lineage κ} {cs ds : List κ} {es fs : List (EnvEntry κ ρ)}
    (h : Typed L env p cs es) (h' : Typed L (lastEnv env es) (cs.reverse ++ p) ds fs) :
    Typed L env p (cs ++ ds) (es ++ fs) := by
  induction h with
  | nil => exact h'
  | cons hc _ ih =>
    refine .cons hc (ih ?_)
    rw [lastEnv_cons] at h'; simpa using h'

theorem marks {env : ρ} {p : Lineage κ} {cs : List κ} {es : List (EnvEntry κ ρ)}
    (h : Typed L env p cs es) : es.map EnvEntry.mark = (chained p cs).map ChunkEntry.mark := by
  induction h with
  | nil => rfl
  | cons _ _ ih => simp [chained, ih, EnvEntry.mark, ChunkEntry.mark]

/-- An entry holds the fold of typing over the chunks up to it. -/
theorem getElem? {env : ρ} {p : Lineage κ} {cs : List κ} {es : List (EnvEntry κ ρ)}
    (h : Typed L env p cs es) {i : Nat} {e : EnvEntry κ ρ} (he : es[i]? = some e) :
    ∃ c, cs[i]? = some c ∧ (cs.take (i + 1)).foldlM L.typeChunk env = .ok e.env ∧
      e.stop = Spanned.stop c ∧ e.lineage = (cs.take (i + 1)).reverse ++ p := by
  induction h generalizing i with
  | nil => simp at he
  | @cons env env' p c cs es hc _ ih =>
    cases i with
    | zero =>
      simp only [List.getElem?_cons_zero, Option.some.injEq] at he
      subst he
      exact ⟨c, rfl, by simp [List.foldlM, hc, bind, Except.bind, pure, Except.pure], rfl, rfl⟩
    | succ i =>
      obtain ⟨d, hd, hf, hs, hl⟩ := ih (by simpa using he)
      refine ⟨d, by simpa using hd, ?_, hs, by simpa using hl⟩
      rw [List.take_succ_cons, List.foldlM_cons, hc]; exact hf

end Typed

/-! ## Genuine entries -/

/-- Every entry of the chunk and environment logs belongs to its lineage. -/
structure Genuine (L : Language τ ω κ ρ ε) (s : State τ ω κ ρ) : Prop where
  chunks : ∃ cs, s.chunks = .ofList (chained [] cs)
  envs : ∃ cs es, s.envs = .ofList es ∧ L.Typed L.initialEnv [] cs es

theorem genuine_fresh (L : Language τ ω κ ρ ε) : L.Genuine {} :=
  ⟨⟨[], rfl⟩, [], [], rfl, .nil⟩

/-- The chunks of the committed outlines are `cs`, and both logs hold nothing
    else: the chunks with their lineages, and behind each chunk the fold of
    typing over the chunks up to it. -/
structure InStep (L : Language τ ω κ ρ ε) (s : State τ ω κ ρ) (cs : List κ) : Prop where
  chunked : L.chunk s.outlines.committed = .ok cs
  chunks : s.chunks = .ofList (chained [] cs)
  settled : s.envs.future = []
  one_each : s.envs.committed.length = s.chunks.committed.length
  envs : ∀ i e, s.envs.committed[i]? = some e → ∃ c, s.chunks.committed[i]? = some c ∧
    (cs.take (i + 1)).foldlM L.typeChunk L.initialEnv = .ok e.env ∧
    e.stop = Spanned.stop c.chunk ∧ e.lineage = c.lineage

theorem InStep.of_typed {s : State τ ω κ ρ} {cs : List κ} {es : List (EnvEntry κ ρ)}
    (hc : L.chunk s.outlines.committed = .ok cs) (hs : s.chunks = .ofList (chained [] cs))
    (he : s.envs = .ofList es) (ht : L.Typed L.initialEnv [] cs es) : L.InStep s cs where
  chunked := hc
  chunks := hs
  settled := by rw [he]; rfl
  one_each := by rw [he, hs]; simpa [Log.ofList] using ht.length_eq
  envs i e h := by
    rw [he] at h
    obtain ⟨c, hc, hf, hstop, hl⟩ := ht.getElem? h
    refine ⟨⟨c, (cs.take (i + 1)).reverse⟩, ?_, hf, hstop, by simpa using hl⟩
    rw [hs]
    show (chained [] cs)[i]? = _
    rw [getElem?_chained, hc]; simp

theorem typed_of_foldlM {cs : List κ} {env env' : ρ} (p : Lineage κ)
    (h : cs.foldlM L.typeChunk env = .ok env') : ∃ es, L.Typed env p cs es := by
  induction cs generalizing env p with
  | nil => exact ⟨[], .nil⟩
  | cons c cs ih =>
    rw [List.foldlM_cons] at h
    cases hc : L.typeChunk env c with
    | error e => rw [hc] at h; cases h
    | ok env₁ =>
      rw [hc] at h
      obtain ⟨es, hes⟩ := ih (c :: p) h
      exact ⟨_, .cons hc hes⟩

/-- The environments of chunks in step are those of the chunks. -/
theorem InStep.typed {s : State τ ω κ ρ} {cs : List κ} (h : L.InStep s cs) :
    L.Typed L.initialEnv [] cs s.envs.committed := by
  have hlen : s.envs.committed.length = cs.length := by
    rw [h.one_each, h.chunks]; exact length_chained [] cs
  -- the last entry holds the fold over all chunks, so typing them all succeeds
  have hex : ∃ es, L.Typed L.initialEnv [] cs es := by
    rcases hcs : cs.length with _ | n
    · rw [List.length_eq_zero_iff.1 hcs]; exact ⟨[], .nil⟩
    · have hn : n < s.envs.committed.length := by omega
      obtain ⟨-, -, hf, -⟩ := h.envs n _ (List.getElem?_eq_getElem hn)
      rw [List.take_of_length_le (by omega)] at hf
      exact typed_of_foldlM [] hf
  obtain ⟨es, hes⟩ := hex
  have heq : s.envs.committed = es := by
    refine List.ext_getElem (by rw [hlen, hes.length_eq]) fun i hi hi' => ?_
    obtain ⟨c, hc, hf, hstop, hl⟩ := h.envs i _ (List.getElem?_eq_getElem hi)
    obtain ⟨d, hd, hf', hstop', hl'⟩ := hes.getElem? (List.getElem?_eq_getElem hi')
    have hcd : c = ⟨d, (cs.take (i + 1)).reverse⟩ := by
      rw [h.chunks] at hc
      change (chained [] cs)[i]? = _ at hc
      rw [getElem?_chained, hd] at hc
      simpa using hc.symm
    subst hcd
    generalize s.envs.committed[i] = e at hf hstop hl
    generalize es[i] = e' at hf' hstop' hl'
    obtain ⟨env, stop, lineage⟩ := e
    obtain ⟨env', stop', lineage'⟩ := e'
    have henv : env = env' := Except.ok.inj (hf.symm.trans hf')
    have hlin : lineage = lineage' := hl.trans (by simpa using hl'.symm)
    rw [henv, hlin, show stop = stop' from hstop.trans hstop'.symm]
  rw [heq]; exact hes

/-- The position has no part in it. -/
theorem InStep.moved {s : State τ ω κ ρ} {cs : List κ} (h : L.InStep s cs) (p : Position) :
    L.InStep { s with position := p } cs :=
  ⟨h.chunked, h.chunks, h.settled, h.one_each, h.envs⟩

theorem InStep.genuine {s : State τ ω κ ρ} {cs : List κ} (h : L.InStep s cs) : L.Genuine s :=
  ⟨⟨cs, h.chunks⟩, cs, s.envs.committed, Log.eq_ofList h.settled, h.typed⟩

theorem Typed.unique {env : ρ} {p : Lineage κ} {cs : List κ} {es fs : List (EnvEntry κ ρ)}
    (h : L.Typed env p cs es) (h' : L.Typed env p cs fs) : es = fs := by
  induction h generalizing fs with
  | nil => cases h'; rfl
  | cons hc _ ih =>
    cases h' with
    | cons hc' ht' =>
      rw [hc] at hc'; cases hc'
      rw [ih ht']

/-- The outlines fix the chunks and environments in step with them. -/
theorem InStep.unique {s s' : State τ ω κ ρ} {cs ds : List κ} (h : L.InStep s cs)
    (h' : L.InStep s' ds) (ho : s.outlines.committed = s'.outlines.committed) :
    s.chunks = s'.chunks ∧ s.envs = s'.envs := by
  have hcs : cs = ds := Except.ok.inj (h.chunked.symm.trans (ho ▸ h'.chunked))
  subst hcs
  refine ⟨h.chunks.trans h'.chunks.symm, ?_⟩
  rw [Log.eq_ofList h.settled, Log.eq_ofList h'.settled, h.typed.unique h'.typed]

/-! ## The two halves of a resynchronisation -/

variable [DecidableEq κ]

/-- Behind a genuine chunk log, what agrees and what is new make up the fresh
    chunks. -/
theorem rechunk_of_genuine {s : State τ ω κ ρ} {cs ds : List κ}
    (hs : s.chunks = .ofList (chained [] ds)) (hc : L.chunk s.outlines.committed = .ok cs) :
    L.rechunk s = .ok { s with chunks := .ofList (chained [] cs) } := by
  have hk : s.chunks.sync (Log.ofList (chained [] cs)) ChunkEntry.mark ChunkEntry.mark
      = commonLength ds cs := by
    rw [hs]; exact sharedKeys_marks Mark.lt_irrefl ds cs
  have ht : (s.chunks.truncate (commonLength ds cs)).committed
      = (chained [] cs).take (commonLength ds cs) := by
    rw [hs, Log.committed_truncate]
    simp only [Log.ofList, Log.items, List.append_nil, take_chained, Log.take_commonLength]
  simp only [rechunk, hc, hk]
  rw [Log.appendAll, ht]
  simp only [Log.ofList, List.take_append_drop]

omit [DecidableEq κ] in
/-- Typing appends the environments of a prefix of the chunks, of all of them
    when it succeeds. -/
theorem typeAll_typed (env : ρ) (p : Lineage κ) (cs : List κ) (fs : List (EnvEntry κ ρ)) :
    ∃ ds es, L.Typed env p ds es ∧
      (L.typeAll env (.ofList fs) (chained p cs)).1 = .ofList (fs ++ es) ∧
      ((L.typeAll env (.ofList fs) (chained p cs)).2.1 = .ok () → ds = cs) := by
  induction cs generalizing env p fs with
  | nil => exact ⟨[], [], .nil, by simp [chained, typeAll], fun _ => rfl⟩
  | cons c cs ih =>
    simp only [chained, typeAll]
    cases hc : L.typeChunk env c with
    | error e => exact ⟨[], [], .nil, by simp, by simp⟩
    | ok env' =>
      obtain ⟨ds, es, ht, hl, hok⟩ := ih env' (c :: p) (fs ++ [⟨env', Spanned.stop c, c :: p⟩])
      refine ⟨c :: ds, _, .cons hc ht, ?_, fun h => by rw [hok h]⟩
      rw [List.append_cons]; exact hl

omit [DecidableEq κ] in
/-- Typing succeeds in a language that types every chunk. -/
theorem typeAll_ok (h : ∀ env c, ∃ env', L.typeChunk env c = .ok env') (env : ρ)
    (log : Log (EnvEntry κ ρ)) (es : List (ChunkEntry κ)) :
    (L.typeAll env log es).2.1 = .ok () := by
  induction es generalizing env log with
  | nil => rfl
  | cons e es ih =>
    obtain ⟨env', he⟩ := h env e.chunk
    rw [typeAll, he]; exact ih env' _

/-- Of a genuine environment log, the environments of the common chunks are
    reused. -/
theorem reused_of_genuine {s : State τ ω κ ρ} {cs ds : List κ} {es : List (EnvEntry κ ρ)}
    (hs : s.chunks = .ofList (chained [] cs)) (he : s.envs = .ofList es)
    (ht : L.Typed L.initialEnv [] ds es) :
    min (s.envs.sync s.chunks EnvEntry.mark ChunkEntry.mark) s.chunks.cursor
      = commonLength ds cs := by
  rw [Log.sync, he, hs]
  simp only [Log.ofList, ht.marks, sharedKeys_marks Mark.lt_irrefl, Log.cursor, length_chained]
  exact Nat.min_eq_left (Log.commonLength_le_right ds cs)

/-- Behind a genuine environment log, what agrees and what is typed are the
    environments of a prefix of the chunks, of all of them on success. -/
theorem retype_of_genuine {s : State τ ω κ ρ} {cs ds : List κ} {es : List (EnvEntry κ ρ)}
    (hs : s.chunks = .ofList (chained [] cs)) (he : s.envs = .ofList es)
    (ht : L.Typed L.initialEnv [] ds es) :
    ∃ ds' es', L.Typed L.initialEnv [] ds' es' ∧
      (L.retype s).state = { s with envs := .ofList es' } ∧
      ((L.retype s).outcome = .ok () → ds' = cs) := by
  have hk := reused_of_genuine hs he ht
  set k := commonLength ds cs with hkdef
  have hkept : s.envs.truncate k = .ofList (es.take k) := by
    rw [he]; simp [Log.truncate, Log.seek, Log.settle, Log.items, Log.ofList]
  have hdrop : s.chunks.committed.drop k = chained (cs.take k).reverse (cs.drop k) := by
    rw [hs]; simpa [Log.ofList] using drop_chained [] cs k
  have hshare : L.Typed L.initialEnv [] (cs.take k) (es.take k) := by
    rw [← Log.take_commonLength ds cs]; exact ht.take k
  obtain ⟨ds', es', ht', hl, hok⟩ := L.typeAll_typed (lastEnv L.initialEnv (es.take k))
    (cs.take k).reverse (cs.drop k) (es.take k)
  refine ⟨cs.take k ++ ds', es.take k ++ es', hshare.append (by simpa using ht'), ?_, ?_⟩
  · simp only [retype, hk, hkept, hdrop]
    exact congrArg (fun l => { s with envs := l }) hl
  · intro h
    simp only [retype, hk, hkept, hdrop] at h
    rw [hok h, List.take_append_drop]

/-! ## Resynchronisation -/

/-- A resynchronisation touches neither position nor tokens nor outlines. -/
theorem resync_frame (L : Language τ ω κ ρ ε) (s : State τ ω κ ρ) :
    (L.resync s).state.position = s.position ∧ (L.resync s).state.tokens = s.tokens ∧
      (L.resync s).state.outlines = s.outlines := by
  unfold resync rechunk
  cases L.chunk s.outlines.committed with
  | error e => exact ⟨rfl, rfl, rfl⟩
  | ok cs => exact ⟨rfl, rfl, rfl⟩

theorem resync_ok {s : State τ ω κ ρ} (hc : ∃ cs, L.chunk s.outlines.committed = .ok cs)
    (h : ∀ env c, ∃ env', L.typeChunk env c = .ok env') : (L.resync s).outcome = .ok () := by
  obtain ⟨cs, hcs⟩ := hc
  simp only [resync, rechunk, hcs]
  exact typeAll_ok h _ _ _

/-- **Resynchronisation.**  Genuine entries stay genuine, and on success both
    logs are those of the outlines. -/
theorem resync_genuine {s : State τ ω κ ρ} (h : L.Genuine s) :
    L.Genuine (L.resync s).state ∧
      ((L.resync s).outcome = .ok () → ∃ cs, L.InStep (L.resync s).state cs) := by
  obtain ⟨⟨ds, hds⟩, es₀, es, he, ht⟩ := h
  cases hc : L.chunk s.outlines.committed with
  | error e =>
    have hr : L.resync s = { state := s, outcome := .error ⟨.chunker, e⟩ } := by
      simp only [resync, rechunk, hc]
    rw [hr]
    exact ⟨⟨⟨ds, hds⟩, es₀, es, he, ht⟩, by simp⟩
  | ok cs =>
    have hr : L.resync s = L.retype { s with chunks := .ofList (chained [] cs) } := by
      simp only [resync, rechunk_of_genuine hds hc]
    obtain ⟨ds', es', ht', hst, hok⟩ :=
      L.retype_of_genuine (s := { s with chunks := .ofList (chained [] cs) }) rfl he ht
    rw [hr, hst]
    refine ⟨⟨⟨cs, rfl⟩, ds', es', rfl, ht'⟩, fun h => ⟨cs, ?_⟩⟩
    rw [hok h] at ht'
    exact .of_typed hc rfl rfl ht'

end Language

end PhraseServer
