/-
  What a buffer lacks.

  The reply to `errors` is described by the chunks of the buffer alone
  (`Reported`): an `open` lacks a path or the module at its front, when that is
  neither known nor declared by an earlier chunk, and a `module` lacks a name.
  How the buffer came about does not matter.

  * `lookup_typeChunk`: a module is in scope when a chunk has declared it;
  * `reported_environments`: the environments of chunks hold what is reported;
  * `errors_reported`: the reply to `errors` after any run of edits, and the paths
    of the `open`s in it.
-/
import PhraseServer.Proofs.Chunking
import PhraseServer.Proofs.Fragments
import PhraseServer.Proofs.ModulePaths
import PhraseServer.Proofs.Rewinding

namespace PhraseServer

open PhraseServer.Language
open Wire (toJson)

/-! ## Reports -/

/-- `Lacks known before c message`: behind other chunks, a chunk lacks what the
    message says. -/
inductive Lacks (known : List String) (before : List Chunk) (c : Chunk) : String → Prop
  | unbound {path : ModulePath} : c.kind = .open_ (some path) → path.component ∉ known →
      (∀ d ∈ before, d.kind ≠ .module_ (some path.component)) →
      Lacks known before c ("unbound module " ++ path.component)
  | path : c.kind = .open_ none → Lacks known before c "expected a module path"
  | name : c.kind = .module_ none → Lacks known before c "expected a module name"

/-- A message with the span of a chunk. -/
def reportOf (message : String) (c : Chunk) : Json :=
  .object [("message", .str message), ("start", toJson c.start), ("end", toJson c.stop)]

/-- `Reported known before cs reports`: of chunks behind others, those that lack
    something are reported, in order, and no others. -/
inductive Reported (known : List String) : List Chunk → List Chunk → List Json → Prop
  | nil {before : List Chunk} : Reported known before [] []
  | clean {before cs : List Chunk} {c : Chunk} {reports : List Json} :
      (∀ message, ¬ Lacks known before c message) → Reported known (before ++ [c]) cs reports →
      Reported known before (c :: cs) reports
  | lacking {before cs : List Chunk} {c : Chunk} {message : String} {reports : List Json} :
      Lacks known before c message → Reported known (before ++ [c]) cs reports →
      Reported known before (c :: cs) (reportOf message c :: reports)

section
variable {known : List String} {before : List Chunk} {c : Chunk}

/-- A chunk lacks one thing at most. -/
theorem Lacks.unique {m m' : String} (h : Lacks known before c m) (h' : Lacks known before c m') :
    m = m' := by
  cases h <;> cases h' <;> simp_all

/-- Chunks are reported in one way. -/
theorem Reported.unique {cs : List Chunk} {rs rs' : List Json} (h : Reported known before cs rs)
    (h' : Reported known before cs rs') : rs = rs' := by
  induction h generalizing rs' with
  | nil => cases h'; rfl
  | clean hc _ ih =>
    cases h' with
    | clean _ hrest => exact ih hrest
    | lacking hm _ => exact absurd hm (hc _)
  | lacking hm _ ih =>
    cases h' with
    | clean hc _ => exact absurd hm (hc _)
    | lacking hm' hrest => rw [hm.unique hm', ih hrest]

end

/-! ## Modules in scope -/

/-- The environment has the modules that chunks declare. -/
def HasModules (env : Env) (before : List Chunk) : Prop :=
  ∀ name, (env.lookup name .module_).isSome ↔ ∃ d ∈ before, d.kind = .module_ (some name)

theorem answers_declared {c : Chunk} {name : String} :
    (∃ b ∈ c.declared, b.answers name .module_) ↔ c.kind = .module_ (some name) := by
  unfold Chunk.declared
  split <;> simp_all [Binding.answers]

/-- Behind a chunk, a module is in scope that was so before or that it declares. -/
theorem lookup_typeChunk (known : List String) (env : Env) (c : Chunk) (name : String) :
    ((typeChunk known env c).lookup name .module_).isSome ↔
      (env.lookup name .module_).isSome ∨ c.kind = .module_ (some name) := by
  rw [← answers_declared, Env.lookup, typeChunk, List.find?_append, Option.isSome_or,
    Bool.or_eq_true, List.find?_isSome, or_comm]
  simp [Env.lookup]

theorem HasModules.typeChunk {env : Env} {before : List Chunk} (h : HasModules env before)
    (known : List String) (c : Chunk) :
    HasModules (typeChunk known env c) (before ++ [c]) := by
  intro name
  rw [lookup_typeChunk, h name]
  simp [or_and_right, exists_or]

/-! ## What is found is what is reported -/

/-- **Problems.**  With the declared modules in scope, what is found in a chunk is what
    it lacks. -/
theorem problem?_iff {known : List String} {env : Env} {before : List Chunk} {c : Chunk}
    (henv : HasModules env before)
    (hroot : ∀ path, c.kind = .open_ (some path) → path.component = path.root) {message : String} :
    (∃ p ∈ c.problem? known env, p.message = message) ↔ Lacks known before c message := by
  constructor
  · rintro ⟨p, hp, rfl⟩
    unfold Chunk.problem? at hp
    split at hp
    · next hkind => cases hp; exact .name hkind
    · next hkind => cases hp; exact .path hkind
    · next path hkind =>
      split_ifs at hp with hscope
      · cases hp
      · obtain rfl : Problem.unboundModule path.root = p := Option.some.inj hp
        rw [Bool.or_eq_true, List.contains_iff_mem, henv path.root, ← hroot path hkind] at hscope
        push Not at hscope
        rw [← hroot path hkind]
        exact .unbound hkind hscope.1 hscope.2
    · cases hp
  · intro h
    unfold Chunk.problem?
    cases h with
    | name hkind => exact ⟨.missingName, by simp [hkind], rfl⟩
    | path hkind => exact ⟨.missingPath, by simp [hkind], rfl⟩
    | @unbound path hkind hknown hbefore =>
      rw [hroot path hkind] at hknown hbefore ⊢
      have hscope : ¬ (env.lookup path.root .module_).isSome := by
        rw [henv path.root]
        rintro ⟨d, hd, hdkind⟩
        exact hbefore d hd hdkind
      refine ⟨.unboundModule path.root, ?_, rfl⟩
      simp [hkind, hknown, hscope]

/-- The environments behind chunks hold what is reported of them. -/
theorem reported_environments {known : List String} {env : Env} {before cs : List Chunk}
    (parent : Lineage Chunk) (henv : HasModules env before)
    (hroot : ∀ c ∈ cs, ∀ path, c.kind = .open_ (some path) → path.component = path.root) :
    Reported known before cs
      (((environments known env parent cs).flatMap (·.env.diagnostics)).map toJson) := by
  induction cs generalizing env before parent with
  | nil => exact .nil
  | cons c cs ih =>
    have hc : ∀ message, (∃ p ∈ c.problem? known env, p.message = message) ↔
        Lacks known before c message := fun _ => problem?_iff henv (hroot c List.mem_cons_self)
    have hrest := ih (c :: parent) (henv.typeChunk known c)
      fun d hd => hroot d (List.mem_cons_of_mem c hd)
    -- the first environment has the diagnostics of `c` alone, those behind it of `cs`
    rw [environments, List.flatMap_cons, List.map_append]
    cases hp : c.problem? known env with
    | none =>
      refine .clean (fun message hm => ?_) (by simpa [typeChunk, hp] using hrest)
      obtain ⟨p, hp', -⟩ := (hc message).2 hm
      rw [hp] at hp'
      cases hp'
    | some p =>
      have hlack : Lacks known before c p.message := (hc _).1 ⟨p, hp, rfl⟩
      have hhead : (typeChunk known env c).diagnostics.map toJson = [reportOf p.message c] := by
        simp only [typeChunk, hp]; rfl
      rw [hhead]
      exact .lacking hlack hrest

/-! ## Runs of edits -/

variable {known : List String} {p : Outline → Bool} {s : State Token Outline Chunk Env}

/-- The outlines go on from call to call, and no capitalised name has a dot. -/
theorem Aligned.edit (h : Aligned known s) (hdot : Dotless s.tokens.committed) (e : Edit) :
    Aligned known ((recovering known p).edit s e) ∧
      Dotless ((recovering known p).edit s e).tokens.committed := by
  cases e with
  | reset => exact ⟨aligned_fresh known, by simp [Dotless, Language.edit]⟩
  | rewind target =>
    obtain ⟨-, hstep, hkept⟩ := rewind_spec (p := p) h.inStep target
    obtain ⟨us, hus⟩ : (recovering known p).kept target s.outlines.committed
        <+: s.outlines.committed := List.rdropWhile_prefix _ _
    refine ⟨⟨hstep, ?_⟩, fun t ht => hdot t ?_⟩
    · rw [Language.edit, hkept]
      exact (hus ▸ h.delivered).split.1
    · rw [Language.edit, ← hstep.outlined, hkept] at ht
      rw [← h.inStep.outlined, ← hus, List.flatMap_append]
      exact List.mem_append_left _ ht
  | extend text =>
    rcases (recovering known p).extend_cases s text with ⟨hs, -⟩ | ⟨ts, os, -, hl, -, -⟩
    · rw [Language.edit, hs]
      exact ⟨h, hdot⟩
    · obtain ⟨-, hal, htok⟩ := h.extend (p := p) hl
      refine ⟨hal, fun t ht => ?_⟩
      rw [Language.edit, htok] at ht
      exact (List.mem_append.1 ht).elim (hdot t) (dotless_of_lexChars hl t)

theorem aligned_edits (known : List String) (p : Outline → Bool) (es : List Edit) :
    Aligned known ((recovering known p).edits es) ∧
      Dotless ((recovering known p).edits es).tokens.committed :=
  (recovering known p).edits_induction
    (P := fun s => Aligned known s ∧ Dotless s.tokens.committed)
    ⟨aligned_fresh known, by simp [Dotless]⟩ (fun _ e h => h.1.edit h.2 e) es

/-! ## The reply -/

/-- The chunks share out the tokens. -/
theorem Aligned.exists_groups (h : Aligned known s) :
    ∃ gs : List (List Token), gs.flatten = s.tokens.committed ∧
      List.Forall₂ Chunk.HasTokens (s.chunks.committed.map (·.chunk)) gs := by
  obtain ⟨w, os, htokens, -, -, -, hgroups⟩ := exists_phrases h.delivered
  refine ⟨groupsOf w os, ?_, ?_⟩
  · rw [flatten_groupsOf, htokens, h.inStep.outlined]
  · rw [h.inStep.chunked, map_chunk_chained]
    exact hgroups

/-- The path of a chunk that opens a module is spelled behind its `open`. -/
theorem Chunk.HasTokens.exists_path {c : Chunk} {g : List Token} {path : Option ModulePath}
    (h : c.HasTokens g) (hkind : c.kind = .open_ path) :
    ∃ o ts, g.filter (!·.isTrivia) = o :: ts ∧ o.isKeyword .open_ ∧
      path = ModulePath.ofTokens? ts := by
  rw [h.kind] at hkind
  exact ofTokens_eq_open_iff.1 hkind

/-- Without dots in its capitalised names, a chunk opens the root of its path. -/
theorem Chunk.HasTokens.component_eq_root {c : Chunk} {g : List Token} {path : ModulePath}
    (h : c.HasTokens g) (hdot : Dotless g) (hkind : c.kind = .open_ (some path)) :
    path.component = path.root := by
  obtain ⟨o, ts, hsig, -, hpath⟩ := h.exists_path hkind
  obtain ⟨bangs, t, us, rfl, -, ht, rfl⟩ := exists_of_ofTokens? hpath.symm
  have hmem : t ∈ g.filter (!·.isTrivia) := by simp [hsig]
  exact ModulePath.component_eq_root (hdot t (List.mem_of_mem_filter hmem) ht)

/-- The diagnostics of a state are those of its chunks. -/
theorem Aligned.reported (h : Aligned known s) (hdot : Dotless s.tokens.committed) :
    Reported known [] (s.chunks.committed.map (·.chunk))
      ((Session.diagnostics s : List Diagnostic).map toJson) := by
  obtain ⟨gs, hgs, hgroups⟩ := h.exists_groups
  have hroot : ∀ c ∈ s.chunks.committed.map (·.chunk), ∀ path,
      c.kind = .open_ (some path) → path.component = path.root := by
    intro c hc path hkind
    obtain ⟨g, hg, hcg⟩ := exists_group hgroups hc
    refine hcg.component_eq_root (fun t ht => hdot t ?_) hkind
    rw [← hgs]
    exact List.mem_flatten_of_mem hg ht
  have henvs : s.envs.committed
      = environments known {} [] (s.chunks.committed.map (·.chunk)) := by
    rw [h.inStep.chunked, map_chunk_chained]
    exact congrArg (·.envs.committed) h.inStep.eq_described
  have hnone : HasModules {} [] := by simp [HasModules, Env.lookup]
  rw [Session.diagnostics, henvs]
  exact reported_environments [] hnone hroot

/-- **Errors.**  After any run of edits, failing ones included, the reply to `errors`
    is what the chunks lack and nothing else.  The chunks that `open` or `module`
    heads, and no others, open or declare a module; each has the path or the name
    that its tokens spell. -/
theorem errors_reported {η : Type} (known : List String) (p : Outline → Bool) (es : List Edit)
    (host : Host η) (os : η) (session : Session Token Outline Chunk Env) :
    let L := recovering known p
    let s := L.edits es
    let cs := s.chunks.committed.map (·.chunk)
    (∃ reports, (Session.call L host (os, { session with analysis := s })
        Request.errors.encode).2 = .value (.arr reports) ∧
        ∀ rs, Reported known [] cs rs ↔ rs = reports) ∧
      ∃ gs : List (List Token), gs.flatten = s.tokens.committed ∧
        List.Forall₂ (fun c g => c.HasTokens g ∧
          (∀ path, c.kind = .open_ path → ∃ o ts, g.filter (!·.isTrivia) = o :: ts ∧
            o.isKeyword .open_ ∧ PathBehind ts path) ∧
          (∀ name, c.kind = .module_ name → ∃ m ts, g.filter (!·.isTrivia) = m :: ts ∧
            m.isKeyword .module_ ∧ NameBehind ts name) ∧
          ∀ t ts, g.filter (!·.isTrivia) = t :: ts →
            (t.isKeyword .open_ → ∃ path, c.kind = .open_ path) ∧
            (t.isKeyword .module_ → ∃ name, c.kind = .module_ name)) cs gs := by
  intro L s cs
  obtain ⟨hal, hdot⟩ := aligned_edits known p es
  have hreported := hal.reported hdot
  refine ⟨⟨(Session.diagnostics s : List Diagnostic).map toJson, ?_, fun rs => ?_⟩, ?_⟩
  · rw [call_errors]; rfl
  · constructor
    · intro h
      exact h.unique hreported
    · rintro rfl
      exact hreported
  · obtain ⟨gs, hgs, hgroups⟩ := hal.exists_groups
    refine ⟨gs, hgs, hgroups.imp fun c g hcg => ⟨hcg, fun path hkind => ?_, fun name hkind => ?_,
      fun t ts hsig => ⟨fun ht => ?_, fun ht => ?_⟩⟩⟩
    · obtain ⟨o, ts, hsig, ho, rfl⟩ := hcg.exists_path hkind
      exact ⟨o, ts, hsig, ho, pathBehind_ofTokens? ts⟩
    · rw [hcg.kind] at hkind
      obtain ⟨m, ts, hsig, hm, rfl⟩ := ofTokens_eq_module_iff.1 hkind
      exact ⟨m, ts, hsig, hm, nameBehind_find? ts⟩
    · rw [hcg.kind]
      exact ⟨_, ofTokens_eq_open_iff.2 ⟨t, ts, hsig, ht, rfl⟩⟩
    · rw [hcg.kind]
      exact ⟨_, ofTokens_eq_module_iff.2 ⟨t, ts, hsig, ht, rfl⟩⟩

/-- A module that a rewind took back is reported until it is declared again. -/
example : Session.diagnostics ((recovering ["List"] fun _ => true).edits
    [.extend "module A = x;; open A.B", .rewind (.offset 0),
      .extend "open! A.B.;; module A = x open A open List.X;; module"])
    = [(⟨.unboundModule "A", ⟨1, 0, 0⟩, ⟨1, 13, 13⟩⟩ : Diagnostic),
      ⟨.missingName, ⟨1, 47, 47⟩, ⟨1, 53, 53⟩⟩] := by
  decide +kernel

end PhraseServer
