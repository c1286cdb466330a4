/-
  The two sides of a session.

  Requests about the buffer act on the analysis alone; requests about modules and
  directories act on the surroundings alone: the search, the working directory and
  the host.  So what one side is told, and when, does not show on the other.

  A request comes with the host as it finds it, since files may come and go
  between requests.

  * `Machine.Confined.run`: where the inputs of one side see and change only a
    view, two runs with the same inputs of that side give it the same answers and
    leave the same view;
  * `call_analysis`, `call_environment`: what a request of either side sees and
    changes;
  * `sides_independent`: the requests of the other side may be left out, added or
    moved.
-/
import PhraseServer.Proofs.Atomicity

namespace PhraseServer

open Wire (toJson)

/-! ## Machines seen from one side -/

section
variable {σ ι ο α β : Type}

/-- What answers inputs `ι` with `ο`, over states `σ`. -/
abbrev Machine (σ ι ο : Type) := σ → ι → σ × ο

namespace Machine

/-- The state behind inputs. -/
def after (m : Machine σ ι ο) (c : σ) (is : List ι) : σ := is.foldl (fun c i => (m c i).1) c

/-- The answers to the inputs that `mine` keeps, each behind what is kept of its
    input. -/
def answers (m : Machine σ ι ο) (mine : ι → Option β) : σ → List ι → List (β × ο)
  | _, [] => []
  | c, i :: is =>
    match mine i with
    | some b => (b, (m c i).2) :: answers m mine (m c i).1 is
    | none => answers m mine (m c i).1 is

variable {m : Machine σ ι ο} {view : σ → α} {mine : ι → Option β} {c c' : σ} {is js : List ι}

theorem after_append (is js : List ι) : after m c (is ++ js) = after m (after m c is) js :=
  List.foldl_append

theorem answers_append (is js : List ι) :
    answers m mine c (is ++ js) = answers m mine c is ++ answers m mine (after m c is) js := by
  induction is generalizing c with
  | nil => rfl
  | cons i is ih =>
    rw [List.cons_append, answers, answers, after, List.foldl_cons]
    cases mine i with
    | none => exact ih
    | some b => exact congrArg (_ :: ·) ih

/-- Inputs that `mine` drops do not touch the view; the others see and change
    nothing else, and only what is kept of them matters. -/
structure Confined (m : Machine σ ι ο) (view : σ → α) (mine : ι → Option β) : Prop where
  foreign : ∀ {c i}, mine i = none → view (m c i).1 = view c
  own : ∀ {c c' i i' b}, mine i = some b → mine i' = some b → view c = view c' →
    view (m c i).1 = view (m c' i').1 ∧ (m c i).2 = (m c' i').2

namespace Confined

/-- Foreign inputs get no answer and leave the view. -/
theorem run_foreign (h : Confined m view mine) (hi : ∀ i ∈ is, mine i = none) :
    answers m mine c is = [] ∧ view (after m c is) = view c := by
  induction is generalizing c with
  | nil => exact ⟨rfl, rfl⟩
  | cons i is ih =>
    have hn := hi i List.mem_cons_self
    obtain ⟨ha, hv⟩ := ih (c := (m c i).1) fun j hj => hi j (List.mem_cons_of_mem _ hj)
    simp only [answers, hn]
    exact ⟨ha, hv.trans (h.foreign hn)⟩

/-- **Independence of foreign inputs.** -/
theorem run (h : Confined m view mine) (hc : view c = view c')
    (hi : is.filterMap mine = js.filterMap mine) :
    answers m mine c is = answers m mine c' js ∧
      view (after m c is) = view (after m c' js) := by
  induction is generalizing c c' js with
  | nil =>
    obtain ⟨ha, hv⟩ := h.run_foreign (c := c') (List.filterMap_eq_nil_iff.1 hi.symm)
    exact ⟨ha.symm, hc.trans hv.symm⟩
  | cons i is ih =>
    cases hm : mine i with
    | none =>
      rw [List.filterMap_cons_none hm] at hi
      simp only [answers, hm]
      exact ih ((h.foreign hm).trans hc) hi
    | some b =>
      -- the other run meets an equal input behind some foreign ones
      rw [List.filterMap_cons_some hm] at hi
      obtain ⟨js₁, j, js₂, rfl, hjs₁, hj, hjs₂⟩ := List.filterMap_eq_cons_iff.1 hi.symm
      obtain ⟨ha, hv⟩ := h.run_foreign (c := c') hjs₁
      obtain ⟨hview, hreply⟩ := h.own hm hj (hc.trans hv.symm)
      obtain ⟨has, hvs⟩ := ih hview hjs₂.symm
      rw [answers_append, after_append, ha]
      simp only [answers, hm, hj, hreply, List.nil_append]
      exact ⟨congrArg (_ :: ·) has, hvs⟩

end Confined

end Machine

end

/-! ## Sides -/

/-- The two sides of a session. -/
inductive Side where
  /-- Requests about the buffer. -/
  | analysis
  /-- Requests about modules and directories. -/
  | environment
deriving DecidableEq, Repr

namespace Side

/-- The commands of a side. -/
def commands : Side → List String
  | analysis => ["tell", "line", "seek", "reset", "dump", "errors"]
  | environment => ["which", "source_path", "build_path", "cd"]

/-- Whether a value is headed by a command of a side, whatever its arguments. -/
def asks (side : Side) : Json → Bool
  | .arr (.str name :: _) => side.commands.contains name
  | _ => false

end Side

theorem noArguments_eq_some {r r' : Request} {args : List Json}
    (h : noArguments r args = some r') : r' = r := by
  cases args with
  | nil => exact (Option.some.inj h).symm
  | cons v args => cases h

theorem oneString_eq_some {f : String → Option Request} {r : Request} {args : List Json}
    (h : oneString f args = some r) : ∃ s, f s = some r := by
  unfold oneString at h
  split at h
  · exact ⟨_, h⟩
  · cases h

/-- A command reads its arguments as a request of its own name. -/
theorem command_of_mem_commands {name : String} {read : List Json → Option Request}
    (h : (name, read) ∈ commands) {args : List Json} {r : Request} (hr : read args = some r) :
    r.command = name := by
  simp only [commands, List.mem_cons, Prod.mk.injEq, List.not_mem_nil, or_false] at h
  obtain ⟨rfl, rfl⟩ | ⟨rfl, rfl⟩ | ⟨rfl, rfl⟩ | ⟨rfl, rfl⟩ | ⟨rfl, rfl⟩ | ⟨rfl, rfl⟩ | ⟨rfl, rfl⟩ |
    ⟨rfl, rfl⟩ | ⟨rfl, rfl⟩ | ⟨rfl, rfl⟩ := h
  · obtain ⟨text, hs⟩ := oneString_eq_some hr; cases hs; rfl
  · rw [noArguments_eq_some hr]; rfl
  · simp only at hr
    split at hr
    · obtain ⟨target, -, rfl⟩ := Option.map_eq_some_iff.1 hr; rfl
    · cases hr
  · rw [noArguments_eq_some hr]; rfl
  · obtain ⟨name, hs⟩ := oneString_eq_some hr; cases hs; rfl
  · obtain ⟨command, -, rfl⟩ := Option.map_eq_some_iff.1 hr; rfl
  · obtain ⟨command, -, rfl⟩ := Option.map_eq_some_iff.1 hr; rfl
  · obtain ⟨path, hs⟩ := oneString_eq_some hr; cases hs; rfl
  · obtain ⟨name, hs⟩ := oneString_eq_some hr
    obtain ⟨kind, -, rfl⟩ := Option.map_eq_some_iff.1 hs; rfl
  · rw [noArguments_eq_some hr]; rfl

namespace Request

/-- A request is headed by the name of its command. -/
theorem eq_of_decode {v : Json} {r : Request} (h : decode v = .ok r) :
    ∃ args, v = .arr (.str r.command :: args) := by
  unfold decode at h
  split at h
  · next name args =>
    split at h
    · cases h
    · next read hread =>
      split at h
      · next r' hr =>
        cases h
        obtain ⟨as, bs, hcs, -⟩ := List.lookup_eq_some_iff.1 hread
        have hmem : (name, read) ∈ commands := by rw [hcs]; simp
        exact ⟨args, by rw [command_of_mem_commands hmem hr]⟩
      · cases h
  · cases h

theorem asks_of_decode {v : Json} {r : Request} (h : decode v = .ok r) (side : Side) :
    side.asks v = side.commands.contains r.command := by
  obtain ⟨args, rfl⟩ := eq_of_decode h
  rfl

/-- Every request is of one side. -/
theorem mem_commands (r : Request) :
    r.command ∈ Side.analysis.commands ∨ r.command ∈ Side.environment.commands := by
  cases r with
  | tell _ | line | seek _ | reset | dump _ | errors => left; simp [command, Side.commands]
  | which _ | cd _ => right; simp [command, Side.commands]
  | path kind _ => right; cases kind <;> simp [command, Side.commands]

end Request

/-! ## What each side sees and changes -/

/-- What surrounds the analysis of a session on a host. -/
structure Surroundings (η : Type) where
  os : η
  search : Search
  startup : Search
  dir : Path

section
variable {τ ω κ ρ δ ε η : Type}

/-- The session with an analysis in its surroundings. -/
def Surroundings.session (e : Surroundings η) (a : State τ ω κ ρ) : Session τ ω κ ρ :=
  ⟨a, e.search, e.startup, e.dir⟩

/-- The surroundings of a session on a host. -/
def surroundings (c : η × Session τ ω κ ρ) : Surroundings η :=
  ⟨c.1, c.2.search, c.2.startup, c.2.dir⟩

namespace Session

theorem pathCommand_session (home : Option Path) (e : Surroundings η) (kind : PathKind)
    (command : PathCommand) : ∃ search w, ∀ a : State τ ω κ ρ,
      (e.session a).pathCommand home kind command = ({ e with search }.session a, w) := by
  cases command with
  | list => exact ⟨e.search, toJson ((e.search.dirs kind).map (·.lossy)), fun _ => rfl⟩
  | add dir =>
    exact ⟨e.search.setDirs kind (addDir (e.search.dirs kind) (Path.resolveDir home e.dir dir)),
      .bool true, fun _ => rfl⟩
  | remove dir =>
    exact ⟨e.search.setDirs kind (removeDir (e.search.dirs kind) (Path.resolveDir home e.dir dir)),
      .bool true, fun _ => rfl⟩
  | reset => exact ⟨e.search.setDirs kind (e.startup.dirs kind), .bool true, fun _ => rfl⟩

variable [Spanned τ] [Spanned ω] [Spanned κ] [DecidableEq κ]
  [Encode τ] [Encode ω] [Encode κ] [Encode ρ] [Diagnose ρ δ] [Encode δ]
  (L : Language τ ω κ ρ ε)

/-- What a request about the buffer does is decided by the analysis, and it
    changes nothing else. -/
theorem handle_analysis {r : Request} (hr : r.command ∈ Side.analysis.commands)
    (a : State τ ω κ ρ) :
    ∃ out : Except (CommandError ε) (State τ ω κ ρ × Json), ∀ (host : Host η) (e : Surroundings η),
      (e.session a).handle L host e.os r = out.map fun (a', w) => ((e.os, e.session a'), w) := by
  cases r with
  | tell text =>
    cases ho : (L.extend a text).outcome with
    | ok u =>
      exact ⟨.ok ((L.extend a text).state, .bool true),
        fun host e => handle_tell_of_ok L host e.os (e.session a) ho⟩
    | error cause =>
      exact ⟨.error (.stage cause),
        fun host e => (handle_eq_stage_iff L host e.os (e.session a)).2 (.tell ho)⟩
  | seek target =>
    cases ho : (L.rewind a target).outcome with
    | ok q =>
      exact ⟨.ok ((L.rewind a target).state, toJson q),
        fun host e => handle_seek_of_ok L host e.os (e.session a) ho⟩
    | error cause =>
      exact ⟨.error (.stage cause),
        fun host e => (handle_eq_stage_iff L host e.os (e.session a)).2 (.seek ho)⟩
  | line => exact ⟨.ok (a, toJson a.position), fun _ _ => rfl⟩
  | reset => exact ⟨.ok ({}, .bool true), fun _ _ => rfl⟩
  | dump kind =>
    cases hd : dump a kind with
    | ok w => exact ⟨.ok (a, w), fun host e => shown_of_ok hd⟩
    | error reason => exact ⟨.error (.encoding reason), fun host e => shown_of_error hd⟩
  | errors =>
    cases hd : encodeAll (diagnostics a) with
    | ok w => exact ⟨.ok (a, w), fun host e => shown_of_ok hd⟩
    | error reason => exact ⟨.error (.encoding reason), fun host e => shown_of_error hd⟩
  | which _ | cd _ => simp [Request.command, Side.commands] at hr
  | path kind _ => cases kind <;> simp [Request.command, Side.commands] at hr

/-- What a request about modules and directories does is decided by the
    surroundings, and it changes nothing else. -/
theorem handle_environment {r : Request} (hr : r.command ∈ Side.environment.commands)
    (host : Host η) (e : Surroundings η) :
    ∃ out : Except (CommandError ε) (Surroundings η × Json), ∀ a : State τ ω κ ρ,
      (e.session a).handle L host e.os r
        = out.map fun (e', w) => ((e'.os, e'.session a), w) := by
  cases r with
  | which name =>
    cases hw : e.search.which (host.isFile e.os) name with
    | some path =>
      refine ⟨.ok (e, .str path.lossy), fun a => ?_⟩
      simp only [handle, Surroundings.session, hw]; rfl
    | none =>
      refine ⟨.error (.moduleNotFound name), fun a => ?_⟩
      simp only [handle, Surroundings.session, hw]; rfl
  | cd path =>
    cases hc : host.enter e.os (Path.resolveDir host.home e.dir path) with
    | ok os =>
      refine ⟨.ok ({ e with os, dir := Path.resolveDir host.home e.dir path }, .bool true),
        fun a => ?_⟩
      simp only [handle, Surroundings.session, hc]; rfl
    | error cause =>
      refine ⟨.error (.os cause), fun a => ?_⟩
      simp only [handle, Surroundings.session, hc]; rfl
  | path kind command =>
    obtain ⟨search, w, hp⟩ := pathCommand_session host.home e kind command
    refine ⟨.ok ({ e with search }, w), fun a => ?_⟩
    rw [handle, hp]; rfl
  | _ => simp [Request.command, Side.commands] at hr

variable [ToString ε] {v : Json}

/-- **Requests about the buffer.** -/
theorem call_analysis (hv : Side.analysis.asks v) (a : State τ ω κ ρ) :
    ∃ a' reply, ∀ (host : Host η) (e : Surroundings η),
      call L host (e.os, e.session a) v = ((e.os, e.session a'), reply) := by
  cases hd : Request.decode v with
  | error cause => exact ⟨a, _, fun host e => call_of_malformed hd⟩
  | ok r =>
    rw [Request.asks_of_decode hd, List.contains_iff_mem] at hv
    obtain ⟨out, hout⟩ := handle_analysis L hv a
    cases out with
    | ok out => exact ⟨_, _, fun host e => call_of_ok hd (hout host e)⟩
    | error cause => exact ⟨a, _, fun host e => call_of_error hd (hout host e)⟩

/-- **Requests about modules and directories.** -/
theorem call_environment (hv : Side.environment.asks v) (host : Host η) (e : Surroundings η) :
    ∃ (e' : Surroundings η) (reply : Reply), ∀ a : State τ ω κ ρ,
      call L host (e.os, e.session a) v = ((e'.os, e'.session a), reply) := by
  cases hd : Request.decode v with
  | error cause => exact ⟨e, _, fun a => call_of_malformed hd⟩
  | ok r =>
    rw [Request.asks_of_decode hd, List.contains_iff_mem] at hv
    obtain ⟨out, hout⟩ := handle_environment L hv host e
    cases out with
    | ok out => exact ⟨_, _, fun a => call_of_ok hd (hout a)⟩
    | error cause => exact ⟨e, _, fun a => call_of_error hd (hout a)⟩

/-- Other values are no requests, and change nothing. -/
theorem call_fst_of_not_asks (ha : ¬ Side.analysis.asks v) (he : ¬ Side.environment.asks v)
    (host : Host η) (c : η × Session τ ω κ ρ) : (call L host c v).1 = c := by
  cases hd : Request.decode v with
  | error cause => rw [call_of_malformed hd]
  | ok r =>
    rw [Request.asks_of_decode hd, List.contains_iff_mem] at ha he
    exact absurd r.mem_commands (not_or.2 ⟨ha, he⟩)

/-! ## Runs -/

/-- Serves a request on the host that it comes with. -/
def serve : Machine (η × Session τ ω κ ρ) (Host η × Json) Reply := fun c i => call L i.1 c i.2

end Session

/-- What `keep` leaves of a request, if it is of a side. -/
def Side.part {β : Type} (side : Side) (keep : Host η × Json → β) (i : Host η × Json) : Option β :=
  if side.asks i.2 then some (keep i) else none

/-- The requests about the buffer. -/
abbrev analysisPart : Host η × Json → Option Json := Side.analysis.part Prod.snd

/-- The requests about modules and directories, with their hosts. -/
abbrev environmentPart : Host η × Json → Option (Host η × Json) := Side.environment.part id

section
variable {β : Type} {side : Side} {keep : Host η × Json → β} {i : Host η × Json} {b : β}

theorem Side.part_eq_some (h : side.part keep i = some b) : side.asks i.2 ∧ keep i = b := by
  unfold part at h
  split_ifs at h with hs
  exact ⟨hs, Option.some.inj h⟩

theorem Side.part_eq_none (h : side.part keep i = none) : ¬ side.asks i.2 := by
  unfold part at h
  split_ifs at h with hs
  exact hs

end

variable [Spanned τ] [Spanned ω] [Spanned κ] [DecidableEq κ]
  [Encode τ] [Encode ω] [Encode κ] [Encode ρ] [Diagnose ρ δ] [Encode δ] [ToString ε]
  (L : Language τ ω κ ρ ε)

open Session

/-- The analysis is the view of the requests about the buffer. -/
theorem confined_analysis :
    Machine.Confined (serve L : η × Session τ ω κ ρ → _) (·.2.analysis) analysisPart where
  foreign {c i} hi := by
    by_cases he : Side.environment.asks i.2
    · obtain ⟨e', reply, hc⟩ := call_environment L he i.1 (surroundings c)
      exact congrArg (·.1.2.analysis) (hc c.2.analysis)
    · exact congrArg (·.2.analysis) (call_fst_of_not_asks L (Side.part_eq_none hi) he i.1 c)
  own {c c' i i' v} hi hi' hview := by
    obtain ⟨ha, rfl⟩ := Side.part_eq_some hi
    obtain ⟨-, hv⟩ := Side.part_eq_some hi'
    obtain ⟨a, reply, hc⟩ := call_analysis L ha c.2.analysis
    have h₁ : serve L c i = ((c.1, (surroundings c).session a), reply) := hc i.1 (surroundings c)
    have h₂ : serve L c' i' = ((c'.1, (surroundings c').session a), reply) := by
      rw [hview, ← hv] at hc
      exact hc i'.1 (surroundings c')
    rw [h₁, h₂]
    exact ⟨rfl, rfl⟩

/-- The surroundings are the view of the requests about modules and directories. -/
theorem confined_environment :
    Machine.Confined (serve L : η × Session τ ω κ ρ → _) surroundings environmentPart where
  foreign {c i} hi := by
    by_cases ha : Side.analysis.asks i.2
    · obtain ⟨a, reply, hc⟩ := call_analysis L ha c.2.analysis
      exact congrArg (surroundings ·.1) (hc i.1 (surroundings c))
    · exact congrArg surroundings (call_fst_of_not_asks L ha (Side.part_eq_none hi) i.1 c)
  own {c c' i i' b} hi hi' hview := by
    obtain ⟨he, hb⟩ := Side.part_eq_some hi
    obtain rfl : i = i' := hb.trans (Side.part_eq_some hi').2.symm
    obtain ⟨e, reply, hc⟩ := call_environment L he i.1 (surroundings c)
    have h₁ : serve L c i = ((e.os, e.session c.2.analysis), reply) := hc c.2.analysis
    have h₂ : serve L c' i = ((e.os, e.session c'.2.analysis), reply) := by
      rw [hview] at hc
      exact hc c'.2.analysis
    rw [h₁, h₂]
    exact ⟨rfl, rfl⟩

/-- **Independence of the two sides.**  Take two runs of a session, on any values.
    If they hold the same requests about the buffer, in the same order, these get
    the same answers and the analysis is the same in the end, whatever else is
    asked in between and on whatever hosts.  If they hold the same requests about
    modules and directories, with the same hosts, these get the same answers, and
    the search, the working directory and the state of the host are the same in
    the end. -/
theorem sides_independent (c : η × Session τ ω κ ρ) (is js : List (Host η × Json)) :
    (is.filterMap analysisPart = js.filterMap analysisPart →
      Machine.answers (serve L) analysisPart c is
        = Machine.answers (serve L) analysisPart c js ∧
      (Machine.after (serve L) c is).2.analysis
        = (Machine.after (serve L) c js).2.analysis) ∧
    (is.filterMap environmentPart = js.filterMap environmentPart →
      Machine.answers (serve L) environmentPart c is
        = Machine.answers (serve L) environmentPart c js ∧
      surroundings (Machine.after (serve L) c is)
        = surroundings (Machine.after (serve L) c js)) := by
  constructor
  · intro h
    exact (confined_analysis L).run rfl h
  · intro h
    exact (confined_environment L).run rfl h

/-- Requests that add a directory, fail to enter one and are malformed, left out on
    one side and moved on the other. -/
theorem sides_independent_lib :
    let L := phraseLanguage []
    let c : World × Session Token Outline Chunk Env := ({}, Session.start {} (.ofText "/"))
    let ask := fun v => (World.host none, v)
    let tell := ask (Request.tell "let x = 1;;").encode
    let line := ask Request.line.encode
    let add := ask (Request.path .source (.add "lib")).encode
    let cd := ask (Request.cd "gone").encode
    let malformed := ask (.arr [.str "cd", .null])
    Machine.answers (serve L) analysisPart c [add, tell, cd, malformed, line]
        = Machine.answers (serve L) analysisPart c [tell, line] ∧
      surroundings (Machine.after (serve L) c [add, tell, cd, malformed, line])
        = surroundings (Machine.after (serve L) c [line, add, cd, tell, malformed]) := by
  intro L c ask tell line add cd malformed
  constructor
  · exact ((sides_independent L c [add, tell, cd, malformed, line] [tell, line]).1 rfl).1
  · exact ((sides_independent L c [add, tell, cd, malformed, line]
      [line, add, cd, tell, malformed]).2 rfl).2

end

end PhraseServer
