/-
  Requests that fail leave no trace.

  An operation of the analysis that fails may leave its logs half changed.  A
  session keeps none of it: the state that a failing request leaves is the one it
  found.

  * `handle_eq_stage_iff`: a stage fails exactly when a text is told or a target
    sought and the operation fails;
  * `call_atomic`: a refused request changes nothing, only failing stages raise
    exceptions, and an operation that succeeds is all that changes.
-/
import Mathlib.Tactic.Common
import PhraseServer.Proofs.Edits
import PhraseServer.Session

namespace PhraseServer

open Wire (toJson)

namespace CommandError

variable {ε : Type} [ToString ε]

/-- Only the error of a stage becomes an exception. -/
theorem reply_eq_exception_iff {e : CommandError ε} {m : String} :
    e.reply = .exception m ↔ ∃ cause, e = .stage cause ∧ m = toString cause := by
  cases e with
  | stage cause => simp [reply, eq_comm]
  | _ => simp [reply]

end CommandError

variable {τ ω κ ρ δ ε η : Type}

/-! ## Keeping and dropping what an operation leaves -/

namespace Session

variable {s : Session τ ω κ ρ}

section
variable {α : Type} {run : Run τ ω κ ρ ε α}

theorem commit_of_ok {a : α} (h : run.outcome = .ok a) :
    s.commit run = .ok ({ s with analysis := run.state }, a) := by
  simp only [commit, h]

theorem commit_of_error {e : StageError ε} (h : run.outcome = .error e) :
    s.commit run = .error (.stage e) := by
  simp only [commit, h]

end

section
variable {os : η} {answer : Except String Json}

theorem shown_of_ok {w : Json} (h : answer = .ok w) :
    (s.shown os answer : Except (CommandError ε) _) = .ok ((os, s), w) := by
  rw [h]; rfl

theorem shown_of_error {reason : String} (h : answer = .error reason) :
    (s.shown os answer : Except (CommandError ε) _) = .error (.encoding reason) := by
  rw [h]; rfl

end

end Session

/-! ## Requests -/

variable [Spanned τ] [Spanned ω] [Spanned κ] [DecidableEq κ]

/-- `L.Refuses a r e`: a request asks of the analysis `a` an operation that fails
    with `e` in a stage. -/
inductive Language.Refuses (L : Language τ ω κ ρ ε) (a : State τ ω κ ρ) :
    Request → StageError ε → Prop
  | tell {text : String} {e : StageError ε} :
      (L.extend a text).outcome = .error e → Refuses L a (.tell text) e
  | seek {target : SeekTarget} {e : StageError ε} :
      (L.rewind a target).outcome = .error e → Refuses L a (.seek target) e

namespace Session

variable [Encode τ] [Encode ω] [Encode κ] [Encode ρ] [Diagnose ρ δ] [Encode δ]
  (L : Language τ ω κ ρ ε) (host : Host η) (os : η) (s : Session τ ω κ ρ)

theorem handle_tell_of_ok {text : String} (h : (L.extend s.analysis text).outcome = .ok ()) :
    s.handle L host os (.tell text)
      = .ok ((os, { s with analysis := (L.extend s.analysis text).state }), .bool true) := by
  rw [handle, commit_of_ok h]; rfl

theorem handle_seek_of_ok {target : SeekTarget} {q : Position}
    (h : (L.rewind s.analysis target).outcome = .ok q) :
    s.handle L host os (.seek target)
      = .ok ((os, { s with analysis := (L.rewind s.analysis target).state }), toJson q) := by
  rw [handle, commit_of_ok h]; rfl

/-- **Failing stages.**  A request fails with the error of a stage exactly when
    the operation that it asks for does. -/
theorem handle_eq_stage_iff {r : Request} {e : StageError ε} :
    s.handle L host os r = .error (.stage e) ↔ L.Refuses s.analysis r e := by
  constructor
  · intro h
    cases r with
    | tell text =>
      cases ho : (L.extend s.analysis text).outcome with
      | ok u => rw [handle_tell_of_ok L host os s ho] at h; cases h
      | error e' =>
        rw [handle, commit_of_error ho] at h
        cases h
        exact .tell ho
    | seek target =>
      cases ho : (L.rewind s.analysis target).outcome with
      | ok q => rw [handle_seek_of_ok L host os s ho] at h; cases h
      | error e' =>
        rw [handle, commit_of_error ho] at h
        cases h
        exact .seek ho
    | which _ | cd _ | dump _ | errors =>
      simp only [handle, shown] at h
      split at h <;> cases h
    | line | reset | path _ _ => cases h
  · rintro (⟨ho⟩ | ⟨ho⟩)
    · rw [handle, commit_of_error ho]; rfl
    · rw [handle, commit_of_error ho]; rfl

/-! ## Calls -/

variable [ToString ε] {L host os s} {v : Json}

theorem call_of_malformed {e : RequestError} (h : Request.decode v = .error e) :
    call L host (os, s) v = ((os, s), .failure e.message) := by
  simp only [call, h, CommandError.reply]

theorem call_of_ok {r : Request} {next : η × Session τ ω κ ρ} {w : Json}
    (h : Request.decode v = .ok r) (hr : s.handle L host os r = .ok (next, w)) :
    call L host (os, s) v = (next, .value w) := by
  simp only [call, h, hr]

theorem call_of_error {r : Request} {e : CommandError ε} (h : Request.decode v = .ok r)
    (hr : s.handle L host os r = .error e) : call L host (os, s) v = ((os, s), e.reply) := by
  simp only [call, h, hr]

/-- A refused request changes nothing. -/
theorem call_fst_of_isError (h : (call L host (os, s) v).2.isError) :
    (call L host (os, s) v).1 = (os, s) := by
  cases hd : Request.decode v with
  | error e => rw [call_of_malformed hd]
  | ok r =>
    cases hr : s.handle L host os r with
    | ok next => rw [call_of_ok hd hr] at h; cases h
    | error e => rw [call_of_error hd hr]

/-- Exceptions are the errors of stages. -/
theorem call_snd_eq_exception_iff {m : String} : (call L host (os, s) v).2 = .exception m ↔
    ∃ r e, Request.decode v = .ok r ∧ L.Refuses s.analysis r e ∧ m = toString e := by
  constructor
  · intro h
    cases hd : Request.decode v with
    | error e => rw [call_of_malformed hd] at h; cases h
    | ok r =>
      cases hr : s.handle L host os r with
      | ok next => rw [call_of_ok hd hr] at h; cases h
      | error e =>
        rw [call_of_error hd hr] at h
        obtain ⟨cause, rfl, hm⟩ := CommandError.reply_eq_exception_iff.1 h
        exact ⟨r, cause, rfl, (handle_eq_stage_iff L host os s).1 hr, hm⟩
  · rintro ⟨r, e, hd, href, rfl⟩
    rw [call_of_error hd ((handle_eq_stage_iff L host os s).2 href)]
    rfl

end Session

/-- **Atomic requests.**  Whatever the language, the host and the session: a
    request that is answered with a failure or an exception changes nothing.  It is
    an exception, with the text of the error, exactly when the value is a `tell` or
    a `seek` whose operation fails in a stage.  When the operation succeeds, its
    state is the new analysis, and nothing else changes. -/
theorem call_atomic [Encode τ] [Encode ω] [Encode κ] [Encode ρ] [Diagnose ρ δ] [Encode δ]
    [ToString ε] (L : Language τ ω κ ρ ε) (host : Host η) (os : η) (s : Session τ ω κ ρ)
    (v : Json) :
    let answer := Session.call L host (os, s) v
    (answer.2.isError → answer.1 = (os, s)) ∧
    (∀ m, answer.2 = .exception m ↔
      ∃ r e, Request.decode v = .ok r ∧ L.Refuses s.analysis r e ∧ m = toString e) ∧
    (∀ text, Request.decode v = .ok (.tell text) → (L.extend s.analysis text).outcome = .ok () →
      answer = ((os, { s with analysis := (L.extend s.analysis text).state }),
        .value (.bool true))) ∧
    ∀ target q, Request.decode v = .ok (.seek target) →
      (L.rewind s.analysis target).outcome = .ok q →
      answer = ((os, { s with analysis := (L.rewind s.analysis target).state }),
        .value (toJson q)) := by
  intro answer
  refine ⟨Session.call_fst_of_isError, fun m => Session.call_snd_eq_exception_iff, ?_, ?_⟩
  · intro text hd ho
    exact Session.call_of_ok hd (Session.handle_tell_of_ok L host os s ho)
  · intro target q hd ho
    exact Session.call_of_ok hd (Session.handle_seek_of_ok L host os s ho)

/-- A text that the typer refuses is told to a session with an analysis: its
    operation would leave other logs, the session keeps its own. -/
theorem call_atomic_refusing :
    let c := (Session.call Language.refusing (World.host none) ({}, Session.start {} (.ofText "/"))
      (Request.tell "a;;").encode).1
    (Language.refusing.extend c.2.analysis "b").state ≠ c.2.analysis ∧
      (Session.call Language.refusing (World.host none) c (Request.tell "b").encode).1 = c ∧
      ∃ m, (Session.call Language.refusing (World.host none) c (Request.tell "b").encode).2
        = .exception m := by
  intro c
  have hout : (Language.refusing.extend c.2.analysis "b").outcome
      = .error ⟨.typer, .unterminatedString ⟨1, 3, 3⟩⟩ := by decide +kernel
  obtain ⟨hatomic, hexc, -⟩ := call_atomic Language.refusing (World.host none) c.1 c.2
    (Request.tell "b").encode
  have he := (hexc _).2 ⟨_, _, rfl, .tell hout, rfl⟩
  exact ⟨by decide +kernel, hatomic (by rw [he]; rfl), _, he⟩

end PhraseServer
