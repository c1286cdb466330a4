/-
  Errors on the wire.

  An error is written as a bare array, like any value: what tells it apart is the
  string at its head.  A value headed by a string is a list of directories, which
  are absolute throughout a session, and no error is headed by a slash.

  * `tag?_of_decode`: a value written on a line keeps its head;
  * `handle_tag?`: only a list of directories is headed by a string;
  * `reply_told_apart`: a line is read as an error exactly when the reply is one.
-/
import PhraseServer.Proofs.Directories
import PhraseServer.Proofs.JsonText

namespace PhraseServer

open Wire (toJson)

/-! ## Heads -/

/-- The string that heads an array. -/
def Json.tag? : Json → Option String
  | .arr (.str t :: _) => some t
  | _ => none

theorem Json.eq_of_tag? {v : Json} {t : String} (h : v.tag? = some t) :
    ∃ vs, v = .arr (.str t :: vs) := by
  unfold tag? at h
  split at h <;> cases h
  exact ⟨_, rfl⟩

/-- A value that is written and read keeps its head. -/
theorem Json.tag?_of_decode {v w : Json} {t : String} (h : decode v.chars = some w)
    (hw : w.tag? = some t) : v.tag? = some t := by
  obtain ⟨ws, rfl⟩ := eq_of_tag? hw
  rw [decode, decodeWith] at h
  split at h
  · next w' rest hv =>
    split_ifs at h
    cases h
    rw [← List.append_nil v.chars] at hv
    obtain ⟨vs, rfl⟩ := eq_arr_of_value hv
    rfl
  · cases h

/-- The heads of errors. -/
def errorTags : List String := ["failure", "exception"]

namespace Reply

variable {r e e' : Reply}

theorem exists_tag? (he : e.isError) : ∃ t ∈ errorTags, e.toJson.tag? = some t := by
  cases e with
  | value v => cases he
  | failure m => exact ⟨"failure", by decide, rfl⟩
  | exception m => exact ⟨"exception", by decide, rfl⟩

theorem toJson_inj (he : e.isError) (he' : e'.isError) (h : e.toJson = e'.toJson) : e = e' := by
  cases e <;> cases e' <;> simp_all [isError, toJson]

/-- Errors read back. -/
theorem decode_toJson (he : e.isError) : Json.decode e.toJson.chars = some e.toJson := by
  cases e with
  | value v => cases he
  | failure m | exception m => exact Json.decode_pair _ m

/-- A reply that is an error, or a value without the head of one. -/
def Clear (r : Reply) : Prop := ∀ w, r = .value w → ∀ t ∈ errorTags, w.tag? ≠ some t

/-- A line is read as an error exactly when the reply is that error. -/
theorem Clear.decode_line_iff (h : r.Clear) (he : e.isError) :
    Json.decode r.line.toList = some e.toJson ↔ r = e := by
  rw [line, Json.encode, String.toList_ofList]
  constructor
  · intro hd
    cases r with
    | value w =>
      obtain ⟨t, ht, htag⟩ := exists_tag? he
      exact absurd (Json.tag?_of_decode hd htag) (h w rfl t ht)
    | failure m | exception m =>
      rw [decode_toJson rfl] at hd
      exact toJson_inj rfl he (Option.some.inj hd)
  · rintro rfl
    exact decode_toJson he

end Reply

/-! ## What requests are answered with -/

/-- An array of objects has no head. -/
theorem tag?_toJson_list {α : Type} [Wire α] (h : ∀ a : α, ∃ members, toJson a = .object members)
    (as : List α) : (toJson as).tag? = none := by
  cases as with
  | nil => rfl
  | cons a as =>
    obtain ⟨members, ha⟩ := h a
    change (Json.arr (toJson a :: as.map toJson)).tag? = none
    rw [ha]; rfl

theorem tag?_dump {s : State Token Outline Chunk Env} {kind : DumpKind} {w : Json}
    (h : Session.dump s kind = .ok w) : w.tag? = none := by
  cases kind with
  | tokens | outlines | chunks =>
    rw [Session.dump, encodeAll_wire] at h
    cases h
    exact tag?_toJson_list (fun _ => ⟨_, rfl⟩) _
  | env =>
    rw [Session.dump] at h
    cases he : s.currentEnv with
    | none => rw [he] at h; cases h; rfl
    | some env =>
      rw [he] at h
      cases h
      exact tag?_toJson_list (fun _ => ⟨_, rfl⟩) env.visible
  | sizes => cases h; rfl

namespace Session

variable {η : Type} {known : List String} {host : Host η} {os : η}
  {s : Session Token Outline Chunk Env}

/-- **Heads of answers.**  Only directories head an answer. -/
theorem handle_tag? {r : Request} {next : η × Session Token Outline Chunk Env} {w : Json}
    (h : s.handle (phraseLanguage known) host os r = .ok (next, w)) {t : String}
    (ht : w.tag? = some t) : ∃ kind, ∃ d ∈ s.search.dirs kind, d.lossy = t := by
  cases r with
  | tell text => rw [(eq_of_handle_tell h).2] at ht; cases ht
  | seek target =>
    obtain ⟨q, rfl⟩ := (eq_of_handle_seek h).2
    cases ht
  | line | reset => cases h; cases ht
  | which name =>
    simp only [handle] at h
    split at h <;> cases h
    cases ht
  | cd input =>
    simp only [handle] at h
    split at h <;> cases h
    cases ht
  | dump kind =>
    simp only [handle, shown] at h
    split at h <;> cases h
    next hd => rw [tag?_dump hd] at ht; cases ht
  | errors =>
    simp only [handle, shown, encodeAll_wire] at h
    cases h
    rw [tag?_toJson_list (fun _ => ⟨_, rfl⟩)] at ht
    cases ht
  | path kind command =>
    cases h
    cases command with
    | list =>
      obtain ⟨vs, hvs⟩ := Json.eq_of_tag? ht
      obtain ⟨d, ds, hds, hd, -⟩ := List.map_eq_cons_iff.1
        ((List.map_map ..).symm.trans (Json.arr.inj hvs))
      exact ⟨kind, d, hds ▸ List.mem_cons_self, Json.str.inj hd⟩
    | add _ | remove _ | reset => cases ht

/-! ## Runs -/

/-- Where all directories are absolute, no answer looks like an error. -/
theorem clear_call {c : η × Session Token Outline Chunk Env}
    (hc : ∀ kind, ∀ d ∈ c.2.search.dirs kind, d.isAbsolute) (v : Json) :
    (call (phraseLanguage known) host c v).2.Clear := by
  intro w hw t ht htag
  cases hd : Request.decode v with
  | error e => rw [call_of_malformed hd] at hw; cases hw
  | ok r =>
    cases hr : c.2.handle (phraseLanguage known) host c.1 r with
    | error e => rw [call_of_error hd hr] at hw; cases e <;> cases hw
    | ok out =>
      rw [call_of_ok hd hr] at hw
      cases hw
      -- the head is what is shown of a directory, so it begins with a slash
      obtain ⟨kind, d, hmem, rfl⟩ := handle_tag? hr htag
      have hslash : ∀ t ∈ errorTags, t.toList.head? ≠ some '/' := by decide
      exact hslash _ ht (Path.head?_lossy (hc kind d hmem))

end Session

open Session

/-- **Errors on the wire.**  Take a session of the phrase language that starts with
    absolute directories, any run of it, and the reply to any next value.  Its line
    is read as a pair headed by `failure` exactly when the reply is a failure, and
    the other string is its message; so for `exception`.  No value has the head of
    an error. -/
theorem reply_told_apart {η : Type} (known : List String) (search : Search) (dir : Path)
    (hsearch : ∀ kind, ∀ d ∈ search.dirs kind, d.isAbsolute) (hdir : dir.isAbsolute)
    (os : η) (is : List (Host η × Json)) (host : Host η) (v : Json) :
    let c := Machine.after (serve (phraseLanguage known)) (os, Session.start search dir) is
    let reply := (serve (phraseLanguage known) c (host, v)).2
    (∀ m, Json.decode reply.line.toList = some (.arr [.str "failure", .str m]) ↔
      reply = .failure m) ∧
    (∀ m, Json.decode reply.line.toList = some (.arr [.str "exception", .str m]) ↔
      reply = .exception m) ∧
    ∀ w, reply = .value w →
      ∀ vs, w ≠ .arr (.str "failure" :: vs) ∧ w ≠ .arr (.str "exception" :: vs) := by
  intro c reply
  have hclosed : ∀ i ∈ is, Closed i.1.home (fun d => d.isAbsolute = true)
      fun dirs => ∀ d ∈ dirs, d.isAbsolute := fun i _ =>
    closed_forall fun hcwd input => (Path.normal_resolveDir hcwd i.1.home input).absolute
  have hc := Within.run (phraseLanguage known) hclosed hsearch
    (Within.start hdir hsearch) (c := (os, Session.start search dir))
  have hclear : reply.Clear := clear_call hc.dirs v
  refine ⟨fun m => hclear.decode_line_iff (e := .failure m) rfl,
    fun m => hclear.decode_line_iff (e := .exception m) rfl, ?_⟩
  intro w hw vs
  constructor
  · rintro rfl
    exact hclear _ hw "failure" (by decide) rfl
  · rintro rfl
    exact hclear _ hw "exception" (by decide) rfl

/-- A directory named like an error is listed, then a value that is no request is
    sent. -/
theorem reply_told_apart_failure :
    let host := World.host none
    let add := (host, (Request.path .source (.add "failure")).encode)
    let c := Machine.after (serve (phraseLanguage [])) ({}, Session.start {} (.ofText "/")) [add]
    let list := (serve (phraseLanguage []) c (host, (Request.path .source .list).encode)).2
    let refused := (serve (phraseLanguage []) c (host, .null)).2
    list.line = "[\"/failure\"]" ∧
      Json.decode refused.line.toList = some (.arr [.str "failure", .str "malformed request"]) := by
  intro host add
  have hdirs : ∀ kind, ∀ d ∈ ({} : Search).dirs kind, d.isAbsolute := by
    rintro (_ | _) <;> exact List.forall_mem_nil _
  have h := (reply_told_apart [] {} (.ofText "/") hdirs (by decide) ({} : World) [add] host
    .null).1 "malformed request"
  refine ⟨by decide +kernel, h.2 ?_⟩
  exact congrArg Prod.snd (call_of_malformed (e := .malformed) rfl)

end PhraseServer
