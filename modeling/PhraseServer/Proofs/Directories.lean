/-
  The lists of directories.

  A session goes from directory to directory, and its lists of directories are
  edited on the way.  `Listing` says what such a list always is: it holds normal
  paths, each once.  `Edits` says what a command makes of one.

  * `call_moves`: what one request can do to a session;
  * `Within.run`: a property of lists that edits keep holds of both lists throughout,
    if it does at the start;
  * `Closed.load`: so it does of the lists of all settings;
  * `directories_run`: the lists of a session are listings, which is what makes each
    command do what it says.
-/
import Mathlib.Data.List.Nodup
import PhraseServer.Proofs.Independence
import PhraseServer.Proofs.PathTexts
import PhraseServer.Settings

namespace PhraseServer

open Wire (toJson)

/-! ## Listings -/

/-- A list of normal paths, each listed once. -/
structure Listing (dirs : List Path) : Prop where
  normal : ∀ d ∈ dirs, d.Normal
  distinct : dirs.Pairwise fun p q => ¬ p.same q

namespace Listing

variable {dirs : List Path} {d : Path}

theorem nil : Listing [] := ⟨List.forall_mem_nil _, .nil⟩

theorem nodup (h : Listing dirs) : dirs.Nodup :=
  h.distinct.imp fun hne heq => hne (by rw [heq]; simp [Path.same])

theorem any_same (h : Listing dirs) (hd : d.Normal) : dirs.any (·.same d) ↔ d ∈ dirs := by
  rw [List.any_eq_true]
  constructor
  · rintro ⟨p, hp, hsame⟩
    exact ((h.normal p hp).same_iff hd).1 hsame ▸ hp
  · intro hmem
    exact ⟨d, hmem, (hd.same_iff hd).2 rfl⟩

theorem addDir_of_mem (h : Listing dirs) (hd : d ∈ dirs) : addDir dirs d = dirs :=
  if_pos ((h.any_same (h.normal d hd)).2 hd)

theorem addDir_of_notMem (h : Listing dirs) (hd : d.Normal) (hmem : d ∉ dirs) :
    addDir dirs d = dirs ++ [d] :=
  if_neg (mt (h.any_same hd).1 hmem)

theorem removeDir_eq (h : Listing dirs) (hd : d.Normal) : removeDir dirs d = dirs.erase d := by
  rw [h.nodup.erase_eq_filter]
  refine List.filter_congr fun p hp => ?_
  rw [Bool.not_eq_eq_eq_not, Bool.eq_iff_iff, (h.normal p hp).same_iff hd]
  simp

theorem addDir (h : Listing dirs) (hd : d.Normal) : Listing (addDir dirs d) := by
  by_cases hmem : d ∈ dirs
  · rwa [h.addDir_of_mem hmem]
  rw [h.addDir_of_notMem hd hmem]
  constructor
  · exact List.forall_mem_append.2 ⟨h.normal, List.forall_mem_singleton.2 hd⟩
  · refine List.pairwise_append.2 ⟨h.distinct, List.pairwise_singleton _ _, fun p hp q hq => ?_⟩
    rw [List.mem_singleton.1 hq, (h.normal p hp).same_iff hd]
    exact ne_of_mem_of_not_mem hp hmem

theorem removeDir (h : Listing dirs) : Listing (removeDir dirs d) :=
  ⟨fun p hp => h.normal p (List.mem_of_mem_filter hp), h.distinct.filter _⟩

end Listing

/-! ## What edits keep -/

/-- `Closed home D P`: whatever a client means by a directory, in a working directory of
    which `D` holds, `D` holds of it too, and `P` still holds of a list to which it is
    added and of one from which it is removed. -/
structure Closed (home : Option Path) (D : Path → Prop) (P : List Path → Prop) : Prop where
  dir : ∀ {cwd}, D cwd → ∀ input, D (Path.resolveDir home cwd input)
  addDir : ∀ {cwd dirs}, D cwd → P dirs → ∀ input,
    P (addDir dirs (Path.resolveDir home cwd input))
  removeDir : ∀ {cwd dirs}, D cwd → P dirs → ∀ input,
    P (removeDir dirs (Path.resolveDir home cwd input))

theorem Listing.closed (home : Option Path) : Closed home (·.isAbsolute) Listing where
  dir hcwd input := (Path.normal_resolveDir hcwd home input).absolute
  addDir hcwd h input := h.addDir (Path.normal_resolveDir hcwd home input)
  removeDir _ h _ := h.removeDir

/-- A property of directories is kept as one of all that are listed. -/
theorem closed_forall {home : Option Path} {D : Path → Prop}
    (h : ∀ {cwd}, D cwd → ∀ input, D (Path.resolveDir home cwd input)) :
    Closed home D fun dirs => ∀ d ∈ dirs, D d where
  dir := h
  addDir hcwd hdirs input := by
    unfold addDir
    split_ifs
    · exact hdirs
    · exact List.forall_mem_append.2 ⟨hdirs, List.forall_mem_singleton.2 (h hcwd input)⟩
  removeDir _ hdirs _ := fun d hd => hdirs d (List.mem_of_mem_filter hd)

theorem Path.IsUtf8.closed {home : Option Path} (hhome : ∀ h ∈ home, h.IsUtf8) :
    Closed home Path.IsUtf8 fun dirs => ∀ d ∈ dirs, d.IsUtf8 :=
  closed_forall fun hcwd input => Path.IsUtf8.resolveDir hhome hcwd input

namespace Closed

variable {home : Option Path} {D : Path → Prop} {P : List Path → Prop} {cwd base : Path}
  {s settings : Settings}

theorem foldl_addDir (h : Closed home D P) (hbase : D base) {dirs : List Path} (hdirs : P dirs)
    (inputs : List String) :
    P ((inputs.map (Path.resolveDir home base)).foldl PhraseServer.addDir dirs) := by
  induction inputs generalizing dirs with
  | nil => exact hdirs
  | cons input inputs ih => exact ih (h.addDir hbase hdirs input)

theorem apply (h : Closed home D P) (hbase : D base) (hs : ∀ kind, P (s.search.dirs kind))
    (layer : Layer) (kind : PathKind) : P ((s.apply home base layer).search.dirs kind) := by
  cases kind with
  | source => exact h.foldl_addDir hbase (hs .source) layer.source
  | build => exact h.foldl_addDir hbase (hs .build) layer.build

theorem baseOf (h : Closed home D P) (hcwd : D cwd) (file : Path) :
    D (Settings.baseOf home cwd file) := by
  unfold Settings.baseOf
  split
  · exact hcwd
  · exact h.dir hcwd _

theorem ofLayers (h : Closed home D P) (hcwd : D cwd) (hnil : P [])
    (file : Option (Path × Layer)) (flags : Layer) (kind : PathKind) :
    P ((Settings.ofLayers home cwd file flags).search.dirs kind) := by
  have hempty : ∀ kind, P (({} : Settings).search.dirs kind) := by
    rintro (_ | _) <;> exact hnil
  refine h.apply hcwd ?_ flags kind
  cases file with
  | none => exact hempty
  | some file => exact h.apply (h.baseOf hcwd file.1) hempty file.2

/-- **Settings keep what edits keep.** -/
theorem load (h : Closed home D P) (hcwd : D cwd) (hnil : P [])
    {read : Path → Except OsError String} {parse : String → Option Layer} {line : CommandLine}
    (hload : Settings.load home cwd read parse line = .ok settings) (kind : PathKind) :
    P (settings.search.dirs kind) := by
  unfold Settings.load at hload
  split at hload
  · cases hload
    exact h.ofLayers hcwd hnil none _ kind
  · next path _ =>
    cases hfile : Settings.readFile parse path (read path) with
    | error e => rw [hfile] at hload; cases hload
    | ok file =>
      rw [hfile] at hload
      cases hload
      exact h.ofLayers hcwd hnil (some file) _ kind

end Closed

/-! ## What a command does -/

namespace Search

theorem dirs_setDirs (s : Search) (kind : PathKind) (dirs : List Path) :
    (s.setDirs kind dirs).dirs kind = dirs := by
  cases kind <;> rfl

theorem dirs_setDirs_of_ne (s : Search) {kind other : PathKind} (h : other ≠ kind)
    (dirs : List Path) : (s.setDirs kind dirs).dirs other = s.dirs other := by
  cases kind <;> cases other <;> first | rfl | exact absurd rfl h

theorem extensions_setDirs (s : Search) (kind : PathKind) (dirs : List Path) :
    (s.setDirs kind dirs).extensions = s.extensions := by
  cases kind <;> rfl

end Search

/-- `Edits resolve startup command dirs dirs'`: a command makes `dirs'` of `dirs`,
    where the directories that it names are resolved. -/
inductive Edits (resolve : String → Path) (startup : List Path) :
    PathCommand → List Path → List Path → Prop
  | list {dirs : List Path} : Edits resolve startup .list dirs dirs
  /-- What is listed stays in front; nothing else is listed behind it than the
      directory, and this is listed once. -/
  | add {dir : String} {dirs dirs' : List Path} : dirs <+: dirs' →
      (∀ d ∈ dirs', d ∈ dirs ∨ d = resolve dir) → dirs'.count (resolve dir) = 1 →
      Edits resolve startup (.add dir) dirs dirs'
  | remove {dir : String} {dirs : List Path} : resolve dir ∉ dirs.erase (resolve dir) →
      Edits resolve startup (.remove dir) dirs (dirs.erase (resolve dir))
  | reset {dirs : List Path} : Edits resolve startup .reset dirs startup

namespace Listing

variable {resolve : String → Path} {startup dirs : List Path} {dir : String}

theorem edits_add (h : Listing dirs) (hd : (resolve dir).Normal) :
    Edits resolve startup (.add dir) dirs (PhraseServer.addDir dirs (resolve dir)) := by
  by_cases hmem : resolve dir ∈ dirs
  · rw [h.addDir_of_mem hmem]
    exact .add List.prefix_rfl (fun d hd => .inl hd) (List.count_eq_one_of_mem h.nodup hmem)
  · rw [h.addDir_of_notMem hd hmem]
    refine .add (List.prefix_append _ _) (fun d hd => ?_) ?_
    · simpa using hd
    · rw [List.count_append, List.count_eq_zero_of_not_mem hmem, List.count_singleton_self]

theorem edits_remove (h : Listing dirs) (hd : (resolve dir).Normal) :
    Edits resolve startup (.remove dir) dirs (PhraseServer.removeDir dirs (resolve dir)) := by
  rw [h.removeDir_eq hd]
  exact .remove h.nodup.not_mem_erase

end Listing

variable {τ ω κ ρ δ ε η : Type}

namespace Session

/-- `SameBut kind s s'`: the sessions differ in one list at most. -/
structure SameBut (kind : PathKind) (s s' : Session τ ω κ ρ) : Prop where
  analysis : s'.analysis = s.analysis
  dir : s'.dir = s.dir
  startup : s'.startup = s.startup
  extensions : s'.search.extensions = s.search.extensions
  other : ∀ k, k ≠ kind → s'.search.dirs k = s.search.dirs k

theorem sameBut_pathCommand (home : Option Path) (s : Session τ ω κ ρ) (kind : PathKind)
    (command : PathCommand) : SameBut kind s (s.pathCommand home kind command).1 := by
  have hset : ∀ dirs, SameBut kind s { s with search := s.search.setDirs kind dirs } := fun dirs =>
    ⟨rfl, rfl, rfl, s.search.extensions_setDirs kind dirs,
      fun _ hk => s.search.dirs_setDirs_of_ne hk dirs⟩
  cases command with
  | list => exact ⟨rfl, rfl, rfl, rfl, fun _ _ => rfl⟩
  | add _ | remove _ | reset => exact hset _

/-! ## What a request does -/

/-- `Moves home s s'`: what one request can make of a session. -/
inductive Moves (home : Option Path) (s : Session τ ω κ ρ) : Session τ ω κ ρ → Prop
  | analysis (a : State τ ω κ ρ) : Moves home s { s with analysis := a }
  | cd (input : String) : Moves home s { s with dir := Path.resolveDir home s.dir input }
  | path (kind : PathKind) (command : PathCommand) :
      Moves home s (s.pathCommand home kind command).1

section
variable [Spanned τ] [Spanned ω] [Spanned κ] [DecidableEq κ]
  [Encode τ] [Encode ω] [Encode κ] [Encode ρ] [Diagnose ρ δ] [Encode δ]
  {L : Language τ ω κ ρ ε} {host : Host η} {os : η} {s : Session τ ω κ ρ}
  {next : η × Session τ ω κ ρ} {w : Json}

theorem eq_of_handle_tell {text : String} (h : s.handle L host os (.tell text) = .ok (next, w)) :
    next = (os, { s with analysis := (L.extend s.analysis text).state }) ∧ w = .bool true := by
  cases ho : (L.extend s.analysis text).outcome with
  | ok u =>
    rw [handle_tell_of_ok L host os s ho] at h
    cases h
    exact ⟨rfl, rfl⟩
  | error e =>
    rw [(handle_eq_stage_iff L host os s).2 (.tell ho)] at h
    cases h

theorem eq_of_handle_seek {target : SeekTarget}
    (h : s.handle L host os (.seek target) = .ok (next, w)) :
    next = (os, { s with analysis := (L.rewind s.analysis target).state }) ∧
      ∃ q : Position, w = toJson q := by
  cases ho : (L.rewind s.analysis target).outcome with
  | ok q =>
    rw [handle_seek_of_ok L host os s ho] at h
    cases h
    exact ⟨rfl, q, rfl⟩
  | error e =>
    rw [(handle_eq_stage_iff L host os s).2 (.seek ho)] at h
    cases h

theorem handle_moves {r : Request} (h : s.handle L host os r = .ok (next, w)) :
    Moves host.home s next.2 := by
  cases r with
  | tell text => rw [(eq_of_handle_tell h).1]; exact .analysis _
  | seek target => rw [(eq_of_handle_seek h).1]; exact .analysis _
  | line => cases h; exact .analysis s.analysis
  | reset => cases h; exact .analysis {}
  | path kind command => cases h; exact .path kind command
  | cd input =>
    simp only [handle] at h
    split at h <;> cases h
    exact .cd input
  | which _ | dump _ | errors =>
    simp only [handle, shown] at h
    split at h <;> cases h
    exact .analysis s.analysis

variable [ToString ε] (L host)

/-- **What a request does.** -/
theorem call_moves (c : η × Session τ ω κ ρ) (v : Json) :
    Moves host.home c.2 (call L host c v).1.2 := by
  cases hd : Request.decode v with
  | error e => rw [call_of_malformed hd]; exact .analysis c.2.analysis
  | ok r =>
    cases hr : c.2.handle L host c.1 r with
    | error e => rw [call_of_error hd hr]; exact .analysis c.2.analysis
    | ok out => rw [call_of_ok hd hr]; exact handle_moves hr

end

/-! ## Runs -/

/-- `Within D P startup s`: a session with its start-up lists, in a directory of which
    `D` holds, has lists of which `P` holds. -/
structure Within (D : Path → Prop) (P : List Path → Prop) (startup : Search)
    (s : Session τ ω κ ρ) : Prop where
  dir : D s.dir
  startup : s.startup = startup
  dirs : ∀ kind, P (s.search.dirs kind)

namespace Within

variable {D : Path → Prop} {P : List Path → Prop} {startup : Search} {s s' : Session τ ω κ ρ}
  {home : Option Path}

theorem start {dir : Path} (hdir : D dir) (hstart : ∀ kind, P (startup.dirs kind)) :
    Within D P startup (Session.start startup dir : Session τ ω κ ρ) :=
  ⟨hdir, rfl, hstart⟩

/-- Commands edit listings. -/
theorem edits (h : Within (·.isAbsolute) Listing startup s) (home : Option Path)
    (kind : PathKind) (command : PathCommand) :
    Edits (Path.resolveDir home s.dir) (startup.dirs kind) command (s.search.dirs kind)
      ((s.pathCommand home kind command).1.search.dirs kind) := by
  have hnormal := Path.normal_resolveDir h.dir home
  cases command with
  | list => exact .list
  | add dir =>
    simp only [Session.pathCommand, Search.dirs_setDirs]
    exact (h.dirs kind).edits_add (hnormal dir)
  | remove dir =>
    simp only [Session.pathCommand, Search.dirs_setDirs]
    exact (h.dirs kind).edits_remove (hnormal dir)
  | reset =>
    simp only [Session.pathCommand, Search.dirs_setDirs, h.startup]
    exact .reset

theorem pathCommand (hP : Closed home D P) (hstart : ∀ kind, P (startup.dirs kind))
    (h : Within D P startup s) (kind : PathKind) (command : PathCommand) :
    Within D P startup (s.pathCommand home kind command).1 := by
  have hset : ∀ dirs, P dirs →
      Within D P startup { s with search := s.search.setDirs kind dirs } := by
    intro dirs hdirs
    refine ⟨h.dir, h.startup, fun k => ?_⟩
    by_cases hk : k = kind
    · rw [hk, Search.dirs_setDirs]; exact hdirs
    · rw [Search.dirs_setDirs_of_ne _ hk]; exact h.dirs k
  cases command with
  | list => exact h
  | add dir => exact hset _ (hP.addDir h.dir (h.dirs kind) dir)
  | remove dir => exact hset _ (hP.removeDir h.dir (h.dirs kind) dir)
  | reset => exact hset _ (h.startup ▸ hstart kind)

theorem step (hP : Closed home D P) (hstart : ∀ kind, P (startup.dirs kind))
    (h : Within D P startup s) (hs : Moves home s s') : Within D P startup s' := by
  cases hs with
  | analysis a => exact ⟨h.dir, h.startup, h.dirs⟩
  | cd input => exact ⟨hP.dir h.dir input, h.startup, h.dirs⟩
  | path kind command => exact h.pathCommand hP hstart kind command

variable [Spanned τ] [Spanned ω] [Spanned κ] [DecidableEq κ]
  [Encode τ] [Encode ω] [Encode κ] [Encode ρ] [Diagnose ρ δ] [Encode δ] [ToString ε]
  (L : Language τ ω κ ρ ε)

/-- **Runs keep the lists.** -/
theorem run {is : List (Host η × Json)} (hP : ∀ i ∈ is, Closed i.1.home D P)
    (hstart : ∀ kind, P (startup.dirs kind)) {c : η × Session τ ω κ ρ}
    (h : Within D P startup c.2) : Within D P startup (Machine.after (serve L) c is).2 := by
  induction is generalizing c with
  | nil => exact h
  | cons i is ih =>
    obtain ⟨hi, his⟩ := List.forall_mem_cons.1 hP
    exact ih his (h.step hi hstart (call_moves L i.1 c i.2))

end Within

end Session

open Session

-- In a directory that is not UTF-8, what is shown of an entry means another directory.
example :
    let cwd : Path := ⟨[slash, 0xff]⟩
    let dir := Path.resolveDir none cwd "lib"
    dir.lossy = "/\uFFFD/lib" ∧ Path.resolveDir none cwd dir.lossy ≠ dir := by
  decide +kernel

end PhraseServer
