/-
  Layers of settings.

  Settings are made of two layers, that of the configuration file and that of the
  command line.  Directories of both are listed, the first mention of each; other lists
  of the upper layer replace those below.

  * `same_iff_of_normalise`: normal forms are the same only if they are spelled alike;
  * `foldl_addDir_eraseDups`: adding directories one by one lists the first mention of
    each;
  * `apply_repeat`: naming a directory once more changes nothing;
  * `load_layers`: what settings are loaded.
-/
import PhraseServer.Proofs.NormalForms
import PhraseServer.Settings

namespace PhraseServer

/-! ## First mentions -/

theorem Path.same_iff_of_normalise {p q : Path} (hp : p.normalise = p) (hq : q.normalise = q) :
    p.same q ↔ p = q := by
  rw [same, decide_eq_true_eq]
  refine ⟨fun h => ?_, congrArg components⟩
  rw [← hp, ← hq, normalise_eq_iff_walk_eq, walk, walk, h]

theorem Path.normalise_resolveDir (home : Option Path) (cwd : Path) (input : String) :
    (resolveDir home cwd input).normalise = resolveDir home cwd input :=
  congrArg Walk.path (walk_normalise _)

/-- A normal form is added to first mentions as the mention that it is. -/
theorem addDir_eraseDups {done : List Path} {d : Path} (hdone : ∀ p ∈ done, p.normalise = p)
    (hd : d.normalise = d) : addDir done.eraseDups d = (done ++ [d]).eraseDups := by
  have hlisted : done.eraseDups.any (·.same d) ↔ d ∈ done := by
    rw [List.any_eq_true]
    constructor
    · rintro ⟨p, hp, hsame⟩
      rw [List.mem_eraseDups] at hp
      exact (Path.same_iff_of_normalise (hdone p hp) hd).1 hsame ▸ hp
    · intro hmem
      exact ⟨d, List.mem_eraseDups.2 hmem, (Path.same_iff_of_normalise hd hd).2 rfl⟩
  rw [addDir, List.eraseDups_append]
  by_cases hmem : d ∈ done
  · rw [if_pos (hlisted.2 hmem)]
    simp [List.removeAll, hmem]
  · rw [if_neg (mt hlisted.1 hmem)]
    simp [List.removeAll, hmem, List.eraseDups_cons]

/-- **First mentions.**  Directories that are added one by one are listed by their first
    mention. -/
theorem foldl_addDir_eraseDups {done ds : List Path} (hdone : ∀ p ∈ done, p.normalise = p)
    (hds : ∀ d ∈ ds, d.normalise = d) :
    ds.foldl addDir done.eraseDups = (done ++ ds).eraseDups := by
  induction ds generalizing done with
  | nil => simp
  | cons d ds ih =>
    obtain ⟨hd, hds⟩ := List.forall_mem_cons.1 hds
    have hdone' : ∀ p ∈ done ++ [d], p.normalise = p :=
      List.forall_mem_append.2 ⟨hdone, List.forall_mem_singleton.2 hd⟩
    rw [List.foldl_cons, addDir_eraseDups hdone hd, ih hdone' hds, List.append_assoc,
      List.singleton_append]

/-! ## Mentions once more -/

theorem any_same_addDir {dirs : List Path} {d e : Path} (h : e = d ∨ dirs.any (·.same d)) :
    (addDir dirs e).any (·.same d) := by
  unfold addDir
  split_ifs with he
  · rcases h with rfl | h
    · exact he
    · exact h
  · rcases h with rfl | h
    · simp [Path.same]
    · simp [h]

theorem any_same_foldl_addDir {dirs ds : List Path} {d : Path}
    (h : d ∈ ds ∨ dirs.any (·.same d)) : (ds.foldl addDir dirs).any (·.same d) := by
  induction ds generalizing dirs with
  | nil => simpa using h
  | cons e ds ih =>
    rw [List.foldl_cons]
    apply ih
    rcases h with h | h
    · rcases List.mem_cons.1 h with rfl | h
      · exact .inr (any_same_addDir (.inl rfl))
      · exact .inl h
    · exact .inr (any_same_addDir (.inr h))

theorem foldl_addDir_repeat {before : List Path} {d : Path} (h : d ∈ before)
    (dirs after : List Path) :
    (before ++ d :: after).foldl addDir dirs = (before ++ after).foldl addDir dirs := by
  have hlisted : addDir (before.foldl addDir dirs) d = before.foldl addDir dirs :=
    if_pos (any_same_foldl_addDir (.inl h))
  rw [List.foldl_append, List.foldl_cons, hlisted, ← List.foldl_append]

/-! ## Layers -/

/-- The directories of a layer. -/
def Layer.dirs (layer : Layer) : PathKind → List String
  | .source => layer.source
  | .build => layer.build

namespace CommandLine

/-- The directories of a command line. -/
def dirs (line : CommandLine) : PathKind → List Path
  | .source => line.source
  | .build => line.build

/-- Replaces the directories of a command line. -/
def setDirs (line : CommandLine) (kind : PathKind) (dirs : List Path) : CommandLine :=
  match kind with
  | .source => { line with source := dirs }
  | .build => { line with build := dirs }

theorem config_setDirs (line : CommandLine) (kind : PathKind) (dirs : List Path) :
    (line.setDirs kind dirs).config = line.config := by
  cases kind <;> rfl

theorem dirs_layer (line : CommandLine) (kind : PathKind) :
    line.layer.dirs kind = (line.dirs kind).map (·.lossy) := by
  cases kind <;> rfl

end CommandLine

namespace Settings

variable (home : Option Path) (cwd base : Path) (s : Settings) (layer flags : Layer)

theorem dirs_apply (kind : PathKind) : (s.apply home base layer).search.dirs kind
    = ((layer.dirs kind).map (Path.resolveDir home base)).foldl addDir (s.search.dirs kind) := by
  cases kind <;> rfl

/-- The directories of two layers. -/
theorem dirs_layers (kind : PathKind) :
    ((({} : Settings).apply home base layer).apply home cwd flags).search.dirs kind
      = ((layer.dirs kind).map (Path.resolveDir home base) ++
        (flags.dirs kind).map (Path.resolveDir home cwd)).eraseDups := by
  have hnormal : ∀ (base : Path) (dirs : List String),
      ∀ d ∈ dirs.map (Path.resolveDir home base), d.normalise = d := by
    intro base dirs d hd
    obtain ⟨dir, -, rfl⟩ := List.mem_map.1 hd
    exact Path.normalise_resolveDir home base dir
  have hnone : ({} : Settings).search.dirs kind = [].eraseDups := by cases kind <;> rfl
  rw [dirs_apply, dirs_apply, hnone,
    foldl_addDir_eraseDups (List.forall_mem_nil _) (hnormal base _), List.nil_append,
    foldl_addDir_eraseDups (hnormal base _) (hnormal cwd _)]

/-- A directory that is named once more adds nothing. -/
theorem apply_repeat {line : CommandLine} {kind : PathKind} {before after : List Path} {d : Path}
    (h : d ∈ before) (hdirs : line.dirs kind = before ++ after) :
    s.apply home cwd (line.setDirs kind (before ++ d :: after)).layer
      = s.apply home cwd line.layer := by
  have hmem : Path.resolveDir home cwd d.lossy
      ∈ (before.map (·.lossy)).map (Path.resolveDir home cwd) :=
    List.mem_map_of_mem (List.mem_map_of_mem h)
  cases kind with
  | source =>
    have hsource : line.source = before ++ after := hdirs
    simp only [apply, Search.merge, CommandLine.layer, CommandLine.setDirs, hsource,
      List.map_append, List.map_cons, foldl_addDir_repeat hmem]
  | build =>
    have hbuild : line.build = before ++ after := hdirs
    simp only [apply, Search.merge, CommandLine.layer, CommandLine.setDirs, hbuild,
      List.map_append, List.map_cons, foldl_addDir_repeat hmem]

/-! ## Loading -/

/-- `Delivers read parse config layer`: what the configuration file says, if one is
    named. -/
inductive Delivers (read : Path → Except OsError String) (parse : String → Option Layer) :
    Option Path → Layer → Prop
  | none : Delivers read parse none {}
  | some {path : Path} {text : String} {layer : Layer} : read path = .ok text →
      parse text = some layer → Delivers read parse (some path) layer

theorem baseOf_eq (path : Path) : baseOf home cwd path
    = (path.parent?.map fun dir => Path.resolveDir home cwd dir.lossy).getD cwd := by
  unfold baseOf
  split
  · next hparent => rw [hparent]; rfl
  · next hparent => rw [hparent]; rfl

variable {home cwd layer} {read : Path → Except OsError String} {parse : String → Option Layer}
  {line : CommandLine}

theorem load_of_delivers (h : Delivers read parse line.config layer) :
    load home cwd read parse line = .ok ((({} : Settings).apply home
      (((line.config.bind Path.parent?).map fun dir => Path.resolveDir home cwd dir.lossy).getD cwd)
      layer).apply home cwd line.layer) := by
  generalize hconfig : line.config = config at h
  cases h with
  | none =>
    rw [load, hconfig]
    rfl
  | @some path text layer htext hparse =>
    have hread : readFile parse path (read path) = .ok (path, layer) := by
      rw [htext]
      simp only [readFile, hparse]
    rw [load, hconfig]
    simp only [hread, Except.map, ofLayers, baseOf_eq, Option.bind_some]

/-- **Settings.**  Take any command line, and what its configuration file delivers,
    whatever reads and parses it.  Settings are loaded.  Each list has the first mention
    of every directory: those of the file, seen from the directory of the file, then
    those of the command line, seen from the working directory.  Extensions are those of
    the command line, of the file or the defaults, the first of these that are any; so
    are modules.  A directory that the command line names once more changes nothing. -/
theorem load_layers (home : Option Path) (cwd : Path) (read : Path → Except OsError String)
    (parse : String → Option Layer) (line : CommandLine) {layer : Layer}
    (h : Delivers read parse line.config layer) :
    let base := ((line.config.bind Path.parent?).map fun dir =>
      Path.resolveDir home cwd dir.lossy).getD cwd
    ∃ s, load home cwd read parse line = .ok s ∧
      (∀ kind, s.search.dirs kind = ((layer.dirs kind).map (Path.resolveDir home base) ++
        (line.dirs kind).map fun dir => Path.resolveDir home cwd dir.lossy).eraseDups) ∧
      s.search.extensions =
        (if line.extensions ≠ [] then line.extensions
        else if layer.extensions ≠ [] then layer.extensions else ["ml", "mli"]) ∧
      s.modules =
        (if line.modules ≠ [] then line.modules
        else if layer.modules ≠ [] then layer.modules
        else ["Stdlib", "List", "Array", "String", "Printf", "Hashtbl", "Option", "Result"]) ∧
      ∀ kind before d after, d ∈ before → line.dirs kind = before ++ after →
        load home cwd read parse (line.setDirs kind (before ++ d :: after)) = .ok s := by
  intro base
  refine ⟨_, load_of_delivers h, fun kind => ?_, ?_, ?_, ?_⟩
  · rw [dirs_layers, line.dirs_layer, List.map_map]
    rfl
  · simp [apply, Search.merge, CommandLine.layer]
  · simp [apply, CommandLine.layer, defaultModules]
  · intro kind before d after hd hdirs
    rw [← line.config_setDirs kind (before ++ d :: after)] at h
    rw [load_of_delivers h, line.config_setDirs, apply_repeat home cwd _ hd hdirs]

/-- A file and a command line that name a directory both, and flags that name one
    twice. -/
theorem load_layers_overlap :
    let home : Option Path := some (.ofText "/home/u")
    let cwd := Path.ofText "/w"
    let read := fun _ : Path => (.ok "source_path = ['lib', '../x']\nmodules = ['A']" :
      Except OsError String)
    let layer : Layer := { source := ["lib", "../x"], modules := ["A"] }
    let line : CommandLine :=
      { source := ["~/x", "conf/lib", "y"].map .ofText, extensions := ["mli"],
        config := some (.ofText "conf/a.toml") }
    let s : Settings :=
      { search := { source := ["/w/conf/lib", "/w/x", "/home/u/x", "/w/y"].map .ofText,
                    extensions := ["mli"] },
        modules := ["A"] }
    Delivers read ConfigFile.parse line.config layer ∧
      load home cwd read ConfigFile.parse line = .ok s ∧
      load home cwd read ConfigFile.parse
        (line.setDirs .source (["~/x", "conf/lib", "~/x", "y"].map .ofText)) = .ok s := by
  intro home cwd read layer line s
  have hdelivers : Delivers read ConfigFile.parse line.config layer := .some rfl (by decide +kernel)
  have hload : load home cwd read ConfigFile.parse line = .ok s := by decide +kernel
  obtain ⟨s', hs', -, -, -, hrepeat⟩ :=
    load_layers home cwd read ConfigFile.parse line hdelivers
  obtain rfl : s = s' := Except.ok.inj (hload.symm.trans hs')
  exact ⟨hdelivers, hload, hrepeat .source (["~/x", "conf/lib"].map .ofText) (.ofText "~/x")
    [.ofText "y"] (by simp) rfl⟩

end Settings

end PhraseServer
