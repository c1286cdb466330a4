/-
  Where configuration files stand.

  The directories of a configuration file are seen from the directory of the file,
  which is read off what is shown of the path of the file, while the file itself is
  found by a lookup.  The two agree, unless the path is spelled through `~` or is not
  UTF-8: a lookup takes `~` for a name, and the directory of the file is looked for
  below the home directory; and what is shown of bytes that are no text is another path.

  * `find_file`: a file that is found stands where its path leads, in the directory to
    which the parent of the path leads;
  * `resolveDir_baseOf_iff`: when directories are seen from the parent of the path;
  * `load_beside`: from where the directories of a configuration file are seen;
  * `load_below_tilde`: a file below `~` has its directories seen from elsewhere.
-/
import PhraseServer.Proofs.Parents
import PhraseServer.Proofs.Precedence

namespace PhraseServer

/-! ## Lookups -/

namespace FileSystem

/-- A tree: whatever stands somewhere stands in a directory. -/
def IsTree (fs : FileSystem) : Prop := ∀ e ∈ fs.entries, fs.entry? e.1.tail = some .dir

instance (fs : FileSystem) : Decidable fs.IsTree :=
  inferInstanceAs (Decidable (∀ e ∈ fs.entries, fs.entry? e.1.tail = some .dir))

variable {fs : FileSystem} {cwd place found : Location} {ps : List (List UInt8)} {p : Path}

theorem IsTree.entry?_tail (hfs : fs.IsTree) (h : (fs.entry? place).isSome) :
    fs.entry? place.tail = some .dir := by
  cases place with
  | nil => rfl
  | cons name above =>
    obtain ⟨⟨place, e⟩, he, hname⟩ := List.lookup_isSome_iff.1 h
    obtain rfl : name :: above = place := eq_of_beq hname
    exact hfs _ he

theorem ne_nil_of_mem_pieces {piece : List UInt8} (h : piece ∈ pieces p) : piece ≠ [] := by
  simpa using (List.mem_filter.1 h).2

/-- Empty pieces lead nowhere. -/
theorem leadsTo_eq_foldl_pieces (p : Path) (start : Location) : p.leadsTo start
    = (pieces p).foldl Path.follow (if p.isAbsolute then [] else start) := by
  have hempty : ∀ dir piece,
      (if !piece.isEmpty then Path.follow dir piece else dir) = Path.follow dir piece := by
    intro dir piece
    cases piece <;> rfl
  simp only [Path.leadsTo, pieces, List.foldl_filter, hempty]

/-- Empty pieces are no steps. -/
theorem steps_eq_filterMap_pieces (p : Path) :
    Path.steps p.bytes = (pieces p).filterMap Component.ofPiece? := by
  simp only [Path.steps, pieces, List.filterMap_filter]
  refine List.filterMap_congr fun piece _ => ?_
  cases piece with
  | nil => rfl
  | cons b bs => simp

/-- A relative path that is not empty has a piece. -/
theorem pieces_ne_nil (hrel : p.isAbsolute = false) (hbytes : p.bytes ≠ []) : pieces p ≠ [] := by
  obtain ⟨b, bs, hbs⟩ := List.exists_cons_of_ne_nil hbytes
  have hb : b ≠ slash := by simpa [Path.isAbsolute, hbs] using hrel
  have hfirst := List.mem_of_head? (Path.head?_splitSlashes p.bytes)
  rw [hbs, List.takeWhile_cons_of_pos (by simpa using hb)] at hfirst
  exact List.ne_nil_of_mem (List.mem_filter.2 ⟨hbs ▸ hfirst, rfl⟩)

/-- One step of a lookup leads from a directory where its piece does. -/
theorem follow_cons_eq_ok {piece : List UInt8} (hpiece : piece ≠ [])
    (h : fs.follow place (piece :: ps) = .ok found) :
    fs.entry? place = some .dir ∧ fs.follow (Path.follow place piece) ps = .ok found := by
  unfold follow at h
  split at h
  · cases h
  · cases h
  · next hdir =>
    refine ⟨hdir, ?_⟩
    simp only [Path.follow, hpiece, false_or]
    split_ifs at h ⊢
    all_goals exact h

/-- A lookup ends where its pieces lead. -/
theorem follow_eq_foldl (hps : ∀ piece ∈ ps, piece ≠ [])
    (h : fs.follow place ps = .ok found) : found = ps.foldl Path.follow place := by
  induction ps generalizing place with
  | nil => exact (Except.ok.inj h).symm
  | cons piece ps ih =>
    obtain ⟨hpiece, hps⟩ := List.forall_mem_cons.1 hps
    exact ih hps (follow_cons_eq_ok hpiece h).2

/-- In a tree, a piece that is no name leads from a directory to a directory. -/
theorem IsTree.follow_piece (hfs : fs.IsTree) (hdir : fs.entry? place = some .dir)
    (piece : List UInt8) : fs.entry? (Path.follow place piece) = some .dir ∨
      Component.ofPiece? piece = some (.name piece) := by
  unfold Path.follow Component.ofPiece?
  simp only [Bool.or_eq_true, decide_eq_true_eq]
  split_ifs
  · exact .inl hdir
  · exact .inl (hfs.entry?_tail (hdir ▸ rfl))
  · exact .inr rfl

/-- In a tree, a lookup ends at a directory, unless its last piece is a name. -/
theorem IsTree.follow_cases (hfs : fs.IsTree) (hps : ∀ piece ∈ ps, piece ≠ [])
    (hne : ps ≠ []) (h : fs.follow place ps = .ok found) :
    fs.entry? found = some .dir ∨
      ∃ init n, ps = init ++ [n] ∧ Component.ofPiece? n = some (.name n) := by
  induction ps generalizing place with
  | nil => exact absurd rfl hne
  | cons piece ps ih =>
    obtain ⟨hpiece, hps⟩ := List.forall_mem_cons.1 hps
    obtain ⟨hdir, hrest⟩ := follow_cons_eq_ok hpiece h
    by_cases hlast : ps = []
    · obtain rfl := hlast
      obtain rfl : Path.follow place piece = found := Except.ok.inj hrest
      exact (hfs.follow_piece hdir piece).imp_right fun hname => ⟨[], piece, rfl, hname⟩
    · refine (ih hps hlast hrest).imp_right ?_
      rintro ⟨init, n, rfl, hn⟩
      exact ⟨piece :: init, n, rfl, hn⟩

theorem find_eq_ok {e : Entry} (h : fs.find cwd p = .ok (place, e)) :
    p.bytes ≠ [] ∧ fs.entry? place = some e ∧
      fs.follow (if p.isAbsolute then [] else cwd) (pieces p) = .ok place := by
  unfold find at h
  split at h
  · cases h
  split at h
  · cases h
  next hempty =>
  split at h
  · cases h
  split at h
  · cases h
  next hfollow =>
  refine ⟨hempty, ?_⟩
  split at h
  · cases h
  · next hentry =>
    split at h
    · cases h
    · cases h
      exact ⟨hentry, hfollow⟩
  · next hentry =>
    cases h
    exact ⟨hentry, hfollow⟩

/-- **Files.**  A file that is found in a tree stands where its path leads, in the
    directory to which the parent of the path leads. -/
theorem find_file (hfs : fs.IsTree) {content : List UInt8}
    (h : fs.find cwd p = .ok (place, .file content)) :
    ∃ dir, p.parent? = some dir ∧ place = p.leadsTo cwd ∧ place.tail = dir.leadsTo cwd := by
  obtain ⟨hbytes, hentry, hfollow⟩ := find_eq_ok h
  have hplace : place = p.leadsTo cwd := by
    rw [leadsTo_eq_foldl_pieces, ← follow_eq_foldl (fun _ => ne_nil_of_mem_pieces) hfollow]
  have hne : pieces p ≠ [] := by
    intro hnil
    cases habs : p.isAbsolute with
    | true =>
      -- the root is a directory
      rw [hnil, habs] at hfollow
      obtain rfl : [] = place := Except.ok.inj hfollow
      cases hentry
    | false => exact pieces_ne_nil habs hbytes hnil
  rcases hfs.follow_cases (fun _ => ne_nil_of_mem_pieces) hne hfollow with
    hdir | ⟨init, n, hps, hn⟩
  · rw [hentry] at hdir
    cases hdir
  · obtain ⟨head, hhead⟩ : ∃ head, p.components = head ++ Path.steps p.bytes := ⟨_, rfl⟩
    have hlast : [n].filterMap Component.ofPiece? = [.name n] := by simp [hn]
    rw [steps_eq_filterMap_pieces, hps, List.filterMap_append, hlast, ← List.append_assoc] at hhead
    obtain ⟨dir, hdir, hleads⟩ := Path.exists_parent? hhead
    refine ⟨dir, hdir, hplace, ?_⟩
    rw [hplace, hleads]
    rfl

end FileSystem

namespace World

/-- The text of a file. -/
def readText (w : World) (p : Path) : Except OsError String := textOfBytes (w.readBytes p)

theorem find_of_readText {w : World} {p : Path} {text : String} (h : w.readText p = .ok text) :
    ∃ place content, w.files.find w.cwd p = .ok (place, .file content) := by
  unfold readText textOfBytes at h
  split at h
  · cases h
  next hbytes =>
  unfold readBytes at hbytes
  split at hbytes
  · next place content hfind => exact ⟨place, content, hfind⟩
  · cases hbytes
  · cases hbytes

/-- A file that is read in a tree stands in the directory of the parent of its path:
    what is seen from the one is seen from the other. -/
theorem exists_directory_of_readText {w : World} (htree : w.files.IsTree) {cwd c : Path}
    (hcwd : w.cwd = cwd.directory) {text : String} (h : w.readText c = .ok text) :
    ∃ dir place content, c.parent? = some dir ∧
      w.files.find w.cwd c = .ok (place, .file content) ∧
      ∀ d, ((cwd.join dir).join d).normalise.directory = d.leadsTo place.tail := by
  obtain ⟨place, content, hfind⟩ := find_of_readText h
  obtain ⟨dir, hdir, -, hplace⟩ := FileSystem.find_file htree hfind
  refine ⟨dir, place, content, hdir, hfind, fun d => ?_⟩
  rw [Path.directory_normalise, Path.directory_join, Path.directory_join, hplace, hcwd]

end World

/-! ## The home directory -/

namespace Path

/-- `Tilde text rest`: the text is `~`, with `rest` behind it. -/
inductive Tilde : String → String → Prop
  | alone : Tilde "~" ""
  | below (rest : String) : Tilde ("~/" ++ rest) rest

variable {cwd : Path} {text rest : String} {home : Option Path}

theorem Tilde.head? (h : Tilde text rest) : text.toList.head? = some '~' := by
  cases h with
  | alone => rfl
  | below rest => simp

theorem expandHome_of_not_tilde (hp : ∀ h rest, home = some h → ¬ Tilde text rest) :
    expandHome home text = ofText text := by
  unfold expandHome
  split
  · rfl
  next h =>
  split
  · next htext =>
    obtain rfl : text = "~" := String.toList_inj.1 htext
    exact absurd .alone (hp h _ rfl)
  · next rest htext =>
    obtain rfl : text = "~/" ++ String.ofList rest := String.toList_inj.1 (by simp [htext])
    exact absurd (.below _) (hp h _ rfl)
  · rfl

theorem leadsTo_expandHome (h : Tilde text rest) (home : Path) (start : Location) :
    (expandHome (some home) text).leadsTo start = (home.join (ofText rest)).leadsTo start := by
  cases h with
  | alone =>
    rw [leadsTo_joined]
    rfl
  | below rest => simp [expandHome]

theorem normalise_join_expandHome (hcwd : cwd.isAbsolute) (h : Tilde text rest) (home : Path) :
    (cwd.join (expandHome (some home) text)).normalise
      = (cwd.join (home.join (ofText rest))).normalise := by
  rw [normalise_eq_iff_directory (isAbsolute_join hcwd _) (isAbsolute_join hcwd _),
    directory_join, directory_join, leadsTo_expandHome h]

/-- Where a directory with `~` expanded leads: below the home directory, if `~` stands
    in front and there is a home directory, else where it is spelled. -/
theorem normalise_join_expandHome_iff (hcwd : cwd.isAbsolute) (target : Path) :
    (cwd.join (expandHome home text)).normalise = target ↔
      (∀ h rest, home = some h → Tilde text rest →
        (cwd.join (h.join (ofText rest))).normalise = target) ∧
      ((∀ h rest, home = some h → ¬ Tilde text rest) →
        (cwd.join (ofText text)).normalise = target) := by
  constructor
  · intro htarget
    refine ⟨?_, fun hplain => ?_⟩
    · rintro h rest rfl htilde
      rw [← normalise_join_expandHome hcwd htilde, htarget]
    · rwa [expandHome_of_not_tilde hplain] at htarget
  · rintro ⟨htilde, hspelled⟩
    by_cases hplain : ∀ h rest, home = some h → ¬ Tilde text rest
    · rw [expandHome_of_not_tilde hplain, hspelled hplain]
    · simp only [not_forall, not_not] at hplain
      obtain ⟨h, rest, rfl, hrest⟩ := hplain
      rw [normalise_join_expandHome hcwd hrest, htilde h rest rfl hrest]

theorem resolveDir_eq_join (home : Option Path) (cwd : Path) (input : String) :
    resolveDir home cwd input = (cwd.join (expandHome home input)).normalise := by
  by_cases habs : (expandHome home input).isAbsolute <;> simp [resolveDir, join, habs]

end Path

/-! ## Configuration files -/

namespace Settings

/-- A directory that is seen from somewhere: it begins neither at the root nor with
    `~`. -/
structure Beside (d : String) : Prop where
  relative : (Path.ofText d).isAbsolute = false
  homeless : d.toList.head? ≠ some '~'

instance (d : String) : Decidable (Beside d) :=
  decidable_of_iff ((Path.ofText d).isAbsolute = false ∧ d.toList.head? ≠ some '~')
    ⟨fun h => ⟨h.1, h.2⟩, fun h => ⟨h.relative, h.homeless⟩⟩

variable {home : Option Path} {cwd c dir : Path} {d : String}

/-- Directories are seen from what is shown of the parent of the path of the file, with
    `~` expanded. -/
theorem Beside.resolveDir_baseOf (h : Beside d) (hcwd : cwd.isAbsolute)
    (hdir : c.parent? = some dir) :
    Path.resolveDir home (baseOf home cwd c) d
      = ((cwd.join (Path.expandHome home dir.lossy)).join (.ofText d)).normalise := by
  have hbase : baseOf home cwd c = (cwd.join (Path.expandHome home dir.lossy)).normalise := by
    rw [baseOf, hdir]
    exact Path.resolveDir_eq_join home cwd dir.lossy
  have habs := Path.isAbsolute_join hcwd (Path.expandHome home dir.lossy)
  have hnormal := Path.normal_normalise habs
  rw [Path.resolveDir_eq_join, Path.expandHome_of_head? h.homeless, hbase]
  exact Path.normalise_join_congr hnormal.absolute habs hnormal.normalise_eq _

/-- Directories are seen from the parent of the path of the file exactly if what is shown
    of the parent leads there too, with `~` expanded. -/
theorem resolveDir_baseOf_iff (hcwd : cwd.isAbsolute) (hdir : c.parent? = some dir) :
    (∀ d, Beside d → Path.resolveDir home (baseOf home cwd c) d
        = ((cwd.join dir).join (.ofText d)).normalise) ↔
      (cwd.join (Path.expandHome home dir.lossy)).normalise = (cwd.join dir).normalise := by
  have habs : ∀ p, (cwd.join p).isAbsolute := Path.isAbsolute_join hcwd
  constructor
  · intro hall
    -- the empty spelling is seen as the directory itself
    have hnone : Beside "" := by decide
    have hnil : Path.ofText "" = ⟨[]⟩ := by decide
    have hempty := (hnone.resolveDir_baseOf hcwd hdir).symm.trans (hall "" hnone)
    rwa [hnil, Path.normalise_join_empty (habs _), Path.normalise_join_empty (habs _)] at hempty
  · intro hsame d hd
    rw [hd.resolveDir_baseOf hcwd hdir]
    exact Path.normalise_join_congr (habs _) (habs _) hsame _

/-- **Directories of a configuration file.**  Take any absolute working directory, any
    home, and a command line whose configuration file is read.  Settings are loaded, and
    list the directories of the file before those of the command line.  What begins
    neither at the root nor with `~` is listed as seen from the parent of the path of
    the file, exactly in two cases: there is a home directory, what is shown of the
    parent is spelled through `~`, and the home directory leads to the same place; or
    not so, and the parent is UTF-8, or what is shown of it leads to the same place.
    Else it is seen from below the home directory, or from what is shown of the parent.
    And if the file is found in a tree, then the parent of its path is the directory it
    stands in: what is seen from the one is seen from the other. -/
theorem load_beside (home : Option Path) {cwd : Path} (hcwd : cwd.isAbsolute)
    {read : Path → Except OsError String} {parse : String → Option Layer} {line : CommandLine}
    {c : Path} (hc : line.config = some c) {layer : Layer}
    (hlayer : Delivers read parse (some c) layer) :
    let listed := Path.resolveDir home (baseOf home cwd c)
    ∃ s, load home cwd read parse line = .ok s ∧
      (∀ kind, s.search.dirs kind = ((layer.dirs kind).map listed ++
        (line.dirs kind).map fun dir => Path.resolveDir home cwd dir.lossy).eraseDups) ∧
      (∀ dir, c.parent? = some dir →
        let plain := ∀ h rest, home = some h → ¬ Path.Tilde dir.lossy rest
        ((∀ d, Beside d → listed d = ((cwd.join dir).join (.ofText d)).normalise) ↔
          (∀ h rest, home = some h → Path.Tilde dir.lossy rest →
            (cwd.join (h.join (.ofText rest))).normalise = (cwd.join dir).normalise) ∧
          (plain → dir.IsUtf8 ∨
            (cwd.join (.ofText dir.lossy)).normalise = (cwd.join dir).normalise)) ∧
        (∀ h rest, home = some h → Path.Tilde dir.lossy rest → ∀ d, Beside d →
          listed d = ((cwd.join (h.join (.ofText rest))).join (.ofText d)).normalise) ∧
        (plain → ∀ d, Beside d →
          listed d = ((cwd.join (.ofText dir.lossy)).join (.ofText d)).normalise)) ∧
      ∀ w : World, w.files.IsTree → w.cwd = cwd.directory → read = w.readText →
        ∃ dir place content, c.parent? = some dir ∧
          w.files.find w.cwd c = .ok (place, .file content) ∧
          ∀ d, ((cwd.join dir).join d).normalise.directory = d.leadsTo place.tail := by
  intro listed
  have hload : load home cwd read parse line = .ok ((({} : Settings).apply home
      (baseOf home cwd c) layer).apply home cwd line.layer) := by
    rw [load_of_delivers (hc ▸ hlayer), hc, Option.bind_some, ← baseOf_eq]
  refine ⟨_, hload, fun kind => ?_, fun dir hdir => ?_, ?_⟩
  · rw [dirs_layers, line.dirs_layer, List.map_map]
    rfl
  · intro plain
    have habs : ∀ p, (cwd.join p).isAbsolute := Path.isAbsolute_join hcwd
    have hshown : dir.IsUtf8 →
        (cwd.join (.ofText dir.lossy)).normalise = (cwd.join dir).normalise := by
      intro hutf8
      rw [Path.isUtf8_iff_ofText_lossy.1 hutf8]
    refine ⟨?_, ?_, fun hplain d hd => ?_⟩
    · rw [resolveDir_baseOf_iff hcwd hdir, Path.normalise_join_expandHome_iff hcwd,
        or_iff_right_of_imp hshown]
    · rintro h rest rfl htilde d hd
      rw [show listed d = _ from hd.resolveDir_baseOf hcwd hdir]
      exact Path.normalise_join_congr (habs _) (habs _)
        (Path.normalise_join_expandHome hcwd htilde h) _
    · rw [← Path.expandHome_of_not_tilde hplain]
      exact hd.resolveDir_baseOf hcwd hdir
  · rintro w htree hw rfl
    cases hlayer with
    | some hread _ => exact World.exists_directory_of_readText htree hw hread

/-- A path with steps up and down to its file, which names a directory beside its own. -/
theorem load_beside_conf :
    let home : Option Path := some (.ofText "/home/u")
    let cwd := Path.ofText "/w"
    let w : World :=
      { files := ({} : FileSystem).addFile (["a.toml", "conf", "w"].map encodeUtf8)
          (encodeUtf8 "source_path = ['lib', '../x']"),
        cwd := [encodeUtf8 "w"] }
    let c := Path.ofText "./conf/../conf//a.toml"
    let line : CommandLine := { source := [.ofText "x"], config := some c }
    let layer : Layer := { source := ["lib", "../x"] }
    cwd.isAbsolute ∧ Delivers w.readText ConfigFile.parse (some c) layer ∧ Beside "../x" ∧
      Path.resolveDir home (baseOf home cwd c) "../x" = .ofText "/w/x" ∧
      (∃ s, load home cwd w.readText ConfigFile.parse line = .ok s ∧
        s.search.dirs .source = [.ofText "/w/conf/lib", .ofText "/w/x"]) ∧
      w.files.IsTree ∧ ∃ place content, w.files.find w.cwd c = .ok (place, .file content) ∧
        (Path.ofText "../x").leadsTo place.tail = ["x", "w"].map encodeUtf8 := by
  intro home cwd w c line layer
  have hcwd : cwd.isAbsolute := by decide
  have hread : w.readText c = .ok "source_path = ['lib', '../x']" := by decide +kernel
  have hlayer : Delivers w.readText ConfigFile.parse (some c) layer :=
    .some hread (by decide +kernel)
  have hbeside : Beside "../x" := by decide
  have htree : w.files.IsTree := by decide +kernel
  have hparent : c.parent? = some (.ofText "./conf/../conf") := by decide +kernel
  have hplain : ∀ rest, ¬ Path.Tilde (Path.ofText "./conf/../conf").lossy rest := by
    intro rest htilde
    rw [Path.lossy_ofText] at htilde
    exact absurd htilde.head? (by decide)
  obtain ⟨s, hload, hdirs, hseen, hfound⟩ :=
    load_beside home hcwd (rfl : line.config = some c) hlayer
  obtain ⟨dir, place, content, hdir, hfind, hleads⟩ := hfound w htree (by decide +kernel) rfl
  obtain rfl : .ofText "./conf/../conf" = dir := Option.some.inj (hparent.symm.trans hdir)
  refine ⟨hcwd, hlayer, hbeside, ?_, ⟨s, hload, (hdirs .source).trans (by decide +kernel)⟩,
    htree, place, content, hfind, ?_⟩
  · have hlisted := (hseen _ hparent).1.2
      ⟨fun _ rest _ htilde => absurd htilde (hplain rest), fun _ => .inl (Path.isUtf8_ofText _)⟩
    exact (hlisted "../x" hbeside).trans (by decide +kernel)
  · rw [← hleads]
    decide +kernel

/-- A file in a directory with the name `~`: its directories are listed below the home
    directory, and not where the file is. -/
theorem load_below_tilde :
    let home : Option Path := some (.ofText "/home/u")
    let cwd := Path.ofText "/w"
    let w : World :=
      { files := ({} : FileSystem).addFile (["c.toml", "~", "w"].map encodeUtf8)
          (encodeUtf8 "source_path = ['lib']"),
        cwd := [encodeUtf8 "w"] }
    let c := Path.ofText "~/c.toml"
    let line : CommandLine := { config := some c }
    cwd.isAbsolute ∧ w.files.IsTree ∧ w.cwd = cwd.directory ∧
      Delivers w.readText ConfigFile.parse (some c) { source := ["lib"] } ∧ Beside "lib" ∧
      c.parent? = some (.ofText "~") ∧
      ∃ s, load home cwd w.readText ConfigFile.parse line = .ok s ∧
        s.search.dirs .source = [.ofText "/home/u/lib"] ∧
        ((cwd.join (.ofText "~")).join (.ofText "lib")).normalise ∉ s.search.dirs .source := by
  intro home cwd w c line
  have hread : w.readText c = .ok "source_path = ['lib']" := by decide +kernel
  have hlayer : Delivers w.readText ConfigFile.parse (some c) { source := ["lib"] } :=
    .some hread (by decide +kernel)
  have hload : load home cwd w.readText ConfigFile.parse line
      = .ok { search := { source := [.ofText "/home/u/lib"] } } := by decide +kernel
  exact ⟨by decide, by decide +kernel, by decide +kernel, hlayer, by decide, by decide +kernel,
    _, hload, rfl, by decide +kernel⟩

-- A file in a directory that is not UTF-8: what is shown of the directory is another one.
example :
    let cwd := Path.ofText "/w"
    let c : Path := ⟨0xff :: encodeUtf8 "/c.toml"⟩
    c.parent? = some ⟨[0xff]⟩ ∧
      Path.resolveDir none (baseOf none cwd c) "lib" = .ofText "/w/\uFFFD/lib" ∧
      ((cwd.join ⟨[0xff]⟩).join (.ofText "lib")).normalise ≠ .ofText "/w/\uFFFD/lib" := by
  decide +kernel

end Settings

end PhraseServer
