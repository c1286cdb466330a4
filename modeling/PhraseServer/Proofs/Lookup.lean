/-
  Where modules are found.

  A `Place` says where a file for a module is looked for: in which list of
  directories and where in it, under which extension, and with the name as it is
  written or with a small first letter.  `At` says which file that is, and `Before`
  orders the places.

  * `which_cases`: a lookup gives the file of the first place that has one;
  * `isPlainName_fileName`: the name of a file is one component;
  * `components_join`: behind a directory, a plain name adds one component, and leads
    straight down;
  * `which_first`: lookups find the first file, in a listed directory.
-/
import Mathlib.Tactic.Common
import PhraseServer.Proofs.NormalForms
import PhraseServer.Proofs.SmallLetters

namespace PhraseServer

namespace Search

theorem isPlainName_iff_not {name : String} : isPlainName name ↔
    ¬ (name = "" ∨ name = "." ∨ name = ".." ∨ '/' ∈ name.toList) := by
  simp [isPlainName, and_assoc]

/-! ## Places -/

/-- A place where a file for a module is looked for. -/
structure Place where
  kind : PathKind
  /-- The index of the directory in its list. -/
  dir : Nat
  /-- The index of the extension. -/
  ext : Nat
  /-- Whether the name is as it is written; else its first letter is small. -/
  written : Bool

/-- `FileName name ext written n`: the name of a file for a module is the name of the
    module as it is written, or with the lowercase of its first character before the
    others. -/
inductive FileName (name ext : String) : Bool → String → Prop
  | written : FileName name ext true (name ++ "." ++ ext)
  | small {c : Char} {cs small : List Char} : name.toList = c :: cs → Lower c small →
      FileName name ext false (String.ofList (small ++ cs) ++ "." ++ ext)

/-- `place.At s name p`: the file at a place, in a directory and under an extension that
    are listed. -/
def Place.At (s : Search) (name : String) (place : Place) (p : Path) : Prop :=
  ∃ dir ext n, (s.dirs place.kind)[place.dir]? = some dir ∧
    s.extensions[place.ext]? = some ext ∧ FileName name ext place.written n ∧
    p = dir.join (.ofText n)

/-- The order of the search: source directories before build directories, then by
    directory, then by extension, then the small letter first. -/
inductive Place.Before : Place → Place → Prop
  | kind {i i' j j' : Nat} {b b' : Bool} : Before ⟨.source, i, j, b⟩ ⟨.build, i', j', b'⟩
  | dir {k : PathKind} {i i' j j' : Nat} {b b' : Bool} : i < i' →
      Before ⟨k, i, j, b⟩ ⟨k, i', j', b'⟩
  | ext {k : PathKind} {i j j' : Nat} {b b' : Bool} : j < j' →
      Before ⟨k, i, j, b⟩ ⟨k, i, j', b'⟩
  | name {k : PathKind} {i j : Nat} : Before ⟨k, i, j, false⟩ ⟨k, i, j, true⟩

theorem Place.before_trichotomy (p q : Place) : p.Before q ∨ p = q ∨ q.Before p := by
  obtain ⟨k, i, j, b⟩ := p
  obtain ⟨k', i', j', b'⟩ := q
  cases k <;> cases k'
  case source.build => exact .inl .kind
  case build.source => exact .inr (.inr .kind)
  all_goals
    rcases Nat.lt_trichotomy i i' with hi | rfl | hi
    · exact .inl (.dir hi)
    · rcases Nat.lt_trichotomy j j' with hj | rfl | hj
      · exact .inl (.ext hj)
      · cases b <;> cases b'
        case false.true => exact .inl .name
        case true.false => exact .inr (.inr .name)
        all_goals exact .inr (.inl rfl)
      · exact .inr (.inr (.ext hj))
    · exact .inr (.inr (.dir hi))

/-- The name of a file for a module that the search tries. -/
def fileName (name ext : String) (written : Bool) : String :=
  (if written then name else uncapitalise name) ++ "." ++ ext

theorem FileName.eq {name ext n : String} {written : Bool}
    (h : FileName name ext written n) : fileName name ext written = n := by
  cases h with
  | written => rfl
  | small hname hsmall => simp [fileName, uncapitalise, hname, lower_iff.1 hsmall]

/-- Names of files are those that the search tries. -/
theorem fileName_iff {name ext n : String} {written : Bool} (hname : name ≠ "") :
    FileName name ext written n ↔ fileName name ext written = n := by
  refine ⟨FileName.eq, ?_⟩
  rintro rfl
  cases written with
  | true => exact .written
  | false =>
    obtain ⟨c, cs, hcs⟩ := List.exists_cons_of_ne_nil (mt String.toList_eq_nil_iff.1 hname)
    simp only [fileName, uncapitalise, hcs, Bool.false_eq_true, if_false]
    exact .small hcs (lower_iff.2 rfl)

theorem Place.at_iff {s : Search} {name : String} {place : Place} {p : Path} (hname : name ≠ "") :
    place.At s name p ↔ ∃ dir ext, (s.dirs place.kind)[place.dir]? = some dir ∧
      s.extensions[place.ext]? = some ext ∧
      p = dir.join (.ofText (fileName name ext place.written)) := by
  simp only [At, fileName_iff hname, exists_and_left, exists_eq_left']

/-! ## The search -/

/-- A search gives what it finds first. -/
theorem exists_first_of_findSome? {α β : Type} {f : α → Option β} {l : List α} {b : β}
    (h : l.findSome? f = some b) : ∃ (i : Nat) (a : α), l[i]? = some a ∧ f a = some b ∧
      ∀ j < i, ∀ c, l[j]? = some c → f c = none := by
  obtain ⟨before, a, after, rfl, ha, hnone⟩ := List.findSome?_eq_some_iff.1 h
  refine ⟨before.length, a, by simp, ha, fun j hj c hc => ?_⟩
  rw [List.getElem?_append_left hj] at hc
  exact hnone c (List.mem_of_getElem? hc)

variable (isFile : Path → Bool) (s : Search) (name : String)

/-- The first file for a module in a directory with an extension. -/
def fileIn (dir : Path) (ext : String) : Option Path :=
  ([false, true].map fun written => dir.join (.ofText (fileName name ext written))).find? isFile

/-- The first file for a module in the directories of a list. -/
def fileAmong (kind : PathKind) : Option Path :=
  (s.dirs kind).findSome? fun dir => s.extensions.findSome? (fileIn isFile name dir)

/-- A name that begins with a small letter is tried once, which loses nothing. -/
theorem find?_fileNames (dir : Path) (ext : String) :
    ((fileNames name).map fun n => dir.join (.ofText (n ++ "." ++ ext))).find? isFile
      = fileIn isFile name dir ext := by
  by_cases hsmall : uncapitalise name = name
  · cases hf : isFile (dir.join (.ofText (name ++ "." ++ ext))) <;>
      simp [fileNames, fileIn, fileName, hsmall, hf]
  · simp [fileNames, fileIn, fileName, hsmall]

theorem find?_candidates : (s.candidates name).find? isFile
    = (fileAmong isFile s name .source).or (fileAmong isFile s name .build) := by
  simp only [candidates, List.find?_flatMap, find?_fileNames, List.findSome?_append]
  rfl

variable {isFile s name} {kind : PathKind} {p : Path}

theorem not_isFile_of_fileIn {dir : Path} {ext : String} (h : fileIn isFile name dir ext = none)
    (written : Bool) : ¬ isFile (dir.join (.ofText (fileName name ext written))) := by
  refine List.find?_eq_none.1 h _ (List.mem_map_of_mem ?_)
  cases written <;> simp

theorem first_of_fileIn {dir : Path} {ext : String} (h : fileIn isFile name dir ext = some p) :
    ∃ written, dir.join (.ofText (fileName name ext written)) = p ∧ isFile p ∧
      (written → ¬ isFile (dir.join (.ofText (fileName name ext false)))) := by
  have hfile : isFile p := List.find?_some h
  by_cases hsmall : isFile (dir.join (.ofText (fileName name ext false)))
  · refine ⟨false, ?_, hfile, by simp⟩
    simpa [fileIn, hsmall] using h
  · refine ⟨true, ?_, hfile, fun _ => hsmall⟩
    obtain ⟨written, -, hp⟩ := List.mem_map.1 (List.mem_of_find?_eq_some h)
    cases written with
    | true => exact hp
    | false => exact absurd (hp ▸ hfile) hsmall

/-- A list in which nothing is found has no file at any place. -/
theorem not_isFile_of_fileAmong {place : Place} (hname : name ≠ "")
    (h : fileAmong isFile s name place.kind = none) (hp : place.At s name p) : ¬ isFile p := by
  obtain ⟨dir, ext, hdir, hext, rfl⟩ := (Place.at_iff hname).1 hp
  have hnone := List.findSome?_eq_none_iff.1 h dir (List.mem_of_getElem? hdir)
  exact not_isFile_of_fileIn
    (List.findSome?_eq_none_iff.1 hnone ext (List.mem_of_getElem? hext)) place.written

/-- What is found in a list stands at its first place that has a file. -/
theorem first_of_fileAmong (hname : name ≠ "") (h : fileAmong isFile s name kind = some p) :
    ∃ place : Place, place.kind = kind ∧ place.At s name p ∧ isFile p ∧
      ∀ (earlier : Place) (q : Path), earlier.kind = kind → earlier.Before place →
        earlier.At s name q → ¬ isFile q := by
  obtain ⟨i, dir, hdir, hin, hdirs⟩ := exists_first_of_findSome? h
  obtain ⟨j, ext, hext, hfile, hexts⟩ := exists_first_of_findSome? hin
  obtain ⟨written, rfl, hp, hsmall⟩ := first_of_fileIn hfile
  refine ⟨⟨kind, i, j, written⟩, rfl, (Place.at_iff hname).2 ⟨dir, ext, hdir, hext, rfl⟩, hp, ?_⟩
  intro earlier q hkind hbefore hq
  obtain ⟨dir', ext', hdir', hext', rfl⟩ := (Place.at_iff hname).1 hq
  cases hbefore with
  | kind => cases hkind
  | dir hi =>
    have hnone := List.findSome?_eq_none_iff.1 (hdirs _ hi dir' hdir') ext'
      (List.mem_of_getElem? hext')
    exact not_isFile_of_fileIn hnone _
  | ext hj =>
    obtain rfl : dir = dir' := Option.some.inj (hdir.symm.trans hdir')
    exact not_isFile_of_fileIn (hexts _ hj ext' hext') _
  | name =>
    obtain rfl : dir = dir' := Option.some.inj (hdir.symm.trans hdir')
    obtain rfl : ext = ext' := Option.some.inj (hext.symm.trans hext')
    exact hsmall rfl

/-- `First isFile s name place p`: the place has the file `p`, and no place before it
    has one. -/
structure First (isFile : Path → Bool) (s : Search) (name : String) (place : Place) (p : Path) :
    Prop where
  path : place.At s name p
  file : isFile p
  before : ∀ (earlier : Place) (q : Path), earlier.Before place → earlier.At s name q → ¬ isFile q

theorem Place.At.unique {place : Place} {p' : Path} (h : place.At s name p)
    (h' : place.At s name p') : p = p' := by
  obtain ⟨dir, ext, n, hdir, hext, hn, rfl⟩ := h
  obtain ⟨dir', ext', n', hdir', hext', hn', rfl⟩ := h'
  obtain rfl : dir = dir' := Option.some.inj (hdir.symm.trans hdir')
  obtain rfl : ext = ext' := Option.some.inj (hext.symm.trans hext')
  rw [← hn.eq, ← hn'.eq]

theorem First.unique {place place' : Place} {p' : Path} (h : First isFile s name place p)
    (h' : First isFile s name place' p') : p = p' := by
  rcases place.before_trichotomy place' with hlt | rfl | hlt
  · exact absurd h.file (h'.before place p hlt h.path)
  · exact h.path.unique h'.path
  · exact absurd h'.file (h.before place' p' hlt h'.path)

/-- **Lookup.**  No place has a file, or the first place that has one is found. -/
theorem which_cases (isFile : Path → Bool) (s : Search) (hname : isPlainName name) :
    (s.which isFile name = none ∧
      ∀ (place : Place) (q : Path), place.At s name q → ¬ isFile q) ∨
    ∃ place p, s.which isFile name = some p ∧ First isFile s name place p := by
  have hne : name ≠ "" := fun hnil => isPlainName_iff_not.1 hname (.inl hnil)
  rw [which, if_pos hname, find?_candidates]
  cases hsource : fileAmong isFile s name .source with
  | some p =>
    obtain ⟨place, hkind, hp, hfile, hbefore⟩ := first_of_fileAmong hne hsource
    refine .inr ⟨place, p, rfl, hp, hfile, fun earlier q hlt => hbefore earlier q ?_ hlt⟩
    cases hlt with
    | kind => cases hkind
    | dir _ | ext _ | name => exact hkind
  | none =>
    cases hbuild : fileAmong isFile s name .build with
    | none =>
      refine .inl ⟨rfl, fun place q => not_isFile_of_fileAmong hne ?_⟩
      cases place.kind with
      | source => exact hsource
      | build => exact hbuild
    | some p =>
      obtain ⟨place, hkind, hp, hfile, hbefore⟩ := first_of_fileAmong hne hbuild
      refine .inr ⟨place, p, rfl, hp, hfile, fun earlier q hlt => ?_⟩
      cases hk : earlier.kind with
      | source => exact not_isFile_of_fileAmong hne (hk ▸ hsource)
      | build => exact hbefore earlier q hk hlt

theorem which_eq_some_iff (hname : isPlainName name) :
    s.which isFile name = some p ↔ ∃ place, First isFile s name place p := by
  rcases which_cases isFile s hname with ⟨hnone, hall⟩ | ⟨place, q, hq, hfirst⟩
  · rw [hnone]
    constructor
    · intro h
      cases h
    · rintro ⟨place, h⟩
      exact absurd h.file (hall place p h.path)
  · rw [hq]
    constructor
    · intro h
      exact ⟨place, Option.some.inj h ▸ hfirst⟩
    · rintro ⟨place', h⟩
      rw [hfirst.unique h]

end Search

/-! ## Names of files -/

namespace Search

theorem isPlainName_iff {name : String} : isPlainName name ↔
    name.toList ≠ [] ∧ name.toList ≠ ['.'] ∧ name.toList ≠ ['.', '.'] ∧ '/' ∉ name.toList := by
  have hdot : name = "." ↔ name.toList = ['.'] := String.toList_inj.symm
  have hdots : name = ".." ↔ name.toList = ['.', '.'] := String.toList_inj.symm
  simp [isPlainName, and_assoc, hdot, hdots]

/-- A plain name with a small first letter can begin a plain name. -/
theorem uncapitalise_stem {name : String} (h : isPlainName name) :
    (uncapitalise name).toList ≠ [] ∧ (uncapitalise name).toList ≠ ['.'] ∧
      '/' ∉ (uncapitalise name).toList := by
  obtain ⟨hne, hdot, -, hslash⟩ := isPlainName_iff.1 h
  obtain ⟨c, cs, hcs⟩ := List.exists_cons_of_ne_nil hne
  have hsmall : (uncapitalise name).toList = lowercase c ++ cs := by
    rw [uncapitalise, hcs, String.toList_ofList]
  rw [hcs] at hdot hslash
  rw [hsmall]
  refine ⟨by simp [lowercase_ne_nil], fun heq => ?_, fun hmem => ?_⟩
  · rcases List.append_eq_singleton_iff.1 heq with ⟨hc, -⟩ | ⟨hc, rfl⟩
    · exact lowercase_ne_nil c hc
    · rcases mem_lowercase (hc ▸ List.mem_singleton_self '.') with rfl | ⟨hc, -⟩
      · exact hdot rfl
      · exact hc rfl
  · rcases List.mem_append.1 hmem with hc | hmem
    · rcases mem_lowercase hc with rfl | ⟨-, hc⟩
      · simp at hslash
      · exact hc rfl
    · exact hslash (List.mem_cons_of_mem c hmem)

/-- The name of a file is one component. -/
theorem isPlainName_fileName {name ext : String} (hname : isPlainName name)
    (hext : '/' ∉ ext.toList) (written : Bool) : isPlainName (fileName name ext written) := by
  obtain ⟨stem, hstem, hne, hdot, hslash⟩ : ∃ stem : String,
      fileName name ext written = stem ++ "." ++ ext ∧
      stem.toList ≠ [] ∧ stem.toList ≠ ['.'] ∧ '/' ∉ stem.toList := by
    cases written with
    | false => exact ⟨uncapitalise name, rfl, uncapitalise_stem hname⟩
    | true =>
      obtain ⟨hne, hdot, -, hslash⟩ := isPlainName_iff.1 hname
      exact ⟨name, rfl, hne, hdot, hslash⟩
  have hcs : (fileName name ext written).toList = stem.toList ++ '.' :: ext.toList := by
    rw [hstem]
    simp
  obtain ⟨c, cs, hc⟩ := List.exists_cons_of_ne_nil hne
  rw [isPlainName_iff, hcs]
  refine ⟨by simp, by simp [hc], fun hdots => ?_, by simp [hslash, hext]⟩
  -- two dots would leave one of them for the stem
  rw [hc, List.cons_append, List.cons.injEq] at hdots
  rcases List.append_eq_singleton_iff.1 hdots.2 with ⟨rfl, -⟩ | ⟨-, hnil⟩
  · exact hdot (by rw [hc, hdots.1])
  · cases hnil

end Search

/-! ## One component more -/

namespace Path

variable {p q : Path} {n : List UInt8}

/-- What is joined to a directory stands behind a slash; a slash that the directory
    ends with adds no component. -/
theorem exists_join_eq (hq : q.isAbsolute = false) (hp : p.bytes ≠ []) : ∃ before blank,
    (p.join q).bytes = before ++ slash :: q.bytes ∧
      (p.join q).isAbsolute = p.isAbsolute ∧
      splitSlashes p.bytes = splitSlashes before ++ blank ∧
      blank.filterMap Component.ofPiece? = [] := by
  obtain ⟨b, bs, hb⟩ := List.exists_cons_of_ne_nil hp
  rw [join, if_neg (by simp [hq])]
  by_cases hend : p.bytes.getLast? = some slash
  · obtain ⟨before, hbefore⟩ := List.getLast?_eq_some_iff.1 hend
    rw [if_pos (by simp [hend])]
    refine ⟨before, [[]], by simp [hbefore], by simp [isAbsolute, hb], ?_, by decide⟩
    rw [hbefore, splitSlashes_append_slash]
    rfl
  · rw [if_neg (by simp [hend, hp])]
    exact ⟨p.bytes, [], rfl, by simp [isAbsolute, hb], by simp, rfl⟩

theorem splitSlashes_name (hn : PlainName n) : splitSlashes n = [n] := by
  rw [splitSlashes_eq_splitOn, List.splitOn_eq_singleton hn.slash]

theorem isAbsolute_name (hn : PlainName n) : (Path.mk n).isAbsolute = false := by
  rw [isAbsolute, decide_eq_false_iff_not]
  exact fun hhead => hn.slash (List.mem_of_head? hhead)

/-- Behind a directory, a plain name is one component more. -/
theorem components_join (hn : PlainName n) (p : Path) :
    (p.join ⟨n⟩).components = p.components ++ [.name n] := by
  have hname : [n].filterMap Component.ofPiece? = [.name n] :=
    Component.filterMap_ofPiece? (List.forall_mem_singleton.2 hn)
  by_cases hp : p.bytes = []
  · have hjoin : p.join ⟨n⟩ = ⟨n⟩ := by
      simp [join, hp, isAbsolute_name hn]
    have hempty : p.components = [] := by
      obtain rfl : p = ⟨[]⟩ := congrArg mk hp
      decide
    rw [hjoin, hempty, components]
    simp [isAbsolute_name hn, splitSlashes_name hn, hname, hn.ne_dot]
  · obtain ⟨before, blank, hbytes, habs, hpieces, hblank⟩ :=
      exists_join_eq (isAbsolute_name hn) hp
    have hhead : ∀ more, (splitSlashes before ++ more).head? = (splitSlashes before).head? :=
      fun more => List.head?_append_of_ne_nil _ (splitSlashes_ne_nil before)
    simp only [components, hbytes, habs, hpieces, splitSlashes_append_slash, splitSlashes_name hn,
      hhead, List.filterMap_append, hblank, hname, List.append_nil, List.append_assoc]

theorem leadsTo_join (hn : PlainName n) (p : Path) (dir : List (List UInt8)) :
    (p.join ⟨n⟩).leadsTo dir = n :: p.leadsTo dir := by
  rw [← leadsTo_walk, ← leadsTo_walk, walk, components_join hn, List.foldl_append]
  rfl

end Path

namespace Search

/-- **Modules.**  Whatever the file system: a name that is empty, `.` or `..`, or has a
    slash, is not found.  Any other is found exactly when some place has a file, and
    then it is the file of the first such place: with the lowercase of its first
    character before the others, or after that as it is written.  If no extension has
    a slash, what is found is a listed directory with one plain component more:
    wherever the directory leads, the file is right below. -/
theorem which_first (isFile : Path → Bool) (s : Search) (name : String) :
    let refused := name = "" ∨ name = "." ∨ name = ".." ∨ '/' ∈ name.toList
    (refused → s.which isFile name = none) ∧
    (¬ refused →
      ((∃ p, s.which isFile name = some p) ↔
        ∃ (place : Place) (q : Path), place.At s name q ∧ isFile q) ∧
      ∀ p, s.which isFile name = some p ↔ ∃ place, First isFile s name place p) ∧
    ((∀ ext ∈ s.extensions, '/' ∉ ext.toList) → ∀ p, s.which isFile name = some p →
      ∃ kind, ∃ d ∈ s.dirs kind, ∃ n, isPlainName n ∧
        p.components = d.components ++ [.name (encodeUtf8 n)] ∧
        ∀ dir, p.leadsTo dir = encodeUtf8 n :: d.leadsTo dir) := by
  intro refused
  have hrefused : ∀ p, s.which isFile name = some p → isPlainName name := by
    intro p hp
    by_contra hname
    rw [which, if_neg hname] at hp
    cases hp
  refine ⟨fun h => ?_, fun h => ⟨?_, fun p => which_eq_some_iff (isPlainName_iff_not.2 h)⟩,
    fun hext p hp => ?_⟩
  · rw [which, if_neg fun hname => isPlainName_iff_not.1 hname h]
  · rcases which_cases isFile s (isPlainName_iff_not.2 h) with
      ⟨hnone, hall⟩ | ⟨place, p, hp, hfirst⟩
    · rw [hnone]
      constructor
      · rintro ⟨p, hp⟩
        cases hp
      · rintro ⟨place, q, hq, hfile⟩
        exact absurd hfile (hall place q hq)
    · exact ⟨fun _ => ⟨place, p, hfirst.path, hfirst.file⟩, fun _ => ⟨p, hp⟩⟩
  · have hname := hrefused p hp
    obtain ⟨place, hfirst⟩ := (which_eq_some_iff hname).1 hp
    obtain ⟨d, ext, n, hd, hmem, hn, rfl⟩ := hfirst.path
    have hplain : isPlainName n := by
      rw [← hn.eq]
      exact isPlainName_fileName hname (hext ext (List.mem_of_getElem? hmem)) place.written
    have hbytes := plainName_encodeUtf8.2 hplain
    exact ⟨place.kind, d, List.mem_of_getElem? hd, n, hplain, Path.components_join hbytes d,
      Path.leadsTo_join hbytes d⟩

/-- A module with a file in a build directory, and two in a source directory, which comes
    before it; there the small name comes first. -/
theorem which_first_small :
    let s : Search := { source := [.ofText "/w/src"], build := [.ofText "/w/out/"] }
    let isFile := fun p : Path =>
      p.lossy ∈ ["/w/out/inner.ml", "/w/src/Inner.mli", "/w/src/inner.mli"]
    (∀ ext ∈ s.extensions, '/' ∉ ext.toList) ∧
      s.which isFile "Inner" = some (.ofText "/w/src/inner.mli") ∧
      (∃ place, First isFile s "Inner" place (.ofText "/w/src/inner.mli")) ∧
      (∃ kind, ∃ d ∈ s.dirs kind, ∃ n,
        (Path.ofText "/w/src/inner.mli").components = d.components ++ [.name (encodeUtf8 n)]) ∧
      s.which isFile "../Inner" = none := by
  intro s isFile
  have hext : ∀ ext ∈ s.extensions, '/' ∉ ext.toList := by decide +kernel
  have hwhich : s.which isFile "Inner" = some (.ofText "/w/src/inner.mli") := by decide +kernel
  obtain ⟨-, hfirst, hin⟩ := which_first isFile s "Inner"
  obtain ⟨kind, d, hd, n, -, hn, -⟩ := hin hext _ hwhich
  refine ⟨hext, hwhich, ((hfirst (by decide +kernel)).2 _).1 hwhich, ⟨kind, d, hd, n, hn⟩, ?_⟩
  exact (which_first isFile s "../Inner").1 (by decide +kernel)

end Search

end PhraseServer
