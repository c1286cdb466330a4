/-
  Normal forms of paths.

  A path leads from one directory to another (`leadsTo`).  Here a directory is a stack
  of names, and a path is read piece by piece.  A walk has the same reading, and no
  two walks lead everywhere to the same place: so the spelling of a walk is a normal
  form.

  * `leadsTo_walk`: a path leads where its walk does;
  * `walk_path`: the spelling of a walk is walked as that walk;
  * `eq_of_leadsTo`: walks of one kind that lead to the same place are the same;
  * `normalise_canonical`: what `normalise` and `resolveDir` give.
-/
import PhraseServer.Proofs.PathTexts

namespace PhraseServer

/-! ## Where paths lead -/

namespace Path

/-- The directory that one piece of a path leads to.  Nothing and `.` stay, `..` goes
    up, and stays at the root. -/
def follow (dir : List (List UInt8)) (piece : List UInt8) : List (List UInt8) :=
  if piece = [] ∨ piece = [dot] then dir
  else if piece = [dot, dot] then dir.tail
  else piece :: dir

/-- The directory that a path leads to from another one. -/
def leadsTo (p : Path) (dir : List (List UInt8)) : List (List UInt8) :=
  (splitSlashes p.bytes).foldl follow (if p.isAbsolute then [] else dir)

/-- The directory of an absolute path. -/
def directory (p : Path) : List (List UInt8) := p.leadsTo []

/-- From every directory, two paths lead to the same one. -/
def SameDirectory (p q : Path) : Prop :=
  ∀ d : Path, d.isAbsolute → p.leadsTo d.directory = q.leadsTo d.directory

theorem follow_of_none {piece : List UInt8} (h : Component.ofPiece? piece = none)
    (dir : List (List UInt8)) : follow dir piece = dir := by
  unfold Component.ofPiece? at h
  split_ifs at h with h₁
  rw [follow, if_pos (by simpa using h₁)]

end Path

namespace Walk

/-- Where a walk from a directory stands. -/
def leadsTo (w : Walk) (dir : List (List UInt8)) : List (List UInt8) :=
  w.names ++ if w.rooted then [] else dir.drop w.ups

variable {w v : Walk}

/-- A step leads on as its piece does. -/
theorem leadsTo_step {piece : List UInt8} {c : Component} (h : Component.ofPiece? piece = some c)
    (dir : List (List UInt8)) : (w.step c).leadsTo dir = Path.follow (w.leadsTo dir) piece := by
  unfold Component.ofPiece? at h
  split_ifs at h with h₁ h₂
  · obtain rfl := Option.some.inj h
    cases hn : w.names with
    | cons n names => simp [step, leadsTo, Path.follow, hn, h₂]
    | nil =>
      cases hr : w.rooted with
      | true => simp [step, leadsTo, Path.follow, hn, hr, h₂]
      | false => simp [step, leadsTo, Path.follow, hn, hr, h₂]
  · obtain rfl := Option.some.inj h
    rw [Path.follow, if_neg (by simpa using h₁), if_neg h₂]
    rfl

theorem leadsTo_foldl (pieces : List (List UInt8)) (w : Walk) (dir : List (List UInt8)) :
    ((pieces.filterMap Component.ofPiece?).foldl step w).leadsTo dir
      = pieces.foldl Path.follow (w.leadsTo dir) := by
  induction pieces generalizing w with
  | nil => rfl
  | cons piece pieces ih =>
    rw [List.foldl_cons]
    cases hc : Component.ofPiece? piece with
    | none => rw [List.filterMap_cons_none hc, ih, Path.follow_of_none hc]
    | some c => rw [List.filterMap_cons_some hc, List.foldl_cons, ih, leadsTo_step hc]

end Walk

/-- A path leads where its walk does. -/
theorem Path.leadsTo_walk (p : Path) (dir : List (List UInt8)) :
    p.walk.leadsTo dir = p.leadsTo dir := by
  rw [walk, components, List.foldl_append, Walk.leadsTo_foldl, leadsTo]
  congr 1
  split_ifs <;> simp [Walk.step, Walk.leadsTo]

/-! ## Spelled walks -/

namespace Walk

variable {w v : Walk}

/-- The pieces of the path of a walk that is not from the root. -/
def pieces (w : Walk) : List (List UInt8) := List.replicate w.ups [dot, dot] ++ w.names.reverse

theorem path_of_relative (hr : w.rooted = false) (hne : w.pieces ≠ []) :
    w.path = ⟨joinSlashes w.pieces⟩ := by
  unfold path
  rw [if_neg (by simp [hr])]
  split
  · next heq => exact absurd heq hne
  · rfl

theorem eq_of_pieces_nil (hr : w.rooted = false) (h : w.pieces = []) : w = {} := by
  obtain ⟨rooted, ups, names⟩ := w
  obtain ⟨hups, hnames⟩ := List.append_eq_nil_iff.1 h
  obtain rfl : ups = 0 := by simpa using hups
  obtain rfl : names = [] := by simpa using hnames
  cases hr
  rfl

theorem Sound.piece (h : w.Sound) {n : List UInt8} (hn : n ∈ w.pieces) :
    n ≠ [] ∧ n ≠ [dot] ∧ slash ∉ n := by
  rcases List.mem_append.1 hn with hn | hn
  · rw [List.eq_of_mem_replicate hn]
    decide
  · have hplain := h.plain_reverse n hn
    exact ⟨hplain.ne_nil, hplain.ne_dot, hplain.slash⟩

theorem Sound.splitSlashes_path (h : w.Sound) (hr : w.rooted = false) (hne : w.pieces ≠ []) :
    splitSlashes w.path.bytes = w.pieces := by
  rw [path_of_relative hr hne, splitSlashes_eq_splitOn]
  exact List.splitOn_intercalate slash (fun n hn => (h.piece hn).2.2) hne

/-- The path of a walk begins at the root with the walk. -/
theorem Sound.isAbsolute_path (h : w.Sound) : w.path.isAbsolute = w.rooted := by
  cases hr : w.rooted with
  | true =>
    rw [path, if_pos hr]
    exact Path.isAbsolute_ofNames _
  | false =>
    by_cases hne : w.pieces = []
    · rw [eq_of_pieces_nil hr hne]
      decide
    · rw [Bool.eq_false_iff]
      intro habs
      -- the slash of the root would leave an empty piece before it
      obtain ⟨bs, hbs⟩ := Path.exists_bytes_of_isAbsolute habs
      have hpieces := h.splitSlashes_path hr hne
      rw [hbs, splitSlashes, if_pos rfl] at hpieces
      exact (h.piece (hpieces ▸ List.mem_cons_self)).1 rfl

theorem Sound.components_path (h : w.Sound) (hr : w.rooted = false) (hne : w.pieces ≠ []) :
    w.path.components = List.replicate w.ups .up ++ w.names.reverse.map .name := by
  have hpieces := h.splitSlashes_path hr hne
  have habs : w.path.isAbsolute = false := h.isAbsolute_path.trans hr
  have hhead : (splitSlashes w.path.bytes).head? ≠ some [dot] := by
    intro hdot
    rw [hpieces] at hdot
    exact (h.piece (List.mem_of_head? hdot)).2.1 rfl
  have hup : Component.ofPiece? [dot, dot] = some .up := by decide
  simp only [Path.components, habs, hhead, Bool.false_eq_true, if_false, List.nil_append]
  rw [hpieces, pieces, List.filterMap_append,
    List.filterMap_replicate_of_some hup, Component.filterMap_ofPiece? h.plain_reverse]

theorem foldl_step_ups (n k : Nat) :
    (List.replicate n Component.up).foldl step { ups := k } = { ups := k + n } := by
  induction n generalizing k with
  | zero => rfl
  | succ n ih =>
    rw [List.replicate_succ, List.foldl_cons]
    exact (ih (k + 1)).trans (by rw [Nat.add_assoc, Nat.add_comm 1 n])

/-- The spelling of a walk is walked as that walk. -/
theorem Sound.walk_path (h : w.Sound) : w.path.walk = w := by
  cases hr : w.rooted with
  | true =>
    rw [Plain.path_eq ⟨hr, h.plain⟩, Path.walk_ofNames h.plain_reverse, List.reverse_reverse]
    have hups := h.root hr
    cases w
    cases hr; cases hups
    rfl
  | false =>
    by_cases hne : w.pieces = []
    · rw [eq_of_pieces_nil hr hne]
      decide
    · rw [Path.walk, h.components_path hr hne, List.foldl_append, foldl_step_ups,
        Path.foldl_step_names, List.reverse_reverse]
      cases w
      cases hr
      simp

/-- **Walks lead apart.**  Walks of one kind that lead to the same place, from the root
    and from far enough below it, are the same. -/
theorem Sound.eq_of_leadsTo (hw : w.Sound) (hv : v.Sound) (hkind : w.rooted = v.rooted)
    {dir : List (List UInt8)} (hdir : w.ups + v.ups ≤ dir.length)
    (hroot : w.leadsTo [] = v.leadsTo []) (h : w.leadsTo dir = v.leadsTo dir) : w = v := by
  have hnames : w.names = v.names := by simpa [leadsTo] using hroot
  have hups : w.ups = v.ups := by
    cases hr : w.rooted with
    | true => rw [hw.root hr, hv.root (hkind.symm.trans hr)]
    | false =>
      have hlen := congrArg List.length h
      simp only [leadsTo, hnames, ← hkind, hr, Bool.false_eq_true, if_false, List.length_append,
        List.length_drop] at hlen
      omega
  cases w; cases v
  cases hkind; cases hnames; cases hups
  rfl

end Walk

/-! ## Normal forms -/

namespace Path

variable {p q : Path}

/-- `.` stands alone, and `..` only at the head of a relative path. -/
structure Folded (p : Path) : Prop where
  here : [dot] ∈ splitSlashes p.bytes → p.bytes = [dot]
  up : ∃ n rest, splitSlashes p.bytes = List.replicate n [dot, dot] ++ rest ∧
    [dot, dot] ∉ rest ∧ (p.isAbsolute → n = 0)

theorem folded_path {w : Walk} (h : w.Sound) : w.path.Folded := by
  cases hr : w.rooted with
  | true =>
    have hdotless := (normal_ofNames h.plain_reverse).dotless
    rw [Walk.Plain.path_eq ⟨hr, h.plain⟩]
    exact ⟨fun hdot => absurd rfl (hdotless _ hdot).1,
      0, _, rfl, fun hdots => (hdotless _ hdots).2 rfl, fun _ => rfl⟩
  | false =>
    by_cases hne : w.pieces = []
    · rw [Walk.eq_of_pieces_nil hr hne]
      exact ⟨fun _ => rfl, 0, [[dot]], by decide, by decide, fun _ => rfl⟩
    · have hpieces := h.splitSlashes_path hr hne
      refine ⟨fun hdot => ?_, w.ups, w.names.reverse, hpieces, fun hdots => ?_, fun habs => ?_⟩
      · rw [hpieces] at hdot
        exact absurd rfl (h.piece hdot).2.1
      · exact (h.plain_reverse _ hdots).ne_dots rfl
      · rw [h.isAbsolute_path, hr] at habs
        cases habs

theorem directory_ofNames {names : List (List UInt8)} (h : ∀ n ∈ names, PlainName n) :
    (ofNames names).directory = names.reverse := by
  rw [directory, ← leadsTo_walk, walk_ofNames h]
  simp [Walk.leadsTo]

theorem walk_normalise (p : Path) : p.normalise.walk = p.walk := p.sound_walk.1.walk_path

theorem leadsTo_normalise (p : Path) (dir : List (List UInt8)) :
    p.normalise.leadsTo dir = p.leadsTo dir := by
  rw [← leadsTo_walk, walk_normalise, leadsTo_walk]

theorem walk_eq_of_sameDirectory (hkind : p.isAbsolute = q.isAbsolute) (h : p.SameDirectory q) :
    p.walk = q.walk := by
  obtain ⟨hp, hpkind⟩ := p.sound_walk
  obtain ⟨hq, hqkind⟩ := q.sound_walk
  have hleads : ∀ names : List (List UInt8), (∀ n ∈ names, PlainName n) →
      p.walk.leadsTo names.reverse = q.walk.leadsTo names.reverse := by
    intro names hnames
    rw [leadsTo_walk, leadsTo_walk, ← directory_ofNames hnames]
    exact h _ (isAbsolute_ofNames names)
  refine hp.eq_of_leadsTo hq (by rw [hpkind, hqkind, hkind]) ?_
    (hleads [] (List.forall_mem_nil _))
    (hleads (List.replicate (p.walk.ups + q.walk.ups) (encodeUtf8 "a")) fun n hn => ?_)
  · simp
  · rw [List.eq_of_mem_replicate hn, plainName_encodeUtf8]
    decide

theorem normalise_eq_iff_walk_eq : p.normalise = q.normalise ↔ p.walk = q.walk := by
  refine ⟨fun h => ?_, fun h => congrArg Walk.path h⟩
  rw [← walk_normalise p, h, walk_normalise]

theorem sameDirectory_iff_walk_eq (hkind : p.isAbsolute = q.isAbsolute) :
    p.SameDirectory q ↔ p.walk = q.walk := by
  refine ⟨walk_eq_of_sameDirectory hkind, fun h d _ => ?_⟩
  rw [← leadsTo_walk p, h, leadsTo_walk]

/-- **Normal forms.**  The normal form of a path is of its kind, leads where the path
    does, has no `.` unless it is `.`, has `..` only at the head of a relative path,
    and is its own normal form.  Paths of one kind have the same normal form, by
    spelling or by components, exactly when they lead to the same directory from
    everywhere.  And what a client means by a directory goes from the root straight
    down.  A text that spells it means it, whatever the home and the working
    directory, and there is one if the home and the working directory from which it
    was meant are UTF-8: what is shown of it. -/
theorem normalise_canonical (p : Path) :
    p.normalise.isAbsolute = p.isAbsolute ∧ p.normalise.SameDirectory p ∧ p.normalise.Folded ∧
    p.normalise.normalise = p.normalise ∧
    (∀ q : Path, p.isAbsolute = q.isAbsolute →
      (p.normalise = q.normalise ↔ p.SameDirectory q) ∧
      (p.normalise.same q.normalise ↔ p.SameDirectory q)) ∧
    ∀ (home : Option Path) (cwd : Path) (input : String), cwd.isAbsolute →
      let r := resolveDir home cwd input
      r.isAbsolute ∧ (∀ piece ∈ splitSlashes r.bytes, piece ≠ [dot] ∧ piece ≠ [dot, dot]) ∧
        (∀ text, ofText text = r → ∀ home' cwd', resolveDir home' cwd' text = r) ∧
        ((∀ h ∈ home, h.IsUtf8) → cwd.IsUtf8 → ofText r.lossy = r) := by
  obtain ⟨hsound, hkind⟩ := p.sound_walk
  refine ⟨hsound.isAbsolute_path.trans hkind, fun d _ => p.leadsTo_normalise _,
    folded_path hsound, congrArg Walk.path p.walk_normalise, fun q hq => ⟨?_, ?_⟩, ?_⟩
  · rw [normalise_eq_iff_walk_eq, sameDirectory_iff_walk_eq hq]
  · rw [same, decide_eq_true_eq, sameDirectory_iff_walk_eq hq, ← normalise_eq_iff_walk_eq]
    refine ⟨fun h => ?_, fun h => congrArg components h⟩
    rw [normalise_eq_iff_walk_eq, ← walk_normalise p, ← walk_normalise q, walk, walk, h]
  · intro home cwd input hcwd r
    have hr : r.Normal := normal_resolveDir hcwd home input
    refine ⟨hr.absolute, hr.dotless, fun text htext home' cwd' => ?_, fun hhome hutf8 => ?_⟩
    · rw [← htext] at hr ⊢
      exact hr.resolveDir_eq home' cwd'
    · exact isUtf8_iff_ofText_lossy.1 (IsUtf8.resolveDir hhome hutf8 input)

/-- Two spellings of one directory beside the start, one of another, and a directory
    that is reached through the home directory. -/
theorem normalise_canonical_beside :
    (ofText "a/../../b/.").isAbsolute = (ofText "..//b/").isAbsolute ∧
      (ofText "a/../../b/.").SameDirectory (ofText "..//b/") ∧
      ¬ (ofText "a/../../b/.").SameDirectory (ofText "../../b") ∧
      (ofText "/work").isAbsolute ∧ (ofText "/work").IsUtf8 ∧ (ofText "/home/u").IsUtf8 ∧
      ∀ home cwd, resolveDir home cwd
          (resolveDir (some (ofText "/home/u")) (ofText "/work") "~/../v/.").lossy
        = ofText "/home/v" := by
  obtain ⟨-, -, -, -, hsame, hresolve⟩ := normalise_canonical (ofText "a/../../b/.")
  have hkind : (ofText "a/../../b/.").isAbsolute = (ofText "..//b/").isAbsolute := by
    decide +kernel
  have hcwd : (ofText "/work").isAbsolute := by decide +kernel
  have hutf8 := isUtf8_ofText "/home/u"
  have hdir : resolveDir (some (ofText "/home/u")) (ofText "/work") "~/../v/."
      = ofText "/home/v" := by
    decide +kernel
  obtain ⟨-, -, hself, hshown⟩ :=
    hresolve (some (ofText "/home/u")) (ofText "/work") "~/../v/." hcwd
  refine ⟨hkind, (hsame _ hkind).1.1 (by decide +kernel), fun h => ?_, hcwd, isUtf8_ofText _,
    hutf8, fun home cwd => ?_⟩
  · have hother := (hsame (ofText "../../b") (by decide +kernel)).1.2 h
    revert hother
    decide +kernel
  · have hspelled := hshown (by simpa using hutf8) (isUtf8_ofText _)
    exact (hself _ hspelled home cwd).trans hdir

end Path

end PhraseServer
