/-
  Paths from the root.

  A normal path goes from the root straight down: its spelling has no `.` and no
  `..`, and a slash only before each name.  These are the spellings on which the
  lists of directories rest.

  * `sound_walk`: what a walk along any path can be;
  * `normal_iff`: the normal paths are the lists of plain names;
  * `normal_resolveDir`: what a client means by a directory is normal, from any
    absolute directory;
  * `Normal.same_iff`: normal paths are the same only if they are spelled alike.
-/
import Mathlib.Data.List.Basic
import PhraseServer.Proofs.Utf8
import PhraseServer.Search

namespace PhraseServer

/-! ## Pieces -/

theorem splitSlashes_eq_splitOn (bs : List UInt8) : splitSlashes bs = bs.splitOn slash := by
  induction bs with
  | nil => rfl
  | cons b bs ih =>
    rw [splitSlashes, List.splitOn_cons_eq_if_modifyHead, ih]
    simp only [beq_iff_eq]
    split_ifs with h
    · rfl
    · cases hs : bs.splitOn slash with
      | nil => exact absurd hs (List.splitOn_ne_nil slash bs)
      | cons piece pieces => rfl

theorem splitSlashes_ne_nil (bs : List UInt8) : splitSlashes bs ≠ [] :=
  splitSlashes_eq_splitOn bs ▸ List.splitOn_ne_nil slash bs

/-- Pieces that are joined stand each behind a slash. -/
theorem slash_cons_intercalate {pieces : List (List UInt8)} (h : pieces ≠ []) :
    slash :: [slash].intercalate pieces = pieces.flatMap (slash :: ·) := by
  induction pieces with
  | nil => exact absurd rfl h
  | cons piece pieces ih =>
    cases pieces with
    | nil => simp
    | cons next pieces =>
      rw [List.intercalate_cons_cons, List.flatMap_cons, ← ih (by simp)]
      simp

/-- A piece stands between two slashes, once the ends have theirs. -/
theorem eq_of_mem_splitSlashes {bs piece : List UInt8} (h : piece ∈ splitSlashes bs) :
    ∃ before after, slash :: bs ++ [slash] = before ++ slash :: (piece ++ slash :: after) := by
  rw [splitSlashes_eq_splitOn] at h
  obtain ⟨l, r, hlr⟩ := List.append_of_mem h
  have hbs : slash :: bs = (l ++ piece :: r).flatMap (slash :: ·) := by
    rw [← hlr, ← slash_cons_intercalate (List.splitOn_ne_nil slash bs), List.intercalate_splitOn]
  refine ⟨l.flatMap (slash :: ·), (r.flatMap (slash :: ·) ++ [slash]).tail, ?_⟩
  rw [hbs]
  cases r <;> simp

theorem splitSlashes_append_slash (before after : List UInt8) :
    splitSlashes (before ++ slash :: after) = splitSlashes before ++ splitSlashes after := by
  simp only [splitSlashes_eq_splitOn, List.splitOn_append_cons_self]

theorem slash_notMem_of_mem_splitSlashes {bs piece : List UInt8} (h : piece ∈ splitSlashes bs) :
    slash ∉ piece := by
  induction bs generalizing piece with
  | nil => simp_all [splitSlashes]
  | cons b bs ih =>
    rw [splitSlashes_eq_splitOn, List.splitOn_cons_eq_if_modifyHead, ← splitSlashes_eq_splitOn] at h
    simp only [beq_iff_eq] at h
    split_ifs at h with hb
    · rcases List.mem_cons.1 h with rfl | h
      · simp
      · exact ih h
    · cases hs : splitSlashes bs with
      | nil => simp [hs] at h
      | cons p ps =>
        rw [hs, List.modifyHead_cons] at h
        rw [hs] at ih
        rcases List.mem_cons.1 h with rfl | h
        · exact List.not_mem_cons_of_ne_of_not_mem (Ne.symm hb) (ih List.mem_cons_self)
        · exact ih (List.mem_cons_of_mem _ h)

/-! ## Plain names -/

/-- What a component of a path can be called. -/
structure PlainName (name : List UInt8) : Prop where
  ne_nil : name ≠ []
  ne_dot : name ≠ [dot]
  ne_dots : name ≠ [dot, dot]
  slash : slash ∉ name

theorem slash_mem_encodeUtf8 {s : String} : slash ∈ encodeUtf8 s ↔ '/' ∈ s.toList :=
  ascii_mem_encodeUtf8 (by decide)

theorem encodeUtf8_eq_iff {s t : String} {bs : List UInt8} (h : encodeUtf8 t = bs) :
    encodeUtf8 s = bs ↔ s = t := by
  rw [← h, encodeUtf8_injective.eq_iff]

theorem plainName_encodeUtf8 {name : String} :
    PlainName (encodeUtf8 name) ↔ Search.isPlainName name := by
  have hnil : encodeUtf8 name = [] ↔ name = "" := encodeUtf8_eq_iff (by decide)
  have hdot : encodeUtf8 name = [dot] ↔ name = "." := encodeUtf8_eq_iff (by decide)
  have hdots : encodeUtf8 name = [dot, dot] ↔ name = ".." := encodeUtf8_eq_iff (by decide)
  simp only [Search.isPlainName, Bool.and_eq_true, decide_eq_true_eq, Bool.not_eq_true',
    List.contains_eq_mem, decide_eq_false_iff_not, ← slash_mem_encodeUtf8, ne_eq, ← hnil, ← hdot,
    ← hdots]
  exact ⟨fun h => ⟨⟨⟨h.ne_nil, h.ne_dot⟩, h.ne_dots⟩, h.slash⟩,
    fun ⟨⟨⟨h₀, h₁⟩, h₂⟩, h₃⟩ => ⟨h₀, h₁, h₂, h₃⟩⟩

namespace Component

/-- What may follow the root among the components of a path. -/
def Inner (c : Component) : Prop := c = .up ∨ ∃ name, c = .name name ∧ PlainName name

theorem ofPiece?_of_plainName {name : List UInt8} (h : PlainName name) :
    ofPiece? name = some (.name name) := by
  simp only [ofPiece?, h.ne_nil, h.ne_dot, h.ne_dots, decide_false, Bool.or_self,
    Bool.false_eq_true, if_false]

theorem filterMap_ofPiece? {names : List (List UInt8)} (h : ∀ n ∈ names, PlainName n) :
    names.filterMap ofPiece? = names.map .name := by
  rw [← List.filterMap_eq_map]
  exact List.filterMap_congr fun n hn => ofPiece?_of_plainName (h n hn)

theorem inner_of_ofPiece? {piece : List UInt8} {c : Component} (h : ofPiece? piece = some c)
    (hp : slash ∉ piece) : c.Inner := by
  unfold ofPiece? at h
  split_ifs at h with h₁ h₂
  · exact .inl (Option.some.inj h).symm
  · simp only [Bool.or_eq_true, decide_eq_true_eq, not_or] at h₁
    exact .inr ⟨piece, (Option.some.inj h).symm, h₁.1, h₁.2, h₂, hp⟩

end Component

namespace Path

/-- The path from the root along names. -/
def ofNames (names : List (List UInt8)) : Path := ⟨slash :: joinSlashes names⟩

section
variable {names : List (List UInt8)} {p q : Path}

theorem isAbsolute_ofNames (names : List (List UInt8)) : (ofNames names).isAbsolute := by
  simp [isAbsolute, ofNames]

theorem splitSlashes_ofNames (hne : names ≠ []) (h : ∀ n ∈ names, PlainName n) :
    splitSlashes (ofNames names).bytes = [] :: names := by
  rw [ofNames, splitSlashes, if_pos rfl, splitSlashes_eq_splitOn, joinSlashes,
    List.splitOn_intercalate slash (fun n hn => (h n hn).slash) hne]

theorem components_of_isAbsolute (h : p.isAbsolute) :
    p.components = .root :: (splitSlashes p.bytes).filterMap Component.ofPiece? := by
  simp [components, h]

theorem components_ofNames (h : ∀ n ∈ names, PlainName n) :
    (ofNames names).components = .root :: names.map .name := by
  rw [components_of_isAbsolute (isAbsolute_ofNames names)]
  cases names with
  | nil => decide
  | cons n names =>
    rw [splitSlashes_ofNames (by simp) h, List.filterMap_cons_none rfl,
      Component.filterMap_ofPiece? h]

theorem eq_of_same_ofNames {ns ms : List (List UInt8)} (hn : ∀ n ∈ ns, PlainName n)
    (hm : ∀ m ∈ ms, PlainName m) (h : (ofNames ns).same (ofNames ms)) : ns = ms := by
  rw [same, components_ofNames hn, components_ofNames hm, decide_eq_true_eq] at h
  exact List.map_injective_iff.2 (fun _ _ => Component.name.inj) (List.cons.inj h).2

/-! ## Walks -/

theorem foldl_step_names (w : Walk) (names : List (List UInt8)) :
    (names.map Component.name).foldl Walk.step w
      = { w with names := names.reverse ++ w.names } := by
  induction names generalizing w with
  | nil => rfl
  | cons n names ih =>
    rw [List.map_cons, List.foldl_cons, ih]
    simp [Walk.step]

theorem walk_ofNames (h : ∀ n ∈ names, PlainName n) :
    (ofNames names).walk = { rooted := true, names := names.reverse } := by
  rw [walk, components_ofNames h, List.foldl_cons, foldl_step_names]
  simp [Walk.step]

/-- Names that are walked from the root lead to where they say. -/
theorem normalise_ofNames (h : ∀ n ∈ names, PlainName n) :
    (ofNames names).normalise = ofNames names := by
  rw [normalise, walk_ofNames h]
  simp [Walk.path, ofNames]

end

end Path

/-- What walks along paths are: at the root there is no way up, and names are plain. -/
structure Walk.Sound (w : Walk) : Prop where
  root : w.rooted → w.ups = 0
  plain : ∀ n ∈ w.names, PlainName n

namespace Walk.Sound

variable {w : Walk}

theorem plain_reverse (h : w.Sound) : ∀ n ∈ w.names.reverse, PlainName n :=
  fun n hn => h.plain n (List.mem_reverse.1 hn)

theorem step (h : w.Sound) {c : Component} (hc : c.Inner) :
    (w.step c).Sound ∧ (w.step c).rooted = w.rooted := by
  rcases hc with rfl | ⟨name, rfl, hname⟩
  · cases hn : w.names with
    | cons n names =>
      have hs : w.step .up = { w with names } := by simp [Walk.step, hn]
      rw [hs]
      exact ⟨⟨h.root, fun m hm => h.plain m (hn ▸ List.mem_cons_of_mem n hm)⟩, rfl⟩
    | nil =>
      have hs : w.step .up = if w.rooted then w else { w with ups := w.ups + 1 } := by
        simp [Walk.step, hn]
      rw [hs]
      split_ifs with hr
      · exact ⟨h, rfl⟩
      · exact ⟨⟨fun hroot => absurd hroot hr, h.plain⟩, rfl⟩
  · exact ⟨⟨h.root, List.forall_mem_cons.2 ⟨hname, h.plain⟩⟩, rfl⟩

theorem foldl (h : w.Sound) {cs : List Component} (hcs : ∀ c ∈ cs, c.Inner) :
    (cs.foldl Walk.step w).Sound ∧ (cs.foldl Walk.step w).rooted = w.rooted := by
  induction cs generalizing w with
  | nil => exact ⟨h, rfl⟩
  | cons c cs ih =>
    obtain ⟨hc, hcs⟩ := List.forall_mem_cons.1 hcs
    obtain ⟨hstep, hroot⟩ := h.step hc
    obtain ⟨hsound, hrest⟩ := ih hstep hcs
    exact ⟨hsound, hrest.trans hroot⟩

end Walk.Sound

/-- A walk from the root on plain names. -/
def Walk.Plain (w : Walk) : Prop := w.rooted ∧ ∀ n ∈ w.names, PlainName n

theorem Walk.Plain.path_eq {w : Walk} (h : w.Plain) : w.path = Path.ofNames w.names.reverse :=
  if_pos h.1

namespace Path

variable {p q cwd : Path}

/-- Walks along paths are sound, and begin at the root with the path. -/
theorem sound_walk (p : Path) : p.walk.Sound ∧ p.walk.rooted = p.isAbsolute := by
  have hinner : ∀ c ∈ (splitSlashes p.bytes).filterMap Component.ofPiece?, c.Inner := by
    intro c hc
    obtain ⟨piece, hpiece, hc⟩ := List.mem_filterMap.1 hc
    exact Component.inner_of_ofPiece? hc (slash_notMem_of_mem_splitSlashes hpiece)
  have hroot : Walk.Sound { rooted := true } := ⟨fun _ => rfl, List.forall_mem_nil _⟩
  have hstart : Walk.Sound {} := ⟨fun _ => rfl, List.forall_mem_nil _⟩
  rw [walk, components, List.foldl_append]
  cases habs : p.isAbsolute with
  | true => exact hroot.foldl hinner
  | false =>
    by_cases hdot : (splitSlashes p.bytes).head? = some [dot]
    · rw [if_neg (by simp), if_pos hdot]
      exact hstart.foldl hinner
    · rw [if_neg (by simp), if_neg hdot]
      exact hstart.foldl hinner

theorem plain_walk (h : p.isAbsolute) : p.walk.Plain :=
  ⟨p.sound_walk.2.trans h, p.sound_walk.1.plain⟩

/-! ## Normal paths -/

/-- A path that goes from the root straight down. -/
structure Normal (p : Path) : Prop where
  absolute : p.isAbsolute
  /-- No piece between slashes is `.` or `..`. -/
  dotless : ∀ piece ∈ splitSlashes p.bytes, piece ≠ [dot] ∧ piece ≠ [dot, dot]
  /-- No slash follows another. -/
  single : ∀ before after, p.bytes ≠ before ++ slash :: slash :: after
  /-- Only the slash of the root stands at the end. -/
  ending : ∀ before, p.bytes = before ++ [slash] → before = []

theorem normal_root : (ofNames []).Normal where
  absolute := rfl
  dotless := by decide
  single before after heq := by
    have hlen := congrArg List.length heq
    simp [ofNames, joinSlashes] at hlen
    omega
  ending before heq := by
    have hlen := congrArg List.length heq
    simpa [ofNames, joinSlashes] using hlen

theorem normal_ofNames {names : List (List UInt8)} (h : ∀ n ∈ names, PlainName n) :
    (ofNames names).Normal := by
  by_cases hne : names = []
  · exact hne ▸ normal_root
  have hpieces := splitSlashes_ofNames hne h
  -- a slash too many would leave an empty piece behind the first one
  have hslash : ∀ before pieces, splitSlashes (ofNames names).bytes
      ≠ splitSlashes before ++ [] :: pieces := by
    intro before pieces heq
    cases hb : splitSlashes before with
    | nil => exact splitSlashes_ne_nil before hb
    | cons first more =>
      rw [hpieces, hb, List.cons_append] at heq
      exact (h [] (by rw [(List.cons.inj heq).2]; simp)).ne_nil rfl
  refine ⟨isAbsolute_ofNames names, ?_, ?_, ?_⟩
  · rw [hpieces]
    exact List.forall_mem_cons.2 ⟨by simp, fun n hn => ⟨(h n hn).ne_dot, (h n hn).ne_dots⟩⟩
  · intro before after heq
    apply hslash before (splitSlashes after)
    rw [heq, splitSlashes_append_slash, splitSlashes, if_pos rfl]
  · intro before heq
    exact absurd (by rw [heq, splitSlashes_append_slash]; rfl) (hslash before [])

theorem exists_bytes_of_isAbsolute (h : p.isAbsolute) : ∃ bs, p.bytes = slash :: bs := by
  rwa [isAbsolute, decide_eq_true_eq, List.head?_eq_some_iff] at h

/-- Behind the slash of a normal path no piece is empty. -/
theorem Normal.ne_nil_of_mem (h : p.Normal) {bs piece : List UInt8} (hbs : p.bytes = slash :: bs)
    (hne : bs ≠ []) (hpiece : piece ∈ splitSlashes bs) : piece ≠ [] := by
  rintro rfl
  -- an empty piece stands between two slashes: both in the path, or one at its end
  obtain ⟨before, after, heq⟩ := eq_of_mem_splitSlashes hpiece
  rw [← hbs, List.nil_append] at heq
  rcases List.eq_nil_or_concat after with rfl | ⟨after, c, rfl⟩
  · have hend : p.bytes = before ++ [slash] := by
      have : p.bytes ++ [slash] = (before ++ [slash]) ++ [slash] := by simpa using heq
      exact List.append_cancel_right this
    rw [h.ending before hend] at hend
    exact hne (List.cons.inj (hbs.symm.trans hend)).2
  · have hmid : p.bytes ++ [slash] = (before ++ slash :: slash :: after) ++ [c] := by
      simpa using heq
    exact h.single before after (List.append_inj' hmid rfl).1

/-- **Normal paths.**  They are the plain names behind slashes. -/
theorem normal_iff :
    p.Normal ↔ ∃ names, (∀ n ∈ names, PlainName n) ∧ p = ofNames names := by
  constructor
  · intro h
    obtain ⟨bs, hbs⟩ := exists_bytes_of_isAbsolute h.absolute
    by_cases hne : bs = []
    · refine ⟨[], List.forall_mem_nil _, congrArg mk ?_⟩
      rw [hbs, hne]; rfl
    refine ⟨splitSlashes bs, fun n hn => ?_, congrArg mk ?_⟩
    · have hdotless := h.dotless n
      rw [hbs, splitSlashes, if_pos rfl] at hdotless
      obtain ⟨h₁, h₂⟩ := hdotless (List.mem_cons_of_mem _ hn)
      exact ⟨h.ne_nil_of_mem hbs hne hn, h₁, h₂, slash_notMem_of_mem_splitSlashes hn⟩
    · rw [joinSlashes, splitSlashes_eq_splitOn, List.intercalate_splitOn, hbs]
  · rintro ⟨names, hnames, rfl⟩
    exact normal_ofNames hnames

/-! ## Resolving -/

theorem isAbsolute_join (h : p.isAbsolute) (q : Path) : (p.join q).isAbsolute := by
  obtain ⟨cs, hcs⟩ := exists_bytes_of_isAbsolute h
  unfold join
  split_ifs with hq
  · exact hq
  · simp [isAbsolute, hcs]
  · simp [isAbsolute, hcs]

theorem normal_normalise (h : p.isAbsolute) : p.normalise.Normal := by
  have hw := plain_walk h
  rw [normalise, hw.path_eq]
  exact normal_ofNames fun n hn => hw.2 n (List.mem_reverse.1 hn)

/-- What a client means by a directory is normal, whatever it writes. -/
theorem normal_resolveDir (h : cwd.isAbsolute) (home : Option Path) (input : String) :
    (resolveDir home cwd input).Normal := by
  refine normal_normalise ?_
  split_ifs with hp
  · exact hp
  · exact isAbsolute_join h _

namespace Normal

theorem normalise_eq (h : p.Normal) : p.normalise = p := by
  obtain ⟨names, hnames, rfl⟩ := normal_iff.1 h
  exact normalise_ofNames hnames

/-- Normal paths are the same only if they are spelled alike. -/
theorem same_iff (hp : p.Normal) (hq : q.Normal) : p.same q ↔ p = q := by
  obtain ⟨ns, hns, rfl⟩ := normal_iff.1 hp
  obtain ⟨ms, hms, rfl⟩ := normal_iff.1 hq
  refine ⟨fun h => congrArg ofNames (eq_of_same_ofNames hns hms h), fun h => ?_⟩
  rw [h, same, decide_eq_true_eq]

end Normal

end Path

end PhraseServer
