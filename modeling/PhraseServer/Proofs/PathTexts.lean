/-
  Paths as texts.

  A client writes texts and is shown texts, but a path is bytes: the home directory and
  the working directory may hold bytes that no text has, and what is shown of them then
  spells another path.

  * `isUtf8_iff_ofText_lossy`: the paths that texts spell are those that are shown as
    they are;
  * `IsUtf8.resolveDir`: what a client means by a directory is one of them, if the home
    and the working directory are;
  * `Normal.resolveDir_lossy_iff`: what is shown of a normal path means it only if it is
    one of them, and then wherever it is sent from.
-/
import PhraseServer.Proofs.Paths

namespace PhraseServer

/-! ## Texts cut and joined -/

/-- Bytes that are UTF-8. -/
def IsText (bytes : List UInt8) : Prop := ∃ text, encodeUtf8 text = bytes

namespace IsText

variable {a b : List UInt8}

theorem append (ha : IsText a) (hb : IsText b) : IsText (a ++ b) := by
  obtain ⟨s, rfl⟩ := ha
  obtain ⟨t, rfl⟩ := hb
  exact ⟨s ++ t, encodeUtf8_append s t⟩

theorem slash_cons (hb : IsText b) : IsText (slash :: b) :=
  append (a := [slash]) ⟨"/", by decide⟩ hb

theorem joinSlashes {pieces : List (List UInt8)} (h : ∀ piece ∈ pieces, IsText piece) :
    IsText (joinSlashes pieces) := by
  induction pieces with
  | nil => exact ⟨"", by decide⟩
  | cons piece pieces ih =>
    obtain ⟨hpiece, hpieces⟩ := List.forall_mem_cons.1 h
    cases pieces with
    | nil => simpa [PhraseServer.joinSlashes] using hpiece
    | cons next pieces =>
      rw [PhraseServer.joinSlashes, List.intercalate_cons_cons, List.append_assoc,
        List.singleton_append]
      exact hpiece.append (ih hpieces).slash_cons

end IsText

theorem splitSlashes_append {front bs piece : List UInt8} {pieces : List (List UInt8)}
    (h : slash ∉ front) (hs : splitSlashes bs = piece :: pieces) :
    splitSlashes (front ++ bs) = (front ++ piece) :: pieces := by
  induction front with
  | nil => exact hs
  | cons b front ih =>
    obtain ⟨hb, hfront⟩ := not_or.1 (mt List.mem_cons.2 h)
    rw [List.cons_append, splitSlashes, if_neg (Ne.symm hb), ih hfront, List.cons_append]

/-- The pieces of a text are texts. -/
theorem isText_of_mem_splitSlashes {text : String} {piece : List UInt8}
    (h : piece ∈ splitSlashes (encodeUtf8 text)) : IsText piece := by
  rw [encodeUtf8] at h
  generalize text.toList = cs at h
  induction cs generalizing piece with
  | nil => exact ⟨"", (List.mem_singleton.1 h).symm⟩
  | cons c cs ih =>
    rw [List.flatMap_cons] at h
    by_cases hc : c = '/'
    · have hslash : String.utf8EncodeChar c = [slash] := by rw [hc]; decide
      rw [hslash, List.singleton_append, splitSlashes, if_pos rfl] at h
      rcases List.mem_cons.1 h with rfl | h
      · exact ⟨"", by decide⟩
      · exact ih h
    · have hfront : slash ∉ String.utf8EncodeChar c :=
        mt (ascii_mem_utf8EncodeChar (by decide)).1 hc
      obtain ⟨first, pieces, hs⟩ :=
        List.exists_cons_of_ne_nil (splitSlashes_ne_nil (cs.flatMap String.utf8EncodeChar))
      rw [splitSlashes_append hfront hs] at h
      rw [hs] at ih
      rcases List.mem_cons.1 h with rfl | h
      · have hchar : IsText (String.utf8EncodeChar c) := ⟨String.ofList [c], by simp [encodeUtf8]⟩
        exact hchar.append (ih List.mem_cons_self)
      · exact ih (List.mem_cons_of_mem _ h)

namespace Walk

/-- The names on which a walk stands come from its components. -/
theorem mem_names_foldl {w : Walk} {cs : List Component} {n : List UInt8}
    (h : n ∈ (cs.foldl step w).names) : n ∈ w.names ∨ Component.name n ∈ cs := by
  induction cs generalizing w with
  | nil => exact .inl h
  | cons c cs ih =>
    rcases ih h with hn | hn
    · cases c with
      | root => cases hn
      | here => exact .inl hn
      | name m =>
        rcases List.mem_cons.1 hn with rfl | hn
        · exact .inr List.mem_cons_self
        · exact .inl hn
      | up =>
        simp only [step] at hn
        split at hn
        · next m names hnames => exact .inl (hnames ▸ List.mem_cons_of_mem m hn)
        · split_ifs at hn
          · exact .inl hn
          · exact .inl hn
    · exact .inr (List.mem_cons_of_mem c hn)

/-- A walk on names that are texts is spelled as a text. -/
theorem isText_path {w : Walk} (h : ∀ n ∈ w.names, IsText n) : IsText w.path.bytes := by
  have hnames : ∀ n ∈ w.names.reverse, IsText n := fun n hn => h n (List.mem_reverse.1 hn)
  unfold path
  split_ifs
  · exact (IsText.joinSlashes hnames).slash_cons
  · split
    · exact ⟨".", by decide⟩
    · refine IsText.joinSlashes (List.forall_mem_append.2 ⟨fun piece hpiece => ?_, hnames⟩)
      rw [List.eq_of_mem_replicate hpiece]
      exact ⟨"..", by decide⟩

end Walk

/-! ## Paths that texts spell -/

namespace Path

variable {p q cwd : Path} {text : String}

/-- A path that some text spells. -/
def IsUtf8 (p : Path) : Prop := ∃ text, ofText text = p

@[simp] theorem lossy_ofText (text : String) : (ofText text).lossy = text := by
  rw [lossy, ofText, decodeLossy_encodeUtf8, String.ofList_toList]

theorem isUtf8_ofText (text : String) : (ofText text).IsUtf8 := ⟨text, rfl⟩

theorem isUtf8_iff_isText : p.IsUtf8 ↔ IsText p.bytes :=
  ⟨fun ⟨text, h⟩ => ⟨text, congrArg bytes h⟩, fun ⟨text, h⟩ => ⟨text, congrArg mk h⟩⟩

/-- A path is UTF-8 exactly if what is shown of it spells it. -/
theorem isUtf8_iff_ofText_lossy : p.IsUtf8 ↔ ofText p.lossy = p := by
  refine ⟨?_, fun h => ⟨_, h⟩⟩
  rintro ⟨text, rfl⟩
  rw [lossy_ofText]

theorem mem_splitSlashes_of_mem_walk {n : List UInt8} (h : n ∈ p.walk.names) :
    n ∈ splitSlashes p.bytes := by
  rcases Walk.mem_names_foldl h with h | h
  · cases h
  rw [components] at h
  rcases List.mem_append.1 h with h | h
  · split_ifs at h <;> simp at h
  · obtain ⟨piece, hpiece, hname⟩ := List.mem_filterMap.1 h
    unfold Component.ofPiece? at hname
    split_ifs at hname
    · cases hname
    · exact Component.name.inj (Option.some.inj hname) ▸ hpiece

namespace IsUtf8

theorem normalise (h : p.IsUtf8) : p.normalise.IsUtf8 := by
  obtain ⟨text, rfl⟩ := h
  exact isUtf8_iff_isText.2
    (Walk.isText_path fun n hn => isText_of_mem_splitSlashes (mem_splitSlashes_of_mem_walk hn))

theorem join (hp : p.IsUtf8) (hq : q.IsUtf8) : (p.join q).IsUtf8 := by
  unfold Path.join
  split_ifs
  · exact hq
  · exact isUtf8_iff_isText.2 ((isUtf8_iff_isText.1 hp).append (isUtf8_iff_isText.1 hq))
  · exact isUtf8_iff_isText.2 ((isUtf8_iff_isText.1 hp).append (isUtf8_iff_isText.1 hq).slash_cons)

/-- What a client means by a directory is UTF-8, from a home and a working directory that
    are. -/
theorem resolveDir {home : Option Path} (hhome : ∀ h ∈ home, h.IsUtf8) (hcwd : cwd.IsUtf8)
    (input : String) : (resolveDir home cwd input).IsUtf8 := by
  have hexpand : (expandHome home input).IsUtf8 := by
    unfold expandHome
    split
    · exact isUtf8_ofText input
    · split
      · exact hhome _ rfl
      · exact (hhome _ rfl).join (isUtf8_ofText _)
      · exact isUtf8_ofText input
  unfold Path.resolveDir
  refine normalise ?_
  split_ifs
  · exact hexpand
  · exact hcwd.join hexpand

end IsUtf8

/-! ## Texts that mean a path -/

theorem isAbsolute_ofText : (ofText text).isAbsolute ↔ text.toList.head? = some '/' := by
  rw [isAbsolute, decide_eq_true_eq, ofText, encodeUtf8]
  cases text.toList with
  | nil => simp
  | cons c cs =>
    rw [List.flatMap_cons, List.head?_append_of_ne_nil _ String.utf8EncodeChar_ne_nil,
      List.head?_cons, Option.some_inj]
    constructor
    · intro h
      exact (ascii_mem_utf8EncodeChar (by decide)).1 (List.mem_of_head? h)
    · rintro rfl
      decide

theorem expandHome_of_head? (h : text.toList.head? ≠ some '~') (home : Option Path) :
    expandHome home text = ofText text := by
  unfold expandHome
  split
  · rfl
  · split
    · next htext => exact absurd (by rw [htext]; rfl) h
    · next htext => exact absurd (by rw [htext]; rfl) h
    · rfl

/-- A text from the root means what it spells, wherever it is sent from. -/
theorem resolveDir_of_isAbsolute (h : (ofText text).isAbsolute) (home : Option Path) (cwd : Path) :
    resolveDir home cwd text = (ofText text).normalise := by
  have hhead : text.toList.head? ≠ some '~' := by
    rw [isAbsolute_ofText.1 h]
    decide
  rw [resolveDir, expandHome_of_head? hhead, if_pos h]

/-- What is shown of a path from the root begins at the root. -/
theorem head?_lossy (h : p.isAbsolute) : p.lossy.toList.head? = some '/' := by
  obtain ⟨bs, hbs⟩ := exists_bytes_of_isAbsolute h
  rw [lossy, hbs, String.toList_ofList]
  rfl

namespace Normal

/-- A text that spells a normal path means it, wherever it is sent from. -/
theorem resolveDir_eq (h : (ofText text).Normal) (home : Option Path) (cwd : Path) :
    resolveDir home cwd text = ofText text := by
  rw [resolveDir_of_isAbsolute h.absolute, h.normalise_eq]

end Normal

end Path

end PhraseServer
