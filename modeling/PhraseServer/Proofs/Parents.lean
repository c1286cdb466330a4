/-
  Parents of paths.

  A spelling is cut into a head, the slash of the root or a leading `.`, and steps
  behind it.  The parent of a path is found from the back of the spelling, past slashes
  and `.` that are no components; what is left has the same head and one step less.

  * `components_parent?`: the parent of a path is the path without its last component;
  * `exists_parent?`: a path leads by its last name down from where its parent leads;
  * `leadsTo_joined`: a path behind another one leads on from where that one leads;
  * `normalise_eq_iff_directory`: paths from the root with one normal form are those
    that lead to one directory.
-/
import PhraseServer.Proofs.Lookup

namespace PhraseServer

namespace Path

/-! ## Steps -/

/-- The components of a spelling behind its head. -/
def steps (cs : List UInt8) : List Component := (splitSlashes cs).filterMap Component.ofPiece?

theorem steps_append_slash (before after : List UInt8) :
    steps (before ++ slash :: after) = steps before ++ steps after := by
  rw [steps, splitSlashes_append_slash, List.filterMap_append]
  rfl

theorem steps_concat_slash (cs : List UInt8) : steps (cs ++ [slash]) = steps cs :=
  (steps_append_slash cs []).trans (List.append_nil _)

theorem steps_slash_cons (cs : List UInt8) : steps (slash :: cs) = steps cs :=
  steps_append_slash [] cs

theorem steps_piece {piece : List UInt8} {c : Component} (h : slash ∉ piece)
    (hc : Component.ofPiece? piece = some c) : steps piece = [c] := by
  rw [steps, splitSlashes_eq_splitOn, List.splitOn_eq_singleton h, List.filterMap_cons_some hc]
  rfl

/-- The first piece of a spelling has no slash, and one follows it, if anything does. -/
theorem first_piece (cs : List UInt8) : slash ∉ cs.takeWhile (· ≠ slash) ∧
    (cs.dropWhile (· ≠ slash) = [] ∨ ∃ rest, cs.dropWhile (· ≠ slash) = slash :: rest) := by
  induction cs with
  | nil => simp
  | cons c cs ih =>
    by_cases hc : c = slash
    · simp [hc]
    · simpa [hc, Ne.symm hc] using ih

/-- The first piece is `.` only in `.` itself and where `./` leads. -/
theorem eq_of_takeWhile_eq_dot {cs : List UInt8} (h : cs.takeWhile (· ≠ slash) = [dot]) :
    cs = [dot] ∨ ∃ rest, cs = dot :: slash :: rest := by
  have hcs : dot :: cs.dropWhile (· ≠ slash) = cs := by
    rw [← List.singleton_append, ← h, List.takeWhile_append_dropWhile]
  rcases (first_piece cs).2 with hrest | ⟨rest, hrest⟩
  · exact .inl (by rw [← hcs, hrest])
  · exact .inr ⟨rest, by rw [← hcs, hrest]⟩

theorem head?_splitSlashes (cs : List UInt8) :
    (splitSlashes cs).head? = some (cs.takeWhile (· ≠ slash)) := by
  induction cs with
  | nil => rfl
  | cons c cs ih =>
    by_cases hc : c = slash
    · simp [splitSlashes, hc]
    · cases hs : splitSlashes cs with
      | nil => simp [hs] at ih
      | cons piece pieces => simpa [splitSlashes, hc, hs] using ih

/-! ## Heads -/

/-- `Headed head body cs`: the spelling `head ++ body` is cut behind its head, and `cs`
    holds the component of the head, if there is one. -/
inductive Headed : List UInt8 → List UInt8 → List Component → Prop
  | root (body : List UInt8) : Headed [slash] body [.root]
  | here {body : List UInt8} : (∀ c ∈ body.head?, c = slash) → Headed [dot] body [.here]
  | none {body : List UInt8} : body.head? ≠ some slash → body.takeWhile (· ≠ slash) ≠ [dot] →
      Headed [] body []

theorem headed_splitHead (bs : List UInt8) : ∃ cs,
    Headed (splitHead bs).1 (splitHead bs).2 cs ∧
      (splitHead bs).1 ++ (splitHead bs).2 = bs := by
  cases bs with
  | nil => exact ⟨[], .none (by decide) (by decide), rfl⟩
  | cons b bs =>
    rw [splitHead]
    split_ifs with hslash hdot
    · exact ⟨_, .root _, by simp [hslash]⟩
    · simp only [Bool.and_eq_true, Bool.or_eq_true, decide_eq_true_eq] at hdot
      obtain ⟨rfl, hbody⟩ := hdot
      refine ⟨_, .here fun c hc => ?_, rfl⟩
      rcases hbody with rfl | hbody
      · cases hc
      · exact Option.some.inj (hc.symm.trans hbody)
    · refine ⟨_, .none (by simpa using hslash) fun h => hdot ?_, rfl⟩
      rcases eq_of_takeWhile_eq_dot h with h | ⟨rest, h⟩
      · simp [(List.cons.inj h).1, (List.cons.inj h).2]
      · simp [(List.cons.inj h).1, (List.cons.inj h).2]

namespace Headed

variable {head body : List UInt8} {cs : List Component}

/-- The components of a spelling are its head and its steps. -/
theorem components_eq (h : Headed head body cs) :
    components ⟨head ++ body⟩ = cs ++ steps body := by
  cases h with
  | root body =>
    have habs : (Path.mk ([slash] ++ body)).isAbsolute := by simp [isAbsolute]
    rw [components_of_isAbsolute habs]
    exact congrArg (Component.root :: ·) (steps_slash_cons body)
  | here hbody =>
    have hfirst :
        (dot :: body).takeWhile (· ≠ slash) = [dot] ∧ steps (dot :: body) = steps body := by
      cases body with
      | nil => decide
      | cons c rest =>
        obtain rfl : c = slash := hbody c rfl
        exact ⟨rfl, (steps_append_slash [dot] rest).trans (steps_slash_cons rest).symm⟩
    simp only [components, isAbsolute, List.cons_append, List.nil_append, head?_splitSlashes,
      hfirst.1, List.head?_cons]
    exact congrArg (Component.here :: ·) hfirst.2
  | none hroot hdot =>
    simp only [components, isAbsolute, List.nil_append, head?_splitSlashes, hroot, hdot,
      Option.some.injEq, decide_false, Bool.false_eq_true, if_false]
    rfl

/-- A shorter body keeps the head, unless a `.` is left that would become one. -/
theorem shorten (h : Headed head body cs) {front : List UInt8} (hfront : front <+: body)
    (hdot : front ≠ [dot]) : Headed head front cs := by
  obtain ⟨back, rfl⟩ := hfront
  cases h with
  | root _ => exact .root front
  | here hbody =>
    refine .here fun c hc => hbody c ?_
    obtain ⟨rest, rfl⟩ := List.head?_eq_some_iff.1 hc
    rfl
  | none hroot hpiece =>
    refine .none (fun hslash => hroot ?_) fun hfirst => ?_
    · obtain ⟨rest, rfl⟩ := List.head?_eq_some_iff.1 hslash
      rfl
    · rcases eq_of_takeWhile_eq_dot hfirst with rfl | ⟨rest, rfl⟩
      · exact hdot rfl
      · exact hpiece rfl

end Headed

/-! ## Parents -/

theorem trimBack_suffix (bs : List UInt8) : trimBack bs <:+ bs := by
  fun_induction trimBack bs with
  | case1 => exact List.suffix_rfl
  | case2 bs ih => exact ih.trans (List.suffix_cons _ _)
  | case3 => exact List.nil_suffix
  | case4 rest _ ih => exact ih.trans ((List.suffix_cons _ _).trans (List.suffix_cons _ _))
  | case5 => exact List.suffix_rfl
  | case6 => exact List.suffix_rfl

/-- What is trimmed is no component. -/
theorem steps_trimBack (bs : List UInt8) : steps (trimBack bs).reverse = steps bs.reverse := by
  fun_induction trimBack bs with
  | case1 => rfl
  | case2 bs ih => rw [ih, List.reverse_cons, steps_concat_slash]
  | case3 => decide
  | case4 rest _ ih =>
    have hdot : steps [dot] = [] := by decide
    rw [ih, List.reverse_cons, List.reverse_cons, List.append_assoc, List.singleton_append,
      steps_append_slash, hdot, List.append_nil]
  | case5 => rfl
  | case6 => rfl

/-- A piece at the end that is no `.` is a component. -/
theorem exists_ofPiece? {b : UInt8} {bs : List UInt8} (hslash : b ≠ slash)
    (hdot : (b :: bs).takeWhile (· ≠ slash) ≠ [dot]) :
    ∃ c, Component.ofPiece? ((b :: bs).takeWhile (· ≠ slash)).reverse = some c := by
  have hne : ((b :: bs).takeWhile (· ≠ slash)).reverse ≠ [] := by simp [hslash]
  have hpiece : ((b :: bs).takeWhile (· ≠ slash)).reverse ≠ [dot] :=
    fun h => hdot (List.reverse_eq_iff.1 h)
  simp only [Component.ofPiece?, hne, hpiece, decide_false, Bool.or_self, Bool.false_eq_true,
    if_false]
  split_ifs
  · exact ⟨_, rfl⟩
  · exact ⟨_, rfl⟩

/-- What is left behind trimming ends with a component. -/
theorem trimBack_cases (bs : List UInt8) : trimBack bs = [] ∨
    ∃ c, Component.ofPiece? ((trimBack bs).takeWhile (· ≠ slash)).reverse = some c := by
  fun_induction trimBack bs with
  | case1 => exact .inl rfl
  | case2 bs ih => exact ih
  | case3 => exact .inl rfl
  | case4 rest _ ih => exact ih
  | case5 c rest hc hslash => exact .inr (exists_ofPiece? hslash (by simp [hslash, hc]))
  | case6 b bs hslash hdot =>
    refine .inr (exists_ofPiece? hslash fun h => ?_)
    rcases eq_of_takeWhile_eq_dot h with h | ⟨rest, h⟩
    · exact hdot (List.cons.inj h).1
    · exact hdot (List.cons.inj h).1

theorem trimBack_ne_dot (cs : List UInt8) : trimBack cs ≠ [dot] := by
  intro h
  rcases trimBack_cases cs with hnil | ⟨c, hc⟩
  · rw [hnil] at h
    cases h
  · rw [h] at hc
    cases hc

/-- The last piece of a spelling, which is the first one from the back, is its last
    step. -/
theorem steps_reverse {cs : List UInt8} {c : Component}
    (hc : Component.ofPiece? (cs.takeWhile (· ≠ slash)).reverse = some c) :
    steps cs.reverse = steps (cs.dropWhile (· ≠ slash)).reverse ++ [c] := by
  obtain ⟨hslash, hrest⟩ := first_piece cs
  have hpiece := steps_piece (mt List.mem_reverse.1 hslash) hc
  nth_rewrite 1 [← List.takeWhile_append_dropWhile (p := (· ≠ slash)) (l := cs)]
  rw [List.reverse_append]
  rcases hrest with hrest | ⟨rest, hrest⟩
  · rw [hrest]
    exact hpiece
  · rw [hrest, List.reverse_cons, steps_concat_slash, List.append_assoc, List.singleton_append,
      steps_append_slash, hpiece]

variable {p q : Path}

theorem parent?_of_ne_nil {head body : List UInt8} (hsplit : splitHead p.bytes = (head, body))
    (hback : trimBack body.reverse ≠ []) : p.parent? = some
      ⟨head ++ (trimBack ((trimBack body.reverse).dropWhile (· ≠ slash))).reverse⟩ := by
  simp only [parent?, hsplit]

/-- **Parents.**  A path without a parent has no component but the root.  The parent
    of any other is the path without its last component. -/
theorem components_parent? (p : Path) :
    (p.parent? = none ∧ (p.components = [] ∨ p.components = [.root])) ∨
    ∃ q c, p.parent? = some q ∧ p.components = q.components ++ [c] := by
  obtain ⟨cs, hhead, hbytes⟩ := headed_splitHead p.bytes
  obtain ⟨head, body, hsplit⟩ : ∃ head body, splitHead p.bytes = (head, body) :=
    ⟨_, _, rfl⟩
  rw [hsplit] at hhead hbytes
  have hp : p.components = cs ++ steps (trimBack body.reverse).reverse := by
    rw [steps_trimBack, List.reverse_reverse, ← hhead.components_eq, hbytes]
  rcases trimBack_cases body.reverse with hnil | ⟨c, hc⟩
  · have hcs : p.components = cs := by
      rw [hp, hnil]
      exact List.append_nil cs
    simp only [parent?, hsplit, hnil, hcs]
    cases hhead with
    | root _ => exact .inl ⟨rfl, .inr rfl⟩
    | here _ => exact .inr ⟨⟨[]⟩, .here, rfl, by decide⟩
    | none _ _ => exact .inl ⟨rfl, .inl rfl⟩
  · right
    have hback : trimBack body.reverse ≠ [] := by
      intro hnil
      rw [hnil] at hc
      cases hc
    refine ⟨_, c, parent?_of_ne_nil hsplit hback, ?_⟩
    -- what is left of the body is one of its prefixes, so it keeps the head
    have hfront : (trimBack ((trimBack body.reverse).dropWhile (· ≠ slash))).reverse <+: body := by
      have hsuffix := (trimBack_suffix _).trans
        ((List.dropWhile_suffix (· ≠ slash)).trans (trimBack_suffix body.reverse))
      simpa using List.reverse_prefix.2 hsuffix
    have hdot : (trimBack ((trimBack body.reverse).dropWhile (· ≠ slash))).reverse ≠ [dot] := by
      intro h
      exact trimBack_ne_dot _ (List.reverse_eq_iff.1 h)
    rw [hp, (hhead.shorten hfront hdot).components_eq, steps_reverse hc, steps_trimBack,
      List.append_assoc]

/-- A path leads by its last name down from where its parent leads. -/
theorem exists_parent? {cs : List Component} {n : List UInt8} (h : p.components = cs ++ [.name n]) :
    ∃ dir, p.parent? = some dir ∧ ∀ start, p.leadsTo start = n :: dir.leadsTo start := by
  rcases p.components_parent? with ⟨-, hnone⟩ | ⟨dir, c, hdir, hc⟩
  · have hlast : p.components.getLast? = some (.name n) := by rw [h, List.getLast?_concat]
    rcases hnone with hnone | hnone
    · rw [hnone] at hlast
      cases hlast
    · rw [hnone] at hlast
      cases hlast
  · obtain ⟨rfl, -⟩ := List.append_inj' (h.symm.trans hc) rfl
    refine ⟨dir, hdir, fun start => ?_⟩
    rw [← leadsTo_walk, ← leadsTo_walk, walk, h, List.foldl_append]
    rfl

/-! ## Joined paths -/

theorem foldl_follow_of_none {blank : List (List UInt8)}
    (h : blank.filterMap Component.ofPiece? = []) (start : List (List UInt8)) :
    blank.foldl follow start = start := by
  have hleads := Walk.leadsTo_foldl blank {} start
  rw [h] at hleads
  exact hleads.symm

theorem leadsTo_of_relative (h : q.isAbsolute = false) (start : List (List UInt8)) :
    q.leadsTo start = (splitSlashes q.bytes).foldl follow start := by
  simp [leadsTo, h]

theorem leadsTo_empty (start : List (List UInt8)) : (Path.mk []).leadsTo start = start := rfl

/-- A path behind another one leads on from where that one leads. -/
theorem leadsTo_joined (p q : Path) (start : List (List UInt8)) :
    (p.join q).leadsTo start = q.leadsTo (p.leadsTo start) := by
  cases hq : q.isAbsolute with
  | true => simp [join, leadsTo, hq]
  | false =>
    by_cases hp : p.bytes = []
    · obtain rfl : p = ⟨[]⟩ := congrArg mk hp
      have hjoin : (Path.mk []).join q = q := by simp [join, hq]
      rw [hjoin, leadsTo_empty]
    · obtain ⟨before, blank, hbytes, habs, hpieces, hblank⟩ := exists_join_eq hq hp
      have hbefore : p.leadsTo start
          = (splitSlashes before).foldl follow (if p.isAbsolute then [] else start) := by
        rw [leadsTo, hpieces, List.foldl_append, foldl_follow_of_none hblank]
      rw [leadsTo, hbytes, habs, splitSlashes_append_slash, List.foldl_append, ← hbefore,
        leadsTo_of_relative hq]

theorem directory_join (p q : Path) : (p.join q).directory = q.leadsTo p.directory :=
  leadsTo_joined p q []

theorem directory_normalise (p : Path) : p.normalise.directory = p.directory :=
  p.leadsTo_normalise []

/-- Paths from the root have one normal form exactly if they lead to one directory. -/
theorem normalise_eq_iff_directory (hp : p.isAbsolute) (hq : q.isAbsolute) :
    p.normalise = q.normalise ↔ p.directory = q.directory := by
  have hleads : ∀ p : Path, p.isAbsolute → ∀ start, p.leadsTo start = p.directory := by
    intro p hp start
    simp [directory, leadsTo, hp]
  rw [normalise_eq_iff_walk_eq, ← sameDirectory_iff_walk_eq (hp.trans hq.symm)]
  refine ⟨fun h => ?_, fun h d _ => ?_⟩
  · have hroot := h p hp
    rwa [hleads p hp, hleads q hq] at hroot
  · rw [hleads p hp, hleads q hq, h]

/-- What is joined to paths with one normal form has one normal form. -/
theorem normalise_join_congr (hp : p.isAbsolute) (hq : q.isAbsolute)
    (h : p.normalise = q.normalise) (r : Path) : (p.join r).normalise = (q.join r).normalise := by
  rw [normalise_eq_iff_directory hp hq] at h
  rw [normalise_eq_iff_directory (isAbsolute_join hp r) (isAbsolute_join hq r), directory_join,
    directory_join, h]

theorem normalise_join_empty (hp : p.isAbsolute) : (p.join ⟨[]⟩).normalise = p.normalise := by
  rw [normalise_eq_iff_directory (isAbsolute_join hp _) hp, directory_join, leadsTo_empty]

end Path

end PhraseServer
