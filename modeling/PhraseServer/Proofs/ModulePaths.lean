/-
  Paths of modules.

  The path behind an `open` is described by its tokens: any number of `!`, then
  capitalised names with dots between them, as many as there are (`PathBehind`).

  * `exists_longest`: behind a capitalised name, the names that follow are those
    of the longest run;
  * `pathBehind_ofTokens?`: an `open` has the path that its tokens spell;
  * `ofTokens_eq_open_iff`, `ofTokens_eq_module_iff`: which chunks open or declare a
    module;
  * `component_eq_root`: the part of a path before its first dot is its root,
    since the lexer puts no dot into a capitalised name.
-/
import PhraseServer.Chunk
import PhraseServer.Proofs.Munching

namespace PhraseServer

/-! ## Runs of names -/

/-- Capitalised names with dots between them. -/
inductive Alternating : List Token → Prop
  | one {t : Token} : t.kind = .upperIdent → Alternating [t]
  | more {t dot : Token} {ts : List Token} : t.kind = .upperIdent → dot.isSymbol "." →
      Alternating ts → Alternating (t :: dot :: ts)

/-- `LongestRun run rest`: of the runs of names at the front of `run ++ rest`, `run`
    is the longest. -/
structure LongestRun (run rest : List Token) : Prop where
  alternating : Alternating run
  longest : ∀ ts, Alternating ts → ts <+: run ++ rest → ts.length ≤ run.length

/-- A run is one name, or begins with a name and a dot before another run. -/
theorem Alternating.cases_prefix {t : Token} {ts us : List Token} (h : Alternating us)
    (hpre : us <+: t :: ts) :
    us = [t] ∨ ∃ dot vs, us = t :: dot :: vs ∧ dot.isSymbol "." ∧ Alternating vs ∧
      dot :: vs <+: ts := by
  cases h with
  | one _ =>
    obtain ⟨rfl, -⟩ := List.cons_prefix_cons.1 hpre
    exact Or.inl rfl
  | more _ hdot hvs =>
    obtain ⟨rfl, hrest⟩ := List.cons_prefix_cons.1 hpre
    exact Or.inr ⟨_, _, rfl, hdot, hvs, hrest⟩

theorem Alternating.exists_cons {ts : List Token} (h : Alternating ts) :
    ∃ t us, ts = t :: us ∧ t.kind = .upperIdent := by
  cases h with
  | one ht => exact ⟨_, _, rfl, ht⟩
  | more ht _ _ => exact ⟨_, _, rfl, ht⟩

/-- Where no dot with a name behind it follows, a name is the longest run. -/
theorem longestRun_singleton {t : Token} {ts : List Token} (ht : t.kind = .upperIdent)
    (h : ∀ dot name rest, dot.isSymbol "." → name.kind = .upperIdent → ts ≠ dot :: name :: rest) :
    LongestRun [t] ts := by
  refine ⟨.one ht, fun us hus hpre => ?_⟩
  rcases hus.cases_prefix hpre with rfl | ⟨dot, vs, rfl, hdot, hvs, rest, hrest⟩
  · exact Nat.le_refl _
  · obtain ⟨name, ns, rfl, hname⟩ := hvs.exists_cons
    exact absurd hrest.symm (h dot name (ns ++ rest) hdot hname)

theorem LongestRun.cons {t dot : Token} {run rest : List Token} (h : LongestRun run rest)
    (ht : t.kind = .upperIdent) (hdot : dot.isSymbol ".") :
    LongestRun (t :: dot :: run) rest := by
  refine ⟨.more ht hdot h.alternating, fun us hus hpre => ?_⟩
  rcases hus.cases_prefix hpre with rfl | ⟨dot', vs, rfl, -, hvs, hrest⟩
  · simp
  · have := h.longest vs hvs (List.cons_prefix_cons.1 hrest).2
    simp only [List.length_cons]
    omega

/-- **The longest run.**  Behind a capitalised name, the path goes on as long as dots
    and names alternate. -/
theorem exists_longest {t : Token} (ht : t.kind = .upperIdent) (ts : List Token) :
    ∃ run rest, t :: ts = run ++ rest ∧ LongestRun run rest ∧
      ModulePath.text ⟨t.text, ModulePath.dotted ts⟩ = String.join (run.map (·.text)) := by
  fun_induction ModulePath.dotted ts generalizing t with
  | case1 dot name ts h ih =>
    obtain ⟨hdot, hname⟩ := Bool.and_eq_true_iff.1 h
    obtain ⟨run, rest, hsplit, hrun, htext⟩ := ih (of_decide_eq_true hname)
    refine ⟨t :: dot :: run, rest, by rw [hsplit]; rfl, hrun.cons ht hdot, ?_⟩
    have hdottext : dot.text = "." := (Token.isSymbol_iff.1 hdot).2
    rw [ModulePath.text] at htext ⊢
    rw [String.intercalate_cons_cons, htext, List.map_cons, List.map_cons, String.join_cons,
      String.join_cons, hdottext, String.append_assoc]
  | case2 dot name ts h =>
    refine ⟨[t], dot :: name :: ts, rfl, longestRun_singleton ht ?_, by simp [ModulePath.text]⟩
    rintro dot' name' rest hdot hname heq
    cases heq
    exact h (by simp [hdot, hname])
  | case3 ts h =>
    refine ⟨[t], ts, rfl, longestRun_singleton ht ?_, by simp [ModulePath.text]⟩
    intro dot name rest _ _ heq
    exact h dot name rest heq

/-! ## The path of an `open` -/

/-- `PathBehind ts path`: the path that significant tokens behind an `open` spell.
    There is one when a capitalised name follows any number of `!`, and then it is
    the longest run of names. -/
structure PathBehind (ts : List Token) (path : Option ModulePath) : Prop where
  isSome_iff : path.isSome ↔ ∃ bangs t us, ts = bangs ++ t :: us ∧
    (∀ b ∈ bangs, b.isSymbol "!") ∧ t.kind = .upperIdent
  text_eq : ∀ q ∈ path, ∃ bangs run rest, ts = bangs ++ (run ++ rest) ∧
    (∀ b ∈ bangs, b.isSymbol "!") ∧ LongestRun run rest ∧
    q.text = String.join (run.map (·.text))

theorem ofTokens?_bangs {bangs us : List Token} {t : Token} (hb : ∀ b ∈ bangs, b.isSymbol "!")
    (ht : t.kind = .upperIdent) :
    ModulePath.ofTokens? (bangs ++ t :: us) = some ⟨t.text, ModulePath.dotted us⟩ := by
  have hbang : ¬ t.isSymbol "!" := by simp [Token.isSymbol, ht]
  rw [ModulePath.ofTokens?, List.dropWhile_append_of_pos hb]
  simp [hbang, ht]

theorem exists_of_ofTokens? {ts : List Token} {q : ModulePath}
    (h : ModulePath.ofTokens? ts = some q) :
    ∃ bangs t us, ts = bangs ++ t :: us ∧ (∀ b ∈ bangs, b.isSymbol "!") ∧ t.kind = .upperIdent ∧
      q = ⟨t.text, ModulePath.dotted us⟩ := by
  have hsplit := List.takeWhile_append_dropWhile (p := (·.isSymbol "!")) (l := ts)
  rw [ModulePath.ofTokens?] at h
  split at h
  · next t us hdrop =>
    rw [hdrop] at hsplit
    split_ifs at h with ht
    exact ⟨_, t, us, hsplit.symm,
      fun b hb => List.mem_takeWhile_imp (p := fun u : Token => u.isSymbol "!") hb, ht,
      (Option.some.inj h).symm⟩
  · cases h

/-- **Paths.**  An `open` has the path that the tokens behind it spell. -/
theorem pathBehind_ofTokens? (ts : List Token) : PathBehind ts (ModulePath.ofTokens? ts) where
  isSome_iff := by
    constructor
    · intro h
      obtain ⟨q, hq⟩ := Option.isSome_iff_exists.1 h
      obtain ⟨bangs, t, us, hts, hb, ht, -⟩ := exists_of_ofTokens? hq
      exact ⟨bangs, t, us, hts, hb, ht⟩
    · rintro ⟨bangs, t, us, rfl, hb, ht⟩
      rw [ofTokens?_bangs hb ht]; rfl
  text_eq q hq := by
    obtain ⟨bangs, t, us, rfl, hb, ht, rfl⟩ := exists_of_ofTokens? hq
    obtain ⟨run, rest, hsplit, hrun, htext⟩ := exists_longest ht us
    exact ⟨bangs, run, rest, by rw [hsplit], hb, hrun, htext⟩

/-! ## Chunks that open or declare a module -/

/-- `NameBehind ts name`: the name that significant tokens behind a `module` give it,
    the first capitalised one among them. -/
inductive NameBehind : List Token → Option String → Prop
  | first {before after : List Token} {t : Token} : (∀ b ∈ before, b.kind ≠ .upperIdent) →
      t.kind = .upperIdent → NameBehind (before ++ t :: after) (some t.text)
  | none {ts : List Token} : (∀ t ∈ ts, t.kind ≠ .upperIdent) → NameBehind ts none

theorem nameBehind_find? (ts : List Token) :
    NameBehind ts ((ts.find? (·.kind = .upperIdent)).map (·.text)) := by
  cases h : ts.find? (·.kind = .upperIdent) with
  | none =>
    refine .none fun t ht => ?_
    simpa using List.find?_eq_none.1 h t ht
  | some t =>
    obtain ⟨ht, before, after, rfl, hbefore⟩ := List.find?_eq_some_iff_append.1 h
    exact .first (fun b hb => by simpa using hbefore b hb) (by simpa using ht)

theorem ofTokens_eq_open_iff {ts : List Token} {path : Option ModulePath} :
    ChunkKind.ofTokens ts = .open_ path ↔
      ∃ o us, ts = o :: us ∧ o.isKeyword .open_ ∧ path = ModulePath.ofTokens? us := by
  constructor
  · intro h
    cases ts with
    | nil => cases h
    | cons o us =>
      simp only [ChunkKind.ofTokens] at h
      split at h <;> cases h
      next hkind => exact ⟨o, us, rfl, by simp [Token.isKeyword, hkind], rfl⟩
  · rintro ⟨o, us, rfl, ho, rfl⟩
    have hkind : o.kind = .keyword .open_ := by simpa [Token.isKeyword] using ho
    simp only [ChunkKind.ofTokens, hkind]

theorem ofTokens_eq_module_iff {ts : List Token} {name : Option String} :
    ChunkKind.ofTokens ts = .module_ name ↔ ∃ m us, ts = m :: us ∧ m.isKeyword .module_ ∧
      name = (us.find? (·.kind = .upperIdent)).map (·.text) := by
  constructor
  · intro h
    cases ts with
    | nil => cases h
    | cons m us =>
      simp only [ChunkKind.ofTokens] at h
      split at h <;> cases h
      next hkind => exact ⟨m, us, rfl, by simp [Token.isKeyword, hkind], rfl⟩
  · rintro ⟨m, us, rfl, hm, rfl⟩
    have hkind : m.kind = .keyword .module_ := by simpa [Token.isKeyword] using hm
    simp only [ChunkKind.ofTokens, hkind]

/-! ## The first component -/

/-- The part of a path before its first dot. -/
def ModulePath.component (p : ModulePath) : String :=
  String.ofList (p.text.toList.takeWhile (· ≠ '.'))

/-- Capitalised names without dots. -/
def Dotless (ts : List Token) : Prop := ∀ t ∈ ts, t.kind = .upperIdent → '.' ∉ t.text.toList

theorem ModulePath.component_eq_root {p : ModulePath} (h : '.' ∉ p.root.toList) :
    p.component = p.root := by
  have hall : ∀ c ∈ p.root.toList, decide (c ≠ '.') = true := by
    intro c hc
    simpa using fun heq : c = '.' => h (heq ▸ hc)
  have htake : p.text.toList.takeWhile (· ≠ '.') = p.root.toList := by
    rw [text]
    cases p.more with
    | nil => simpa using hall
    | cons name more =>
      rw [String.intercalate_cons_cons, String.append_assoc, String.toList_append,
        List.takeWhile_append_of_pos hall]
      simp
  rw [component, htake, String.ofList_toList]

theorem Lexeme.eq_capitalised {shape : Lexeme} {text : String} {kind : TokenKind}
    (h : shape.Denotes text kind) (hkind : kind = .upperIdent) : shape = capitalised := by
  cases h with
  | capitalised => rfl
  | _ => cases hkind

/-- The lexer puts no dot into a capitalised name. -/
theorem dotless_of_lexChars {p : Position} {cs : List Char} {ts : List Token}
    (h : lexChars p cs = .ok ts) : Dotless ts := by
  have hm := munched_of_lexChars h
  clear h
  induction ts with
  | nil => simp [Dotless]
  | cons t ts ih =>
    obtain ⟨⟨shape, ⟨hmunch, hden⟩, -⟩, hts⟩ := hm
    refine List.forall_mem_cons.2 ⟨fun ht => ?_, ih hts⟩
    obtain rfl := Lexeme.eq_capitalised hden ht
    have hspells := hmunch.spells
    cases htext : t.text.toList with
    | nil => simp
    | cons c cs =>
      rw [htext] at hspells
      obtain ⟨hc, hcs⟩ := hspells
      rintro (_ | ⟨_, hdot⟩)
      · exact absurd (isUpper_iff.2 hc) (by decide)
      · exact absurd (isWordChar_iff.2 (hcs '.' hdot)) (by decide)

end PhraseServer
