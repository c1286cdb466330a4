/-
  The names that declarations bind.

  A declaration is described by its grammar: bindings joined by `and`, each a
  name with a body in which blocks are closed and every inner `let` has its `in`
  (`LetPhrase`, `TypePhrase`).  Over such a body the scan for names comes back to
  where it stood and meets no `and` of the declaration (`Body.Passes`).

  * `LetBody.passes`: bodies are passed over;
  * `letNames_bindings`, `typeNames_bindings`: what the scan finds in bindings;
  * `kind_of_declaration`: a declaration binds the names of its bindings.
-/
import PhraseServer.Chunk

namespace PhraseServer

/-! ## Bodies -/

/-- The words that begin, join and end bindings. -/
def bindingWords : List TokenKind := [.keyword .let_, .keyword .and_, .keyword .in_]

/-- A token that neither opens nor closes a block and is no word of a binding. -/
structure Plain (t : Token) : Prop where
  opens : ¬ t.opensBlock
  closes : ¬ t.closesBlock
  word : t.kind ∉ bindingWords

/-- Any tokens whose blocks are closed. -/
inductive Balanced : List Token → Prop
  | nil : Balanced []
  | token {t : Token} {ts : List Token} :
      ¬ t.opensBlock → ¬ t.closesBlock → Balanced ts → Balanced (t :: ts)
  | block {o c : Token} {inner ts : List Token} :
      o.opensBlock → Balanced inner → c.closesBlock → Balanced ts →
      Balanced (o :: (inner ++ c :: ts))

mutual

/-- The body of a `let`: plain tokens, closed blocks, and inner `let`s with their
    `in`. -/
inductive LetBody : List Token → Prop
  | nil : LetBody []
  | token {t : Token} {ts : List Token} : Plain t → LetBody ts → LetBody (t :: ts)
  | block {o c : Token} {inner ts : List Token} :
      o.opensBlock → Balanced inner → c.closesBlock → LetBody ts →
      LetBody (o :: (inner ++ c :: ts))
  | letIn {l i : Token} {es ts : List Token} :
      l.isKeyword .let_ → LetBodies es → i.isKeyword .in_ → LetBody ts →
      LetBody (l :: (es ++ i :: ts))

/-- Bodies joined by `and`. -/
inductive LetBodies : List Token → Prop
  | one {es : List Token} : LetBody es → LetBodies es
  | more {a : Token} {es ts : List Token} :
      LetBody es → a.isKeyword .and_ → LetBodies ts → LetBodies (es ++ a :: ts)

end

/-- The body of a `type`: plain tokens and closed blocks. -/
inductive TypeBody : List Token → Prop
  | nil : TypeBody []
  | token {t : Token} {ts : List Token} : Plain t → TypeBody ts → TypeBody (t :: ts)
  | block {o c : Token} {inner ts : List Token} :
      o.opensBlock → Balanced inner → c.closesBlock → TypeBody ts →
      TypeBody (o :: (inner ++ c :: ts))

theorem TypeBody.letBody {ts : List Token} (h : TypeBody ts) : LetBody ts := by
  induction h with
  | nil => exact .nil
  | token ht _ ih => exact .token ht ih
  | block ho hi hc _ ih => exact .block ho hi hc ih

/-! ## Passing over bodies -/

theorem Token.not_opensBlock {t : Token} (h : t.closesBlock) : t.opensBlock = false := by
  unfold closesBlock at h
  unfold opensBlock
  split at h
  · next hkind => rw [hkind]
  · next hkind =>
    rw [hkind]
    simp only [Bool.or_eq_true, decide_eq_true_eq] at h
    rcases h with (h | h) | h <;> simp [h]
  · cases h

namespace Body

variable {b b' b'' : Body} {t : Token} {ts us : List Token}

/-- `b.Passes ts b'`: the tokens lead from `b` to `b'`, and none is an `and` of the
    declaration. -/
def Passes (b : Body) : List Token → Body → Prop
  | [], b' => b' = b
  | t :: ts, b' => b.joins t = false ∧ (b.feed t).Passes ts b'

theorem Passes.append (h : b.Passes ts b') (h' : b'.Passes us b'') : b.Passes (ts ++ us) b'' := by
  induction ts generalizing b with
  | nil => cases h; exact h'
  | cons t ts ih => exact ⟨h.1, ih h.2⟩

theorem feed_opens (h : t.opensBlock) : b.feed t = ⟨b.depth + 1, b.inner⟩ := by
  simp [feed, h]

theorem feed_closes (h : t.closesBlock) : b.feed t = ⟨b.depth - 1, b.inner⟩ := by
  simp [feed, h, Token.not_opensBlock h]

/-- Inside a block only its own blocks count. -/
theorem feed_inside (hb : 0 < b.depth) (ho : ¬ t.opensBlock) (hc : ¬ t.closesBlock) :
    b.feed t = b := by
  have hdepth : b.depth ≠ 0 := by omega
  simp [feed, ho, hc, hdepth]

theorem feed_plain (h : Plain t) : b.feed t = b := by
  have hword := h.word
  simp only [bindingWords, List.mem_cons, List.not_mem_nil, or_false, not_or] at hword
  simp [feed, h.opens, h.closes, Token.isKeyword, hword]

theorem joins_inside (hb : 0 < b.depth) : b.joins t = false := by
  have hdepth : b.depth ≠ 0 := by omega
  simp [joins, hdepth]

theorem joins_of_ne (h : t.kind ≠ .keyword .and_) : b.joins t = false := by
  simp [joins, Token.isKeyword, h]

theorem joins_plain (h : Plain t) : b.joins t = false :=
  joins_of_ne fun hkind => h.word (by simp [bindingWords, hkind])

theorem feed_let (h : t.isKeyword .let_) (k : Nat) : feed ⟨0, k⟩ t = ⟨0, k + 1⟩ := by
  have hkind : t.kind = .keyword .let_ := of_decide_eq_true h
  simp [feed, Token.opensBlock, Token.closesBlock, Token.isKeyword, hkind]

theorem feed_in (h : t.isKeyword .in_) (k : Nat) : feed ⟨0, k + 1⟩ t = ⟨0, k⟩ := by
  have hkind : t.kind = .keyword .in_ := of_decide_eq_true h
  simp [feed, Token.opensBlock, Token.closesBlock, Token.isKeyword, hkind]

theorem feed_and (h : t.isKeyword .and_) : b.feed t = b := by
  have hkind : t.kind = .keyword .and_ := of_decide_eq_true h
  simp [feed, Token.opensBlock, Token.closesBlock, Token.isKeyword, hkind]

end Body

open Body

/-- A closed block leads back to where it was opened. -/
theorem Balanced.passes {ts : List Token} (h : Balanced ts) {b : Body} (hb : 0 < b.depth) :
    b.Passes ts b := by
  induction h generalizing b with
  | nil => rfl
  | token ho hc _ ih =>
    rw [Passes, feed_inside hb ho hc]
    exact ⟨joins_inside hb, ih hb⟩
  | block ho _ hc _ ihin ih =>
    rw [Passes, feed_opens ho]
    refine ⟨joins_inside hb, (ihin (Nat.succ_pos _)).append ⟨joins_inside (Nat.succ_pos _), ?_⟩⟩
    rw [feed_closes hc]
    exact ih hb

theorem passes_block {o c : Token} {inner ts : List Token} {k : Nat} {b : Body}
    (ho : o.opensBlock) (hin : Balanced inner) (hc : c.closesBlock) (hts : Passes ⟨0, k⟩ ts b) :
    Passes ⟨0, k⟩ (o :: (inner ++ c :: ts)) b := by
  have hoand : o.kind ≠ .keyword .and_ := by
    intro hkind
    simp [Token.opensBlock, hkind] at ho
  rw [Passes, feed_opens ho]
  refine ⟨joins_of_ne hoand, (hin.passes Nat.one_pos).append ⟨joins_inside Nat.one_pos, ?_⟩⟩
  rw [feed_closes hc]
  exact hts

mutual

/-- **A body is passed over**, outside every block and in any number of inner
    `let`s. -/
theorem LetBody.passes : ∀ {ts : List Token}, LetBody ts → ∀ k : Nat, Passes ⟨0, k⟩ ts ⟨0, k⟩
  | _, .nil, _ => rfl
  | _, .token ht hts, k => by
    rw [Passes, feed_plain ht]
    exact ⟨joins_plain ht, hts.passes k⟩
  | _, .block ho hin hc hts, k => passes_block ho hin hc (hts.passes k)
  | _, .letIn (l := l) (i := i) hl hes hi hts, k => by
    have hland : l.kind ≠ .keyword .and_ := by rw [of_decide_eq_true hl]; simp
    have hiand : i.kind ≠ .keyword .and_ := by rw [of_decide_eq_true hi]; simp
    -- the inner `let` is counted up to its `in`, which is why its bodies ask for `k + 1`
    rw [Passes, feed_let hl]
    refine ⟨joins_of_ne hland, (hes.passes k).append ⟨joins_of_ne hiand, ?_⟩⟩
    rw [feed_in hi]
    exact hts.passes k

/-- Inside an inner `let`, no `and` is one of the declaration. -/
theorem LetBodies.passes :
    ∀ {ts : List Token}, LetBodies ts → ∀ k : Nat, Passes ⟨0, k + 1⟩ ts ⟨0, k + 1⟩
  | _, .one hes, k => hes.passes (k + 1)
  | _, .more hes ha hts, k => by
    refine (hes.passes (k + 1)).append ⟨by simp [joins], ?_⟩
    rw [feed_and ha]
    exact hts.passes k

end

/-! ## Bindings -/

/-- `Bindings Head Content names ts`: the tokens bind the names, joined by `and`,
    each behind a head and before a body. -/
inductive Bindings (Head Content : List Token → Prop) : List String → List Token → Prop
  | one {hs es : List Token} {x : Token} : Head hs → x.kind = .ident → Content es →
      Bindings Head Content [x.text] (hs ++ x :: es)
  | more {hs es ts : List Token} {x a : Token} {names : List String} :
      Head hs → x.kind = .ident → Content es → a.isKeyword .and_ → Bindings Head Content names ts →
      Bindings Head Content (x.text :: names) (hs ++ x :: (es ++ a :: ts))

/-- A parameter of a type: a quote and the token that it quotes. -/
inductive Parameter : List Token → Prop
  | mk {q x : Token} : q.isSymbol "'" → ¬ x.isSymbol "'" → Parameter [q, x]

/-- Parameters with commas between them. -/
inductive Parameters : List Token → Prop
  | one {ps : List Token} : Parameter ps → Parameters ps
  | more {c : Token} {ps ts : List Token} : Parameter ps → c.isSymbol "," → Parameters ts →
      Parameters (ps ++ c :: ts)

/-- What stands before the name of a type: nothing, a parameter, or parameters in
    parentheses. -/
inductive TypeParams : List Token → Prop
  | none : TypeParams []
  | one {ps : List Token} : Parameter ps → TypeParams ps
  | many {o c : Token} {ps : List Token} : o.isSymbol "(" → Parameters ps → c.isSymbol ")" →
      TypeParams (o :: (ps ++ [c]))

/-- The significant tokens of a `let` phrase with its names and whether it is
    recursive. -/
inductive LetPhrase : List String → Bool → List Token → Prop
  | plain {l : Token} {names : List String} {ts : List Token} :
      l.isKeyword .let_ → Bindings (· = []) LetBody names ts → LetPhrase names false (l :: ts)
  | recursive {l r : Token} {names : List String} {ts : List Token} :
      l.isKeyword .let_ → r.isKeyword .rec_ → Bindings (· = []) LetBody names ts →
      LetPhrase names true (l :: r :: ts)

/-- The significant tokens of a `type` phrase with its names. -/
inductive TypePhrase : List String → List Token → Prop
  | mk {l : Token} {names : List String} {ts : List Token} :
      l.isKeyword .type → Bindings TypeParams TypeBody names ts → TypePhrase names (l :: ts)

/-! ## Names -/

theorem Plain.of_ident {x : Token} (h : x.kind = .ident) : Plain x := by
  constructor <;> simp [Token.opensBlock, Token.closesBlock, bindingWords, h]

section
variable {b b' : Body} {ts us : List Token} {x a : Token}

theorem letNamesFrom_passes (h : b.Passes ts b') (us : List Token) :
    letNamesFrom b false (ts ++ us) = letNamesFrom b' false us := by
  induction ts generalizing b with
  | nil => cases h; rfl
  | cons t ts ih =>
    obtain ⟨hjoins, hpasses⟩ := h
    simpa [letNamesFrom, hjoins] using ih hpasses

theorem letNamesFrom_ident (h : x.kind = .ident) (b : Body) (ts : List Token) :
    letNamesFrom b true (x :: ts) = x.text :: letNamesFrom b false ts := by
  have hplain := Plain.of_ident h
  simp [letNamesFrom, Token.isKeyword, h, feed_plain hplain, joins_plain hplain]

theorem letNamesFrom_and (h : a.isKeyword .and_) (ts : List Token) :
    letNamesFrom {} false (a :: ts) = letNamesFrom {} true ts := by
  simp [letNamesFrom, feed_and h, joins, h]

theorem letNames_rec (h : x.isKeyword .rec_) (ts : List Token) :
    letNames (x :: ts) = letNames ts := by
  simp [letNames, letNamesFrom, h]

/-- **The names of a `let`.** -/
theorem letNames_bindings {names : List String} (h : Bindings (· = []) LetBody names ts) :
    letNames ts = names := by
  rw [letNames]
  induction h with
  | one hhead hx hbody =>
    subst hhead
    have hrest := letNamesFrom_passes (hbody.passes 0) []
    rw [List.append_nil] at hrest
    rw [List.nil_append, letNamesFrom_ident hx, hrest]; rfl
  | more hhead hx hbody ha _ ih =>
    subst hhead
    rw [List.nil_append, letNamesFrom_ident hx, letNamesFrom_passes (hbody.passes 0),
      letNamesFrom_and ha, ih]

theorem typeNamesFrom_passes (h : b.Passes ts b') (us : List Token) :
    typeNamesFrom b .none (ts ++ us) = typeNamesFrom b' .none us := by
  induction ts generalizing b with
  | nil => cases h; rfl
  | cons t ts ih =>
    obtain ⟨hjoins, hpasses⟩ := h
    simpa [typeNamesFrom, hjoins] using ih hpasses

theorem typeNamesFrom_parameter (h : Parameter ts) (b : Body) (us : List Token) :
    typeNamesFrom b .name (ts ++ us) = typeNamesFrom b .name us := by
  obtain ⟨hq, hx⟩ := h
  simp [typeNamesFrom, hq, hx]

theorem typeNamesFrom_parameters (h : Parameters ts) (k : Nat) (us : List Token) :
    typeNamesFrom ⟨1, k⟩ .name (ts ++ us) = typeNamesFrom ⟨1, k⟩ .name us := by
  induction h with
  | one hp => exact typeNamesFrom_parameter hp _ us
  | @more c ps ts hp hc _ ih =>
    obtain ⟨hkind, htext⟩ := Token.isSymbol_iff.1 hc
    have hcomma : typeNamesFrom ⟨1, k⟩ .name (c :: (ts ++ us))
        = typeNamesFrom ⟨1, k⟩ .name (ts ++ us) := by
      simp [typeNamesFrom, Token.isSymbol, Token.opensBlock, Token.closesBlock, Body.feed, hkind,
        htext]
    rw [List.append_assoc, List.cons_append, typeNamesFrom_parameter hp, hcomma, ih]

/-- The parameters of a type are passed over. -/
theorem typeNamesFrom_typeParams (h : TypeParams ts) (us : List Token) :
    typeNamesFrom {} .name (ts ++ us) = typeNamesFrom {} .name us := by
  cases h with
  | none => rfl
  | one hp => exact typeNamesFrom_parameter hp _ us
  | @many o c ps ho hps hc =>
    obtain ⟨hokind, hotext⟩ := Token.isSymbol_iff.1 ho
    obtain ⟨hckind, hctext⟩ := Token.isSymbol_iff.1 hc
    have hopen : typeNamesFrom {} .name (o :: (ps ++ c :: us))
        = typeNamesFrom ⟨1, 0⟩ .name (ps ++ c :: us) := by
      simp [typeNamesFrom, Token.isSymbol, Token.opensBlock, Body.feed, hokind, hotext]
    have hclose : typeNamesFrom ⟨1, 0⟩ .name (c :: us) = typeNamesFrom {} .name us := by
      simp [typeNamesFrom, Token.isSymbol, Token.opensBlock, Token.closesBlock, Body.feed, hckind,
        hctext]
    rw [List.cons_append, List.append_assoc, List.singleton_append, hopen,
      typeNamesFrom_parameters hps, hclose]

theorem typeNamesFrom_ident (h : x.kind = .ident) (ts : List Token) :
    typeNamesFrom {} .name (x :: ts) = x.text :: typeNamesFrom {} .none ts := by
  have hplain := Plain.of_ident h
  simp [typeNamesFrom, Token.isSymbol, h, hplain.opens, feed_plain hplain, joins_plain hplain]

theorem typeNamesFrom_and (h : a.isKeyword .and_) (ts : List Token) :
    typeNamesFrom {} .none (a :: ts) = typeNamesFrom {} .name ts := by
  simp [typeNamesFrom, feed_and h, joins, h]

/-- **The names of a `type`.** -/
theorem typeNames_bindings {names : List String} (h : Bindings TypeParams TypeBody names ts) :
    typeNames ts = names := by
  rw [typeNames]
  induction h with
  | one hhead hx hbody =>
    have hrest := typeNamesFrom_passes (hbody.letBody.passes 0) []
    rw [List.append_nil] at hrest
    rw [typeNamesFrom_typeParams hhead, typeNamesFrom_ident hx, hrest]; rfl
  | more hhead hx hbody ha _ ih =>
    rw [typeNamesFrom_typeParams hhead, typeNamesFrom_ident hx,
      typeNamesFrom_passes (hbody.letBody.passes 0), typeNamesFrom_and ha, ih]

end

/-- The bindings of a `let` begin with a name. -/
theorem head_of_bindings {names : List String} {ts : List Token}
    (h : Bindings (· = []) LetBody names ts) : ∃ x us, ts = x :: us ∧ x.kind = .ident := by
  cases h with
  | one hhead hx _ => subst hhead; exact ⟨_, _, rfl, hx⟩
  | more hhead hx _ _ _ => subst hhead; exact ⟨_, _, rfl, hx⟩

/-- **Names of declarations.**  Trivia apart, a `let` phrase makes a chunk with the
    names of its bindings, recursive when `rec` follows the `let`, and a `type` phrase
    one with the names of its bindings. -/
theorem kind_of_declaration (first : Token) (more : List Token) :
    (∀ names recursive,
      LetPhrase names recursive ((first :: more).filter (!·.isTrivia)) →
        (Chunk.ofTokens first more).kind = .let_ names recursive) ∧
    ∀ names, TypePhrase names ((first :: more).filter (!·.isTrivia)) →
      (Chunk.ofTokens first more).kind = .type names := by
  simp only [Chunk.ofTokens]
  generalize (first :: more).filter (!·.isTrivia) = ts
  constructor
  · intro names recursive h
    cases h with
    | plain hl hb =>
      obtain ⟨x, us, rfl, hx⟩ := head_of_bindings hb
      simp [ChunkKind.ofTokens, of_decide_eq_true hl, letNames_bindings hb, Token.isKeyword, hx]
    | recursive hl hr hb =>
      simp [ChunkKind.ofTokens, of_decide_eq_true hl, letNames_rec hr, letNames_bindings hb, hr]
  · intro names h
    obtain ⟨hl, hb⟩ := h
    simp [ChunkKind.ofTokens, of_decide_eq_true hl, typeNames_bindings hb]

/-- `let rec f (and) = let a and b in a and g`: of the three `and`s only the last one
    joins bindings; and `type ('a, 'b) t = 'a and u`. -/
theorem kind_of_declaration_and :
    let token := fun kind text => (⟨kind, text, .origin, .origin⟩ : Token)
    let word := fun k : Keyword => token (.keyword k) k.spelling
    let name := token .ident
    let symbol := token .symbol
    let gap := token .whitespace " "
    (Chunk.ofTokens (word .let_)
      [gap, word .rec_, gap, name "f", gap, symbol "(", word .and_, symbol ")", gap, symbol "=",
        gap, word .let_, gap, name "a", gap, word .and_, gap, name "b", gap, word .in_, gap,
        name "a", gap, word .and_, gap, name "g"]).kind = .let_ ["f", "g"] true ∧
    (Chunk.ofTokens (word .type)
      [gap, symbol "(", symbol "'", name "a", symbol ",", gap, symbol "'", name "b", symbol ")",
        gap, name "t", gap, symbol "=", gap, symbol "'", name "a", gap, word .and_, gap,
        name "u"]).kind = .type ["t", "u"] := by
  intro token word name symbol gap
  have plain : ∀ text, Plain (name text) := fun text => .of_ident rfl
  have sign : ∀ text ∈ ["=", "'"], Plain (symbol text) := by
    intro text htext
    simp only [List.mem_cons, List.not_mem_nil, or_false] at htext
    rcases htext with rfl | rfl <;> exact ⟨by decide, by decide, by decide⟩
  constructor
  · refine (kind_of_declaration _ _).1 _ _ (.recursive rfl rfl ?_)
    have hinner : LetBodies [name "a", word .and_, name "b"] :=
      @LetBodies.more _ [name "a"] _ (.token (plain _) .nil) rfl (.one (.token (plain _) .nil))
    have hlet : LetBody [word .let_, name "a", word .and_, name "b", word .in_, name "a"] :=
      @LetBody.letIn _ _ [name "a", word .and_, name "b"] _ rfl hinner rfl (.token (plain _) .nil)
    have hblock : Balanced [word .and_] := .token (by decide) (by decide) .nil
    have hbody : LetBody ([symbol "(", word .and_, symbol ")", symbol "="]
        ++ [word .let_, name "a", word .and_, name "b", word .in_, name "a"]) :=
      @LetBody.block _ _ [word .and_] _ rfl hblock rfl (.token (sign _ (by decide)) hlet)
    exact @Bindings.more (· = []) _ [] _ _ (name "f") (word .and_) _ rfl rfl hbody rfl
      (@Bindings.one _ _ [] [] (name "g") rfl rfl .nil)
  · refine (kind_of_declaration _ _).2 _ (.mk rfl ?_)
    have hparams : Parameters [symbol "'", name "a", symbol ",", symbol "'", name "b"] :=
      @Parameters.more _ [symbol "'", name "a"] _ (.mk rfl (by decide)) rfl
        (.one (.mk rfl (by decide)))
    have hbody : TypeBody [symbol "=", symbol "'", name "a"] :=
      .token (sign _ (by decide)) (.token (sign _ (by decide)) (.token (plain _) .nil))
    exact @Bindings.more TypeParams _ _ _ _ (name "t") (word .and_) _
      (@TypeParams.many (symbol "(") (symbol ")") _ rfl hparams rfl) rfl hbody rfl
      (@Bindings.one _ _ [] [] (name "u") .none rfl .nil)

end PhraseServer
