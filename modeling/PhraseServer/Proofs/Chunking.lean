/-
  One chunk for each phrase.

  The tokens of a buffer fall into groups, one for each chunk.  Behind the trivia
  at the front every group begins with a phrase start, and these trivia belong to
  the first group.

  * `chunkFrom_opening`: behind a significant token, outlines that open phrases
    make a chunk each;
  * `exists_phrases`: the groups are the outlines of what follows the trivia at
    the front, told at once;
  * `oneChunkEach_deliver`: in whatever calls the tokens come, there is one chunk
    for each phrase start, and the chunks cover the buffer.
-/
import Mathlib.Data.List.Chain
import Mathlib.Data.List.Forall2
import PhraseServer.Proofs.Lexing
import PhraseServer.Proofs.PhraseStarts

namespace PhraseServer

/-! ## Chunks and their tokens -/

/-- `c.HasTokens g`: the chunk is made of the tokens `g`. -/
def Chunk.HasTokens (c : Chunk) (g : List Token) : Prop :=
  ∃ t us, g = t :: us ∧ c = .ofTokens t us

theorem ChunkKind.ofTokens_eq_blank_iff {ts : List Token} :
    ChunkKind.ofTokens ts = .blank ↔ ts = [] := by
  cases ts with
  | nil => simp [ofTokens]
  | cons t ts =>
    simp only [ofTokens, reduceCtorEq, iff_false]
    split <;> simp

namespace Chunk.HasTokens

variable {c : Chunk} {g : List Token}

theorem kind (h : c.HasTokens g) : c.kind = .ofTokens (g.filter (!·.isTrivia)) := by
  obtain ⟨t, us, rfl, rfl⟩ := h
  rfl

/-- A chunk is blank when its tokens are trivia. -/
theorem kind_eq_blank_iff (h : c.HasTokens g) : c.kind = .blank ↔ ∀ t ∈ g, t.isTrivia := by
  rw [h.kind, ChunkKind.ofTokens_eq_blank_iff, List.filter_eq_nil_iff]
  simp

theorem toList_text (h : c.HasTokens g) : c.text.toList = spelled g := by
  obtain ⟨t, us, rfl, rfl⟩ := h
  rw [ofTokens, String.toList_join, List.flatMap_map]; rfl

theorem head? (h : c.HasTokens g) : ∃ t, g.head? = some t ∧ c.start = t.start := by
  obtain ⟨t, us, rfl, rfl⟩ := h
  exact ⟨t, rfl, rfl⟩

theorem getLast? (h : c.HasTokens g) : ∃ t, g.getLast? = some t ∧ c.stop = t.stop := by
  obtain ⟨t, us, rfl, rfl⟩ := h
  exact ⟨us.getLast?.getD t, List.getLast?_cons, rfl⟩

theorem text_ne_empty (h : c.HasTokens g) (hne : ∀ t ∈ g, t.text ≠ "") : c.text ≠ "" := by
  obtain ⟨t, ht, -⟩ := h.head?
  obtain ⟨us, rfl⟩ := List.head?_eq_some_iff.1 ht
  rw [← String.toList_inj.ne, h.toList_text]
  simpa using fun hnil => absurd hnil (hne t List.mem_cons_self)

end Chunk.HasTokens

section
variable {cs : List Chunk} {gs : List (List Token)}

/-- Chunks have the characters of their tokens. -/
theorem flatMap_text_chunks (h : List.Forall₂ Chunk.HasTokens cs gs) :
    cs.flatMap (·.text.toList) = spelled gs.flatten := by
  induction h with
  | nil => rfl
  | cons hc _ ih => simp [hc.toList_text, ih]

theorem start_chunks (h : List.Forall₂ Chunk.HasTokens cs gs) :
    cs.head?.map (·.start) = gs.flatten.head?.map (·.start) := by
  cases h with
  | nil => rfl
  | cons hc _ =>
    obtain ⟨t, ht, hstart⟩ := hc.head?
    simp [ht, hstart]

theorem stop_chunks (h : List.Forall₂ Chunk.HasTokens cs gs) :
    cs.getLast?.map (·.stop) = gs.flatten.getLast?.map (·.stop) := by
  induction h with
  | nil => rfl
  | @cons c g cs gs hc _ ih =>
    obtain ⟨t, ht, hstop⟩ := hc.getLast?
    rw [List.flatten_cons, List.getLast?_append, List.getLast?_cons, ht]
    cases hlast : cs.getLast? with
    | none =>
      rw [hlast] at ih
      rw [Option.map_eq_none_iff.1 ih.symm]
      simp [hstop]
    | some d =>
      rw [hlast] at ih
      obtain ⟨u, hu, hd⟩ := Option.map_eq_some_iff.1 ih.symm
      simp [hu, hd]

/-- `t` ends where `u` begins. -/
def Abut {α : Type} [Spanned α] (t u : α) : Prop := Spanned.stop t = Spanned.start u

/-- Tiles abut. -/
theorem Tiles.isChain_abut {p q : Position} {ts : List Token} (h : Tiles p ts q) :
    ts.IsChain Abut := by
  induction ts generalizing p with
  | nil => exact .nil
  | cons t ts ih =>
    obtain ⟨-, -, -, hts⟩ := h
    refine List.isChain_cons.2 ⟨fun u hu => ?_, ih hts⟩
    obtain ⟨us, rfl⟩ := List.head?_eq_some_iff.1 (Option.mem_def.1 hu)
    exact hts.2.1.symm

theorem Tiles.text_ne_empty {p q : Position} {ts : List Token} (h : Tiles p ts q) :
    ∀ t ∈ ts, t.text ≠ "" := by
  induction ts generalizing p with
  | nil => simp
  | cons t ts ih => exact List.forall_mem_cons.2 ⟨h.1, ih h.2.2.2⟩

/-- Chunks abut when their tokens do. -/
theorem abut_chunks (h : List.Forall₂ Chunk.HasTokens cs gs)
    (habut : gs.flatten.IsChain Abut) : cs.IsChain Abut := by
  induction h with
  | nil => exact .nil
  | @cons c g cs gs hc hcs ih =>
    obtain ⟨-, hrest, hjoin⟩ := List.isChain_append.1 habut
    refine List.isChain_cons.2 ⟨fun d hd => ?_, ih hrest⟩
    obtain ⟨t, ht, hstop⟩ := hc.getLast?
    cases hcs with
    | nil => cases hd
    | cons hd' _ =>
      cases hd
      obtain ⟨u, hu, hstart⟩ := hd'.head?
      have hjoint : t.stop = u.start := hjoin t ht u (by simp [hu])
      exact hstop.trans (hjoint.trans hstart.symm)

end

/-! ## Groups of tokens -/

theorem Nesting.feed_of_isTrivia {n : Nesting} {t : Token} (h : t.isTrivia) : n.feed t = n := by
  simp [feed, h]

/-- Trivia change nothing, and none of them starts a phrase. -/
theorem Nesting.trivia {n : Nesting} {w : List Token} (hw : ∀ t ∈ w, t.isTrivia) :
    n.feedAll w = n ∧ n.Inside w := by
  induction w with
  | nil => exact ⟨rfl, trivial⟩
  | cons t w ih =>
    have ht : t.isTrivia := hw t List.mem_cons_self
    obtain ⟨hfeed, hin⟩ := ih fun u hu => hw u (List.mem_cons_of_mem t hu)
    rw [feedAll, List.foldl_cons, Inside, feed_of_isTrivia ht]
    exact ⟨hfeed, by simp [startsPhrase, ht], hin⟩

/-- Behind a significant token, outlines that open phrases make a chunk each. -/
theorem chunkFrom_opening {first : Token} {more : List Token} {os : List Outline}
    (hsig : ∃ t ∈ first :: more, ¬ t.isTrivia)
    (hopen : ∀ o ∈ os, o.opensPhrase ∧ ¬ o.first.isTrivia) :
    List.Forall₂ Chunk.HasTokens (chunkFrom first more os)
      ((first :: more) :: os.map Outline.tokens) := by
  induction os generalizing first more with
  | nil => exact .cons ⟨first, more, rfl, rfl⟩ .nil
  | cons o os ih =>
    obtain ⟨hopens, ho⟩ := hopen o List.mem_cons_self
    have hcond : (o.opensPhrase && (first :: more).any (!·.isTrivia)) = true := by
      rw [hopens, Bool.true_and, List.any_eq_true]
      simpa using hsig
    rw [chunkFrom, if_pos hcond]
    exact .cons ⟨first, more, rfl, rfl⟩
      (ih ⟨o.first, List.mem_cons_self, ho⟩ fun o' ho' => hopen o' (List.mem_cons_of_mem o ho'))

/-- The groups of trivia at the front and outlines behind them. -/
def groupsOf (w : List Token) : List Outline → List (List Token)
  | [] => if w = [] then [] else [w]
  | o :: os => (w ++ o.tokens) :: os.map Outline.tokens

theorem flatten_groupsOf (w : List Token) (os : List Outline) :
    (groupsOf w os).flatten = w ++ os.flatMap Outline.tokens := by
  cases os with
  | nil => by_cases hw : w = [] <;> simp [groupsOf, hw]
  | cons o os => simp [groupsOf, List.flatMap_def]

/-- Outlines of tokens that begin with a significant one all open phrases. -/
theorem opensPhrase_outline_none {ts : List Token} (h : ∀ t ∈ ts.head?, ¬ t.isTrivia) :
    ∀ o ∈ outline none ts, o.opensPhrase := by
  cases ts with
  | nil => simp [outline]
  | cons t ts =>
    have ht : Nesting.startsPhrase {} t = true := by
      simp [Nesting.startsPhrase, h t rfl]
    obtain ⟨o, os, hos, hopens, hall⟩ :=
      outlineFrom_opens (Nesting.feed {} t) (Nesting.startsPhrase {} t) t [] ts
    have hcons : outline none (t :: ts) = o :: os := hos
    rw [hcons]
    simpa [hopens, ht] using hall

/-- Delivered outlines that open phrases begin with a significant token. -/
theorem Delivered.significant {n : Nesting} {os : List Outline} (h : Delivered n os) {o : Outline}
    (ho : o ∈ os) (hopens : o.opensPhrase) : ¬ o.first.isTrivia := by
  obtain ⟨us, vs, rfl⟩ := List.append_of_mem ho
  rw [h.split.2.1] at hopens
  intro ht
  simp [Nesting.startsPhrase, ht] at hopens

/-- The chunks of trivia and of outlines that open phrases behind them. -/
theorem hasTokens_groupsOf {w : List Token} {os : List Outline} (hw : ∀ t ∈ w, t.isTrivia)
    (hd : Delivered {} os) (hopen : ∀ o ∈ os, o.opensPhrase) :
    List.Forall₂ Chunk.HasTokens (chunkTokens (w ++ os.flatMap Outline.tokens))
      (groupsOf w os) := by
  have hsig : ∀ o ∈ os, o.opensPhrase ∧ ¬ o.first.isTrivia :=
    fun o ho => ⟨hopen o ho, hd.significant ho (hopen o ho)⟩
  cases w with
  | nil =>
    rw [List.nil_append, ← chunk_eq_chunkTokens hd]
    cases os with
    | nil => exact .nil
    | cons o os =>
      exact chunkFrom_opening ⟨o.first, List.mem_cons_self, (hsig o List.mem_cons_self).2⟩
        fun o' ho' => hsig o' (List.mem_cons_of_mem o ho')
  | cons a w =>
    obtain ⟨hfeed, hin⟩ := Nesting.trivia (n := {}) fun t ht => hw t (List.mem_cons_of_mem a ht)
    rw [List.cons_append, chunkTokens, Nesting.feed_of_isTrivia (hw a List.mem_cons_self),
      chunkTokensFrom_inside hin, hfeed, ← chunkFrom_eq_chunkTokensFrom hd, List.nil_append]
    cases os with
    | nil => exact .cons ⟨a, w, rfl, rfl⟩ .nil
    | cons o os =>
      -- nothing significant stands before the first outline, so it joins the trivia
      have hnone : ((a :: w).any (!·.isTrivia)) = false := by
        rw [List.any_eq_false]
        intro t ht
        simp [hw t ht]
      rw [chunkFrom, hnone, Bool.and_false, if_neg (by simp)]
      refine chunkFrom_opening ⟨o.first, ?_, (hsig o List.mem_cons_self).2⟩
        fun o' ho' => hsig o' (List.mem_cons_of_mem o ho')
      simp [Outline.tokens]

/-- **Groups.**  The chunks of a buffer are made of the trivia at its front and of
    outlines that all open phrases. -/
theorem exists_phrases {us : List Outline} (h : Delivered {} us) :
    ∃ w os, w ++ os.flatMap Outline.tokens = us.flatMap Outline.tokens ∧
      (∀ t ∈ w, t.isTrivia) ∧ Delivered {} os ∧ (∀ o ∈ os, o.opensPhrase) ∧
      List.Forall₂ Chunk.HasTokens (chunk us) (groupsOf w os) := by
  rw [chunk_eq_chunkTokens h]
  generalize us.flatMap Outline.tokens = ts
  have hw : ∀ t ∈ ts.takeWhile (·.isTrivia), t.isTrivia := fun t ht => List.mem_takeWhile_imp ht
  have hsplit : ts.takeWhile (·.isTrivia)
      ++ (outline none (ts.dropWhile (·.isTrivia))).flatMap Outline.tokens = ts := by
    rw [flatMap_tokens_outline]; exact List.takeWhile_append_dropWhile
  have hd : Delivered {} (outline none (ts.dropWhile (·.isTrivia))) := delivered_outline none _
  have hopen : ∀ o ∈ outline none (ts.dropWhile (·.isTrivia)), o.opensPhrase := by
    refine opensPhrase_outline_none fun t ht => ?_
    have hhead := List.head?_dropWhile_not (·.isTrivia) ts
    rw [Option.mem_def.1 ht] at hhead
    simpa using hhead
  have hgroups := hasTokens_groupsOf hw hd hopen
  rw [hsplit] at hgroups
  exact ⟨_, _, hsplit, hw, hd, hopen, hgroups⟩

/-! ## Phrase starts in groups -/

/-- Of the tokens of a group, only the first significant one can start a phrase. -/
theorem isTrivia_of_phraseStart {before lead more as bs : List Token} {first t : Token}
    (hlead : ∀ u ∈ lead, u.isTrivia)
    (hin : (Nesting.feedAll {} (before ++ lead ++ [first])).Inside more)
    (hg : lead ++ first :: more = as ++ t :: bs) (ht : PhraseStart (before ++ as) t) :
    ∀ u ∈ as, u.isTrivia := by
  rcases List.append_eq_append_iff.1 hg with ⟨as', rfl, hrest⟩ | ⟨cs, rfl, -⟩
  · cases as' with
    | nil => simpa using hlead
    | cons a as' =>
      obtain ⟨rfl, rfl⟩ := List.cons.inj hrest
      refine absurd (Nesting.startsPhrase_iff.2 ht) ?_
      have hnot := hin.not_startsPhrase
      rw [← Nesting.feedAll_append] at hnot
      simpa using hnot
  · intro u hu
    exact hlead u (List.mem_append_left _ hu)

/-- A group is one of the outlines, the first one behind the trivia at the front. -/
theorem groupsOf_split {w : List Token} {os : List Outline} {gs gs' : List (List Token)}
    {g : List Token} (hne : os ≠ []) (h : groupsOf w os = gs ++ g :: gs') :
    ∃ us o vs lead, os = us ++ o :: vs ∧ g = lead ++ o.tokens ∧ (lead = w ∨ lead = []) ∧
      gs.flatten ++ lead = w ++ us.flatMap Outline.tokens ∧ (gs ≠ [] → lead = []) := by
  cases os with
  | nil => exact absurd rfl hne
  | cons o os =>
    cases gs with
    | nil =>
      obtain ⟨rfl, -⟩ := List.cons.inj h
      exact ⟨[], o, os, w, rfl, rfl, Or.inl rfl, by simp, by simp⟩
    | cons g₀ gs =>
      obtain ⟨rfl, hmap⟩ := List.cons.inj h
      obtain ⟨us, ovs, rfl, rfl, hovs⟩ := List.map_eq_append_iff.1 hmap
      obtain ⟨o', vs, rfl, rfl, -⟩ := List.map_eq_cons_iff.1 hovs
      exact ⟨o :: us, o', vs, [], rfl, rfl, Or.inr rfl, by simp [List.flatMap_def], by simp⟩

section
variable {w : List Token} {os : List Outline}

/-- Outlines that open phrases have one phrase start each. -/
theorem length_phraseStarts (hw : ∀ t ∈ w, t.isTrivia) (hd : Delivered {} os)
    (hopen : ∀ o ∈ os, o.opensPhrase) :
    (phraseStarts (w ++ os.flatMap Outline.tokens)).length = os.length := by
  obtain ⟨hfeed, hin⟩ := Nesting.trivia (n := {}) hw
  have hstarts : phraseStarts (w ++ os.flatMap Outline.tokens)
      = (os.filter (·.opensPhrase)).map (·.first) := by
    rw [phraseStarts, @phraseStartsFrom_inside [] w hin, List.nil_append]
    exact phraseStarts_delivered (by rw [hfeed]; exact hd)
  rw [hstarts, List.filter_eq_self.2 hopen, List.length_map]

/-- Trivia alone have no outlines that open phrases. -/
theorem eq_nil_iff_isTrivia (hw : ∀ t ∈ w, t.isTrivia) (hd : Delivered {} os)
    (hopen : ∀ o ∈ os, o.opensPhrase) :
    os = [] ↔ ∀ t ∈ w ++ os.flatMap Outline.tokens, t.isTrivia := by
  constructor
  · rintro rfl
    simpa using hw
  · intro hall
    by_contra hne
    obtain ⟨o, ho⟩ := List.exists_mem_of_ne_nil os hne
    refine hd.significant ho (hopen o ho) (hall o.first (List.mem_append_right w ?_))
    exact List.mem_flatMap.2 ⟨o, ho, List.mem_cons_self⟩

/-- A group of outlines that open phrases has a significant token. -/
theorem exists_significant (hd : Delivered {} os) (hopen : ∀ o ∈ os, o.opensPhrase)
    (hne : os ≠ []) {g : List Token} (hg : g ∈ groupsOf w os) : ∃ t ∈ g, ¬ t.isTrivia := by
  obtain ⟨gs, gs', hsplit⟩ := List.append_of_mem hg
  obtain ⟨us, o, vs, lead, rfl, rfl, -⟩ := groupsOf_split hne hsplit
  refine ⟨o.first, by simp [Outline.tokens], hd.significant (by simp) (hopen o (by simp))⟩

/-- Every group but the first begins with a phrase start, and no group has another
    one behind its first significant token. -/
theorem starts_groupsOf (hw : ∀ t ∈ w, t.isTrivia) (hd : Delivered {} os)
    (hopen : ∀ o ∈ os, o.opensPhrase) {gs gs' : List (List Token)} {g : List Token}
    (h : groupsOf w os = gs ++ g :: gs') :
    (gs ≠ [] → ∃ t ∈ g.head?, PhraseStart gs.flatten t) ∧
      ∀ as t bs, g = as ++ t :: bs → PhraseStart (gs.flatten ++ as) t → ∀ u ∈ as, u.isTrivia := by
  by_cases hne : os = []
  · -- the trivia are one group, if there are any
    have hone : gs = [] ∧ g = w := by
      subst hne
      by_cases hnil : w = []
      · simp [groupsOf, hnil] at h
      · rw [groupsOf, if_neg hnil] at h
        rcases List.append_eq_singleton_iff.1 h.symm with ⟨hgs, hg⟩ | ⟨-, hg⟩
        · exact ⟨hgs, (List.cons.inj hg).1⟩
        · cases hg
    obtain ⟨rfl, rfl⟩ := hone
    refine ⟨fun hgs => absurd rfl hgs, fun as t bs hg _ u hu => hw u ?_⟩
    rw [hg]; exact List.mem_append_left _ hu
  · obtain ⟨us, o, vs, lead, rfl, rfl, hlead, hflat, hfirst⟩ := groupsOf_split hne h
    obtain ⟨hopens, hin, -, -⟩ := hd.split.2
    -- the outlines go on from an empty buffer, since the trivia before them carry nothing
    have hcarried : Nesting.feedAll {} (us.flatMap Outline.tokens)
        = Nesting.feedAll {} (gs.flatten ++ lead) := by
      rw [hflat, Nesting.feedAll_append, (Nesting.trivia hw).1]
    rw [hcarried] at hopens hin
    have htrivia : ∀ u ∈ lead, u.isTrivia := by
      rcases hlead with rfl | rfl
      · exact hw
      · simp
    constructor
    · intro hgs
      obtain rfl := hfirst hgs
      refine ⟨o.first, rfl, ?_⟩
      rw [List.append_nil] at hopens
      rw [← Nesting.startsPhrase_iff, ← hopens]
      exact hopen o (by simp)
    · intro as t bs hg ht
      rw [← Nesting.feedAll_concat] at hin
      exact isTrivia_of_phraseStart htrivia hin hg ht

end

/-! ## Chunks of a buffer -/

/-- **One chunk for each phrase**: chunks over the tokens of a buffer.  Without a
    token there is none, trivia alone make one blank chunk, and otherwise there are
    as many chunks as phrase starts.  The chunks are not empty and cover the buffer
    one behind the other, and a blank one stands alone.  They are made of groups of
    tokens; every group but the first begins with a phrase start, and in a group
    only the first significant token can start a phrase. -/
structure OneChunkEach (ts : List Token) (cs : List Chunk) : Prop where
  none : ts = [] → cs = []
  blank : ts ≠ [] → (∀ t ∈ ts, t.isTrivia) → ∃ c, cs = [c] ∧ c.kind = .blank
  each : (∃ t ∈ ts, ¬ t.isTrivia) → cs.length = (phraseStarts ts).length
  nonempty : ∀ c ∈ cs, c.text ≠ ""
  text : String.join (cs.map (·.text)) = String.join (ts.map (·.text))
  start : cs.head?.map (·.start) = ts.head?.map (·.start)
  abut : cs.IsChain Abut
  stop : cs.getLast?.map (·.stop) = ts.getLast?.map (·.stop)
  alone : ∀ c ∈ cs, c.kind = .blank → cs = [c]
  groups : ∃ gs : List (List Token), gs.flatten = ts ∧ List.Forall₂ Chunk.HasTokens cs gs ∧
    ∀ us g vs, gs = us ++ g :: vs →
      (us ≠ [] → ∃ t ∈ g.head?, PhraseStart us.flatten t) ∧
      ∀ as t bs, g = as ++ t :: bs → PhraseStart (us.flatten ++ as) t → ∀ u ∈ as, u.isTrivia

theorem exists_group {cs : List Chunk} {gs : List (List Token)}
    (h : List.Forall₂ Chunk.HasTokens cs gs) {c : Chunk} (hc : c ∈ cs) :
    ∃ g ∈ gs, c.HasTokens g := by
  induction h with
  | nil => cases hc
  | @cons c' g cs gs hg _ ih =>
    rcases List.mem_cons.1 hc with rfl | hc
    · exact ⟨g, List.mem_cons_self, hg⟩
    · obtain ⟨g', hg', hc'⟩ := ih hc
      exact ⟨g', List.mem_cons_of_mem g hg', hc'⟩

/-- Trivia alone make one blank chunk. -/
theorem blank_of_trivia {w : List Token} {cs : List Chunk} (hw : ∀ t ∈ w, t.isTrivia)
    (hne : w ≠ []) (h : List.Forall₂ Chunk.HasTokens cs (groupsOf w [])) :
    ∃ c, cs = [c] ∧ c.kind = .blank := by
  rw [groupsOf, if_neg hne] at h
  obtain ⟨c, cs, hc, hcs, rfl⟩ := List.forall₂_cons_right_iff.1 h
  obtain rfl := List.forall₂_nil_right_iff.1 hcs
  exact ⟨c, rfl, hc.kind_eq_blank_iff.2 hw⟩

/-- **Chunks and phrases.**  In whatever calls the tokens of a buffer come, if they
    have texts and each ends where the next one begins, their outlines have one chunk
    for each phrase. -/
theorem oneChunkEach_deliver (calls : List (List Token))
    (hne : ∀ t ∈ calls.flatten, t.text ≠ "") (habut : calls.flatten.IsChain Abut) :
    OneChunkEach calls.flatten (chunk (deliver calls)) := by
  obtain ⟨w, os, hts, hw, hd, hopen, hgroups⟩ := exists_phrases (delivered_deliver calls)
  rw [flatMap_tokens_deliver] at hts
  rw [← hts] at hne habut ⊢
  rw [← flatten_groupsOf] at hne habut
  have hos := eq_nil_iff_isTrivia hw hd hopen
  constructor
  case none =>
    intro hnil
    obtain rfl := hos.2 (by simp [hnil])
    obtain ⟨rfl, -⟩ := List.append_eq_nil_iff.1 hnil
    exact List.forall₂_nil_right_iff.1 hgroups
  case blank =>
    intro hnil hall
    obtain rfl := hos.2 hall
    exact blank_of_trivia hw (by simpa using hnil) hgroups
  case each =>
    rintro ⟨t, ht, hsig⟩
    have hne : os ≠ [] := fun hnil => hsig (hos.1 hnil t ht)
    rw [hgroups.length_eq, length_phraseStarts hw hd hopen]
    cases os with
    | nil => exact absurd rfl hne
    | cons o os => simp [groupsOf]
  case nonempty =>
    intro c hc
    obtain ⟨g, hg, htok⟩ := exists_group hgroups hc
    exact htok.text_ne_empty fun t ht => hne t (List.mem_flatten_of_mem hg ht)
  case text =>
    rw [← String.toList_inj, String.toList_join, String.toList_join, List.flatMap_map,
      List.flatMap_map, flatMap_text_chunks hgroups, flatten_groupsOf]
    rfl
  case start => rw [start_chunks hgroups, flatten_groupsOf]
  case abut => exact abut_chunks hgroups habut
  case stop => rw [stop_chunks hgroups, flatten_groupsOf]
  case alone =>
    intro c hc hkind
    obtain ⟨g, hg, htok⟩ := exists_group hgroups hc
    by_cases hnil : os = []
    · subst hnil
      have hw' : w ≠ [] := by rintro rfl; simp [groupsOf] at hg
      obtain ⟨c', hcs, -⟩ := blank_of_trivia hw hw' hgroups
      rw [hcs] at hc ⊢
      rw [List.mem_singleton.1 hc]
    · obtain ⟨t, ht, hsig⟩ := exists_significant hd hopen hnil hg
      exact absurd (htok.kind_eq_blank_iff.1 hkind t ht) hsig
  case groups =>
    exact ⟨_, flatten_groupsOf w os, hgroups, fun us g vs h => starts_groupsOf hw hd hopen h⟩

/-- Blanks at the front, a bracket cut in two and a phrase behind `;;`, in three calls:
    three phrases and three chunks. -/
theorem oneChunkEach_three :
    let ts := (lex .origin " \nlet x = (1) let y = 2;; f x").toOption.getD []
    let calls := [ts.take 3, (ts.drop 3).take 5, ts.drop 8]
    OneChunkEach ts (chunk (deliver calls)) ∧
      (phraseStarts ts).map (·.text) = ["let", "let", "f"] ∧
      (chunk (deliver calls)).map (·.text) = [" \nlet x = (1) ", "let y = 2;; ", "f x"] := by
  intro ts calls
  have hlex : lex .origin " \nlet x = (1) let y = 2;; f x" = .ok ts := by decide +kernel
  obtain ⟨htile, -⟩ := tiles_of_lexChars hlex
  have hcalls : calls.flatten = ts := by decide +kernel
  have heach := oneChunkEach_deliver calls (by rw [hcalls]; exact htile.text_ne_empty)
    (by rw [hcalls]; exact htile.isChain_abut)
  rw [hcalls] at heach
  exact ⟨heach, by decide +kernel, by decide +kernel⟩

end PhraseServer
