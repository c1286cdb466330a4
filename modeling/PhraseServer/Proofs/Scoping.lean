/-
  Scopes behind chunks.

  An environment is seen in three ways: as all its bindings, as the visible ones,
  and through the binding that a name finds.  What chunks declare, in order
  (`Declares`), fixes all three.

  * `unshadowed_eq_firsts`: visible is what comes first of its name;
  * `find?_iff_mem_unshadowed`: a name finds what is visible of it;
  * `unshadowed_append`: bindings in front hide those of their names and leave the
    others where they are;
  * `views_of_chunks`: the three views behind any chunks, and what a further chunk
    changes.
-/
import Mathlib.Data.List.Basic
import PhraseServer.Scope

namespace PhraseServer

/-! ## Declarations -/

/-- `Declares cs ds`: chunks declare these bindings, in order.  Values, types and
    named modules are declared at the start of their chunk. -/
inductive Declares : List Chunk → List Binding → Prop
  | nil : Declares [] []
  | values {c : Chunk} {cs : List Chunk} {ds : List Binding} {names : List String}
      {recursive : Bool} : c.kind = .let_ names recursive → Declares cs ds →
      Declares (c :: cs) (names.map (⟨·, .value, c.start⟩) ++ ds)
  | types {c : Chunk} {cs : List Chunk} {ds : List Binding} {names : List String} :
      c.kind = .type names → Declares cs ds →
      Declares (c :: cs) (names.map (⟨·, .type, c.start⟩) ++ ds)
  | module_ {c : Chunk} {cs : List Chunk} {ds : List Binding} {name : String} :
      c.kind = .module_ (some name) → Declares cs ds →
      Declares (c :: cs) (⟨name, .module_, c.start⟩ :: ds)
  | none {c : Chunk} {cs : List Chunk} {ds : List Binding} :
      (∀ names recursive, c.kind ≠ .let_ names recursive) → (∀ names, c.kind ≠ .type names) →
      (∀ name, c.kind ≠ .module_ (some name)) → Declares cs ds → Declares (c :: cs) ds

/-- The chunks declare what typing declares for each of them, and nothing else. -/
theorem declares_iff {cs : List Chunk} {ds : List Binding} :
    Declares cs ds ↔ ds = cs.flatMap Chunk.declared := by
  constructor
  · intro h
    induction h with
    | nil => rfl
    | values hc _ ih => simp [Chunk.declared, hc, ih]
    | types hc _ ih => simp [Chunk.declared, hc, ih]
    | module_ hc _ ih => simp [Chunk.declared, hc, ih]
    | @none c cs ds hlet htype hmodule _ ih =>
      have hc : c.declared = [] := by
        unfold Chunk.declared
        split
        · next hkind => exact absurd hkind (hlet _ _)
        · next hkind => exact absurd hkind (htype _)
        · next hkind => exact absurd hkind (hmodule _)
        · rfl
      rw [List.flatMap_cons, hc, ih, List.nil_append]
  · rintro rfl
    induction cs with
    | nil => exact .nil
    | cons c cs ih =>
      rw [List.flatMap_cons, Chunk.declared]
      split
      · next hkind => exact .values hkind ih
      · next hkind => exact .types hkind ih
      · next hkind => exact .module_ hkind ih
      · next hlet htype hmodule => exact .none hlet htype hmodule ih

/-! ## The first of each name -/

/-- What tells names apart: the namespace counts. -/
def Binding.key (b : Binding) : Namespace × String := (b.space, b.name)

theorem Binding.answers_iff {b : Binding} {name : String} {space : Namespace} :
    b.answers name space ↔ b.key = (space, name) := by
  simp [answers, key]

theorem Binding.sameName_eq (b c : Binding) : b.sameName c = decide (b.key = c.key) :=
  Bool.eq_iff_iff.2 (by rw [sameName, answers_iff, decide_eq_true_eq]; rfl)

/-- The bindings of a list before which none has their name. -/
def firsts (bs : List Binding) : List Binding :=
  (bs.zipIdx.filter fun (b, i) => b.key ∉ (bs.take i).map Binding.key).map Prod.fst

theorem firsts_cons (b : Binding) (bs : List Binding) :
    firsts (b :: bs) = b :: (firsts bs).filter (·.key ≠ b.key) := by
  have hzip : (b :: bs).zipIdx = (b, 0) :: bs.zipIdx.map fun x => (x.1, x.2 + 1) := by
    rw [List.zipIdx_cons, List.zipIdx_succ]
  rw [firsts, hzip, List.filter_cons_of_pos (by simp), List.map_cons, List.filter_map,
    List.map_map, firsts, List.filter_map, List.filter_filter]
  congr 2
  refine List.filter_congr fun x _ => ?_
  simp [eq_comm]

theorem unshadowed_cons (b : Binding) (bs : List Binding) :
    unshadowed (b :: bs) = b :: (unshadowed bs).filter (·.key ≠ b.key) := by
  rw [unshadowed]
  congr 1
  refine List.filter_congr fun c _ => ?_
  simp [Binding.sameName_eq, eq_comm]

/-- Visible is what comes first of its name. -/
theorem unshadowed_eq_firsts (bs : List Binding) : unshadowed bs = firsts bs := by
  induction bs with
  | nil => rfl
  | cons b bs ih => rw [unshadowed_cons, firsts_cons, ih]

/-! ## Visible bindings -/

/-- What stands in front hides the bindings of its names and no others. -/
theorem unshadowed_append (as bs : List Binding) :
    unshadowed (as ++ bs)
      = unshadowed as ++ (unshadowed bs).filter (·.key ∉ as.map Binding.key) := by
  induction as with
  | nil => simp [unshadowed]
  | cons a as ih =>
    rw [List.cons_append, unshadowed_cons, ih, List.filter_append, List.filter_filter,
      unshadowed_cons, List.cons_append]
    congr 2
    refine List.filter_congr fun c _ => ?_
    simp

theorem mem_keys_unshadowed (bs : List Binding) (k : Namespace × String) :
    k ∈ (unshadowed bs).map Binding.key ↔ k ∈ bs.map Binding.key := by
  induction bs with
  | nil => rfl
  | cons b bs ih =>
    rw [unshadowed_cons, List.map_cons, List.map_cons, List.mem_cons, List.mem_cons, ← ih]
    by_cases hk : k = b.key
    · simp [hk]
    · simp only [hk, false_or, List.mem_map, List.mem_filter, decide_eq_true_eq]
      constructor
      · rintro ⟨c, ⟨hc, -⟩, rfl⟩
        exact ⟨c, hc, rfl⟩
      · rintro ⟨c, hc, rfl⟩
        exact ⟨c, ⟨hc, hk⟩, rfl⟩

theorem nodup_keys_unshadowed (bs : List Binding) :
    ((unshadowed bs).map Binding.key).Nodup := by
  induction bs with
  | nil => exact List.nodup_nil
  | cons b bs ih =>
    rw [unshadowed_cons, List.map_cons, List.nodup_cons]
    refine ⟨fun hb => ?_, ih.sublist (List.filter_sublist.map _)⟩
    obtain ⟨c, hc, hkey⟩ := List.mem_map.1 hb
    exact of_decide_eq_true (List.mem_filter.1 hc).2 hkey

/-- A name finds what is visible of it. -/
theorem find?_iff_mem_unshadowed (bs : List Binding) (name : String) (space : Namespace)
    (b : Binding) : bs.find? (·.answers name space) = some b ↔
      b ∈ unshadowed bs ∧ b.key = (space, name) := by
  induction bs with
  | nil => simp [unshadowed]
  | cons a bs ih =>
    rw [unshadowed_cons, List.mem_cons, List.mem_filter, decide_eq_true_eq]
    by_cases ha : a.key = (space, name)
    · -- what else is visible has another name
      have hans : a.answers name space = true := Binding.answers_iff.2 ha
      simp only [List.find?_cons, hans, Option.some_inj]
      constructor
      · rintro rfl
        exact ⟨.inl rfl, ha⟩
      · rintro ⟨rfl | ⟨-, hne⟩, hb⟩
        · rfl
        · exact absurd (hb.trans ha.symm) hne
    · have hans : a.answers name space = false :=
        Bool.eq_false_iff.2 (mt Binding.answers_iff.1 ha)
      simp only [List.find?_cons, hans, ih]
      constructor
      · rintro ⟨hmem, hb⟩
        exact ⟨.inr ⟨hmem, fun h => ha (h.symm.trans hb)⟩, hb⟩
      · rintro ⟨rfl | ⟨hmem, -⟩, hb⟩
        · exact absurd hb ha
        · exact ⟨hmem, hb⟩

/-! ## Look-ups -/

/-- `Latest k ds d`: among declarations, the latest one of a name. -/
def Latest (k : Namespace × String) (ds : List Binding) (d : Binding) : Prop :=
  d.key = k ∧ ∃ before after, ds = before ++ d :: after ∧ ∀ a ∈ after, a.key ≠ k

/-- A name finds its latest declaration, when the latest ones stand first. -/
theorem find?_reverse_iff_latest (ds : List Binding) (name : String) (space : Namespace)
    (d : Binding) : ds.reverse.find? (·.answers name space) = some d ↔
      Latest (space, name) ds d := by
  rw [List.find?_eq_some_iff_append, Binding.answers_iff, Latest]
  refine and_congr_right fun _ => ⟨?_, ?_⟩
  · rintro ⟨as, bs, heq, has⟩
    refine ⟨bs.reverse, as.reverse, ?_, fun a ha => ?_⟩
    · rw [← List.reverse_reverse ds, heq]
      simp
    · have hno := has a (List.mem_reverse.1 ha)
      rw [Bool.not_eq_true', ← Bool.not_eq_true, Binding.answers_iff] at hno
      exact hno
  · rintro ⟨before, after, rfl, hafter⟩
    refine ⟨after.reverse, before.reverse, by simp, fun a ha => ?_⟩
    rw [Bool.not_eq_true', ← Bool.not_eq_true, Binding.answers_iff]
    exact hafter a (List.mem_reverse.1 ha)

/-! ## Environments -/

theorem bindings_foldl_typeChunk (known : List String) (cs : List Chunk) (env : Env) :
    (cs.foldl (typeChunk known) env).bindings
      = (cs.flatMap Chunk.declared).reverse ++ env.bindings := by
  induction cs generalizing env with
  | nil => rfl
  | cons c cs ih =>
    rw [List.foldl_cons, ih, List.flatMap_cons, List.reverse_append, List.append_assoc]
    rfl

/-- `Views env ds`: the views of an environment behind the declarations `ds`. -/
structure Views (env : Env) (ds : List Binding) : Prop where
  /-- The latest declaration comes first. -/
  bindings : env.bindings = ds.reverse
  visible : env.visible = firsts env.bindings
  /-- No name is visible twice. -/
  once : (env.visible.map Binding.key).Nodup
  /-- What was declared is visible. -/
  declared : ∀ k, k ∈ env.visible.map Binding.key ↔ k ∈ ds.map Binding.key
  found : ∀ name space, (env.lookup name space).isSome ↔ (space, name) ∈ ds.map Binding.key
  latest : ∀ name space b, env.lookup name space = some b ↔ Latest (space, name) ds b
  seen : ∀ name space b,
    env.lookup name space = some b ↔ b ∈ env.visible ∧ b.key = (space, name)

theorem views_of_bindings {env : Env} {ds : List Binding} (h : env.bindings = ds.reverse) :
    Views env ds where
  bindings := h
  visible := unshadowed_eq_firsts env.bindings
  once := nodup_keys_unshadowed env.bindings
  declared k := by
    rw [Env.visible, mem_keys_unshadowed, h, List.map_reverse, List.mem_reverse]
  found name space := by
    rw [Env.lookup, List.find?_isSome, h]
    simp [Binding.answers_iff]
  latest name space b := by
    rw [Env.lookup, h]
    exact find?_reverse_iff_latest ds name space b
  seen name space b := find?_iff_mem_unshadowed env.bindings name space b

/-- A chunk leaves what is visible of the names that it does not declare. -/
theorem visible_typeChunk (known : List String) (env : Env) (c : Chunk) :
    (typeChunk known env c).visible.filter (·.key ∉ c.declared.map Binding.key)
      = env.visible.filter (·.key ∉ c.declared.map Binding.key) := by
  have hnew : (unshadowed c.declared.reverse).filter (·.key ∉ c.declared.map Binding.key)
      = [] := by
    rw [List.filter_eq_nil_iff]
    intro b hb
    have hkey := (mem_keys_unshadowed _ _).1 (List.mem_map_of_mem hb)
    rw [List.map_reverse, List.mem_reverse] at hkey
    simpa using hkey
  rw [Env.visible, typeChunk, unshadowed_append, List.filter_append, hnew, List.nil_append,
    List.filter_filter, Env.visible]
  refine List.filter_congr fun b _ => ?_
  simp

/-- **Scopes.**  Behind any chunks, an environment lists what they declare, the
    latest first; visible is the first of each name, and a name finds what is visible
    of it, which is its latest declaration.  A further chunk changes what is visible
    of the names that it declares and of no others. -/
theorem views_of_chunks (known : List String) (cs : List Chunk) :
    let env := cs.foldl (typeChunk known) {}
    ∃ ds, (∀ bs, Declares cs bs ↔ bs = ds) ∧ Views env ds ∧
      ∀ c, ∃ new, (∀ bs, Declares [c] bs ↔ bs = new) ∧
        (typeChunk known env c).visible.filter (·.key ∉ new.map Binding.key)
          = env.visible.filter (·.key ∉ new.map Binding.key) := by
  intro env
  have henv : env.bindings = (cs.flatMap Chunk.declared).reverse := by
    simp [env, bindings_foldl_typeChunk]
  refine ⟨_, fun bs => declares_iff, views_of_bindings henv, fun c => ⟨c.declared, ?_, ?_⟩⟩
  · intro bs
    rw [declares_iff, List.flatMap_singleton]
  · exact visible_typeChunk known env c

/-- A type does not hide the value of its name, a later value does. -/
example :
    let c (kind : ChunkKind) (col : Nat) : Chunk := ⟨kind, "", ⟨1, col, col⟩, ⟨1, col, col⟩⟩
    ([c (.let_ ["x", "y"] false) 0, c (.type ["x"]) 9, c (.let_ ["x"] false) 18].foldl
        (typeChunk []) {}).visible
      = [⟨"x", .value, ⟨1, 18, 18⟩⟩, ⟨"x", .type, ⟨1, 9, 9⟩⟩, ⟨"y", .value, ⟨1, 0, 0⟩⟩] := by
  decide

end PhraseServer
