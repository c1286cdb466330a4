/-
  Greedy embeddings.

  Where the own keys do not fall, the walk of `sharedKeys` embeds one list of keys
  in the other as far as any embedding can, and needs as few own keys as any
  embedding would: to take the first equal of a wanted key never hurts.

  * `Embeds`: the longest beginning that can be embedded, and the shortest own
    beginning that takes it;
  * `exists_embeds`: the walk finds both;
  * `sync_embeds`: what `sync` returns for two logs.
-/
import Mathlib.Order.Bounds.Basic
import PhraseServer.Proofs.Agreement

namespace PhraseServer.Log

open scoped List

/-! ## Embeddings of keys -/

section
variable {κ : Type} {w : κ} {l small rest ours theirs : List κ} {m n : Nat}

/-- `Embeds ours theirs m n`: the first `m` keys of `theirs` occur in order among
    `ours`, and no more do; the first `n` of `ours` are the fewest among which these
    occur. -/
structure Embeds (ours theirs : List κ) (m n : Nat) : Prop where
  most : IsGreatest {k | k ≤ theirs.length ∧ theirs.take k <+ ours} m
  fewest : IsLeast {j | theirs.take m <+ ours.take j} n

/-- The first of a list may as well go to its first equal. -/
theorem cons_sublist_append_cons_iff (h : w ∉ small) :
    w :: l <+ small ++ w :: rest ↔ l <+ rest := by
  constructor
  · intro hl
    obtain ⟨as, bs, heq, has, hbs⟩ := List.sublist_append_iff.1 hl
    cases as with
    | nil =>
      rw [List.nil_append] at heq
      rw [← heq] at hbs
      exact List.cons_sublist_cons.1 hbs
    | cons a as =>
      obtain ⟨rfl, -⟩ := List.cons.inj heq
      exact absurd (has.subset List.mem_cons_self) h
  · intro hl
    exact (hl.cons_cons w).trans (List.sublist_append_right small _)

theorem take_append_cons (i : Nat) :
    (small ++ w :: rest).take (small.length + 1 + i) = small ++ w :: rest.take i := by
  rw [Nat.add_assoc, List.take_length_add_append, Nat.add_comm 1 i, List.take_succ_cons]

/-- That equal stands behind all of `small`. -/
theorem exists_of_cons_sublist_take (h : w ∉ small) {j : Nat}
    (hl : w :: l <+ (small ++ w :: rest).take j) :
    ∃ i, j = small.length + 1 + i ∧ l <+ rest.take i := by
  have hj : small.length + 1 ≤ j := by
    by_contra hlt
    rw [List.take_append_of_le_length (by omega)] at hl
    exact h (List.mem_of_mem_take (hl.subset List.mem_cons_self))
  obtain ⟨i, rfl⟩ := Nat.exists_eq_add_of_le hj
  rw [take_append_cons] at hl
  exact ⟨i, rfl, (cons_sublist_append_cons_iff h).1 hl⟩

theorem embeds_nil (ours : List κ) : Embeds ours [] 0 0 :=
  ⟨⟨by simp, fun _ hk => hk.1⟩, by simp, fun _ _ => Nat.zero_le _⟩

/-- Nothing can be embedded from a key on that is missing. -/
theorem embeds_of_notMem (h : w ∉ ours) : Embeds ours (w :: theirs) 0 0 := by
  refine ⟨⟨by simp, fun k hk => ?_⟩, by simp, fun _ _ => Nat.zero_le _⟩
  cases k with
  | zero => exact le_rfl
  | succ k => exact absurd (hk.2.subset List.mem_cons_self) h

/-- A key that is found goes to its first equal, and the embedding goes on behind it. -/
theorem Embeds.cons (h : w ∉ small) (he : Embeds rest theirs m n) :
    Embeds (small ++ w :: rest) (w :: theirs) (m + 1) (small.length + 1 + n) := by
  obtain ⟨⟨⟨hm, hsub⟩, hmost⟩, hfew, hfewest⟩ := he
  refine ⟨⟨⟨Nat.succ_le_succ hm, (cons_sublist_append_cons_iff h).2 hsub⟩, fun k hk => ?_⟩, ?_,
    fun j hj => ?_⟩
  · cases k with
    | zero => exact Nat.zero_le _
    | succ k =>
      have hk' : theirs.take k <+ rest := (cons_sublist_append_cons_iff h).1 hk.2
      exact Nat.succ_le_succ (hmost ⟨Nat.le_of_succ_le_succ hk.1, hk'⟩)
  · change w :: theirs.take m <+ (small ++ w :: rest).take (small.length + 1 + n)
    rw [take_append_cons]
    exact (cons_sublist_append_cons_iff h).2 hfew
  · obtain ⟨i, rfl, hi⟩ := exists_of_cons_sublist_take h hj
    exact Nat.add_le_add_left (hfewest hi) _

theorem Embeds.le_length (h : Embeds ours theirs m n) : n ≤ ours.length :=
  h.fewest.2 (by simpa using h.most.1.2)

/-- The last key that is embedded goes to the last own key that is needed. -/
theorem Embeds.exists_last (h : Embeds ours theirs m n) {k : κ}
    (hk : (theirs.take m).getLast? = some k) : ∃ i, n = i + 1 ∧ ours[i]? = some k := by
  obtain ⟨hsub, hleast⟩ := h.fewest
  obtain ⟨ks, hks⟩ := List.getLast?_eq_some_iff.1 hk
  change theirs.take m <+ ours.take n at hsub
  rw [hks] at hsub hleast
  cases n with
  | zero => simp at hsub
  | succ i =>
    refine ⟨i, rfl, ?_⟩
    -- one own key less is too few, so the last one is taken, and by the last key
    have hshort : ¬ ks ++ [k] <+ ours.take i := fun hs => Nat.not_succ_le_self i (hleast hs)
    rw [List.take_add_one] at hsub
    obtain ⟨as, bs, heq, has, hbs⟩ := List.sublist_append_iff.1 hsub
    cases hi : ours[i]? with
    | none =>
      rw [hi, Option.toList_none, List.sublist_nil] at hbs
      rw [hbs, List.append_nil] at heq
      exact absurd (heq ▸ has) hshort
    | some a =>
      rw [hi, Option.toList_some] at hbs
      rcases List.sublist_singleton.1 hbs with rfl | rfl
      · rw [List.append_nil] at heq
        exact absurd (heq ▸ has) hshort
      · rw [(List.cons.inj (List.append_inj' heq rfl).2).1]

end

/-! ## The walk -/

/-- **The walk is greedy.**  Where the own keys do not fall, it embeds as many keys
    as can be, in as few own ones. -/
theorem exists_embeds {κ : Type} [LinearOrder κ] {ours : List κ} (h : ours.Pairwise (· ≤ ·))
    (theirs : List κ) : ∃ m, Embeds ours theirs m (sharedKeys ours theirs) := by
  induction theirs generalizing ours with
  | nil => exact ⟨0, embeds_nil ours⟩
  | cons w ws ih =>
    by_cases hw : w ∈ ours
    · obtain ⟨small, rest, rfl, hsmall⟩ := List.eq_append_cons_of_mem hw
      obtain ⟨-, hrest, hle⟩ := List.pairwise_append.1 h
      have hlt : ∀ k ∈ small, k < w := fun k hk =>
        lt_of_le_of_ne (hle k hk w List.mem_cons_self) fun heq => hsmall (heq ▸ hk)
      obtain ⟨m, hm⟩ := ih hrest.of_cons
      rw [sharedKeys_group (lt_irrefl w) hlt]
      exact ⟨m + 1, hm.cons hsmall⟩
    · rw [sharedKeys_of_notMem hw]
      exact ⟨0, embeds_of_notMem hw⟩

/-- **Agreement of two logs.**  Let the keys of a log not fall, and let `m` be the most
    items of another, from the first on, whose keys occur in order among its own.
    Then `sync` returns the fewest own items, from the first on, among which they
    occur: never more than there are, whatever lies behind the cursors.  Where the
    own keys rise, the last of these items is the one with the last of the `m` keys. -/
theorem sync_embeds {α β κ : Type} [LinearOrder κ] (log : Log α) (other : Log β) (key : α → κ)
    (otherKey : β → κ) (h : (log.committed.map key).Pairwise (· ≤ ·)) :
    let n := log.sync other key otherKey
    ∃ m, IsGreatest {k | k ≤ other.cursor ∧
          (other.committed.take k).map otherKey <+ log.committed.map key} m ∧
      IsLeast {j | (other.committed.take m).map otherKey <+ (log.committed.take j).map key} n ∧
      (m = 0 → n = 0) ∧ n ≤ log.cursor ∧
      (∀ future otherFuture, (Log.mk log.committed future).sync
        ⟨other.committed, otherFuture⟩ key otherKey = n) ∧
      ((log.committed.map key).Pairwise (· < ·) →
        ∀ y, (other.committed.take m).getLast? = some y →
          ∃ i, n = i + 1 ∧ ∀ i', log.committed[i']?.map key = some (otherKey y) ↔ i' = i) := by
  intro n
  obtain ⟨m, hm⟩ := exists_embeds h (other.committed.map otherKey)
  have hcursor : n ≤ log.cursor := hm.le_length.trans_eq (List.length_map key)
  have hmost := hm.most
  have hfewest := hm.fewest
  simp only [← List.map_take, List.length_map] at hmost hfewest
  refine ⟨m, hmost, hfewest, ?_, hcursor, fun _ _ => rfl, fun hrise y hy => ?_⟩
  · rintro rfl
    exact Nat.le_zero.1 (hfewest.2 (by simp))
  · have hlast : ((other.committed.map otherKey).take m).getLast? = some (otherKey y) := by
      rw [← List.map_take, List.getLast?_map, hy, Option.map_some]
    obtain ⟨i, hi, hkey⟩ := hm.exists_last hlast
    refine ⟨i, hi, fun i' => ?_⟩
    rw [← List.getElem?_map, ← hkey]
    have hlt : i < (log.committed.map key).length := (List.getElem?_eq_some_iff.1 hkey).1
    rw [eq_comm, List.getElem?_inj hlt (hrise.imp ne_of_lt), eq_comm]

/-- Two of four keys are embedded: the walk passes over own keys that are not wanted
    and ends at the missing `6`. -/
theorem sync_embeds_rising :
    let log : Log Nat := ⟨[1, 2, 5, 7], [9]⟩
    let other : Log Nat := ⟨[2, 7, 6, 7], []⟩
    (log.committed.map id).Pairwise (· < ·) ∧ log.sync other id id = 4 ∧
      IsLeast {j | (other.committed.take 2).map id <+ (log.committed.take j).map id} 4 ∧
      ∀ i, log.committed[i]?.map id = some 7 ↔ i = 3 := by
  intro log other
  have hrise : (log.committed.map id).Pairwise (· < ·) := by decide
  have hsync : log.sync other id id = 4 := by decide
  obtain ⟨m, hmost, hfewest, -, -, -, hlast⟩ := sync_embeds log other id id (by decide)
  have hle : 2 ≤ m := hmost.2 ⟨by decide, by decide⟩
  obtain ⟨hcap, hsub⟩ := hmost.1
  change m ≤ 4 at hcap
  obtain rfl : m = 2 := by
    rcases (by omega : m = 2 ∨ m = 3 ∨ m = 4) with rfl | rfl | rfl
    · rfl
    · exact absurd hsub (by decide)
    · exact absurd hsub (by decide)
  obtain ⟨i, hi, hkey⟩ := hlast hrise 7 rfl
  rw [hsync] at hfewest hi
  obtain rfl : i = 3 := by omega
  exact ⟨hrise, hsync, hfewest, hkey⟩

/-- A key that is wanted twice takes two own ones. -/
example : (Log.mk [1, 2, 2, 2, 5] []).sync (Log.mk [2, 2, 4] []) id id = 3 := by decide

end PhraseServer.Log
