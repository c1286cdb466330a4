/-
  How far two logs agree.

  `sharedKeys` walks along two lists of keys and passes over the smaller own
  ones.  Two ways in which the analysis uses this walk are worked out here.

  * `sharedKeys_eq_commonLength`: where every key tells its own place in the
    list, the walk finds the longest common beginning, whatever the order of
    the keys;
  * `sharedKeys_group`: where the own list is finer, a wanted key takes all own
    keys below it and its equal.
-/
import Mathlib.Data.List.Basic
import Mathlib.Tactic.Common
import PhraseServer.Log

namespace PhraseServer.Log

variable {κ : Type}

/-! ## Common beginnings -/

/-- How many items two lists have in common from the start. -/
def commonLength [DecidableEq κ] : List κ → List κ → Nat
  | a :: as, b :: bs => if a = b then commonLength as bs + 1 else 0
  | _, _ => 0

theorem take_commonLength [DecidableEq κ] : ∀ as bs : List κ,
    as.take (commonLength as bs) = bs.take (commonLength as bs)
  | [], _ => by simp [commonLength]
  | _ :: _, [] => by simp [commonLength]
  | a :: as, b :: bs => by
    unfold commonLength; split_ifs with h
    · rw [h, List.take_succ_cons, List.take_succ_cons, take_commonLength as bs]
    · rfl

theorem commonLength_le_right [DecidableEq κ] : ∀ as bs : List κ, commonLength as bs ≤ bs.length
  | [], _ => by simp [commonLength]
  | _ :: _, [] => by simp [commonLength]
  | a :: as, b :: bs => by
    unfold commonLength; split_ifs
    · exact Nat.succ_le_succ (commonLength_le_right as bs)
    · exact Nat.zero_le _

/-! ## Keys that tell their place -/

/-- The keys have the ranks `n`, `n + 1`, and so on. -/
def Ranked (rank : κ → Nat) : Nat → List κ → Prop
  | _, [] => True
  | n, k :: ks => rank k = n ∧ Ranked rank (n + 1) ks

theorem Ranked.le_rank {rank : κ → Nat} : ∀ {ks : List κ} {n : Nat}, Ranked rank n ks →
    ∀ k ∈ ks, n ≤ rank k
  | [], _, _ => by simp
  | k :: ks, n, ⟨hk, hks⟩ => by
    intro k' hk'
    rcases List.mem_cons.1 hk' with rfl | hk'
    · exact Nat.le_of_eq hk.symm
    · exact Nat.le_of_succ_le (hks.le_rank k' hk')

variable [LT κ] [DecidableLT κ] [DecidableEq κ]

/-- The walk ends at once when no own key is wanted. -/
theorem sharedKeys_of_notMem {w : κ} {ours theirs : List κ} (h : w ∉ ours) :
    sharedKeys ours (w :: theirs) = 0 := by
  unfold sharedKeys
  split
  · rfl
  · next k rest hd =>
    have hk : k ∈ ours := (List.dropWhile_suffix _).mem (hd ▸ List.mem_cons_self)
    have hne : k ≠ w := fun e => h (e ▸ hk)
    rw [if_neg hne]

/-- **Keys that tell their place.**  Such keys agree exactly on the longest
    common beginning; their order does not matter. -/
theorem sharedKeys_eq_commonLength {rank : κ → Nat} (irrefl : ∀ k : κ, ¬ k < k) {n : Nat}
    {ours theirs : List κ} (ho : Ranked rank n ours) (ht : Ranked rank n theirs) :
    sharedKeys ours theirs = commonLength ours theirs := by
  induction theirs generalizing ours n with
  | nil => cases ours <;> rfl
  | cons w ws ih =>
    cases ours with
    | nil => rfl
    | cons k ks =>
      by_cases hkw : k = w
      · subst hkw
        simp only [sharedKeys, commonLength, List.dropWhile_cons, List.takeWhile_cons, irrefl,
          decide_false, Bool.false_eq_true, if_false, if_true, List.length_nil]
        rw [ih ho.2 ht.2]; omega
      · -- a later own key has a higher rank than `w`
        have hw : w ∉ k :: ks := by
          intro h
          rcases List.mem_cons.1 h with h | h
          · exact hkw h.symm
          · have := ho.2.le_rank w h
            have := ht.1
            omega
        rw [sharedKeys_of_notMem hw, commonLength, if_neg hkw]

/-! ## A finer own list -/

/-- **Groups.**  A wanted key takes the smaller own keys before it and its equal. -/
theorem sharedKeys_group {w : κ} (irrefl : ¬ w < w) {g : List κ} (hg : ∀ k ∈ g, k < w)
    (ours theirs : List κ) :
    sharedKeys (g ++ w :: ours) (w :: theirs) = g.length + 1 + sharedKeys ours theirs := by
  have hd : (g ++ w :: ours).dropWhile (· < w) = w :: ours := by
    rw [List.dropWhile_append_of_pos (by simpa using hg)]; simp [irrefl]
  have ht : (g ++ w :: ours).takeWhile (· < w) = g := by
    rw [List.takeWhile_append_of_pos (by simpa using hg)]; simp [irrefl]
  rw [sharedKeys, hd, ht]; simp

end PhraseServer.Log
