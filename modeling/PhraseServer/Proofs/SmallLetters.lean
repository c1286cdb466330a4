/-
  Small letters.

  `Lower` says what the lowercase of a character is.  ASCII is spelled out; the other
  capitals are those of the runs of `capitalRuns`, which do not overlap, so that no
  character has two small letters.

  * `InRun.unique`: a character is in one run at most;
  * `lower_iff`: the lowercase of a character is what `lowercase` gives;
  * `mem_lowercase`: no character but the dot and the slash becomes one of them.
-/
import Mathlib.Tactic.Common
import Mathlib.Tactic.SplitIfs
import PhraseServer.Text.Lowercase

namespace PhraseServer

/-! ## Runs -/

/-- `InRun c run`: the character is one of the capitals of a run. -/
def InRun (c : Char) (run : Nat × Nat × Nat × Int) : Prop :=
  run.1 ≤ c.toNat ∧ c.toNat ≤ run.2.1 ∧ (c.toNat - run.1) % run.2.2.1 = 0

instance (c : Char) (run : Nat × Nat × Nat × Int) : Decidable (InRun c run) :=
  inferInstanceAs (Decidable (_ ∧ _ ∧ _))

/-- Runs come one behind the other. -/
theorem capitalRuns_sorted : capitalRuns.Pairwise fun run next => run.2.1 < next.1 := by
  decide +kernel

/-- A character is in one run at most. -/
theorem InRun.unique {c : Char} {run run' : Nat × Nat × Nat × Int} (hrun : run ∈ capitalRuns)
    (hrun' : run' ∈ capitalRuns) (h : InRun c run) (h' : InRun c run') : run = run' := by
  have hsorted := List.pairwise_iff_getElem.1 capitalRuns_sorted
  obtain ⟨hfirst, hlast, -⟩ := h
  obtain ⟨hfirst', hlast', -⟩ := h'
  obtain ⟨i, hi, rfl⟩ := List.getElem_of_mem hrun
  obtain ⟨j, hj, rfl⟩ := List.getElem_of_mem hrun'
  rcases Nat.lt_trichotomy i j with hij | rfl | hij
  · have hlt := hsorted i j hi hj hij
    omega
  · rfl
  · have hlt := hsorted j i hj hi hij
    omega

/-- Every capital of a run has a small letter. -/
theorem InRun.toNat_ofNat {c : Char} {run : Nat × Nat × Nat × Int} (hrun : run ∈ capitalRuns)
    (h : InRun c run) :
    0x2f < (c.toNat + run.2.2.2).toNat ∧
      ((Char.ofNat (c.toNat + run.2.2.2).toNat).toNat : Int) = c.toNat + run.2.2.2 := by
  have htable : ∀ run ∈ capitalRuns, 0x2f < run.1 + run.2.2.2 ∧
      (run.2.1 + run.2.2.2 < 0xd800 ∨
        0xdfff < run.1 + run.2.2.2 ∧ run.2.1 + run.2.2.2 < 0x110000) := by decide +kernel
  obtain ⟨hfirst, hlast, -⟩ := h
  have hbounds := htable run hrun
  have hvalid : (c.toNat + run.2.2.2).toNat.isValidChar := by
    unfold Nat.isValidChar
    omega
  refine ⟨by omega, ?_⟩
  rw [Char.ofNat, dif_pos hvalid]
  exact Int.toNat_of_nonneg (by omega)

/-! ## Lowercase -/

/-- `Lower c small`: the lowercase of a character.  The capital I with a dot alone
    becomes two characters. -/
inductive Lower : Char → List Char → Prop
  | latin {c d : Char} : 'A' ≤ c → c ≤ 'Z' → d.toNat = c.toNat + 32 → Lower c [d]
  | ascii {c : Char} : c.toNat < 0x80 → ¬ ('A' ≤ c ∧ c ≤ 'Z') → Lower c [c]
  | dotted : Lower '\u0130' ['i', '\u0307']
  | capital {c d : Char} {run : Nat × Nat × Nat × Int} : run ∈ capitalRuns → InRun c run →
      (d.toNat : Int) = c.toNat + run.2.2.2 → Lower c [d]
  | other {c : Char} : c ≠ '\u0130' → (∀ run ∈ capitalRuns, ¬ InRun c run) → Lower c [c]

variable {c : Char} {small : List Char}

theorem lowercase_of_inRun {run : Nat × Nat × Nat × Int} (hrun : run ∈ capitalRuns)
    (h : InRun c run) : lowercase c = [Char.ofNat (c.toNat + run.2.2.2).toNat] := by
  have hdotted : ∀ run ∈ capitalRuns, ¬ InRun '\u0130' run := by decide +kernel
  have hc : c ≠ '\u0130' := by
    rintro rfl
    exact hdotted run hrun h
  unfold lowercase
  rw [if_neg hc]
  split
  · next first last step distance hfind =>
    have hfound := List.find?_some hfind
    simp only [Bool.and_eq_true, decide_eq_true_eq, and_assoc] at hfound
    rw [h.unique hrun (List.mem_of_find?_eq_some hfind) hfound]
  · next hnone =>
    refine absurd (List.find?_eq_none.1 hnone run hrun) ?_
    simp only [Bool.and_eq_true, decide_eq_true_eq, and_assoc, not_not]
    exact h

theorem lowercase_of_not_inRun (hc : c ≠ '\u0130') (h : ∀ run ∈ capitalRuns, ¬ InRun c run) :
    lowercase c = [c] := by
  unfold lowercase
  rw [if_neg hc]
  split
  · next first last step distance hfind =>
    have hfound := List.find?_some hfind
    simp only [Bool.and_eq_true, decide_eq_true_eq, and_assoc] at hfound
    exact absurd hfound (h _ (List.mem_of_find?_eq_some hfind))
  · rfl

/-- Of ASCII, the runs have the Latin capitals. -/
theorem not_inRun_of_ascii (hc : c.toNat < 0x80) (hlatin : ¬ ('A' ≤ c ∧ c ≤ 'Z')) :
    ∀ run ∈ capitalRuns, ¬ InRun c run := by
  have htable : ∀ run ∈ capitalRuns, run.1 = 0x41 ∧ run.2.1 = 0x5a ∨ 0x80 ≤ run.1 := by
    decide +kernel
  rintro run hrun ⟨hfirst, hlast, -⟩
  rcases htable run hrun with ⟨h₁, h₂⟩ | h₁
  · rw [h₁] at hfirst
    rw [h₂] at hlast
    exact hlatin ⟨hfirst, hlast⟩
  · omega

/-- **Lowercase.**  Every character has one, and `lowercase` gives it. -/
theorem lower_iff : Lower c small ↔ lowercase c = small := by
  have hrun : ∀ {d : Char} {run}, run ∈ capitalRuns → InRun c run →
      (d.toNat : Int) = c.toNat + run.2.2.2 → lowercase c = [d] := by
    intro d run hmem hin hd
    rw [lowercase_of_inRun hmem hin, ← hd, Int.toNat_natCast, Char.ofNat_toNat]
  constructor
  · rintro (⟨hA, hZ, hd⟩ | ⟨hc, hlatin⟩ | _ | ⟨hmem, hin, hd⟩ | ⟨hc, hnone⟩)
    · have hlatin : ((0x41, 0x5a, 1, 32) : Nat × Nat × Nat × Int) ∈ capitalRuns := by
        decide +kernel
      exact hrun hlatin ⟨hA, hZ, Nat.mod_one _⟩ (by rw [hd]; rfl)
    · refine lowercase_of_not_inRun ?_ (not_inRun_of_ascii hc hlatin)
      rintro rfl
      revert hc
      decide
    · decide +kernel
    · exact hrun hmem hin hd
    · exact lowercase_of_not_inRun hc hnone
  · rintro rfl
    by_cases hc : c = '\u0130'
    · rw [hc]
      exact .dotted
    by_cases hin : ∃ run ∈ capitalRuns, InRun c run
    · obtain ⟨run, hmem, hin⟩ := hin
      rw [lowercase_of_inRun hmem hin]
      exact .capital hmem hin (hin.toNat_ofNat hmem).2
    · push Not at hin
      rw [lowercase_of_not_inRun hc hin]
      exact .other hc hin

/-- No character but the dot and the slash becomes one of them. -/
theorem mem_lowercase {d : Char} (h : d ∈ lowercase c) : d = c ∨ d ≠ '.' ∧ d ≠ '/' := by
  by_cases hc : c = '\u0130'
  · right
    rw [hc, show lowercase '\u0130' = ['i', '\u0307'] by decide +kernel] at h
    simp only [List.mem_cons, List.not_mem_nil, or_false] at h
    rcases h with rfl | rfl <;> decide
  by_cases hin : ∃ run ∈ capitalRuns, InRun c run
  · obtain ⟨run, hmem, hin⟩ := hin
    right
    rw [lowercase_of_inRun hmem hin] at h
    obtain ⟨hlow, heq⟩ := hin.toNat_ofNat hmem
    rw [← List.mem_singleton.1 h] at heq
    constructor
    · rintro rfl
      have hdot : '.'.toNat = 0x2e := rfl
      omega
    · rintro rfl
      have hslash : '/'.toNat = 0x2f := rfl
      omega
  · push Not at hin
    rw [lowercase_of_not_inRun hc hin] at h
    exact .inl (List.mem_singleton.1 h)

theorem lowercase_ne_nil (c : Char) : lowercase c ≠ [] := by
  unfold lowercase
  split_ifs
  · simp
  · split <;> simp

end PhraseServer
