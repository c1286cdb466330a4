/-
  White space at the ends of a line (the Unicode property `White_Space`).
-/
namespace PhraseServer

/-- The code points with the property `White_Space`, as ranges with both ends. -/
def spaceRanges : List (Nat × Nat) :=
  [(0x9, 0xd), (0x20, 0x20), (0x85, 0x85), (0xa0, 0xa0), (0x1680, 0x1680), (0x2000, 0x200a),
    (0x2028, 0x2029), (0x202f, 0x202f), (0x205f, 0x205f), (0x3000, 0x3000)]

/-- Whether a character is white space. -/
def isSpace (c : Char) : Bool :=
  spaceRanges.any fun (first, last) => first ≤ c.toNat && c.toNat ≤ last

/-- A text without the white space at its ends. -/
def trimSpace (cs : List Char) : List Char :=
  ((cs.dropWhile isSpace).reverse.dropWhile isSpace).reverse

/-- Trimming drops a stretch of white space at each end and nothing else. -/
theorem trimSpace_eq (cs : List Char) :
    ∃ l r, cs = l ++ trimSpace cs ++ r ∧ (∀ c ∈ l, isSpace c) ∧ ∀ c ∈ r, isSpace c := by
  let rest := (cs.dropWhile isSpace).reverse
  refine ⟨cs.takeWhile isSpace, (rest.takeWhile isSpace).reverse, ?_, ?_, ?_⟩
  · have h : rest.reverse = trimSpace cs ++ (rest.takeWhile isSpace).reverse := by
      rw [trimSpace, ← List.reverse_append, List.takeWhile_append_dropWhile]
    rw [List.append_assoc, ← h]
    simp [rest]
  · intro c hc
    exact List.all_eq_true.1 List.all_takeWhile c hc
  · intro c hc
    exact List.all_eq_true.1 List.all_takeWhile c (List.mem_reverse.1 hc)

end PhraseServer
