/-
  JSON text, written and read.

  A value is written on one line.  A string reads back whatever stands behind it,
  and so does a pair of strings.  Values in general need not read back (an
  integer beyond 64 bits is read as a float), but what is read as an array headed
  by a string was written for one, headed by that string.

  * `newline_notMem_chars`: no newline is written;
  * `string_quotedChars`, `decode_pair`: strings and pairs of them read back;
  * `eq_arr_of_value`: the head of an array reads back.
-/
import Mathlib.Tactic.Common
import Mathlib.Tactic.SplitIfs
import PhraseServer.Json.Parser
import PhraseServer.Json.Printer

namespace PhraseServer.Json

/-! ## The characters of numbers -/

/-- The characters of numbers. -/
def isNumeric (c : Char) : Bool := c.isDigit || c = '-' || c = '+' || c = '.' || c = 'e'

theorem isNumeric_toDigits {n : Nat} : ∀ c ∈ Nat.toDigits 10 n, isNumeric c := by
  intro c hc
  have := Nat.isDigit_of_mem_toDigits (by decide) (by decide) hc
  simp [isNumeric, this]

theorem isNumeric_trimmed {d : Binary64.Decimal} : ∀ c ∈ d.trimmed.1, isNumeric c := by
  intro c hc
  have h := (List.dropWhile_suffix _).mem (List.mem_reverse.1 hc)
  exact isNumeric_toDigits c (List.mem_reverse.1 h)

theorem isNumeric_exponentText {e : Int} : ∀ c ∈ Binary64.exponentText e, isNumeric c := by
  intro c hc
  rcases List.mem_cons.1 hc with rfl | hc
  · split_ifs <;> decide
  · exact isNumeric_toDigits c hc

theorem isNumeric_text (x : Binary64) : ∀ c ∈ x.text, isNumeric c := by
  have hpoint : ∀ c ∈ ['.'], isNumeric c := List.all_eq_true.1 rfl
  have hstart : ∀ c ∈ ['0', '.'], isNumeric c := List.all_eq_true.1 rfl
  have hend : ∀ c ∈ ['.', '0'], isNumeric c := List.all_eq_true.1 rfl
  have hletter : ∀ c ∈ ['e'], isNumeric c := List.all_eq_true.1 rfl
  have hzeros : ∀ n : Nat, ∀ c ∈ List.replicate n '0', isNumeric c := by
    intro n c hc
    rw [List.eq_of_mem_replicate hc]; decide
  have hdigits : ∀ c ∈ x.shortest.trimmed.1, isNumeric c := isNumeric_trimmed
  unfold Binary64.text
  generalize x.shortest.trimmed = parts at hdigits
  obtain ⟨digits, k⟩ := parts
  have htake : ∀ n, ∀ c ∈ digits.take n, isNumeric c := fun n c hc =>
    hdigits c (List.mem_of_mem_take hc)
  have hdrop : ∀ n, ∀ c ∈ digits.drop n, isNumeric c := fun n c hc =>
    hdigits c (List.mem_of_mem_drop hc)
  simp only
  split_ifs
  · exact List.all_eq_true.1 rfl
  · refine List.forall_mem_append.2 ⟨List.forall_mem_append.2 ⟨hdigits, hzeros _⟩, hend⟩
  · refine List.forall_mem_append.2 ⟨List.forall_mem_append.2 ⟨htake _, hpoint⟩, hdrop _⟩
  · refine List.forall_mem_append.2 ⟨List.forall_mem_append.2 ⟨hstart, hzeros _⟩, hdigits⟩
  · refine List.forall_mem_append.2 ⟨List.forall_mem_append.2 ⟨hdigits, hletter⟩, ?_⟩
    exact isNumeric_exponentText
  · refine List.forall_mem_append.2 ⟨List.forall_mem_append.2 ⟨?_, hletter⟩, ?_⟩
    · exact List.forall_mem_append.2 ⟨List.forall_mem_append.2 ⟨htake 1, hpoint⟩, hdrop 1⟩
    · exact isNumeric_exponentText

theorem text_ne_nil (x : Binary64) : x.text ≠ [] := by
  unfold Binary64.text
  generalize x.shortest.trimmed = parts
  obtain ⟨digits, k⟩ := parts
  simp only
  split_ifs <;> simp

theorem isNumeric_numberChars (n : Number) : ∀ c ∈ numberChars n, isNumeric c := by
  have hminus : isNumeric '-' := by decide
  cases n with
  | int n =>
    rw [numberChars, intChars]
    split_ifs
    · exact List.forall_mem_cons.2 ⟨hminus, isNumeric_toDigits⟩
    · exact isNumeric_toDigits
  | float negative x =>
    rw [numberChars]
    split_ifs
    · exact List.forall_mem_cons.2 ⟨hminus, isNumeric_text x⟩
    · exact isNumeric_text x

theorem numberChars_ne_nil (n : Number) : numberChars n ≠ [] := by
  cases n with
  | int n =>
    rw [numberChars, intChars]
    split_ifs
    · simp
    · exact Nat.toDigits_ne_nil
  | float negative x =>
    rw [numberChars]
    split_ifs
    · simp
    · exact text_ne_nil x

/-! ## No newline -/

theorem hexDigit_ne_newline : ∀ n < 16, hexDigit n ≠ '\n' := by decide

theorem newline_notMem_escaped (c : Char) : '\n' ∉ escaped c := by
  unfold escaped
  split_ifs with _ _ hn _ _ _ _ hc
  iterate 7 decide
  · have h1 := hexDigit_ne_newline (c.toNat / 16) (by omega)
    have h2 := hexDigit_ne_newline (c.toNat % 16) (by omega)
    simp [h1.symm, h2.symm]
  · simp [Ne.symm hn]

theorem newline_notMem_quotedChars (s : String) : '\n' ∉ quotedChars s := by
  simp [quotedChars, newline_notMem_escaped]

theorem newline_notMem_numberChars (n : Number) : '\n' ∉ numberChars n := by
  intro h
  exact absurd (isNumeric_numberChars n _ h) (by decide)

mutual

/-- **A value is written on one line.** -/
theorem newline_notMem_chars : ∀ v : Json, '\n' ∉ v.chars
  | .null => by decide
  | .bool true => by decide
  | .bool false => by decide
  | .num n => by rw [chars]; exact newline_notMem_numberChars n
  | .str s => by rw [chars]; exact newline_notMem_quotedChars s
  | .arr items => by simp [chars, newline_notMem_itemsChars items]
  | .obj members => by simp [chars, newline_notMem_membersChars members]

theorem newline_notMem_itemsChars : ∀ items : List Json, '\n' ∉ itemsChars items
  | [] => by simp [itemsChars]
  | [v] => by rw [itemsChars]; exact newline_notMem_chars v
  | v :: w :: rest => by
    simp [itemsChars, newline_notMem_chars v, newline_notMem_itemsChars (w :: rest)]

theorem newline_notMem_membersChars : ∀ members : List (String × Json),
    '\n' ∉ membersChars members
  | [] => by simp [membersChars]
  | [(name, v)] => by
    simp [membersChars, newline_notMem_quotedChars name, newline_notMem_chars v]
  | (name, v) :: m :: rest => by
    simp [membersChars, newline_notMem_quotedChars name, newline_notMem_chars v,
      newline_notMem_membersChars (m :: rest)]

end

/-! ## Strings read back -/

theorem hexValue?_hexDigit : ∀ n < 16, hexValue? (hexDigit n) = some n := by decide

theorem hex4?_hexDigit {n : Nat} (h : n < 0x20) :
    hex4? '0' '0' (hexDigit (n / 16)) (hexDigit (n % 16)) = some n := by
  have hz : hexValue? '0' = some 0 := by decide
  simp only [hex4?, hz, hexValue?_hexDigit (n / 16) (by omega),
    hexValue?_hexDigit (n % 16) (by omega), bind, Option.bind]
  congr 1; omega

theorem stringTail_plain {c : Char} (hq : c ≠ '"') (hb : c ≠ '\\') (hc : ¬ c.toNat < 0x20)
    (done cs : List Char) : stringTail done (c :: cs) = stringTail (c :: done) cs := by
  rw [stringTail, if_neg hc] <;> simp_all

theorem stringTail_escaped (c : Char) (done cs : List Char) :
    stringTail done (escaped c ++ cs) = stringTail (c :: done) cs := by
  unfold escaped
  split_ifs with h1 h2 h3 h4 h5 h6 h7 hc
  · subst h1; simp [stringTail, escape?]
  · subst h2; simp [stringTail, escape?]
  · subst h3; simp [stringTail, escape?]
  · subst h4; simp [stringTail, escape?]
  · subst h5; simp [stringTail, escape?]
  · subst h6; simp [stringTail, escape?]
  · subst h7; simp [stringTail, escape?]
  · have hl : isLeading c.toNat = false := by simp [isLeading]; omega
    have ht : isTrailing c.toNat = false := by simp [isTrailing]; omega
    simp [stringTail, hex4?_hexDigit hc, hl, ht]
  · exact stringTail_plain h1 h2 hc done cs

theorem stringTail_flatMap_escaped (s done rest : List Char) :
    stringTail done (s.flatMap escaped ++ '"' :: rest) = some (done.reverse ++ s, rest) := by
  induction s generalizing done with
  | nil => simp [stringTail]
  | cons c s ih => rw [List.flatMap_cons, List.append_assoc, stringTail_escaped, ih]; simp

/-- **Strings.**  A string in quotes reads back, whatever follows it. -/
theorem string_quotedChars (s : String) (rest : List Char) :
    string (quotedChars s ++ rest) = some (s, rest) := by
  change (stringTail [] ((s.toList.flatMap escaped ++ ['"']) ++ rest)).map _ = _
  rw [List.append_assoc, List.singleton_append, stringTail_flatMap_escaped]
  simp

/-! ## How values begin -/

/-- The first character of a value tells strings and arrays from all others. -/
theorem exists_chars_eq_cons (v : Json) : ∃ c cs, v.chars = c :: cs ∧ isGap c = false ∧ c ≠ ']' ∧
    (c = '"' → ∃ s, v = .str s) ∧ (c = '[' → ∃ vs, v = .arr vs) := by
  cases v with
  | null => exact ⟨'n', _, rfl, by simp [isGap]⟩
  | bool b =>
    cases b with
    | false => exact ⟨'f', _, rfl, by simp [isGap]⟩
    | true => exact ⟨'t', _, rfl, by simp [isGap]⟩
  | num n =>
    obtain ⟨c, cs, hc⟩ := List.exists_cons_of_ne_nil (numberChars_ne_nil n)
    have hn := isNumeric_numberChars n c (by rw [hc]; exact List.mem_cons_self)
    refine ⟨c, cs, hc, ?_, ?_, ?_, ?_⟩
    · by_contra hg
      simp only [isGap, Bool.not_eq_false, Bool.or_eq_true, decide_eq_true_eq] at hg
      rcases hg with ((rfl | rfl) | rfl) | rfl <;> exact absurd hn (by decide)
    all_goals rintro rfl; exact absurd hn (by decide)
  | str s => exact ⟨'"', s.toList.flatMap escaped ++ ['"'], rfl, by simp [isGap]⟩
  | arr items => exact ⟨'[', itemsChars items ++ [']'], rfl, by simp [isGap]⟩
  | obj members => exact ⟨'{', membersChars members ++ ['}'], rfl, by simp [isGap]⟩

theorem skipGap_cons {c : Char} (h : isGap c = false) (cs : List Char) :
    skipGap (c :: cs) = c :: cs := by
  simp [skipGap, h]

theorem skipGap_chars_append (v : Json) (rest : List Char) :
    skipGap (v.chars ++ rest) = v.chars ++ rest := by
  obtain ⟨c, cs, hv, hg, -⟩ := v.exists_chars_eq_cons
  rw [hv, List.cons_append, skipGap_cons hg]

/-! ## What a value is read as -/

theorem scalar_eq_str {cs r : List Char} {t : String} (h : scalar cs = some (.str t, r)) :
    string cs = some (t, r) := by
  unfold scalar at h
  split at h
  · cases h
  · cases h
  · cases h
  · obtain ⟨⟨s, r'⟩, hs, he⟩ := Option.map_eq_some_iff.1 h
    cases he; exact hs
  · obtain ⟨⟨n, r'⟩, -, he⟩ := Option.map_eq_some_iff.1 h
    cases he

theorem scalar_ne_arr {cs r : List Char} {vs : List Json} : scalar cs ≠ some (.arr vs, r) := by
  intro h
  unfold scalar at h
  split at h
  · cases h
  · cases h
  · cases h
  · obtain ⟨⟨s, r'⟩, -, he⟩ := Option.map_eq_some_iff.1 h
    cases he
  · obtain ⟨⟨n, r'⟩, -, he⟩ := Option.map_eq_some_iff.1 h
    cases he

theorem value_eq_str {depth : Nat} {cs r : List Char} {t : String}
    (h : value depth cs = some (.str t, r)) : string (skipGap cs) = some (t, r) := by
  cases depth with
  | zero => exact scalar_eq_str h
  | succ depth =>
    rw [value] at h
    split at h
    · obtain ⟨⟨vs, r'⟩, -, he⟩ := Option.map_eq_some_iff.1 h
      cases he
    · obtain ⟨⟨ms, r'⟩, -, he⟩ := Option.map_eq_some_iff.1 h
      cases he
    · exact scalar_eq_str h

theorem value_eq_arr {depth : Nat} {cs r : List Char} {ws : List Json}
    (h : value depth cs = some (.arr ws, r)) :
    ∃ d rest, skipGap cs = '[' :: rest ∧ items (value d) ']' rest = some (ws, r) := by
  cases depth with
  | zero => exact absurd h scalar_ne_arr
  | succ depth =>
    rw [value] at h
    split at h
    · next rest hs =>
      obtain ⟨⟨vs, r'⟩, hi, he⟩ := Option.map_eq_some_iff.1 h
      cases he
      exact ⟨depth, rest, hs, hi⟩
    · obtain ⟨⟨ms, r'⟩, -, he⟩ := Option.map_eq_some_iff.1 h
      cases he
    · exact absurd h scalar_ne_arr

theorem itemsUntil_head {α : Type} {item : Reader α} {close : Char} {bound : Nat}
    {cs r : List Char} {x : α} {xs : List α}
    (h : itemsUntil item close bound cs = some (x :: xs, r)) :
    ∃ rest, item cs = some (x, rest) := by
  cases bound with
  | zero => cases h
  | succ bound =>
    rw [itemsUntil] at h
    split at h
    · cases h
    · next y rest hi =>
      split at h
      · cases h
      · split_ifs at h
        · cases h; exact ⟨_, hi⟩
        · obtain ⟨⟨ys, r'⟩, -, he⟩ := Option.map_eq_some_iff.1 h
          cases he; exact ⟨_, hi⟩

/-- What is read as a string was one. -/
theorem eq_str_of_value {v : Json} {depth : Nat} {rest r : List Char} {t : String}
    (h : value depth (v.chars ++ rest) = some (.str t, r)) : v = .str t := by
  have hs := value_eq_str h
  rw [skipGap_chars_append] at hs
  obtain ⟨c, cs, hv, -, -, hstr, -⟩ := v.exists_chars_eq_cons
  obtain ⟨s, rfl⟩ : ∃ s, v = .str s := by
    apply hstr
    rw [hv, List.cons_append, string.eq_def] at hs
    split at hs
    · next heq => exact (List.cons.inj heq).1
    · cases hs
  rw [chars, string_quotedChars] at hs
  cases hs; rfl

/-- **Heads.**  What is read as an array headed by a string was one, headed by that
    string. -/
theorem eq_arr_of_value {v : Json} {depth : Nat} {rest r : List Char} {t : String}
    {ws : List Json} (h : value depth (v.chars ++ rest) = some (.arr (.str t :: ws), r)) :
    ∃ vs, v = .arr (.str t :: vs) := by
  obtain ⟨d, cs', hs, hi⟩ := value_eq_arr h
  rw [skipGap_chars_append] at hs
  obtain ⟨c, cs, hv, -, -, -, harr⟩ := v.exists_chars_eq_cons
  -- an array is known by its first character
  obtain ⟨vs, rfl⟩ : ∃ vs, v = .arr vs := by
    apply harr
    rw [hv, List.cons_append] at hs
    exact (List.cons.inj hs).1
  obtain rfl : itemsChars vs ++ (']' :: rest) = cs' := by
    simpa [chars] using hs
  rw [items] at hi
  cases vs with
  | nil => simp [itemsChars, skipGap, isGap] at hi
  | cons w vs =>
    obtain ⟨tail, htail⟩ : ∃ tail, itemsChars (w :: vs) ++ ']' :: rest = w.chars ++ tail := by
      cases vs with
      | nil => exact ⟨']' :: rest, by simp [itemsChars]⟩
      | cons u vs => exact ⟨',' :: (itemsChars (u :: vs) ++ ']' :: rest), by simp [itemsChars]⟩
    rw [htail, skipGap_chars_append] at hi
    obtain ⟨c, cs, hw, -, hclose, -⟩ := w.exists_chars_eq_cons
    have hu : itemsUntil (value d) ']' (w.chars ++ tail).length (w.chars ++ tail)
        = some (.str t :: ws, r) := by
      rw [hw, List.cons_append] at hi ⊢
      simpa [hclose] using hi
    obtain ⟨rest', hitem⟩ := itemsUntil_head hu
    rw [eq_str_of_value hitem]
    exact ⟨vs, rfl⟩

theorem value_quotedChars (depth : Nat) (s : String) (rest : List Char) :
    value depth (quotedChars s ++ rest) = some (.str s, rest) := by
  have hgap : skipGap (quotedChars s ++ rest) = quotedChars s ++ rest :=
    skipGap_chars_append (.str s) rest
  have hs : scalar (quotedChars s ++ rest) = some (.str s, rest) := by
    change (string (quotedChars s ++ rest)).map _ = _
    rw [string_quotedChars]; rfl
  cases depth with
  | zero => rw [value, hgap, hs]
  | succ depth => rw [value, hgap]; exact hs

/-- Two strings read back. -/
theorem decode_pair (a b : String) :
    decode (chars (.arr [.str a, .str b])) = some (.arr [.str a, .str b]) := by
  have hcs : chars (.arr [.str a, .str b])
      = '[' :: (quotedChars a ++ ',' :: (quotedChars b ++ [']'])) := by
    simp [chars, itemsChars]
  set body := quotedChars a ++ ',' :: (quotedChars b ++ [']']) with hbody
  have hitems : itemsUntil (value 126) ']' body.length body = some ([.str a, .str b], []) := by
    obtain ⟨n, hn⟩ : ∃ n, body.length = n + 2 := ⟨body.length - 2, by simp [hbody]; omega⟩
    rw [hn, itemsUntil, hbody, value_quotedChars]
    simp [skipGap, isGap, itemsUntil, value_quotedChars]
  have hvalue : value maxDepth ('[' :: body) = some (.arr [.str a, .str b], []) := by
    have hgap : skipGap body = body := skipGap_chars_append (.str a) _
    have hlist : items (value 126) ']' body = some ([.str a, .str b], []) := by
      rw [items, hgap, ← hitems]; rfl
    rw [maxDepth, value, skipGap_cons (by decide)]
    simp only [hlist, Option.map_some]
  rw [decode, decodeWith, hcs, hvalue]
  rfl

end PhraseServer.Json
