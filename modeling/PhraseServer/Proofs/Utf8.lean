/-
  UTF-8 read and written.

  `Sequence` lists the well-formed sequences of bytes with the character that
  each stands for.  A character has one sequence, the one that encoding writes,
  and decoding reads a text sequence by sequence.

  * `sequence_iff`: the sequence of a character is its encoding;
  * `decodeUtf8_eq_ok_iff`: bytes decode to a text exactly when they encode it;
  * `decodeLossy_encodeUtf8`: what encodes a text is read as it, also as far as it goes;
  * `ascii_mem_encodeUtf8`: the byte of an ASCII character occurs in no other sequence.
-/
import Mathlib.Algebra.Ring.Nat
import Mathlib.Tactic.Common
import Mathlib.Tactic.SplitIfs
import PhraseServer.Text.Utf8

namespace PhraseServer

/-! ## Bytes as numbers -/

theorem sequenceWidth_eq (b : UInt8) : sequenceWidth b =
    if b.toNat < 0x80 then some 1
    else if 0xc2 ≤ b.toNat ∧ b.toNat ≤ 0xdf then some 2
    else if 0xe0 ≤ b.toNat ∧ b.toNat ≤ 0xef then some 3
    else if 0xf0 ≤ b.toNat ∧ b.toNat ≤ 0xf4 then some 4
    else none := by
  simp [sequenceWidth, UInt8.lt_iff_toNat_lt, UInt8.le_iff_toNat_le]

theorem isContinuation_iff {b : UInt8} : isContinuation b ↔ 0x80 ≤ b.toNat ∧ b.toNat ≤ 0xbf := by
  simp [isContinuation, UInt8.le_iff_toNat_le]

/-- A second byte continues the sequence, within bounds that four first bytes set. -/
theorem isSecond_iff {a b : UInt8} : isSecond a b ↔
    (0x80 ≤ b.toNat ∧ b.toNat ≤ 0xbf) ∧ (a.toNat = 0xe0 → 0xa0 ≤ b.toNat) ∧
      (a.toNat = 0xed → b.toNat ≤ 0x9f) ∧ (a.toNat = 0xf0 → 0x90 ≤ b.toNat) ∧
      (a.toNat = 0xf4 → b.toNat ≤ 0x8f) := by
  have h : ∀ k : UInt8, a = k ↔ a.toNat = k.toNat := fun k => UInt8.toNat_inj.symm
  unfold isSecond
  split_ifs <;> simp only [isContinuation_iff, Bool.and_eq_true, decide_eq_true_eq,
    UInt8.le_iff_toNat_le, h, UInt8.reduceToNat] at * <;> omega

theorem lowBits_eq (b : UInt8) (k : Nat) : lowBits b k = b.toNat % 2 ^ k := by
  rw [lowBits, Nat.one_shiftLeft]

/-! ## Sequences -/

/-- The well-formed sequences and their characters. -/
inductive Sequence : List UInt8 → Char → Prop
  | one {a : UInt8} : sequenceWidth a = some 1 → Sequence [a] (Char.ofNat a.toNat)
  | two {a b : UInt8} : sequenceWidth a = some 2 → isSecond a b →
      Sequence [a, b] (Char.ofNat (lowBits a 5 * 64 + lowBits b 6))
  | three {a b c : UInt8} : sequenceWidth a = some 3 → isSecond a b → isContinuation c →
      Sequence [a, b, c] (Char.ofNat (lowBits a 4 * 4096 + lowBits b 6 * 64 + lowBits c 6))
  | four {a b c d : UInt8} : sequenceWidth a = some 4 → isSecond a b → isContinuation c →
      isContinuation d → Sequence [a, b, c, d] (Char.ofNat
        (lowBits a 3 * 262144 + lowBits b 6 * 4096 + lowBits c 6 * 64 + lowBits d 6))

/-- The first bytes of each width. -/
theorem sequenceWidth_eq_some {a : UInt8} {w : Nat} (h : sequenceWidth a = some w) :
    (w = 1 ∧ a.toNat < 0x80) ∨ (w = 2 ∧ 0xc2 ≤ a.toNat ∧ a.toNat ≤ 0xdf) ∨
      (w = 3 ∧ 0xe0 ≤ a.toNat ∧ a.toNat ≤ 0xef) ∨ (w = 4 ∧ 0xf0 ≤ a.toNat ∧ a.toNat ≤ 0xf4) := by
  rw [sequenceWidth_eq] at h
  split_ifs at h <;> cases h <;> simp_all

theorem toNat_val_ofNat {n : Nat} (h : n.isValidChar) : (Char.ofNat n).val.toNat = n := by
  rw [Char.ofNat, dif_pos h]; rfl

theorem ofNat_eq {n : Nat} {b : UInt8} (h : b.toNat = n) : UInt8.ofNat n = b := by
  rw [← h, UInt8.ofNat_toNat]

/-- Encoding writes the sequence of a character. -/
theorem Sequence.eq_encode {bs : List UInt8} {x : Char} (h : Sequence bs x) :
    String.utf8EncodeChar x = bs := by
  cases h with
  | @one a ha =>
    have ha := sequenceWidth_eq_some ha
    have hv : a.toNat.isValidChar := by unfold Nat.isValidChar; omega
    simp only [String.utf8EncodeChar, toNat_val_ofNat hv]
    rw [if_pos (by omega), UInt8.ofNat_toNat]
  | @two a b ha hb =>
    have ha := sequenceWidth_eq_some ha
    rw [isSecond_iff] at hb
    rw [lowBits_eq, lowBits_eq]
    have hv : (a.toNat % 2 ^ 5 * 64 + b.toNat % 2 ^ 6).isValidChar := by
      unfold Nat.isValidChar; omega
    simp only [String.utf8EncodeChar, toNat_val_ofNat hv]
    rw [if_neg (by omega), if_pos (by omega), ofNat_eq (b := a) (by omega),
      ofNat_eq (b := b) (by omega)]
  | @three a b c ha hb hc =>
    have ha := sequenceWidth_eq_some ha
    rw [isSecond_iff] at hb
    rw [isContinuation_iff] at hc
    rw [lowBits_eq, lowBits_eq, lowBits_eq]
    have hv : (a.toNat % 2 ^ 4 * 4096 + b.toNat % 2 ^ 6 * 64 + c.toNat % 2 ^ 6).isValidChar := by
      unfold Nat.isValidChar; omega
    simp only [String.utf8EncodeChar, toNat_val_ofNat hv]
    rw [if_neg (by omega), if_neg (by omega), if_pos (by omega), ofNat_eq (b := a) (by omega),
      ofNat_eq (b := b) (by omega), ofNat_eq (b := c) (by omega)]
  | @four a b c d ha hb hc hd =>
    have ha := sequenceWidth_eq_some ha
    rw [isSecond_iff] at hb
    rw [isContinuation_iff] at hc hd
    rw [lowBits_eq, lowBits_eq, lowBits_eq, lowBits_eq]
    have hv : (a.toNat % 2 ^ 3 * 262144 + b.toNat % 2 ^ 6 * 4096 + c.toNat % 2 ^ 6 * 64
        + d.toNat % 2 ^ 6).isValidChar := by
      unfold Nat.isValidChar; omega
    simp only [String.utf8EncodeChar, toNat_val_ofNat hv]
    rw [if_neg (by omega), if_neg (by omega), if_neg (by omega), ofNat_eq (b := a) (by omega),
      ofNat_eq (b := b) (by omega), ofNat_eq (b := c) (by omega), ofNat_eq (b := d) (by omega)]

theorem toNat_ofNat_of_lt {n : Nat} (h : n < 256) : (UInt8.ofNat n).toNat = n := by
  rw [UInt8.toNat_ofNat', Nat.mod_eq_of_lt h]

/-- The encoding of a character is a sequence for it. -/
theorem sequence_encode (x : Char) : Sequence (String.utf8EncodeChar x) x := by
  have hv : x.val.toNat.isValidChar := x.valid
  have hx : Char.ofNat x.val.toNat = x := Char.ofNat_toNat x
  unfold Nat.isValidChar at hv
  simp only [String.utf8EncodeChar]
  generalize x.val.toNat = n at hv hx
  split_ifs with h1 h2 h3
  · have ha : (UInt8.ofNat n).toNat = n := toNat_ofNat_of_lt (by omega)
    have hs : Sequence [UInt8.ofNat n] _ := .one (by rw [sequenceWidth_eq, ha, if_pos (by omega)])
    rwa [ha, hx] at hs
  · have ha : (UInt8.ofNat (n / 64 % 32 + 192)).toNat = n / 64 + 192 := by
      rw [toNat_ofNat_of_lt (by omega)]; omega
    have hb : (UInt8.ofNat (n % 64 + 128)).toNat = n % 64 + 128 := toNat_ofNat_of_lt (by omega)
    have hs : Sequence [UInt8.ofNat (n / 64 % 32 + 192), UInt8.ofNat (n % 64 + 128)] _ :=
      .two (by rw [sequenceWidth_eq, ha, if_neg (by omega), if_pos (by omega)])
        (by rw [isSecond_iff, ha, hb]; omega)
    rw [lowBits_eq, lowBits_eq, ha, hb] at hs
    rwa [show (n / 64 + 192) % 2 ^ 5 * 64 + (n % 64 + 128) % 2 ^ 6 = n by omega, hx] at hs
  · have ha : (UInt8.ofNat (n / 4096 % 16 + 224)).toNat = n / 4096 + 224 := by
      rw [toNat_ofNat_of_lt (by omega)]; omega
    have hb : (UInt8.ofNat (n / 64 % 64 + 128)).toNat = n / 64 % 64 + 128 :=
      toNat_ofNat_of_lt (by omega)
    have hc : (UInt8.ofNat (n % 64 + 128)).toNat = n % 64 + 128 := toNat_ofNat_of_lt (by omega)
    have hs : Sequence [UInt8.ofNat (n / 4096 % 16 + 224), UInt8.ofNat (n / 64 % 64 + 128),
        UInt8.ofNat (n % 64 + 128)] _ :=
      .three (by rw [sequenceWidth_eq, ha, if_neg (by omega), if_neg (by omega), if_pos (by omega)])
        (by rw [isSecond_iff, ha, hb]; omega) (by rw [isContinuation_iff, hc]; omega)
    rw [lowBits_eq, lowBits_eq, lowBits_eq, ha, hb, hc] at hs
    rwa [show (n / 4096 + 224) % 2 ^ 4 * 4096 + (n / 64 % 64 + 128) % 2 ^ 6 * 64
      + (n % 64 + 128) % 2 ^ 6 = n by omega, hx] at hs
  · have ha : (UInt8.ofNat (n / 262144 % 8 + 240)).toNat = n / 262144 + 240 := by
      rw [toNat_ofNat_of_lt (by omega)]; omega
    have hb : (UInt8.ofNat (n / 4096 % 64 + 128)).toNat = n / 4096 % 64 + 128 :=
      toNat_ofNat_of_lt (by omega)
    have hc : (UInt8.ofNat (n / 64 % 64 + 128)).toNat = n / 64 % 64 + 128 :=
      toNat_ofNat_of_lt (by omega)
    have hd : (UInt8.ofNat (n % 64 + 128)).toNat = n % 64 + 128 := toNat_ofNat_of_lt (by omega)
    have hs : Sequence [UInt8.ofNat (n / 262144 % 8 + 240), UInt8.ofNat (n / 4096 % 64 + 128),
        UInt8.ofNat (n / 64 % 64 + 128), UInt8.ofNat (n % 64 + 128)] _ :=
      .four (by rw [sequenceWidth_eq, ha, if_neg (by omega), if_neg (by omega), if_neg (by omega),
          if_pos (by omega)])
        (by rw [isSecond_iff, ha, hb]; omega) (by rw [isContinuation_iff, hc]; omega)
        (by rw [isContinuation_iff, hd]; omega)
    rw [lowBits_eq, lowBits_eq, lowBits_eq, lowBits_eq, ha, hb, hc, hd] at hs
    rwa [show (n / 262144 + 240) % 2 ^ 3 * 262144 + (n / 4096 % 64 + 128) % 2 ^ 6 * 4096
      + (n / 64 % 64 + 128) % 2 ^ 6 * 64 + (n % 64 + 128) % 2 ^ 6 = n by omega, hx] at hs

theorem sequence_iff {bs : List UInt8} {x : Char} :
    Sequence bs x ↔ String.utf8EncodeChar x = bs :=
  ⟨Sequence.eq_encode, fun h => h ▸ sequence_encode x⟩

/-! ## Texts -/

/-- Decoding reads a sequence and goes on behind it. -/
theorem Sequence.decode {bs : List UInt8} {x : Char} (h : Sequence bs x) (i : Nat)
    (rest : List UInt8) :
    decodeUtf8From i (bs ++ rest) = (decodeUtf8From (i + bs.length) rest).map (x :: ·) := by
  cases h with
  | one ha => simp [decodeUtf8From, ha]
  | two ha hb => simp [decodeUtf8From, ha, hb]
  | three ha hb hc => simp [decodeUtf8From, ha, hb, hc]
  | four ha hb hc hd => simp [decodeUtf8From, ha, hb, hc, hd]

theorem decodeUtf8From_flatMap (i : Nat) (cs : List Char) :
    decodeUtf8From i (cs.flatMap String.utf8EncodeChar) = .ok cs := by
  induction cs generalizing i with
  | nil => rfl
  | cons x cs ih => rw [List.flatMap_cons, (sequence_encode x).decode, ih]; rfl

theorem map_cons_eq_ok {x : Char} {r : Except Utf8Error (List Char)} {cs : List Char}
    (h : r.map (x :: ·) = .ok cs) : ∃ cs', r = .ok cs' ∧ cs = x :: cs' := by
  cases r with
  | error e => cases h
  | ok cs' => exact ⟨cs', rfl, (Except.ok.inj h).symm⟩

theorem flatMap_of_decodeUtf8From {i : Nat} {bs : List UInt8} {cs : List Char}
    (h : decodeUtf8From i bs = .ok cs) : cs.flatMap String.utf8EncodeChar = bs := by
  fun_induction decodeUtf8From i bs generalizing cs with
  | case1 => cases h; rfl
  | case2 => cases h
  | case3 i a rest ha ih =>
    obtain ⟨cs, hcs, rfl⟩ := map_cons_eq_ok h
    rw [List.flatMap_cons, ih hcs, (Sequence.one ha).eq_encode]; rfl
  | case4 => cases h
  | case5 => cases h
  | case6 i a b rest hb _ ha ih =>
    obtain ⟨cs, hcs, rfl⟩ := map_cons_eq_ok h
    rw [List.flatMap_cons, ih hcs, (Sequence.two ha (by simpa using hb)).eq_encode]; rfl
  | case7 => cases h
  | case8 => cases h
  | case9 i a b hb c rest hc _ ha _ ih =>
    obtain ⟨cs, hcs, rfl⟩ := map_cons_eq_ok h
    rw [List.flatMap_cons, ih hcs,
      (Sequence.three ha (by simpa using hb) (by simpa using hc)).eq_encode]; rfl
  | case10 => cases h
  | case11 => cases h
  | case12 i a w hw1 ha b hb hw2 c hc hw3 d rest hd ih =>
    obtain ⟨cs, hcs, rfl⟩ := map_cons_eq_ok h
    obtain rfl : w = 4 := by
      rcases sequenceWidth_eq_some ha with ⟨h, -⟩ | ⟨h, -⟩ | ⟨h, -⟩ | ⟨h, -⟩
      · exact absurd h hw1
      · exact absurd h hw2
      · exact absurd h hw3
      · exact h
    rw [List.flatMap_cons, ih hcs,
      (Sequence.four ha (by simpa using hb) (by simpa using hc) (by simpa using hd)).eq_encode]
    rfl

/-- **UTF-8.**  Bytes decode to a text exactly when they are its encoding. -/
theorem decodeUtf8_eq_ok_iff {bs : List UInt8} {cs : List Char} :
    decodeUtf8 bs = .ok cs ↔ encodeUtf8 (String.ofList cs) = bs := by
  rw [encodeUtf8, String.toList_ofList]
  constructor
  · exact flatMap_of_decodeUtf8From
  · rintro rfl; exact decodeUtf8From_flatMap 0 cs

@[simp] theorem encodeUtf8_append (s t : String) :
    encodeUtf8 (s ++ t) = encodeUtf8 s ++ encodeUtf8 t := by
  simp [encodeUtf8]

/-- Reading bytes as far as they are UTF-8 reads a sequence as well. -/
theorem Sequence.decodeLossy {bs : List UInt8} {x : Char} (h : Sequence bs x)
    (rest : List UInt8) :
    PhraseServer.decodeLossy (bs ++ rest) = x :: PhraseServer.decodeLossy rest := by
  cases h with
  | one ha => simp [PhraseServer.decodeLossy, ha]
  | two ha hb => simp [PhraseServer.decodeLossy, ha, hb]
  | three ha hb hc => simp [PhraseServer.decodeLossy, ha, hb, hc]
  | four ha hb hc hd => simp [PhraseServer.decodeLossy, ha, hb, hc, hd]

@[simp] theorem decodeLossy_encodeUtf8 (s : String) : decodeLossy (encodeUtf8 s) = s.toList := by
  rw [encodeUtf8]
  induction s.toList with
  | nil => rfl
  | cons x cs ih => rw [List.flatMap_cons, (sequence_encode x).decodeLossy, ih]

theorem encodeUtf8_injective : Function.Injective encodeUtf8 := by
  intro s t h
  rw [← String.toList_inj, ← decodeLossy_encodeUtf8 s, h, decodeLossy_encodeUtf8]

/-! ## ASCII -/

/-- The byte of an ASCII character stands for it and occurs nowhere else. -/
theorem ascii_mem_utf8EncodeChar {b : UInt8} (hb : b.toNat < 0x80) {x : Char} :
    b ∈ String.utf8EncodeChar x ↔ x = Char.ofNat b.toNat := by
  constructor
  · intro h
    generalize hbs : String.utf8EncodeChar x = bs at h
    cases sequence_iff.2 hbs with
    | one ha => rw [List.mem_singleton.1 h]
    | two ha hb =>
      have ha := sequenceWidth_eq_some ha
      rw [isSecond_iff] at hb
      simp only [List.mem_cons, List.not_mem_nil, or_false] at h
      rcases h with rfl | rfl <;> omega
    | three ha hb hc =>
      have ha := sequenceWidth_eq_some ha
      rw [isSecond_iff] at hb
      rw [isContinuation_iff] at hc
      simp only [List.mem_cons, List.not_mem_nil, or_false] at h
      rcases h with rfl | rfl | rfl <;> omega
    | four ha hb hc hd =>
      have ha := sequenceWidth_eq_some ha
      rw [isSecond_iff] at hb
      rw [isContinuation_iff] at hc hd
      simp only [List.mem_cons, List.not_mem_nil, or_false] at h
      rcases h with rfl | rfl | rfl | rfl <;> omega
  · rintro rfl
    have hone : Sequence [b] (Char.ofNat b.toNat) :=
      .one (by rw [sequenceWidth_eq, if_pos hb])
    rw [hone.eq_encode]
    exact List.mem_singleton_self b

theorem ascii_mem_encodeUtf8 {b : UInt8} (hb : b.toNat < 0x80) {s : String} :
    b ∈ encodeUtf8 s ↔ Char.ofNat b.toNat ∈ s.toList := by
  simp [encodeUtf8, ascii_mem_utf8EncodeChar hb]

end PhraseServer
