/-
  Lines in, lines out.

  `Lines` and `Holds` say what the lines of an input are and what a line holds,
  `Serves` what a service makes of lines: it is called for every request, in
  order, each time in the state that the last call left.  Against these a run of
  the loop on an output that takes everything is specified.

  * `lines_splitLines`, `holds_ofBytes`: cutting an input into lines and reading a
    line do what `Lines` and `Holds` say;
  * `serves_replies`: so does serving, with one reply for each line that is not
    blank;
  * `run_framed`: replies and lines of the output are one to one, and an input may
    be cut behind any newline.
-/
import Mathlib.Data.List.TakeWhile
import PhraseServer.Loop
import PhraseServer.Proofs.JsonText
import PhraseServer.Proofs.Utf8

namespace PhraseServer

/-! ## Lines -/

/-- The byte that ends a line. -/
abbrev newline : UInt8 := 0x0a

/-- `Lines bytes lines`: the bytes are made of the lines, and each line ends with
    its only newline; the last may have none. -/
inductive Lines : List UInt8 → List (List UInt8) → Prop
  | nil : Lines [] []
  | last {line : List UInt8} : line ≠ [] → newline ∉ line → Lines line [line]
  | cons {line bytes : List UInt8} {lines : List (List UInt8)} : newline ∉ line →
      Lines bytes lines → Lines (line ++ newline :: bytes) ((line ++ [newline]) :: lines)

theorem splitLines_line {line : List UInt8} (h : newline ∉ line) (bytes : List UInt8) :
    splitLines (line ++ newline :: bytes) = (line ++ [newline]) :: splitLines bytes := by
  induction line with
  | nil => simp [splitLines]
  | cons b line ih =>
    obtain ⟨hb, hline⟩ := not_or.1 (mt List.mem_cons.2 h)
    simp [splitLines, Ne.symm hb, ih hline]

theorem splitLines_last {line : List UInt8} (hne : line ≠ []) (h : newline ∉ line) :
    splitLines line = [line] := by
  induction line with
  | nil => exact absurd rfl hne
  | cons b line ih =>
    obtain ⟨hb, hline⟩ := not_or.1 (mt List.mem_cons.2 h)
    cases line with
    | nil => simp [splitLines, Ne.symm hb]
    | cons c line => rw [splitLines, if_neg (Ne.symm hb), ih (by simp) hline]

/-- There is one way to cut bytes into lines. -/
theorem Lines.eq_splitLines {bytes : List UInt8} {lines : List (List UInt8)}
    (h : Lines bytes lines) : splitLines bytes = lines := by
  induction h with
  | nil => rfl
  | last hne h => exact splitLines_last hne h
  | cons h _ ih => rw [splitLines_line h, ih]

/-- **Lines.**  Cutting finds the lines. -/
theorem lines_splitLines (bytes : List UInt8) : Lines bytes (splitLines bytes) := by
  by_cases h : newline ∈ bytes
  · obtain ⟨line, rest, rfl, hline⟩ := List.eq_append_cons_of_mem h
    rw [splitLines_line hline]
    exact .cons hline (lines_splitLines rest)
  · cases bytes with
    | nil => exact .nil
    | cons b bytes =>
      rw [splitLines_last (by simp) h]
      exact .last (by simp) h
termination_by bytes.length
decreasing_by subst_vars; simp; omega

/-- Bytes may be cut behind a newline. -/
theorem splitLines_append {a : List UInt8} (h : a = [] ∨ a.getLast? = some newline)
    (b : List UInt8) : splitLines (a ++ b) = splitLines a ++ splitLines b := by
  have hl := lines_splitLines a
  generalize splitLines a = lines at hl
  induction hl with
  | nil => rfl
  | last hne hnot =>
    rcases h with h | h
    · exact absurd h hne
    · exact absurd (List.mem_of_getLast? h) hnot
  | @cons line bytes lines hline _ ih =>
    have hrest : bytes = [] ∨ bytes.getLast? = some newline := by
      rcases List.eq_nil_or_concat bytes with rfl | ⟨bs, c, rfl⟩
      · exact Or.inl rfl
      · right
        simpa [List.getLast?_append, List.getLast?_cons] using h
    rw [List.append_assoc, List.cons_append, splitLines_line hline, ih hrest, List.cons_append]

/-! ## What a line holds -/

/-- `Holds line i`: what a line holds.  A line that is UTF-8 is trimmed: it is blank
    if nothing is left, else a request if the rest is JSON. -/
inductive Holds : List UInt8 → Inbound → Prop
  | blank {text : String} : (∀ c ∈ text.toList, isSpace c) → Holds (encodeUtf8 text) .blank
  | request {text : String} {v : Json} : Json.decode (trimSpace text.toList) = some v →
      Holds (encodeUtf8 text) (.request v)
  | notJson {text : String} : (∃ c ∈ text.toList, ¬ isSpace c) →
      Json.decode (trimSpace text.toList) = none →
      Holds (encodeUtf8 text) (.invalid (.notJson (trimSpace text.toList)))
  | notUtf8 {line : List UInt8} {e : Utf8Error} : (∀ text, encodeUtf8 text ≠ line) →
      decodeUtf8 line = .error e → Holds line (.invalid (.notUtf8 e))

theorem trimSpace_eq_nil_iff {cs : List Char} : trimSpace cs = [] ↔ ∀ c ∈ cs, isSpace c := by
  constructor
  · intro h
    obtain ⟨l, r, hcs, hl, hr⟩ := trimSpace_eq cs
    rw [h, List.append_nil] at hcs
    rw [hcs]
    exact List.forall_mem_append.2 ⟨hl, hr⟩
  · intro h
    rw [trimSpace, List.dropWhile_eq_nil_iff.2 h]; rfl

theorem decodeUtf8_encodeUtf8 (text : String) : decodeUtf8 (encodeUtf8 text) = .ok text.toList := by
  rw [decodeUtf8_eq_ok_iff, String.ofList_toList]

theorem ofBytes_encodeUtf8 (text : String) :
    Inbound.ofBytes (encodeUtf8 text) = Inbound.ofChars text.toList := by
  rw [Inbound.ofBytes, decodeUtf8_encodeUtf8]

theorem decode_nil : Json.decode [] = none := by decide

theorem ofChars_of_some {cs : List Char} {v : Json} (hv : Json.decode (trimSpace cs) = some v) :
    Inbound.ofChars cs = .request v := by
  obtain ⟨c, cs', hc⟩ : ∃ c cs', trimSpace cs = c :: cs' := by
    refine List.exists_cons_of_ne_nil fun h => ?_
    rw [h, decode_nil] at hv; cases hv
  rw [hc] at hv
  simp only [Inbound.ofChars, hc, hv]

theorem ofChars_of_none {cs : List Char} (hne : trimSpace cs ≠ [])
    (hv : Json.decode (trimSpace cs) = none) :
    Inbound.ofChars cs = .invalid (.notJson (trimSpace cs)) := by
  obtain ⟨c, cs', hc⟩ := List.exists_cons_of_ne_nil hne
  rw [hc] at hv
  simp only [Inbound.ofChars, hc, hv]

/-- **Contents.**  Reading finds what a line holds. -/
theorem holds_ofBytes (line : List UInt8) : Holds line (Inbound.ofBytes line) := by
  cases hd : decodeUtf8 line with
  | error e =>
    have hno : ∀ text, encodeUtf8 text ≠ line := by
      rintro text rfl
      rw [decodeUtf8_encodeUtf8] at hd; cases hd
    rw [Inbound.ofBytes, hd]
    exact .notUtf8 hno hd
  | ok cs =>
    obtain rfl := decodeUtf8_eq_ok_iff.1 hd
    rw [ofBytes_encodeUtf8]
    by_cases hs : trimSpace (String.ofList cs).toList = []
    · rw [Inbound.ofChars, hs]
      exact .blank (trimSpace_eq_nil_iff.1 hs)
    · cases hv : Json.decode (trimSpace (String.ofList cs).toList) with
      | some v => rw [ofChars_of_some hv]; exact .request hv
      | none =>
        rw [ofChars_of_none hs hv]
        rw [trimSpace_eq_nil_iff] at hs
        exact .notJson (by simpa using hs) hv

/-! ## Serving lines -/

section
variable {σ : Type}

/-- `Serves explain service s lines calls replies s'`: from the state `s` on, the service is
    called for the requests of the lines, which are `calls`, and ends in `s'`; it
    makes the replies, together with a failure for each line that holds no
    request, in which `explain` says what is wrong with a text that is no JSON. -/
inductive Serves (explain : List Char → String) (service : Service σ) :
    σ → List (List UInt8) → List Json → List Reply → σ → Prop
  | done {s : σ} : Serves explain service s [] [] [] s
  | blank {s s' : σ} {line lines calls replies} : Holds line .blank →
      Serves explain service s lines calls replies s' →
      Serves explain service s (line :: lines) calls replies s'
  | request {s s₁ s' : σ} {line lines v reply calls replies} : Holds line (.request v) →
      service s v = (s₁, reply) → Serves explain service s₁ lines calls replies s' →
      Serves explain service s (line :: lines) (v :: calls) (reply :: replies) s'
  | invalid {s s' : σ} {line lines fault calls replies} : Holds line (.invalid fault) →
      Serves explain service s lines calls replies s' →
      Serves explain service s (line :: lines) calls
        (.failure ("malformed request: " ++ fault.message explain) :: replies) s'

namespace Loop

variable (explain : List Char → String) (service : Service σ)

/-- The loop behind lines and the replies to them. -/
def replies (loop : Loop σ) : List (List UInt8) → Loop σ × List Reply
  | [] => (loop, [])
  | line :: lines =>
    match answer explain service loop line with
    | none => replies loop lines
    | some (next, reply) =>
      ((replies next lines).1, reply :: (replies next lines).2)

theorem replies_append (loop : Loop σ) (ls ms : List (List UInt8)) :
    replies explain service loop (ls ++ ms)
      = ((replies explain service (replies explain service loop ls).1 ms).1,
        (replies explain service loop ls).2 ++
          (replies explain service (replies explain service loop ls).1 ms).2) := by
  induction ls generalizing loop with
  | nil => rfl
  | cons line ls ih =>
    rw [List.cons_append, replies, replies]
    cases answer explain service loop line with
    | none => exact ih loop
    | some next => simp only [ih next.1, List.cons_append]

/-- **Serving.** -/
theorem serves_replies (loop : Loop σ) (lines : List (List UInt8)) :
    (∃ calls, Serves explain service loop.service lines calls (replies explain service loop lines).2
      (replies explain service loop lines).1.service) ∧
    (replies explain service loop lines).1.served
      = loop.served + (replies explain service loop lines).2.length := by
  induction lines generalizing loop with
  | nil => exact ⟨⟨[], .done⟩, rfl⟩
  | cons line lines ih =>
    -- what the line holds decides the rule of `Serves`
    have hh := holds_ofBytes line
    rw [replies, answer]
    cases hi : Inbound.ofBytes line with
    | blank =>
      rw [hi] at hh
      obtain ⟨⟨calls, hs⟩, hn⟩ := ih loop
      exact ⟨⟨calls, .blank hh hs⟩, hn⟩
    | request v =>
      rw [hi] at hh
      obtain ⟨⟨calls, hs⟩, hn⟩ := ih ⟨(service loop.service v).1, loop.served + 1⟩
      refine ⟨⟨v :: calls, .request hh rfl hs⟩, ?_⟩
      simp only [List.length_cons, hn]; omega
    | invalid fault =>
      rw [hi] at hh
      obtain ⟨⟨calls, hs⟩, hn⟩ := ih { loop with served := loop.served + 1 }
      refine ⟨⟨calls, .invalid hh hs⟩, ?_⟩
      simp only [List.length_cons, hn]; omega

/-! ## Runs -/

theorem offer_reliable (taken es : List Event) :
    Sink.reliable.offer taken es = (es.reverse ++ taken, none) := by
  induction es generalizing taken with
  | nil => rfl
  | cons e es ih =>
    have hnext : Sink.reliable.offer taken (e :: es) = Sink.reliable.offer (e :: taken) es := rfl
    rw [hnext, ih, List.reverse_cons, List.append_assoc, List.singleton_append]

/-- An output that takes everything takes every reply. -/
theorem runLines_reliable (loop : Loop σ) (taken : List Event) (lines : List (List UInt8)) :
    runLines explain service Sink.reliable loop taken lines
      = ⟨(replies explain service loop lines).1,
        ((replies explain service loop lines).2.flatMap delivery).reverse ++ taken, none⟩ := by
  induction lines generalizing loop taken with
  | nil => rfl
  | cons line lines ih =>
    rw [runLines, replies]
    cases answer explain service loop line with
    | none => exact ih loop taken
    | some next =>
      simp only [offer_reliable, ih]
      simp

theorem run_reliable (loop : Loop σ) (input : List UInt8) :
    run explain service Sink.reliable loop input
      = ⟨(replies explain service loop (splitLines input)).1,
        ((replies explain service loop (splitLines input)).2.flatMap delivery).reverse, none⟩ := by
  rw [run, runLines_reliable, List.append_nil]

/-- The text of replies, each on its line. -/
def written (rs : List Reply) : String := String.join (rs.map fun reply => reply.line ++ "\n")

theorem output_run_reliable (loop : Loop σ) (input : List UInt8) :
    (run explain service Sink.reliable loop input).output
      = written (replies explain service loop (splitLines input)).2 := by
  rw [run_reliable, Result.output, List.reverse_reverse, written]
  generalize (replies explain service loop (splitLines input)).2 = rs
  apply String.toList_injective
  simp [String.toList_join, List.flatMap_assoc, delivery, Event.text, List.flatMap_map]

theorem newline_notMem_line (reply : Reply) : newline ∉ encodeUtf8 reply.line := by
  rw [ascii_mem_encodeUtf8 (by decide), Reply.line, Json.encode, String.toList_ofList]
  exact Json.newline_notMem_chars reply.toJson

/-- The lines of written replies are the replies. -/
theorem lines_written (rs : List Reply) :
    Lines (encodeUtf8 (written rs)) (rs.map fun reply => encodeUtf8 reply.line ++ [newline]) := by
  induction rs with
  | nil => exact .nil
  | cons reply rs ih =>
    have hcut : encodeUtf8 (written (reply :: rs))
        = encodeUtf8 reply.line ++ newline :: encodeUtf8 (written rs) := by
      have hnl : encodeUtf8 "\n" = [newline] := by decide
      have hjoin : written (reply :: rs) = reply.line ++ "\n" ++ written rs := by
        apply String.toList_injective
        simp [written, String.toList_join]
      rw [hjoin, encodeUtf8_append, encodeUtf8_append, hnl, List.append_assoc,
        List.singleton_append]
    rw [hcut, List.map_cons]
    exact .cons (newline_notMem_line reply) ih

theorem written_append (rs ss : List Reply) : written (rs ++ ss) = written rs ++ written ss := by
  apply String.toList_injective
  simp [written, String.toList_join]

end Loop

open Loop

/-- **Framing.**  Whatever the service and the bytes of the input, a run on an output
    that takes everything ends without an error.  The service is called for the
    requests among the lines of the input, in order, its state threaded through;
    the output is the replies, one for each line that is not blank, each on a line
    of its own, and so many replies are counted.  No reply holds a newline.  An
    input may be served in two runs, cut at its start or behind a newline. -/
theorem run_framed (explain : List Char → String) (service : Service σ) (loop : Loop σ) :
    (∀ input, ∃ lines calls rs,
      let r := run explain service Sink.reliable loop input
      Lines input lines ∧ Serves explain service loop.service lines calls rs r.loop.service ∧
        r.error? = none ∧ r.output = String.join (rs.map fun reply => reply.line ++ "\n") ∧
        Lines (encodeUtf8 r.output) (rs.map fun reply => encodeUtf8 reply.line ++ [newline]) ∧
        r.loop.served = loop.served + rs.length) ∧
    (∀ reply : Reply, newline ∉ encodeUtf8 reply.line) ∧
    ∀ a b, a = [] ∨ a.getLast? = some newline →
      let r := run explain service Sink.reliable loop a
      let r' := run explain service Sink.reliable r.loop b
      let whole := run explain service Sink.reliable loop (a ++ b)
      whole.output = r.output ++ r'.output ∧ whole.loop = r'.loop := by
  refine ⟨fun input => ?_, newline_notMem_line, fun a b h => ?_⟩
  · obtain ⟨⟨calls, hs⟩, hn⟩ := serves_replies explain service loop (splitLines input)
    refine ⟨splitLines input, calls, _, lines_splitLines input, ?_, ?_,
      output_run_reliable explain service loop input, ?_, ?_⟩
    · rw [run_reliable]; exact hs
    · rw [run_reliable]; rfl
    · rw [output_run_reliable]; exact lines_written _
    · rw [run_reliable]; exact hn
  · have hcut : splitLines (a ++ b) = splitLines a ++ splitLines b := splitLines_append h b
    intro r r' whole
    have hr : r.loop = (replies explain service loop (splitLines a)).1 := by
      simp only [r, run_reliable]
    have happ := replies_append explain service loop (splitLines a) (splitLines b)
    rw [← hcut, ← hr] at happ
    constructor
    · simp only [whole, r', output_run_reliable, happ, written_append]
      rw [output_run_reliable]
    · simp only [whole, r', run_reliable, happ]

/-- A service that counts its calls, on a request, a blank line and a line that is
    no JSON and has no newline; the input is cut behind the first newline. -/
theorem run_framed_count :
    let explain : List Char → String := fun cs => "unexpected " ++ String.ofList cs
    let count : Service Nat := fun n _ => (n + 1, .value (.nat (n + 1)))
    let a := encodeUtf8 "[1]\n"
    let b := encodeUtf8 " \n["
    let r := run explain count Sink.reliable ⟨0, 0⟩ a
    a.getLast? = some newline ∧
      (run explain count Sink.reliable ⟨0, 0⟩ (a ++ b)).output
        = r.output ++ (run explain count Sink.reliable r.loop b).output ∧
      (run explain count Sink.reliable ⟨0, 0⟩ (a ++ b)).output
        = "1\n[\"failure\",\"malformed request: unexpected [\"]\n" := by
  intro explain count a b r
  have ha : a.getLast? = some newline := by decide
  exact ⟨ha, ((run_framed explain count ⟨0, 0⟩).2.2 a b (Or.inr ha)).1, by decide +kernel⟩

end

end PhraseServer
