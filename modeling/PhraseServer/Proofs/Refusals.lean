/-
  Outputs that refuse.

  An output may refuse a write or a flush at any time, and a run ends there.  Then one
  reply is cut, the one that the last request got.

  * `offer_cases`: what an output takes of the events that it is offered;
  * `runLines_cases`: a run goes as on an output that takes everything, or it does so
    up to one line, and nothing behind this line matters;
  * `run_refused`: what a run that is refused leaves.
-/
import PhraseServer.Proofs.Framing

namespace PhraseServer

/-! ## What an output takes -/

/-- An output takes all events that it is offered, or those before one that it
    refuses. -/
theorem Sink.offer_cases (sink : Sink) (taken es : List Event) :
    sink.offer taken es = (es.reverse ++ taken, none) ∨
    ∃ part e rest reason, es = part ++ e :: rest ∧ sink (part.reverse ++ taken) e = some reason ∧
      sink.offer taken es = (part.reverse ++ taken, some reason) := by
  induction es generalizing taken with
  | nil => exact .inl rfl
  | cons e es ih =>
    rw [offer]
    cases hs : sink taken e with
    | some reason => exact .inr ⟨[], e, es, reason, rfl, hs, rfl⟩
    | none =>
      rcases ih (e :: taken) with hall | ⟨part, e', rest, reason, rfl, hs', hcut⟩
      · left
        simp [hall]
      · right
        refine ⟨e :: part, e', rest, reason, rfl, ?_, ?_⟩
        · simpa using hs'
        · simpa using hcut

namespace Loop

variable {σ : Type} {explain : List Char → String} {service : Service σ} {sink : Sink}

/-! ## Up to a refusal -/

/-- `Breaks explain service sink loop taken before line reply r`: behind the lines `before`,
    whose replies the output takes, it refuses a part of the reply to `line`, and this
    leaves `r`, whatever lines follow. -/
structure Breaks (explain : List Char → String) (service : Service σ) (sink : Sink)
    (loop : Loop σ) (taken : List Event) (before : List (List UInt8)) (line : List UInt8)
    (reply : Reply) (r : Result σ) : Prop where
  answer :
    answer explain service (replies explain service loop before).1 line = some (r.loop, reply)
  cut : ∃ part e rest reason, delivery reply = part ++ e :: rest ∧
    r.taken = part.reverse ++ ((replies explain service loop before).2.flatMap delivery).reverse
      ++ taken ∧
    sink r.taken e = some reason ∧ r.refusal = some reason
  run : ∀ after, runLines explain service sink loop taken (before ++ line :: after) = r

variable {loop next : Loop σ} {taken : List Event} {before lines : List (List UInt8)}
  {line line' : List UInt8} {reply reply' : Reply} {r : Result σ}

theorem Breaks.of_blank (hline : Loop.answer explain service loop line = none)
    (h : Breaks explain service sink loop taken before line' reply r) :
    Breaks explain service sink loop taken (line :: before) line' reply r := by
  have hreplies :
      replies explain service loop (line :: before) = replies explain service loop before := by
    rw [replies, hline]
  refine ⟨hreplies ▸ h.answer, hreplies ▸ h.cut, fun after => ?_⟩
  rw [List.cons_append, runLines, hline]
  exact h.run after

theorem Breaks.of_reply (hline : Loop.answer explain service loop line = some (next, reply'))
    (hall : sink.offer taken (delivery reply') = ((delivery reply').reverse ++ taken, none))
    (h : Breaks explain service sink next ((delivery reply').reverse ++ taken) before line' reply
      r) :
    Breaks explain service sink loop taken (line :: before) line' reply r := by
  have hreplies : replies explain service loop (line :: before)
      = ((replies explain service next before).1,
        reply' :: (replies explain service next before).2) := by
    rw [replies, hline]
  refine ⟨hreplies ▸ h.answer, ?_, fun after => ?_⟩
  · obtain ⟨part, e, rest, reason, hpart, htaken, hcut⟩ := h.cut
    refine ⟨part, e, rest, reason, hpart, ?_, hcut⟩
    rw [htaken, hreplies]
    simp
  · rw [List.cons_append, runLines, hline]
    simp only [hall]
    exact h.run after

/-- **Runs.**  A run goes as on an output that takes everything, or it breaks. -/
theorem runLines_cases (explain : List Char → String) (service : Service σ) (sink : Sink)
    (loop : Loop σ) (taken : List Event) (lines : List (List UInt8)) :
    runLines explain service sink loop taken lines
      = runLines explain service Sink.reliable loop taken lines ∨
    ∃ before line after reply, lines = before ++ line :: after ∧
      Breaks explain service sink loop taken before line reply
        (runLines explain service sink loop taken lines) := by
  induction lines generalizing loop taken with
  | nil => exact .inl rfl
  | cons line lines ih =>
    cases hline : answer explain service loop line with
    | none =>
      have hskip : ∀ sink, runLines explain service sink loop taken (line :: lines)
          = runLines explain service sink loop taken lines := fun sink => by rw [runLines, hline]
      rw [hskip, hskip]
      rcases ih loop taken with hsame | ⟨before, line', after, reply, rfl, hbreaks⟩
      · exact .inl hsame
      · exact .inr ⟨line :: before, line', after, reply, rfl, hbreaks.of_blank hline⟩
    | some answered =>
      obtain ⟨next, reply⟩ := answered
      rcases sink.offer_cases taken (delivery reply) with
        hall | ⟨part, e, rest, reason, hpart, hrefuse, hcut⟩
      · have hserve : ∀ sink : Sink,
            sink.offer taken (delivery reply) = ((delivery reply).reverse ++ taken, none) →
            runLines explain service sink loop taken (line :: lines)
              = runLines explain service sink next ((delivery reply).reverse ++ taken) lines :=
          fun sink h => by simp only [runLines, hline, h]
        rw [hserve sink hall, hserve Sink.reliable (offer_reliable taken _)]
        rcases ih next ((delivery reply).reverse ++ taken) with
          hsame | ⟨before, line', after, reply', rfl, hbreaks⟩
        · exact .inl hsame
        · exact .inr ⟨line :: before, line', after, reply', rfl, hbreaks.of_reply hline hall⟩
      · -- the reply to this line is the one that is cut
        have hstop : ∀ after, runLines explain service sink loop taken (line :: after)
            = ⟨next, part.reverse ++ taken, some reason⟩ := fun after => by
          simp only [runLines, hline, hcut]
        refine .inr ⟨[], line, lines, reply, rfl, ?_⟩
        rw [hstop]
        exact ⟨hline, ⟨part, e, rest, reason, hpart, by simp [replies], hrefuse, rfl⟩, hstop⟩

/-! ## Outputs of events -/

theorem count_flush_delivery (rs : List Reply) :
    (rs.flatMap delivery).count .flush = rs.length := by
  induction rs with
  | nil => rfl
  | cons reply rs ih =>
    rw [List.flatMap_cons, List.count_append, ih, List.length_cons, delivery]
    simp [Nat.add_comm]

/-- A reply that is cut was not flushed. -/
theorem flush_notMem_of_delivery {reply : Reply} {part rest : List Event} {e : Event}
    (h : delivery reply = part ++ e :: rest) : Event.flush ∉ part := by
  have hlength := congrArg List.length h
  have hwrites : part <+: [.write reply.line, .write "\n"] := by
    refine List.prefix_of_prefix_length_le ⟨_, h.symm⟩ ⟨[.flush], rfl⟩ ?_
    simp [delivery] at hlength ⊢
    omega
  intro hflush
  simpa using hwrites.subset hflush

namespace Breaks

/-- The reply that is cut is the next one. -/
theorem replies_line (h : Breaks explain service sink loop taken before line reply r) :
    replies explain service (replies explain service loop before).1 [line]
      = (r.loop, [reply]) := by
  rw [replies, h.answer]
  rfl

/-- What a fresh output took: the replies before the one that is cut, each flushed, and a
    part of this one. -/
theorem exists_part (h : Breaks explain service sink loop [] before line reply r) :
    ∃ part e rest reason, delivery reply = part ++ e :: rest ∧
      r.taken.reverse = (replies explain service loop before).2.flatMap delivery ++ part ∧
      r.flushes = (replies explain service loop before).2.length ∧
      sink r.taken e = some reason ∧ r.refusal = some reason := by
  obtain ⟨part, e, rest, reason, hpart, htaken, hrefuse, hreason⟩ := h.cut
  have hreverse :
      r.taken.reverse = (replies explain service loop before).2.flatMap delivery ++ part := by
    rw [htaken]
    simp
  refine ⟨part, e, rest, reason, hpart, hreverse, ?_, hrefuse, hreason⟩
  rw [Result.flushes, ← List.count_reverse, hreverse, List.count_append, count_flush_delivery,
    List.count_eq_zero.2 (flush_notMem_of_delivery hpart), Nat.add_zero]

end Breaks

theorem output_of_prefix {r r' : Result σ} (h : r.taken.reverse <+: r'.taken.reverse) :
    encodeUtf8 r.output <+: encodeUtf8 r'.output := by
  obtain ⟨more, hmore⟩ := h
  have happend : r'.output = r.output ++ String.join (more.map Event.text) := by
    apply String.toList_injective
    simp [Result.output, ← hmore, String.toList_join]
  rw [happend, encodeUtf8_append]
  exact List.prefix_append _ _

end Loop

/-- The first lines of an input are an input with these lines. -/
theorem Lines.of_prefix {bytes : List UInt8} {lines ls : List (List UInt8)} (h : Lines bytes lines)
    (hls : ls <+: lines) : Lines ls.flatten ls := by
  induction h generalizing ls with
  | nil =>
    rw [List.prefix_nil.1 hls]
    exact .nil
  | @last line hne hline =>
    cases ls with
    | nil => exact .nil
    | cons l ls =>
      obtain ⟨rfl, htail⟩ := List.cons_prefix_cons.1 hls
      rw [List.prefix_nil.1 htail, List.flatten_singleton]
      exact .last hne hline
  | @cons line bytes lines hline _ ih =>
    cases ls with
    | nil => exact .nil
    | cons l ls =>
      obtain ⟨rfl, htail⟩ := List.cons_prefix_cons.1 hls
      rw [List.flatten_cons, List.append_assoc, List.singleton_append]
      exact .cons hline (ih htail)

namespace Loop

variable {σ : Type}

/-- **Refusals.**  Whatever the service, the input and the output, let a run end with an
    error.  Then one line of the input is the last one that is served, for the run goes
    as if the input ended there.  The service was called for the requests up to this
    line, and the loop is the one that a run on an output that takes everything has
    behind it.  All replies but the last were written, each with its newline, and
    flushed, once each; of the last one the output took what comes before the event
    that it refused.  So it took bytes that an output that takes everything takes
    first. -/
theorem run_refused (explain : List Char → String) (service : Service σ) (sink : Sink)
    (loop : Loop σ) (input : List UInt8) {message : String}
    (h : (run explain service sink loop input).error? = some message) :
    let r := run explain service sink loop input
    ∃ before line after calls call rs reply s,
      let upTo := (before ++ [line]).flatten
      Lines input (before ++ line :: after) ∧ r = run explain service sink loop upTo ∧
      Serves explain service loop.service before calls rs s ∧
      Serves explain service s [line] call [reply] r.loop.service ∧
      r.loop = (run explain service Sink.reliable loop upTo).loop ∧
      r.loop.served = loop.served + rs.length + 1 ∧
      (∃ part e rest reason, [.write reply.line, .write "\n", .flush] = part ++ e :: rest ∧
        r.taken.reverse
          = rs.flatMap (fun reply => [.write reply.line, .write "\n", .flush]) ++ part ∧
        r.flushes = rs.length ∧
        sink r.taken e = some reason ∧ message = "i/o error: " ++ reason) ∧
      encodeUtf8 r.output <+: encodeUtf8 (run explain service Sink.reliable loop input).output := by
  intro r
  rcases runLines_cases explain service sink loop [] (splitLines input) with
    hsame | ⟨before, line, after, reply, hlines, hbreaks⟩
  · -- nothing is refused
    have hnone : r.error? = none := by
      rw [Result.error?, show r = _ from hsame, runLines_reliable]
      rfl
    rw [hnone] at h
    cases h
  change Breaks explain service sink loop [] before line reply r at hbreaks
  obtain ⟨⟨calls, hserves⟩, hcount⟩ := serves_replies explain service loop before
  have hlast := hbreaks.replies_line
  obtain ⟨⟨call, hcall⟩, hcounted⟩ :=
    serves_replies explain service (replies explain service loop before).1 [line]
  rw [hlast] at hcall hcounted
  have hinput : Lines input (before ++ line :: after) := hlines ▸ lines_splitLines input
  have hsplit : splitLines (before ++ [line]).flatten = before ++ [line] :=
    (hinput.of_prefix (by simp)).eq_splitLines
  obtain ⟨part, e, rest, reason, hpart, htaken, hflushes, hrefuse, hreason⟩ :=
    hbreaks.exists_part
  refine ⟨before, line, after, calls, call, _, reply, _, hinput, ?_, hserves, hcall, ?_, ?_,
    ⟨part, e, rest, reason, hpart, htaken, hflushes, hrefuse, ?_⟩, output_of_prefix ?_⟩
  · rw [run, hsplit]
    exact (hbreaks.run []).symm
  · rw [run_reliable, hsplit, replies_append, hlast]
  · rw [hcounted, hcount]
    rfl
  · rw [Result.error?, hreason] at h
    exact (Option.some.inj h).symm
  · -- the cut reply is the next one of the whole run
    rw [htaken, run_reliable, hlines, List.append_cons, replies_append, replies_append, hlast]
    simp [hpart]

/-- A service that counts its calls, on an output with room for three bytes: the first
    reply is taken and flushed, of the second its newline is refused. -/
theorem run_refused_newline :
    let explain : List Char → String := String.ofList
    let count : Service Nat := fun n _ => (n + 1, .value (.nat (n + 1)))
    let input := encodeUtf8 "[1]\n\n[2]\n[3]\n"
    let r := run explain count (Sink.limited 3) ⟨0, 0⟩ input
    r.error? = some "i/o error: sink full" ∧
      r.taken.reverse = [.write "1", .write "\n", .flush, .write "2"] ∧ r.flushes = 1 ∧
      r.loop.service = 2 ∧
      encodeUtf8 r.output <+: encodeUtf8 (run explain count Sink.reliable ⟨0, 0⟩ input).output := by
  intro explain count input r
  have hr : r.error? = some "i/o error: sink full" := by decide +kernel
  obtain ⟨_, _, _, _, _, rs, _, _, -, -, -, -, -, hserved, ⟨_, _, _, _, -, -, hflushes, -, -⟩,
    hbytes⟩ := run_refused explain count (Sink.limited 3) ⟨0, 0⟩ input hr
  have htwo : r.loop.served = 2 := by decide +kernel
  have hone : rs.length = 1 := by
    have hserved : 2 = 0 + rs.length + 1 := htwo ▸ hserved
    omega
  exact ⟨hr, by decide +kernel, hflushes.trans hone, by decide +kernel, hbytes⟩

end Loop

end PhraseServer
