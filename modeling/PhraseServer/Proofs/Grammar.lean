/-
  The grammar of requests.

  Ten commands head the values that are requests.  `Spelled` says which values spell a
  request: the request's own value, or, for a target, any object that aims at it.

  * `aims_iff`: a target is read off an object as `Aims` says;
  * `exists_read`: the command of a request reads it off its arguments, and off no
    others;
  * `decode_spelled`: decoding accepts what spells a request, and tells apart the ways
    in which a value spells none.
-/
import Mathlib.Algebra.Ring.Nat
import PhraseServer.Proofs.Independence

namespace PhraseServer

open Wire (toJson)

/-! ## Targets -/

namespace Json

/-- `v.HasWord name n`: a member of an object is the unsigned integer `n` of 64 bits. -/
def HasWord (v : Json) (name : String) (n : Nat) : Prop :=
  v.get? name = some (.nat n) ∧ n < 2 ^ 64

/-- `v.Aims t`: an object aims at a target.  An offset decides, whatever else there
    is. -/
inductive Aims (v : Json) : SeekTarget → Prop
  | offset {n : Nat} : v.HasWord "offset" n → Aims v (.offset n)
  | lineCol {line col : Nat} : (∀ n, ¬ v.HasWord "offset" n) → v.HasWord "line" line →
      v.HasWord "col" col → Aims v (.lineCol line col)

theorem asUnsigned?_eq_some_iff {v : Json} {n : Nat} :
    v.asUnsigned? = some n ↔ v = .nat n ∧ n < 2 ^ 64 := by
  constructor
  · intro h
    unfold asUnsigned? at h
    split at h
    · next m =>
      split_ifs at h with hm
      rw [Bool.and_eq_true, decide_eq_true_eq, decide_eq_true_eq] at hm
      obtain ⟨hpos, hmax⟩ : 0 ≤ m ∧ m ≤ (18446744073709551615 : Nat) := hm
      obtain rfl := Option.some.inj h
      refine ⟨?_, by omega⟩
      rw [nat, Int.toNat_of_nonneg hpos]
    · cases h
  · rintro ⟨rfl, hn⟩
    have hword : (0 : Int) ≤ n ∧ (n : Int) ≤ maxWord := by
      simp only [maxWord]
      omega
    simp [nat, asUnsigned?, hword]

theorem hasWord_iff {v : Json} {name : String} {n : Nat} :
    (v.get? name).bind asUnsigned? = some n ↔ v.HasWord name n := by
  rw [Option.bind_eq_some_iff]
  constructor
  · rintro ⟨w, hw, hn⟩
    obtain ⟨rfl, hlt⟩ := asUnsigned?_eq_some_iff.1 hn
    exact ⟨hw, hlt⟩
  · rintro ⟨hw, hn⟩
    exact ⟨_, hw, asUnsigned?_eq_some_iff.2 ⟨rfl, hn⟩⟩

theorem HasWord.exists_obj {v : Json} {name : String} {n : Nat} (h : v.HasWord name n) :
    ∃ members, v = .obj members := by
  cases v with
  | obj members => exact ⟨members, rfl⟩
  | _ => cases h.1

theorem Aims.exists_obj {v : Json} {t : SeekTarget} (h : v.Aims t) :
    ∃ members, v = .obj members := by
  cases h with
  | offset hoffset => exact hoffset.exists_obj
  | lineCol _ hline _ => exact hline.exists_obj

end Json

/-- **Targets.**  A target is read off an object that aims at it. -/
theorem SeekTarget.aims_iff {v : Json} {t : SeekTarget} : ofJson? v = some t ↔ v.Aims t := by
  constructor
  · intro h
    unfold ofJson? at h
    split at h
    · next n hoffset =>
      obtain rfl := Option.some.inj h
      exact .offset (Json.hasWord_iff.1 hoffset)
    · next hoffset =>
      split at h
      · next hline hcol =>
        obtain rfl := Option.some.inj h
        refine .lineCol (fun n hn => ?_) (Json.hasWord_iff.1 hline) (Json.hasWord_iff.1 hcol)
        rw [Json.hasWord_iff.2 hn] at hoffset
        cases hoffset
      · cases h
  · rintro (⟨hoffset⟩ | ⟨hno, hline, hcol⟩)
    · rw [ofJson?, Json.hasWord_iff.2 hoffset]
    · have hoffset : (v.get? "offset").bind Json.asUnsigned? = none :=
        Option.eq_none_iff_forall_ne_some.2 fun n hn => hno n (Json.hasWord_iff.1 hn)
      rw [ofJson?, hoffset, Json.hasWord_iff.2 hline, Json.hasWord_iff.2 hcol]

/-! ## Arguments -/

theorem noArguments_iff {r r' : Request} {args : List Json} :
    noArguments r args = some r' ↔ args = [] ∧ r = r' := by
  cases args <;> simp [noArguments]

theorem oneString_iff {f : String → Option Request} {r : Request} {args : List Json} :
    oneString f args = some r ↔ ∃ s, args = [.str s] ∧ f s = some r := by
  constructor
  · intro h
    unfold oneString at h
    split at h
    · exact ⟨_, rfl, h⟩
    · cases h
  · rintro ⟨s, rfl, hs⟩
    exact hs

theorem DumpKind.ofString?_iff {name : String} {kind : DumpKind} :
    ofString? name = some kind ↔ name = kind.name := by
  constructor
  · intro h
    simpa [eq_comm] using List.find?_some h
  · rintro rfl
    cases kind <;> decide

theorem PathCommand.decode?_iff {args : List Json} {command : PathCommand} (kind : PathKind) :
    decode? args = some command ↔ args = (Request.path kind command).arguments := by
  constructor
  · intro h
    unfold decode? at h
    split at h
    · split_ifs at h with hlist hreset
      · cases h
        rw [hlist]
        rfl
      · cases h
        rw [hreset]
        rfl
    · split_ifs at h with hadd hremove
      · cases h
        rw [hadd]
        rfl
      · cases h
        rw [hremove]
        rfl
    · cases h
  · rintro rfl
    cases command with
    | list | add _ | remove _ | reset => rfl

/-! ## Commands -/

/-- The names of the commands. -/
def commandNames : List String :=
  ["tell", "line", "seek", "reset", "which", "source_path", "build_path", "cd", "dump", "errors"]

theorem lookup_commands_eq_none_iff {name : String} :
    commands.lookup name = none ↔ name ∉ commandNames := by
  simp [commands, commandNames]

namespace Request

/-- `r.Spelled v`: a value spells a request.  A target may be spelled by any object that
    aims at it, any other request only by its own value. -/
def Spelled : Request → Json → Prop
  | .seek t, v => ∃ members, v = .arr [.str "seek", .obj members] ∧ (Json.obj members).Aims t
  | r, v => v = r.encode

/-- **Commands.**  The command of a request reads it off the arguments that spell it, and
    off no others. -/
theorem exists_read (r : Request) : ∃ read, commands.lookup r.command = some read ∧
    ∀ args, read args = some r ↔ r.Spelled (.arr (.str r.command :: args)) := by
  cases r with
  | line | reset | errors =>
    refine ⟨_, rfl, fun args => ?_⟩
    rw [noArguments_iff]
    simp [Spelled, encode, arguments]
  | tell s | which s | cd s =>
    refine ⟨_, rfl, fun args => ?_⟩
    rw [oneString_iff]
    simp [Spelled, encode, arguments]
  | dump kind =>
    refine ⟨_, rfl, fun args => ?_⟩
    rw [oneString_iff]
    simp [Spelled, encode, arguments, DumpKind.ofString?_iff]
  | path kind command =>
    cases kind with
    | source | build =>
      refine ⟨_, rfl, fun args => ?_⟩
      rw [Option.map_eq_some_iff]
      simp [Spelled, encode, ← PathCommand.decode?_iff]
  | seek target =>
    refine ⟨_, rfl, fun args => ⟨fun h => ?_, ?_⟩⟩
    · split at h
      · obtain ⟨t, ht, heq⟩ := Option.map_eq_some_iff.1 h
        obtain rfl := Request.seek.inj heq
        have haims := SeekTarget.aims_iff.1 ht
        obtain ⟨members, rfl⟩ := haims.exists_obj
        exact ⟨members, rfl, haims⟩
      · cases h
    · rintro ⟨members, hv, haims⟩
      obtain rfl : args = [.obj members] := by simpa [command] using hv
      exact congrArg (Option.map Request.seek) (SeekTarget.aims_iff.2 haims)

variable {v : Json} {r : Request}

theorem Spelled.headed (h : r.Spelled v) : ∃ args, v = .arr (.str r.command :: args) := by
  cases r with
  | seek t =>
    obtain ⟨members, rfl, -⟩ := h
    exact ⟨_, rfl⟩
  | _ => exact ⟨_, h⟩

/-! ## Decoding -/

theorem decode_eq_ok_iff : decode v = .ok r ↔ r.Spelled v := by
  obtain ⟨read, hlookup, hread⟩ := r.exists_read
  constructor
  · intro h
    obtain ⟨args, rfl⟩ := eq_of_decode h
    refine (hread args).1 ?_
    simp only [decode, hlookup] at h
    split at h
    · next hr =>
      cases h
      exact hr
    · cases h
  · intro h
    obtain ⟨args, rfl⟩ := h.headed
    simp only [decode, hlookup, (hread args).2 h]

theorem decode_eq_malformed_iff :
    decode v = .error .malformed ↔ ¬ ∃ name args, v = .arr (.str name :: args) := by
  constructor
  · rintro h ⟨name, args, rfl⟩
    simp only [decode] at h
    split at h
    · cases h
    · split at h <;> cases h
  · intro h
    unfold decode
    split
    · exact absurd ⟨_, _, rfl⟩ h
    · rfl

theorem decode_eq_unknownCommand_iff {name : String} : decode v = .error (.unknownCommand name) ↔
    name ∉ commandNames ∧ ∃ args, v = .arr (.str name :: args) := by
  constructor
  · intro h
    unfold decode at h
    split at h
    · split at h
      · next hlookup =>
        cases h
        exact ⟨lookup_commands_eq_none_iff.1 hlookup, _, rfl⟩
      · split at h <;> cases h
    · cases h
  · rintro ⟨hname, args, rfl⟩
    simp only [decode, lookup_commands_eq_none_iff.2 hname]

/-- Arguments are refused when a command heads a value that spells no request. -/
theorem decode_eq_invalidArguments_iff : decode v = .error .invalidArguments ↔
    (∃ name ∈ commandNames, ∃ args, v = .arr (.str name :: args)) ∧
      ∀ r : Request, ¬ r.Spelled v := by
  constructor
  · intro h
    refine ⟨?_, fun r hr => ?_⟩
    · obtain ⟨name, args, rfl⟩ : ∃ name args, v = .arr (.str name :: args) := by
        by_contra hno
        rw [decode_eq_malformed_iff.2 hno] at h
        cases h
      refine ⟨name, ?_, args, rfl⟩
      by_contra hname
      rw [decode_eq_unknownCommand_iff.2 ⟨hname, args, rfl⟩] at h
      cases h
    · rw [decode_eq_ok_iff.2 hr] at h
      cases h
  · rintro ⟨⟨name, hname, args, rfl⟩, hno⟩
    cases hd : decode (.arr (.str name :: args)) with
    | ok r => exact absurd (decode_eq_ok_iff.1 hd) (hno r)
    | error e =>
      cases e with
      | malformed => exact absurd ⟨_, _, rfl⟩ (decode_eq_malformed_iff.1 hd)
      | unknownCommand name' =>
        obtain ⟨hname', args', heq⟩ := decode_eq_unknownCommand_iff.1 hd
        cases heq
        exact absurd hname hname'
      | invalidArguments => rfl

/-! ## Encoding -/

/-- The numbers of a request are unsigned integers of 64 bits. -/
def Fits : Request → Prop
  | .seek (.offset n) => n < 2 ^ 64
  | .seek (.lineCol l c) => l < 2 ^ 64 ∧ c < 2 ^ 64
  | _ => True

theorem toJson_lineCol (l c : Nat) :
    toJson (SeekTarget.lineCol l c) = .obj [("col", .nat c), ("line", .nat l)] := rfl

theorem Fits.aims {t : SeekTarget} (h : (seek t).Fits) : (toJson t).Aims t := by
  cases t with
  | offset n => exact .offset ⟨rfl, h⟩
  | lineCol l c =>
    rw [toJson_lineCol]
    refine .lineCol (fun n hn => ?_) ⟨rfl, h.1⟩ ⟨rfl, h.2⟩
    cases hn.1

theorem Fits.spelled (h : r.Fits) : r.Spelled r.encode := by
  cases r with
  | seek t =>
    have haims := h.aims
    obtain ⟨members, hmembers⟩ := haims.exists_obj
    exact ⟨members, by rw [← hmembers]; rfl, hmembers ▸ haims⟩
  | _ => rfl

theorem Spelled.fits (h : r.Spelled v) : r.Fits := by
  cases r with
  | seek t =>
    obtain ⟨members, -, haims⟩ := h
    cases haims with
    | offset hn => exact hn.2
    | lineCol _ hline hcol => exact ⟨hline.2, hcol.2⟩
  | _ => trivial

theorem exists_seek_of_command (h : r.command = "seek") : ∃ t, r = .seek t := by
  cases r with
  | seek t => exact ⟨t, rfl⟩
  | path kind _ => cases kind <;> simp [command] at h
  | _ => simp [command] at h

/-- **Requests.**  The value of every request decodes to it; its numbers are words of 64
    bits, as in every request that is decoded.  Any value is malformed unless it is an
    array headed by a string, has an unknown command if that string is none of the ten,
    and else decodes to the request that it spells, or has invalid arguments if it spells
    none.  An object to seek is decoded to the target that it aims at, if there is one. -/
theorem decode_spelled (v : Json) :
    (∀ r : Request, r.Fits → decode r.encode = .ok r) ∧
    (decode v = .error .malformed ↔ ¬ ∃ name args, v = .arr (.str name :: args)) ∧
    (∀ name, decode v = .error (.unknownCommand name) ↔
      name ∉ commandNames ∧ ∃ args, v = .arr (.str name :: args)) ∧
    (∀ r : Request, decode v = .ok r ↔ r.Spelled v) ∧
    (∀ r : Request, decode v = .ok r → r.Fits) ∧
    (decode v = .error .invalidArguments ↔
      (∃ name ∈ commandNames, ∃ args, v = .arr (.str name :: args)) ∧
        ∀ r : Request, ¬ r.Spelled v) ∧
    ∀ members, let seeking := Json.arr [.str "seek", .obj members]
      (∀ t, decode seeking = .ok (.seek t) ↔ (Json.obj members).Aims t) ∧
      (decode seeking = .error .invalidArguments ↔ ∀ t, ¬ (Json.obj members).Aims t) := by
  have hseek : ∀ members t, (Request.seek t).Spelled (.arr [.str "seek", .obj members]) ↔
      (Json.obj members).Aims t := by
    intro members t
    simp [Spelled]
  refine ⟨fun r hr => decode_eq_ok_iff.2 hr.spelled, decode_eq_malformed_iff,
    fun name => decode_eq_unknownCommand_iff, fun r => decode_eq_ok_iff,
    fun r hr => (decode_eq_ok_iff.1 hr).fits, decode_eq_invalidArguments_iff, ?_⟩
  intro members seeking
  refine ⟨fun t => decode_eq_ok_iff.trans (hseek members t), ?_⟩
  rw [decode_eq_invalidArguments_iff]
  constructor
  · rintro ⟨-, hno⟩ t haims
    exact hno (.seek t) ((hseek members t).2 haims)
  · intro hno
    refine ⟨⟨"seek", by simp [commandNames], _, rfl⟩, fun r hr => ?_⟩
    obtain ⟨args, hargs⟩ := hr.headed
    have hcommand : r.command = "seek" := (Json.str.inj (List.cons.inj (Json.arr.inj hargs)).1).symm
    obtain ⟨t, rfl⟩ := exists_seek_of_command hcommand
    exact hno t ((hseek members t).1 hr)

/-- A target with an offset that is no word and with a member that no target has. -/
theorem decode_spelled_further :
    let t := SeekTarget.lineCol 2 3
    let members := [("col", Json.nat 3), ("far", .null), ("line", .nat 2),
      ("offset", .num (.int (-1)))]
    (seek t).Fits ∧ decode (seek t).encode = .ok (.seek t) ∧
      decode (.arr [.str "seek", .obj members]) = .ok (.seek t) ∧
      (Json.obj members).Aims t := by
  intro t members
  obtain ⟨hencode, -, -, -, -, -, hseek⟩ := decode_spelled (.arr [.str "seek", .obj members])
  have hfits : (seek t).Fits := ⟨by omega, by omega⟩
  have hdecode : decode (.arr [.str "seek", .obj members]) = .ok (.seek t) := rfl
  exact ⟨hfits, hencode _ hfits, hdecode, ((hseek members).1 t).1 hdecode⟩

end Request

end PhraseServer
