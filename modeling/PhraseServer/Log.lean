/-
  Logs with a cursor.

  A log is a list of committed items and, behind the cursor, the future left by
  a move backwards.  Appending drops the future; `seek` and `rewindWhile` only
  move the cursor; `truncate` moves it and drops what lies behind.

  `sync` measures how far the log agrees with another one, item by item through
  keys: it returns the number of own items up to the last one that was matched.
  The own log may be finer than the other, so items with smaller keys are
  skipped.

  * `items_rewindWhile`: rewinding loses nothing;
  * `rewindWith_count`: a predicate with memory that only counts its calls moves
    the cursor like a predicate without.
-/
namespace PhraseServer

/-- A list of items cut at a cursor. -/
structure Log (α : Type) where
  /-- The items before the cursor. -/
  committed : List α := []
  /-- The items behind the cursor. -/
  future : List α := []
deriving DecidableEq, Repr

namespace Log

variable {α β κ σ : Type}

/-! ## Views -/

/-- The number of committed items. -/
def cursor (log : Log α) : Nat := log.committed.length

/-- All items, committed or not. -/
def items (log : Log α) : List α := log.committed ++ log.future

/-- The number of stored items. -/
def size (log : Log α) : Nat := log.items.length

/-- The last committed item. -/
def last? (log : Log α) : Option α := log.committed.getLast?

/-- The log of committed items only. -/
def ofList (items : List α) : Log α := ⟨items, []⟩

/-! ## Edits -/

/-- Commits one item and forgets the future. -/
def append (log : Log α) (item : α) : Log α := ⟨log.committed ++ [item], []⟩

/-- Commits items and forgets the future, also when there are none to commit. -/
def appendAll (log : Log α) (items : List α) : Log α := ⟨log.committed ++ items, []⟩

/-- Moves the cursor to an index, at most to the end. -/
def seek (log : Log α) (index : Nat) : Log α := ⟨log.items.take index, log.items.drop index⟩

/-- Forgets the future. -/
def settle (log : Log α) : Log α := ⟨log.committed, []⟩

/-- Moves the cursor to an index and forgets what lies behind it. -/
def truncate (log : Log α) (index : Nat) : Log α := (log.seek index).settle

/-- Moves the cursor back over the committed items that satisfy `p`. -/
def rewindWhile (log : Log α) (p : α → Bool) : Log α :=
  ⟨(log.committed.reverse.dropWhile p).reverse,
    (log.committed.reverse.takeWhile p).reverse ++ log.future⟩

/-- One walk of a predicate with memory over the committed items, newest first:
    what is left of them, what was passed, and the last memory. -/
def retreat (p : σ → α → Bool × σ) : σ → List α → List α → σ × List α × List α
  | s, [], passed => (s, [], passed)
  | s, x :: rest, passed =>
    match p s x with
    | (true, s') => retreat p s' rest (x :: passed)
    | (false, s') => (s', x :: rest, passed)

/-- Moves the cursor back while a predicate with memory holds. -/
def rewindWith (log : Log α) (p : σ → α → Bool × σ) (s : σ) : σ × Log α :=
  let (s', rest, passed) := retreat p s log.committed.reverse log.future
  (s', ⟨rest.reverse, passed⟩)

/-- The items that `rewindWhile p` looks at, newest first: those it passes and
    the one it stops at. -/
def probed (log : Log α) (p : α → Bool) : List α :=
  let newest := log.committed.reverse
  newest.take ((newest.takeWhile p).length + 1)

/-! ## Agreement of two logs -/

section
variable [LT κ] [DecidableLT κ] [DecidableEq κ]

/-- How many of the keys `ours` are needed to match the longest possible prefix
    of `theirs` in one walk: smaller keys are skipped, and the walk ends at the
    first key without an equal. -/
def sharedKeys : List κ → List κ → Nat
  | _, [] => 0
  | ours, wanted :: theirs =>
    match ours.dropWhile (· < wanted) with
    | [] => 0
    | k :: rest =>
      if k = wanted then (ours.takeWhile (· < wanted)).length + 1 + sharedKeys rest theirs
      else 0

/-- The number of committed items up to the last one whose key was matched by
    the committed items of `other`. -/
def sync (log : Log α) (other : Log β) (key : α → κ) (otherKey : β → κ) : Nat :=
  sharedKeys (log.committed.map key) (other.committed.map otherKey)

end

/-! ## Logs without a future -/

theorem cursor_eq_size_iff {log : Log α} : log.cursor = log.size ↔ log.future = [] := by
  simp [cursor, size, items]

theorem eq_ofList {log : Log α} (h : log.future = []) : log = ofList log.committed := by
  cases log; cases h; rfl

/-! ## The views after each edit -/

@[simp] theorem committed_ofList (xs : List α) : (ofList xs).committed = xs := rfl

@[simp] theorem future_ofList (xs : List α) : (ofList xs).future = [] := rfl

@[simp] theorem committed_append (log : Log α) (x : α) :
    (log.append x).committed = log.committed ++ [x] := rfl

@[simp] theorem future_append (log : Log α) (x : α) : (log.append x).future = [] := rfl

@[simp] theorem committed_appendAll (log : Log α) (xs : List α) :
    (log.appendAll xs).committed = log.committed ++ xs := rfl

@[simp] theorem future_appendAll (log : Log α) (xs : List α) : (log.appendAll xs).future = [] :=
  rfl

@[simp] theorem committed_settle (log : Log α) : log.settle.committed = log.committed := rfl

@[simp] theorem future_settle (log : Log α) : log.settle.future = [] := rfl

@[simp] theorem committed_truncate (log : Log α) (n : Nat) :
    (log.truncate n).committed = log.items.take n := rfl

@[simp] theorem future_truncate (log : Log α) (n : Nat) : (log.truncate n).future = [] := rfl

@[simp] theorem items_seek (log : Log α) (n : Nat) : (log.seek n).items = log.items := by
  simp [seek, items]

/-- Rewinding loses nothing. -/
@[simp] theorem items_rewindWhile (log : Log α) (p : α → Bool) :
    (log.rewindWhile p).items = log.items := by
  have h := congrArg List.reverse
    (List.takeWhile_append_dropWhile (p := p) (l := log.committed.reverse))
  rw [List.reverse_append, List.reverse_reverse] at h
  simp only [rewindWhile, items, ← List.append_assoc, h]

theorem retreat_count (p : α → Bool) (n : Nat) (newest passed : List α) :
    retreat (fun n x => (p x, n + 1)) n newest passed
      = (n + (newest.take ((newest.takeWhile p).length + 1)).length, newest.dropWhile p,
          (newest.takeWhile p).reverse ++ passed) := by
  induction newest generalizing n passed with
  | nil => simp [retreat]
  | cons x rest ih =>
    simp only [retreat]
    cases h : p x with
    | true => simp [ih, h]; omega
    | false => simp [h]

/-- A predicate without memory moves the cursor as `rewindWhile` does, and is
    asked once for each item in `probed`. -/
theorem rewindWith_count (log : Log α) (p : α → Bool) :
    log.rewindWith (fun n x => (p x, n + 1)) 0 = ((log.probed p).length, log.rewindWhile p) := by
  simp [rewindWith, retreat_count, probed, rewindWhile]

end Log

end PhraseServer
