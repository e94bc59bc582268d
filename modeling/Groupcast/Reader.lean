import Groupcast.Bytes

/-!
# Reading byte strings

A `Reader α` consumes a prefix of a byte string.  It either yields a value or names the reason
why the input is not well formed, and in both cases hands back what it has not consumed.
The reading of a composed reader is described by `bind_ok`: it succeeds exactly if
both parts do, the second one on what the first one left.
-/

namespace Groupcast

/-- Why a byte string is not a well-formed message. -/
inductive DecodeError where
  /-- A part of `needed` bytes was due where only `available` were left. -/
  | truncated (needed available : Nat)
  /-- The first word of a message is none of the kind codes. -/
  | unknownKind (code : UInt32)
  /-- The first word of an agreement message is none of its tags. -/
  | unknownTag (tag : UInt32)
  /-- A complete message is followed by `count` more bytes. -/
  | trailing (count : Nat)
  deriving Repr, DecidableEq

/-- The text shown for a decoding error. -/
def DecodeError.message : DecodeError → String
  | .truncated needed available =>
      s!"truncated input: needed {needed} bytes, had {available}"
  | .unknownKind code => s!"unknown message kind {code}"
  | .unknownTag tag => s!"unknown agreement message tag {tag}"
  | .trailing count => s!"{count} trailing bytes after message"

/-- The outcome of reading: a value or an error, and the bytes that were not consumed. -/
inductive Reading (α : Type) where
  | ok (value : α) (rest : Bytes)
  | error (cause : DecodeError) (rest : Bytes)
  deriving Repr, DecidableEq

/-- The outcome without the remaining bytes. -/
def Reading.toExcept {α : Type} : Reading α → Except DecodeError α
  | .ok value _ => .ok value
  | .error cause _ => .error cause

/-- The bytes that were not consumed. -/
def Reading.rest {α : Type} : Reading α → Bytes
  | .ok _ rest => rest
  | .error _ rest => rest

/-- A computation that consumes a prefix of a byte string. -/
def Reader (α : Type) := Bytes → Reading α

namespace Reader

variable {α β : Type}

/-- Applies a reader to a byte string. -/
def run (r : Reader α) (bytes : Bytes) : Reading α := r bytes

instance : Monad Reader where
  pure a := fun bytes => .ok a bytes
  bind r f := fun bytes =>
    match r bytes with
    | .ok a rest => f a rest
    | .error cause rest => .error cause rest

/-- Fails with `cause`, consuming nothing. -/
def fail (cause : DecodeError) : Reader α := fun bytes => .error cause bytes

/-- Demands that `n` bytes are left, consuming nothing. -/
def require (n : Nat) : Reader Unit := fun bytes =>
  if bytes.atLeast n then .ok () bytes else .error (.truncated n bytes.length) bytes

/-- Consumes one word. -/
def word : Reader UInt32
  | a :: b :: c :: d :: rest => .ok (Bytes.toWord a b c d) rest
  | bytes => .error (.truncated 4 bytes.length) bytes

/-- Consumes exactly `n` bytes. -/
def exactly (n : Nat) : Reader Bytes := fun bytes =>
  if bytes.atLeast n then .ok (bytes.take n) (bytes.drop n)
  else .error (.truncated n bytes.length) bytes

/-- Consumes everything that is left. -/
def remaining : Reader Bytes := fun bytes => .ok bytes []

/-- Demands that nothing is left. -/
def done : Reader Unit := fun bytes =>
  if bytes.isEmpty then .ok () bytes else .error (.trailing bytes.length) bytes

/-- Applies a reader `n` times and lists the values in the order read. -/
def times (r : Reader α) : Nat → Reader (List α)
  | 0 => pure []
  | n + 1 => do
      let value ← r
      let values ← times r n
      pure (value :: values)

/-- Reads `bytes` by `r` as a complete string of its own, inside another reader. -/
def within (bytes : Bytes) (r : Reader α) : Reader α := fun rest =>
  match r bytes with
  | .ok value _ => .ok value rest
  | .error cause _ => .error cause rest

@[simp] theorem pure_run (a : α) (bytes : Bytes) : (pure a : Reader α) bytes = .ok a bytes := rfl

theorem bind_run (r : Reader α) (f : α → Reader β) (bytes : Bytes) :
    (r >>= f) bytes = match r bytes with
      | .ok a rest => f a rest
      | .error cause rest => .error cause rest := rfl

theorem bind_ok {r : Reader α} {f : α → Reader β} {bytes rest : Bytes} {b : β} :
    (r >>= f) bytes = .ok b rest ↔
      ∃ a middle, r bytes = .ok a middle ∧ f a middle = .ok b rest := by
  rw [bind_run]
  cases r bytes with
  | ok a middle => simp [and_assoc]
  | error cause middle => simp

theorem require_ok {n : Nat} {bytes rest : Bytes} :
    require n bytes = .ok () rest ↔ n ≤ bytes.length ∧ rest = bytes := by
  rw [require]
  split <;> rename_i h <;> rw [Bytes.atLeast_eq_true] at h
  · simp only [Reading.ok.injEq, true_and, h]
    exact eq_comm
  · simp [h]

theorem word_ok {bytes rest : Bytes} {w : UInt32} :
    word bytes = .ok w rest ↔ bytes = Bytes.ofWord w ++ rest := by
  constructor
  · intro h
    match bytes, h with
    | a :: b :: c :: d :: tail, h =>
      simp only [word, Reading.ok.injEq] at h
      rw [← h.1, ← h.2, Bytes.ofWord_toWord]
      rfl
  · rintro rfl
    simp only [Bytes.ofWord, List.cons_append, List.nil_append, word, Bytes.toWord_ofWord]

theorem exactly_ok {n : Nat} {bytes part rest : Bytes} :
    exactly n bytes = .ok part rest ↔ bytes = part ++ rest ∧ part.length = n := by
  rw [exactly]
  split
  · rename_i h
    rw [Bytes.atLeast_eq_true] at h
    constructor
    · intro e
      simp only [Reading.ok.injEq] at e
      rw [← e.1, ← e.2, List.take_append_drop, List.length_take]
      exact ⟨rfl, Nat.min_eq_left h⟩
    · rintro ⟨rfl, rfl⟩
      simp
  · rename_i h
    rw [Bytes.atLeast_eq_true] at h
    simp only [reduceCtorEq, false_iff, not_and]
    rintro rfl hn
    simp at h
    omega

end Reader

end Groupcast
