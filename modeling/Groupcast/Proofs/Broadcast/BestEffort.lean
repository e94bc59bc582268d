import Groupcast.Broadcast.BestEffort
import Groupcast.Proofs.Link.Batch

/-!
# What gets through a best-effort broadcast

The protocols above take in a message in two steps: the links pass it on, or do not, and then its
payload is decoded, or is not.  What is left of the two is `BestEffort.heard`.
-/

namespace Groupcast.BestEffort

variable {α ε : Type} {b : BestEffort} {decode : Bytes → Except ε α} {sender : HostId} {m : Message}

/-- What a message of a member holds, if it gets through. -/
def heard (b : BestEffort) (decode : Bytes → Except ε α) (sender : HostId) (m : Message) :
    Option α :=
  match (b.deliver sender m).result with
  | none => none
  | some m => (decode m.payload).toOption

/-- A message does not get through, or holds nothing, or is heard. -/
theorem heard_cases (b : BestEffort) (decode : Bytes → Except ε α) (sender : HostId) (m : Message) :
    (b.deliver sender m).result = none ∧ b.heard decode sender m = none ∨
      (b.deliver sender m).result = some m ∧
        ((∃ e, decode m.payload = .error e) ∧ b.heard decode sender m = none ∨
          ∃ a, decode m.payload = .ok a ∧ b.heard decode sender m = some a) := by
  simp only [heard]
  cases hresult : (b.deliver sender m).result with
  | none => exact Or.inl ⟨rfl, rfl⟩
  | some m' =>
    obtain ⟨rfl, -⟩ := Links.eq_of_deliver_result hresult
    refine Or.inr ⟨rfl, ?_⟩
    cases hdecode : decode m'.payload with
    | error e => exact Or.inl ⟨⟨e, rfl⟩, by simp only [hdecode, Except.toOption]⟩
    | ok a => exact Or.inr ⟨a, rfl, by simp only [hdecode, Except.toOption]⟩

theorem heard_eq_some {a : α} : b.heard decode sender m = some a ↔
    (b.deliver sender m).result = some m ∧ decode m.payload = .ok a := by
  rcases b.heard_cases decode sender m with ⟨hresult, h⟩ | ⟨hresult, ⟨⟨e, hdecode⟩, h⟩ |
    ⟨a', hdecode, h⟩⟩
  · simp [h, hresult]
  · simp [h, hdecode]
  · simp [h, hresult, hdecode]

/-- Nothing is heard in an acknowledgement. -/
theorem kind_ne_ack_of_heard {a : α} (h : b.heard decode sender m = some a) : m.kind ≠ .ack :=
  (Links.eq_of_deliver_result (heard_eq_some.mp h).1).2

end Groupcast.BestEffort
