import Groupcast.Reader

/-!
# Messages

The unit that every layer of a node exchanges, and its wire form: a header of five words
(kind, sender, receiver, link id, sequence number) and then the payload, which runs to the end of
the datagram.  Inside another payload a message is *framed*: its length comes first.

`decode_eq_ok_iff` says that the wire form is exact: a byte string decodes to a message if and
only if it is the encoding of that message.
-/

namespace Groupcast

/-- The number of a host.  Members of a group have positive numbers. -/
abbrev HostId := UInt32

/-- The number that stands for "no host". -/
def HostId.none : HostId := 0

/-- What a message is for. -/
inductive Kind where
  /-- Acknowledges a data message. -/
  | ack
  /-- Carries data of a layer above the links. -/
  | data
  /-- Asks a peer to show that it is alive. -/
  | heartbeat
  /-- Answers a heartbeat. -/
  | heartbeatAck
  deriving Repr, DecidableEq

namespace Kind

/-- The word that stands for a kind on the wire. -/
def code : Kind → UInt32
  | ack => 0
  | data => 1
  | heartbeat => 2
  | heartbeatAck => 3

/-- The kind that a word stands for. -/
def ofCode? (w : UInt32) : Option Kind :=
  if w = 0 then some ack
  else if w = 1 then some data
  else if w = 2 then some heartbeat
  else if w = 3 then some heartbeatAck
  else none

/-- Heartbeats and their answers belong to the failure detector, all else to the protocol. -/
def isControl : Kind → Bool
  | ack | data => false
  | heartbeat | heartbeatAck => true

/-- The name of a kind as it is shown in a message's summary. -/
def name : Kind → String
  | ack => "Ack"
  | data => "Data"
  | heartbeat => "Heartbeat"
  | heartbeatAck => "HeartbeatAck"

theorem ofCode?_eq_some_iff {w : UInt32} {k : Kind} : ofCode? w = some k ↔ w = k.code := by
  constructor
  · intro h
    simp only [ofCode?] at h
    split at h
    · cases h; assumption
    split at h
    · cases h; assumption
    split at h
    · cases h; assumption
    split at h
    · cases h; assumption
    · cases h
  · rintro rfl
    cases k <;> rfl

end Kind

/-- A message.  The link that sends it stamps `id`; `seq` belongs to the layer it comes from. -/
structure Message where
  kind : Kind
  sender : HostId
  receiver : HostId
  id : UInt32
  seq : UInt32
  payload : Bytes
  deriving Repr, DecidableEq

namespace Message

/-- The number of bytes before the payload. -/
def headerLength : Nat := 20

/-- The largest payload of a datagram over the fourth version of the internet protocol. -/
def maxDatagramLength : Nat := 65507

/-- A data message that has no receiver and no link id yet. -/
def ofData (sender : HostId) (seq : UInt32) (payload : Bytes) : Message where
  kind := .data
  sender := sender
  receiver := HostId.none
  id := 0
  seq := seq
  payload := payload

/-- A heartbeat that has no receiver and no link id yet. -/
def ofHeartbeat (sender : HostId) : Message where
  kind := .heartbeat
  sender := sender
  receiver := HostId.none
  id := 0
  seq := 0
  payload := []

/-- The acknowledgement of a message by the host `self`. -/
def ack (m : Message) (self : HostId) : Message where
  kind := .ack
  sender := self
  receiver := m.sender
  id := m.id
  seq := m.seq
  payload := Bytes.ofWord m.id

/-- The answer of the host `self` to a heartbeat. -/
def heartbeatAck (m : Message) (self : HostId) : Message where
  kind := .heartbeatAck
  sender := self
  receiver := m.sender
  id := 0
  seq := 0
  payload := Bytes.ofWord m.id

/-- The id that an acknowledgement names: the first word of its payload. -/
def ackedId (m : Message) : Except DecodeError UInt32 :=
  (Reader.word m.payload).toExcept

/-- The length of the encoding. -/
def encodedLength (m : Message) : Nat := headerLength + m.payload.length

/-- The wire form. -/
def encode (m : Message) : Bytes :=
  Bytes.ofWord m.kind.code ++ Bytes.ofWord m.sender ++ Bytes.ofWord m.receiver ++
    Bytes.ofWord m.id ++ Bytes.ofWord m.seq ++ m.payload

/-- Reads the kind of a message. -/
def readKind : Reader Kind := do
  let code ← Reader.word
  match Kind.ofCode? code with
  | some kind => pure kind
  | none => Reader.fail (.unknownKind code)

/-- Reads a message that runs to the end of the input. -/
def read : Reader Message := do
  Reader.require headerLength
  let kind ← readKind
  let sender ← Reader.word
  let receiver ← Reader.word
  let id ← Reader.word
  let seq ← Reader.word
  let payload ← Reader.remaining
  pure { kind, sender, receiver, id, seq, payload }

/-- The message that a whole datagram holds. -/
def decode (bytes : Bytes) : Except DecodeError Message := (read bytes).toExcept

/-- The form in which a message is nested in a payload: its length, then its encoding. -/
def encodeFramed (m : Message) : Bytes :=
  Bytes.ofWord (UInt32.ofNat m.encodedLength) ++ m.encode

/-- Reads one framed message.  A body that is no message is consumed all the same. -/
def readFramed : Reader Message := do
  let length ← Reader.word
  let body ← Reader.exactly length.toNat
  Reader.within body read

/-- The one-line summary of a message. -/
def summary (m : Message) : String :=
  let kind := m.kind.name
  let length := m.payload.length
  s!"{kind} #{m.id} {m.sender}->{m.receiver} seq {m.seq} ({length} bytes)"

/-- Reads at most `n` framed messages, up to the end of the input or the first malformed one. -/
def readEachFramed : Nat → Bytes → List (Reading Message)
  | 0, _ | _, [] => []
  | n + 1, bytes =>
    match readFramed bytes with
    | .ok m rest => .ok m rest :: readEachFramed n rest
    | .error cause rest => [.error cause rest]

/-- Reads framed messages up to the end of the input or the first malformed one, and lists the
outcome of each.  A framed message has a byte at least, so there are no more than bytes. -/
def readAllFramed (bytes : Bytes) : List (Reading Message) := readEachFramed bytes.length bytes

@[simp] theorem length_encode (m : Message) : m.encode.length = m.encodedLength := by
  simp [encode, encodedLength, headerLength]
  omega

theorem readKind_ok {bytes rest : Bytes} {k : Kind} :
    readKind bytes = .ok k rest ↔ bytes = Bytes.ofWord k.code ++ rest := by
  rw [readKind, Reader.bind_ok]
  constructor
  · rintro ⟨w, middle, hw, h⟩
    rw [Reader.word_ok] at hw
    cases hk : Kind.ofCode? w with
    | none => simp [hk, Reader.fail] at h
    | some k' =>
      simp only [hk, Reader.pure_run, Reading.ok.injEq] at h
      rw [hw, Kind.ofCode?_eq_some_iff.mp hk, h.1, h.2]
  · rintro rfl
    exact ⟨k.code, rest, Reader.word_ok.mpr rfl, by simp [Kind.ofCode?_eq_some_iff.mpr rfl]⟩

theorem read_ok {bytes rest : Bytes} {m : Message} :
    read bytes = .ok m rest ↔ bytes = m.encode ∧ rest = [] := by
  simp only [read, Reader.bind_ok, Reader.pure_run, readKind_ok, Reader.word_ok, Reader.remaining,
    Reading.ok.injEq]
  constructor
  · rintro ⟨_, _, hrequire, kind, _, hkind, sender, _, rfl, receiver, _, rfl, id, _, rfl, seq, _,
      rfl, payload, _, ⟨rfl, rfl⟩, rfl, rfl⟩
    rw [Reader.require_ok] at hrequire
    rw [hrequire.2] at hkind
    simp [hkind, encode]
  · rintro ⟨rfl, rfl⟩
    exact ⟨(), m.encode, by rw [Reader.require_ok]; simp [encodedLength], m.kind, _,
      by simp only [encode, List.append_assoc], m.sender, _, rfl, m.receiver, _, rfl, m.id, _,
      rfl, m.seq, _, rfl, m.payload, [], ⟨rfl, rfl⟩, rfl, rfl⟩

theorem decode_eq_ok_iff {bytes : Bytes} {m : Message} :
    decode bytes = .ok m ↔ bytes = m.encode := by
  rw [decode]
  cases h : read bytes with
  | ok m' rest =>
    rw [read_ok] at h
    simp only [Reading.toExcept, Except.ok.injEq]
    constructor
    · rintro rfl
      exact h.1
    · intro e
      have : read bytes = .ok m [] := read_ok.mpr ⟨e, rfl⟩
      rw [read_ok.mpr h] at this
      injection this
  | error cause rest =>
    simp only [Reading.toExcept, reduceCtorEq, false_iff]
    intro e
    have : read bytes = .ok m [] := read_ok.mpr ⟨e, rfl⟩
    rw [h] at this
    cases this

end Message

end Groupcast
