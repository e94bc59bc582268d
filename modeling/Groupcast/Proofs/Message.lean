import Groupcast.Message
import Groupcast.Proofs.Reader

/-!
# What can be read back from a message

The encoding of a message decodes to that message, and so no two messages have the same encoding
(`encode_injective`).  An acknowledgement names the id of the message that it is for
(`ackedId_ack`).

A message is framed by its length, which has to fit into a word (`Message.Fits`).  Framed messages
are read exactly as they are written (`readFramed_exact`), one by one and one after the other, and
`decode_exact` says all of this at once: the wire form is a bijection onto the strings that have a
header and begin with the code of a kind.
-/

namespace Groupcast

/-- What is neither control traffic nor an acknowledgement is data. -/
theorem Kind.eq_data {k : Kind} (hcontrol : k.isControl = false) (hack : k ≠ .ack) :
    k = .data := by
  cases k with
  | data => rfl
  | ack => exact absurd rfl hack
  | heartbeat | heartbeatAck => cases hcontrol

/-- The codes of the kinds are the words up to three. -/
theorem Kind.exists_code_iff {w : UInt32} : (∃ k : Kind, w = k.code) ↔ w ≤ 3 := by
  constructor
  · rintro ⟨k, rfl⟩
    cases k <;> decide
  · intro h
    have hle : w.toNat ≤ 3 := UInt32.le_iff_toNat_le.mp h
    rcases (by omega : w.toNat = 0 ∨ w.toNat = 1 ∨ w.toNat = 2 ∨ w.toNat = 3) with
      hw | hw | hw | hw
    · exact ⟨.ack, UInt32.toNat_inj.mp hw⟩
    · exact ⟨.data, UInt32.toNat_inj.mp hw⟩
    · exact ⟨.heartbeat, UInt32.toNat_inj.mp hw⟩
    · exact ⟨.heartbeatAck, UInt32.toNat_inj.mp hw⟩

namespace Message

@[simp] theorem decode_encode (m : Message) : decode m.encode = .ok m := decode_eq_ok_iff.mpr rfl

/-- Messages with one encoding are one message. -/
theorem encode_injective {m m' : Message} (h : m.encode = m'.encode) : m = m' := by
  have hdecode := decode_encode m
  rw [h, decode_encode] at hdecode
  injection hdecode with heq
  exact heq.symm

@[simp] theorem encode_inj {m m' : Message} : m.encode = m'.encode ↔ m = m' :=
  ⟨encode_injective, fun h => h ▸ rfl⟩

/-- An acknowledgement names the id of the message that it is for. -/
@[simp] theorem ackedId_ack (m : Message) (self : HostId) : (m.ack self).ackedId = .ok m.id := by
  have hread : Reader.word (Bytes.ofWord m.id) = .ok m.id [] :=
    Reader.word_ok.mpr (List.append_nil _).symm
  show (Reader.word (Bytes.ofWord m.id)).toExcept = .ok m.id
  rw [hread]
  rfl

@[simp] theorem kind_ack (m : Message) (self : HostId) : (m.ack self).kind = .ack := rfl

/-- **What can be decoded** is what has a header that begins with the code of a kind. -/
theorem exists_decode_iff {bytes : Bytes} : (∃ m, decode bytes = .ok m) ↔
    headerLength ≤ bytes.length ∧ ∃ code rest, bytes = Bytes.ofWord code ++ rest ∧ code ≤ 3 := by
  simp only [decode_eq_ok_iff]
  constructor
  · rintro ⟨m, rfl⟩
    have hcode : m.kind.code ≤ 3 := Kind.exists_code_iff.mp ⟨m.kind, rfl⟩
    exact ⟨by simp [encodedLength], m.kind.code, _, by simp only [encode, List.append_assoc]; rfl,
      hcode⟩
  · rintro ⟨hlength, code, rest, rfl, hcode⟩
    obtain ⟨kind, rfl⟩ := Kind.exists_code_iff.mpr hcode
    rw [List.length_append, Bytes.length_ofWord, headerLength] at hlength
    obtain ⟨sender, rest, rfl⟩ := Bytes.exists_word (show 4 ≤ rest.length by omega)
    rw [List.length_append, Bytes.length_ofWord] at hlength
    obtain ⟨receiver, rest, rfl⟩ := Bytes.exists_word (show 4 ≤ rest.length by omega)
    rw [List.length_append, Bytes.length_ofWord] at hlength
    obtain ⟨id, rest, rfl⟩ := Bytes.exists_word (show 4 ≤ rest.length by omega)
    rw [List.length_append, Bytes.length_ofWord] at hlength
    obtain ⟨seq, payload, rfl⟩ := Bytes.exists_word (show 4 ≤ rest.length by omega)
    exact ⟨{ kind, sender, receiver, id, seq, payload }, by simp only [encode, List.append_assoc]⟩

/-! ## Framed messages -/

/-- The length of the encoding fits into the word that frames it. -/
def Fits (m : Message) : Prop := m.encodedLength < UInt32.size

instance (m : Message) : Decidable m.Fits := inferInstanceAs (Decidable (_ < _))

theorem length_encodeFramed (m : Message) : m.encodeFramed.length = 4 + m.encodedLength := by
  simp [encodeFramed]

theorem within_read_ok {body bytes rest : Bytes} {m : Message} :
    Reader.within body read bytes = .ok m rest ↔ body = m.encode ∧ rest = bytes := by
  rw [Reader.within]
  cases h : read body with
  | ok m' left =>
    obtain ⟨rfl, rfl⟩ := read_ok.mp h
    simp only [Reading.ok.injEq, encode_inj]
    exact and_congr_right fun _ => eq_comm
  | error cause left =>
    simp only [reduceCtorEq, false_iff, not_and]
    rintro rfl
    rw [read_ok.mpr ⟨rfl, rfl⟩] at h
    cases h

/-- **A framed message is read exactly**, if its length fits into a word. -/
theorem readFramed_exact : readFramed.Exact Fits encodeFramed := by
  intro m bytes rest
  simp only [readFramed, Reader.bind_ok, Reader.word_ok, Reader.exactly_ok, within_read_ok,
    encodeFramed, List.append_assoc]
  constructor
  · rintro ⟨length, _, rfl, body, _, ⟨rfl, hlength⟩, rfl, rfl⟩
    rw [length_encode] at hlength
    refine ⟨?_, ?_⟩
    · rw [Fits, hlength]
      exact length.toNat_lt
    · rw [hlength, UInt32.ofNat_toNat]
  · rintro ⟨hfits, rfl⟩
    refine ⟨_, _, rfl, _, _, ⟨rfl, ?_⟩, rfl, rfl⟩
    rw [length_encode, UInt32.toNat_ofNat_of_lt' hfits]

/-- Nothing is read of no bytes, and no message is framed by none. -/
theorem readEachFramed_nil_iff (n : Nat) {ms : List Message} :
    (readEachFramed n []).map Reading.toExcept = ms.map .ok ↔ [] = ms.flatMap encodeFramed := by
  have hnil : readEachFramed n [] = [] := by cases n <;> rfl
  cases ms with
  | nil => simp [hnil]
  | cons m ms => simp [hnil, encodeFramed, Bytes.ofWord]

theorem readEachFramed_succ {n : Nat} {bytes : Bytes} (h : bytes ≠ []) :
    readEachFramed (n + 1) bytes = match readFramed bytes with
      | .ok m rest => .ok m rest :: readEachFramed n rest
      | .error cause rest => [.error cause rest] := by
  cases bytes with
  | nil => exact absurd rfl h
  | cons b bytes => rfl

/-- Framed messages are read one after the other exactly as they were written. -/
theorem readEachFramed_eq_iff {n : Nat} {bytes : Bytes} {ms : List Message}
    (hn : bytes.length ≤ n) (hms : ∀ m ∈ ms, m.Fits) :
    (readEachFramed n bytes).map Reading.toExcept = ms.map .ok ↔
      bytes = ms.flatMap encodeFramed := by
  induction n generalizing bytes ms with
  | zero =>
    obtain rfl := List.length_eq_zero_iff.mp (Nat.le_zero.mp hn)
    exact readEachFramed_nil_iff 0
  | succ n ih =>
    by_cases hnil : bytes = []
    · rw [hnil]
      exact readEachFramed_nil_iff (n + 1)
    rw [readEachFramed_succ hnil]
    constructor
    · intro h
      cases hread : readFramed bytes with
      | error cause rest =>
        rw [hread] at h
        cases ms with
        | nil => cases h
        | cons m ms => simp [Reading.toExcept] at h
      | ok m rest =>
        rw [hread] at h
        obtain ⟨-, rfl⟩ := (readFramed_exact m bytes rest).mp hread
        cases ms with
        | nil => cases h
        | cons m' ms =>
          rw [List.map_cons, List.map_cons, List.cons.injEq] at h
          obtain ⟨rfl⟩ := h.1
          rw [List.flatMap_cons, (ih ?_ (List.forall_mem_cons.mp hms).2).mp h.2]
          rw [List.length_append, length_encodeFramed] at hn
          omega
    · rintro rfl
      cases ms with
      | nil => exact absurd rfl hnil
      | cons m ms =>
        obtain ⟨hm, hms⟩ := List.forall_mem_cons.mp hms
        rw [List.flatMap_cons, readFramed_exact.read_append hm, List.map_cons, List.map_cons]
        rw [List.flatMap_cons, List.length_append, length_encodeFramed] at hn
        rw [(ih (by omega) hms).mpr rfl]
        rfl

/-- **The wire form of messages is exact.**  Of all byte strings:

* those that decode to a message are the encoding of that message and nothing else;
* those that decode at all have the bytes of a header and begin with a word up to three;
* those from which a framed message of less than `2 ^ 32` bytes is read are its frame followed by
  what is left;
* those whose framed messages, read one after the other up to the end, are the messages of a list
  are the frames of these one after the other. -/
theorem decode_exact (bytes : Bytes) :
    (∀ m, decode bytes = .ok m ↔ bytes = m.encode) ∧
    ((∃ m, decode bytes = .ok m) ↔
      headerLength ≤ bytes.length ∧ ∃ code rest, bytes = Bytes.ofWord code ++ rest ∧ code ≤ 3) ∧
    (∀ m : Message, m.encodedLength < UInt32.size →
      ∀ rest, readFramed bytes = .ok m rest ↔ bytes = m.encodeFramed ++ rest) ∧
    ∀ ms : List Message, (∀ m ∈ ms, m.encodedLength < UInt32.size) →
      ((readAllFramed bytes).map Reading.toExcept = ms.map .ok ↔
        bytes = ms.flatMap encodeFramed) := by
  refine ⟨fun m => decode_eq_ok_iff, exists_decode_iff, fun m hm rest => ?_, fun ms hms => ?_⟩
  · rw [readFramed_exact m bytes rest]
    exact and_iff_right hm
  · exact readEachFramed_eq_iff (Nat.le_refl _) hms

/-- A message of one letter and one of two, framed one after the other. -/
def letterFrames : Bytes :=
  [0, 0, 0, 21, 0, 0, 0, 1, 0, 0, 0, 1, 0, 0, 0, 0, 0, 0, 0, 0, 0, 0, 0, 1, 97,
    0, 0, 0, 22, 0, 0, 0, 1, 0, 0, 0, 2, 0, 0, 0, 0, 0, 0, 0, 0, 0, 0, 0, 2, 98, 98]

/-- Of the frames of two messages the first is read and leaves the other, and both are read one
after the other. -/
theorem decode_exact_letterFrames :
    (∀ m ∈ [ofData 1 1 [97], ofData 2 2 [98, 98]], m.encodedLength < UInt32.size) ∧
    readFramed letterFrames = .ok (ofData 1 1 [97]) (letterFrames.drop 25) ∧
    (readAllFramed letterFrames).map Reading.toExcept =
      [ofData 1 1 [97], ofData 2 2 [98, 98]].map .ok := by
  have hshort : ∀ m ∈ [ofData 1 1 [97], ofData 2 2 [98, 98]], m.encodedLength < UInt32.size := by
    decide
  refine ⟨hshort, ?_, ?_⟩
  · exact ((decode_exact _).2.2.1 _ (hshort _ List.mem_cons_self) _).mpr (by decide)
  · exact ((decode_exact _).2.2.2 _ hshort).mpr (by decide)

end Message

end Groupcast
