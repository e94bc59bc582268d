import Groupcast.Agreement.Message
import Groupcast.Proofs.Reader
import Groupcast.Proofs.Tables
import Mathlib.Data.List.Sort

/-!
# What can be read back from an agreement message

On the wire the values of a message are listed.  The listing that an encoding has is in ascending
order, but what is read may list them in any order and more than once: it is a `Spelling` of the
message, and the payloads that decode are exactly the bytes of spellings (`decode_ok`).  A spelling
is the encoding of its message exactly if its values ascend (`Spelling.encode_message_iff`).

A payload that decodes at all decodes to what was encoded (`eq_of_decode_encode`).  That it decodes
is another matter: the number of values is a word, and a set of all values there are has one more
than the greatest word.  Such a message is dropped, and no other one is taken for it.
-/

namespace Groupcast

/-! ## Lists of words -/

@[simp] theorem Bytes.length_flatMap_ofWord (ws : List UInt32) :
    (ws.flatMap ofWord).length = 4 * ws.length := by
  induction ws with
  | nil => rfl
  | cons w ws ih =>
    rw [List.flatMap_cons, List.length_append, length_ofWord, ih, List.length_cons]
    omega

theorem Bytes.flatMap_ofWord_inj {vs ws : List UInt32} :
    vs.flatMap ofWord = ws.flatMap ofWord ↔ vs = ws := by
  constructor
  · intro h
    have hlength := congrArg List.length h
    rw [length_flatMap_ofWord, length_flatMap_ofWord] at hlength
    have happend : vs.flatMap ofWord ++ [] = ws.flatMap ofWord ++ [] := by rw [h]
    have hexact := Reader.word_exact.times ws.length
    exact (hexact.eq_of_append ⟨by omega, fun _ _ => trivial⟩ ⟨rfl, fun _ _ => trivial⟩ happend).1
  · rintro rfl
    rfl

/-- Bytes by fours are a list of words. -/
theorem Bytes.exists_words {n : Nat} {bytes : Bytes} (h : bytes.length = 4 * n) :
    ∃ ws : List UInt32, ws.length = n ∧ bytes = ws.flatMap ofWord := by
  induction n generalizing bytes with
  | zero => exact ⟨[], rfl, List.length_eq_zero_iff.mp h⟩
  | succ n ih =>
    obtain ⟨w, rest, rfl⟩ := exists_word (show 4 ≤ bytes.length by omega)
    rw [List.length_append, length_ofWord] at h
    obtain ⟨ws, rfl, rfl⟩ := ih (show rest.length = 4 * n by omega)
    exact ⟨w :: ws, rfl, rfl⟩

/-! ## Value sets and their listings -/

namespace ValueSet

theorem ofList_toList (values : ValueSet) : ofList values.toList = values := by
  refine Std.ExtTreeSet.ext_mem fun v => ?_
  rw [mem_ofList, Std.ExtTreeSet.mem_toList]

/-- A set lists its values as they were listed exactly if these ascend. -/
theorem toList_ofList_eq_iff {listed : List Value} :
    (ofList listed).toList = listed ↔ listed.Pairwise (· < ·) := by
  constructor
  · intro h
    rw [← h]
    exact Tables.ascending_keys _
  · intro h
    refine (Tables.ascending_keys _).eq_of_mem_iff h fun v => ?_
    rw [Std.ExtTreeSet.mem_toList, mem_ofList]

end ValueSet

namespace AgreementMessage

/-- The values that a message carries. -/
def values : AgreementMessage → ValueSet
  | propose p | nack p => p.values
  | ack _ _ => ∅

theorem length_encodeValues {listed : List Value} (h : listed.length < UInt32.size) :
    (encodeValues listed).length = 4 + 4 * (UInt32.ofNat listed.length).toNat := by
  rw [encodeValues, List.length_append, Bytes.length_ofWord, Bytes.length_flatMap_ofWord,
    UInt32.toNat_ofNat_of_lt' h]

theorem encodeValues_inj {vs ws : List Value} : encodeValues vs = encodeValues ws ↔ vs = ws := by
  rw [encodeValues, encodeValues, Bytes.ofWord_append_inj, Bytes.flatMap_ofWord_inj]
  exact and_iff_right_of_imp fun h => h ▸ rfl

theorem readValues_ok {bytes rest : Bytes} {values : ValueSet} :
    readValues bytes = .ok values rest ↔ ∃ listed : List Value, listed.length < UInt32.size ∧
      values = .ofList listed ∧ bytes = encodeValues listed ++ rest := by
  simp only [readValues, Reader.bind_ok, Reader.pure_run, Reader.word_ok,
    Reader.word_exact.times _ _, Reading.ok.injEq]
  constructor
  · rintro ⟨_, bytes, hrequire, count, items, rfl, _, items', hrequire', listed, _,
      ⟨⟨hlength, -⟩, rfl⟩, rfl, rfl⟩
    obtain ⟨-, rfl⟩ := Reader.require_ok.mp hrequire
    obtain ⟨-, rfl⟩ := Reader.require_ok.mp hrequire'
    refine ⟨listed, hlength ▸ count.toNat_lt, rfl, ?_⟩
    rw [encodeValues, hlength, UInt32.ofNat_toNat, List.append_assoc]
  · rintro ⟨listed, hfits, rfl, rfl⟩
    have hlength : (UInt32.ofNat listed.length).toNat = listed.length :=
      UInt32.toNat_ofNat_of_lt' hfits
    refine ⟨(), _, Reader.require_ok.mpr ⟨?_, rfl⟩, .ofNat listed.length,
      listed.flatMap Bytes.ofWord ++ rest, List.append_assoc .., (), _,
      Reader.require_ok.mpr ⟨?_, rfl⟩, listed, rest, ⟨⟨hlength.symm, fun _ _ => trivial⟩, rfl⟩,
      rfl, rfl⟩
    · rw [encodeValues, List.append_assoc, List.length_append, Bytes.length_ofWord]
      omega
    · rw [hlength, List.length_append, Bytes.length_flatMap_ofWord]
      omega

/-! ## Spellings -/

/-- A message with its values as they are listed on the wire: in any order, and more than once. -/
inductive Spelling where
  | propose (round : UInt32) (slot : Slot) (listed : List Value)
  | ack (round : UInt32) (slot : Slot)
  | nack (round : UInt32) (slot : Slot) (listed : List Value)

namespace Spelling

/-- The values as they are listed. -/
def listed : Spelling → List Value
  | propose _ _ listed | nack _ _ listed => listed
  | ack _ _ => []

/-- The message that is spelled. -/
def message : Spelling → AgreementMessage
  | propose round slot listed => .propose { round, slot, values := .ofList listed }
  | ack round slot => .ack round slot
  | nack round slot listed => .nack { round, slot, values := .ofList listed }

/-- The bytes after the tag, the round and the slot. -/
def body : Spelling → Bytes
  | propose _ _ listed | nack _ _ listed => encodeValues listed
  | ack _ _ => []

/-- The spelling as it is written. -/
def bytes (s : Spelling) : Bytes :=
  Bytes.ofWord s.message.tag ++ Bytes.ofWord s.message.round ++ Bytes.ofWord s.message.slot ++
    s.body

/-- The number of listed values fits into the word that counts them. -/
def Fits (s : Spelling) : Prop := s.listed.length < UInt32.size

instance (s : Spelling) : Decidable s.Fits := inferInstanceAs (Decidable (_ < _))

/-- The spelling in which a message is encoded. -/
def ofMessage : AgreementMessage → Spelling
  | .propose p => propose p.round p.slot p.values.toList
  | .ack round slot => ack round slot
  | .nack p => nack p.round p.slot p.values.toList

theorem fits_ack (round : UInt32) (slot : Slot) : (ack round slot).Fits :=
  show 0 < UInt32.size by decide

theorem bytes_append (s : Spelling) (rest : Bytes) :
    s.bytes ++ rest = Bytes.ofWord s.message.tag ++
      (Bytes.ofWord s.message.round ++ (Bytes.ofWord s.message.slot ++ (s.body ++ rest))) := by
  simp only [bytes, List.append_assoc]

theorem length_bytes (s : Spelling) : s.bytes.length = 12 + s.body.length := by
  simp only [bytes, List.length_append, Bytes.length_ofWord]

theorem mem_values_message (s : Spelling) (v : Value) : v ∈ s.message.values ↔ v ∈ s.listed := by
  cases s with
  | propose | nack => exact ValueSet.mem_ofList
  | ack => exact iff_of_false Std.ExtTreeSet.not_mem_empty List.not_mem_nil

@[simp] theorem message_ofMessage (m : AgreementMessage) : (ofMessage m).message = m := by
  cases m with
  | propose p | nack p => rw [ofMessage, message, ValueSet.ofList_toList]
  | ack => rfl

theorem listed_ofMessage (m : AgreementMessage) : (ofMessage m).listed = m.values.toList := by
  cases m with
  | propose | nack => rfl
  | ack => simp [listed, ofMessage, values]

theorem bytes_ofMessage (m : AgreementMessage) : (ofMessage m).bytes = m.encode := by
  rw [bytes, message_ofMessage]
  cases m <;> rfl

/-- Different spellings are written differently. -/
theorem bytes_inj {s s' : Spelling} : s.bytes = s'.bytes ↔ s = s' := by
  constructor
  · intro h
    simp only [bytes, List.append_assoc, Bytes.ofWord_append_inj] at h
    obtain ⟨htag, hround, hslot, hbody⟩ := h
    match s, s' with
    | propose .., propose .. | nack .., nack .. =>
      cases hround
      cases hslot
      rw [encodeValues_inj.mp hbody]
    | ack .., ack .. =>
      cases hround
      cases hslot
      rfl
    | propose .., ack .. | propose .., nack .. | ack .., propose .. | ack .., nack ..
    | nack .., propose .. | nack .., ack .. => cases htag
  · rintro rfl
    rfl

/-- **A spelling is the encoding of its message exactly if its values ascend.** -/
theorem encode_message_iff {s : Spelling} :
    s.message.encode = s.bytes ↔ s.listed.Pairwise (· < ·) := by
  rw [← bytes_ofMessage, bytes_inj]
  cases s with
  | propose round slot listed | nack round slot listed =>
    rw [← ValueSet.toList_ofList_eq_iff]
    simp [ofMessage, message, Spelling.listed]
  | ack => exact iff_of_true rfl List.Pairwise.nil

end Spelling

/-- **What is read is what is spelled.** -/
theorem read_ok {bytes rest : Bytes} {m : AgreementMessage} :
    read bytes = .ok m rest ↔ ∃ s : Spelling, s.Fits ∧ m = s.message ∧ bytes = s.bytes ++ rest := by
  simp only [read, Reader.bind_ok, Reader.word_ok, Spelling.bytes_append]
  constructor
  · rintro ⟨_, bytes, hrequire, tag, _, rfl, round, _, rfl, slot, body, rfl, h⟩
    obtain ⟨-, rfl⟩ := Reader.require_ok.mp hrequire
    split at h
    · rename_i htag
      cases h
      exact ⟨.ack round slot, Spelling.fits_ack round slot, rfl, by rw [htag]; rfl⟩
    split at h
    · rename_i htag
      obtain ⟨_, _, hvalues, hmessage⟩ := Reader.bind_ok.mp h
      obtain ⟨listed, hfits, rfl, rfl⟩ := readValues_ok.mp hvalues
      cases hmessage
      exact ⟨.propose round slot listed, hfits, rfl, by rw [htag]; rfl⟩
    split at h
    · rename_i htag
      obtain ⟨_, _, hvalues, hmessage⟩ := Reader.bind_ok.mp h
      obtain ⟨listed, hfits, rfl, rfl⟩ := readValues_ok.mp hvalues
      cases hmessage
      exact ⟨.nack round slot listed, hfits, rfl, by rw [htag]; rfl⟩
    · cases h
  · rintro ⟨s, hfits, rfl, rfl⟩
    refine ⟨(), _, Reader.require_ok.mpr ⟨?_, rfl⟩, s.message.tag, _, rfl, s.message.round, _, rfl,
      s.message.slot, _, rfl, ?_⟩
    · simp only [List.length_append, Bytes.length_ofWord]
      omega
    cases s with
    | propose round slot listed =>
      exact Reader.bind_ok.mpr ⟨_, rest, readValues_ok.mpr ⟨listed, hfits, rfl, rfl⟩, rfl⟩
    | ack round slot => rfl
    | nack round slot listed =>
      exact Reader.bind_ok.mpr ⟨_, rest, readValues_ok.mpr ⟨listed, hfits, rfl, rfl⟩, rfl⟩

/-- **The payloads that decode are the spellings.** -/
theorem decode_ok {bytes : Bytes} {m : AgreementMessage} :
    decode bytes = .ok m ↔ ∃ s : Spelling, s.Fits ∧ m = s.message ∧ bytes = s.bytes := by
  simp only [decode, Reading.toExcept_ok, Reader.bind_ok, Reader.pure_run, Reading.ok.injEq,
    read_ok]
  constructor
  · rintro ⟨_, _, _, ⟨s, hfits, rfl, rfl⟩, _, _, hdone, rfl, rfl⟩
    obtain ⟨rfl, -⟩ := Reader.done_ok.mp hdone
    exact ⟨s, hfits, rfl, List.append_nil _⟩
  · rintro ⟨s, hfits, rfl, rfl⟩
    exact ⟨[], _, [], ⟨s, hfits, rfl, (List.append_nil _).symm⟩, (), [], rfl, rfl, rfl⟩

/-- **What an encoding is decoded to is what was encoded.** -/
theorem eq_of_decode_encode {a b : AgreementMessage} (h : decode a.encode = .ok b) : b = a := by
  obtain ⟨s, -, rfl, hbytes⟩ := decode_ok.mp h
  rw [← Spelling.bytes_ofMessage, Spelling.bytes_inj] at hbytes
  rw [← hbytes, Spelling.message_ofMessage]

/-- A message whose values can be counted by a word is decoded to itself. -/
theorem decode_encode {m : AgreementMessage} (h : m.values.size < UInt32.size) :
    decode m.encode = .ok m := by
  refine decode_ok.mpr ⟨.ofMessage m, ?_, (Spelling.message_ofMessage m).symm,
    (Spelling.bytes_ofMessage m).symm⟩
  rwa [Spelling.Fits, Spelling.listed_ofMessage, Std.ExtTreeSet.length_toList]

/-- A spelling that fits is of a message whose values can be counted. -/
theorem Spelling.Fits.size_lt {s : Spelling} (h : s.Fits) :
    s.message.values.size < UInt32.size := by
  cases s with
  | propose round slot listed | nack round slot listed =>
    exact Nat.lt_of_le_of_lt Std.ExtTreeSet.size_ofList_le h
  | ack => exact h

/-- **What can be decoded** is an acceptance of twelve bytes, or a proposal or refusal with as many
values as it counts. -/
theorem exists_decode_iff {bytes : Bytes} : (∃ m, decode bytes = .ok m) ↔
    ∃ tag round slot body,
      bytes = Bytes.ofWord tag ++ (Bytes.ofWord round ++ (Bytes.ofWord slot ++ body)) ∧
      (tag = 2 ∧ bytes.length = 12 ∨ (tag = 1 ∨ tag = 3) ∧ ∃ count items,
        body = Bytes.ofWord count ++ items ∧ bytes.length = 16 + 4 * count.toNat) := by
  simp only [decode_ok]
  constructor
  · rintro ⟨_, s, hfits, -, rfl⟩
    refine ⟨s.message.tag, s.message.round, s.message.slot, s.body, ?_, ?_⟩
    · simp only [Spelling.bytes, List.append_assoc]
    cases s with
    | propose round slot listed =>
      refine Or.inr ⟨Or.inl rfl, .ofNat listed.length, listed.flatMap Bytes.ofWord, rfl, ?_⟩
      have hlength := length_encodeValues (show listed.length < UInt32.size from hfits)
      rw [Spelling.length_bytes, Spelling.body]
      omega
    | ack round slot => exact Or.inl ⟨rfl, rfl⟩
    | nack round slot listed =>
      refine Or.inr ⟨Or.inr rfl, .ofNat listed.length, listed.flatMap Bytes.ofWord, rfl, ?_⟩
      have hlength := length_encodeValues (show listed.length < UInt32.size from hfits)
      rw [Spelling.length_bytes, Spelling.body]
      omega
  · rintro ⟨tag, round, slot, body, rfl, ⟨rfl, hlength⟩ | ⟨htag, count, items, rfl, hlength⟩⟩
    · simp only [List.length_append, Bytes.length_ofWord] at hlength
      have hbody : body = [] := List.length_eq_zero_iff.mp (by omega)
      exact ⟨_, .ack round slot, Spelling.fits_ack round slot, rfl, by rw [hbody]; rfl⟩
    · simp only [List.length_append, Bytes.length_ofWord] at hlength
      obtain ⟨listed, hlisted, rfl⟩ :=
        Bytes.exists_words (show items.length = 4 * count.toNat by omega)
      have hfits : listed.length < UInt32.size := hlisted ▸ count.toNat_lt
      have hcount : count = .ofNat listed.length := by rw [hlisted, UInt32.ofNat_toNat]
      rcases htag with rfl | rfl
      · exact ⟨_, .propose round slot listed, hfits, rfl, by rw [hcount]; rfl⟩
      · exact ⟨_, .nack round slot listed, hfits, rfl, by rw [hcount]; rfl⟩

/-- **The wire form of agreement messages is exact.**

* A message with less than `2 ^ 32` values decodes from its encoding.
* What decodes is an acceptance of twelve bytes, or a proposal or a refusal with a count and as many
  words, whatever the count is, and nothing after them.
* What decodes is a spelling of the message: its values are those that are listed.  It is the
  encoding of the message exactly if they are listed in ascending order, none of them twice, and
  in any case the encoding of the message decodes to the same message. -/
theorem decodes_spellings :
    (∀ m : AgreementMessage, m.values.size < UInt32.size → decode m.encode = .ok m) ∧
    (∀ bytes, (∃ m, decode bytes = .ok m) ↔ ∃ tag round slot body,
      bytes = Bytes.ofWord tag ++ (Bytes.ofWord round ++ (Bytes.ofWord slot ++ body)) ∧
      (tag = 2 ∧ bytes.length = 12 ∨ (tag = 1 ∨ tag = 3) ∧ ∃ count items,
        body = Bytes.ofWord count ++ items ∧ bytes.length = 16 + 4 * count.toNat)) ∧
    ∀ bytes m, decode bytes = .ok m → ∃ s : Spelling,
      bytes = s.bytes ∧ m = s.message ∧ (∀ v, v ∈ m.values ↔ v ∈ s.listed) ∧
      (m.encode = bytes ↔ s.listed.Pairwise (· < ·)) ∧ decode m.encode = .ok m := by
  refine ⟨fun m => decode_encode, fun bytes => exists_decode_iff, fun bytes m h => ?_⟩
  obtain ⟨s, hfits, rfl, rfl⟩ := decode_ok.mp h
  exact ⟨s, rfl, rfl, s.mem_values_message, Spelling.encode_message_iff,
    decode_encode hfits.size_lt⟩

/-- A refusal whose values neither ascend nor differ. -/
def looseRefusal : AgreementMessage := .nack ⟨2, 7, .ofList [5, 1, 5]⟩

/-- The refusal with its values as they are listed. -/
def looseBytes : Bytes :=
  [0, 0, 0, 3, 0, 0, 0, 2, 0, 0, 0, 7, 0, 0, 0, 3, 0, 0, 0, 5, 0, 0, 0, 1, 0, 0, 0, 5]

/-- The loose refusal decodes to a message that is encoded otherwise, and that decodes from its own
encoding. -/
theorem decodes_spellings_looseBytes :
    looseRefusal.values.size < UInt32.size ∧ decode looseRefusal.encode = .ok looseRefusal ∧
    decode looseBytes = .ok looseRefusal ∧ looseRefusal.encode ≠ looseBytes := by
  have hsize : looseRefusal.values.size < UInt32.size := by decide +kernel
  have hdecode : decode looseBytes = .ok looseRefusal := rfl
  refine ⟨hsize, decodes_spellings.1 _ hsize, hdecode, ?_⟩
  obtain ⟨s, hbytes, -, -, hascends, -⟩ := decodes_spellings.2.2 _ _ hdecode
  have hspelled : looseBytes = (Spelling.nack 2 7 [5, 1, 5]).bytes := by decide
  rw [hspelled, Spelling.bytes_inj] at hbytes
  rw [ne_eq, hascends, ← hbytes]
  decide

end AgreementMessage

end Groupcast
