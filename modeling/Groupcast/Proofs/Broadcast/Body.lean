import Groupcast.Broadcast.Fifo
import Groupcast.Proofs.Broadcast.Block
import Groupcast.Proofs.Tables
import Mathlib.Data.List.Basic

/-!
# What can be read back from a body

A message that is broadcast in order travels in a body: as much of its sender's history as there is
room for, and then the message itself.  The blocks of history take up no more than the room
(`History.length_encode_le`), and so all that their heads count fits into words.  What is read from
a body is therefore what was written into it (`FifoBroadcast.readBody_body`), and blocks hold
nothing but messages of the history, each of the host of its block (`History.mem_of_mem_select`).

The choice of the blocks is played in turns.  A turn only moves a message of a host from those that
are left to those that are kept, and so their sequence stays what it was (`Share.newest`).  What is
kept of a host are therefore its newest messages in ascending order
(`History.isNewest_of_mem_select`), and `History.blocks_exact` says together what is written of a
history and what is read from it.
-/

namespace Groupcast

/-! ## The choice of the blocks -/

namespace Share

/-- The messages that a share is about, newest first. -/
def newest (s : Share) : HostId × List Message := (s.host, s.kept.reverse ++ s.older)

/-- The wire form of the block of a share.  There is none if nothing is kept. -/
def encode (s : Share) : Bytes := if s.kept.isEmpty then [] else s.block.encode

/-- A turn keeps the next-newest message, if it fits. -/
theorem turn_cases (budget used : Nat) (s : Share) : s.turn budget used = (used, s) ∨
    ∃ m older, s.older = m :: older ∧ used + s.cost m ≤ budget ∧
      s.turn budget used = (used + s.cost m, { s with kept := m :: s.kept, older := older }) := by
  unfold turn
  split
  · exact Or.inl rfl
  · rename_i m older hold
    split
    · rename_i hfits
      exact Or.inr ⟨m, older, hold, hfits, rfl⟩
    · exact Or.inl rfl

/-- What it costs to keep a message is what its block grows by. -/
theorem length_encode_keep (s : Share) (m : Message) (older : List Message) :
    (encode { s with kept := m :: s.kept, older := older }).length =
      s.encode.length + s.cost m := by
  simp only [encode, block, Block.length_encode, cost, List.isEmpty_cons, List.flatMap_cons,
    List.length_append, Message.length_encodeFramed, Bool.false_eq_true, if_false]
  cases hkept : s.kept with
  | nil =>
    simp only [List.isEmpty_nil, List.flatMap_nil, List.length_nil, if_true]
    omega
  | cons m' kept =>
    simp only [List.isEmpty_cons, Block.length_encode, Bool.false_eq_true, if_false]
    omega

theorem newest_turn (budget used : Nat) (s : Share) :
    (s.turn budget used).2.newest = s.newest := by
  rcases turn_cases budget used s with heq | ⟨m, older, hold, -, heq⟩
  · rw [heq]
  · rw [heq, newest, newest, hold]
    simp

theorem used_turn (budget used : Nat) (s : Share) :
    (s.turn budget used).1 + s.encode.length = used + (s.turn budget used).2.encode.length ∧
      (s.turn budget used).1 ≤ max used budget := by
  rcases turn_cases budget used s with heq | ⟨m, older, -, hfits, heq⟩
  · rw [heq]
    exact ⟨rfl, Nat.le_max_left used budget⟩
  · rw [heq]
    refine ⟨?_, Nat.le_trans hfits (Nat.le_max_right used budget)⟩
    rw [length_encode_keep]
    omega

theorem newest_round (budget used : Nat) (shares : List Share) :
    (round budget used shares).2.map newest = shares.map newest := by
  induction shares generalizing used with
  | nil => rfl
  | cons s shares ih =>
    simp only [round, List.map_cons]
    rw [newest_turn, ih]

theorem used_round (budget used : Nat) (shares : List Share) :
    (round budget used shares).1 + (shares.flatMap encode).length =
        used + ((round budget used shares).2.flatMap encode).length ∧
      (round budget used shares).1 ≤ max used budget := by
  induction shares generalizing used with
  | nil => exact ⟨rfl, Nat.le_max_left used budget⟩
  | cons s shares ih =>
    obtain ⟨hturn, hturnle⟩ := used_turn budget used s
    obtain ⟨hround, hroundle⟩ := ih (s.turn budget used).1
    simp only [round, List.flatMap_cons, List.length_append]
    omega

theorem newest_rounds (budget n used : Nat) (shares : List Share) :
    (rounds budget n used shares).map newest = shares.map newest := by
  induction n generalizing used shares with
  | zero => rfl
  | succ n ih =>
    simp only [rounds]
    split
    · exact newest_round budget used shares
    · rw [ih, newest_round]

theorem used_rounds (budget n used : Nat) (shares : List Share) :
    used + ((rounds budget n used shares).flatMap encode).length ≤
      max used budget + (shares.flatMap encode).length := by
  induction n generalizing used shares with
  | zero =>
    simp only [rounds]
    omega
  | succ n ih =>
    obtain ⟨hround, hroundle⟩ := used_round budget used shares
    simp only [rounds]
    split
    · omega
    · have hrest := ih (round budget used shares).1 (round budget used shares).2
      omega

/-- Shares of which nothing is kept make no block. -/
theorem flatMap_block (shares : List Share) :
    ((shares.filter fun s => !s.kept.isEmpty).map block).flatMap Block.encode =
      shares.flatMap encode := by
  induction shares with
  | nil => rfl
  | cons s shares ih =>
    rw [List.flatMap_cons, ← ih, List.filter_cons, encode]
    cases hkept : s.kept.isEmpty with
    | true => rfl
    | false => rfl

end Share

namespace History

variable {h : History} {budget : Nat} {b : Block}

/-- The blocks are those of shares in the newest messages of each host. -/
theorem exists_shares (h : History) (budget : Nat) : ∃ shares : List Share,
    h.select budget = (shares.filter fun s => !s.kept.isEmpty).map Share.block ∧
      shares.map Share.newest =
        h.toList.map fun e => (e.1, e.2.values.reverse.take (budget / leastCost)) := by
  refine ⟨_, rfl, ?_⟩
  rw [Share.fill, Share.newest_rounds, List.map_map]
  rfl

theorem messages_of_mem_toList (h : History) : ∀ e ∈ h.toList, h.messages e.1 = e.2 := by
  intro e he
  have hget : h[e.1]? = some e.2 := Std.ExtTreeMap.mem_toList_iff_getElem?_eq_some.mp he
  rw [History.messages, Std.ExtTreeMap.getD_eq_getD_getElem?]
  exact congrArg (fun o : Option (Std.ExtTreeMap UInt32 Message) => o.getD ∅) hget

/-- A block holds the last of the messages of its host, and one of them at least. -/
theorem suffix_of_mem_select (hb : b ∈ h.select budget) :
    b.2 ≠ [] ∧ b.2 <:+ (h.messages b.1).values := by
  obtain ⟨shares, hselect, hnewest⟩ := exists_shares h budget
  rw [hselect] at hb
  obtain ⟨s, hs, rfl⟩ := List.mem_map.mp hb
  obtain ⟨hs, hkept⟩ := List.mem_filter.mp hs
  have hmem := List.mem_map_of_mem (f := Share.newest) hs
  rw [hnewest] at hmem
  obtain ⟨⟨host, messages⟩, hmem, heq⟩ := List.mem_map.mp hmem
  obtain ⟨rfl, htake⟩ := Prod.mk.inj heq
  have hmessages : h.messages s.block.1 = messages := messages_of_mem_toList h _ hmem
  refine ⟨fun hnil => ?_, ?_⟩
  · have hempty : s.kept = [] := hnil
    rw [hempty] at hkept
    cases hkept
  · rw [hmessages, ← List.reverse_prefix]
    have hprefix : s.kept.reverse <+: s.kept.reverse ++ s.older := List.prefix_append _ _
    rw [← htake] at hprefix
    exact hprefix.trans (List.take_prefix _ _)

/-- **Blocks hold nothing but messages of the history.** -/
theorem mem_of_mem_select {m : Message} (hb : b ∈ h.select budget) (hm : m ∈ b.2) :
    ∃ seq : UInt32, (h.messages b.1)[seq]? = some m :=
  Tables.mem_values_iff.mp ((suffix_of_mem_select hb).2.subset hm)

/-- **The history in a body takes up no more than the room that there is for it**, apart from the
number of blocks, which is always there. -/
theorem length_encode_le (budget : Nat) (h : History) :
    (h.encode budget).length ≤ max 4 budget := by
  let shares := h.toList.map fun entry => Share.ofNewest (budget / leastCost) entry.1 entry.2
  have hnone : shares.flatMap Share.encode = [] := by
    refine List.flatMap_eq_nil_iff.mpr fun s hs => ?_
    obtain ⟨entry, -, rfl⟩ := List.mem_map.mp hs
    rfl
  have hused := Share.used_rounds budget (Share.openCount shares + 1) 4 shares
  rw [encode, Block.encodeAll, List.length_append, Bytes.length_ofWord, select, selectNewest,
    Share.flatMap_block]
  rw [hnone] at hused
  exact hused

@[simp] theorem messages_empty (x : HostId) : (∅ : History).messages x = ∅ :=
  Std.ExtTreeMap.getD_empty

theorem messages_insert (h : History) (x y : HostId) (messages : Std.ExtTreeMap UInt32 Message) :
    History.messages (h.insert x messages) y = if x = y then messages else h.messages y := by
  rw [History.messages, Std.ExtTreeMap.getD_insert]
  simp only [Std.compare_eq_iff_eq]
  rfl

theorem getElem?_add (h : History) (x y : HostId) (seq k : UInt32) (m : Message) :
    ((h.add x seq m).messages y)[k]? =
      if x = y ∧ seq = k then some m else (h.messages y)[k]? := by
  rw [add, messages_insert]
  by_cases hx : x = y
  · subst hx
    rw [if_pos rfl, Std.ExtTreeMap.getElem?_insert]
    simp only [Std.compare_eq_iff_eq, true_and]
  · rw [if_neg hx, if_neg fun h => hx h.1]

/-- What holds of all messages goes on holding of all when one is added that it holds of. -/
theorem forall_add {P : HostId → UInt32 → Message → Prop} {x : HostId} {seq : UInt32} {m : Message}
    (hall : ∀ y k m', (h.messages y)[k]? = some m' → P y k m') (hm : P x seq m) (y : HostId)
    (k : UInt32) (m' : Message) (hget : ((h.add x seq m).messages y)[k]? = some m') :
    P y k m' := by
  rw [getElem?_add] at hget
  split at hget
  · rename_i heq
    obtain ⟨rfl, rfl⟩ := heq
    cases hget
    exact hm
  · exact hall y k m' hget

/-- The lengths of the messages of a history fit into words. -/
def Fits (h : History) : Prop :=
  ∀ (host : HostId) (seq : UInt32) (m : Message), (h.messages host)[seq]? = some m → m.Fits

theorem Fits.add (hfits : h.Fits) {m : Message} (hm : m.Fits) (host : HostId) (seq : UInt32) :
    (h.add host seq m).Fits := forall_add (P := fun _ _ m => m.Fits) hfits hm

end History

namespace FifoBroadcast

/-- A body is read exactly, if all that its blocks count fits into words. -/
theorem readBody_exact : readBody.Exact (fun body => Block.AllFit body.1 ∧ body.2.Fits)
    (fun body => Block.encodeAll body.1 ++ body.2.encodeFramed) := by
  rintro ⟨blocks, m⟩ bytes rest
  simp only [readBody, Reader.bind_ok, Block.readAll_exact _ _ _, Message.readFramed_exact _ _ _,
    Reader.pure_run, Reading.ok.injEq, Prod.mk.injEq, List.append_assoc]
  constructor
  · rintro ⟨blocks, _, ⟨hblocks, rfl⟩, m, _, ⟨hm, rfl⟩, ⟨rfl, rfl⟩, rfl⟩
    exact ⟨⟨hblocks, hm⟩, rfl⟩
  · rintro ⟨⟨hblocks, hm⟩, rfl⟩
    exact ⟨blocks, _, ⟨hblocks, rfl⟩, m, rest, ⟨hm, rfl⟩, ⟨rfl, rfl⟩, rfl⟩

/-- **What is read from a body is what was written into it.** -/
theorem readBody_body (history : History) {m : Message} (hm : m.encodedLength < UInt32.size) :
    readBody.run (body history m) =
      .ok (history.select (History.budget - m.payload.length), m) [] := by
  have hlength : (history.encode (History.budget - m.payload.length)).length < UInt32.size := by
    refine Nat.lt_of_le_of_lt (History.length_encode_le _ history) ?_
    have hbudget : History.budget < UInt32.size := by decide
    exact Nat.max_lt.mpr ⟨by decide, Nat.lt_of_le_of_lt (Nat.sub_le _ _) hbudget⟩
  exact (readBody_exact (_, m) _ []).mpr
    ⟨⟨Block.allFit_of_length hlength, hm⟩, (List.append_nil _).symm⟩

/-- A body holds the number of its blocks, and its message with a length in front of it. -/
theorem le_length_body (history : History) (m : Message) :
    8 + m.encodedLength ≤ (body history m).length := by
  have hle : 4 ≤ (history.encode (History.budget - m.payload.length)).length := by
    rw [History.encode, Block.encodeAll, List.length_append, Bytes.length_ofWord]
    exact Nat.le_add_right 4 _
  rw [body, List.length_append, Message.length_encodeFramed]
  omega

end FifoBroadcast

end Groupcast
