import Groupcast.Proofs.Link.Move

/-!
# One direction of a link

What a member has ever sent to another one, and what has become of it, is known to two link ends:
the sending half of the one end and the receiving half of the other.  `Channel` ties the two
together.  It speaks of the network only through what has been put on it: the data messages `there`
on their way from the sender to the receiver, and the ids that acknowledgements on their way `back`
name.

The two halves change apart from each other, and each change keeps the tie (`Channel.receive`,
`Channel.transmit`).  The links at both ends of a channel from a member to itself are one link,
which then does the same move in both roles.
-/

namespace Groupcast

namespace PerfectLink

/-- A move gives a link a data message to send, which it stamps as `m`. -/
def Sends (l : PerfectLink) (mv : Move) (m : Message) : Prop :=
  ∃ m₀ now, mv = .send m₀ now ∧ m₀.kind = .data ∧ m = l.link.stamp m₀

/-- What ties the sending half of `l` to the receiving half of `r`. -/
structure Channel (l r : PerfectLink) (there : Message → Prop) (back : UInt32 → Prop)
    (stopped : Prop) : Prop where
  sound : r.delivered.Sound
  /-- Ids count up from one with the messages sent. -/
  lastId_eq : l.link.lastId.toNat = l.sentCount
  kind_of_there : ∀ {m : Message}, there m → m.kind = .data
  id_of_there : ∀ {m : Message}, there m → m.id ≠ 0 ∧ m.id ≤ l.link.lastId
  eq_of_id_eq : ∀ {m m' : Message}, there m → there m' → m.id = m'.id → m = m'
  /-- What waits for an acknowledgement has been sent at least once. -/
  there_of_waiting : ∀ {i : UInt32} {m : Message}, l.link.sent[i]? = some m → m.id = i ∧ there m
  there_of_delivered : ∀ {i : UInt32}, r.delivered.contains i = true → i ≠ 0 →
    ∃ m, there m ∧ m.id = i
  /-- Only what has been delivered is acknowledged. -/
  delivered_of_back : ∀ {i : UInt32}, back i → i ≠ 0 ∧ r.delivered.contains i = true
  /-- Nothing is given up before it has been delivered, unless the link is stopped. -/
  kept : ¬ stopped → ∀ {m : Message}, there m →
    l.link.sent[m.id]? = some m ∨ r.delivered.contains m.id = true

namespace Channel

variable {l l' r : PerfectLink} {there there' : Message → Prop} {back back' : UInt32 → Prop}
  {stopped stopped' : Prop}

/-- Two ends that have done nothing. -/
theorem ofPeer {p q : HostId} {hp hq : Host} {n k : Nat} {stopped : Prop}
    (hthere : ∀ m, ¬ there m) (hback : ∀ i, ¬ back i) :
    Channel (.ofPeer p hq n) (.ofPeer q hp k) there back stopped where
  sound := Window.sound_empty
  lastId_eq := rfl
  kind_of_there h := absurd h (hthere _)
  id_of_there h := absurd h (hthere _)
  eq_of_id_eq h := absurd h (hthere _)
  there_of_waiting h := by simp [PerfectLink.ofPeer, StubbornLink.ofPeer] at h
  there_of_delivered h hi := absurd (Window.contains_empty.mp h) hi
  delivered_of_back h := absurd h (hback _)
  kept _ _ h := absurd h (hthere _)

/-! ## The receiving half -/

/-- The receiver does a move: it takes in only what has been sent, and acknowledges only what it
takes in. -/
theorem receive (h : Channel l r there back stopped) (mv : PerfectLink.Move)
    (hin : ∀ m, mv = .deliver m → m.kind = .data → there m)
    (hback : ∀ i, back' i → back i ∨ ∃ m, mv = .deliver m ∧ m.kind = .data ∧ m.id = i) :
    Channel l (r.move mv).state there back' stopped where
  sound := PerfectLink.sound_delivered_move h.sound mv
  lastId_eq := h.lastId_eq
  kind_of_there := h.kind_of_there
  id_of_there := h.id_of_there
  eq_of_id_eq := h.eq_of_id_eq
  there_of_waiting := h.there_of_waiting
  there_of_delivered := by
    intro i hi hne
    rcases (PerfectLink.contains_delivered_move h.sound mv i).mp hi with hold | ⟨m, hmv, hkind, hid⟩
    · exact h.there_of_delivered hold hne
    · exact ⟨m, hin m hmv hkind, hid⟩
  delivered_of_back := by
    intro i hi
    rcases hback i hi with hold | ⟨m, hmv, hkind, hid⟩
    · obtain ⟨hne, hdelivered⟩ := h.delivered_of_back hold
      exact ⟨hne, (PerfectLink.contains_delivered_move h.sound mv i).mpr (Or.inl hdelivered)⟩
    · refine ⟨hid ▸ (h.id_of_there (hin m hmv hkind)).1, ?_⟩
      exact (PerfectLink.contains_delivered_move h.sound mv i).mpr (Or.inr ⟨m, hmv, hkind, hid⟩)
  kept hrunning m hm := by
    rcases h.kept hrunning hm with hwaits | hdelivered
    · exact Or.inl hwaits
    · exact Or.inr ((PerfectLink.contains_delivered_move h.sound mv m.id).mpr (Or.inl hdelivered))

/-! ## The sending half -/

/-- The sender takes messages off those that wait, once they have been delivered or because it is
stopped. -/
theorem shrink (h : Channel l r there back stopped) (hlast : l'.link.lastId = l.link.lastId)
    (hcount : l'.sentCount = l.sentCount)
    (hsub : ∀ (i : UInt32) m, l'.link.sent[i]? = some m → l.link.sent[i]? = some m)
    (hgone : ¬ stopped' → ∀ (i : UInt32) m, l.link.sent[i]? = some m →
      l'.link.sent[i]? = some m ∨ r.delivered.contains i = true)
    (hthere : ∀ m, there' m ↔ there m) (hstopped : stopped → stopped') :
    Channel l' r there' back stopped' where
  sound := h.sound
  lastId_eq := by rw [hlast, hcount, h.lastId_eq]
  kind_of_there hm := h.kind_of_there ((hthere _).mp hm)
  id_of_there hm := by
    rw [hlast]
    exact h.id_of_there ((hthere _).mp hm)
  eq_of_id_eq hm hm' := h.eq_of_id_eq ((hthere _).mp hm) ((hthere _).mp hm')
  there_of_waiting hi := by
    obtain ⟨hid, hm⟩ := h.there_of_waiting (hsub _ _ hi)
    exact ⟨hid, (hthere _).mpr hm⟩
  there_of_delivered hi hne := by
    obtain ⟨m, hm, hid⟩ := h.there_of_delivered hi hne
    exact ⟨m, (hthere m).mpr hm, hid⟩
  delivered_of_back := h.delivered_of_back
  kept hrunning m hm := by
    rcases h.kept (fun hs => hrunning (hstopped hs)) ((hthere m).mp hm) with hwaits | hdelivered
    · exact hgone hrunning _ m hwaits
    · exact Or.inr hdelivered

/-- A channel depends on the network only through what it says of it. -/
theorem congr (h : Channel l r there back stopped) (hthere : ∀ m, there' m ↔ there m)
    (hback : ∀ i, back' i → back i) (hstopped : stopped → stopped') :
    Channel l r there' back' stopped' := by
  have hr := h.receive .rest nofun fun i hi => Or.inl (hback i hi)
  exact hr.shrink rfl rfl (fun _ _ hi => hi) (fun _ _ _ hi => Or.inl hi) hthere hstopped

/-- As long as ids do not wrap, the next one is greater than the last. -/
theorem toNat_succ_lastId (h : Channel l r there back stopped)
    (hwrap : l.sentCount + 1 < UInt32.size) :
    (l.link.lastId + 1).toNat = l.link.lastId.toNat + 1 := by
  rw [UInt32.toNat_add, h.lastId_eq]
  exact Nat.mod_eq_of_lt hwrap

/-- No message has had the next id before. -/
theorem id_ne_succ_lastId (h : Channel l r there back stopped)
    (hwrap : l.sentCount + 1 < UInt32.size) {m : Message} (hm : there m) :
    m.id ≠ l.link.lastId + 1 := by
  intro heq
  have hle := UInt32.le_iff_toNat_le.mp (h.id_of_there hm).2
  rw [heq, h.toNat_succ_lastId hwrap] at hle
  omega

/-- The sender sends a message. -/
theorem send (h : Channel l r there back stopped) {m₀ : Message} {now : Nat}
    (hwrap : l.sentCount + 1 < UInt32.size)
    (hthere : ∀ m, there' m ↔ there m ∨ m₀.kind = .data ∧ m = l.link.stamp m₀)
    (hstopped : stopped → stopped') :
    Channel (l.send m₀ now).state r there' back stopped' := by
  have hlast := h.toNat_succ_lastId hwrap
  have hfresh : ∀ {m}, there m → m.id ≠ l.link.lastId + 1 := fun hm => h.id_ne_succ_lastId hwrap hm
  have hlink : (l.send m₀ now).state.link.lastId = l.link.lastId + 1 := by
    simp only [PerfectLink.send, StubbornLink.send]
    split <;> rfl
  -- Whether a message waits is settled for each id: the new one, or one of those before.
  have hsent : ∀ i : UInt32, (l.send m₀ now).state.link.sent[i]? =
      if m₀.kind = .data ∧ i = l.link.lastId + 1 then some (l.link.stamp m₀)
      else l.link.sent[i]? := by
    intro i
    simp only [PerfectLink.send, StubbornLink.send]
    by_cases hkind : m₀.kind = .data
    · rw [if_pos (show (l.link.stamp m₀).kind = .data from hkind)]
      simp only [Std.ExtTreeMap.getElem?_insert, Std.compare_eq_iff_eq, hkind, true_and,
        StubbornLink.stamp_id]
      by_cases hi : i = l.link.lastId + 1
      · rw [if_pos hi, if_pos hi.symm]
      · rw [if_neg hi, if_neg (fun heq => hi heq.symm)]
    · rw [if_neg (show ¬ (l.link.stamp m₀).kind = .data from hkind), if_neg (fun hd => hkind hd.1)]
  refine ⟨h.sound, ?_, ?_, ?_, ?_, ?_, ?_, h.delivered_of_back, ?_⟩
  · rw [hlink, hlast, h.lastId_eq]
    rfl
  · intro m hm
    rcases (hthere m).mp hm with hold | ⟨hkind, rfl⟩
    · exact h.kind_of_there hold
    · exact hkind
  · intro m hm
    rw [hlink]
    rcases (hthere m).mp hm with hold | ⟨-, rfl⟩
    · obtain ⟨hne, hle⟩ := h.id_of_there hold
      refine ⟨hne, UInt32.le_iff_toNat_le.mpr ?_⟩
      have := UInt32.le_iff_toNat_le.mp hle
      omega
    · refine ⟨fun hzero => ?_, UInt32.le_refl _⟩
      have : (l.link.lastId + 1).toNat = 0 := congrArg UInt32.toNat hzero
      omega
  · intro m m' hm hm' hid
    rcases (hthere m).mp hm with hold | ⟨-, rfl⟩ <;> rcases (hthere m').mp hm' with hold' | ⟨-, rfl⟩
    · exact h.eq_of_id_eq hold hold' hid
    · exact absurd hid (hfresh hold)
    · exact absurd hid.symm (hfresh hold')
    · rfl
  · intro i m hi
    rw [hsent] at hi
    split at hi
    · rename_i hnew
      cases hi
      exact ⟨hnew.2.symm, (hthere _).mpr (Or.inr ⟨hnew.1, rfl⟩)⟩
    · obtain ⟨hid, hm⟩ := h.there_of_waiting hi
      exact ⟨hid, (hthere m).mpr (Or.inl hm)⟩
  · intro i hi hne
    obtain ⟨m, hm, hid⟩ := h.there_of_delivered hi hne
    exact ⟨m, (hthere m).mpr (Or.inl hm), hid⟩
  · intro hrunning m hm
    rcases (hthere m).mp hm with hold | ⟨hkind, rfl⟩
    · rw [hsent, if_neg (fun hnew => hfresh hold hnew.2)]
      exact h.kept (fun hs => hrunning (hstopped hs)) hold
    · exact Or.inl (by rw [hsent, if_pos ⟨hkind, rfl⟩])

/-- The sender does a move: it is acknowledged only what has been delivered. -/
theorem transmit (h : Channel l r there back stopped) (mv : PerfectLink.Move)
    (hwrap : (l.move mv).state.sentCount < UInt32.size)
    (hack : ∀ m i, mv = .deliver m → m.kind = .ack → m.ackedId = .ok i → back i)
    (hthere : ∀ m, there' m ↔ there m ∨ l.Sends mv m) (hstop : mv = .stop → stopped')
    (hstopped : stopped → stopped') : Channel (l.move mv).state r there' back stopped' := by
  cases mv with
  | send m₀ now =>
    rw [PerfectLink.move_sentCount] at hwrap
    refine h.send hwrap ?_ hstopped
    intro m
    rw [hthere]
    simp [PerfectLink.Sends]
  | deliver m₀ =>
    have hsame : ∀ m, there' m ↔ there m := by simpa [PerfectLink.Sends] using hthere
    cases hkind : m₀.kind with
    | ack =>
      rw [PerfectLink.move, (PerfectLink.deliver_of_ack hkind).2.2]
      cases hid : m₀.ackedId with
      | error e =>
        exact h.shrink rfl rfl (fun _ _ hi => hi) (fun _ _ _ hi => Or.inl hi) hsame hstopped
      | ok id =>
        have hdelivered := (h.delivered_of_back (hack m₀ id rfl hkind hid)).2
        refine h.shrink (by simp) rfl ?_ ?_ hsame hstopped
        · intro i m hi
          rw [StubbornLink.getElem?_sent_acknowledge] at hi
          split at hi
          · cases hi
          · exact hi
        · intro _ i m hi
          by_cases heq : id = i
          · exact Or.inr (heq ▸ hdelivered)
          · refine Or.inl ?_
            rw [StubbornLink.getElem?_sent_acknowledge, if_neg heq]
            exact hi
    | data =>
      rw [PerfectLink.move, (PerfectLink.deliver_of_data hkind).2.2]
      exact h.shrink rfl rfl (fun _ _ hi => hi) (fun _ _ _ hi => Or.inl hi) hsame hstopped
    | heartbeat | heartbeatAck =>
      rw [PerfectLink.move, PerfectLink.deliver_of_isControl (by rw [hkind]; rfl)]
      exact h.shrink rfl rfl (fun _ _ hi => hi) (fun _ _ _ hi => Or.inl hi) hsame hstopped
  | stop =>
    refine h.shrink rfl rfl ?_ (fun hrunning => absurd (hstop rfl) hrunning)
      (by simpa [PerfectLink.Sends] using hthere) hstopped
    intro i m hi
    simp [PerfectLink.move, PerfectLink.stop, StubbornLink.stop] at hi
  | rest | timeout now =>
    exact h.shrink rfl rfl (fun _ _ hi => hi) (fun _ _ _ hi => Or.inl hi)
      (by simpa [PerfectLink.Sends] using hthere) hstopped

/-- A message on its way that has not been delivered waits at the sender. -/
theorem delivered_of_not_waiting (h : Channel l r there back stopped) (hrunning : ¬ stopped)
    {m : Message} (hm : there m) (hgone : l.link.sent[m.id]? = none) :
    r.delivered.contains m.id = true := by
  rcases h.kept hrunning hm with hwaits | hdelivered
  · rw [hgone] at hwaits
    cases hwaits
  · exact hdelivered

end Channel

end PerfectLink

end Groupcast
