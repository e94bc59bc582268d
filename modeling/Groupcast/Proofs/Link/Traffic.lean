import Groupcast.Proofs.Link.Channel
import Groupcast.Proofs.Link.Group

/-!
# What goes over the links of a group

In a group whose members run links, each member has a channel to each, itself included, and the main
statement is that all of them hold together at all times (`channel_of_reachable`).  The two link
ends of a channel do their moves in the steps of their own members, and what comes to be on the wire
from one member to another is what the link between them emits (`carries_step_links`).
-/

namespace Groupcast

/-- A member has put a data message on the wire for another one. -/
def SentData (hosts : Hosts) (wire : List Flight) (p q : HostId) (m : Message) : Prop :=
  m.kind = .data ∧ Carries hosts wire p q m.encode

/-- A member has put an acknowledgement of an id on the wire for another one. -/
def SentAck (hosts : Hosts) (wire : List Flight) (p q : HostId) (id : UInt32) : Prop :=
  ∃ a : Message, a.kind = .ack ∧ a.ackedId = .ok id ∧ Carries hosts wire p q a.encode

/-- A member has sent data with this payload to another one. -/
def Said (hosts : Hosts) (wire : List Flight) (p q : HostId) (payload : Bytes) : Prop :=
  ∃ m, SentData hosts wire p q m ∧ m.payload = payload

/-- No link has been given so many messages that its ids would wrap. -/
def Links.Unwrapped (g : Links) : Prop :=
  ∀ (id : HostId) (l : PerfectLink), g.links[id]? = some l → l.sentCount < UInt32.size

namespace System

/-- A member has been made to give up on all that waits. -/
def Stopped (s : System Links) (p : HostId) : Prop :=
  ∃ o ∈ s.history, o.member = p ∧ o.cause = .input .stop

/-- What a step of the member `x` makes the link from `p` to `q` do. -/
def stepMove (x : HostId) (c : Cause Links) (now : Nat) (p q : HostId) : PerfectLink.Move :=
  if p = x then Links.moveOf c now q else .rest

variable {hosts : Hosts} {tuning : HostId → Tuning} {s : System Links} {x p q : HostId}
  {c : Cause Links} {now : Nat} {l r : PerfectLink}

theorem stopped_step_iff :
    (s.step x c now).Stopped p ↔ s.Stopped p ∨ x = p ∧ c = .input .stop := by
  simp only [Stopped, step_history, List.mem_append, List.mem_singleton]
  constructor
  · rintro ⟨o, hold | rfl, hp, hc⟩
    · exact Or.inl ⟨o, hold, hp, hc⟩
    · exact Or.inr ⟨hp, hc⟩
  · rintro (⟨o, hold, hp, hc⟩ | ⟨hp, hc⟩)
    · exact ⟨o, Or.inl hold, hp, hc⟩
    · exact ⟨_, Or.inr rfl, hp, hc⟩

/-! ## A step, link by link -/

/-- In a step each link of the group does one move. -/
theorem getElem?_links_step (s : System Links) (x : HostId) (c : Cause Links) (now : Nat)
    (p q : HostId) : ((s.step x c now).members p).links[q]? =
      (s.members p).links[q]?.map fun l => (l.move (stepMove x c now p q)).state := by
  by_cases hp : p = x
  · subst hp
    rw [step_members_self, (Links.moved_effect c now).getElem?_links]
    simp only [stepMove, if_pos]
  · rw [step_members_of_ne hp]
    simp only [stepMove, if_neg hp]
    cases (s.members p).links[q]? <;> rfl

theorem fits_step (h : (s.members p).Fits p hosts) :
    ((s.step x c now).members p).Fits p hosts := by
  by_cases hp : p = x
  · subst hp
    rw [step_members_self]
    exact h.moved (Links.moved_effect c now)
  · rw [step_members_of_ne hp]
    exact h

/-- What comes to be on the wire between two members is what the link between them emits. -/
theorem carries_step_links (hlawful : hosts.Lawful) (hfits : (s.members p).Fits p hosts)
    (hl : (s.members p).links[q]? = some l) {bytes : Bytes} :
    Carries hosts (s.step x c now).wire p q bytes ↔ Carries hosts s.wire p q bytes ∨
      ⟨l.link.peer.address, bytes⟩ ∈ (l.move (stepMove x c now p q)).sent := by
  have hpeer := hfits.get?_of_link hl
  rw [carries_step_iff]
  refine or_congr_right ?_
  by_cases hp : p = x
  · subst hp
    simp only [stepMove, if_pos, true_and]
    constructor
    · rintro ⟨h, hget, hmem⟩
      obtain ⟨q', l', hl', hmem'⟩ := ((Links.moved_effect c now).mem_sent _).mp hmem
      have htarget : h.address = l'.link.peer.address := PerfectLink.target_of_mem_sent_move hmem'
      have hq := hlawful.eq_of_address_eq hget (hfits.get?_of_link hl') htarget
      subst hq
      rw [hl] at hl'
      cases hl'
      rw [← htarget]
      exact hmem'
    · intro hmem
      exact ⟨_, hpeer, ((Links.moved_effect c now).mem_sent _).mpr ⟨q, l, hl, hmem⟩⟩
  · simp only [stepMove, if_neg hp, PerfectLink.move, List.not_mem_nil, iff_false, not_and]
    intro heq
    exact absurd heq hp

/-- Why a link does a move in a step. -/
theorem prompts_stepMove {mv : PerfectLink.Move} (hmove : stepMove x c now p q = mv)
    (hne : mv ≠ .rest) : p = x ∧ Links.Prompts now q c mv := by
  rw [stepMove] at hmove
  split at hmove
  · rename_i hp
    exact ⟨hp, hmove ▸ Links.prompts_moveOf c now q⟩
  · exact absurd hmove.symm hne

/-- A link takes in only what the host at its other end has put on the wire. -/
theorem carries_of_stepMove_deliver (h : s.Permits hosts x c) {m : Message}
    (hmove : stepMove x c now p q = .deliver m) : Carries hosts s.wire q p m.encode := by
  obtain ⟨rfl, hprompts⟩ := prompts_stepMove hmove nofun
  cases hprompts with
  | arrival hsource => exact hsource ▸ h.2

/-- No link is given acknowledgements to send. -/
theorem kind_of_stepMove_send {m : Message} {now' : Nat}
    (hmove : stepMove x c now p q = .send m now') : m.kind ≠ .ack := by
  obtain ⟨-, hprompts⟩ := prompts_stepMove hmove nofun
  cases hprompts with
  | @order o _ => exact o.kind_ne_ack

/-- Only those links are stopped whose member is. -/
theorem cause_of_stepMove_stop (hmove : stepMove x c now p q = .stop) :
    x = p ∧ c = .input .stop := by
  obtain ⟨rfl, hprompts⟩ := prompts_stepMove hmove nofun
  cases hprompts with
  | stop => exact ⟨rfl, rfl⟩

/-! ## The channels of a group -/

theorem fits_of_reachable (hlawful : hosts.Lawful)
    (h : s.Reachable hosts fun id => .ofHosts id hosts (tuning id)) (p : HostId) :
    (s.members p).Fits p hosts := by
  induction h with
  | initial => exact Links.fits_ofHosts hlawful (tuning p)
  | step now _ _ ih => exact fits_step ih

/-- Links whose ids have not wrapped after a step had not wrapped before. -/
theorem unwrapped_of_step (h : ((s.step x c now).members p).Unwrapped) :
    (s.members p).Unwrapped := by
  intro q l hl
  have hlt := h q (l.move (stepMove x c now p q)).state (by rw [getElem?_links_step, hl]; rfl)
  rw [PerfectLink.move_sentCount] at hlt
  omega

/-- A step gives each link one message to send at most. -/
theorem sentCount_le_of_reachable (h : s.Reachable hosts fun id => .ofHosts id hosts (tuning id))
    (hlawful : hosts.Lawful) (hl : (s.members p).links[q]? = some l) :
    l.sentCount ≤ s.history.length := by
  induction h generalizing l with
  | initial =>
    replace hl : (Links.ofHosts p hosts (tuning p)).links[q]? = some l := hl
    rw [Links.getElem?_links_ofHosts hlawful] at hl
    obtain ⟨_, -, rfl⟩ := Option.map_eq_some_iff.mp hl
    exact Nat.le_refl 0
  | @step s x c now _ _ ih =>
    rw [getElem?_links_step] at hl
    obtain ⟨l₀, hl₀, rfl⟩ := Option.map_eq_some_iff.mp hl
    have hle := ih hl₀
    have hone := PerfectLink.Move.sends_le_one (stepMove x c now p q)
    rw [PerfectLink.move_sentCount, step_history, List.length_append, List.length_singleton]
    omega

/-- The ids of a run of fewer steps than there are ids do not wrap. -/
theorem unwrapped_of_length_lt (h : s.Reachable hosts fun id => .ofHosts id hosts (tuning id))
    (hlawful : hosts.Lawful) (hlength : s.history.length < UInt32.size) (p : HostId) :
    (s.members p).Unwrapped :=
  fun _ _ hl => Nat.lt_of_le_of_lt (sentCount_le_of_reachable h hlawful hl) hlength

/-- What a member has sent to another one by the end of a step. -/
theorem sentData_step_iff (hlawful : hosts.Lawful) (hfits : (s.members p).Fits p hosts)
    (hl : (s.members p).links[q]? = some l)
    (hwaiting : ∀ (i : UInt32) m, l.link.sent[i]? = some m → SentData hosts s.wire p q m)
    (m : Message) : SentData hosts (s.step x c now).wire p q m ↔
      SentData hosts s.wire p q m ∨ l.Sends (stepMove x c now p q) m := by
  simp only [SentData, carries_step_links hlawful hfits hl]
  constructor
  · rintro ⟨hkind, hold | hnew⟩
    · exact Or.inl ⟨hkind, hold⟩
    · rcases PerfectLink.data_of_mem_sent_move hkind hnew with ⟨m₀, now', hsend⟩ | ⟨i, hi⟩
      · exact Or.inr ⟨m₀, now', hsend⟩
      · exact Or.inl (hwaiting i m hi)
  · rintro (⟨hkind, hold⟩ | ⟨m₀, now', hmove, hkind, rfl⟩)
    · exact ⟨hkind, Or.inl hold⟩
    · refine ⟨hkind, Or.inr ?_⟩
      rw [hmove]
      exact List.mem_singleton.mpr rfl

/-- What a member has acknowledged by the end of a step. -/
theorem sentAck_step (hlawful : hosts.Lawful) (hfits : (s.members p).Fits p hosts)
    (hl : (s.members p).links[q]? = some l)
    (hwaiting : ∀ (i : UInt32) m, l.link.sent[i]? = some m → m.kind = .data) {i : UInt32}
    (h : SentAck hosts (s.step x c now).wire p q i) : SentAck hosts s.wire p q i ∨
      ∃ m, stepMove x c now p q = .deliver m ∧ m.kind = .data ∧ m.id = i := by
  obtain ⟨a, hkind, hid, hcarries⟩ := h
  rcases (carries_step_links hlawful hfits hl).mp hcarries with hold | hnew
  · exact Or.inl ⟨a, hkind, hid, hold⟩
  · obtain ⟨m, hmove, hdata, rfl⟩ := PerfectLink.ack_of_mem_sent_move hkind
      (fun m₀ now' hsend => kind_of_stepMove_send hsend) hwaiting hnew
    rw [Message.ackedId_ack] at hid
    cases hid
    exact Or.inr ⟨m, hmove, hdata, rfl⟩

/-- **In a group whose members run links, all channels hold together at all times.** -/
theorem channel_of_reachable (hlawful : hosts.Lawful)
    (h : s.Reachable hosts fun id => .ofHosts id hosts (tuning id))
    (hwrap : ∀ id, (s.members id).Unwrapped) (hl : (s.members p).links[q]? = some l)
    (hr : (s.members q).links[p]? = some r) :
    PerfectLink.Channel l r (SentData hosts s.wire p q) (SentAck hosts s.wire q p)
      (s.Stopped p) := by
  induction h generalizing p q l r with
  | initial =>
    replace hl : (Links.ofHosts p hosts (tuning p)).links[q]? = some l := hl
    replace hr : (Links.ofHosts q hosts (tuning q)).links[p]? = some r := hr
    rw [Links.getElem?_links_ofHosts hlawful] at hl hr
    obtain ⟨hq, -, rfl⟩ := Option.map_eq_some_iff.mp hl
    obtain ⟨hp, -, rfl⟩ := Option.map_eq_some_iff.mp hr
    refine PerfectLink.Channel.ofPeer ?_ ?_
    · rintro m ⟨-, _, -, hmem⟩
      cases hmem
    · rintro i ⟨_, -, -, _, -, hmem⟩
      cases hmem
  | @step s x c now h hc ih =>
    rw [getElem?_links_step] at hl hr
    obtain ⟨l₀, hl₀, rfl⟩ := Option.map_eq_some_iff.mp hl
    obtain ⟨r₀, hr₀, rfl⟩ := Option.map_eq_some_iff.mp hr
    have hold : ∀ {p q : HostId} {l r : PerfectLink}, (s.members p).links[q]? = some l →
        (s.members q).links[p]? = some r → PerfectLink.Channel l r
          (SentData hosts s.wire p q) (SentAck hosts s.wire q p) (s.Stopped p) :=
      fun hl hr => ih (fun id => unwrapped_of_step (hwrap id)) hl hr
    have hthere := hold hl₀ hr₀
    have hback := hold hr₀ hl₀
    -- The receiver goes first; what it acknowledges in this step the sender cannot yet know of.
    have hreceived := hthere.receive (stepMove x c now q p)
      (fun m hmove hkind => ⟨hkind, carries_of_stepMove_deliver hc hmove⟩)
      (fun i hi => sentAck_step hlawful (fits_of_reachable hlawful h q) hr₀
        (fun i m hi => (hback.there_of_waiting hi).2.1) hi)
    refine hreceived.transmit (stepMove x c now p q) ?_ ?_ ?_ ?_ ?_
    · exact hwrap p q _ (by rw [getElem?_links_step, hl₀]; rfl)
    · intro m i hmove hkind hid
      exact ⟨m, hkind, hid, carries_step (carries_of_stepMove_deliver hc hmove)⟩
    · exact sentData_step_iff hlawful (fits_of_reachable hlawful h p) hl₀
        (fun i m hi => (hthere.there_of_waiting hi).2)
    · intro hmove
      exact stopped_step_iff.mpr (Or.inr (cause_of_stepMove_stop hmove))
    · intro hs
      exact stopped_step_iff.mpr (Or.inl hs)

/-- What a member has said to another one by the end of a step. -/
theorem said_step_iff (hlawful : hosts.Lawful)
    (h : s.Reachable hosts fun id => .ofHosts id hosts (tuning id))
    (hwrap : ∀ id, (s.members id).Unwrapped) (hc : s.Permits hosts x c) {payload : Bytes} :
    Said hosts (s.step x c now).wire p q payload ↔ Said hosts s.wire p q payload ∨
      p = x ∧ hosts.contains q = true ∧ ∃ o : Order, c = .input (.order o) ∧ o.reaches q = true ∧
        o.message.kind = .data ∧ o.message.payload = payload := by
  by_cases hx : p = x
  · subst hx
    by_cases hq : hosts.contains q = true
    · have hfits := fits_of_reachable hlawful h p
      obtain ⟨l, hl⟩ := hfits.exists_link hq
      obtain ⟨r, hr⟩ := (fits_of_reachable hlawful h q).exists_link hc.contains
      have hchannel := channel_of_reachable hlawful h hwrap hl hr
      have hsent : ∀ m, SentData hosts (s.step p c now).wire p q m ↔
          SentData hosts s.wire p q m ∨ l.Sends (stepMove p c now p q) m :=
        sentData_step_iff hlawful hfits hl (fun i m hi => (hchannel.there_of_waiting hi).2)
      simp only [Said, hsent, hq, true_and]
      constructor
      · rintro ⟨m, hold | ⟨m₀, now', hmove, hkind, rfl⟩, hpayload⟩
        · exact Or.inl ⟨m, hold, hpayload⟩
        · obtain ⟨-, hprompts⟩ := prompts_stepMove hmove nofun
          cases hprompts with
          | @order o hreach => exact Or.inr ⟨o, rfl, hreach, hkind, hpayload⟩
      · rintro (⟨m, hold, hpayload⟩ | ⟨o, rfl, hreach, hkind, hpayload⟩)
        · exact ⟨m, Or.inl hold, hpayload⟩
        · refine ⟨l.link.stamp o.message, Or.inr ⟨o.message, now, ?_, hkind, rfl⟩, hpayload⟩
          rw [stepMove, if_pos rfl, Links.moveOf, if_pos hreach]
    · -- There is no address to send to.
      have hnone : ∀ wire, ¬ Said hosts wire p q payload := by
        rintro wire ⟨m, ⟨-, host, hget, -⟩, -⟩
        exact hq (Hosts.contains_of_get? hget)
      simp [hnone, hq]
  · simp only [Said, SentData, carries_step_iff, hx, false_and, or_false]

end System

end Groupcast
