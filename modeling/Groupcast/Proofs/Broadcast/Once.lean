import Groupcast.Proofs.Broadcast.Calls
import Mathlib.Data.List.Forall2

/-!
# Relayed once, delivered once

A member sends an envelope of a message to all members when it broadcasts the message, or when the
message first gets through to it in an envelope and is some member's; it never does so again for the
same label.  All else that it sends are acknowledgements and, when their time has come, datagrams
that it has sent before (`Sends`).

This holds of any run of calls, as long as nobody gives the member a message of its own that it has
not broadcast yet (`Honest`); otherwise it would relay the message then, and again when it comes to
broadcast under that label.  The main result is `relayed_once`, which also says that nothing is
delivered twice, and nothing without a quorum of members whose envelopes got through.
-/

namespace Groupcast

/-! ## Copies for all members -/

/-- Datagrams hold an envelope of a message for each member, one for each in the order of the
table. -/
def FanOut (hosts : Hosts) (self : HostId) (m : Message) (ds : List Datagram) : Prop :=
  List.Forall₂ (fun h d => ∃ e : Message, d = ⟨h.address, e.encode⟩ ∧ e.kind = .data ∧
    e.sender = self ∧ e.receiver = h.id ∧ e.seq = m.seq ∧ e.payload = m.encode) hosts.toList ds

/-- The label of the message in the envelope that a datagram holds, if it holds one. -/
def Datagram.enveloped? (d : Datagram) : Option Label :=
  match Message.decode d.bytes with
  | .ok e =>
    if e.kind = .data then (Message.decode e.payload).toOption.map Label.ofMessage else none
  | .error _ => none

theorem Datagram.enveloped?_of_ack {d : Datagram} (h : d.kind? = some .ack) :
    d.enveloped? = none := by
  simp only [kind?] at h
  simp only [enveloped?]
  cases hdecode : Message.decode d.bytes with
  | error e => rfl
  | ok e =>
    rw [hdecode] at h
    simp [Option.some.inj h]

namespace Links

variable {g : Links} {owner : HostId} {hosts : Hosts}

/-- The ends of the links of a member are the members. -/
theorem Fits.toList_eq (h : g.Fits owner hosts) :
    hosts.toList = g.links.toList.map fun e => e.2.peer := by
  have hpeers : (g.links.map fun _ l => l.peer) = hosts.byId :=
    Std.ExtTreeMap.ext_getElem? fun id => by
      rw [Std.ExtTreeMap.getElem?_map]
      exact h.map_peer id
  rw [Hosts.toList, ← hpeers, Tables.values_eq_map_snd, Std.ExtTreeMap.toList_map, List.map_map]
  rfl

theorem sent_sendAll (g : Links) (m : Message) (now : Nat) : (g.sendAll m now).sent =
    g.links.toList.map fun e => e.2.link.datagram (e.2.link.stamp m) := by
  simp only [sendAll, onAll, Std.ExtTreeMap.toList_map, List.flatMap_map]
  exact List.map_eq_flatMap.symm

end Links

variable {hosts : Hosts} {self : HostId} {m : Message} {ds : List Datagram}

theorem FanOut.enveloped (h : FanOut hosts self m ds) :
    ds.filterMap Datagram.enveloped? = List.replicate hosts.size (.ofMessage m) := by
  have hlength : hosts.toList.length = hosts.size := by
    rw [Hosts.toList, Tables.values_eq_map_snd, List.length_map, Std.ExtTreeMap.length_toList]
    rfl
  rw [← hlength]
  rw [FanOut] at h
  generalize hosts.toList = hs at h
  induction h with
  | nil => rfl
  | cons hd _ ih =>
    obtain ⟨e, rfl, hkind, -, -, -, hpayload⟩ := hd
    rw [List.filterMap_cons_some, ih]
    · rfl
    · simp [Datagram.enveloped?, hkind, hpayload, Except.toOption]

namespace UniformBroadcast

variable {u : UniformBroadcast} {calls earlier : List (Call × Nat)} {c : Call × Nat}
  {label : Label} {I : List Label} {S : List (HostId × Label)} {D : List Message}

/-- To relay a message is to send an envelope of it to each member. -/
theorem fanOut_relay (hfits : u.group.links.Fits self hosts) (m : Message) (now : Nat) :
    FanOut hosts self m (u.group.links.performAll now [u.toAll m]).2 := by
  rw [Links.performAll_singleton]
  show FanOut hosts self m (u.group.links.sendAll (u.envelope m) now).sent
  rw [FanOut, hfits.toList_eq, Links.sent_sendAll, List.forall₂_map_left_iff,
    List.forall₂_map_right_iff, List.forall₂_same]
  intro e _
  exact ⟨e.2.link.stamp (u.envelope m), rfl, rfl, hfits.self_eq, rfl, rfl, rfl⟩

/-! ## What a call sends -/

/-- All that a run sends. -/
def sent (u : UniformBroadcast) (calls : List (Call × Nat)) : List Datagram :=
  u.log (fun u c => (u.effect c).sent) calls

/-- The labels of the envelopes that a run sends, apart from those that are sent again. -/
def envelopes (u : UniformBroadcast) (calls : List (Call × Nat)) : List Label :=
  u.log (fun u c => if c.1 = .timeout then [] else (u.effect c).sent.filterMap Datagram.enveloped?)
    calls

/-- The labels that a run gives out. -/
def given (u : UniformBroadcast) (calls : List (Call × Nat)) : List Label :=
  u.log (fun u c => (u.own? c).toList.map Label.ofMessage) calls

/-- What a call sends after others.  A message that it brings in for the first time goes to all
members; beyond that there are acknowledgements, and what has been sent before. -/
def Sends (u : UniformBroadcast) (earlier : List (Call × Nat)) (c : Call × Nat) : Prop :=
  match c.1 with
  | .broadcast m => Label.ofMessage ((u.after earlier).stamp m) ∉ u.introduced earlier ∧
      FanOut u.group.hosts u.self ((u.after earlier).stamp m) ((u.after earlier).effect c).sent
  | .deliver _ _ => ∃ acks copies, ((u.after earlier).effect c).sent = acks ++ copies ∧
      (∀ d ∈ acks, d.kind? = some .ack) ∧
      ((∃ m, (u.after earlier).news? c = some m ∧ Label.ofMessage m ∉ u.introduced earlier ∧
          FanOut u.group.hosts u.self m copies) ∨
        (∀ m, (u.after earlier).news? c = some m → Label.ofMessage m ∈ u.introduced earlier) ∧
          copies = [])
  | .timeout => ∀ d ∈ ((u.after earlier).effect c).sent, d ∈ u.sent earlier
  | .stop => ((u.after earlier).effect c).sent = []

/-- The message in the envelope that a call brings, whether it gets through or not. -/
def Call.enveloped? : Call → Option Message
  | .deliver _ e => (Message.decode e.payload).toOption
  | .broadcast _ | .timeout | .stop => none

/-- No envelope names the member itself with a label that it has not given out. -/
def Honest (u : UniformBroadcast) (calls : List (Call × Nat)) : Prop :=
  Throughout (fun earlier c => ∀ m ∈ c.1.enveloped?, m.sender = u.self →
    Label.ofMessage m ∈ u.given earlier) calls

instance (u : UniformBroadcast) (calls : List (Call × Nat)) : Decidable (u.Honest calls) :=
  inferInstanceAs (Decidable (Throughout _ calls))

/-! ## The state of the links -/

theorem fits_after (hfits : u.group.links.Fits self hosts) (calls : List (Call × Nat)) :
    (u.after calls).group.links.Fits self hosts := by
  induction calls using List.reverseRecOn with
  | nil => exact hfits
  | append_singleton calls c ih =>
    rw [after_append]
    exact ih.driven (driven_effect _ c)

/-- What waits for an acknowledgement has been sent. -/
theorem waitingIn_after (h : u.group.links.WaitingIn []) (calls : List (Call × Nat)) :
    (u.after calls).group.links.WaitingIn (u.sent calls) := by
  induction calls using List.reverseRecOn with
  | nil => exact h
  | append_singleton calls c ih =>
    rw [after_append, sent, log_append]
    exact ih.driven (driven_effect _ c)

/-- What is sent when its time has come has been sent before. -/
theorem mem_of_mem_sent_onTimeout {ds : List Datagram} (h : u.group.links.WaitingIn ds)
    (now : Nat) : ∀ d ∈ (u.onTimeout now).sent, d ∈ ds := by
  intro d hd
  obtain ⟨id, l, hl, hmem⟩ := ((Links.moved_onTimeout now).mem_sent d).mp hd
  obtain ⟨i, m, hget, rfl⟩ := StubbornLink.mem_sent_onTimeout hmem
  exact h id l hl i m hget

/-! ## Labels are given out once -/

theorem given_append (u : UniformBroadcast) (calls : List (Call × Nat)) (c : Call × Nat) :
    u.given (calls ++ [c]) =
      u.given calls ++ ((u.after calls).own? c).toList.map Label.ofMessage :=
  log_append _ _ _ _

theorem length_given_mono (h : earlier <+: calls) :
    (u.given earlier).length ≤ (u.given calls).length := (collect_mono h).length_le

/-- A message that is broadcast is the member's own, and has the next number. -/
theorem of_own? {m : Message} (h : u.own? c = some m) :
    m.sender = u.self ∧ m.id = u.lastId + 1 := by
  obtain ⟨c, now⟩ := c
  cases c with
  | deliver | timeout | stop => cases h
  | broadcast m₀ =>
    cases h
    exact ⟨rfl, rfl⟩

theorem toNat_id_of_own? {m : Message} (h : u.own? c = some m)
    (hlt : u.lastId.toNat + 1 < UInt32.size) : m.id.toNat = u.lastId.toNat + 1 := by
  rw [(of_own? h).2, UInt32.toNat_add]
  exact Nat.mod_eq_of_lt hlt

/-- Labels are numbered as they are given out. -/
theorem given_after (hstart : u.lastId = 0) (hids : (u.given calls).length < UInt32.size) :
    (u.after calls).lastId.toNat = (u.given calls).length ∧
      ∀ label ∈ u.given calls, label.number.toNat ≤ (u.given calls).length := by
  induction calls using List.reverseRecOn with
  | nil => exact ⟨by rw [show u.after [] = u from rfl, hstart]; rfl, nofun⟩
  | append_singleton calls c ih =>
    rw [given_append, List.length_append] at hids ⊢
    rw [after_append]
    obtain ⟨hlast, hle⟩ := ih (by omega)
    have hkeep : (u.after calls).own? c = none →
        ((u.after calls).effect c).state.lastId = (u.after calls).lastId →
        ((u.after calls).effect c).state.lastId.toNat = (u.given calls).length +
          (((u.after calls).own? c).toList.map Label.ofMessage).length ∧
        ∀ label ∈ u.given calls ++ ((u.after calls).own? c).toList.map Label.ofMessage,
          label.number.toNat ≤ (u.given calls).length +
            (((u.after calls).own? c).toList.map Label.ofMessage).length := by
      intro hnone heq
      simpa [hnone, heq, hlast] using hle
    cases (u.after calls).turn_effect c with
    | rest hlastId _ _ _ _ hnone _ => exact hkeep hnone hlastId
    | hold _ htakes _ _ _ hnone _ => exact hkeep hnone htakes.lastId_eq
    | deliver _ htakes _ _ _ hnone _ => exact hkeep hnone htakes.lastId_eq
    | @broadcast m _ _ hlastId _ _ _ _ hown _ =>
      rw [hown] at hids ⊢
      have hnext : m.id.toNat = (u.given calls).length + 1 := by
        rw [toNat_id_of_own? hown (by rw [hlast]; exact hids), hlast]
      refine ⟨by rw [hlastId]; exact hnext, fun label hlabel => ?_⟩
      rcases List.mem_append.mp hlabel with hold | hnew
      · exact Nat.le_succ_of_le (hle label hold)
      · rw [List.mem_singleton.mp hnew]
        exact hnext.le

/-- What is brought in under a label of the member itself has been broadcast under it. -/
theorem mem_given_of_introduced (hhonest : u.Honest calls) :
    ∀ label ∈ u.introduced calls, label.host = u.self → label ∈ u.given calls := by
  induction calls using List.reverseRecOn with
  | nil => exact nofun
  | append_singleton calls c ih =>
    obtain ⟨hbefore, hlast⟩ := throughout_append.mp hhonest
    intro label hlabel hhost
    rw [introduced_append] at hlabel
    rw [given_append, List.mem_append]
    rcases List.mem_append.mp hlabel with hold | hnew
    · exact Or.inl (ih hbefore label hold hhost)
    obtain ⟨m, hm, rfl⟩ := List.mem_map.mp hnew
    rw [Option.mem_toList] at hm
    obtain ⟨c, now⟩ := c
    cases c with
    | timeout | stop => cases hm
    | broadcast m₀ =>
      cases hm
      exact Or.inr (List.mem_singleton_self _)
    | deliver sender e =>
      simp only [news?, Option.filter_eq_some_iff] at hm
      have hdecode := (BestEffort.heard_eq_some.mp hm.1).2
      refine Or.inl (hlast m ?_ hhost)
      simp [Call.enveloped?, hdecode, Except.toOption]

/-! ## What runs keep -/

/-- A broadcast of a member that has not been called yet. -/
structure Fresh (u : UniformBroadcast) (owner : HostId) (hosts : Hosts) : Prop where
  hosts_eq : u.group.hosts = hosts
  fits : u.group.links.Fits owner hosts
  waiting : u.group.links.WaitingIn []
  lastId_eq : u.lastId = 0
  books : u.Books [] [] []

theorem fresh_ofHosts (hlawful : hosts.Lawful) (owner : HostId) (tuning : Tuning) :
    (UniformBroadcast.ofHosts owner hosts tuning).Fresh owner hosts where
  hosts_eq := rfl
  fits := Links.fits_ofHosts hlawful tuning
  waiting := Links.forall_link_toPeers fun peer =>
    PerfectLink.allWaiting_ofPeer owner peer tuning.retransmit
  lastId_eq := rfl
  books := books_ofHosts owner hosts tuning

variable {owner : HostId}

/-- A label that is given out is new. -/
theorem Fresh.not_mem_introduced (hfresh : u.Fresh owner hosts)
    (hids : (u.given (calls ++ [c])).length < UInt32.size) (hhonest : u.Honest calls)
    {m : Message} (hm : (u.after calls).own? c = some m) :
    Label.ofMessage m ∉ u.introduced calls := by
  intro hmem
  rw [given_append, hm, List.length_append] at hids
  replace hids : (u.given calls).length + 1 < UInt32.size := hids
  obtain ⟨hlast, hle⟩ := given_after hfresh.lastId_eq (Nat.lt_of_succ_lt hids)
  have hgiven := hle _ (mem_given_of_introduced hhonest _ hmem
    ((of_own? hm).1.trans (u.self_after calls)))
  have hnext : (Label.ofMessage m).number.toNat = (u.given calls).length + 1 := by
    rw [← hlast]
    exact toNat_id_of_own? hm (by rw [hlast]; exact hids)
  omega

/-- What is relayed is what is brought in for the first time. -/
theorem relays_cases (hbooks : u.Books I S D) (sender : HostId) (e : Message) {m : Message}
    (hheard : u.heard sender e = some m) (now : Nat) :
    (u.news? (.deliver sender e, now) = some m ∧ Label.ofMessage m ∉ I ∧
        (u.received sender e).relays m = [u.toAll m]) ∨
      (∀ m', u.news? (.deliver sender e, now) = some m' → Label.ofMessage m' ∈ I) ∧
        (u.received sender e).relays m = [] := by
  have hnews : u.news? (.deliver sender e, now) =
      if u.group.hosts.contains m.sender = true then some m else none := by
    simp only [news?, hheard, Option.filter_some]
  have hrelays : (u.received sender e).relays m = if !u.group.hosts.contains m.sender ||
      u.delivered.contains (.ofMessage m) || u.forwarded.contains (.ofMessage m) then []
      else [u.toAll m] := by
    rw [relays, toAll_received]
    rfl
  rw [hnews, hrelays]
  by_cases hcontains : u.group.hosts.contains m.sender = true
  · rw [if_pos hcontains, hcontains, Bool.not_true, Bool.false_or]
    by_cases hold : Label.ofMessage m ∈ u.forwarded
    · refine Or.inr ⟨?_, if_pos ?_⟩
      · rintro m' ⟨⟩
        exact (hbooks.mem_forwarded _).mp hold
      · rw [Std.ExtTreeSet.contains_iff_mem.mpr hold, Bool.or_true]
    · refine Or.inl ⟨rfl, fun hmem => hold ((hbooks.mem_forwarded _).mpr hmem), if_neg ?_⟩
      rw [Bool.or_eq_true, Std.ExtTreeSet.contains_iff_mem, Std.ExtTreeSet.contains_iff_mem]
      rintro (hdelivered | hforwarded)
      · exact hold (hbooks.forwarded_of_delivered _ hdelivered)
      · exact hold hforwarded
  · rw [if_neg hcontains, if_pos (by simp [hcontains])]
    refine Or.inr ⟨fun m' hm' => ?_, rfl⟩
    cases hm'

/-- **What a call sends.** -/
theorem Fresh.sends (hfresh : u.Fresh owner hosts)
    (hids : (u.given (calls ++ [c])).length < UInt32.size) (hhonest : u.Honest calls) :
    u.Sends calls c := by
  have hbooks := books_after hfresh.books calls
  have hfits := fits_after hfresh.fits calls
  have hself : u.self = owner := hfresh.fits.self_eq
  obtain ⟨c, now⟩ := c
  cases c with
  | stop => rfl
  | timeout =>
    exact mem_of_mem_sent_onTimeout (waitingIn_after hfresh.waiting calls) now
  | broadcast m =>
    refine ⟨hfresh.not_mem_introduced hids hhonest rfl, ?_⟩
    rw [hfresh.hosts_eq, hself]
    have hcopies := fanOut_relay hfits ((u.after calls).stamp m) now
    rw [Links.performAll_singleton] at hcopies
    exact hcopies
  | deliver sender e =>
    refine ⟨((u.after calls).group.deliver sender e).sent, ?_⟩
    have hacks : ∀ d ∈ ((u.after calls).group.deliver sender e).sent, d.kind? = some .ack :=
      fun d hd => Links.kind?_of_mem_sent_deliver hd
    show ∃ copies, ((u.after calls).deliver sender e now).sent = _ ∧ _
    cases hheard : (u.after calls).heard sender e with
    | none =>
      rw [deliver_of_heard_eq_none hheard]
      refine ⟨[], (List.append_nil _).symm, hacks, Or.inr ⟨fun m hm => ?_, rfl⟩⟩
      simp only [news?, hheard] at hm
      cases hm
    | some m =>
      rw [deliver_of_heard_eq_some hheard]
      refine ⟨_, rfl, hacks, ?_⟩
      have hrelays := congrArg Prod.snd
        (onRelayed_eq ((u.after calls).received sender e) sender m now).2
      simp only at hrelays
      rw [hrelays]
      rcases relays_cases hbooks sender e hheard now with ⟨hnews, hnew, horders⟩ | ⟨hold, horders⟩
      · refine Or.inl ⟨m, hnews, hnew, ?_⟩
        rw [horders, hfresh.hosts_eq, hself, ← toAll_received]
        exact fanOut_relay (hfits.moved (Links.moved_deliver sender e)) m now
      · refine Or.inr ⟨hold, ?_⟩
        rw [horders]
        rfl

/-- The envelopes that a call sends, apart from those that are sent again, are of one message that
is new. -/
theorem Sends.envelopes (h : u.Sends calls c) (hhosts : u.group.hosts = hosts) :
    (∃ m, (u.after calls).news? c = some m ∧ Label.ofMessage m ∉ u.introduced calls ∧
        (if c.1 = .timeout then []
          else ((u.after calls).effect c).sent.filterMap Datagram.enveloped?) =
          List.replicate hosts.size (.ofMessage m)) ∨
      (∀ m, (u.after calls).news? c = some m → Label.ofMessage m ∈ u.introduced calls) ∧
        (if c.1 = .timeout then []
          else ((u.after calls).effect c).sent.filterMap Datagram.enveloped?) = [] := by
  subst hhosts
  obtain ⟨c, now⟩ := c
  cases c with
  | timeout => exact Or.inr ⟨nofun, rfl⟩
  | stop => exact Or.inr ⟨nofun, rfl⟩
  | broadcast m =>
    obtain ⟨hnew, hcopies⟩ := h
    exact Or.inl ⟨_, rfl, hnew, hcopies.enveloped⟩
  | deliver sender e =>
    obtain ⟨acks, copies, hsent, hacks, hcopies⟩ := h
    have hnone : acks.filterMap Datagram.enveloped? = [] :=
      List.filterMap_eq_nil_iff.mpr fun d hd => Datagram.enveloped?_of_ack (hacks d hd)
    rw [hsent, if_neg nofun, List.filterMap_append, hnone, List.nil_append]
    rcases hcopies with ⟨m, hnews, hnew, hcopies⟩ | ⟨hold, rfl⟩
    · exact Or.inl ⟨m, hnews, hnew, hcopies.enveloped⟩
    · exact Or.inr ⟨hold, rfl⟩

/-- **What is introduced goes to each member once**, and nothing else does. -/
theorem Fresh.count_envelopes (hfresh : u.Fresh owner hosts)
    (hids : (u.given calls).length < UInt32.size) (hhonest : u.Honest calls) (k : Label) :
    (u.envelopes calls).count k = if k ∈ u.introduced calls then hosts.size else 0 := by
  induction calls using List.reverseRecOn with
  | nil => rfl
  | append_singleton calls c ih =>
    obtain ⟨hbefore, -⟩ := throughout_append.mp hhonest
    have hsends := (hfresh.sends hids hbefore).envelopes hfresh.hosts_eq
    have hids' := Nat.lt_of_le_of_lt (length_given_mono (List.prefix_append _ _)) hids
    rw [envelopes, log_append, ← envelopes, introduced_append, List.count_append, ih hids' hbefore]
    rcases hsends with ⟨m, hnews, hnew, hsent⟩ | ⟨hold, hsent⟩
    · rw [hsent, hnews, List.count_replicate]
      by_cases hk : k = Label.ofMessage m
      · simp [hk, hnew]
      · simp [hk, beq_eq_false_iff_ne.mpr (Ne.symm hk)]
    · rw [hsent, List.count_nil, Nat.add_zero]
      cases hnews : (u.after calls).news? c with
      | none => simp
      | some m =>
        have hmem := hold m hnews
        by_cases hk : k = Label.ofMessage m
        · simp [hk, hmem]
        · simp [hk]

/-! ## What waits has not been delivered -/

/-- What waits has not been delivered, as long as only new messages are broadcast. -/
theorem Turn.apart {hears : HostId → Message → Prop} {os : List Order}
    {broadcast? deliver? : Option Message} {u' : UniformBroadcast}
    (h : Turn hears os broadcast? deliver? u u')
    (hapart : ∀ (label : Label) (p : Pending), u.pending[label]? = some p → label ∉ u.delivered)
    (hnew : ∀ m, broadcast? = some m → Label.ofMessage m ∉ u.delivered) :
    ∀ (label : Label) (p : Pending), u'.pending[label]? = some p → label ∉ u'.delivered := by
  intro label p hp
  cases h with
  | rest _ _ hpending hdelivered _ _ _ =>
    rw [hdelivered]
    exact hapart label p (hpending ▸ hp)
  | @broadcast m _ _ _ _ hpending hdelivered _ hbroadcast _ =>
    rw [hpending, Std.ExtTreeMap.getElem?_insertIfNew] at hp
    rw [hdelivered]
    split at hp
    · rename_i hlabel
      rw [← Std.compare_eq_iff_eq.mp hlabel.1]
      exact hnew m hbroadcast
    · exact hapart label p hp
  | @hold holder m _ htakes _ _ hdelivered _ _ =>
    rw [hdelivered]
    by_cases hlabel : label = Label.ofMessage m
    · rw [hlabel]
      exact htakes.not_mem_delivered
    · exact hapart label p (htakes.pending_of_ne label hlabel ▸ hp)
  | @deliver holder m _ htakes hpending _ hdelivered _ _ =>
    by_cases hlabel : label = Label.ofMessage m
    · rw [hlabel, hpending] at hp
      cases hp
    · rw [hdelivered, not_or]
      exact ⟨hlabel, hapart label p (htakes.pending_of_ne label hlabel ▸ hp)⟩

theorem Fresh.apart (hfresh : u.Fresh owner hosts) (hids : (u.given calls).length < UInt32.size)
    (hhonest : u.Honest calls) : ∀ (label : Label) (p : Pending),
      (u.after calls).pending[label]? = some p → label ∉ (u.after calls).delivered := by
  induction calls using List.reverseRecOn with
  | nil => exact fun label p hp => absurd (hfresh.books.waits label p hp).forwarded (by
      rw [hfresh.books.mem_forwarded]; exact List.not_mem_nil)
  | append_singleton calls c ih =>
    obtain ⟨hbefore, -⟩ := throughout_append.mp hhonest
    have hbooks := books_after hfresh.books calls
    have hids' := Nat.lt_of_le_of_lt (length_given_mono (List.prefix_append _ _)) hids
    rw [after_append]
    refine ((u.after calls).turn_effect c).apart (ih hids' hbefore) fun m hm hmem => ?_
    refine hfresh.not_mem_introduced hids hbefore hm ?_
    exact (hbooks.mem_forwarded _).mp (hbooks.forwarded_of_delivered _ hmem)

/-! ## Whose envelopes get through -/

/-- What gets through comes from a member. -/
theorem Fresh.contains_of_surfaced (hfresh : u.Fresh owner hosts) (calls : List (Call × Nat)) :
    ∀ s ∈ u.surfaced calls, hosts.contains s.1 = true := by
  induction calls using List.reverseRecOn with
  | nil => exact nofun
  | append_singleton calls c ih =>
    rw [surfaced_append]
    refine List.forall_mem_append.mpr ⟨ih, fun s hs => ?_⟩
    obtain ⟨⟨id, m⟩, hm, rfl⟩ := List.mem_map.mp hs
    rw [Option.mem_toList] at hm
    obtain ⟨c, now⟩ := c
    cases c with
    | broadcast | timeout | stop => cases hm
    | deliver sender e =>
      obtain ⟨m', hheard, heq⟩ := Option.map_eq_some_iff.mp hm
      cases heq
      have hresult := (BestEffort.heard_eq_some.mp hheard).1
      cases hl : (u.after calls).group.links.links[id]? with
      | none =>
        replace hresult : ((u.after calls).group.links.deliver id e).result = some e := hresult
        simp only [Links.deliver, hl] at hresult
        cases hresult
      | some l =>
        exact Hosts.contains_of_get? ((fits_after hfresh.fits calls).get?_of_link hl)

/-! ## The main result -/

/-- **A member relays once and delivers once, whatever it is called with.**  As long as its numbers
do not run out, and nobody gives it a message of its own that it has not broadcast:

* a call sends what `Sends` says: a message that it brings in for the first time goes to every
  member, and no other does;
* of each label that is introduced there are thus as many envelopes as members in the whole run, and
  none of any other label, apart from those that are sent again;
* no label is delivered twice, and what is delivered is a member's, and in envelopes of a quorum of
  distinct members that have got through by then;
* at all times what waits has not been delivered and has fewer holders than a quorum, and both what
  waits and what has been delivered has been forwarded. -/
theorem relayed_once {hs : List Host} (hhosts : Hosts.ofList hs = .ok hosts) {tuning : Tuning}
    (hstart : u = .ofHosts owner hosts tuning) (calls : List (Call × Nat))
    (hids : (u.given calls).length < UInt32.size) (hhonest : u.Honest calls) :
    Throughout u.Sends calls ∧
      (∀ k, (u.envelopes calls).count k = if k ∈ u.introduced calls then hosts.size else 0) ∧
      ((u.deliveries calls).map Label.ofMessage).Nodup ∧
      Throughout (fun earlier c => ∀ m, ((u.after earlier).effect c).result = some m →
        hosts.contains m.sender = true ∧ ∃ A : List HostId, A.Nodup ∧
          hosts.size / 2 + 1 ≤ A.length ∧ ∀ id ∈ A, hosts.contains id = true ∧
            (id, Label.ofMessage m) ∈ u.surfaced (earlier ++ [c])) calls ∧
      ∀ earlier, earlier <+: calls → ∀ label,
        (label ∈ (u.after earlier).delivered → label ∈ (u.after earlier).forwarded) ∧
          ∀ p, (u.after earlier).pending[label]? = some p → label ∈ (u.after earlier).forwarded ∧
            label ∉ (u.after earlier).delivered ∧ p.holders.size < hosts.size / 2 + 1 := by
  have hfresh : u.Fresh owner hosts :=
    hstart ▸ fresh_ofHosts (Hosts.lawful_ofList hhosts) owner tuning
  have hgiven : ∀ earlier, earlier <+: calls → (u.given earlier).length < UInt32.size :=
    fun _ h => Nat.lt_of_le_of_lt (length_given_mono h) hids
  have hquorum : ∀ calls, (u.after calls).group.quorum = hosts.size / 2 + 1 := by
    intro calls
    rw [BestEffort.quorum, hosts_after, hfresh.hosts_eq]
    rfl
  refine ⟨fun earlier c h => ?_, hfresh.count_envelopes hids hhonest, ?_,
    fun earlier c _ m hm => ?_, fun earlier h label => ?_⟩
  · exact hfresh.sends (hgiven _ h) (hhonest.mono ((List.prefix_append _ _).trans h))
  · exact (books_after hfresh.books calls).delivers.nodup_label
  · have hbooks := books_after hfresh.books (earlier ++ [c])
    have hlast : m ∈ u.deliveries (earlier ++ [c]) := by
      rw [deliveries_append, hm]
      exact List.mem_append_right _ (List.mem_singleton_self m)
    obtain ⟨A, hnodup, hlength, hA⟩ := hbooks.delivers.exists_holders m hlast
    have hcontains := hbooks.contains_sender m hlast
    rw [hosts_after, hfresh.hosts_eq] at hcontains
    rw [hquorum] at hlength
    exact ⟨hcontains, A, hnodup, hlength, fun id hid =>
      ⟨hfresh.contains_of_surfaced _ _ (hA id hid), hA id hid⟩⟩
  · have hbooks := books_after hfresh.books earlier
    refine ⟨hbooks.forwarded_of_delivered label, fun p hp => ?_⟩
    have hwaits := hbooks.waits label p hp
    exact ⟨hwaits.forwarded, hfresh.apart (hgiven _ h) (hhonest.mono h) label p hp,
      hquorum earlier ▸ hwaits.size_lt⟩

/-- The message of the second of three members. -/
def rumour : Message := { Message.ofData 2 1 [79, 107] with id := 1 }

/-- A message of a host that is no member. -/
def strayNote : Message := { Message.ofData 9 1 [79] with id := 1 }

/-- An envelope as the link from a host numbers it.  It names the first host as its sender, whoever
sends it. -/
def wrapped (m : Message) (id : UInt32) : Message :=
  { Message.ofData 1 m.seq m.encode with id, receiver := 1 }

/-- The first of three members broadcasts, hears of the rumour from the third member before it hears
it from the second, is told twice, is given what is no message and what is no member's, has its
timers go off, is stopped, and hears of its own message. -/
def gossip : List (Call × Nat) :=
  [(.broadcast (.ofData 0 1 [72, 105]), 0), (.deliver 3 (wrapped rumour 1), 1),
    (.deliver 3 (wrapped rumour 2), 2), (.deliver 2 (wrapped strayNote 1), 3),
    (.deliver 2 (.ofData 2 0 [1, 2, 3]), 4), (.deliver 2 (wrapped rumour 3), 5), (.timeout, 500),
    (.deliver 2 (wrapped rumour 4), 501), (.stop, 502),
    (.deliver 2 (wrapped { Message.ofData 1 1 [72, 105] with id := 1 } 5), 503),
    (.deliver 3 (wrapped { Message.ofData 1 1 [72, 105] with id := 1 } 3), 504)]

/-- The first of three members. -/
def gossiper : UniformBroadcast := .ofHosts 1 .trio {}

/-- It has relayed the rumour to all three, once, and delivers it when it has heard of it from the
second member as well. -/
theorem relayed_once_gossip : (gossiper.given gossip).length < UInt32.size ∧
    gossiper.Honest gossip ∧ (gossiper.envelopes gossip).count ⟨2, 1⟩ = 3 ∧
    (gossiper.deliveries gossip).map Label.ofMessage = [⟨2, 1⟩, ⟨1, 1⟩] ∧
    ∃ A : List HostId, A.Nodup ∧ 2 ≤ A.length ∧ ∀ id ∈ A, Hosts.trio.contains id = true ∧
      (id, ⟨2, 1⟩) ∈ gossiper.surfaced (gossip.take 6) := by
  have hids : (gossiper.given gossip).length < UInt32.size := by decide +kernel
  have hhonest : gossiper.Honest gossip := by decide +kernel
  obtain ⟨-, hcount, -, hquorum, -⟩ := relayed_once Hosts.ofList_trio rfl gossip hids hhonest
  refine ⟨hids, hhonest, (hcount ⟨2, 1⟩).trans (by decide +kernel), by decide +kernel, ?_⟩
  have hresult : ((gossiper.after (gossip.take 5)).effect
      (.deliver 2 (wrapped rumour 3), 5)).result = some rumour := by
    decide +kernel
  exact (hquorum (gossip.take 5) _ (by decide +kernel) rumour hresult).2

end UniformBroadcast

end Groupcast
